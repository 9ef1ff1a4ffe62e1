/-
`std::map` over a comparator: entries sorted by key, two keys being the
same when neither is less than the other. Assigning to a key that is there
replaces the value and keeps the old key.
-/
import Mathlib

namespace OrdMap

variable {κ ν : Type*}

/-- What a comparator must be: a strict order whose incomparable elements
can stand for each other. -/
structure StrictWeak (lt : κ → κ → Bool) : Prop where
  irrefl : ∀ a, lt a a = false
  trans : ∀ {a b c}, lt a b = true → lt b c = true → lt a c = true
  /-- What is less than another stays so when third keys are in between. -/
  split : ∀ {a b c}, lt a b = true → lt a c = true ∨ lt c b = true

namespace StrictWeak

variable {lt : κ → κ → Bool} (h : StrictWeak lt)

/-- The keys a map does not tell apart. -/
def Equiv (lt : κ → κ → Bool) (a b : κ) : Prop := lt a b = false ∧ lt b a = false

include h

theorem asymm {a b : κ} (hab : lt a b = true) : lt b a = false := by
  by_contra hba
  have := h.trans hab (by simpa using hba)
  rw [h.irrefl] at this
  cases this

theorem equiv_refl (a : κ) : Equiv lt a a := ⟨h.irrefl a, h.irrefl a⟩

theorem lt_of_equiv_lt {a b c : κ} (hab : Equiv lt a b) (hbc : lt b c = true) : lt a c = true :=
  (h.split hbc).resolve_left (by simp [hab.2])

end StrictWeak

theorem StrictWeak.equiv_symm {lt : κ → κ → Bool} {a b : κ} (h : StrictWeak.Equiv lt a b) : StrictWeak.Equiv lt b a :=
  ⟨h.2, h.1⟩

/-- A comparator that looks at a key in a linear order. -/
theorem StrictWeak.of_key {α : Type*} [LinearOrder α] {lt : κ → κ → Bool} (f : κ → α)
    (h : ∀ a b, lt a b = true ↔ f a < f b) : StrictWeak lt where
  irrefl a := by
    by_contra hne
    exact lt_irrefl _ ((h a a).mp (by simpa using hne))
  trans hab hbc := (h _ _).mpr (lt_trans ((h _ _).mp hab) ((h _ _).mp hbc))
  split {a b c} hab := by
    rcases lt_or_ge (f a) (f c) with hac | hca
    · exact .inl ((h a c).mpr hac)
    · exact .inr ((h c b).mpr (lt_of_le_of_lt hca ((h a b).mp hab)))

theorem StrictWeak.equiv_iff_key {α : Type*} [LinearOrder α] {lt : κ → κ → Bool} (f : κ → α)
    (h : ∀ a b, lt a b = true ↔ f a < f b) {a b : κ} : StrictWeak.Equiv lt a b ↔ f a = f b := by
  simp only [StrictWeak.Equiv, ← Bool.not_eq_true, h, not_lt]
  exact ⟨fun hab => le_antisymm hab.2 hab.1, fun hab => ⟨hab.ge, hab.le⟩⟩

/-- Merge sort sorts by a comparator. -/
theorem StrictWeak.mergeSort_sorted {lt : κ → κ → Bool} (h : StrictWeak lt) (l : List κ) :
    (l.mergeSort fun a b => !lt b a).Pairwise fun a b => lt b a = false := by
  have htrans : ∀ a b c, (!lt b a) = true → (!lt c b) = true → (!lt c a) = true := by
    intro a b c hab hbc
    simp only [Bool.not_eq_true'] at hab hbc ⊢
    by_contra hca
    rcases h.split (c := b) (by simpa using hca) with hcb | hba
    · rw [hbc] at hcb; cases hcb
    · rw [hab] at hba; cases hba
  have htotal : ∀ a b, (!lt b a || !lt a b) = true := by
    intro a b
    cases hba : lt b a with
    | false => rfl
    | true => simp [h.asymm hba]
  exact (List.pairwise_mergeSort htrans htotal l).imp fun hab => by simpa using hab

/-- `m[k] = v`. -/
def insert (lt : κ → κ → Bool) (k : κ) (v : ν) : List (κ × ν) → List (κ × ν)
  | [] => [(k, v)]
  | e :: m =>
    if lt k e.1 then (k, v) :: e :: m
    else if lt e.1 k then e :: insert lt k v m
    else (e.1, v) :: m

/-- The keys ascend. -/
def Sorted (lt : κ → κ → Bool) (m : List (κ × ν)) : Prop := m.Pairwise fun a b => lt a.1 b.1 = true

/-- Where an entry of the updated map comes from. -/
theorem mem_insert {lt : κ → κ → Bool} {k : κ} {v : ν} {m : List (κ × ν)} {e : κ × ν}
    (h : e ∈ insert lt k v m) : e ∈ m ∨ (e.2 = v ∧ (e.1 = k ∨ ∃ e' ∈ m, e'.1 = e.1)) := by
  induction m with
  | nil =>
    obtain rfl : e = (k, v) := by simpa [insert] using h
    exact .inr ⟨rfl, .inl rfl⟩
  | cons x m ih =>
    simp only [insert] at h
    split at h
    · rcases List.mem_cons.mp h with rfl | h
      · exact .inr ⟨rfl, .inl rfl⟩
      · exact .inl h
    · split at h
      · rcases List.mem_cons.mp h with rfl | h
        · exact .inl (by simp)
        · rcases ih h with h | ⟨hv, h | ⟨e', he', h⟩⟩
          · exact .inl (by simp [h])
          · exact .inr ⟨hv, .inl h⟩
          · exact .inr ⟨hv, .inr ⟨e', by simp [he'], h⟩⟩
      · rcases List.mem_cons.mp h with rfl | h
        · exact .inr ⟨rfl, .inr ⟨x, by simp, rfl⟩⟩
        · exact .inl (by simp [h])

theorem mem_insert_key {lt : κ → κ → Bool} {k : κ} {v : ν} {m : List (κ × ν)} {e : κ × ν}
    (h : e ∈ insert lt k v m) : e.1 = k ∨ ∃ e' ∈ m, e'.1 = e.1 := by
  rcases mem_insert h with h | ⟨-, h⟩
  · exact .inr ⟨e, h, rfl⟩
  · exact h

theorem Sorted.insert {lt : κ → κ → Bool} (hlt : StrictWeak lt) {m : List (κ × ν)} (hm : Sorted lt m) (k : κ) (v : ν) :
    Sorted lt (insert lt k v m) := by
  induction m with
  | nil => simp [OrdMap.insert, Sorted]
  | cons x m ih =>
    obtain ⟨hx, hm⟩ := List.pairwise_cons.mp hm
    simp only [OrdMap.insert]
    split
    · next hk =>
      refine List.pairwise_cons.mpr ⟨fun e he => ?_, List.pairwise_cons.mpr ⟨hx, hm⟩⟩
      rcases List.mem_cons.mp he with rfl | he
      · exact hk
      · exact hlt.trans hk (hx e he)
    · split
      · next hk =>
        refine List.pairwise_cons.mpr ⟨fun e he => ?_, ih hm⟩
        rcases mem_insert_key he with h | ⟨e', he', h⟩
        · rw [h]; exact hk
        · rw [← h]; exact hx e' he'
      · exact List.pairwise_cons.mpr ⟨hx, hm⟩

/-- What has been assigned is found. -/
theorem lookup_insert [BEq κ] [LawfulBEq κ] {lt : κ → κ → Bool} (heq : ∀ {a b}, StrictWeak.Equiv lt a b → a = b)
    (hlt : StrictWeak lt) (k : κ) (v : ν) (m : List (κ × ν)) : (insert lt k v m).lookup k = some v := by
  induction m with
  | nil => simp [insert]
  | cons x m ih =>
    simp only [insert]
    split
    · simp
    · next hk =>
      split
      · next hxk =>
        have hne : (k == x.1) = false := by
          refine beq_eq_false_iff_ne.mpr fun h => ?_
          rw [← h, hlt.irrefl] at hxk
          cases hxk
        rw [List.lookup_cons, hne]
        exact ih
      · next hxk =>
        have hx : k = x.1 := heq ⟨by simpa using hk, by simpa using hxk⟩
        rw [hx, List.lookup_cons, beq_self_eq_true]

/-- The other keys keep what they have. -/
theorem lookup_insert_ne [BEq κ] [LawfulBEq κ] {lt : κ → κ → Bool} (heq : ∀ {a b}, StrictWeak.Equiv lt a b → a = b)
    {k k' : κ} (h : k' ≠ k) (v : ν) (m : List (κ × ν)) : (insert lt k v m).lookup k' = m.lookup k' := by
  have hne : (k' == k) = false := beq_eq_false_iff_ne.mpr h
  induction m with
  | nil => rw [insert, List.lookup_cons, hne]
  | cons x m ih =>
    simp only [insert]
    split
    · rw [List.lookup_cons, hne]
    · next hk =>
      split
      · rw [List.lookup_cons, List.lookup_cons, ih]
      · next hxk =>
        have hx : k = x.1 := heq ⟨by simpa using hk, by simpa using hxk⟩
        rw [List.lookup_cons, List.lookup_cons, ← hx, hne]

/-- A key that is new goes in beside the others. -/
theorem insert_perm {lt : κ → κ → Bool} {k : κ} {v : ν} {m : List (κ × ν)}
    (h : ∀ e ∈ m, ¬StrictWeak.Equiv lt k e.1) : (insert lt k v m).Perm ((k, v) :: m) := by
  induction m with
  | nil => exact .refl _
  | cons x m ih =>
    simp only [insert]
    split
    · exact .refl _
    · next hk =>
      split
      · exact ((ih fun e he => h e (by simp [he])).cons x).trans (.swap _ _ _)
      · next hk' => exact absurd ⟨by simpa using hk, by simpa using hk'⟩ (h x (by simp))

/-- A key is there once. -/
theorem Sorted.unique {lt : κ → κ → Bool} {m : List (κ × ν)} (hm : Sorted lt m) {e e' : κ × ν}
    (he : e ∈ m) (he' : e' ∈ m) (h : StrictWeak.Equiv lt e.1 e'.1) : e = e' := by
  induction m with
  | nil => cases he
  | cons x m ih =>
    obtain ⟨hx, hm⟩ := List.pairwise_cons.mp hm
    rcases List.mem_cons.mp he with h₁ | h₁ <;> rcases List.mem_cons.mp he' with h₂ | h₂
    · rw [h₁, h₂]
    · have := h.1
      rw [h₁, hx e' h₂] at this
      cases this
    · have := h.2
      rw [h₂, hx e h₁] at this
      cases this
    · exact ih hm h₁ h₂

/-! ## Sequences of assignments -/

/-- `m[k] = v` for each pair in turn. -/
def assignAll (lt : κ → κ → Bool) (ps : List (κ × ν)) (m : List (κ × ν)) : List (κ × ν) :=
  ps.foldl (fun m p => insert lt p.1 p.2 m) m

def same (lt : κ → κ → Bool) (a b : κ) : Bool := !lt a b && !lt b a

theorem same_iff {lt : κ → κ → Bool} {a b : κ} : same lt a b = true ↔ StrictWeak.Equiv lt a b := by
  simp [same, StrictWeak.Equiv]

/-- The values that the assignments replace. -/
def replaced (lt : κ → κ → Bool) : List (κ × ν) → List (κ × ν) → List ν
  | [], _ => []
  | p :: ps, m => (m.filter fun e => same lt p.1 e.1).map Prod.snd ++ replaced lt ps (insert lt p.1 p.2 m)

/-- An assignment adds its value, and takes away the one it replaces. -/
theorem insert_values_perm {lt : κ → κ → Bool} (hlt : StrictWeak lt) {k : κ} {v : ν} {m : List (κ × ν)} (hm : Sorted lt m) :
    ((insert lt k v m).map Prod.snd ++ (m.filter fun e => same lt k e.1).map Prod.snd).Perm (v :: m.map Prod.snd) := by
  induction m with
  | nil => exact .refl _
  | cons x m ih =>
    obtain ⟨hx, hm⟩ := List.pairwise_cons.mp hm
    simp only [insert]
    split
    · next hk =>
      have hnone : ((x :: m).filter fun e => same lt k e.1) = [] := by
        refine List.filter_eq_nil_iff.mpr fun e he hs => ?_
        have hs := (same_iff.mp hs).1
        rcases List.mem_cons.mp he with rfl | he
        · rw [hk] at hs; cases hs
        · rw [hlt.trans hk (hx e he)] at hs; cases hs
      rw [hnone]
      simp
    · next hk =>
      split
      · next hxk =>
        have hns : same lt k x.1 = false := by simp [same, hxk]
        rw [List.filter_cons, hns]
        simp only [Bool.false_eq_true, if_false, List.map_cons, List.cons_append]
        exact ((ih hm).cons x.2).trans (.swap _ _ _)
      · next hxk =>
        have hs : same lt k x.1 = true := by simp [same, hk, hxk]
        have hnone : (m.filter fun e => same lt k e.1) = [] := by
          refine List.filter_eq_nil_iff.mpr fun e he hse => ?_
          have h := hlt.lt_of_equiv_lt (same_iff.mp hs) (hx e he)
          rw [(same_iff.mp hse).1] at h
          cases h
        rw [List.filter_cons, hs, hnone]
        simp only [if_true, List.map_cons, List.map_nil, List.cons_append]
        exact (List.perm_append_singleton x.2 _).cons v

/-- **Every value assigned is in the map or was replaced.** -/
theorem assignAll_values_perm {lt : κ → κ → Bool} (hlt : StrictWeak lt) : ∀ {ps m : List (κ × ν)}, Sorted lt m →
    ((assignAll lt ps m).map Prod.snd ++ replaced lt ps m).Perm (ps.map Prod.snd ++ m.map Prod.snd)
  | [], m, _ => by simp [assignAll, replaced]
  | p :: ps, m, hm => by
    have hins := hm.insert hlt p.1 p.2
    have h := insert_values_perm hlt (k := p.1) (v := p.2) hm
    have ih : ((assignAll lt ps (insert lt p.1 p.2 m)).map Prod.snd ++ replaced lt ps (insert lt p.1 p.2 m)).Perm _ :=
      assignAll_values_perm hlt hins
    have hswap : ((assignAll lt ps (insert lt p.1 p.2 m)).map Prod.snd ++
        ((m.filter fun e => same lt p.1 e.1).map Prod.snd ++ replaced lt ps (insert lt p.1 p.2 m))).Perm
        (((assignAll lt ps (insert lt p.1 p.2 m)).map Prod.snd ++ replaced lt ps (insert lt p.1 p.2 m)) ++
          (m.filter fun e => same lt p.1 e.1).map Prod.snd) := by
      rw [List.append_assoc]
      exact List.perm_append_comm.append_left _
    refine hswap.trans ((ih.append_right _).trans ?_)
    rw [List.append_assoc]
    exact (h.append_left _).trans List.perm_middle

/-- Keys that the map tells apart are all kept. -/
theorem assignAll_perm {lt : κ → κ → Bool} : ∀ {ps m : List (κ × ν)}, (∀ p ∈ ps, ∀ e ∈ m, ¬StrictWeak.Equiv lt p.1 e.1) →
    (ps.Pairwise fun p q => ¬StrictWeak.Equiv lt p.1 q.1) → (assignAll lt ps m).Perm (ps ++ m)
  | [], _, _, _ => .refl _
  | p :: ps, m, hm, hp => by
    rw [List.forall_mem_cons] at hm
    obtain ⟨hp₁, hp⟩ := List.pairwise_cons.mp hp
    have hins := insert_perm (v := p.2) hm.1
    have ih : (assignAll lt ps (insert lt p.1 p.2 m)).Perm (ps ++ insert lt p.1 p.2 m) := by
      refine assignAll_perm (fun q hq e he => ?_) hp
      rcases List.mem_cons.mp (hins.mem_iff.mp he) with rfl | he
      · exact fun h => hp₁ q hq (StrictWeak.equiv_symm h)
      · exact hm.2 q hq e he
    exact ih.trans ((hins.append_left ps).trans List.perm_middle)

/-- Nothing is replaced only when the keys are told apart. -/
theorem pairwise_of_replaced_nil {lt : κ → κ → Bool} (hlt : StrictWeak lt) : ∀ {ps m : List (κ × ν)}, Sorted lt m →
    replaced lt ps m = [] → (∀ p ∈ ps, ∀ e ∈ m, ¬StrictWeak.Equiv lt p.1 e.1) ∧
      ps.Pairwise fun p q => ¬StrictWeak.Equiv lt p.1 q.1
  | [], _, _, _ => ⟨nofun, .nil⟩
  | p :: ps, m, hm, h => by
    obtain ⟨h₁, h₂⟩ := List.append_eq_nil_iff.mp h
    have hnew : ∀ e ∈ m, ¬StrictWeak.Equiv lt p.1 e.1 := fun e he hs =>
      List.filter_eq_nil_iff.mp (List.map_eq_nil_iff.mp h₁) e he (same_iff.mpr hs)
    obtain ⟨ih₁, ih₂⟩ := pairwise_of_replaced_nil hlt (hm.insert hlt p.1 p.2) h₂
    have hins := insert_perm (v := p.2) hnew
    refine ⟨List.forall_mem_cons.mpr ⟨hnew, fun q hq e he => ?_⟩, List.pairwise_cons.mpr ⟨fun q hq hs => ?_, ih₂⟩⟩
    · exact ih₁ q hq e (hins.mem_iff.mpr (by simp [he]))
    · exact ih₁ q hq (p.1, p.2) (hins.mem_iff.mpr (by simp)) (StrictWeak.equiv_symm hs)

end OrdMap
