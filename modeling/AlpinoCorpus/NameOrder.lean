/-
What the order of `NameCompare` is: the pieces it compares are the longest
runs of digits and the characters between them, names that it does not tell
apart differ in zeros in front of numbers only, and where two names first
differ in a number the number decides.
-/
import AlpinoCorpus.NameCompare
import AlpinoCorpus.Lib.Numeral

namespace AlpinoCorpus

open OrdMap Numeral

/-! ## Runs -/

/-- The longest runs of digits, every other character alone. -/
def runs (s : Str) : List Str := s.splitBy fun a b => isDigit a && isDigit b

/-- The empty piece in front of a name that does not start with a digit. -/
def lead (s : Str) : List Str := if s.head?.any (!isDigit ·) then [[]] else []

/-- The loop goes on with the run that is begun. -/
theorem nameIndexLoop_eq : ∀ (cs buf : Str) (hbuf : buf ≠ []), (buf.IsChain fun a b => isDigit a && isDigit b) →
    nameIndexLoop (isDigit (buf.getLast hbuf)) buf cs = runs (buf ++ cs)
  | [], buf, hbuf, hchain => by
    rw [List.append_nil, runs, List.splitBy_of_isChain hbuf hchain]
    rfl
  | c :: cs, buf, hbuf, hchain => by
    rw [nameIndexLoop]
    split
    · next h =>
      obtain ⟨hc, hprev⟩ := Bool.and_eq_true_iff.mp h
      have hnext : (buf ++ [c]).IsChain fun a b => isDigit a && isDigit b := by
        rw [List.isChain_append]
        refine ⟨hchain, .singleton c, fun a ha b hb => ?_⟩
        rw [List.getLast?_eq_getLast_of_ne_nil hbuf, Option.mem_some_iff] at ha
        obtain rfl : c = b := by simpa using hb
        rw [← ha, hprev, hc]
        rfl
      have ih := nameIndexLoop_eq cs (buf ++ [c]) (by simp) hnext
      rw [List.getLast_append_singleton, List.append_assoc] at ih
      exact ih
    · next h =>
      have ih := nameIndexLoop_eq cs [c] (by simp) (.singleton c)
      rw [List.getLast_singleton, List.singleton_append] at ih
      have hcut : ∀ a ∈ buf.getLast?, (isDigit a && isDigit c) = false := by
        intro a ha
        rw [List.getLast?_eq_getLast_of_ne_nil hbuf, Option.mem_some_iff] at ha
        rw [← ha, Bool.and_comm]
        simpa using h
      rw [ih, runs, runs, List.splitBy_append_cons cs hcut, List.splitBy_of_isChain hbuf hchain, List.singleton_append]

theorem nameIndex_eq (s : Str) : nameIndex s = lead s ++ runs s := by
  cases s with
  | nil => rfl
  | cons c cs =>
    have h := nameIndexLoop_eq cs [c] (by simp) (.singleton c)
    rw [List.getLast_singleton, List.singleton_append] at h
    rw [nameIndex, nameIndexLoop, lead]
    cases hc : isDigit c with
    | true =>
      rw [hc] at h
      simpa [hc] using h
    | false =>
      rw [hc] at h
      simpa [hc] using h

theorem isPiece_runs {s m : Str} (h : m ∈ runs s) : IsPiece m ∧ m ≠ [] :=
  ⟨isPiece_nameIndex s m (by rw [nameIndex_eq]; simp [h]), List.ne_nil_of_mem_splitBy h⟩

/-! ## Names that are not told apart -/

/-- The zeros in front of every number removed, but for the last one of a
number that has no other digits. -/
def withoutZeros (s : Str) : Str := ((runs s).map (reduce 48)).flatten

def decimals : Str := [49, 50, 51, 52, 53, 54, 55, 56, 57]

theorem mem_decimals_iff (c : UInt8) : c ∈ 48 :: decimals ↔ isDigit c = true := by
  have hall : ∀ i : Fin 256, UInt8.ofNat i ∈ 48 :: decimals ↔ isDigit (UInt8.ofNat i) = true := by decide +kernel
  simpa using hall ⟨c.toNat, c.toNat_lt⟩

theorem infInt_eq {s : Str} (h : ∀ c ∈ s, isDigit c = true) : infInt s = value 48 decimals s := by
  induction s using List.reverseRecOn with
  | nil => rfl
  | append_singleton s c ih =>
    have hc := h c (by simp)
    have hdigit : ∀ c ∈ 48 :: decimals, digit 48 decimals c = c.toNat - 48 := by decide +kernel
    have hs : infInt (s ++ [c]) = 10 * infInt s + (c.toNat - 48) := by simp [infInt, List.foldl_append]
    rw [hs, ih fun d hd => h d (by simp [hd]), value_append, ← hdigit c ((mem_decimals_iff c).mpr hc)]
    simp only [value, decimals, List.length_cons, List.length_nil]
    omega

theorem reduce_char {c : UInt8} (hc : isDigit c = false) : reduce 48 [c] = [c] := by
  have hne : c ≠ 48 := by
    rintro rfl
    cases hc
  simp [reduce, hne]

theorem digits_reduce {m : Str} (h : ∀ c ∈ m, isDigit c = true) :
    reduce 48 m ≠ [] ∧ ∀ c ∈ reduce 48 m, isDigit c = true := by
  have hn : IsNumeral 48 decimals (reduce 48 m) := isNumeral_reduce fun c hc => (mem_decimals_iff c).mpr (h c hc)
  exact ⟨hn.ne_nil, fun c hc => (mem_decimals_iff c).mp (hn.digits c hc)⟩

/-- Two runs have one key if they are the same but for zeros in front. -/
theorem pieceKey_eq_iff {m n : Str} (hm : IsPiece m ∧ m ≠ []) (hn : IsPiece n ∧ n ≠ []) :
    pieceKey m = pieceKey n ↔ reduce 48 m = reduce 48 n := by
  obtain ⟨hm, hmne⟩ := hm
  obtain ⟨hn, hnne⟩ := hn
  -- a number is not a character that is no digit
  have hmixed : ∀ {c : UInt8} {m : Str}, isDigit c = false → (∀ d ∈ m, isDigit d = true) → reduce 48 m ≠ [c] := by
    intro c m hc hm h
    have := (digits_reduce hm).2 c (by simp [h])
    rw [hc] at this
    cases this
  cases hm with
  | empty => exact absurd rfl hmne
  | @char c hc =>
    cases hn with
    | empty => exact absurd rfl hnne
    | @char d hd =>
      rw [reduce_char hc, reduce_char hd]
      exact (pieceKey_bytes (.char hc) (.char hd) (by simp [startsWithDigit, hc])).2.symm
    | @digits d ds hds =>
      rw [reduce_char hc, ← (pieceKey_bytes (.char hc) (.digits hds) (by simp [startsWithDigit, hc])).2]
      refine iff_of_false (fun h => ?_) fun h => hmixed hc hds h.symm
      have := hds c (by rw [← h]; simp)
      rw [hc] at this
      cases this
  | @digits c cs hcs =>
    cases hn with
    | empty => exact absurd rfl hnne
    | @char d hd =>
      rw [reduce_char hd, ← (pieceKey_bytes (.digits hcs) (.char hd) (by simp [startsWithDigit, hd])).2]
      refine iff_of_false (fun h => ?_) (hmixed hd hcs)
      have := hcs d (by rw [h]; simp)
      rw [hd] at this
      cases this
    | @digits d ds hds =>
      have hstart : (startsWithDigit (c :: cs) && startsWithDigit (d :: ds)) = true := by
        simp [startsWithDigit, hcs c, hds d]
      rw [← (pieceKey_digits hstart).2, infInt_eq hcs, infInt_eq hds]
      constructor
      · intro h
        have hnum : ∀ {m : Str}, (∀ c ∈ m, isDigit c = true) → IsNumeral 48 decimals (reduce 48 m) := fun hm =>
          isNumeral_reduce fun c hc => (mem_decimals_iff c).mpr (hm c hc)
        exact eq_of_value (hnum hcs) (reduced_reduce _) (hnum hds) (reduced_reduce _) (by rw [value_reduce, value_reduce, h])
      · intro h
        rw [← value_reduce (c :: cs), ← value_reduce (d :: ds), h]

/-- A run stays one when its zeros go. -/
theorem reduce_run {m : Str} (hm : IsPiece m ∧ m ≠ []) : reduce 48 m ≠ [] ∧
    ((reduce 48 m).IsChain fun a b => isDigit a && isDigit b) ∧ ∀ c ∈ m, ∀ d ∈ reduce 48 m, isDigit c = isDigit d := by
  obtain ⟨hm, hne⟩ := hm
  cases hm with
  | empty => exact absurd rfl hne
  | @char c hc =>
    rw [reduce_char hc]
    exact ⟨by simp, .singleton c, by simp⟩
  | @digits c cs hcs =>
    obtain ⟨hne', hall⟩ := digits_reduce hcs
    refine ⟨hne', (List.pairwise_of_forall_mem_list fun a ha b hb => ?_).isChain, fun a ha b hb => ?_⟩
    · rw [hall a ha, hall b hb]
      rfl
    · rw [hcs a ha, hall b hb]

/-- The runs of a name without zeros are those of the name, without zeros. -/
theorem runs_withoutZeros (s : Str) : runs (withoutZeros s) = (runs s).map (reduce 48) := by
  have hrun : ∀ m ∈ runs s, IsPiece m ∧ m ≠ [] := fun m => isPiece_runs
  refine List.splitBy_flatten ?_ ?_ ?_
  · intro h
    obtain ⟨m, hm, h⟩ := List.mem_map.mp h
    exact (reduce_run (hrun m hm)).1 h
  · intro t ht
    obtain ⟨m, hm, rfl⟩ := List.mem_map.mp ht
    exact (reduce_run (hrun m hm)).2.1
  · rw [List.isChain_map]
    refine List.IsChain.imp_of_mem_imp (fun a b ha hb h => ?_) (List.isChain_getLast_head_splitBy _ s)
    obtain ⟨hane, hbne, hcut⟩ := h
    have hta := reduce_run (hrun a ha)
    have htb := reduce_run (hrun b hb)
    refine ⟨hta.1, htb.1, ?_⟩
    rw [← hta.2.2 _ (List.getLast_mem hane) _ (List.getLast_mem hta.1), ← htb.2.2 _ (List.head_mem hbne) _ (List.head_mem htb.1)]
    exact hcut

/-- What comes in front of the runs depends on the first of them, which a
name keeps. -/
theorem lead_withoutZeros (s : Str) : lead (withoutZeros s) = lead s := by
  have hs : (runs s).flatten = s := List.flatten_splitBy _ s
  cases h : runs s with
  | nil =>
    rw [h] at hs
    rw [withoutZeros, h, ← hs]
    rfl
  | cons m ms =>
    obtain ⟨hne, -, hclass⟩ := reduce_run (isPiece_runs (s := s) (m := m) (by simp [h]))
    have hmne := (isPiece_runs (s := s) (m := m) (by simp [h])).2
    obtain ⟨c, cs, rfl⟩ := List.exists_cons_of_ne_nil hmne
    obtain ⟨d, ds, hd⟩ := List.exists_cons_of_ne_nil hne
    have hcd : isDigit c = isDigit d := hclass c (by simp) d (by simp [hd])
    rw [h] at hs
    rw [withoutZeros, h, List.map_cons, hd, ← hs]
    simp [lead, hcd]

/-- Two maps that tell the same elements apart tell the same lists apart. -/
theorem map_eq_map_iff {α β γ : Type} {f : α → β} {g : α → γ} {P : α → Prop}
    (h : ∀ {a b}, P a → P b → (f a = f b ↔ g a = g b)) : ∀ {l₁ l₂ : List α}, (∀ a ∈ l₁, P a) → (∀ a ∈ l₂, P a) →
      (l₁.map f = l₂.map f ↔ l₁.map g = l₂.map g)
  | [], [], _, _ => by simp
  | [], _ :: _, _, _ => by simp
  | _ :: _, [], _, _ => by simp
  | a :: l₁, b :: l₂, h₁, h₂ => by
    rw [List.forall_mem_cons] at h₁ h₂
    have ih := map_eq_map_iff h h₁.2 h₂.2
    simp only [List.map_cons, List.cons.injEq, ih, h h₁.1 h₂.1]

/-- The keys that are not in front. -/
theorem filter_nameKey (s : Str) : (nameKey s).filter (· ≠ toLex (0, 0)) = (runs s).map pieceKey := by
  have hlead : ((lead s).map pieceKey).filter (· ≠ toLex (0, 0)) = [] := by
    rw [lead]
    split <;> simp [pieceKey]
  have hruns : ((runs s).map pieceKey).filter (· ≠ toLex (0, 0)) = (runs s).map pieceKey := by
    refine List.filter_eq_self.mpr fun k hk => ?_
    obtain ⟨m, hm, rfl⟩ := List.mem_map.mp hk
    obtain ⟨c, cs, rfl⟩ := List.exists_cons_of_ne_nil (isPiece_runs hm).2
    rw [pieceKey]
    split <;> [skip; split] <;> simp
  rw [nameKey, nameIndex_eq, List.map_append, List.filter_append, hlead, hruns, List.nil_append]

theorem nameKey_eq_iff (a b : Str) : nameKey a = nameKey b ↔ withoutZeros a = withoutZeros b := by
  have hruns : (runs a).map pieceKey = (runs b).map pieceKey ↔ (runs a).map (reduce 48) = (runs b).map (reduce 48) :=
    map_eq_map_iff pieceKey_eq_iff (fun m => isPiece_runs) fun m => isPiece_runs
  constructor
  · intro h
    have hkeys : (runs a).map pieceKey = (runs b).map pieceKey := by rw [← filter_nameKey a, ← filter_nameKey b, h]
    rw [withoutZeros, withoutZeros, hruns.mp hkeys]
  · intro h
    have hkeys : (runs a).map pieceKey = (runs b).map pieceKey := by
      rw [hruns, ← runs_withoutZeros a, ← runs_withoutZeros b, h]
    rw [nameKey, nameKey, nameIndex_eq, nameIndex_eq, List.map_append, List.map_append, hkeys, ← lead_withoutZeros a,
      ← lead_withoutZeros b, h]

/-- **A strict weak order: it is irreflexive and transitive, so is not
telling names apart, and names are not told apart if and only if they are
the same without the zeros in front of their numbers.** -/
theorem nameCompare_order :
    (∀ a, nameCompare a a = false) ∧
    (∀ a b c, nameCompare a b = true → nameCompare b c = true → nameCompare a c = true) ∧
    (∀ a b c, StrictWeak.Equiv nameCompare a b → StrictWeak.Equiv nameCompare b c → StrictWeak.Equiv nameCompare a c) ∧
    ∀ a b, StrictWeak.Equiv nameCompare a b ↔ withoutZeros a = withoutZeros b := by
  have hkey : ∀ a b, StrictWeak.Equiv nameCompare a b ↔ nameKey a = nameKey b := fun a b =>
    StrictWeak.equiv_iff_key nameKey nameCompare_iff
  refine ⟨strictWeak_nameCompare.irrefl, fun a b c => strictWeak_nameCompare.trans, fun a b c => ?_, fun a b => ?_⟩
  · rw [hkey, hkey, hkey]
    exact Eq.trans
  · rw [hkey, nameKey_eq_iff]

/-! ## The first number in which names differ -/

/-- A number between characters is a run. -/
theorem runs_number {p m x : Str} (hp : ∀ c ∈ p.getLast?, isDigit c = false) (hm : m ≠ [] ∧ ∀ c ∈ m, isDigit c = true)
    (hx : ∀ c ∈ x.head?, isDigit c = false) : runs (p ++ m ++ x) = runs p ++ m :: runs x := by
  obtain ⟨hne, hdig⟩ := hm
  have hchain : m.IsChain fun a b => isDigit a && isDigit b :=
    (List.pairwise_of_forall_mem_list fun a ha b hb => by rw [hdig a ha, hdig b hb]; rfl).isChain
  rw [runs, List.append_assoc, List.splitBy_append fun a ha b _ => by rw [hp a ha]; rfl,
    List.splitBy_append fun a _ b hb => by rw [hx b hb, Bool.and_false], List.splitBy_of_isChain hne hchain]
  rfl

theorem lead_number {p m x : Str} (hm : m ≠ [] ∧ ∀ c ∈ m, isDigit c = true) : lead (p ++ m ++ x) = lead p := by
  obtain ⟨hne, hdig⟩ := hm
  cases p with
  | cons c cs => rfl
  | nil =>
    obtain ⟨c, cs, rfl⟩ := List.exists_cons_of_ne_nil hne
    simp [lead, hdig c (by simp)]

theorem nameKey_number {p m x : Str} (hp : ∀ c ∈ p.getLast?, isDigit c = false) (hm : m ≠ [] ∧ ∀ c ∈ m, isDigit c = true)
    (hx : ∀ c ∈ x.head?, isDigit c = false) :
    nameKey (p ++ m ++ x) = nameKey p ++ toLex (2, infInt m) :: (runs x).map pieceKey := by
  have hkey : pieceKey m = toLex (2, infInt m) := by
    obtain ⟨hne, hdig⟩ := hm
    obtain ⟨c, cs, rfl⟩ := List.exists_cons_of_ne_nil hne
    simp [pieceKey, hdig c (by simp)]
  rw [nameKey, nameKey, nameIndex_eq, nameIndex_eq, lead_number hm, runs_number hp hm hx, ← hkey]
  simp

theorem append_lt_append_iff {α : Type} [LinearOrder α] (l : List α) {a b : List α} : l ++ a < l ++ b ↔ a < b := by
  induction l with
  | nil => rfl
  | cons c l ih => rw [List.cons_append, List.cons_append, List.cons_lt_cons_iff, ih]; simp

/-- **Where two names first differ in a number, the less of the numbers is in
the first of the names.** -/
theorem nameCompare_number {p m n x y : Str} (hp : ∀ c ∈ p.getLast?, isDigit c = false)
    (hm : m ≠ [] ∧ ∀ c ∈ m, isDigit c = true) (hn : n ≠ [] ∧ ∀ c ∈ n, isDigit c = true) (hne : infInt m ≠ infInt n)
    (hx : ∀ c ∈ x.head?, isDigit c = false) (hy : ∀ c ∈ y.head?, isDigit c = false) :
    nameCompare (p ++ m ++ x) (p ++ n ++ y) = true ↔ infInt m < infInt n := by
  rw [nameCompare_iff, nameKey_number hp hm hx, nameKey_number hp hn hy, append_lt_append_iff, List.cons_lt_cons_iff,
    Prod.Lex.toLex_lt_toLex]
  simp [hne]

/-- `s9` comes before `s10.xml`. -/
theorem nameCompare_number_nine : nameCompare ([115] ++ [57] ++ []) ([115] ++ [49, 48] ++ [46, 120, 109, 108]) = true ↔
    infInt [57] < infInt [49, 48] :=
  nameCompare_number (by decide +kernel) (by decide +kernel) (by decide +kernel) (by decide +kernel) (by decide +kernel)
    (by decide +kernel)

end AlpinoCorpus
