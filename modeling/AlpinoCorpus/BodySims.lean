/-
Simulations between bodies. A body that wraps another does with two
iterators inside, two stores and two readers the same, if calls on what is
inside and reads give the same.
-/
import AlpinoCorpus.Iter

namespace AlpinoCorpus

open Iteration

/-- The same outcome, and states that are related. -/
def Agree {S T α : Type} (Q : S → T → Prop) (x : Outcome α × S) (y : Outcome α × T) : Prop := x.1 = y.1 ∧ Q x.2 y.2

/-- The calls of two bodies agree on related states; `S` relates the readers
that they are given. -/
structure Body.Sim {W₁ W₂ ι₁ ι₂ ρ₁ ρ₂ : Type} (S : ρ₁ → ρ₂ → Prop) (Q : ι₁ × W₁ → ι₂ × W₂ → Prop) (b₁ : Body W₁ ι₁ ρ₁)
    (b₂ : Body W₂ ι₂ ρ₂) : Prop where
  hasNext : ∀ {s t}, Q s t → Agree Q (b₁.hasNext s) (b₂.hasNext t)
  next : ∀ {rdr₁ rdr₂}, S rdr₁ rdr₂ → ∀ {s t}, Q s t → Agree Q (b₁.next rdr₁ s) (b₂.next rdr₂ t)

section

variable {W₁ W₂ ι₁ ι₂ ρ₁ ρ₂ : Type} {S : ρ₁ → ρ₂ → Prop} {Q : ι₁ × W₁ → ι₂ × W₂ → Prop}
  {b₁ : Body W₁ ι₁ ρ₁} {b₂ : Body W₂ ι₂ ρ₂} {env : Env}

/-- So do reads, whichever iterators they are for. -/
def ReadsSim [Reads ρ₁ W₁] [Reads ρ₂ W₂] (env : Env) (S : ρ₁ → ρ₂ → Prop) (Q : ι₁ × W₁ → ι₂ × W₂ → Prop) : Prop :=
  ∀ {rdr₁ rdr₂ i₁ i₂ w₁ w₂}, S rdr₁ rdr₂ → Q (i₁, w₁) (i₂, w₂) → ∀ entry queries, ∃ r w₁' w₂',
    Reads.read env rdr₁ entry queries w₁ = (r, w₁') ∧ Reads.read env rdr₂ entry queries w₂ = (r, w₂') ∧ Q (i₁, w₁') (i₂, w₂')

namespace FilterIter

variable [Reads ρ₁ W₁] [Reads ρ₂ W₂]

/-- All is the same but for the iterator inside. -/
inductive Rel (S : ρ₁ → ρ₂ → Prop) (Q : ι₁ × W₁ → ι₂ × W₂ → Prop) : FilterIter ι₁ ρ₁ × W₁ → FilterIter ι₂ ρ₂ × W₂ → Prop
  | mk {corpus₁ corpus₂ i₁ i₂ file query buffer interrupted w₁ w₂} (same : S corpus₁ corpus₂) (inside : Q (i₁, w₁) (i₂, w₂)) :
    Rel S Q (⟨corpus₁, i₁, file, query, buffer, interrupted⟩, w₁) (⟨corpus₂, i₂, file, query, buffer, interrupted⟩, w₂)

theorem parseFile_sim (hread : ReadsSim env S Q) (file : Str) {s t} (hst : Rel S Q s t) :
    Agree (Rel S Q) (parseFile env s.1 file s.2) (parseFile env t.1 file t.2) := by
  obtain ⟨same, hin⟩ := hst
  rename_i query _ _ _ _
  obtain ⟨r, w₁', w₂', h₁, h₂, hin'⟩ := hread same hin file []
  simp only [parseFile, h₁, h₂]
  cases r with
  | error e => exact ⟨rfl, .mk same hin'⟩
  | ok xml =>
    simp only
    cases env.evaluate query xml with
    | none => exact ⟨rfl, .mk same hin'⟩
    | some values => exact ⟨rfl, .mk same hin'⟩

theorem hasNextLoop_sim (hread : ReadsSim env S Q) (h : Body.Sim S Q b₁ b₂) : ∀ (fuel : Nat) {s t}, Rel S Q s t →
    Agree (Rel S Q) (hasNextLoop env b₁ fuel s) (hasNextLoop env b₂ fuel t)
  | 0, _, _, hst => ⟨rfl, hst⟩
  | fuel + 1, _, _, @Rel.mk _ _ _ _ _ _ _ _ corpus₁ corpus₂ i₁ i₂ file query buffer interrupted w₁ w₂ same hin => by
    cases buffer with
    | cons v vs => exact ⟨rfl, .mk same hin⟩
    | nil =>
      have h₁ := h.hasNext hin
      rcases hs : b₁.hasNext (i₁, w₁) with ⟨r, i₁', w₁'⟩
      rcases ht : b₂.hasNext (i₂, w₂) with ⟨r', i₂', w₂'⟩
      rw [hs, ht] at h₁
      obtain ⟨rfl, hin₁⟩ := h₁
      simp only [hasNextLoop, hs, ht, List.isEmpty_nil, Bool.not_true, Bool.false_eq_true, if_false]
      rcases r with e | _ | _
      · exact ⟨rfl, .mk same hin₁⟩
      · exact ⟨rfl, .mk same hin₁⟩
      · have h₂ := h.next same hin₁
        simp only
        rcases hs' : b₁.next corpus₁ (i₁', w₁') with ⟨r, i₁'', w₁''⟩
        rcases ht' : b₂.next corpus₂ (i₂', w₂') with ⟨r', i₂'', w₂''⟩
        simp only [hs', ht'] at h₂ ⊢
        obtain ⟨heq, hin₂⟩ := h₂
        simp only at heq hin₂
        subst heq
        cases r with
        | error e => exact ⟨rfl, .mk same hin₂⟩
        | ok e =>
          simp only
          by_cases hname : e.name = file
          · rw [if_pos hname, if_pos hname]
            exact hasNextLoop_sim hread h fuel (.mk same hin₂)
          · rw [if_neg hname, if_neg hname]
            cases interrupted with
            | true => exact ⟨rfl, .mk same hin₂⟩
            | false =>
              simp only [Bool.false_eq_true, if_false]
              have hparse := parseFile_sim hread e.name
                (s := (⟨corpus₁, i₁'', e.name, query, [], false⟩, w₁'')) (t := (⟨corpus₂, i₂'', e.name, query, [], false⟩, w₂''))
                (.mk same hin₂)
              rcases hp₁ : parseFile env ⟨corpus₁, i₁'', e.name, query, [], false⟩ e.name w₁'' with ⟨r, s⟩
              rcases hp₂ : parseFile env ⟨corpus₂, i₂'', e.name, query, [], false⟩ e.name w₂'' with ⟨r', t⟩
              simp only [hp₁, hp₂] at hparse ⊢
              obtain ⟨heq, hst⟩ := hparse
              simp only at heq hst
              subst heq
              cases r with
              | error e' => exact ⟨rfl, hst⟩
              | ok _ => exact hasNextLoop_sim hread h fuel hst

theorem sim (hread : ReadsSim env S Q) (h : Body.Sim S Q b₁ b₂) (fuel : Nat) :
    Body.Sim S (Rel S Q) (body env b₁ fuel) (body env b₂ fuel) where
  hasNext := by
    intro s t hst
    obtain ⟨same, hin⟩ := hst
    exact hasNextLoop_sim hread h fuel (.mk same hin)
  next := by
    intro _ _ _ s t hst
    obtain ⟨same, hin⟩ := hst
    rename_i buffer _ _ _
    cases buffer with
    | nil => exact ⟨rfl, .mk same hin⟩
    | cons v vs => exact ⟨rfl, .mk same hin⟩

end FilterIter

namespace StylesheetIter

variable [Reads ρ₁ W₁] [Reads ρ₂ W₂]

inductive Rel (Q : ι₁ × W₁ → ι₂ × W₂ → Prop) : StylesheetIter ι₁ × W₁ → StylesheetIter ι₂ × W₂ → Prop
  | mk {i₁ i₂ queries stylesheet w₁ w₂} (inside : Q (i₁, w₁) (i₂, w₂)) :
    Rel Q (⟨i₁, queries, stylesheet⟩, w₁) (⟨i₂, queries, stylesheet⟩, w₂)

theorem sim (hread : ReadsSim env S Q) (h : Body.Sim S Q b₁ b₂) : Body.Sim S (Rel Q) (body env b₁) (body env b₂) where
  hasNext := by
    intro s t hst
    obtain ⟨hin⟩ := hst
    obtain ⟨heq, hin⟩ := h.hasNext hin
    exact ⟨heq, .mk hin⟩
  next := by
    intro rdr₁ rdr₂ same s t hst
    obtain ⟨hin⟩ := hst
    rename_i i₁ i₂ queries stylesheet w₁ w₂
    have h₁ := h.next same hin
    rcases hs : b₁.next rdr₁ (i₁, w₁) with ⟨r, i₁', w₁'⟩
    rcases ht : b₂.next rdr₂ (i₂, w₂) with ⟨r', i₂', w₂'⟩
    rw [hs, ht] at h₁
    obtain ⟨rfl, hin₁⟩ := h₁
    simp only [body, next, hs, ht]
    cases r with
    | error e => exact ⟨rfl, .mk hin₁⟩
    | ok e =>
      obtain ⟨r, w₁'', w₂'', hr₁, hr₂, hin₂⟩ := hread same hin₁ e.name queries
      simp only [hr₁, hr₂]
      cases r with
      | error e => exact ⟨rfl, .mk hin₂⟩
      | ok xml => exact ⟨rfl, .mk hin₂⟩

end StylesheetIter

namespace MultiIter

/-- All is the same but for the iterator in use; `P` relates the stores when
there is none. -/
inductive Rel (Q : ι₁ × W₁ → ι₂ × W₂ → Prop) (P : W₁ → W₂ → Prop) : MultiIter ι₁ × W₁ → MultiIter ι₂ × W₂ → Prop
  | closed {order total iters reader name hasQuery query dialect interrupted w₁ w₂} (h : P w₁ w₂) :
    Rel Q P (⟨order, total, iters, reader, none, name, hasQuery, query, dialect, interrupted⟩, w₁)
      (⟨order, total, iters, reader, none, name, hasQuery, query, dialect, interrupted⟩, w₂)
  | opened {order total iters reader i₁ i₂ name hasQuery query dialect interrupted w₁ w₂} (inside : Q (i₁, w₁) (i₂, w₂)) :
    Rel Q P (⟨order, total, iters, reader, some i₁, name, hasQuery, query, dialect, interrupted⟩, w₁)
      (⟨order, total, iters, reader, some i₂, name, hasQuery, query, dialect, interrupted⟩, w₂)

/-- The same comes of a request to a reader. -/
inductive Started (Q : ι₁ × W₁ → ι₂ × W₂ → Prop) (P : W₁ → W₂ → Prop) : Outcome ι₁ × W₁ → Outcome ι₂ × W₂ → Prop
  | error {e w₁ w₂} (h : P w₁ w₂) : Started Q P (.error e, w₁) (.error e, w₂)
  | ok {i₁ i₂ w₁ w₂} (inside : Q (i₁, w₁) (i₂, w₂)) : Started Q P (.ok i₁, w₁) (.ok i₂, w₂)

/-- The same comes of the next corpus. -/
inductive Opened (Q : ι₁ × W₁ → ι₂ × W₂ → Prop) (P : W₁ → W₂ → Prop) :
    Outcome (Option (Corpus × ι₁)) × W₁ → Outcome (Option (Corpus × ι₂)) × W₂ → Prop
  | error {e w₁ w₂} (h : P w₁ w₂) : Opened Q P (.error e, w₁) (.error e, w₂)
  | none {w₁ w₂} (h : P w₁ w₂) : Opened Q P (.ok none, w₁) (.ok none, w₂)
  | some {reader i₁ i₂ w₁ w₂} (inside : Q (i₁, w₁) (i₂, w₂)) :
    Opened Q P (.ok (some (reader, i₁)), w₁) (.ok (some (reader, i₂)), w₂)

variable {P : W₁ → W₂ → Prop}

/-- What is asked of a reader, of two iterators that have no other in use. -/
def Starts (env : Env) (Q : ι₁ × W₁ → ι₂ × W₂ → Prop) (P : W₁ → W₂ → Prop) (start₁ : Corpus → MultiIter ι₁ → W₁ → Outcome ι₁ × W₁)
    (start₂ : Corpus → MultiIter ι₂ → W₂ → Outcome ι₂ × W₂) : Prop :=
  ∀ {corpus reader}, openCorpus env corpus = .ok reader →
    ∀ order total iters name hasQuery query dialect interrupted {w₁ w₂}, P w₁ w₂ →
    Started Q P (start₁ reader ⟨order, total, iters, none, none, name, hasQuery, query, dialect, interrupted⟩ w₁)
      (start₂ reader ⟨order, total, iters, none, none, name, hasQuery, query, dialect, interrupted⟩ w₂)

variable {start₁ : Corpus → MultiIter ι₁ → W₁ → Outcome ι₁ × W₁} {start₂ : Corpus → MultiIter ι₂ → W₂ → Outcome ι₂ × W₂}

theorem openTip_sim (h : Starts env Q P start₁ start₂) (tip : ReaderIter) (order : SortOrder) (total : Nat) (iters : List ReaderIter)
    (name : Str) (hasQuery : Bool) (query : Str) (dialect : QueryDialect) (interrupted : Bool) {w₁ : W₁} {w₂ : W₂} (hw : P w₁ w₂) :
    Opened Q P (openTip env start₁ ⟨order, total, iters, none, none, name, hasQuery, query, dialect, interrupted⟩ tip w₁)
      (openTip env start₂ ⟨order, total, iters, none, none, name, hasQuery, query, dialect, interrupted⟩ tip w₂) := by
  rw [openTip, openTip]
  cases ho : openCorpus env (tip.filename, tip.recursive) with
  | error e =>
    cases e with
    | raised e =>
      simp only
      split
      · exact .none hw
      · exact .error hw
    | _ => exact .error hw
  | ok reader =>
    have hs := h ho order total iters name hasQuery query dialect interrupted hw
    simp only
    revert hs
    generalize start₁ reader _ w₁ = x
    generalize start₂ reader _ w₂ = y
    intro hs
    cases hs with
    | ok inside => exact .some inside
    | @error e _ _ h =>
      cases e with
      | raised e =>
        simp only
        split
        · exact .none h
        · exact .error h
      | _ => exact .error h

theorem currentHasNext_sim (h : Body.Sim S Q b₁ b₂) {s t} (hst : Rel Q P s t) :
    Agree (Rel Q P) (currentHasNext b₁ s) (currentHasNext b₂ t) := by
  cases hst with
  | closed hw => exact ⟨rfl, .closed hw⟩
  | opened hin =>
    obtain ⟨heq, hin⟩ := h.hasNext hin
    exact ⟨heq, .opened hin⟩

/-- The loop over the corpora; `hforget`: an iterator that is given up leaves
the stores related. -/
theorem nextIteratorLoop_sim (h : Body.Sim S Q b₁ b₂) (hforget : ∀ {i₁ i₂ w₁ w₂}, Q (i₁, w₁) (i₂, w₂) → P w₁ w₂)
    (hstart : Starts env Q P start₁ start₂) : ∀ (tips : List ReaderIter) {s t}, Rel Q P s t →
    Agree (Rel Q P) (nextIteratorLoop b₁ (openTip env start₁) tips s) (nextIteratorLoop b₂ (openTip env start₂) tips t)
  | [], _, _, hst => ⟨rfl, hst⟩
  | tip :: tips, s, t, hst => by
    have hinterrupted : s.1.d_interrupted = t.1.d_interrupted := by cases hst <;> rfl
    have hcur := currentHasNext_sim h hst
    rw [nextIteratorLoop, nextIteratorLoop, ← hinterrupted]
    cases hi : s.1.d_interrupted with
    | true => exact ⟨rfl, hst⟩
    | false =>
      simp only [Bool.false_eq_true, if_false]
      rcases hs : currentHasNext b₁ s with ⟨r, it₁, w₁⟩
      rcases ht : currentHasNext b₂ t with ⟨r', it₂, w₂⟩
      rw [hs, ht] at hcur
      obtain ⟨rfl, hcur⟩ := hcur
      rcases r with e | _ | _
      · exact ⟨rfl, hcur⟩
      · -- the iterator in use has no more
        have hopen : ∃ order total iters reader cur₁ cur₂ name hasQuery query dialect interrupted,
            it₁ = ⟨order, total, iters, reader, cur₁, name, hasQuery, query, dialect, interrupted⟩ ∧
            it₂ = ⟨order, total, iters, reader, cur₂, name, hasQuery, query, dialect, interrupted⟩ ∧ P w₁ w₂ := by
          cases hcur with
          | closed hw => exact ⟨_, _, _, _, _, _, _, _, _, _, _, rfl, rfl, hw⟩
          | opened hin => exact ⟨_, _, _, _, _, _, _, _, _, _, _, rfl, rfl, hforget hin⟩
        obtain ⟨order, total, iters, reader, cur₁, cur₂, name, hasQuery, query, dialect, interrupted, rfl, rfl, hw⟩ := hopen
        simp only
        have htip := openTip_sim hstart tip order total iters name hasQuery query dialect interrupted hw
        revert htip
        generalize openTip env start₁ _ tip w₁ = x
        generalize openTip env start₂ _ tip w₂ = y
        intro htip
        cases htip with
        | error hw => exact ⟨rfl, .closed hw⟩
        | none hw => exact nextIteratorLoop_sim h hforget hstart tips (.closed hw)
        | some hin => exact nextIteratorLoop_sim h hforget hstart tips (.opened hin)
      · exact ⟨rfl, hcur⟩

theorem sim (h : Body.Sim S Q b₁ b₂) (hforget : ∀ {i₁ i₂ w₁ w₂}, Q (i₁, w₁) (i₂, w₂) → P w₁ w₂)
    (hstart : Starts env Q P start₁ start₂) :
    Body.Sim S (Rel Q P) (body b₁ (openTip env start₁)) (body b₂ (openTip env start₂)) where
  hasNext := by
    intro s t hst
    have hiters : s.1.d_iters = t.1.d_iters := by cases hst <;> rfl
    have hinterrupted : s.1.d_interrupted = t.1.d_interrupted := by cases hst <;> rfl
    have hloop := nextIteratorLoop_sim h hforget hstart s.1.d_iters hst
    simp only [body, hasNext, ← hinterrupted, ← hiters]
    cases hi : s.1.d_interrupted with
    | true => exact ⟨rfl, hst⟩
    | false =>
      simp only [Bool.false_eq_true, if_false]
      rcases hs : nextIteratorLoop b₁ (openTip env start₁) s.1.d_iters s with ⟨r, s'⟩
      rcases ht : nextIteratorLoop b₂ (openTip env start₂) s.1.d_iters t with ⟨r', t'⟩
      rw [hs, ht] at hloop
      obtain ⟨rfl, hst'⟩ := hloop
      cases r with
      | error e => exact ⟨rfl, hst'⟩
      | ok => exact currentHasNext_sim h hst'
  next := by
    intro rdr₁ rdr₂ same s t hst
    cases hst with
    | @closed _ _ _ _ _ _ _ _ interrupted _ _ hw => cases interrupted <;> exact ⟨rfl, .closed hw⟩
    | @opened _ _ _ _ i₁ i₂ _ _ _ _ interrupted w₁ w₂ hin =>
      cases interrupted with
      | true => exact ⟨rfl, .opened hin⟩
      | false =>
        have h₁ := h.next same hin
        rcases hs : b₁.next rdr₁ (i₁, w₁) with ⟨r, i₁', w₁'⟩
        rcases ht : b₂.next rdr₂ (i₂, w₂) with ⟨r', i₂', w₂'⟩
        rw [hs, ht] at h₁
        obtain ⟨rfl, hin₁⟩ := h₁
        simp only [body, next, hs, ht, Bool.false_eq_true, if_false]
        cases r with
        | error e => exact ⟨rfl, .opened hin₁⟩
        | ok e => exact ⟨rfl, .opened hin₁⟩

end MultiIter

end

end AlpinoCorpus
