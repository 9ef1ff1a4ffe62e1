/-
Iterators as a client sees them: two calls, `hasNext` and `next`, each of
which may fail and may change the iterator.

A client calls `next` only after a `hasNext` that returned true, and may
repeat `hasNext` as often as it likes. `Delivers` says what every such
client is given.
-/
import Mathlib

namespace Iteration

variable {σ τ ε α : Type*}

structure Machine (σ ε α : Type*) where
  hasNext : σ → Except ε Bool × σ
  next : σ → Except ε α × σ

inductive Call
  | hasNext
  | next
  deriving DecidableEq

inductive Answer (ε α : Type*)
  | more (b : Bool)
  | entry (x : α)
  | failed (e : ε)
  deriving DecidableEq

/-- The answers to a schedule of calls, from a state that is `ready` when
the last call was a `hasNext` that returned true. A `next` in any other
place is not called, and nothing is called after a failure. -/
def answers (m : Machine σ ε α) : List Call → Bool → σ → List (Answer ε α)
  | [], _, _ => []
  | .hasNext :: cs, _, s =>
    match m.hasNext s with
    | (.ok b, s) => .more b :: answers m cs b s
    | (.error e, _) => [.failed e]
  | .next :: cs, true, s =>
    match m.next s with
    | (.ok x, s) => .entry x :: answers m cs false s
    | (.error e, _) => [.failed e]
  | .next :: cs, false, s => answers m cs false s

/-- The answers of a list that is handed out from its front. -/
def listAnswers : List Call → Bool → List α → List (Answer ε α)
  | [], _, _ => []
  | .hasNext :: cs, _, xs => .more (!xs.isEmpty) :: listAnswers cs (!xs.isEmpty) xs
  | .next :: cs, true, x :: xs => .entry x :: listAnswers cs false xs
  | .next :: cs, _, xs => listAnswers cs false xs

/-- Whatever the schedule, the entries are those of `xs` in order, `hasNext`
says whether any are left, and no call fails. -/
def Delivers (m : Machine σ ε α) (s : σ) (xs : List α) (ready : Bool) : Prop :=
  (ready = true → xs ≠ []) ∧ ∀ cs, answers m cs ready s = listAnswers cs ready xs

namespace Delivers

variable {m : Machine σ ε α} {s : σ} {xs : List α} {ready : Bool}

theorem hasNext (h : Delivers m s xs ready) :
    ∃ s', m.hasNext s = (.ok (!xs.isEmpty), s') ∧ Delivers m s' xs (!xs.isEmpty) := by
  have h₁ := h.2 [.hasNext]
  rcases hs : m.hasNext s with ⟨b | b, s'⟩
  · simp [answers, listAnswers, hs] at h₁
  · simp only [answers, listAnswers, hs, List.cons.injEq, Answer.more.injEq, and_true] at h₁
    subst h₁
    refine ⟨s', rfl, fun hb => by simpa using hb, fun cs => ?_⟩
    have h₂ := h.2 (.hasNext :: cs)
    simpa only [answers, listAnswers, hs, List.cons.injEq, true_and] using h₂

theorem next {x : α} (h : Delivers m s (x :: xs) true) :
    ∃ s', m.next s = (.ok x, s') ∧ Delivers m s' xs false := by
  have h₁ := h.2 [.next]
  rcases hs : m.next s with ⟨e | y, s'⟩
  · simp [answers, listAnswers, hs] at h₁
  · simp only [answers, listAnswers, hs, List.cons.injEq, Answer.entry.injEq, and_true] at h₁
    subst h₁
    refine ⟨s', rfl, nofun, fun cs => ?_⟩
    have h₂ := h.2 (.next :: cs)
    simpa only [answers, listAnswers, hs, List.cons.injEq, true_and] using h₂

/-- One round of a client that asks before it takes. -/
theorem take {x : α} (h : Delivers m s (x :: xs) ready) :
    ∃ s₁ s₂, m.hasNext s = (.ok true, s₁) ∧ m.next s₁ = (.ok x, s₂) ∧ Delivers m s₂ xs false := by
  obtain ⟨s₁, h₁, h⟩ := h.hasNext
  obtain ⟨s₂, h₂, h⟩ := h.next
  exact ⟨s₁, s₂, h₁, h₂, h⟩

theorem done (h : Delivers m s [] ready) : ∃ s', m.hasNext s = (.ok false, s') ∧ Delivers m s' [] false :=
  h.hasNext

/-- The rule of simulation: a relation to the list left, kept by both calls. -/
theorem of_simulation {R : σ → List α → Bool → Prop}
    (hhas : ∀ s xs b, R s xs b → ∃ s', m.hasNext s = (.ok (!xs.isEmpty), s') ∧ R s' xs (!xs.isEmpty))
    (hnext : ∀ s x xs, R s (x :: xs) true → ∃ s', m.next s = (.ok x, s') ∧ R s' xs false)
    (hready : ∀ s, ¬R s [] true) (h : R s xs ready) : Delivers m s xs ready := by
  refine ⟨fun hb hxs => by subst hb hxs; exact hready s h, fun cs => ?_⟩
  induction cs generalizing s xs ready with
  | nil => rfl
  | cons c cs ih =>
    cases c with
    | hasNext =>
      obtain ⟨s', hs, h'⟩ := hhas s xs ready h
      simp only [answers, listAnswers, hs, ih h']
    | next =>
      cases ready with
      | false => cases xs <;> exact ih h
      | true =>
        cases xs with
        | nil => exact absurd h (hready s)
        | cons x xs =>
          obtain ⟨s', hs, h'⟩ := hnext s x xs h
          simp only [answers, listAnswers, hs, ih h']

/-- A machine that answers as another does, through `f`. -/
theorem map {m₁ : Machine σ ε α} {m₂ : Machine τ ε α} (f : σ → τ)
    (hhas : ∀ s, m₂.hasNext (f s) = ((m₁.hasNext s).1, f (m₁.hasNext s).2))
    (hnext : ∀ s, m₂.next (f s) = ((m₁.next s).1, f (m₁.next s).2)) {s : σ} {xs : List α} {b : Bool}
    (h : Delivers m₁ s xs b) : Delivers m₂ (f s) xs b := by
  refine of_simulation (R := fun t xs b => ∃ s, t = f s ∧ Delivers m₁ s xs b) ?_ ?_ ?_ ⟨s, rfl, h⟩
  · rintro t xs b ⟨s, rfl, h⟩
    obtain ⟨s', hs, h⟩ := h.hasNext
    exact ⟨f s', by rw [hhas, hs], s', rfl, h⟩
  · rintro t x xs ⟨s, rfl, h⟩
    obtain ⟨s', hs, h⟩ := h.next
    exact ⟨f s', by rw [hnext, hs], s', rfl, h⟩
  · rintro t ⟨s, rfl, h⟩
    exact h.1 rfl rfl

end Delivers

/-- The calls of a client that asks and takes, `n` times, and asks once more. -/
def drain : Nat → List Call
  | 0 => [.hasNext]
  | n + 1 => .hasNext :: .next :: drain n

/-- The entries among the answers. -/
def delivered : List (Answer ε α) → List α
  | [] => []
  | .entry x :: as => x :: delivered as
  | _ :: as => delivered as

theorem delivered_drain (n : Nat) (xs : List α) (b : Bool) :
    delivered (listAnswers (drain n) b xs : List (Answer ε α)) = xs.take n := by
  induction n generalizing xs b with
  | zero => simp [drain, listAnswers, delivered]
  | succ n ih => cases xs <;> simp [drain, listAnswers, delivered, ih]

/-- An iterator delivers one list only. -/
theorem Delivers.unique {m : Machine σ ε α} {s : σ} {xs ys : List α} {b : Bool}
    (hx : Delivers m s xs b) (hy : Delivers m s ys b) : xs = ys := by
  have htake : ∀ n, xs.take n = ys.take n := by
    intro n
    calc xs.take n = delivered (answers m (drain n) b s) := by rw [hx.2, delivered_drain]
      _ = ys.take n := by rw [hy.2, delivered_drain]
  have h := htake (xs.length + ys.length)
  rwa [List.take_of_length_le (by omega), List.take_of_length_le (by omega)] at h

/-- A whole run: the two calls in turn until `hasNext` is false, for at most
`n` rounds. -/
def exhaust (m : Machine σ ε α) (unfinished : ε) : Nat → σ → Except ε (List α) × σ
  | 0, s => (.error unfinished, s)
  | n + 1, s =>
    match m.hasNext s with
    | (.error e, s) => (.error e, s)
    | (.ok false, s) => (.ok [], s)
    | (.ok true, s) =>
      match m.next s with
      | (.error e, s) => (.error e, s)
      | (.ok x, s) =>
        match exhaust m unfinished n s with
        | (.error e, s) => (.error e, s)
        | (.ok xs, s) => (.ok (x :: xs), s)

theorem Delivers.exhaust {m : Machine σ ε α} {s : σ} {xs : List α} {b : Bool} (h : Delivers m s xs b) (unfinished : ε)
    {n : Nat} (hn : xs.length < n) :
    ∃ s', exhaust m unfinished n s = (.ok xs, s') ∧ Delivers m s' [] false := by
  induction n generalizing s xs b with
  | zero => omega
  | succ n ih =>
    cases xs with
    | nil =>
      obtain ⟨s₁, h₁, hd⟩ := h.done
      exact ⟨s₁, by simp [Iteration.exhaust, h₁], hd⟩
    | cons x xs =>
      obtain ⟨s₁, s₂, h₁, h₂, hd⟩ := h.take
      obtain ⟨s₃, h₃, hd⟩ := ih hd (by simpa using hn)
      exact ⟨s₃, by simp [Iteration.exhaust, h₁, h₂, h₃], hd⟩

theorem exhaust_map {m₁ : Machine σ ε α} {m₂ : Machine τ ε α} {unfinished : ε} {n : Nat} {s s' : σ} {xs : List α}
    (h : exhaust m₁ unfinished n s = (.ok xs, s')) (f : σ → τ)
    (hhas : ∀ s, m₂.hasNext (f s) = ((m₁.hasNext s).1, f (m₁.hasNext s).2))
    (hnext : ∀ s, m₂.next (f s) = ((m₁.next s).1, f (m₁.next s).2)) : exhaust m₂ unfinished n (f s) = (.ok xs, f s') := by
  induction n generalizing s xs with
  | zero => simp [exhaust] at h
  | succ n ih =>
    rw [exhaust] at h ⊢
    rw [hhas]
    rcases h₁ : m₁.hasNext s with ⟨e | b, s₁⟩
    · simp [h₁] at h
    · rw [h₁] at h
      cases b with
      | false =>
        simp only [Prod.mk.injEq, Except.ok.injEq] at h
        obtain ⟨rfl, rfl⟩ := h
        rfl
      | true =>
        simp only at h ⊢
        rw [hnext]
        rcases h₂ : m₁.next s₁ with ⟨e | x, s₂⟩
        · simp [h₂] at h
        · rw [h₂] at h
          simp only at h ⊢
          rcases h₃ : exhaust m₁ unfinished n s₂ with ⟨e | ys, s₃⟩
          · simp [h₃] at h
          · rw [h₃] at h
            simp only [Prod.mk.injEq, Except.ok.injEq] at h
            obtain ⟨rfl, rfl⟩ := h
            rw [ih h₃]

/-- A run that has ended needs no more rounds. -/
theorem exhaust_of_le {m : Machine σ ε α} {unfinished : ε} {n n' : Nat} {s s' : σ} {xs : List α}
    (h : exhaust m unfinished n s = (.ok xs, s')) (hn : n ≤ n') : exhaust m unfinished n' s = (.ok xs, s') := by
  induction n generalizing s xs n' with
  | zero => simp [exhaust] at h
  | succ n ih =>
    obtain ⟨n', rfl⟩ : ∃ k, n' = k + 1 := ⟨n' - 1, by omega⟩
    rw [exhaust] at h ⊢
    rcases h₁ : m.hasNext s with ⟨e | b, s₁⟩
    · simp [h₁] at h
    · rw [h₁] at h
      cases b with
      | false => exact h
      | true =>
        simp only at h ⊢
        rcases h₂ : m.next s₁ with ⟨e | x, s₂⟩
        · simp [h₂] at h
        · rw [h₂] at h
          simp only at h ⊢
          rcases h₃ : exhaust m unfinished n s₂ with ⟨e | ys, s₃⟩
          · simp [h₃] at h
          · rw [h₃] at h
            simp only [Prod.mk.injEq, Except.ok.injEq] at h
            obtain ⟨rfl, rfl⟩ := h
            rw [ih h₃ (by omega)]

end Iteration
