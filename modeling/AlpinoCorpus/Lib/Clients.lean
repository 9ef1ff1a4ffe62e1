/-
Clients that are not shown failures. An interface that gives a failure of
`hasNext` as the end of an iterator, and one of `next` as some entry, hides
from a client where the end is: each round of its loop comes to the next
failure, and a further round goes on behind it.
-/
import AlpinoCorpus.Lib.Scripts

namespace Iteration

variable {σ ε α β γ : Type*}

/-! ## The rounds of a client -/

/-- A loop that takes entries while there are more. -/
inductive Takes (m : Machine σ ε α) : σ → List α → σ → Prop
  | done {s s' : σ} (h : m.hasNext s = (.ok false, s')) : Takes m s [] s'
  | more {s s₁ s₂ s' : σ} {x : α} {xs : List α} (h₁ : m.hasNext s = (.ok true, s₁)) (h₂ : m.next s₁ = (.ok x, s₂))
      (h : Takes m s₂ xs s') : Takes m s (x :: xs) s'

/-- The loop again and again, on the one iterator. -/
def Rounds (m : Machine σ ε α) : σ → List (List α) → Prop
  | _, [] => True
  | s, xs :: rounds => ∃ s', Takes m s xs s' ∧ Rounds m s' rounds

/-! ## Hidden failures -/

/-- What the rounds are given of a script: each failure of `hasNext` ends one. -/
def rounds (shown : Except ε α → β) : List (Item ε α) → List (List β)
  | [] => [[]]
  | .raises _ :: items => [] :: rounds shown items
  | .gives x :: items => (rounds shown items).modifyHead (shown x :: ·)

/-- The failures of `m` that satisfy `P` are hidden by `m'`. -/
structure Hides (P : ε → Prop) (shown : Except ε α → β) (m : Machine σ ε α) (m' : Machine σ ε β) : Prop where
  more : ∀ {s s' b}, m.hasNext s = (.ok b, s') → m'.hasNext s = (.ok b, s')
  ends : ∀ {s s' e}, P e → m.hasNext s = (.error e, s') → m'.hasNext s = (.ok false, s')
  entry : ∀ {s s' x}, (∀ e, x = .error e → P e) → m.next s = (x, s') → m'.next s = (.ok (shown x), s')

/-- All failures of a script are of one kind. -/
def FailsOnly (P : ε → Prop) (items : List (Item ε α)) : Prop :=
  (∀ e, .raises e ∈ items → P e) ∧ ∀ e, .gives (.error e) ∈ items → P e

theorem FailsOnly.tail {P : ε → Prop} {item : Item ε α} {items : List (Item ε α)} (h : FailsOnly P (item :: items)) :
    FailsOnly P items :=
  ⟨fun e he => h.1 e (List.mem_cons_of_mem _ he), fun e he => h.2 e (List.mem_cons_of_mem _ he)⟩

theorem rounds_ne_nil (shown : Except ε α → β) (items : List (Item ε α)) : rounds shown items ≠ [] := by
  induction items with
  | nil => exact List.cons_ne_nil _ _
  | cons item items ih =>
    cases item with
    | gives x => simpa [rounds] using ih
    | raises e => exact List.cons_ne_nil _ _

/-- **Rounds of a script**, and any number of empty ones after it. The
induction is on the script. -/
theorem Hides.rounds {P : ε → Prop} {shown : Except ε α → β} {m : Machine σ ε α} {m' : Machine σ ε β}
    (h : Hides P shown m m') {items : List (Item ε α)} {s : σ} (hs : Follows m s items false) (hP : FailsOnly P items)
    (k : ℕ) : Rounds m' s (Iteration.rounds shown items ++ List.replicate k []) := by
  induction items generalizing s k with
  | nil =>
    -- the iterator has ended, and says so as often as it is asked
    induction k generalizing s with
    | zero =>
      obtain ⟨s', hn, -⟩ := hs.done
      exact ⟨s', .done (h.more hn), trivial⟩
    | succ k ih =>
      obtain ⟨s', hn, hs'⟩ := hs.done
      exact ⟨s', .done (h.more hn), ih hs'⟩
  | cons item items ih =>
    cases item with
    | raises e =>
      obtain ⟨s', hn, hs'⟩ := hs.raises
      exact ⟨s', .done (h.ends (hP.1 e List.mem_cons_self) hn), ih hs' hP.tail k⟩
    | gives x =>
      obtain ⟨s₁, hn, hs₁⟩ := hs.hasNext
      obtain ⟨s₂, hx, hs₂⟩ := hs₁.next
      have hrounds := ih hs₂ hP.tail k
      rw [Iteration.rounds]
      cases hr : Iteration.rounds shown items with
      | nil => exact absurd hr (rounds_ne_nil shown items)
      | cons xs rest =>
        rw [hr] at hrounds
        obtain ⟨s', ht, hrest⟩ := hrounds
        refine ⟨s', .more (h.more hn) (h.entry (fun e he => hP.2 e ?_) hx) ht, hrest⟩
        rw [he]
        exact List.mem_cons_self

/-! ## The rounds of groups -/

/-- Entries that are worked on are shown as what becomes of them. -/
theorem rounds_bind {shown : Except ε β → γ} (f : α → Except ε β) (items : List (Item ε α)) :
    rounds shown (items.map (Item.bind f)) = rounds (fun x => shown (x.bind f)) items := by
  induction items with
  | nil => rfl
  | cons item items ih =>
    rw [List.map_cons]
    cases item with
    | gives x => exact congrArg _ ih
    | raises e => exact congrArg _ ih

theorem rounds_append_given {shown : Except ε α → β} (xs : List α) (items : List (Item ε α)) :
    rounds shown (xs.map (fun x => .gives (.ok x)) ++ items) =
      (rounds shown items).modifyHead (xs.map (fun x => shown (.ok x)) ++ ·) := by
  induction xs with
  | nil =>
    rw [List.map_nil, List.nil_append]
    cases rounds shown items <;> rfl
  | cons x xs ih =>
    rw [List.map_cons, List.cons_append, rounds, ih, List.modifyHead_modifyHead]
    rfl

end Iteration
