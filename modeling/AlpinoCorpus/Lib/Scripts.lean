/-
Iterators that may fail and go on: a client that catches what a call raises
can call again. `Follows` says what every such client is given, by a script of
what the iterator has in store.
-/
import AlpinoCorpus.Lib.Iteration

namespace Iteration

variable {σ τ ε α β : Type*}

/-- What an iterator has in store: an entry or a failure that `next` gives,
after a `hasNext` that is true, or a failure of `hasNext`. -/
inductive Item (ε α : Type*)
  | gives (x : Except ε α)
  | raises (e : ε)
  deriving DecidableEq

/-- The answers to a schedule of calls, also after a failure. A `next` is
called only after a `hasNext` that returned true. -/
def replies (m : Machine σ ε α) : List Call → Bool → σ → List (Answer ε α)
  | [], _, _ => []
  | .hasNext :: cs, _, s =>
    match m.hasNext s with
    | (.ok b, s) => .more b :: replies m cs b s
    | (.error e, s) => .failed e :: replies m cs false s
  | .next :: cs, true, s =>
    match m.next s with
    | (.ok x, s) => .entry x :: replies m cs false s
    | (.error e, s) => .failed e :: replies m cs false s
  | .next :: cs, false, s => replies m cs false s

/-- The answers of a script. -/
def scripted : List Call → Bool → List (Item ε α) → List (Answer ε α)
  | [], _, _ => []
  | .hasNext :: cs, _, [] => .more false :: scripted cs false []
  | .hasNext :: cs, _, .gives x :: items => .more true :: scripted cs true (.gives x :: items)
  | .hasNext :: cs, _, .raises e :: items => .failed e :: scripted cs false items
  | .next :: cs, true, .gives (.ok x) :: items => .entry x :: scripted cs false items
  | .next :: cs, true, .gives (.error e) :: items => .failed e :: scripted cs false items
  | .next :: cs, _, items => scripted cs false items

/-- Ready for `next`. -/
def Due : List (Item ε α) → Prop
  | .gives _ :: _ => True
  | _ => False

/-- Whatever the schedule, the answers are those of the script. -/
def Follows (m : Machine σ ε α) (s : σ) (items : List (Item ε α)) (ready : Bool) : Prop :=
  (ready = true → Due items) ∧ ∀ cs, replies m cs ready s = scripted cs ready items

namespace Follows

variable {m : Machine σ ε α} {s : σ} {items : List (Item ε α)} {ready : Bool} {x : Except ε α} {e : ε}

theorem done (h : Follows m s [] ready) : ∃ s', m.hasNext s = (.ok false, s') ∧ Follows m s' [] false := by
  have h₁ := h.2 [.hasNext]
  rcases hs : m.hasNext s with ⟨b | b, s'⟩
  · simp [replies, scripted, hs] at h₁
  · simp only [replies, scripted, hs, List.cons.injEq, Answer.more.injEq, and_true] at h₁
    subst h₁
    refine ⟨s', rfl, fun hb => by simp at hb, fun cs => ?_⟩
    have h₂ := h.2 (.hasNext :: cs)
    simpa only [replies, scripted, hs, List.cons.injEq, true_and] using h₂

theorem hasNext (h : Follows m s (.gives x :: items) ready) :
    ∃ s', m.hasNext s = (.ok true, s') ∧ Follows m s' (.gives x :: items) true := by
  have h₁ := h.2 [.hasNext]
  rcases hs : m.hasNext s with ⟨b | b, s'⟩
  · simp [replies, scripted, hs] at h₁
  · simp only [replies, scripted, hs, List.cons.injEq, Answer.more.injEq, and_true] at h₁
    subst h₁
    refine ⟨s', rfl, fun _ => trivial, fun cs => ?_⟩
    have h₂ := h.2 (.hasNext :: cs)
    simpa only [replies, scripted, hs, List.cons.injEq, true_and] using h₂

theorem raises (h : Follows m s (.raises e :: items) ready) :
    ∃ s', m.hasNext s = (.error e, s') ∧ Follows m s' items false := by
  have h₁ := h.2 [.hasNext]
  rcases hs : m.hasNext s with ⟨b | b, s'⟩
  · simp only [replies, scripted, hs, List.cons.injEq, Answer.failed.injEq, and_true] at h₁
    subst h₁
    refine ⟨s', rfl, fun hb => by simp at hb, fun cs => ?_⟩
    have h₂ := h.2 (.hasNext :: cs)
    simpa only [replies, scripted, hs, List.cons.injEq, true_and] using h₂
  · simp [replies, scripted, hs] at h₁

theorem next (h : Follows m s (.gives x :: items) true) : ∃ s', m.next s = (x, s') ∧ Follows m s' items false := by
  have h₁ := h.2 [.next]
  have h₂ : ∀ cs, replies m (.next :: cs) true s = scripted (.next :: cs) true (.gives x :: items) := fun cs => h.2 _
  rcases hs : m.next s with ⟨e | y, s'⟩ <;> cases x <;>
    simp only [replies, scripted, hs, List.cons.injEq, Answer.failed.injEq, Answer.entry.injEq, reduceCtorEq,
      and_true] at h₁
  all_goals
    subst h₁
    refine ⟨s', rfl, fun hb => by simp at hb, fun cs => ?_⟩
    simpa only [replies, scripted, hs, List.cons.injEq, true_and] using h₂ cs

end Follows

/-- What `hasNext` does with a script, and what it leaves. -/
inductive Asks (R : σ → List (Item ε α) → Bool → Prop) (x : Except ε Bool × σ) : List (Item ε α) → Prop
  | done (hx : x.1 = .ok false) (h : R x.2 [] false) : Asks R x []
  | more {v : Except ε α} {items : List (Item ε α)} (hx : x.1 = .ok true) (h : R x.2 (.gives v :: items) true) :
      Asks R x (.gives v :: items)
  | raises {e : ε} {items : List (Item ε α)} (hx : x.1 = .error e) (h : R x.2 items false) : Asks R x (.raises e :: items)

theorem Asks.imp {R R' : σ → List (Item ε α) → Bool → Prop} {x : Except ε Bool × σ} {items : List (Item ε α)}
    (h : Asks R x items) (himp : ∀ s items b, R s items b → R' s items b) : Asks R' x items := by
  cases h with
  | done hx h => exact .done hx (himp _ _ _ h)
  | more hx h => exact .more hx (himp _ _ _ h)
  | raises hx h => exact .raises hx (himp _ _ _ h)

namespace Follows

variable {m : Machine σ ε α} {s : σ} {items : List (Item ε α)} {ready : Bool}

theorem asks (h : Follows m s items ready) : Asks (Follows m) (m.hasNext s) items := by
  rcases items with _ | ⟨x | e, items⟩
  · obtain ⟨s', hs, h'⟩ := h.done
    rw [hs]
    exact .done rfl h'
  · obtain ⟨s', hs, h'⟩ := h.hasNext
    rw [hs]
    exact .more rfl h'
  · obtain ⟨s', hs, h'⟩ := h.raises
    rw [hs]
    exact .raises rfl h'

/-- The rule of simulation: a relation to the script left, kept by both calls. -/
theorem of_simulation {R : σ → List (Item ε α) → Bool → Prop} (hhas : ∀ s items b, R s items b → Asks R (m.hasNext s) items)
    (hnext : ∀ s x items, R s (.gives x :: items) true → ∃ s', m.next s = (x, s') ∧ R s' items false)
    (hready : ∀ s items, R s items true → Due items) (h : R s items ready) : Follows m s items ready := by
  refine ⟨fun hb => by subst hb; exact hready s items h, fun cs => ?_⟩
  induction cs generalizing s items ready with
  | nil => rfl
  | cons c cs ih =>
    cases c with
    | hasNext =>
      have hasks := hhas s items ready h
      rw [replies]
      generalize m.hasNext s = x at hasks
      obtain ⟨r, s'⟩ := x
      cases hasks with
      | done hx h' | more hx h' | raises hx h' =>
        obtain rfl : r = _ := hx
        simp only [scripted, ih h']
    | next =>
      cases ready with
      | false => rcases items with _ | ⟨(_ | _) | _, items⟩ <;> exact ih h
      | true =>
        rcases items with _ | ⟨x | e, items⟩
        · exact (hready s _ h).elim
        · obtain ⟨s', hs, h'⟩ := hnext s x items h
          cases x <;> simp only [replies, scripted, hs, ih h']
        · exact (hready s _ h).elim

end Follows

/-- An iterator that does not fail. -/
theorem Delivers.follows {m : Machine σ ε α} {s : σ} {xs : List α} {b : Bool} (h : Delivers m s xs b) :
    Follows m s (xs.map fun x => .gives (.ok x)) b := by
  refine Follows.of_simulation (R := fun s items b => ∃ xs, items = xs.map (fun x => .gives (.ok x)) ∧ Delivers m s xs b)
    ?_ ?_ ?_ ⟨xs, rfl, h⟩
  · rintro s items b ⟨xs, rfl, h⟩
    obtain ⟨s', hs, h⟩ := h.hasNext
    rw [hs]
    cases xs with
    | nil => exact .done rfl ⟨[], rfl, h⟩
    | cons x xs => exact .more rfl ⟨x :: xs, rfl, h⟩
  · rintro s x items ⟨xs, hxs, h⟩
    obtain ⟨y, ys, rfl, hy, rfl⟩ := List.map_eq_cons_iff.mp hxs.symm
    cases hy
    obtain ⟨s', hs, h⟩ := h.next
    exact ⟨s', hs, ys, rfl, h⟩
  · rintro s items ⟨xs, rfl, h⟩
    cases xs with
    | nil => exact absurd rfl (h.1 rfl)
    | cons x xs => trivial

theorem replies_map {m₁ : Machine σ ε α} {m₂ : Machine τ ε α} {f : σ → τ}
    (hhas : ∀ s, m₂.hasNext (f s) = ((m₁.hasNext s).1, f (m₁.hasNext s).2))
    (hnext : ∀ s, m₂.next (f s) = ((m₁.next s).1, f (m₁.next s).2)) (cs : List Call) (b : Bool) (s : σ) :
    replies m₂ cs b (f s) = replies m₁ cs b s := by
  induction cs generalizing b s with
  | nil => rfl
  | cons c cs ih =>
    cases c with
    | hasNext =>
      rw [replies, replies, hhas]
      rcases m₁.hasNext s with ⟨_ | _, s'⟩ <;> exact congrArg _ (ih _ _)
    | next =>
      cases b with
      | false => exact ih _ _
      | true =>
        rw [replies, replies, hnext]
        rcases m₁.next s with ⟨_ | _, s'⟩ <;> exact congrArg _ (ih _ _)

/-- A machine that answers as another does, through `f`. -/
theorem Follows.map {m₁ : Machine σ ε α} {m₂ : Machine τ ε α} (f : σ → τ)
    (hhas : ∀ s, m₂.hasNext (f s) = ((m₁.hasNext s).1, f (m₁.hasNext s).2))
    (hnext : ∀ s, m₂.next (f s) = ((m₁.next s).1, f (m₁.next s).2)) {s : σ} {items : List (Item ε α)} {b : Bool}
    (h : Follows m₁ s items b) : Follows m₂ (f s) items b :=
  ⟨h.1, fun cs => (replies_map hhas hnext cs b s).trans (h.2 cs)⟩

/-! ## Entries that are worked on -/

/-- What `next` makes of an item when it works on each entry. -/
def Item.bind (f : α → Except ε β) : Item ε α → Item ε β
  | .gives x => .gives (x.bind f)
  | .raises e => .raises e

/-- A machine that does to the entries of another what `f` says, and asks it
whether there are more. -/
theorem Follows.bind {m : Machine σ ε α} {m' : Machine τ ε β} {f : α → Except ε β} (g : σ → τ)
    (hhas : ∀ s, m'.hasNext (g s) = ((m.hasNext s).1, g (m.hasNext s).2))
    (hnext : ∀ s, m'.next (g s) = ((m.next s).1.bind f, g (m.next s).2)) {s : σ} {items : List (Item ε α)} {b : Bool}
    (h : Follows m s items b) : Follows m' (g s) (items.map (Item.bind f)) b := by
  refine Follows.of_simulation (R := fun t items' b => ∃ s items, t = g s ∧ items' = items.map (Item.bind f) ∧
    Follows m s items b) ?_ ?_ ?_ ⟨s, items, rfl, rfl, h⟩
  · rintro t items' b ⟨s, items, rfl, rfl, h⟩
    rw [hhas]
    cases h.asks with
    | done hx hrest => exact .done hx ⟨_, [], rfl, rfl, hrest⟩
    | more hx hrest => exact .more hx ⟨_, _ :: _, rfl, rfl, hrest⟩
    | raises hx hrest => exact .raises hx ⟨_, _, rfl, rfl, hrest⟩
  · rintro t x items' ⟨s, items, rfl, hitems, h⟩
    obtain ⟨y, ys, rfl, hy, rfl⟩ := List.map_eq_cons_iff.mp hitems.symm
    cases y with
    | raises e => cases hy
    | gives y =>
      cases hy
      obtain ⟨s', hs, h⟩ := h.next
      exact ⟨g s', by rw [hnext, hs], s', ys, rfl, rfl, h⟩
  · rintro t items' ⟨s, items, rfl, rfl, h⟩
    rcases items with _ | ⟨_ | _, _⟩
    · exact h.1 rfl
    · trivial
    · exact h.1 rfl

end Iteration
