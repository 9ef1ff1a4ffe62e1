/-
Calls in steps. A call stands at a point; a step takes it to another point
or ends it, and may change the state on the way. What others do to the state
comes between the steps.

`Yields` is a call that is left alone. `Runs` is what is observed of a system
in which any party may step.
-/
import Mathlib

namespace Stepping

variable {π π' σ σ' ρ ρ' ε : Type*}

inductive Turn (π ρ : Type*)
  | goes (p : π)
  | ends (r : ρ)
  deriving DecidableEq

/-- A call inside another: where the outer one is meanwhile, and what it
makes of the result. -/
def Turn.inside (wrap : π → π') (after : ρ → Turn π' ρ') : Turn π ρ → Turn π' ρ'
  | goes p => goes (wrap p)
  | ends r => after r

/-! ## One call -/

variable {step : π → σ → Turn π ρ × σ}

/-- The call comes to `r`, nothing coming in between. -/
inductive Yields (step : π → σ → Turn π ρ × σ) : π → σ → ρ → σ → Prop
  | ends {p : π} {s s' : σ} {r : ρ} (h : step p s = (.ends r, s')) : Yields step p s r s'
  | goes {p p' : π} {s s₁ s' : σ} {r : ρ} (h : step p s = (.goes p', s₁)) (hc : Yields step p' s₁ r s') : Yields step p s r s'

/-- Two points with the same step. -/
theorem Yields.of_eq {p q : π} {s s' : σ} {r : ρ} (h : step p s = step q s) (hc : Yields step q s r s') : Yields step p s r s' := by
  cases hc with
  | ends hs => exact .ends (h.trans hs)
  | goes hs hc => exact .goes (h.trans hs) hc

/-- The steps of an inner call are steps of the outer one. -/
theorem Yields.inside {outer : π' → σ' → Turn π' ρ' × σ'} (wrap : π → π') (after : ρ → Turn π' ρ') (put : σ → σ')
    (h : ∀ p s, outer (wrap p) (put s) = ((step p s).1.inside wrap after, put (step p s).2))
    {p : π} {s s' : σ} {r : ρ} {r' : ρ'} {t : σ'} (hc : Yields step p s r s')
    (hafter : (∃ p', after r = .goes p' ∧ Yields outer p' (put s') r' t) ∨ (after r = .ends r' ∧ t = put s')) :
    Yields outer (wrap p) (put s) r' t := by
  induction hc with
  | @ends p s s' r hs =>
    have hstep : outer (wrap p) (put s) = (after r, put s') := by rw [h, hs]; rfl
    rcases hafter with ⟨p', hr, hc⟩ | ⟨hr, rfl⟩
    · exact .goes (by rw [hstep, hr]) hc
    · exact .ends (by rw [hstep, hr])
  | goes hs _ ih => exact .goes (by rw [h, hs]; rfl) (ih hafter)

/-- The call, left alone, comes to a point where `P` holds. -/
inductive Meets (step : π → σ → Turn π ρ × σ) (P : π → σ → Prop) : π → σ → Prop
  | here {p : π} {s : σ} (h : P p s) : Meets step P p s
  | goes {p p' : π} {s s' : σ} (h : step p s = (.goes p', s')) (hm : Meets step P p' s') : Meets step P p s

/-- It is there, or its next step takes it closer. -/
theorem Meets.cases {P : π → σ → Prop} {p : π} {s : σ} (h : Meets step P p s) :
    P p s ∨ ∃ p' s', step p s = (.goes p', s') ∧ Meets step P p' s' := by
  cases h with
  | here h => exact .inl h
  | goes h hm => exact .inr ⟨_, _, h, hm⟩

theorem Meets.goes_iff {P : π → σ → Prop} {p p' : π} {s s' : σ} (hP : ¬P p s) (h : step p s = (.goes p', s')) :
    Meets step P p s ↔ Meets step P p' s' := by
  refine ⟨fun hm => ?_, .goes h⟩
  rcases hm.cases with hp | ⟨p₁, s₁, h₁, hm⟩
  · exact absurd hp hP
  · rw [h, Prod.mk.injEq, Turn.goes.injEq] at h₁
    obtain ⟨rfl, rfl⟩ := h₁
    exact hm

theorem Meets.ends_iff {P : π → σ → Prop} {p : π} {s s' : σ} {r : ρ} (h : step p s = (.ends r, s')) :
    Meets step P p s ↔ P p s := by
  refine ⟨fun hm => ?_, .here⟩
  rcases hm.cases with hp | ⟨p₁, s₁, h₁, -⟩
  · exact hp
  · rw [h] at h₁; cases h₁

/-! ## Systems -/

/-- From `s₀` the system comes to a state, these events having been observed. -/
inductive Runs (move : σ → Option ε → σ → Prop) (s₀ : σ) : List ε → σ → Prop
  | nil : Runs move s₀ [] s₀
  | silent {evs : List ε} {s s' : σ} (hr : Runs move s₀ evs s) (h : move s none s') : Runs move s₀ evs s'
  | event {evs : List ε} {s s' : σ} {ev : ε} (hr : Runs move s₀ evs s) (h : move s (some ev) s') :
    Runs move s₀ (evs ++ [ev]) s'

variable {move : σ → Option ε → σ → Prop} {s₀ s : σ} {evs : List ε}

/-- What every move keeps holds in every state that is reached. -/
theorem Runs.invariant {I : σ → Prop} (h : Runs move s₀ evs s) (hinit : I s₀)
    (hmove : ∀ {s ev s'}, I s → move s ev s' → I s') : I s := by
  induction h with
  | nil => exact hinit
  | silent _ h ih => exact hmove ih h
  | event _ h ih => exact hmove ih h

/-- The last event of a list that is cut in two. -/
theorem snoc_eq_append_cons {xs ys zs : List ε} {x y : ε} (h : xs ++ [x] = ys ++ y :: zs) :
    (xs = ys ∧ x = y ∧ zs = []) ∨ ∃ zs', zs = zs' ++ [x] ∧ xs = ys ++ y :: zs' := by
  rcases List.eq_nil_or_concat zs with rfl | ⟨zs', z, rfl⟩
  · obtain ⟨hxs, hx⟩ := List.append_inj' h rfl
    injection hx with hx
    exact .inl ⟨hxs, hx, rfl⟩
  · rw [List.concat_eq_append] at h ⊢
    rw [← List.cons_append, ← List.append_assoc] at h
    obtain ⟨hxs, hx⟩ := List.append_inj' h rfl
    injection hx with hx
    exact .inr ⟨zs', by rw [hx], hxs⟩

/-- The rule of until. An event that is a `start` establishes `Q`, which the
moves keep up to an event that is a `stop`; while `Q` holds no event is
`bad`. Then between a `start` and what is `bad` there is a `stop`. -/
theorem Runs.until (I Q : σ → Prop) (start stop bad : ε → Prop) (h : Runs move s₀ evs s) (hinit : I s₀)
    (hmove : ∀ {s ev s'}, I s → move s ev s' → I s')
    (hstart : ∀ {s ev s'}, I s → start ev → move s (some ev) s' → Q s')
    (hkeep : ∀ {s ev s'}, I s → Q s → move s ev s' → (∀ e, ev = some e → ¬stop e) → Q s')
    (hbad : ∀ {s ev s'}, I s → Q s → move s (some ev) s' → ¬bad ev) {a b : List ε} {ev : ε} (hevs : evs = a ++ ev :: b)
    (hev : start ev) :
    ((∀ e ∈ b, ¬stop e) → Q s) ∧ ∀ b₁ e b₂, b = b₁ ++ e :: b₂ → bad e → ∃ e' ∈ b₁, stop e' := by
  induction h generalizing b with
  | nil => simp at hevs
  | silent hr h ih =>
    obtain ⟨hq, hb⟩ := ih hevs
    exact ⟨fun hstop => hkeep (hr.invariant hinit hmove) (hq hstop) h fun e he => (by cases he), hb⟩
  | @event evs s s' x hr h ih =>
    have hI := hr.invariant hinit hmove
    rcases snoc_eq_append_cons hevs with ⟨rfl, rfl, rfl⟩ | ⟨b', rfl, hevs'⟩
    · exact ⟨fun _ => hstart hI hev h, fun b₁ e b₂ hb => (by simp at hb)⟩
    · obtain ⟨hq, hb⟩ := ih hevs'
      refine ⟨fun hstop => ?_, fun b₁ e b₂ hsplit hbade => ?_⟩
      · rw [List.forall_mem_append, List.forall_mem_singleton] at hstop
        exact hkeep hI (hq hstop.1) h fun e he => (by cases he; exact hstop.2)
      · rcases snoc_eq_append_cons hsplit with ⟨rfl, rfl, rfl⟩ | ⟨b₂', rfl, hsplit'⟩
        · by_contra hnone
          push Not at hnone
          exact hbad hI (hq hnone) h hbade
        · exact hb b₁ e b₂' hsplit' hbade

end Stepping
