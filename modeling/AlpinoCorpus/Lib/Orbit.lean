/-
Runs of a deterministic step: `step s = none` when the run is over in `s`.

A run that meets finitely many states either ends or comes back to a state
it has been in, and not both: `ends_iff`.
-/
import Mathlib

namespace Orbit

variable {σ : Type} (step : σ → Option σ)

/-- The state after `n` steps, if the run gets that far. -/
def after : Nat → σ → Option σ
  | 0, s => some s
  | n + 1, s => (step s).bind (after n)

def Reaches (s t : σ) : Prop := ∃ n, after step n s = some t

def Ends (s : σ) : Prop := ∃ n, after step n s = none

/-- The run comes back to a state it has been in. -/
def Recurs (s : σ) : Prop := ∃ t, Reaches step s t ∧ ∃ n, 0 < n ∧ after step n t = some t

variable {step}

theorem after_succ {s t : σ} (h : step s = some t) (n : Nat) : after step (n + 1) s = after step n t := by
  rw [after, h, Option.bind_some]

theorem after_add (m n : Nat) (s : σ) : after step (m + n) s = (after step m s).bind (after step n) := by
  induction m generalizing s with
  | zero => simp [after]
  | succ m ih =>
    rw [Nat.add_right_comm, after, after]
    cases step s with
    | none => rfl
    | some t => exact ih t

theorem Reaches.refl (s : σ) : Reaches step s s := ⟨0, rfl⟩

theorem Reaches.head {s t u : σ} (hs : step s = some t) (h : Reaches step t u) : Reaches step s u := by
  obtain ⟨n, hn⟩ := h
  exact ⟨n + 1, by rw [after_succ hs, hn]⟩

theorem ends_head {s t : σ} (hs : step s = some t) : Ends step s ↔ Ends step t := by
  constructor
  · intro ⟨n, hn⟩
    cases n with
    | zero => cases hn
    | succ n => exact ⟨n, by rwa [after_succ hs] at hn⟩
  · intro ⟨n, hn⟩
    exact ⟨n + 1, by rwa [after_succ hs]⟩

/-- A run is over in one state at most. -/
theorem Reaches.final_unique {s t u : σ} (ht : Reaches step s t) (hu : Reaches step s u) (hst : step t = none)
    (hsu : step u = none) : t = u := by
  obtain ⟨m, hm⟩ := ht
  obtain ⟨n, hn⟩ := hu
  have hlate : ∀ {m k : Nat} {t : σ}, after step m s = some t → step t = none → 0 < k → after step (m + k) s = none := by
    intro m k t hm hst hk
    obtain ⟨k, rfl⟩ : ∃ j, k = j + 1 := ⟨k - 1, by omega⟩
    rw [after_add, hm, Option.bind_some, after, hst]
    rfl
  rcases Nat.lt_trichotomy m n with hlt | rfl | hlt
  · have := hlate hm hst (k := n - m) (by omega)
    rw [show m + (n - m) = n by omega, hn] at this
    cases this
  · rw [hm] at hn
    exact Option.some.inj hn
  · have := hlate hn hsu (k := m - n) (by omega)
    rw [show n + (m - n) = m by omega, hm] at this
    cases this

theorem after_none_of_le {m n : Nat} (hmn : m ≤ n) {s : σ} (h : after step m s = none) : after step n s = none := by
  obtain ⟨k, rfl⟩ := Nat.exists_eq_add_of_le hmn
  rw [after_add, h]
  rfl

/-- A state that recurs is met again and again. -/
theorem after_mul {t : σ} {n : Nat} (h : after step n t = some t) (k : Nat) : after step (k * n) t = some t := by
  induction k with
  | zero => rw [Nat.zero_mul]; rfl
  | succ k ih => rw [Nat.succ_mul, after_add, ih, Option.bind_some, h]

theorem not_ends_of_recurs {s : σ} (h : Recurs step s) : ¬ Ends step s := by
  obtain ⟨t, ⟨m, hm⟩, n, hn, ht⟩ := h
  intro ⟨k, hk⟩
  have hlate : after step (m + k * n) s = some t := by rw [after_add, hm, Option.bind_some, after_mul ht]
  have hle : k ≤ m + k * n := by
    have : k * 1 ≤ k * n := Nat.mul_le_mul_left k hn
    omega
  rw [after_none_of_le hle hk] at hlate
  cases hlate

/-- A run whose states with a next one lie in a finite set, and recur
nowhere, has ended after one step more than the set has elements. -/
theorem after_card {s : σ} (S : Finset σ) (hS : ∀ t u, Reaches step s t → step t = some u → t ∈ S)
    (h : ¬ Recurs step s) : after step (S.card + 1) s = none := by
  classical
  by_contra hne
  have hsome : ∀ i, i ≤ S.card + 1 → ∃ t, after step i s = some t := by
    intro i hi
    cases ht : after step i s with
    | some t => exact ⟨t, rfl⟩
    | none => exact absurd (after_none_of_le hi ht) hne
  have : Nonempty σ := ⟨s⟩
  choose! state hstate using hsome
  -- One state more than the set has elements: two of them are the same.
  have hmem : ∀ i ∈ Finset.range (S.card + 1), state i ∈ S := by
    intro i hi
    have hi' := Finset.mem_range.mp hi
    obtain ⟨u, hu⟩ : ∃ u, step (state i) = some u := by
      have h₁ := hstate (i + 1) (by omega)
      rw [after_add, hstate i (by omega), Option.bind_some] at h₁
      cases hu : step (state i) with
      | some u => exact ⟨u, rfl⟩
      | none => rw [after, hu] at h₁; cases h₁
    exact hS _ _ ⟨i, hstate i (by omega)⟩ hu
  obtain ⟨i, hi, j, hj, hij, heq⟩ := Finset.exists_ne_map_eq_of_card_lt_of_maps_to
    (by rw [Finset.card_range]; exact Nat.lt_succ_self _) hmem
  have hback : ∀ {i j : Nat}, i < j → j ≤ S.card + 1 → state i = state j → False := by
    intro i j hlt hle heq
    refine h ⟨state i, ⟨i, hstate i (by omega)⟩, j - i, by omega, ?_⟩
    have h₁ := hstate j hle
    rw [show j = i + (j - i) by omega, after_add, hstate i (by omega), Option.bind_some,
      show i + (j - i) = j by omega] at h₁
    rw [h₁, heq]
  have hi' := Finset.mem_range.mp hi
  have hj' := Finset.mem_range.mp hj
  rcases Nat.lt_or_gt_of_ne hij with hlt | hlt
  · exact hback hlt (by omega) heq
  · exact hback hlt (by omega) heq.symm

/-- **A run through finitely many states ends** exactly when it recurs
nowhere. -/
theorem ends_iff {s : σ} (S : Finset σ) (hS : ∀ t u, Reaches step s t → step t = some u → t ∈ S) :
    Ends step s ↔ ¬ Recurs step s :=
  ⟨fun he hr => not_ends_of_recurs hr he, fun h => ⟨_, after_card S hS h⟩⟩

end Orbit
