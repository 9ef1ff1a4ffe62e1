/-
Texts in which some symbols open and some close. `Stays` says that a text
read at one depth never goes below the ground, and at which depth it ends.
-/
import Mathlib

namespace Nesting

variable {β : Type*} {opens closes : β → Bool}

/-- From depth `d` the text stays above the ground, and ends at depth `e`. -/
structure Stays (opens closes : β → Bool) (d : ℕ) (t : List β) (e : ℕ) : Prop where
  above : ∀ pre, pre <+: t → pre.countP closes ≤ d + pre.countP opens
  depth : e + t.countP closes = d + t.countP opens

namespace Stays

theorem nil (d : ℕ) : Stays opens closes d [] d := by
  refine ⟨fun pre hpre => ?_, rfl⟩
  rw [List.prefix_nil.mp hpre]
  exact Nat.zero_le _

theorem append {d e f : ℕ} {s t : List β} (hs : Stays opens closes d s e) (ht : Stays opens closes e t f) :
    Stays opens closes d (s ++ t) f := by
  have hdepth := hs.depth
  refine ⟨fun pre hpre => ?_, ?_⟩
  · rcases List.prefix_or_prefix_of_prefix hpre (List.prefix_append s t) with h | ⟨u, rfl⟩
    · exact hs.above pre h
    · have := ht.above u ((List.prefix_append_right_inj s).mp hpre)
      rw [List.countP_append, List.countP_append]
      omega
  · have := ht.depth
    rw [List.countP_append, List.countP_append]
    omega

/-- A text without symbols of either kind. -/
theorem of_neither {t : List β} (h : ∀ b ∈ t, opens b = false ∧ closes b = false) (d : ℕ) : Stays opens closes d t d := by
  have hzero : ∀ u : List β, (∀ b ∈ u, b ∈ t) → u.countP opens = 0 ∧ u.countP closes = 0 := fun u hu =>
    ⟨List.countP_eq_zero.mpr fun b hb => by simp [(h b (hu b hb)).1],
      List.countP_eq_zero.mpr fun b hb => by simp [(h b (hu b hb)).2]⟩
  refine ⟨fun pre hpre => ?_, ?_⟩
  · rw [(hzero pre fun b hb => hpre.subset hb).2]
    exact Nat.zero_le _
  · rw [(hzero t fun b hb => hb).1, (hzero t fun b hb => hb).2]

theorem opening {b : β} (h : opens b = true) (h' : closes b = false) (d : ℕ) : Stays opens closes d [b] (d + 1) := by
  refine ⟨fun pre hpre => ?_, by simp [h, h']⟩
  rw [List.countP_eq_zero.mpr fun c hc => by simp [List.mem_singleton.mp (hpre.subset hc), h']]
  exact Nat.zero_le _

theorem closing {b : β} (h : opens b = false) (h' : closes b = true) (d : ℕ) : Stays opens closes (d + 1) [b] d := by
  refine ⟨fun pre hpre => ?_, by simp [h, h']⟩
  have : pre.countP closes ≤ [b].countP closes := hpre.sublist.countP_le
  rw [List.countP_singleton, if_pos h'] at this
  omega

/-- As many pieces that each open, or each close, as there are. -/
theorem opening_flatMap {γ : Type*} {f : γ → List β} (h : ∀ x d, Stays opens closes d (f x) (d + 1)) (xs : List γ) (d : ℕ) :
    Stays opens closes d (xs.flatMap f) (d + xs.length) := by
  induction xs generalizing d with
  | nil => exact nil d
  | cons x xs ih =>
    rw [List.flatMap_cons, List.length_cons, ← Nat.add_assoc, Nat.add_right_comm]
    exact (h x d).append (ih (d + 1))

theorem closing_flatMap {γ : Type*} {f : γ → List β} (h : ∀ x d, Stays opens closes (d + 1) (f x) d) (xs : List γ) (d : ℕ) :
    Stays opens closes (d + xs.length) (xs.flatMap f) d := by
  induction xs generalizing d with
  | nil => exact nil d
  | cons x xs ih =>
    rw [List.flatMap_cons, List.length_cons, ← Nat.add_assoc]
    exact (h x _).append (ih d)

end Stays

end Nesting
