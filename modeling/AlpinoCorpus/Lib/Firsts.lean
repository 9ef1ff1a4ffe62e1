/-
The first elements of a list with each key, as a loop with a set of the keys
it has seen finds them.
-/
import Mathlib

namespace Firsts

variable {α κ : Type*} [DecidableEq κ] (key : α → κ)

/-- The elements whose keys are new, `seen` being known already. -/
def firstsBy (seen : List κ) : List α → List α
  | [] => []
  | x :: xs => if key x ∈ seen then firstsBy seen xs else x :: firstsBy (key x :: seen) xs

variable {key}

/-- Only what is in the set matters. -/
theorem firstsBy_congr {seen seen' : List κ} (h : ∀ k, k ∈ seen ↔ k ∈ seen') (xs : List α) :
    firstsBy key seen xs = firstsBy key seen' xs := by
  induction xs generalizing seen seen' with
  | nil => rfl
  | cons x xs ih =>
    simp only [firstsBy, h (key x)]
    split
    · exact ih h
    · have hcons : ∀ k, k ∈ key x :: seen ↔ k ∈ key x :: seen' := fun k => by simp only [List.mem_cons, h k]
      rw [ih hcons]

theorem firstsBy_sublist (seen : List κ) (xs : List α) : (firstsBy key seen xs).Sublist xs := by
  induction xs generalizing seen with
  | nil => exact .slnil
  | cons x xs ih =>
    rw [firstsBy]
    split
    · exact (ih _).cons x
    · exact (ih _).cons_cons x

theorem firstsBy_append (seen : List κ) (xs ys : List α) :
    firstsBy key seen (xs ++ ys) = firstsBy key seen xs ++ firstsBy key (xs.map key ++ seen) ys := by
  induction xs generalizing seen with
  | nil => rfl
  | cons x xs ih =>
    rw [List.cons_append, firstsBy, firstsBy]
    split
    · next hx =>
      rw [ih]
      congr 1
      refine firstsBy_congr (fun k => ?_) ys
      simp only [List.map_cons, List.cons_append, List.mem_cons, List.mem_append]
      exact ⟨fun h => .inr h, fun h => h.elim (fun hk => .inr (hk ▸ hx)) id⟩
    · rw [ih, List.cons_append]
      congr 2
      refine firstsBy_congr (fun k => ?_) ys
      simp only [List.map_cons, List.cons_append, List.mem_cons, List.mem_append]
      tauto

/-- Elements of one key: the first of them, if the key is new. -/
theorem firstsBy_group {seen : List κ} {xs : List α} {k : κ} (hk : ∀ x ∈ xs, key x = k) (hnew : k ∉ seen) :
    firstsBy key seen xs = xs.head?.toList := by
  cases xs with
  | nil => rfl
  | cons x xs =>
    obtain ⟨rfl, hxs⟩ := List.forall_mem_cons.mp hk
    have hrest : ∀ {ys : List α}, (∀ y ∈ ys, key y = key x) → firstsBy key (key x :: seen) ys = [] := by
      intro ys
      induction ys with
      | nil => exact fun _ => rfl
      | cons y ys ih =>
        intro hys
        obtain ⟨hy, hys⟩ := List.forall_mem_cons.mp hys
        rw [firstsBy, if_pos (by rw [hy]; simp), ih hys]
    rw [firstsBy, if_neg hnew, hrest hxs]
    rfl

/-- **Groups.** Of groups under distinct keys, the first element of each. -/
theorem firstsBy_flatMap {keys seen : List κ} {group : κ → List α} (hnodup : keys.Nodup) (hnew : ∀ k ∈ keys, k ∉ seen)
    (hgroup : ∀ k ∈ keys, ∀ x ∈ group k, key x = k) :
    firstsBy key seen (keys.flatMap group) = keys.flatMap fun k => (group k).head?.toList := by
  induction keys generalizing seen with
  | nil => rfl
  | cons k keys ih =>
    obtain ⟨hk, hkeys⟩ := List.nodup_cons.mp hnodup
    obtain ⟨hnewk, hnews⟩ := List.forall_mem_cons.mp hnew
    obtain ⟨hgroupk, hgroups⟩ := List.forall_mem_cons.mp hgroup
    rw [List.flatMap_cons, List.flatMap_cons, firstsBy_append, firstsBy_group hgroupk hnewk]
    congr 1
    refine ih hkeys (fun j hj hmem => ?_) hgroups
    rcases List.mem_append.mp hmem with h | h
    · obtain ⟨x, hx, rfl⟩ := List.mem_map.mp h
      rw [hgroupk x hx] at hj
      exact hk hj
    · exact hnews j hj h

end Firsts
