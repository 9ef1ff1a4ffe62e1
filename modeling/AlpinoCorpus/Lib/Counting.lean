/-
Counting the elements of a list in a map: one count for each element that
occurs, in whatever order they come.
-/
import Mathlib

namespace Counting

variable {κ : Type*} [DecidableEq κ]

/-- `++counts[k]`. -/
def increment : List (κ × ℕ) → κ → List (κ × ℕ)
  | [], k => [(k, 1)]
  | (k', n) :: counts, k => if k' = k then (k', n + 1) :: counts else (k', n) :: increment counts k

/-- The map has the number of times that each element occurs. -/
structure Counts (counts : List (κ × ℕ)) (xs : List κ) : Prop where
  keys : (counts.map (·.1)).Nodup
  mem_iff : ∀ k n, (k, n) ∈ counts ↔ 0 < n ∧ n = xs.count k

variable {counts counts' : List (κ × ℕ)} {xs ys : List κ} {k k' : κ} {n : ℕ}

theorem Counts.nil : Counts ([] : List (κ × ℕ)) [] := ⟨List.nodup_nil, by simp; omega⟩

theorem map_fst_increment (counts : List (κ × ℕ)) (k : κ) :
    (increment counts k).map (·.1) = if k ∈ counts.map (·.1) then counts.map (·.1) else counts.map (·.1) ++ [k] := by
  induction counts with
  | nil => simp [increment]
  | cons c counts ih =>
    obtain ⟨k', n⟩ := c
    by_cases h : k' = k
    · simp [increment, h]
    · have hne : k ≠ k' := fun he => h he.symm
      simp only [increment, if_neg h, List.map_cons, ih, List.mem_cons, hne, false_or]
      split <;> rfl

theorem mem_increment_ne (h : k' ≠ k) : (k', n) ∈ increment counts k ↔ (k', n) ∈ counts := by
  induction counts with
  | nil => simp [increment, h]
  | cons c counts ih =>
    obtain ⟨k₀, n₀⟩ := c
    by_cases hk : k₀ = k
    · subst hk
      simp [increment, h]
    · simp [increment, hk, ih]

theorem mem_increment_self (hkeys : (counts.map (·.1)).Nodup) :
    (k, n) ∈ increment counts k ↔ (∃ m, (k, m) ∈ counts ∧ n = m + 1) ∨ k ∉ counts.map (·.1) ∧ n = 1 := by
  induction counts with
  | nil => simp [increment]
  | cons c counts ih =>
    obtain ⟨k₀, n₀⟩ := c
    obtain ⟨hk₀, hkeys⟩ := List.nodup_cons.mp hkeys
    by_cases hk : k₀ = k
    · subst hk
      have hnone : ∀ m, (k₀, m) ∉ counts := fun m hm => hk₀ (List.mem_map.mpr ⟨_, hm, rfl⟩)
      simp [increment, hnone]
    · have hne : k ≠ k₀ := fun he => hk he.symm
      simp [increment, hk, hne, ih hkeys]

theorem Counts.mem_keys (h : Counts counts xs) (k : κ) : k ∈ counts.map (·.1) ↔ k ∈ xs := by
  constructor
  · intro hk
    obtain ⟨⟨k', n⟩, hmem, rfl⟩ := List.mem_map.mp hk
    obtain ⟨hpos, rfl⟩ := (h.mem_iff _ n).mp hmem
    exact List.count_pos_iff.mp hpos
  · intro hk
    exact List.mem_map.mpr ⟨(k, xs.count k), (h.mem_iff _ _).mpr ⟨List.count_pos_iff.mpr hk, rfl⟩, rfl⟩

/-- One element more. -/
theorem Counts.increment (h : Counts counts xs) (k : κ) : Counts (increment counts k) (xs ++ [k]) := by
  refine ⟨?_, fun k' n => ?_⟩
  · rw [map_fst_increment]
    split
    · exact h.keys
    · next hk => exact List.concat_eq_append ▸ h.keys.concat hk
  · by_cases hk : k' = k
    · subst hk
      rw [mem_increment_self h.keys, List.count_append, List.count_singleton_self, h.mem_keys]
      simp only [h.mem_iff]
      constructor
      · rintro (⟨m, ⟨-, rfl⟩, rfl⟩ | ⟨hk, rfl⟩)
        · exact ⟨Nat.succ_pos _, rfl⟩
        · rw [List.count_eq_zero_of_not_mem hk]
          exact ⟨Nat.one_pos, rfl⟩
      · rintro ⟨-, rfl⟩
        by_cases hk : k' ∈ xs
        · exact .inl ⟨_, ⟨List.count_pos_iff.mpr hk, rfl⟩, rfl⟩
        · rw [List.count_eq_zero_of_not_mem hk]
          exact .inr ⟨hk, rfl⟩
    · have hne : ¬(k == k') = true := by simpa using fun he : k = k' => hk he.symm
      rw [mem_increment_ne hk, h.mem_iff, List.count_append, List.count_singleton, if_neg hne, Nat.add_zero]

/-- The elements, each once, with their counts. -/
theorem Counts.perm_dedup (h : Counts counts xs) : counts.Perm (xs.dedup.map fun k => (k, xs.count k)) := by
  have hnodup : (xs.dedup.map fun k => (k, xs.count k)).Nodup :=
    xs.nodup_dedup.map fun a b hab => (Prod.mk.inj hab).1
  refine (List.perm_ext_iff_of_nodup (.of_map _ h.keys) hnodup).mpr fun ⟨k, n⟩ => ?_
  rw [h.mem_iff, List.mem_map]
  constructor
  · rintro ⟨hpos, rfl⟩
    exact ⟨k, List.mem_dedup.mpr (List.count_pos_iff.mp hpos), rfl⟩
  · rintro ⟨k', hk', he⟩
    obtain ⟨rfl, rfl⟩ := Prod.mk.inj he
    exact ⟨List.count_pos_iff.mpr (List.mem_dedup.mp hk'), rfl⟩

/-- Lists with the same elements have the same counts. -/
theorem Counts.perm (h : Counts counts xs) (h' : Counts counts' ys) (hp : xs.Perm ys) : counts.Perm counts' := by
  refine h.perm_dedup.trans (.trans ?_ h'.perm_dedup.symm)
  have hcount : (fun k => (k, xs.count k)) = fun k => (k, ys.count k) := funext fun k => by rw [hp.count_eq]
  rw [hcount]
  exact hp.dedup.map _

theorem Counts.sum_eq (h : Counts counts xs) : (counts.map (·.2)).sum = xs.length := by
  rw [(h.perm_dedup.map (·.2)).sum_eq, List.map_map]
  exact List.sum_map_count_dedup_eq_length xs

end Counting
