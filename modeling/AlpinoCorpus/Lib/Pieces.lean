/-
Cutting a list into pieces of a fixed length, the last one shorter: the
pieces, where they lie in the list, and slices of a concatenation found by
prefix sums.
-/
import Mathlib

namespace Pieces

variable {α : Type*}

/-- `xs` in pieces of length `n`. A full last piece is not followed by an
empty one; the empty list is one empty piece. -/
def pieces (n : Nat) (xs : List α) : List (List α) :=
  if _h : 0 < n ∧ n < xs.length then xs.take n :: pieces n (xs.drop n) else [xs]
termination_by xs.length
decreasing_by simp only [List.length_drop]; omega

theorem pieces_of_le {n : Nat} {xs : List α} (h : xs.length ≤ n) : pieces n xs = [xs] := by
  rw [pieces, dif_neg (by omega)]

theorem pieces_of_lt {n : Nat} {xs : List α} (hn : 0 < n) (h : n < xs.length) :
    pieces n xs = xs.take n :: pieces n (xs.drop n) := by
  rw [pieces, dif_pos ⟨hn, h⟩]

theorem pieces_flatten (n : Nat) (xs : List α) : (pieces n xs).flatten = xs := by
  induction xs using pieces.induct n with
  | case1 xs h ih => rw [pieces_of_lt h.1 h.2, List.flatten_cons, ih, List.take_append_drop]
  | case2 xs h => rw [pieces, dif_neg h]; simp

/-- The `i`-th piece starts at `i * n`. -/
theorem getElem?_pieces {n : Nat} (hn : 0 < n) : ∀ (i : Nat) (xs : List α), i * n < xs.length ∨ i = 0 →
    (pieces n xs)[i]? = some ((xs.drop (i * n)).take n)
  | 0, xs, _ => by
    by_cases hx : n < xs.length
    · rw [pieces_of_lt hn hx]; simp
    · rw [pieces_of_le (by omega)]; simp [List.take_of_length_le (Nat.le_of_not_lt hx)]
  | i + 1, xs, h => by
    have hlt : (i + 1) * n < xs.length := by omega
    rw [Nat.add_mul] at hlt ⊢
    have hx : n < xs.length := by omega
    rw [pieces_of_lt hn hx, List.getElem?_cons_succ,
      getElem?_pieces hn i (xs.drop n) (.inl (by simp only [List.length_drop]; omega)), List.drop_drop]
    congr 3; omega

theorem getElem?_pieces_none {n : Nat} (hn : 0 < n) : ∀ (i : Nat) (xs : List α), xs.length ≤ i * n → i ≠ 0 →
    (pieces n xs)[i]? = none
  | 0, _, _, h => absurd rfl h
  | i + 1, xs, h, _ => by
    rw [Nat.add_mul] at h
    by_cases hx : n < xs.length
    · rw [pieces_of_lt hn hx, List.getElem?_cons_succ]
      have hi : i ≠ 0 := by rintro rfl; omega
      exact getElem?_pieces_none hn i _ (by simp only [List.length_drop]; omega) hi
    · rw [pieces_of_le (by omega)]; simp

/-- Full pieces with something after them fall apart the same way. -/
theorem pieces_append {n : Nat} (hn : 0 < n) (rest : List α) :
    ∀ (full : List (List α)), (∀ p ∈ full, p.length = n) → (full ≠ [] → rest ≠ []) →
      pieces n (full.flatten ++ rest) = full ++ pieces n rest
  | [], _, _ => rfl
  | p :: full, hf, hne => by
    have hp : p.length = n := hf p (by simp)
    have hrest : 0 < rest.length := List.length_pos_iff.mpr (hne (by simp))
    rw [List.flatten_cons, List.append_assoc, pieces_of_lt hn (by simp only [List.length_append]; omega),
      List.take_left' hp, List.drop_left' hp,
      pieces_append hn rest full (fun q hq => hf q (by simp [hq])) (fun _ => hne (by simp))]
    rfl

/-- The pieces from the `i`-th on. -/
theorem flatten_drop_pieces {n : Nat} (hn : 0 < n) : ∀ (i : Nat) (xs : List α),
    ((pieces n xs).drop i).flatten = xs.drop (i * n)
  | 0, xs => by simp [pieces_flatten]
  | i + 1, xs => by
    rw [Nat.add_mul, Nat.one_mul]
    by_cases hx : n < xs.length
    · rw [pieces_of_lt hn hx, List.drop_succ_cons, flatten_drop_pieces hn i, List.drop_drop]
      congr 1; omega
    · rw [pieces_of_le (by omega), List.drop_eq_nil_of_le (by omega : xs.length ≤ i * n + n)]
      simp

theorem length_pieces_le {n : Nat} (hn : 0 < n) : ∀ (k : Nat) (xs : List α), xs.length ≤ (k + 1) * n →
    (pieces n xs).length ≤ k + 1
  | k, xs, h => by
    by_cases hx : n < xs.length
    · rw [pieces_of_lt hn hx, List.length_cons]
      obtain ⟨j, rfl⟩ : ∃ j, k = j + 1 := by
        cases k with
        | zero => omega
        | succ j => exact ⟨j, rfl⟩
      have := length_pieces_le hn j (xs.drop n) (by rw [List.length_drop]; rw [Nat.add_mul] at h; omega)
      omega
    · rw [pieces_of_le (by omega)]; simp

theorem length_le_of_mem_pieces {n : Nat} (hn : 0 < n) {xs p : List α} (h : p ∈ pieces n xs) : p.length ≤ n := by
  induction xs using pieces.induct n with
  | case1 xs hx ih =>
    rw [pieces_of_lt hx.1 hx.2, List.mem_cons] at h
    rcases h with rfl | h
    · exact List.length_take_le _ _
    · exact ih h
  | case2 xs hx =>
    rw [pieces, dif_neg hx, List.mem_singleton] at h
    rw [h]
    exact Nat.le_of_not_lt fun hlt => hx ⟨hn, hlt⟩

/-- All pieces but the last are full. -/
theorem length_of_mem_dropLast_pieces {n : Nat} {xs p : List α} (h : p ∈ (pieces n xs).dropLast) : p.length = n := by
  induction xs using pieces.induct n with
  | case1 xs hx ih =>
    have hne : pieces n (xs.drop n) ≠ [] := by
      rw [pieces]
      split
      · exact List.cons_ne_nil _ _
      · exact List.cons_ne_nil _ _
    rw [pieces_of_lt hx.1 hx.2, List.dropLast_cons_of_ne_nil hne, List.mem_cons] at h
    rcases h with rfl | h
    · rw [List.length_take]
      omega
    · exact ih h
  | case2 xs hx =>
    rw [pieces, dif_neg hx] at h
    cases h

/-- There is a piece wherever there are elements, and always a first one. -/
theorem lt_length_pieces_iff {n : Nat} (hn : 0 < n) {i : Nat} {xs : List α} :
    i < (pieces n xs).length ↔ i * n < xs.length ∨ i = 0 := by
  constructor
  · intro h
    by_contra hout
    have hnone := getElem?_pieces_none hn i xs (by omega) (by omega)
    rw [List.getElem?_eq_getElem h] at hnone
    cases hnone
  · intro h
    exact (List.getElem?_eq_some_iff.mp (getElem?_pieces hn i xs h)).1

theorem ne_nil_of_mem_pieces {n : Nat} {xs p : List α} (hxs : xs ≠ []) (h : p ∈ pieces n xs) : p ≠ [] := by
  induction xs using pieces.induct n with
  | case1 xs hx ih =>
    rw [pieces_of_lt hx.1 hx.2, List.mem_cons] at h
    rcases h with rfl | h
    · rw [← List.length_pos_iff, List.length_take]; omega
    · refine ih ?_ h
      rw [← List.length_pos_iff, List.length_drop]; omega
  | case2 xs hx =>
    rw [pieces, dif_neg hx, List.mem_singleton] at h
    exact h ▸ hxs

theorem mem_of_mem_pieces {n : Nat} {xs p : List α} {x : α} (h : p ∈ pieces n xs) (hx : x ∈ p) : x ∈ xs := by
  rw [← pieces_flatten n xs]
  exact List.mem_flatten.mpr ⟨p, h, hx⟩

/-! ## Slices by prefix sums -/

/-- Where each of the pieces starts, the first at `start`. -/
def starts (start : Nat) : List Nat → List Nat
  | [] => []
  | k :: ks => start :: starts (start + k) ks

theorem length_starts (start : Nat) (ks : List Nat) : (starts start ks).length = ks.length := by
  induction ks generalizing start with
  | nil => rfl
  | cons k ks ih => simp [starts, ih]

/-- The slice of a concatenation that starts where the prefix sums say is
the piece itself, whatever comes after the pieces. -/
theorem slice_flatten {rest : List α} : ∀ (start i : Nat) (zs : List (List α)) (z : List α) (s : Nat),
    zs[i]? = some z → (starts start (zs.map List.length))[i]? = some s →
    start ≤ s ∧ ((zs.flatten ++ rest).drop (s - start)).take z.length = z
  | _, _, [], _, _, h, _ => by simp at h
  | start, 0, w :: zs, z, s, h, hs => by
    simp only [List.getElem?_cons_zero, Option.some.injEq] at h
    simp only [List.map_cons, starts, List.getElem?_cons_zero, Option.some.injEq] at hs
    subst h hs
    simp
  | start, i + 1, w :: zs, z, s, h, hs => by
    simp only [List.getElem?_cons_succ] at h
    simp only [List.map_cons, starts, List.getElem?_cons_succ] at hs
    obtain ⟨hle, hz⟩ := slice_flatten (start + w.length) i zs z s h hs
    refine ⟨by omega, ?_⟩
    rw [List.flatten_cons, List.append_assoc, List.drop_append, List.drop_eq_nil_of_le (by omega), List.nil_append,
      show s - start - w.length = s - (start + w.length) by omega, hz]

end Pieces
