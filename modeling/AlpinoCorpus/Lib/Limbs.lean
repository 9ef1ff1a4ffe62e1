/-
Numbers as lists of limbs, the least significant first: what
`Nat.ofDigits` makes of them. Without zeros at the top, the lengths of two
numbers compare them, and of two as long as each other the topmost limbs
that differ do.
-/
import Mathlib

namespace Limbs

variable {b : ℕ}

/-- No zeros at the top, but for a single zero. -/
structure Canonical (b : ℕ) (ls : List ℕ) : Prop where
  lt : ∀ l ∈ ls, l < b
  ne_nil : ls ≠ []
  top : ls.getLast ne_nil ≠ 0 ∨ ls.length = 1

/-- The topmost limbs that differ, among the first `n`. -/
def compareTop (xs ys : List ℕ) : ℕ → Ordering
  | 0 => .eq
  | n + 1 => (compare (xs.getD n 0) (ys.getD n 0)).then (compareTop xs ys n)

theorem ofDigits_take_succ {xs : List ℕ} {n : ℕ} (h : n < xs.length) :
    Nat.ofDigits b (xs.take (n + 1)) = Nat.ofDigits b (xs.take n) + b ^ n * xs.getD n 0 := by
  rw [List.take_succ_eq_append_getElem h, Nat.ofDigits_append, List.length_take, min_eq_left h.le,
    Nat.ofDigits_singleton, List.getD_eq_getElem _ _ h]

theorem ofDigits_take_lt {xs : List ℕ} (hb : 1 < b) (h : ∀ x ∈ xs, x < b) {n : ℕ} (hn : n ≤ xs.length) :
    Nat.ofDigits b (xs.take n) < b ^ n := by
  have hlt := Nat.ofDigits_lt_base_pow_length hb (l := xs.take n) fun x hx => h x (List.mem_of_mem_take hx)
  rwa [List.length_take, min_eq_left hn] at hlt

/-- A smaller limb outweighs all limbs below it. -/
theorem add_pow_mul_lt {v w x y n : ℕ} (hv : v < b ^ n) (hxy : x < y) : v + b ^ n * x < w + b ^ n * y :=
  calc v + b ^ n * x < b ^ n + b ^ n * x := Nat.add_lt_add_right hv _
    _ = b ^ n * (x + 1) := by ring
    _ ≤ b ^ n * y := Nat.mul_le_mul_left _ hxy
    _ ≤ w + b ^ n * y := Nat.le_add_left _ _

theorem compareTop_take (hb : 1 < b) {xs ys : List ℕ} (hx : ∀ x ∈ xs, x < b) (hy : ∀ y ∈ ys, y < b) {n : ℕ}
    (hnx : n ≤ xs.length) (hny : n ≤ ys.length) :
    compareTop xs ys n = compare (Nat.ofDigits b (xs.take n)) (Nat.ofDigits b (ys.take n)) := by
  induction n with
  | zero => simp [compareTop]
  | succ n ih =>
    have hvx := ofDigits_take_lt hb hx (n := n) (by omega)
    have hvy := ofDigits_take_lt hb hy (n := n) (by omega)
    rw [compareTop, ih (by omega) (by omega), ofDigits_take_succ (by omega), ofDigits_take_succ (by omega)]
    rcases Nat.lt_trichotomy (xs.getD n 0) (ys.getD n 0) with h | h | h
    · rw [Nat.compare_eq_lt.mpr h, Nat.compare_eq_lt.mpr (add_pow_mul_lt hvx h)]
      rfl
    · rw [h, Nat.compare_eq_eq.mpr rfl, Ordering.eq_then]
      rcases Nat.lt_trichotomy (Nat.ofDigits b (xs.take n)) (Nat.ofDigits b (ys.take n)) with h' | h' | h'
      · rw [Nat.compare_eq_lt.mpr h', Nat.compare_eq_lt.mpr (by omega)]
      · rw [h', Nat.compare_eq_eq.mpr rfl, Nat.compare_eq_eq.mpr rfl]
      · rw [Nat.compare_eq_gt.mpr h', Nat.compare_eq_gt.mpr (by omega)]
    · rw [Nat.compare_eq_gt.mpr h, Nat.compare_eq_gt.mpr (add_pow_mul_lt hvy h)]
      rfl

/-- **As long as each other.** -/
theorem compareTop_eq (hb : 1 < b) {xs ys : List ℕ} (hx : ∀ x ∈ xs, x < b) (hy : ∀ y ∈ ys, y < b)
    (hlen : xs.length = ys.length) :
    compareTop xs ys xs.length = compare (Nat.ofDigits b xs) (Nat.ofDigits b ys) := by
  rw [compareTop_take hb hx hy le_rfl hlen.le, List.take_length, hlen, List.take_length]

/-- A number with more limbs is larger. -/
theorem Canonical.lt_of_length (hb : 1 < b) {xs ys : List ℕ} (hx : Canonical b xs) (hy : Canonical b ys)
    (h : xs.length < ys.length) : Nat.ofDigits b xs < Nat.ofDigits b ys := by
  have hlt := Nat.ofDigits_lt_base_pow_length hb hx.lt
  have htop : ys.getLast hy.ne_nil ≠ 0 := hy.top.resolve_right fun h' => by
    have := List.length_pos_iff.mpr hx.ne_nil
    omega
  obtain ⟨k, rfl⟩ : ∃ k, b = k + 2 := ⟨b - 2, by omega⟩
  have hle := Nat.pow_length_le_mul_ofDigits hy.ne_nil htop (b := k)
  have hpow : (k + 2) * (k + 2) ^ xs.length ≤ (k + 2) ^ ys.length := by
    rw [← Nat.pow_succ']
    exact Nat.pow_le_pow_right (by omega) h
  exact lt_of_lt_of_le hlt (Nat.le_of_mul_le_mul_left (hpow.trans hle) (by omega))

theorem Canonical.length_eq (hb : 1 < b) {xs ys : List ℕ} (hx : Canonical b xs) (hy : Canonical b ys)
    (h : Nat.ofDigits b xs = Nat.ofDigits b ys) : xs.length = ys.length := by
  rcases Nat.lt_trichotomy xs.length ys.length with hlt | heq | hlt
  · exact absurd h (hx.lt_of_length hb hy hlt).ne
  · exact heq
  · exact absurd h.symm (hy.lt_of_length hb hx hlt).ne

end Limbs
