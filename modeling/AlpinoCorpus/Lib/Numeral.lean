/-
Numerals over an alphabet, most significant digit first. The first
character of the alphabet is the digit zero; the others follow in order.

A number has exactly one numeral without zeros in front, and it is the
shortest one: `eq_of_value`, `shortest`.
-/
import Mathlib

namespace Numeral

variable {α : Type} [DecidableEq α] (zero : α) (others : List α)

/-- The value of a character as a digit. -/
def digit (c : α) : Nat := (zero :: others).idxOf c

def value : List α → Nat
  | [] => 0
  | c :: s => digit zero others c * (others.length + 1) ^ s.length + value s

/-- A numeral: at least one digit. -/
structure IsNumeral (s : List α) : Prop where
  ne_nil : s ≠ []
  digits : ∀ c ∈ s, c ∈ zero :: others

/-- No zero in front of another digit. -/
def Reduced (s : List α) : Prop := ∀ t, s = zero :: t → t = []

/-- The zeros in front removed, a single zero if nothing is left. -/
def reduce (s : List α) : List α :=
  match s.dropWhile (· = zero) with
  | [] => [zero]
  | c :: t => c :: t

variable {zero others}

theorem digit_zero : digit zero others zero = 0 := by simp [digit]

theorem digit_lt {c : α} (h : c ∈ zero :: others) : digit zero others c < others.length + 1 := by
  have := List.idxOf_lt_length_of_mem h
  rwa [List.length_cons] at this

theorem digit_pos {c : α} (h : c ≠ zero) : 0 < digit zero others c := by
  have hne : (zero == c) = false := by simpa using fun he => h he.symm
  simp [digit, List.idxOf_cons, hne]

theorem digit_inj {c d : α} (hc : c ∈ zero :: others) (h : digit zero others c = digit zero others d) : c = d :=
  (List.idxOf_inj hc).mp h

theorem value_lt : ∀ {s : List α}, (∀ c ∈ s, c ∈ zero :: others) → value zero others s < (others.length + 1) ^ s.length
  | [], _ => by simp [value]
  | c :: s, h => by
    have hc := digit_lt (h c (by simp))
    have hs := value_lt (s := s) (fun d hd => h d (by simp [hd]))
    calc value zero others (c :: s)
        < digit zero others c * (others.length + 1) ^ s.length + (others.length + 1) ^ s.length := by
          simpa [value] using hs
      _ = (digit zero others c + 1) * (others.length + 1) ^ s.length := by rw [Nat.succ_mul]
      _ ≤ (others.length + 1) * (others.length + 1) ^ s.length := Nat.mul_le_mul_right _ hc
      _ = (others.length + 1) ^ (c :: s).length := by rw [List.length_cons, Nat.pow_succ, Nat.mul_comm]

/-- A digit in front that is not zero gives the value its length. -/
theorem le_value {c : α} {s : List α} (h : c ≠ zero) : (others.length + 1) ^ s.length ≤ value zero others (c :: s) := by
  have hpos : 1 * (others.length + 1) ^ s.length ≤ digit zero others c * (others.length + 1) ^ s.length :=
    Nat.mul_le_mul_right _ (digit_pos h)
  rw [value]; omega

theorem value_zero_cons (s : List α) : value zero others (zero :: s) = value zero others s := by
  rw [value, digit_zero, Nat.zero_mul, Nat.zero_add]

theorem value_append (s t : List α) :
    value zero others (s ++ t) = value zero others s * (others.length + 1) ^ t.length + value zero others t := by
  induction s with
  | nil => simp [value]
  | cons c s ih =>
    rw [List.cons_append, value, ih, value, List.length_append, Nat.pow_add]
    ring

theorem value_dropWhile (s : List α) : value zero others (s.dropWhile (· = zero)) = value zero others s := by
  induction s with
  | nil => rfl
  | cons c s ih =>
    by_cases h : c = zero
    · subst h
      rw [List.dropWhile_cons_of_pos (by simp), ih, value_zero_cons]
    · rw [List.dropWhile_cons_of_neg (by simpa using h)]

/-- Two numerals of one length and one value are the same. -/
theorem eq_of_length : ∀ {s t : List α}, (∀ c ∈ s, c ∈ zero :: others) → (∀ c ∈ t, c ∈ zero :: others) →
    s.length = t.length → value zero others s = value zero others t → s = t
  | [], [], _, _, _, _ => rfl
  | c :: s, d :: t, hs, ht, hl, hv => by
    have hl' : s.length = t.length := by simpa using hl
    have hs' := value_lt (s := s) (fun e he => hs e (by simp [he]))
    have ht' := value_lt (s := t) (fun e he => ht e (by simp [he]))
    rw [value, value, ← hl'] at hv
    rw [← hl'] at ht'
    have hpos : 0 < (others.length + 1) ^ s.length := Nat.pow_pos (Nat.succ_pos _)
    -- The value splits into the first digit and the rest.
    have hdiv := congrArg (· / (others.length + 1) ^ s.length) hv
    have hmod := congrArg (· % (others.length + 1) ^ s.length) hv
    simp only [Nat.mul_comm _ ((others.length + 1) ^ s.length), Nat.mul_add_div hpos, Nat.mul_add_mod,
      Nat.div_eq_of_lt hs', Nat.div_eq_of_lt ht', Nat.add_zero, Nat.mod_eq_of_lt hs', Nat.mod_eq_of_lt ht'] at hdiv hmod
    rw [digit_inj (hs c (by simp)) hdiv,
      eq_of_length (fun e he => hs e (by simp [he])) (fun e he => ht e (by simp [he])) hl' hmod]

/-- **The reduced numeral is the shortest** of its value. -/
theorem shortest {s t : List α} (hs : Reduced zero s) (ht : IsNumeral zero others t)
    (h : value zero others s = value zero others t) : s.length ≤ t.length := by
  by_contra hlt
  have hpos := List.length_pos_iff.mpr ht.ne_nil
  cases s with
  | nil => simp at hlt
  | cons c s =>
    rw [List.length_cons] at hlt
    have hc : c ≠ zero := by
      intro hc
      subst hc
      rw [hs s rfl, List.length_nil] at hlt
      omega
    have h₁ : (others.length + 1) ^ s.length ≤ value zero others (c :: s) := le_value hc
    have h₂ := value_lt ht.digits
    have h₃ : (others.length + 1) ^ t.length ≤ (others.length + 1) ^ s.length :=
      Nat.pow_le_pow_right (Nat.succ_pos _) (by omega)
    omega

/-- **A value has one reduced numeral.** -/
theorem eq_of_value {s t : List α} (hs : IsNumeral zero others s) (hs' : Reduced zero s)
    (ht : IsNumeral zero others t) (ht' : Reduced zero t) (h : value zero others s = value zero others t) : s = t :=
  eq_of_length hs.digits ht.digits
    (Nat.le_antisymm (shortest hs' ht h) (shortest ht' hs h.symm)) h

theorem reduced_reduce (s : List α) : Reduced zero (reduce zero s) := by
  intro t ht
  unfold reduce at ht
  split at ht
  · cases ht; rfl
  · next c u hd =>
    cases ht
    have hne : s.dropWhile (· = zero) ≠ [] := by rw [hd]; simp
    have := List.head_dropWhile_not _ hne
    simp [hd] at this

theorem value_reduce (s : List α) : value zero others (reduce zero s) = value zero others s := by
  rw [← value_dropWhile s, reduce]
  split
  · next h => rw [h, value_zero_cons]
  · next h => rw [h]

theorem isNumeral_reduce {s : List α} (h : ∀ c ∈ s, c ∈ zero :: others) : IsNumeral zero others (reduce zero s) := by
  unfold reduce
  split
  · exact ⟨by simp, by simp⟩
  · next c t hd =>
    refine ⟨by simp, fun d hdm => h d ?_⟩
    rw [← hd] at hdm
    exact (List.dropWhile_sublist _).subset hdm

end Numeral
