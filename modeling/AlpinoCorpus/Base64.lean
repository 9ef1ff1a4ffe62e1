/-
`util/base64.hh` at `size_t`: the numbers of an index line.

The digits are written most significant first; `b64Decode` reads them from
the right, so both sides are proved through the digits of the value from
the least significant on: after `i` digits the decoder holds the value
modulo `2 ^ (6 * i)`.
-/
import AlpinoCorpus.Basic

namespace AlpinoCorpus

def b64Chars : Str := str "ABCDEFGHIJKLMNOPQRSTUVWXYZabcdefghijklmnopqrstuvwxyz0123456789+/"

/-- The marker `XX` of `b64_index`. -/
def b64XX : UInt8 := 100

/-- The 256 entries of the array `b64_index`. -/
def b64IndexRows : List UInt8 :=
  List.replicate 43 b64XX ++ [62] ++ List.replicate 3 b64XX ++ [63] ++
  [52, 53, 54, 55, 56, 57, 58, 59, 60, 61] ++ List.replicate 7 b64XX ++
  [0, 1, 2, 3, 4, 5, 6, 7, 8, 9, 10, 11, 12, 13, 14, 15, 16, 17, 18, 19, 20, 21, 22, 23, 24, 25] ++
  List.replicate 6 b64XX ++
  [26, 27, 28, 29, 30, 31, 32, 33, 34, 35, 36, 37, 38, 39, 40, 41, 42, 43, 44, 45, 46, 47, 48, 49, 50, 51] ++
  List.replicate 133 b64XX

/-- `b64_index[c]`. -/
def b64Index (c : UInt8) : UInt8 := b64IndexRows.getD c.toNat b64XX

/-- The number of 6-bit chunks (`while (val2 >>= 6) ++chunks`). -/
def b64Chunks (val : UInt64) : Nat :=
  if val >>> 6 = 0 then 1 else b64Chunks (val >>> 6) + 1
termination_by val.toNat
decreasing_by
  rename_i h
  have h0 : val.toNat / 64 ≠ 0 := fun he => h (by
    apply UInt64.toNat_inj.mp
    simpa [UInt64.toNat_shiftRight, Nat.shiftRight_eq_div_pow] using he)
  simp only [UInt64.toNat_shiftRight, UInt64.reduceToNat, Nat.reduceMod, Nat.shiftRight_eq_div_pow,
    Nat.reducePow]
  omega

/-- The character written for the `i`-th chunk from the right. -/
def b64Char (val : UInt64) (i : Nat) : UInt8 :=
  let shift := UInt64.ofNat (i * 6)
  let mask := (0x3f : UInt64) <<< shift
  b64Chars.getD ((val &&& mask) >>> shift).toNat 0

def b64Encode (val : UInt64) : Str :=
  ((List.range (b64Chunks val)).map (b64Char val)).reverse

/-- The loop of `b64_decode`, over the characters still to read from the
right. A shift by 64 or more is undefined. -/
def b64DecodeLoop (val : Str) : Str → UInt64 → Nat → Outcome UInt64
  | [], result, _ => .ok result
  | c :: cs, result, offset =>
    if b64Index c = b64XX then
      raise (.runtimeError (str "Illegal character in base64 value: " ++ [c]))
    else if 64 ≤ offset then .error .undefined
    else
      let tmp := (b64Index c).toUInt64
      let shift := UInt64.ofNat offset
      if (tmp <<< shift) >>> shift ≠ tmp then
        raise (.runtimeError (str "Type cannot store decoded base64 value:" ++ val))
      else b64DecodeLoop val cs (result ||| (tmp <<< shift)) (offset + 6)

def b64Decode (val : Str) : Outcome UInt64 := b64DecodeLoop val val.reverse 0 0

/-! ## Round trip -/

theorem b64Index_chars : ∀ i : Fin 64, b64Index (b64Chars.getD i 0) = UInt8.ofNat i := by
  decide +kernel

theorem toNat_shift {i : Nat} (h : i < 64) : (UInt64.ofNat i).toNat % 64 = i := by
  simp only [UInt64.toNat_ofNat']
  omega

theorem shiftRight_toNat (val : UInt64) : (val >>> 6).toNat = val.toNat / 64 := by
  simp [UInt64.toNat_shiftRight, Nat.shiftRight_eq_div_pow]

/-- The `i`-th character from the right stands for the `i`-th digit of the
value in base 64. -/
theorem b64Char_eq (val : UInt64) {i : Nat} (h : i < 11) :
    b64Char val i = b64Chars.getD (val.toNat / 2 ^ (i * 6) % 64) 0 := by
  unfold b64Char
  simp only [UInt64.toNat_shiftRight, UInt64.toNat_and, UInt64.toNat_shiftLeft,
    toNat_shift (show i * 6 < 64 by omega)]
  congr 1
  apply Nat.eq_of_testBit_eq
  intro j
  have h63 : (63 : UInt64).toNat = 2 ^ 6 - 1 := rfl
  rw [h63, show (64 : Nat) = 2 ^ 6 from rfl]
  simp only [Nat.testBit_shiftRight, Nat.testBit_and, Nat.testBit_mod_two_pow, Nat.testBit_shiftLeft,
    Nat.testBit_two_pow_sub_one, Nat.testBit_div_two_pow]
  by_cases hj : j < 6
  · by_cases h64 : i * 6 + j < 64
    · simp [hj, Nat.add_comm j, h64]
    · have hv : val.toNat.testBit (i * 6 + j) = false :=
        Nat.testBit_eq_false_of_lt (lt_of_lt_of_le val.toNat_lt (Nat.pow_le_pow_right (by decide) (by omega)))
      simp [hj, hv, Nat.add_comm j]
  · simp [hj]

/-- `b64Chunks` is the length of the shortest numeral of the value. -/
theorem b64Chunks_spec (val : UInt64) : val.toNat < 64 ^ b64Chunks val ∧
    (b64Chunks val = 1 ∨ 64 ^ (b64Chunks val - 1) ≤ val.toNat) ∧ 0 < b64Chunks val := by
  induction val using b64Chunks.induct with
  | case1 val h =>
    have hz : val.toNat / 64 = 0 := by rw [← shiftRight_toNat, h]; rfl
    rw [b64Chunks, if_pos h]
    exact ⟨by omega, .inl rfl, by omega⟩
  | case2 val h ih =>
    have hz : val.toNat / 64 ≠ 0 := fun he => h (UInt64.toNat_inj.mp (by rw [shiftRight_toNat, he]; rfl))
    rw [shiftRight_toNat] at ih
    obtain ⟨hlt, hge, hpos⟩ := ih
    rw [b64Chunks, if_neg h]
    obtain ⟨c, hc⟩ : ∃ c, b64Chunks (val >>> 6) = c + 1 := ⟨b64Chunks (val >>> 6) - 1, by omega⟩
    rw [hc] at hlt hge ⊢
    refine ⟨?_, .inr ?_, by omega⟩
    · rw [Nat.pow_succ]; omega
    · simp only [Nat.add_sub_cancel, Nat.pow_succ] at hge ⊢
      rcases hge with hge | hge
      · have : c = 0 := by omega
        subst this; omega
      · omega

theorem b64Chunks_le (val : UInt64) : b64Chunks val ≤ 11 := by
  obtain ⟨-, h | h, -⟩ := b64Chunks_spec val
  · omega
  · by_contra hc
    have h64 : (64 : Nat) ^ 11 ≤ 64 ^ (b64Chunks val - 1) := Nat.pow_le_pow_right (by decide) (by omega)
    have := val.toNat_lt
    omega

/-- One round of the decoder on the `i`-th digit of `v`: the value modulo
`64 ^ i` becomes the value modulo `64 ^ (i + 1)`. -/
theorem b64DecodeLoop_digit (val cs : Str) {v result : UInt64} {i : Nat} (hi : i < 11)
    (hr : result.toNat = v.toNat % 2 ^ (i * 6)) :
    ∃ result' : UInt64, result'.toNat = v.toNat % 2 ^ ((i + 1) * 6) ∧
      b64DecodeLoop val (b64Char v i :: cs) result (i * 6) = b64DecodeLoop val cs result' ((i + 1) * 6) := by
  set d := v.toNat / 2 ^ (i * 6) % 64 with hd
  have hd64 : d < 64 := Nat.mod_lt _ (by decide)
  have hidx : b64Index (b64Char v i) = UInt8.ofNat d := by
    rw [b64Char_eq v hi]; exact b64Index_chars ⟨d, hd64⟩
  have hdn : (UInt8.ofNat d).toNat = d := by simp only [UInt8.toNat_ofNat']; omega
  have htmp : (UInt8.ofNat d).toUInt64.toNat = d := by rw [UInt8.toNat_toUInt64, hdn]
  -- The shifted digit is a part of the value, so no bit is lost.
  have hmod : v.toNat % 2 ^ ((i + 1) * 6) = 2 ^ (i * 6) * d + v.toNat % 2 ^ (i * 6) := by
    rw [show (i + 1) * 6 = i * 6 + 6 by ring, Nat.pow_add, Nat.mod_mul, Nat.add_comm]
  have hfit : d * 2 ^ (i * 6) < 2 ^ 64 := by
    have h1 : v.toNat % 2 ^ ((i + 1) * 6) ≤ v.toNat := Nat.mod_le _ _
    have h2 := v.toNat_lt
    rw [Nat.mul_comm]; omega
  have hshl : ((UInt8.ofNat d).toUInt64 <<< UInt64.ofNat (i * 6)).toNat = d * 2 ^ (i * 6) := by
    rw [UInt64.toNat_shiftLeft, htmp, toNat_shift (by omega), Nat.shiftLeft_eq, Nat.mod_eq_of_lt hfit]
  have hshr : ((UInt8.ofNat d).toUInt64 <<< UInt64.ofNat (i * 6)) >>> UInt64.ofNat (i * 6) =
      (UInt8.ofNat d).toUInt64 := by
    apply UInt64.toNat_inj.mp
    rw [UInt64.toNat_shiftRight, hshl, htmp, toNat_shift (by omega), Nat.shiftRight_eq_div_pow,
      Nat.mul_div_cancel _ (Nat.two_pow_pos _)]
  refine ⟨result ||| ((UInt8.ofNat d).toUInt64 <<< UInt64.ofNat (i * 6)), ?_, ?_⟩
  · rw [UInt64.toNat_or, hshl, hr, hmod, Nat.mul_comm d, Nat.or_comm]
    exact (Nat.two_pow_add_eq_or_of_lt (Nat.mod_lt _ (Nat.two_pow_pos _)) d).symm
  · have hxx : UInt8.ofNat d ≠ b64XX := fun he => by
      have := congrArg UInt8.toNat he
      rw [hdn] at this
      simp [b64XX] at this
      omega
    rw [b64DecodeLoop, hidx, if_neg hxx, if_neg (by omega)]
    simp only [hshr, ne_eq, not_true_eq_false, if_false]
    rw [show i * 6 + 6 = (i + 1) * 6 by ring]

theorem b64DecodeLoop_chars (val : Str) {v : UInt64} : ∀ (n i : Nat) (result : UInt64), i + n ≤ 11 →
    result.toNat = v.toNat % 2 ^ (i * 6) →
    ∃ result' : UInt64, result'.toNat = v.toNat % 2 ^ ((i + n) * 6) ∧
      b64DecodeLoop val ((List.range' i n).map (b64Char v)) result (i * 6) = .ok result'
  | 0, i, result, _, hr => ⟨result, by simpa using hr, by simp [b64DecodeLoop]⟩
  | n + 1, i, result, hi, hr => by
    obtain ⟨result₁, hr₁, h₁⟩ := b64DecodeLoop_digit val
      ((List.range' (i + 1) n).map (b64Char v)) (show i < 11 by omega) hr
    obtain ⟨result', hr', h'⟩ := b64DecodeLoop_chars val n (i + 1) result₁ (by omega) hr₁
    refine ⟨result', ?_, ?_⟩
    · rw [hr', show i + 1 + n = i + (n + 1) by ring]
    · rw [List.range'_succ, List.map_cons, h₁, h']

/-- **The numbers of an index line are read back.** -/
theorem b64Decode_encode (v : UInt64) : b64Decode (b64Encode v) = .ok v := by
  obtain ⟨hlt, -, -⟩ := b64Chunks_spec v
  obtain ⟨r, hr, h⟩ := b64DecodeLoop_chars (b64Encode v) (v := v) (b64Chunks v) 0 0
    (by simpa using b64Chunks_le v) (by simp [Nat.mod_one])
  have hrv : r = v := by
    apply UInt64.toNat_inj.mp
    rw [hr, Nat.zero_add, Nat.mul_comm, Nat.pow_mul, Nat.mod_eq_of_lt hlt]
  unfold b64Decode
  conv in (b64Encode v).reverse => rw [b64Encode, List.reverse_reverse, List.range_eq_range']
  simpa [hrv] using h

/-- A numeral has no byte that ends a field of an index line. -/
theorem b64Encode_clean (v : UInt64) : ∀ c ∈ b64Encode v, c ≠ 9 ∧ c ≠ 10 := by
  have hall : ∀ i : Fin 64, b64Chars.getD i 0 ≠ 9 ∧ b64Chars.getD i 0 ≠ 10 := by decide +kernel
  intro c hc
  simp only [b64Encode, List.mem_reverse, List.mem_map, List.mem_range] at hc
  obtain ⟨i, hi, rfl⟩ := hc
  rw [b64Char_eq v (lt_of_lt_of_le hi (b64Chunks_le v))]
  exact hall ⟨_, Nat.mod_lt _ (by decide)⟩

end AlpinoCorpus
