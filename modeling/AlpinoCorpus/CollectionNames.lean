/-
`util/url.cpp`: the percent encoding of a container's name, which DB XML
queries go by. The encoding can be read back, so two containers never have
one collection.
-/
import AlpinoCorpus.Basic

namespace AlpinoCorpus

/-- The array `hex`. -/
def hex : Str := str "0123456789abcdef"

def toHex (c : UInt8) : Str := [hex.getD ((c >>> 4) &&& 0xf).toNat 0] ++ [hex.getD (c &&& 0xf).toNat 0]

/-- The characters that `toPercentEncoding` copies. -/
def isPlain (c : UInt8) : Bool :=
  (c ≥ 0x61 && c ≤ 0x7a) || (c ≥ 0x41 && c ≤ 0x5a) || (c ≥ 0x30 && c ≤ 0x39) || c == 0x2d || c == 0x2e || c == 0x5f ||
    c == 0x7e

/-- The loop over the characters. -/
def toPercentEncoding : Str → Str
  | [] => []
  | c :: cs => (if isPlain c then [c] else str "%" ++ toHex c) ++ toPercentEncoding cs

/-- `collection`, as `setNameAndCollection` sets it for a container's name. -/
def collectionOf (name : Str) : Str := toPercentEncoding (str "/" ++ name)

/-! ## What an encoded text is, and what it says -/

/-- Letters, digits, and `-._~`. -/
def unreserved : Str := (List.range' 65 26 ++ List.range' 97 26 ++ List.range' 48 10).map UInt8.ofNat ++ [45, 46, 95, 126]

/-- Unreserved characters, and percent signs with two digits each. -/
inductive PercentEncoded : Str → Prop
  | nil : PercentEncoded []
  | char {c : UInt8} {cs : Str} (hc : c ∈ unreserved) (h : PercentEncoded cs) : PercentEncoded (c :: cs)
  | percent {x y : UInt8} {cs : Str} (hx : x ∈ hex) (hy : y ∈ hex) (h : PercentEncoded cs) :
    PercentEncoded (37 :: x :: y :: cs)

/-- Every percent sign with two digits is replaced by the byte of that code. -/
def percentDecode : Str → Str
  | 37 :: x :: y :: cs =>
    if x ∈ hex ∧ y ∈ hex then UInt8.ofNat (16 * hex.idxOf x + hex.idxOf y) :: percentDecode cs
    else 37 :: percentDecode (x :: y :: cs)
  | c :: cs => c :: percentDecode cs
  | [] => []

theorem isPlain_iff (c : UInt8) : isPlain c = true ↔ c ∈ unreserved := by
  have hall : ∀ i : Fin 256, isPlain (UInt8.ofNat i) = true ↔ UInt8.ofNat i ∈ unreserved := by decide +kernel
  simpa using hall ⟨c.toNat, c.toNat_lt⟩

theorem percent_reserved : (37 : UInt8) ∉ unreserved := by decide

theorem hex_digit {n : Nat} (hn : n < 16) : hex.getD n 0 ∈ hex ∧ hex.idxOf (hex.getD n 0) = n := by
  have hall : ∀ i : Fin 16, hex.getD i 0 ∈ hex ∧ hex.idxOf (hex.getD i 0) = i := by decide
  exact hall ⟨n, hn⟩

/-- The two digits of a byte, and the byte of the two digits. -/
theorem toHex_spec (c : UInt8) : ∃ x y, toHex c = [x, y] ∧ x ∈ hex ∧ y ∈ hex ∧ UInt8.ofNat (16 * hex.idxOf x + hex.idxOf y) = c := by
  have hc := c.toNat_lt
  have hhigh : ((c >>> 4) &&& 0xf).toNat = c.toNat / 16 := by
    rw [UInt8.toNat_and, UInt8.toNat_shiftRight]
    show (c.toNat >>> 4) &&& (2 ^ 4 - 1) = _
    rw [Nat.and_two_pow_sub_one_eq_mod, Nat.shiftRight_eq_div_pow]
    omega
  have hlow : (c &&& 0xf).toNat = c.toNat % 16 := by
    rw [UInt8.toNat_and]
    show c.toNat &&& (2 ^ 4 - 1) = _
    rw [Nat.and_two_pow_sub_one_eq_mod]
  obtain ⟨hx, hix⟩ := hex_digit (show c.toNat / 16 < 16 by omega)
  obtain ⟨hy, hiy⟩ := hex_digit (show c.toNat % 16 < 16 by omega)
  refine ⟨_, _, rfl, hhigh ▸ hx, hlow ▸ hy, ?_⟩
  rw [hhigh, hlow, hix, hiy, Nat.div_add_mod, UInt8.ofNat_toNat]

theorem percentDecode_char {c : UInt8} (hc : c ∈ unreserved) (cs : Str) :
    percentDecode (c :: cs) = c :: percentDecode cs := by
  rw [percentDecode]
  intro x y cs' h
  exact absurd (h ▸ hc) percent_reserved

theorem percentDecode_percent {x y : UInt8} (hx : x ∈ hex) (hy : y ∈ hex) (cs : Str) :
    percentDecode (37 :: x :: y :: cs) = UInt8.ofNat (16 * hex.idxOf x + hex.idxOf y) :: percentDecode cs := by
  rw [percentDecode, if_pos ⟨hx, hy⟩]

/-- **Encoded and read back.** -/
theorem toPercentEncoding_spec : ∀ s : Str, PercentEncoded (toPercentEncoding s) ∧ percentDecode (toPercentEncoding s) = s
  | [] => ⟨.nil, rfl⟩
  | c :: cs => by
    obtain ⟨hform, hback⟩ := toPercentEncoding_spec cs
    unfold toPercentEncoding
    split
    · next hplain =>
      have hc := (isPlain_iff c).mp hplain
      refine ⟨.char hc hform, ?_⟩
      rw [List.singleton_append, percentDecode_char hc, hback]
    · obtain ⟨x, y, hxy, hx, hy, hc⟩ := toHex_spec c
      rw [hxy]
      refine ⟨.percent hx hy hform, ?_⟩
      show percentDecode (37 :: x :: y :: toPercentEncoding cs) = _
      rw [percentDecode_percent hx hy, hc, hback]

theorem toPercentEncoding_injective : Function.Injective toPercentEncoding :=
  Function.LeftInverse.injective fun s => (toPercentEncoding_spec s).2

/-- **No two names are encoded alike**, and so no two containers have one
collection. -/
theorem collectionOf_unique :
    (∀ s : Str, PercentEncoded (toPercentEncoding s) ∧ percentDecode (toPercentEncoding s) = s) ∧
      Function.Injective collectionOf := by
  refine ⟨toPercentEncoding_spec, fun n n' h => ?_⟩
  have huri : str "/" ++ n = str "/" ++ n' := toPercentEncoding_injective h
  exact List.append_cancel_left huri

example : toPercentEncoding (str "/50%25.dact") = str "%2f50%2525.dact" := by decide

end AlpinoCorpus
