/-
`b64_encode` writes the shortest numeral of a value over its alphabet, and
`b64_decode` reads any numeral that fits: a string that is accepted is the
encoding of its value but for the letters `A` in front.
-/
import AlpinoCorpus.Base64
import AlpinoCorpus.Lib.Numeral

namespace AlpinoCorpus

open Numeral

/-- The digits other than zero, which is `A`. -/
def b64Digits : Str := b64Chars.tail

theorem length_b64Digits : b64Digits.length = 63 := by decide

theorem b64Chars_eq : b64Chars = 65 :: b64Digits := by decide

theorem nodup_b64Chars : (65 :: b64Digits).Nodup := by decide +kernel

/-- What the table `b64_index` has for a character is its place in the
alphabet. -/
theorem b64Index_place (c : UInt8) : b64Index c = b64XX ∨ (b64Chars[(b64Index c).toNat]? = some c) := by
  have hall : ∀ i : Fin 256, b64Index (UInt8.ofNat i) = b64XX ∨
      b64Chars[(b64Index (UInt8.ofNat i)).toNat]? = some (UInt8.ofNat i) := by
    decide +kernel
  simpa using hall ⟨c.toNat, c.toNat_lt⟩

/-- The table `b64_index` is the inverse of the alphabet. -/
theorem b64Index_eq (c : UInt8) : (b64Index c ≠ b64XX ↔ c ∈ 65 :: b64Digits) ∧
    (c ∈ 65 :: b64Digits → (b64Index c).toNat = digit 65 b64Digits c) := by
  have hplace : ∀ i (hi : i < (65 :: b64Digits).length), b64Index ((65 :: b64Digits)[i]) = UInt8.ofNat i := by
    intro i hi
    rw [List.length_cons, length_b64Digits] at hi
    have h := b64Index_chars ⟨i, hi⟩
    rw [b64Chars_eq] at h
    rwa [List.getD_eq_getElem] at h
  refine ⟨⟨fun h => ?_, fun h => ?_⟩, fun h => ?_⟩
  · rw [← b64Chars_eq]
    exact List.mem_of_getElem? ((b64Index_place c).resolve_left h)
  · obtain ⟨i, hi, rfl⟩ := List.mem_iff_getElem.mp h
    rw [hplace i hi]
    rw [List.length_cons, length_b64Digits] at hi
    intro heq
    have := congrArg UInt8.toNat heq
    simp only [UInt8.toNat_ofNat', b64XX, UInt8.reduceToNat] at this
    omega
  · obtain ⟨i, hi, rfl⟩ := List.mem_iff_getElem.mp h
    rw [hplace i hi, digit, nodup_b64Chars.idxOf_getElem i hi]
    rw [List.length_cons, length_b64Digits] at hi
    simp only [UInt8.toNat_ofNat']
    omega

/-- A digit comes back from its place in the word when it fits there. -/
theorem shift_back_iff (tmp : UInt64) {k : Nat} (hk : k < 64) :
    (tmp <<< UInt64.ofNat k) >>> UInt64.ofNat k = tmp ↔ tmp.toNat * 2 ^ k < 2 ^ 64 := by
  have hsplit : 2 ^ 64 = 2 ^ (64 - k) * 2 ^ k := by rw [← Nat.pow_add]; congr 1; omega
  have hback : ((tmp <<< UInt64.ofNat k) >>> UInt64.ofNat k).toNat = tmp.toNat % 2 ^ (64 - k) := by
    rw [UInt64.toNat_shiftRight, UInt64.toNat_shiftLeft, toNat_shift hk, Nat.shiftLeft_eq, Nat.shiftRight_eq_div_pow, hsplit,
      Nat.mul_mod_mul_right, Nat.mul_div_cancel _ (Nat.two_pow_pos k)]
  rw [← UInt64.toNat_inj, hback, hsplit, Nat.mul_lt_mul_right (Nat.two_pow_pos k)]
  exact ⟨fun h => h ▸ Nat.mod_lt _ (Nat.two_pow_pos _), Nat.mod_eq_of_lt⟩

/-- One round of the decoder, on a digit that fits. -/
theorem b64DecodeLoop_fits (val cs : Str) {c : UInt8} {result : UInt64} {i : Nat} (hi : i < 11)
    (hr : result.toNat < 2 ^ (i * 6)) (hc : c ∈ 65 :: b64Digits) (hfit : digit 65 b64Digits c * 2 ^ (i * 6) < 2 ^ 64) :
    ∃ result' : UInt64, result'.toNat = result.toNat + 2 ^ (i * 6) * digit 65 b64Digits c ∧
      result'.toNat < 2 ^ ((i + 1) * 6) ∧
      b64DecodeLoop val (c :: cs) result (i * 6) = b64DecodeLoop val cs result' ((i + 1) * 6) := by
  obtain ⟨hmem, hdigit⟩ := b64Index_eq c
  have hlt := digit_lt hc
  rw [length_b64Digits] at hlt
  have hshift : ((b64Index c).toUInt64 <<< UInt64.ofNat (i * 6)) >>> UInt64.ofNat (i * 6) = (b64Index c).toUInt64 := by
    rw [shift_back_iff _ (by omega), UInt8.toNat_toUInt64, hdigit hc]
    exact hfit
  have hval : (result ||| ((b64Index c).toUInt64 <<< UInt64.ofNat (i * 6))).toNat =
      result.toNat + 2 ^ (i * 6) * digit 65 b64Digits c := by
    rw [UInt64.toNat_or, UInt64.toNat_shiftLeft, UInt8.toNat_toUInt64, hdigit hc, toNat_shift (by omega),
      Nat.shiftLeft_eq, Nat.mod_eq_of_lt hfit, Nat.or_comm, Nat.mul_comm, Nat.add_comm]
    exact (Nat.two_pow_add_eq_or_of_lt hr _).symm
  refine ⟨_, hval, ?_, ?_⟩
  · rw [hval, show (i + 1) * 6 = i * 6 + 6 by ring, Nat.pow_add]
    calc result.toNat + 2 ^ (i * 6) * digit 65 b64Digits c
        < 2 ^ (i * 6) + 2 ^ (i * 6) * digit 65 b64Digits c := Nat.add_lt_add_right hr _
      _ = 2 ^ (i * 6) * (digit 65 b64Digits c + 1) := by ring
      _ ≤ 2 ^ (i * 6) * 2 ^ 6 := Nat.mul_le_mul_left _ (by omega)
  · rw [b64DecodeLoop, if_neg (hmem.mpr hc), if_neg (by omega)]
    simp only [hshift, ne_eq, not_true_eq_false, if_false]
    rw [show i * 6 + 6 = (i + 1) * 6 by ring]

/-- One round of the decoder, on any other character. -/
theorem b64DecodeLoop_refused (val cs : Str) {c : UInt8} (result : UInt64) {i : Nat} (hi : i < 11)
    (h : ¬(c ∈ 65 :: b64Digits ∧ digit 65 b64Digits c * 2 ^ (i * 6) < 2 ^ 64)) :
    ∃ e, b64DecodeLoop val (c :: cs) result (i * 6) = raise e := by
  obtain ⟨hmem, hdigit⟩ := b64Index_eq c
  rw [b64DecodeLoop]
  by_cases hxx : b64Index c = b64XX
  · rw [if_pos hxx]
    exact ⟨_, rfl⟩
  · rw [if_neg hxx, if_neg (by omega)]
    simp only
    rw [if_pos]
    · exact ⟨_, rfl⟩
    · have hc := hmem.mp hxx
      rw [ne_eq, shift_back_iff _ (by omega), UInt8.toNat_toUInt64, hdigit hc]
      exact fun hfit => h ⟨hc, hfit⟩

/-- One round of the decoder that does not throw. -/
theorem b64DecodeLoop_cons {val cs : Str} {c : UInt8} {result r : UInt64} {i : Nat} (hi : i < 11)
    (hr : result.toNat < 2 ^ (i * 6)) (h : b64DecodeLoop val (c :: cs) result (i * 6) = .ok r) :
    c ∈ 65 :: b64Digits ∧ ∃ result' : UInt64,
      result'.toNat = result.toNat + 2 ^ (i * 6) * digit 65 b64Digits c ∧ result'.toNat < 2 ^ ((i + 1) * 6) ∧
      b64DecodeLoop val cs result' ((i + 1) * 6) = .ok r := by
  by_cases hfit : c ∈ 65 :: b64Digits ∧ digit 65 b64Digits c * 2 ^ (i * 6) < 2 ^ 64
  · obtain ⟨result', hv, hlt, hstep⟩ := b64DecodeLoop_fits val cs hi hr hfit.1 hfit.2
    exact ⟨hfit.1, result', hv, hlt, hstep ▸ h⟩
  · obtain ⟨e, he⟩ := b64DecodeLoop_refused val cs result hi hfit
    rw [he] at h
    cases h

/-- What the decoder accepts is a numeral, and it returns its value. -/
theorem b64DecodeLoop_value {val : Str} {r : UInt64} : ∀ (cs : Str) (i : Nat) (result : UInt64),
    i + cs.length ≤ 11 → result.toNat < 2 ^ (i * 6) → b64DecodeLoop val cs result (i * 6) = .ok r →
    (∀ c ∈ cs, c ∈ 65 :: b64Digits) ∧ r.toNat = result.toNat + 2 ^ (i * 6) * value 65 b64Digits cs.reverse
  | [], i, result, _, _, h => by
    cases h
    exact ⟨by simp, by simp [value]⟩
  | c :: cs, i, result, hi, hr, h => by
    rw [List.length_cons] at hi
    obtain ⟨hc, result', hv, hlt, h'⟩ := b64DecodeLoop_cons (by omega) hr h
    obtain ⟨hcs, hval⟩ := b64DecodeLoop_value cs (i + 1) result' (by omega) hlt h'
    refine ⟨List.forall_mem_cons.mpr ⟨hc, hcs⟩, ?_⟩
    rw [hval, hv, List.reverse_cons, value_append, List.length_singleton, length_b64Digits,
      show value 65 b64Digits [c] = digit 65 b64Digits c by simp [value],
      show (i + 1) * 6 = i * 6 + 6 by ring, Nat.pow_add]
    ring

theorem b64Decode_value {s : Str} {v : UInt64} (hs : s.length ≤ 11) (h : b64Decode s = .ok v) :
    (∀ c ∈ s, c ∈ 65 :: b64Digits) ∧ value 65 b64Digits s = v.toNat := by
  obtain ⟨hc, hv⟩ := b64DecodeLoop_value s.reverse 0 0 (by simpa using hs) (by decide) (by simpa [b64Decode] using h)
  exact ⟨fun c hm => hc c (List.mem_reverse.mpr hm), by simpa using hv.symm⟩

theorem length_b64Encode (v : UInt64) : (b64Encode v).length = b64Chunks v := by simp [b64Encode]

theorem b64Encode_numeral (v : UInt64) :
    IsNumeral 65 b64Digits (b64Encode v) ∧ value 65 b64Digits (b64Encode v) = v.toNat := by
  obtain ⟨-, -, hpos⟩ := b64Chunks_spec v
  have hlen := length_b64Encode v
  obtain ⟨hc, hv⟩ := b64Decode_value (by rw [hlen]; exact b64Chunks_le v) (b64Decode_encode v)
  exact ⟨⟨List.ne_nil_of_length_pos (by omega), hc⟩, hv⟩

/-- The first digit is not zero, unless it is the only one. -/
theorem b64Encode_reduced (v : UInt64) : Reduced 65 (b64Encode v) := by
  intro t ht
  obtain ⟨hn, hv⟩ := b64Encode_numeral v
  obtain ⟨-, h, -⟩ := b64Chunks_spec v
  have hlen := length_b64Encode v
  rw [ht] at hn hv hlen
  rw [List.length_cons] at hlen
  rcases h with h | h
  · exact List.length_eq_zero_iff.mp (by omega)
  · have hlt := value_lt (s := t) (fun c hc => hn.digits c (by simp [hc]))
    rw [← value_zero_cons, hv, length_b64Digits, show t.length = b64Chunks v - 1 by omega] at hlt
    exact absurd h (Nat.not_le.mpr hlt)

/-- **Base 64 round trip**, both ways: of a value through its shortest
numeral, and of an accepted numeral but for its leading zeros. -/
theorem b64_round_trip :
    (∀ v : UInt64, b64Decode (b64Encode v) = .ok v ∧ IsNumeral 65 b64Digits (b64Encode v) ∧
      value 65 b64Digits (b64Encode v) = v.toNat ∧
      (∀ s, IsNumeral 65 b64Digits s → value 65 b64Digits s = v.toNat → (b64Encode v).length ≤ s.length) ∧
      (v ≠ 0 → (b64Encode v).head? ≠ some 65)) ∧
    ∀ (s : Str) (v : UInt64), s.length ≤ 11 → b64Decode s = .ok v → b64Encode v = reduce 65 s := by
  constructor
  · intro v
    obtain ⟨hn, hv⟩ := b64Encode_numeral v
    refine ⟨b64Decode_encode v, hn, hv, fun s hs hsv => ?_, fun h0 hhead => ?_⟩
    · exact shortest (b64Encode_reduced v) hs (hv.trans hsv.symm)
    · obtain ⟨t, ht⟩ := List.head?_eq_some_iff.mp hhead
      have hnil := b64Encode_reduced v t ht
      rw [ht, hnil, value_zero_cons] at hv
      exact h0 (UInt64.toNat_inj.mp hv.symm)
  · intro s v hs h
    obtain ⟨hc, hsv⟩ := b64Decode_value hs h
    obtain ⟨hn, hv⟩ := b64Encode_numeral v
    exact eq_of_value hn (b64Encode_reduced v) (isNumeral_reduce hc) (reduced_reduce s)
      (by rw [value_reduce, hv, hsv])

theorem b64_round_trip_leading_zeros : b64Encode 64 = reduce 65 (str "AAABA") :=
  b64_round_trip.2 (str "AAABA") 64 (by decide) (by decide)

/-! ## Exact or refused -/

/-- Up to eleven characters the decoder returns or throws; it throws on what
is no numeral of a word only. -/
theorem b64DecodeLoop_ends (val : Str) : ∀ (cs : Str) (i : Nat) (result : UInt64), i + cs.length ≤ 11 →
    result.toNat < 2 ^ (i * 6) → (∃ r, b64DecodeLoop val cs result (i * 6) = .ok r) ∨
      ((∃ e, b64DecodeLoop val cs result (i * 6) = raise e) ∧
        ¬((∀ c ∈ cs, c ∈ 65 :: b64Digits) ∧ 2 ^ (i * 6) * value 65 b64Digits cs.reverse < 2 ^ 64))
  | [], _, result, _, _ => .inl ⟨result, rfl⟩
  | c :: cs, i, result, hi, hr => by
    rw [List.length_cons] at hi
    have hvalue : 2 ^ (i * 6) * value 65 b64Digits (c :: cs).reverse =
        2 ^ ((i + 1) * 6) * value 65 b64Digits cs.reverse + digit 65 b64Digits c * 2 ^ (i * 6) := by
      rw [List.reverse_cons, value_append, List.length_singleton, length_b64Digits,
        show value 65 b64Digits [c] = digit 65 b64Digits c by simp [value], show (i + 1) * 6 = i * 6 + 6 by ring, Nat.pow_add]
      ring
    rw [hvalue]
    by_cases hfit : c ∈ 65 :: b64Digits ∧ digit 65 b64Digits c * 2 ^ (i * 6) < 2 ^ 64
    · obtain ⟨result', -, hlt, hstep⟩ := b64DecodeLoop_fits val cs (by omega) hr hfit.1 hfit.2
      rw [hstep]
      refine (b64DecodeLoop_ends val cs (i + 1) result' (by omega) hlt).imp_right fun h => ⟨h.1, fun hall => h.2 ?_⟩
      exact ⟨(List.forall_mem_cons.mp hall.1).2, (Nat.le_add_right _ _).trans_lt hall.2⟩
    · refine .inr ⟨b64DecodeLoop_refused val cs result (by omega) hfit, fun hall => hfit ?_⟩
      exact ⟨(List.forall_mem_cons.mp hall.1).1, (Nat.le_add_left _ _).trans_lt hall.2⟩

theorem b64Decode_short {s : Str} (hs : s.length ≤ 11) : (∃ v, b64Decode s = .ok v) ∨
    ((∃ e, b64Decode s = raise e) ∧ ¬((∀ c ∈ s, c ∈ 65 :: b64Digits) ∧ value 65 b64Digits s < 2 ^ 64)) := by
  have h := b64DecodeLoop_ends s s.reverse 0 0 (by simpa using hs) (by decide)
  simpa [b64Decode] using h

/-- The decoder on a text from its right end on. -/
theorem b64DecodeLoop_append (val : Str) : ∀ (xs ys : Str) (result : UInt64) (offset : Nat),
    b64DecodeLoop val (xs ++ ys) result offset =
      b64DecodeLoop val xs result offset >>= fun r => b64DecodeLoop val ys r (offset + 6 * xs.length)
  | [], ys, result, offset => rfl
  | c :: xs, ys, result, offset => by
    rw [List.cons_append, b64DecodeLoop, b64DecodeLoop]
    split
    · rfl
    · split
      · rfl
      · simp only
        split
        · rfl
        · rw [b64DecodeLoop_append val xs ys, List.length_cons, show offset + 6 + 6 * xs.length = offset + 6 * (xs.length + 1) by ring]

/-- The error messages apart, the decoder does not look at the whole text. -/
theorem b64DecodeLoop_val (val val' : Str) : ∀ (cs : Str) (result : UInt64) (offset : Nat),
    (∀ r, b64DecodeLoop val cs result offset = .ok r ↔ b64DecodeLoop val' cs result offset = .ok r) ∧
      ((∃ e, b64DecodeLoop val cs result offset = raise e) ↔ ∃ e, b64DecodeLoop val' cs result offset = raise e)
  | [], _, _ => ⟨fun _ => Iff.rfl, Iff.rfl⟩
  | c :: cs, result, offset => by
    rw [b64DecodeLoop, b64DecodeLoop]
    split
    · exact ⟨fun _ => Iff.rfl, Iff.rfl⟩
    · split
      · exact ⟨fun _ => Iff.rfl, Iff.rfl⟩
      · simp only
        split
        · exact ⟨fun _ => ⟨fun h => (by cases h), fun h => (by cases h)⟩, fun _ => ⟨_, rfl⟩, fun _ => ⟨_, rfl⟩⟩
        · exact b64DecodeLoop_val val val' cs _ _

/-- The decoder comes to a twelfth digit, for which the shift is 66. -/
def Overlong (s : Str) : Prop :=
  ∃ c t, c :: t <:+ s ∧ t.length = 11 ∧ (∀ d ∈ c :: t, d ∈ 65 :: b64Digits) ∧ value 65 b64Digits t < 2 ^ 64

/-- Past eleven characters: an error in the last eleven, or in the one before
them, or a shift that is undefined. -/
theorem b64Decode_long (s : Str) (c : UInt8) {t : Str} (ht : t.length = 11) :
    ((∀ d ∈ c :: t, d ∈ 65 :: b64Digits) ∧ value 65 b64Digits t < 2 ^ 64 ∧ b64Decode (s ++ c :: t) = .error .undefined) ∨
      (¬((∀ d ∈ c :: t, d ∈ 65 :: b64Digits) ∧ value 65 b64Digits t < 2 ^ 64) ∧ ∃ e, b64Decode (s ++ c :: t) = raise e) := by
  have hloop : b64Decode (s ++ c :: t) = b64DecodeLoop (s ++ c :: t) t.reverse 0 0 >>= fun r =>
      b64DecodeLoop (s ++ c :: t) (c :: s.reverse) r 66 := by
    rw [b64Decode, show (s ++ c :: t).reverse = t.reverse ++ c :: s.reverse by simp, b64DecodeLoop_append, List.length_reverse, ht]
  obtain ⟨hok, hraise⟩ := b64DecodeLoop_val t (s ++ c :: t) t.reverse 0 0
  rw [hloop]
  rcases b64Decode_short ht.le with ⟨v, hv⟩ | ⟨he, hnot⟩
  · obtain ⟨hdigits, hvalue⟩ := b64Decode_value ht.le hv
    rw [(hok v).mp hv]
    simp only [bind, Except.bind, b64DecodeLoop]
    by_cases hc : c ∈ 65 :: b64Digits
    · rw [if_neg ((b64Index_eq c).1.mpr hc), if_pos (by decide)]
      exact .inl ⟨List.forall_mem_cons.mpr ⟨hc, hdigits⟩, hvalue ▸ v.toNat_lt, rfl⟩
    · rw [if_pos (by by_contra hne; exact hc ((b64Index_eq c).1.mp hne))]
      exact .inr ⟨fun h => hc (List.forall_mem_cons.mp h.1).1, _, rfl⟩
  · obtain ⟨e, he⟩ := hraise.mp he
    rw [he]
    exact .inr ⟨fun h => hnot ⟨(List.forall_mem_cons.mp h.1).2, h.2⟩, e, rfl⟩

/-- `s` is a numeral of `v`, the empty one of zero included. -/
def IsNumber (s : Str) (v : UInt64) : Prop := (∀ c ∈ s, c ∈ b64Chars) ∧ value 65 b64Digits s = v.toNat

theorem IsNumber.unique {s : Str} {v w : UInt64} (hv : IsNumber s v) (hw : IsNumber s w) : v = w :=
  UInt64.toNat_inj.mp (hv.2.symm.trans hw.2)

/-- What the decoder makes of any text. -/
theorem b64Decode_cases (s : Str) : (Overlong s ∧ b64Decode s = .error .undefined) ∨
    (¬Overlong s ∧ ∃ v, IsNumber s v ∧ b64Decode s = .ok v) ∨
    (¬Overlong s ∧ (∀ v, ¬IsNumber s v) ∧ ∃ e, b64Decode s = raise e) := by
  simp only [IsNumber, b64Chars_eq]
  rcases Nat.lt_or_ge 11 s.length with hlong | hshort
  · -- the twelfth character from the right, and what follows it
    obtain ⟨c, t, hdrop⟩ : ∃ c t, s.drop (s.length - 12) = c :: t :=
      List.exists_cons_of_length_pos (by rw [List.length_drop]; omega)
    have hs : s = s.take (s.length - 12) ++ c :: t := by rw [← hdrop, List.take_append_drop]
    have ht : t.length = 11 := by
      have := congrArg List.length hdrop
      rw [List.length_drop, List.length_cons] at this
      omega
    have hover : Overlong s ↔ (∀ d ∈ c :: t, d ∈ 65 :: b64Digits) ∧ value 65 b64Digits t < 2 ^ 64 := by
      constructor
      · intro h
        obtain ⟨c', t', hsuffix, ht', h⟩ := h
        have heq : c' :: t' = c :: t := by
          have hlen : (c' :: t').length = (c :: t).length := by rw [List.length_cons, List.length_cons, ht, ht']
          refine (List.suffix_of_suffix_length_le hsuffix ?_ hlen.le).eq_of_length hlen
          exact hdrop ▸ List.drop_suffix _ _
        obtain ⟨rfl, rfl⟩ := List.cons.inj heq
        exact h
      · intro h
        exact ⟨c, t, hdrop ▸ List.drop_suffix _ _, ht, h⟩
    have hdecode := b64Decode_long (s.take (s.length - 12)) c ht
    rw [← hs] at hdecode
    rcases hdecode with ⟨hd, hv, hundef⟩ | ⟨hnot, he⟩
    · exact .inl ⟨hover.mpr ⟨hd, hv⟩, hundef⟩
    · refine .inr (.inr ⟨fun h => hnot (hover.mp h), fun v h => hnot ⟨?_, ?_⟩, he⟩)
      · exact fun d hd => h.1 d (hs ▸ List.mem_append_right _ hd)
      · have hle : value 65 b64Digits t ≤ value 65 b64Digits s := by
          rw [hs, value_append, value]
          omega
        exact hle.trans_lt (h.2 ▸ v.toNat_lt)
  · have hnot : ¬Overlong s := by
      intro h
      obtain ⟨c, t, hsuffix, ht, -⟩ := h
      have := hsuffix.length_le
      rw [List.length_cons] at this
      omega
    rcases b64Decode_short hshort with ⟨v, hv⟩ | ⟨he, hno⟩
    · exact .inr (.inl ⟨hnot, v, b64Decode_value hshort hv, hv⟩)
    · exact .inr (.inr ⟨hnot, fun v h => hno ⟨h.1, h.2 ▸ v.toNat_lt⟩, he⟩)

/-- **Decoding is exact or refused**, unless it comes to a twelfth digit. -/
theorem b64Decode_exact_iff (s : Str) :
    ((∀ v, b64Decode s = .ok v ↔ (∀ c ∈ s, c ∈ b64Chars) ∧ value 65 b64Digits s = v.toNat) ∧
      ((∀ v, b64Decode s ≠ .ok v) → ∃ e, b64Decode s = raise e)) ↔ ¬Overlong s := by
  rcases b64Decode_cases s with ⟨hover, h⟩ | ⟨hnot, v, hnum, h⟩ | ⟨hnot, hno, e, h⟩
  · rw [h]
    refine iff_of_false (fun hexact => ?_) fun hnot => hnot hover
    obtain ⟨e, he⟩ := hexact.2 fun v hv => by cases hv
    cases he
  · rw [h]
    refine iff_of_true ⟨fun w => ?_, fun hne => absurd rfl (hne v)⟩ hnot
    rw [Except.ok.injEq]
    exact ⟨fun heq => heq ▸ hnum, hnum.unique⟩
  · rw [h]
    exact iff_of_true ⟨fun v => ⟨fun hv => (by cases hv), fun hv => absurd hv (hno v)⟩, fun _ => ⟨e, rfl⟩⟩ hnot

/-- Twelve zeros: the last shift is by 66. -/
theorem b64Decode_twelve_zeros : (∀ c ∈ str "AAAAAAAAAAAA", c ∈ b64Chars) ∧ value 65 b64Digits (str "AAAAAAAAAAAA") = 0 ∧
    b64Decode (str "AAAAAAAAAAAA") = .error .undefined := by
  decide +kernel

end AlpinoCorpus
