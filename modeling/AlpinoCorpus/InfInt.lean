/-
`InfInt`, as far as `NameCompare` uses it: a number of any length, in limbs
of nine decimal digits. `NameCompare.lean` compares runs of digits by their
values; `compare_infInt` says that the comparison by limbs does the same.
-/
import AlpinoCorpus.NameCompare
import AlpinoCorpus.Lib.Limbs

namespace AlpinoCorpus

open Limbs

/-- `atoi` of a string short enough for an `int`. -/
def atoi (s : Str) : Int :=
  match s.dropWhile isSpace with
  | 45 :: s => -(infInt (s.takeWhile isDigit) : Int)
  | 43 :: s => infInt (s.takeWhile isDigit)
  | s => infInt (s.takeWhile isDigit)

/-- `val` is a vector of `int`s, the least significant first. -/
structure InfInt where
  pos : Bool
  val : List Int
  deriving DecidableEq

namespace InfInt

/-- `BASE` and `DIGIT_COUNT`. -/
def base : Nat := 1000000000
def digitCount : Nat := 9

/-- The loop of `removeLeadingZeros`, from the last place down to place 1. -/
def removeLeadingZerosLoop : Nat → List Int → List Int
  | 0, val => val
  | i + 1, val => if val.getD (i + 1) 0 ≠ 0 then val else removeLeadingZerosLoop i (val.eraseIdx (i + 1))

def removeLeadingZeros (n : InfInt) : InfInt :=
  { n with val := removeLeadingZerosLoop (n.val.length - 1) n.val }

/-- The loop of `fromString`: whole limbs, from the end of the string. -/
def fromStringLoop (s : Str) : Nat → Int → List Int → Outcome (Int × List Int)
  | 0, _, _ => .error .unfinished
  | fuel + 1, i, val =>
    if i ≥ 0 then fromStringLoop s fuel (i - digitCount) (val ++ [atoi ((s.drop i.toNat).take digitCount)])
    else .ok (i, val)

/-- What is left at the front of the string is a limb, or a sign. -/
def front (s : Str) (i : Int) (val : List Int) : InfInt :=
  if i > -digitCount then
    let ss := s.take (i + digitCount).toNat
    if ss = str "-" then ⟨false, val⟩ else ⟨true, val ++ [atoi ss]⟩
  else ⟨true, val⟩

/-- `fromString`. There is no last limb to look at in an empty vector. -/
def fromString (s : Str) : Outcome InfInt := do
  let i := int32 s.length - digitCount
  if i < -2 ^ 31 then .error .undefined
  else
    let (i, val) ← fromStringLoop s (s.length + 1) i []
    let n := front s i val
    match n.val.getLast? with
    | none => .error .undefined
    | some back =>
      .ok (removeLeadingZeros (if back < 0 then ⟨false, n.val.dropLast ++ [-back]⟩ else n))

/-- `util::parseString<InfInt>`: `operator>>` takes a word. -/
def parseString (s : Str) : Outcome InfInt := do
  let word := (s.dropWhile isSpace).takeWhile fun c => !isSpace c
  let val ← fromString word
  if word = [] then raise .logicError else .ok val

/-- The loop of `operator!=`, from the last place down. -/
def neLoop (a b : List Int) : Nat → Bool
  | 0 => false
  | i + 1 => if a.getD i 0 ≠ b.getD i 0 then true else neLoop a b i

/-- `operator!=`. -/
def ne (a b : InfInt) : Bool :=
  if a.pos ≠ b.pos ∨ a.val.length ≠ b.val.length then true else neLoop a.val b.val a.val.length

/-- The loop of `operator<`. -/
def ltLoop (pos : Bool) (a b : List Int) : Nat → Bool
  | 0 => false
  | i + 1 =>
    if a.getD i 0 < b.getD i 0 then pos
    else if a.getD i 0 > b.getD i 0 then !pos
    else ltLoop pos a b i

/-- `operator<`. -/
def lt (a b : InfInt) : Bool :=
  if a.pos && !b.pos then false
  else if !a.pos && b.pos then true
  else if a.val.length > b.val.length then !a.pos
  else if a.val.length < b.val.length then a.pos
  else ltLoop a.pos a.val b.val a.val.length

/-- The limbs of a natural number. -/
structure Represents (v : InfInt) (n : Nat) : Prop where
  pos : v.pos = true
  limbs : ∃ ls : List Nat, v.val = ls.map Int.ofNat ∧ Canonical base ls ∧ Nat.ofDigits base ls = n

/-! ## The operators -/

theorem getD_map (ls : List Nat) (i : Nat) : (ls.map Int.ofNat).getD i 0 = ls.getD i 0 := by
  simp only [List.getD_eq_getElem?_getD, List.getElem?_map]
  cases ls[i]? <;> rfl

theorem neLoop_iff (xs ys : List Nat) (n : Nat) :
    neLoop (xs.map Int.ofNat) (ys.map Int.ofNat) n = true ↔ compareTop xs ys n ≠ .eq := by
  induction n with
  | zero => simp [neLoop, compareTop]
  | succ n ih =>
    rw [neLoop, compareTop, getD_map, getD_map]
    rcases Nat.lt_trichotomy (xs.getD n 0) (ys.getD n 0) with h | h | h
    · rw [Nat.compare_eq_lt.mpr h, if_pos (by omega)]
      simp
    · rw [h, Nat.compare_eq_eq.mpr rfl, if_neg (not_not.mpr rfl), Ordering.eq_then, ih]
    · rw [Nat.compare_eq_gt.mpr h, if_pos (by omega)]
      simp

theorem ltLoop_iff (xs ys : List Nat) (n : Nat) :
    ltLoop true (xs.map Int.ofNat) (ys.map Int.ofNat) n = true ↔ compareTop xs ys n = .lt := by
  induction n with
  | zero => simp [ltLoop, compareTop]
  | succ n ih =>
    rw [ltLoop, compareTop, getD_map, getD_map]
    rcases Nat.lt_trichotomy (xs.getD n 0) (ys.getD n 0) with h | h | h
    · rw [Nat.compare_eq_lt.mpr h, if_pos (by omega)]
      simp
    · rw [h, Nat.compare_eq_eq.mpr rfl, if_neg (lt_irrefl _), if_neg (lt_irrefl _), Ordering.eq_then, ih]
    · rw [Nat.compare_eq_gt.mpr h, if_neg (by omega), if_pos (by omega)]
      simp

theorem one_lt_base : 1 < base := by decide

theorem ne_iff {v w : InfInt} {m n : Nat} (hv : v.Represents m) (hw : w.Represents n) : v.ne w = true ↔ m ≠ n := by
  obtain ⟨hpv, xs, hxs, hcx, rfl⟩ := hv
  obtain ⟨hpw, ys, hys, hcy, rfl⟩ := hw
  simp only [ne, hpv, hpw, hxs, hys, List.length_map, ne_eq, not_true, false_or]
  by_cases hlen : xs.length = ys.length
  · rw [if_neg (not_not.mpr hlen), neLoop_iff, compareTop_eq one_lt_base hcx.lt hcy.lt hlen, ne_eq, Nat.compare_eq_eq]
  · rw [if_pos hlen]
    exact iff_of_true rfl fun h => hlen (hcx.length_eq one_lt_base hcy h)

theorem lt_iff {v w : InfInt} {m n : Nat} (hv : v.Represents m) (hw : w.Represents n) : v.lt w = true ↔ m < n := by
  obtain ⟨hpv, xs, hxs, hcx, rfl⟩ := hv
  obtain ⟨hpw, ys, hys, hcy, rfl⟩ := hw
  simp only [lt, hpv, hpw, hxs, hys, List.length_map, Bool.not_true, Bool.and_false, Bool.false_and, Bool.false_eq_true,
    if_false, gt_iff_lt]
  rcases Nat.lt_trichotomy xs.length ys.length with h | h | h
  · rw [if_neg (by omega), if_pos h]
    exact iff_of_true rfl (hcx.lt_of_length one_lt_base hcy h)
  · rw [if_neg (by omega), if_neg (by omega), ltLoop_iff, compareTop_eq one_lt_base hcx.lt hcy.lt h, Nat.compare_eq_lt]
  · rw [if_pos h]
    exact iff_of_false Bool.false_ne_true (hcy.lt_of_length one_lt_base hcx h).not_gt

/-! ## Numerals -/

theorem infInt_append (s t : Str) : infInt (s ++ t) = infInt s * 10 ^ t.length + infInt t := by
  induction t using List.reverseRecOn with
  | nil => simp [infInt]
  | append_singleton t c ih =>
    have hsnoc : ∀ u : Str, infInt (u ++ [c]) = 10 * infInt u + (c.toNat - 48) := fun u => by
      simp [infInt, List.foldl_append]
    rw [← List.append_assoc, hsnoc, hsnoc, ih, List.length_append, List.length_singleton, Nat.pow_succ]
    ring

theorem infInt_lt {s : Str} (h : ∀ c ∈ s, isDigit c = true) : infInt s < 10 ^ s.length := by
  induction s with
  | nil => simp [infInt]
  | cons c s ih =>
    obtain ⟨hc, hs⟩ := List.forall_mem_cons.mp h
    have hlt := ih hs
    have hd := (isDigit_iff c).mp hc
    have happ := infInt_append [c] s
    rw [List.singleton_append, show infInt [c] = c.toNat - 48 by simp [infInt]] at happ
    rw [happ, List.length_cons, Nat.pow_succ]
    nlinarith [Nat.mul_le_mul_right (10 ^ s.length) (show c.toNat - 48 ≤ 9 by omega)]

theorem isDigit_not_space {c : UInt8} (h : isDigit c = true) : isSpace c = false ∧ c ≠ 45 ∧ c ≠ 43 := by
  have hd := (isDigit_iff c).mp h
  have h13 : ¬c ≤ 13 := by rw [UInt8.le_iff_toNat_le]; simp; omega
  have hne : c ≠ 32 ∧ c ≠ 45 ∧ c ≠ 43 := by
    refine ⟨?_, ?_, ?_⟩ <;>
    · rintro rfl
      simp at hd
  exact ⟨by simp [isSpace, hne.1, h13], hne.2⟩

theorem atoi_digits {s : Str} (h : ∀ c ∈ s, isDigit c = true) : atoi s = infInt s := by
  have htake : s.takeWhile isDigit = s := List.takeWhile_eq_self_iff.mpr h
  cases s with
  | nil => rfl
  | cons c s =>
    obtain ⟨hspace, h45, h43⟩ := isDigit_not_space (h c (by simp))
    have hdrop : (c :: s).dropWhile isSpace = c :: s := List.dropWhile_cons_of_neg (by simp [hspace])
    simp only [atoi, hdrop]
    split
    · next heq => exact absurd (List.cons.inj heq).1 h45
    · next heq => exact absurd (List.cons.inj heq).1 h43
    · next heq => rw [htake]

/-! ## The limbs of a run of digits -/

/-- The limbs pushed so far are those of the end of the string. -/
structure Pushed (s : Str) (ls : List Nat) : Prop where
  le : digitCount * ls.length ≤ s.length
  lt : ∀ l ∈ ls, l < base
  value : Nat.ofDigits base ls = infInt (s.drop (s.length - digitCount * ls.length))

theorem base_eq : base = 10 ^ digitCount := by norm_num [base, digitCount]

theorem base_pow (n : Nat) : base ^ n = 10 ^ (digitCount * n) := by rw [Nat.pow_mul, base_eq]

theorem Pushed.push {s : Str} (hs : ∀ c ∈ s, isDigit c = true) {ls : List Nat} (h : Pushed s ls) {chunk : Str} {k : Nat}
    (hk : k ≤ s.length - digitCount * ls.length)
    (hchunk : chunk = (s.drop (s.length - digitCount * ls.length - k)).take k) (hk' : k ≤ digitCount) :
    (∀ c ∈ chunk, isDigit c = true) ∧ chunk.length = k ∧ infInt chunk < base ∧
      Nat.ofDigits base (ls ++ [infInt chunk]) = infInt (s.drop (s.length - digitCount * ls.length - k)) := by
  have hle := h.le
  have hdigits : ∀ c ∈ chunk, isDigit c = true := by
    intro c hc
    rw [hchunk] at hc
    exact hs c (List.mem_of_mem_drop (List.mem_of_mem_take hc))
  have hlen : chunk.length = k := by rw [hchunk, List.length_take, List.length_drop]; omega
  refine ⟨hdigits, hlen, ?_, ?_⟩
  · have hlt := infInt_lt hdigits
    rw [hlen] at hlt
    rw [base_eq]
    exact lt_of_lt_of_le hlt (Nat.pow_le_pow_right (by decide) hk')
  · have hsplit : s.drop (s.length - digitCount * ls.length - k) =
        chunk ++ s.drop (s.length - digitCount * ls.length) := by
      conv_lhs => rw [← List.take_append_drop k (s.drop _), ← hchunk, List.drop_drop]
      congr 2
      omega
    have hrest : (s.drop (s.length - digitCount * ls.length)).length = digitCount * ls.length := by
      rw [List.length_drop]; omega
    rw [hsplit, infInt_append, hrest, Nat.ofDigits_append, Nat.ofDigits_singleton, h.value, base_pow]
    ring

theorem fromStringLoop_pushed {s : Str} (hs : ∀ c ∈ s, isDigit c = true) : ∀ (fuel : Nat) {ls : List Nat}, Pushed s ls →
    s.length < digitCount * ls.length + fuel →
    ∃ ls', Pushed s ls' ∧ s.length < digitCount * ls'.length + digitCount ∧
      fromStringLoop s fuel (s.length - (digitCount * ls.length : Nat) - digitCount) (ls.map Int.ofNat) =
        .ok (s.length - (digitCount * ls'.length : Nat) - digitCount, ls'.map Int.ofNat)
  | 0, ls, h, hf => absurd h.le (by omega)
  | fuel + 1, ls, h, hf => by
    have hle := h.le
    rw [fromStringLoop]
    split
    · next hi =>
      have hk : digitCount ≤ s.length - digitCount * ls.length := by omega
      have hidx : ((s.length : Int) - (digitCount * ls.length : Nat) - digitCount).toNat =
          s.length - digitCount * ls.length - digitCount := by omega
      obtain ⟨hdigits, -, hlt, hval⟩ := h.push hs hk rfl le_rfl
      rw [hidx, atoi_digits hdigits]
      have hpos : 0 < digitCount := by decide
      have hlen : ∀ x, digitCount * (ls ++ [x]).length = digitCount * ls.length + digitCount := fun x => by
        rw [List.length_append, List.length_singleton]; ring
      have hnext : Pushed s (ls ++ [infInt ((s.drop (s.length - digitCount * ls.length - digitCount)).take digitCount)]) := by
        refine ⟨by rw [hlen]; omega, fun l hl => ?_, ?_⟩
        · rcases List.mem_append.mp hl with hl | hl
          · exact h.lt l hl
          · rw [List.mem_singleton.mp hl]; exact hlt
        · rw [hval, hlen, Nat.sub_sub]
      obtain ⟨ls', h', hend, hrun⟩ := fromStringLoop_pushed hs fuel hnext (by rw [hlen]; omega)
      refine ⟨ls', h', hend, ?_⟩
      rw [← hrun, hlen, List.map_append]
      congr 1
      omega
    · next hi => exact ⟨ls, h, by omega, rfl⟩

/-- The limb or the limbs at the front. -/
theorem front_pushed {s : Str} (hs : ∀ c ∈ s, isDigit c = true) (hne : s ≠ []) {ls : List Nat} (h : Pushed s ls)
    (hend : s.length < digitCount * ls.length + digitCount) :
    ∃ ls', ls' ≠ [] ∧ (∀ l ∈ ls', l < base) ∧ Nat.ofDigits base ls' = infInt s ∧
      front s (s.length - (digitCount * ls.length : Nat) - digitCount) (ls.map Int.ofNat) = ⟨true, ls'.map Int.ofNat⟩ := by
  have hle := h.le
  have hpos := List.length_pos_iff.mpr hne
  unfold front
  split
  · next hi =>
    have hidx : ((s.length : Int) - (digitCount * ls.length : Nat) - digitCount + digitCount).toNat =
        s.length - digitCount * ls.length := by omega
    obtain ⟨hdigits, hlen, hlt, hval⟩ := h.push hs (k := s.length - digitCount * ls.length) le_rfl rfl (by omega)
    rw [Nat.sub_self, List.drop_zero] at hdigits hlen hlt hval
    have hsign : s.take (s.length - digitCount * ls.length) ≠ str "-" := by
      intro heq
      have h45 := hdigits 45 (by rw [heq]; decide)
      exact absurd h45 (by decide)
    refine ⟨ls ++ [infInt (s.take (s.length - digitCount * ls.length))], by simp, fun l hl => ?_, hval, ?_⟩
    · rcases List.mem_append.mp hl with hl | hl
      · exact h.lt l hl
      · rw [List.mem_singleton.mp hl]; exact hlt
    · simp only [hidx, if_neg hsign, atoi_digits hdigits, List.map_append]
      rfl
  · next hi =>
    have hall : s.length - digitCount * ls.length = 0 := by omega
    refine ⟨ls, ?_, h.lt, by rw [h.value, hall, List.drop_zero], rfl⟩
    rintro rfl
    simp only [List.length_nil, Nat.mul_zero] at hall
    omega

theorem removeLeadingZerosLoop_canonical : ∀ (i : Nat) {ls : List Nat}, ls.length = i + 1 → (∀ l ∈ ls, l < base) →
    ∃ ls', removeLeadingZerosLoop i (ls.map Int.ofNat) = ls'.map Int.ofNat ∧ Canonical base ls' ∧
      Nat.ofDigits base ls' = Nat.ofDigits base ls
  | 0, ls, hlen, hlt => ⟨ls, rfl, ⟨hlt, by rintro rfl; simp at hlen, .inr hlen⟩, rfl⟩
  | i + 1, ls, hlen, hlt => by
    obtain rfl | ⟨init, x, rfl⟩ := ls.eq_nil_or_concat'
    · simp at hlen
    · have hinit : init.length = i + 1 := by simpa using hlen
      rw [removeLeadingZerosLoop, getD_map, ← hinit]
      have hget : (init ++ [x]).getD init.length 0 = x := by simp
      rw [hget]
      by_cases hx : x = 0
      · subst hx
        have herase : ((init ++ [0]).map Int.ofNat).eraseIdx init.length = init.map Int.ofNat := by
          rw [List.map_append, List.eraseIdx_append_of_length_le (by simp)]
          simp
        obtain ⟨ls', hloop, hcan, hval⟩ :=
          removeLeadingZerosLoop_canonical i hinit fun l hl => hlt l (List.mem_append_left _ hl)
        refine ⟨ls', ?_, hcan, ?_⟩
        · rw [if_neg (by simp), herase, hloop]
        · rw [hval, Nat.ofDigits_append, Nat.ofDigits_singleton, Nat.mul_zero, Nat.add_zero]
      · exact ⟨init ++ [x], by rw [if_pos (by simpa using hx)], ⟨hlt, by simp, .inl (by simpa using hx)⟩, rfl⟩

/-- **A run of digits becomes its number.** -/
theorem fromString_digits {s : Str} (hs : ∀ c ∈ s, isDigit c = true) (hne : s ≠ []) (hlen : s.length < 2 ^ 31) :
    ∃ v, fromString s = .ok v ∧ v.Represents (infInt s) := by
  have hcount : digitCount = 9 := rfl
  have hstart : Pushed s [] := ⟨Nat.zero_le _, by simp, by simp [infInt]⟩
  obtain ⟨ls, hpushed, hend, hloop⟩ := fromStringLoop_pushed hs (s.length + 1) hstart (by simp)
  obtain ⟨ls', hne', hlt, hval, hfront⟩ := front_pushed hs hne hpushed hend
  obtain ⟨ls'', hcanon, hc, hval'⟩ := removeLeadingZerosLoop_canonical (ls'.length - 1)
    (by have := List.length_pos_iff.mpr hne'; omega) hlt
  have hlast : (ls'.map Int.ofNat).getLast? = some (Int.ofNat (ls'.getLast hne')) := by
    rw [List.getLast?_map, List.getLast?_eq_some_getLast hne', Option.map_some]
  have hback : ¬Int.ofNat (ls'.getLast hne') < 0 := by simp
  refine ⟨⟨true, ls''.map Int.ofNat⟩, ?_, rfl, ls'', rfl, hc, hval'.trans hval⟩
  simp only [List.length_nil, Nat.mul_zero, Nat.cast_zero, sub_zero, List.map_nil] at hloop
  rw [fromString, int32_of_lt (by omega) (by exact_mod_cast hlen), if_neg (by omega), hloop]
  simp only [bind, Except.bind, hfront, hlast, if_neg hback, removeLeadingZeros, List.length_map, hcanon]

theorem parseString_digits {s : Str} (hs : ∀ c ∈ s, isDigit c = true) (hne : s ≠ []) (hlen : s.length < 2 ^ 31) :
    ∃ v, parseString s = .ok v ∧ v.Represents (infInt s) := by
  obtain ⟨v, hv, hrep⟩ := fromString_digits hs hne hlen
  have hspace : ∀ c ∈ s, isSpace c = false := fun c hc => (isDigit_not_space (hs c hc)).1
  have hdrop : s.dropWhile isSpace = s := by
    cases s with
    | nil => rfl
    | cons c s => rw [List.dropWhile_cons_of_neg (by simp [hspace c (by simp)])]
  have hword : (s.takeWhile fun c => !isSpace c) = s :=
    List.takeWhile_eq_self_iff.mpr fun c hc => by simp [hspace c hc]
  refine ⟨v, ?_, hrep⟩
  rw [parseString, hdrop, hword, hv]
  exact if_neg hne

end InfInt

/-! ## Names -/

/-- The loop of `operator()`, with the numbers as the source has them. -/
def compareLimbs : List Str → List Str → Outcome Bool
  | a :: i1, b :: i2 =>
    if startsWithDigit a && startsWithDigit b then do
      let d1 ← InfInt.parseString a
      let d2 ← InfInt.parseString b
      if d1.ne d2 then .ok (d1.lt d2) else compareLimbs i1 i2
    else if a ≠ b then .ok (a < b)
    else compareLimbs i1 i2
  | i1, i2 => .ok (i1.length < i2.length)

theorem digits_of_piece {p : Str} (hp : IsPiece p) (h : startsWithDigit p = true) :
    (∀ c ∈ p, isDigit c = true) ∧ p ≠ [] := by
  cases hp with
  | empty => cases h
  | char hc => rw [startsWithDigit, hc] at h; cases h
  | digits hall => exact ⟨hall, by simp⟩

/-- Piece by piece. -/
theorem compareLimbs_eq : ∀ {i1 i2 : List Str}, (∀ p ∈ i1, IsPiece p ∧ p.length < 2 ^ 31) →
    (∀ p ∈ i2, IsPiece p ∧ p.length < 2 ^ 31) → compareLimbs i1 i2 = .ok (compareIndex i1 i2)
  | [], _, _, _ => by rw [compareLimbs, compareIndex] <;> simp
  | _ :: _, [], _, _ => by rw [compareLimbs, compareIndex] <;> simp
  | a :: i1, b :: i2, h₁, h₂ => by
    obtain ⟨⟨ha, hla⟩, h₁⟩ := List.forall_mem_cons.mp h₁
    obtain ⟨⟨hb, hlb⟩, h₂⟩ := List.forall_mem_cons.mp h₂
    rw [compareLimbs, compareIndex]
    split
    · next hd =>
      obtain ⟨hda, hdb⟩ := Bool.and_eq_true_iff.mp hd
      obtain ⟨ha, hna⟩ := digits_of_piece ha hda
      obtain ⟨hb, hnb⟩ := digits_of_piece hb hdb
      obtain ⟨v, hv, hrv⟩ := InfInt.parseString_digits ha hna hla
      obtain ⟨w, hw, hrw⟩ := InfInt.parseString_digits hb hnb hlb
      have hlt : v.lt w = decide (infInt a < infInt b) := by
        rw [Bool.eq_iff_iff, InfInt.lt_iff hrv hrw, decide_eq_true_iff]
      rw [hv, hw]
      show (if v.ne w = true then _ else _) = _
      by_cases hne : infInt a = infInt b
      · rw [if_neg fun h => (InfInt.ne_iff hrv hrw).mp h hne, if_neg (not_not.mpr hne)]
        exact compareLimbs_eq h₁ h₂
      · rw [if_pos ((InfInt.ne_iff hrv hrw).mpr hne), if_pos hne, hlt]
    · split
      · rfl
      · exact compareLimbs_eq h₁ h₂

/-- No piece is longer than the name. -/
theorem length_nameIndexLoop : ∀ (cs buf : Str) (prevIsDigit : Bool), ∀ p ∈ nameIndexLoop prevIsDigit buf cs,
    p.length ≤ buf.length + cs.length
  | [], buf, prev, p, hp => by
    obtain rfl : p = buf := by simpa [nameIndexLoop] using hp
    simp
  | c :: cs, buf, prev, p, hp => by
    simp only [nameIndexLoop] at hp
    split at hp
    · have := length_nameIndexLoop cs (buf ++ [c]) _ p hp
      simp only [List.length_append, List.length_cons, List.length_nil] at this ⊢
      omega
    · rcases List.mem_cons.mp hp with rfl | hp
      · simp
      · have := length_nameIndexLoop cs [c] _ p hp
        simp only [List.length_cons, List.length_nil] at this ⊢
        omega

theorem length_nameIndex {s : Str} : ∀ p ∈ nameIndex s, p.length ≤ s.length := by
  cases s with
  | nil => simp [nameIndex]
  | cons c cs =>
    intro p hp
    simpa using length_nameIndexLoop (c :: cs) [] _ p hp

/-- **Comparing by limbs.** On names of any length that an `int` counts, no
number fails to parse, and the order is that of the values. -/
theorem compare_infInt {s1 s2 : Str} (h₁ : s1.length < 2 ^ 31) (h₂ : s2.length < 2 ^ 31) :
    compareLimbs (nameIndex s1) (nameIndex s2) = .ok (nameCompare s1 s2) :=
  compareLimbs_eq (fun p hp => ⟨isPiece_nameIndex s1 p hp, (length_nameIndex p hp).trans_lt h₁⟩)
    fun p hp => ⟨isPiece_nameIndex s2 p hp, (length_nameIndex p hp).trans_lt h₂⟩

/-- Twelve digits against eleven, with zeros in front. -/
theorem sample_compare_infInt :
    compareLimbs (nameIndex (str "a000123456789012")) (nameIndex (str "a99999999999")) = .ok false := by
  rw [compare_infInt (by decide +kernel) (by decide +kernel)]
  decide +kernel

end AlpinoCorpus
