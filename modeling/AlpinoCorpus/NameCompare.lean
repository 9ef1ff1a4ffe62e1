/-
`NameCompare`: names compared piece by piece, runs of digits as numbers.
It orders names by a key in a linear order (`nameCompare_iff`).
-/
import AlpinoCorpus.Basic
import AlpinoCorpus.Lib.OrdMap

namespace AlpinoCorpus

open OrdMap

/-- `std::isdigit`, for ASCII. -/
def isDigit (c : UInt8) : Bool := 48 ≤ c && c ≤ 57

/-- `std::isspace`, in the C locale. -/
def isSpace (c : UInt8) : Bool := c = 32 || (9 ≤ c && c ≤ 13)

/-- The loop of `nameIndex`: `buf` is the piece begun, `prevIsDigit` the
class of the character before. -/
def nameIndexLoop : Bool → Str → Str → List Str
  | _, buf, [] => [buf]
  | prevIsDigit, buf, c :: cs =>
    let curIsDigit := isDigit c
    if curIsDigit && prevIsDigit then nameIndexLoop curIsDigit (buf ++ [c]) cs
    else buf :: nameIndexLoop curIsDigit [c] cs

/-- A name that does not start with a digit has an empty first piece. -/
def nameIndex : Str → List Str
  | [] => []
  | c :: cs => nameIndexLoop (isDigit c) [] (c :: cs)

/-- `isdigit(piece[0])`; the empty string has a NUL there. -/
def startsWithDigit : Str → Bool
  | [] => false
  | c :: _ => isDigit c

/-- `parseString<InfInt>` of a run of digits. -/
def infInt (digits : Str) : Nat := digits.foldl (fun n c => 10 * n + (c.toNat - 48)) 0

/-- The loop of `operator()` over the two indices. -/
def compareIndex : List Str → List Str → Bool
  | a :: i1, b :: i2 =>
    if startsWithDigit a && startsWithDigit b then
      if infInt a ≠ infInt b then infInt a < infInt b else compareIndex i1 i2
    else if a ≠ b then a < b
    else compareIndex i1 i2
  | i1, i2 => i1.length < i2.length

/-- `NameCompare::operator()`. -/
def nameCompare (s1 s2 : Str) : Bool := compareIndex (nameIndex s1) (nameIndex s2)

/-! ## The key behind it -/

/-- The pieces of an index: nothing, a character that is no digit, or a run
of digits. -/
inductive IsPiece : Str → Prop
  | empty : IsPiece []
  | char {c : UInt8} : isDigit c = false → IsPiece [c]
  | digits {c : UInt8} {cs : Str} : (∀ d ∈ c :: cs, isDigit d = true) → IsPiece (c :: cs)

/-- Characters before the digits, numbers, characters after the digits. -/
def pieceKey : Str → ℕ ×ₗ ℕ
  | [] => toLex (0, 0)
  | c :: cs =>
    if isDigit c then toLex (2, infInt (c :: cs))
    else if c < 48 then toLex (1, c.toNat)
    else toLex (3, c.toNat)

def nameKey (s : Str) : List (ℕ ×ₗ ℕ) := (nameIndex s).map pieceKey

theorem isPiece_loop : ∀ (cs buf : Str) (prevIsDigit : Bool),
    (prevIsDigit = true → ∀ d ∈ buf, isDigit d = true) → (prevIsDigit = false → IsPiece buf) →
    ∀ p ∈ nameIndexLoop prevIsDigit buf cs, IsPiece p
  | [], buf, prev, hd, hn, p, hp => by
    obtain rfl : p = buf := by simpa [nameIndexLoop] using hp
    cases prev with
    | false => exact hn rfl
    | true =>
      cases p with
      | nil => exact .empty
      | cons c cs => exact .digits (hd rfl)
  | c :: cs, buf, prev, hd, hn, p, hp => by
    have hbuf : IsPiece buf := by
      cases prev with
      | false => exact hn rfl
      | true =>
        cases buf with
        | nil => exact .empty
        | cons d ds => exact .digits (hd rfl)
    simp only [nameIndexLoop] at hp
    split at hp
    · next h =>
      obtain ⟨hc, hprev⟩ := Bool.and_eq_true_iff.mp h
      refine isPiece_loop cs (buf ++ [c]) _ (fun _ d hmem => ?_) (fun hf => by rw [hc] at hf; cases hf) p hp
      rcases List.mem_append.mp hmem with hmem | hmem
      · exact hd hprev d hmem
      · obtain rfl := List.mem_singleton.mp hmem
        exact hc
    · rcases List.mem_cons.mp hp with rfl | hp
      · exact hbuf
      · exact isPiece_loop cs [c] _ (fun hc d hmem => by rw [List.mem_singleton.mp hmem]; exact hc)
          (fun hc => .char hc) p hp

theorem isPiece_nameIndex (s : Str) : ∀ p ∈ nameIndex s, IsPiece p := by
  cases s with
  | nil => simp [nameIndex]
  | cons c cs => exact isPiece_loop (c :: cs) [] _ (by simp) (fun _ => .empty)

theorem isDigit_iff (c : UInt8) : isDigit c = true ↔ 48 ≤ c.toNat ∧ c.toNat ≤ 57 := by
  simp [isDigit, UInt8.le_iff_toNat_le]

/-- The key of a character that is no digit. -/
theorem pieceKey_char {c : UInt8} (hc : isDigit c = false) :
    (c.toNat < 48 ∧ pieceKey [c] = toLex (1, c.toNat)) ∨ (57 < c.toNat ∧ pieceKey [c] = toLex (3, c.toNat)) := by
  have h := isDigit_iff c
  rw [hc] at h
  simp only [Bool.false_eq_true, false_iff, not_and, not_le] at h
  have hlt : c < 48 ↔ c.toNat < 48 := UInt8.lt_iff_toNat_lt
  simp only [pieceKey, hc, Bool.false_eq_true, if_false]
  by_cases hc' : c < 48
  · exact .inl ⟨hlt.mp hc', by rw [if_pos hc']⟩
  · refine .inr ⟨h ?_, by rw [if_neg hc']⟩
    rw [hlt] at hc'
    omega

/-- On pieces that are not both digits the bytes decide as the keys do. -/
theorem pieceKey_bytes {a b : Str} (ha : IsPiece a) (hb : IsPiece b)
    (hd : (startsWithDigit a && startsWithDigit b) = false) :
    (a < b ↔ pieceKey a < pieceKey b) ∧ (a = b ↔ pieceKey a = pieceKey b) := by
  cases ha with
  | empty =>
    cases hb with
    | empty => simp
    | char hc =>
      rcases pieceKey_char hc with ⟨-, h⟩ | ⟨-, h⟩ <;> rw [h] <;> simp [pieceKey, Prod.Lex.toLex_lt_toLex]
    | @digits c cs hc =>
      have hdig := hc c (by simp)
      simp [pieceKey, hdig, Prod.Lex.toLex_lt_toLex]
  | @char c hc =>
    cases hb with
    | empty =>
      rcases pieceKey_char hc with ⟨-, h⟩ | ⟨-, h⟩ <;> rw [h] <;> simp [pieceKey, Prod.Lex.toLex_lt_toLex]
    | @char d hd' =>
      have hcd : ([c] : Str) < [d] ↔ c.toNat < d.toNat := by
        rw [List.cons_lt_cons_iff, UInt8.lt_iff_toNat_lt]; simp
      have heq : ([c] : Str) = [d] ↔ c.toNat = d.toNat := by rw [UInt8.toNat_inj]; simp
      rw [hcd, heq]
      rcases pieceKey_char hc with ⟨h₁, h⟩ | ⟨h₁, h⟩ <;> rcases pieceKey_char hd' with ⟨h₂, h'⟩ | ⟨h₂, h'⟩ <;>
        rw [h, h'] <;> simp [Prod.Lex.toLex_lt_toLex] <;> omega
    | @digits d ds hd' =>
      have hdig := hd' d (by simp)
      obtain ⟨hlo, hhi⟩ := (isDigit_iff d).mp hdig
      have hne : c ≠ d := fun h => by rw [h, hdig] at hc; cases hc
      have hcd : ([c] : Str) < d :: ds ↔ c.toNat < d.toNat := by
        rw [List.cons_lt_cons_iff, UInt8.lt_iff_toNat_lt, or_iff_left fun h => hne h.1]
      have hkey : pieceKey (d :: ds) = toLex (2, infInt (d :: ds)) := by simp [pieceKey, hdig]
      rw [hcd, hkey]
      rcases pieceKey_char hc with ⟨h₁, h⟩ | ⟨h₁, h⟩ <;> rw [h] <;> simp [Prod.Lex.toLex_lt_toLex, hne] <;> omega
  | @digits c cs hc =>
    have hdig := hc c (by simp)
    obtain ⟨hlo, hhi⟩ := (isDigit_iff c).mp hdig
    have hkey : pieceKey (c :: cs) = toLex (2, infInt (c :: cs)) := by simp [pieceKey, hdig]
    cases hb with
    | empty => rw [hkey]; simp [pieceKey, Prod.Lex.toLex_lt_toLex]
    | @char d hd' =>
      have hne : c ≠ d := fun h => by rw [← h, hdig] at hd'; cases hd'
      have hcd : c :: cs < ([d] : Str) ↔ c.toNat < d.toNat := by
        rw [List.cons_lt_cons_iff, UInt8.lt_iff_toNat_lt, or_iff_left fun h => hne h.1]
      rw [hcd, hkey]
      rcases pieceKey_char hd' with ⟨h₁, h⟩ | ⟨h₁, h⟩ <;> rw [h] <;> simp [Prod.Lex.toLex_lt_toLex, hne] <;> omega
    | @digits d ds hd' =>
      simp [startsWithDigit, hdig, hd' d (by simp)] at hd

/-- On two runs of digits the numbers decide as the keys do. -/
theorem pieceKey_digits {a b : Str} (hd : (startsWithDigit a && startsWithDigit b) = true) :
    (infInt a < infInt b ↔ pieceKey a < pieceKey b) ∧ (infInt a = infInt b ↔ pieceKey a = pieceKey b) := by
  obtain ⟨ha, hb⟩ := Bool.and_eq_true_iff.mp hd
  cases a with
  | nil => cases ha
  | cons c cs =>
    cases b with
    | nil => cases hb
    | cons d ds =>
      have hc : isDigit c = true := ha
      have hd : isDigit d = true := hb
      simp [pieceKey, hc, hd, Prod.Lex.toLex_lt_toLex]

theorem compareIndex_iff : ∀ {i1 i2 : List Str}, (∀ p ∈ i1, IsPiece p) → (∀ p ∈ i2, IsPiece p) →
    (compareIndex i1 i2 = true ↔ i1.map pieceKey < i2.map pieceKey)
  | [], [], _, _ => by simp [compareIndex]
  | [], b :: i2, _, _ => by simp [compareIndex]
  | a :: i1, [], _, _ => by simp [compareIndex]
  | a :: i1, b :: i2, h1, h2 => by
    rw [List.forall_mem_cons] at h1 h2
    have ih := compareIndex_iff h1.2 h2.2
    rw [List.map_cons, List.map_cons, List.cons_lt_cons_iff, ← ih]
    simp only [compareIndex]
    split
    · next hd =>
      have hkey := pieceKey_digits hd
      split
      · next hne =>
        rw [decide_eq_true_eq, hkey.1, or_iff_left fun h => hne (hkey.2.mpr h.1)]
      · next heq =>
        have heq := not_not.mp heq
        rw [← hkey.1, ← hkey.2, heq]
        simp
    · next hd =>
      have hkey := pieceKey_bytes h1.1 h2.1 (by simpa using hd)
      split
      · next hne =>
        rw [decide_eq_true_eq, hkey.1, or_iff_left fun h => hne (hkey.2.mpr h.1)]
      · next heq =>
        have heq := not_not.mp heq
        rw [← hkey.2, heq]
        simp

/-- **Names are ordered by their key.** -/
theorem nameCompare_iff (s1 s2 : Str) : nameCompare s1 s2 = true ↔ nameKey s1 < nameKey s2 :=
  compareIndex_iff (isPiece_nameIndex s1) (isPiece_nameIndex s2)

theorem strictWeak_nameCompare : StrictWeak nameCompare := .of_key nameKey nameCompare_iff

end AlpinoCorpus
