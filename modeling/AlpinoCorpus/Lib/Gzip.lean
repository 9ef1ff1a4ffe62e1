/-
The gzip file format: a header with optional fields, a deflate stream, and a
trailer with a checksum and the length of the text. `decode` reads a file of
one member; the deflate format is a parameter.
-/
import Mathlib

namespace Gzip

abbrev Bytes := List UInt8

/-- The number that bytes stand for, the least significant first. -/
def littleEndian (bytes : Bytes) : Nat := Nat.ofDigits 256 (bytes.map UInt8.toNat)

/-- A subfield of the extra field. -/
structure Subfield where
  id : UInt8 × UInt8
  data : Bytes
  deriving DecidableEq

def subfields : Nat → Bytes → Option (List Subfield)
  | _, [] => some []
  | fuel + 1, s₁ :: s₂ :: l₀ :: l₁ :: bytes =>
    let len := littleEndian [l₀, l₁]
    if bytes.length < len then none
    else (subfields fuel (bytes.drop len)).map fun fields => ⟨(s₁, s₂), bytes.take len⟩ :: fields
  | _, _ => none

/-- The extra field, with its length in front, and what follows it. -/
def extraField : Bytes → Option (List Subfield × Bytes)
  | x₀ :: x₁ :: bytes =>
    let xlen := littleEndian [x₀, x₁]
    if bytes.length < xlen then none
    else (subfields xlen (bytes.take xlen)).map fun fields => (fields, bytes.drop xlen)
  | _ => none

/-- A name or a comment, up to a zero byte. -/
def skipText : Bytes → Option Bytes
  | [] => none
  | b :: bytes => if b = 0 then some bytes else skipText bytes

def skipCheck : Bytes → Option Bytes
  | _ :: _ :: bytes => some bytes
  | _ => none

structure Member where
  extra : List Subfield
  text : Bytes
  deriving DecidableEq

section Decode

variable (inflate : Bytes → Option (Bytes × Bytes)) (crc32 : Bytes → UInt32)

/-- The text that a stream inflates to, if the trailer is behind the stream
and has its checksum and its length. -/
def body (bytes : Bytes) : Option Bytes :=
  match inflate bytes with
  | none => none
  | some (text, trailer) =>
    if trailer.length = 8 ∧ littleEndian (trailer.take 4) = (crc32 text).toNat ∧
        littleEndian (trailer.drop 4) = text.length % 2 ^ 32 then some text
    else none

/-- A file of one member. `inflate` gives what the stream at the beginning of
some bytes inflates to, and what follows the stream. -/
def decode : Bytes → Option Member
  | id₁ :: id₂ :: cm :: flags :: _ :: _ :: _ :: _ :: _ :: _ :: bytes => do
    guard (id₁ = 0x1f ∧ id₂ = 0x8b ∧ cm = 8 ∧ flags < 32)
    let (extra, bytes) ← if flags.toNat.testBit 2 then extraField bytes else some ([], bytes)
    let bytes ← if flags.toNat.testBit 3 then skipText bytes else some bytes
    let bytes ← if flags.toNat.testBit 4 then skipText bytes else some bytes
    let bytes ← if flags.toNat.testBit 1 then skipCheck bytes else some bytes
    let text ← body inflate crc32 bytes
    some ⟨extra, text⟩
  | _ => none

end Decode

theorem subfields_single {fuel : Nat} {s₁ s₂ l₀ l₁ : UInt8} {data : Bytes} (hlen : littleEndian [l₀, l₁] = data.length) :
    subfields (fuel + 1) (s₁ :: s₂ :: l₀ :: l₁ :: data) = some [⟨(s₁, s₂), data⟩] := by
  have hnil : ∀ fuel, subfields fuel [] = some [] := fun fuel => by cases fuel <;> rfl
  simp [subfields, hlen, hnil]

/-- An extra field of one subfield. -/
theorem extraField_single {x₀ x₁ s₁ s₂ l₀ l₁ : UInt8} {data rest : Bytes} (hlen : littleEndian [l₀, l₁] = data.length)
    (hxlen : littleEndian [x₀, x₁] = data.length + 4) :
    extraField (x₀ :: x₁ :: s₁ :: s₂ :: l₀ :: l₁ :: (data ++ rest)) = some ([⟨(s₁, s₂), data⟩], rest) := by
  have hfield : (s₁ :: s₂ :: l₀ :: l₁ :: (data ++ rest)).take (data.length + 4) = s₁ :: s₂ :: l₀ :: l₁ :: data := by simp
  have hrest : (s₁ :: s₂ :: l₀ :: l₁ :: (data ++ rest)).drop (data.length + 4) = rest := by simp
  rw [extraField, hxlen, hfield, hrest, if_neg (by simp), subfields_single hlen]
  rfl

theorem body_trailer {inflate : Bytes → Option (Bytes × Bytes)} {crc32 : Bytes → UInt32} {stream crc size text : Bytes}
    (hinflate : inflate (stream ++ (crc ++ size)) = some (text, crc ++ size)) (hcrc : crc.length = 4) (hsize : size.length = 4)
    (hsum : littleEndian crc = (crc32 text).toNat) (htext : littleEndian size = text.length % 2 ^ 32) :
    body inflate crc32 (stream ++ (crc ++ size)) = some text := by
  simp only [body, hinflate]
  rw [List.take_left' hcrc, List.drop_left' hcrc, List.length_append, hcrc, hsize]
  exact if_pos ⟨rfl, hsum, htext⟩

/-- **A member with an extra field** and none of the other fields. -/
theorem decode_extra {inflate : Bytes → Option (Bytes × Bytes)} {crc32 : Bytes → UInt32} {mtime bytes rest text : Bytes}
    {xfl os : UInt8} {extra : List Subfield} (hmtime : mtime.length = 4) (hextra : extraField bytes = some (extra, rest))
    (hbody : body inflate crc32 rest = some text) :
    decode inflate crc32 ([0x1f, 0x8b, 8, 4] ++ mtime ++ [xfl, os] ++ bytes) = some ⟨extra, text⟩ := by
  obtain ⟨t₀, t₁, t₂, t₃, rfl⟩ : ∃ t₀ t₁ t₂ t₃, mtime = [t₀, t₁, t₂, t₃] := by
    match mtime, hmtime with
    | [t₀, t₁, t₂, t₃], _ => exact ⟨t₀, t₁, t₂, t₃, rfl⟩
  simp [decode, hextra, hbody, guard, Nat.testBit]

end Gzip
