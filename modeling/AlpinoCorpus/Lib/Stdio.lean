/-
A `FILE *` open for reading, on contents that do not change: `fgetc`,
`fread`, `ftell` (the field `pos`) and `fseek` from the current position.
-/
import Mathlib

namespace Stdio

structure FileIn where
  bytes : List UInt8
  pos : Nat

namespace FileIn

/-- What is left to read. -/
def rest (f : FileIn) : List UInt8 := f.bytes.drop f.pos

/-- `fgetc`: -1 at the end of the file. -/
def fgetc (f : FileIn) : Int × FileIn :=
  match f.bytes[f.pos]? with
  | some b => (b.toNat, { f with pos := f.pos + 1 })
  | none => (-1, f)

/-- `fread` of `n` bytes: as many as there are. -/
def fread (n : Nat) (f : FileIn) : List UInt8 × FileIn :=
  let xs := f.rest.take n
  (xs, { f with pos := f.pos + xs.length })

/-- `fseek(.., SEEK_CUR)`: a seek before the start fails and leaves the
position. -/
def seekCur (off : Int) (f : FileIn) : FileIn :=
  if 0 ≤ f.pos + off then { f with pos := (f.pos + off).toNat } else f

/-- The file with `n` bytes read. -/
def skip (f : FileIn) (n : Nat) : FileIn := { f with pos := f.pos + n }

@[simp] theorem skip_bytes (f : FileIn) (n : Nat) : (f.skip n).bytes = f.bytes := rfl
@[simp] theorem skip_pos (f : FileIn) (n : Nat) : (f.skip n).pos = f.pos + n := rfl
@[simp] theorem skip_skip (f : FileIn) (m n : Nat) : (f.skip m).skip n = f.skip (m + n) := by
  simp [skip, Nat.add_assoc]

theorem rest_skip {f : FileIn} (xs : List UInt8) {ys : List UInt8} (h : f.rest = xs ++ ys) : (f.skip xs.length).rest = ys := by
  simp only [rest, skip] at h ⊢
  rw [← List.drop_drop, h, List.drop_left]

theorem fgetc_cons {f : FileIn} {b : UInt8} {xs : List UInt8} (h : f.rest = b :: xs) :
    f.fgetc = ((b.toNat : Int), f.skip 1) := by
  have hb : f.bytes[f.pos]? = some b := by
    have := congrArg (·[0]?) h
    simpa [rest, List.getElem?_drop] using this
  simp [fgetc, hb, skip]

theorem fread_append {f : FileIn} {xs ys : List UInt8} (h : f.rest = xs ++ ys) :
    f.fread xs.length = (xs, f.skip xs.length) := by
  simp [fread, h, skip]

end FileIn

end Stdio
