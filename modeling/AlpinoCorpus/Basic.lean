/-
What every part of the model shares: byte strings, the exceptions that
cross the library, and the outcome of a call.

A `std::string` is a list of bytes. A call either returns, throws, does
something the language leaves undefined, or has not finished within the
fuel it was given; the last two are kept apart from exceptions because no
`catch` sees them.
-/
import Mathlib

namespace AlpinoCorpus

/-- `std::string`: any bytes, the NUL byte included. -/
abbrev Str := List UInt8

/-- A literal of the source, one byte for each of its characters. -/
def str (s : String) : Str := s.toList.map fun c => UInt8.ofNat c.toNat

/-- The exceptions of `Error.hh`, and those of the standard library and the
language that pass through the code modelled here. -/
inductive Exn
  | error (msg : Str)
  | batchError (msg : Str) (n : Nat)
  | duplicateKey (key : Str)
  | notImplemented (msg : Str)
  | openError (path extra : Str)
  | iterationInterrupted
  | runtimeError (msg : Str)
  /-- `boost::filesystem::filesystem_error`. -/
  | filesystemError
  | logicError
  | outOfRange
  | lengthError
  | badAlloc
  /-- `throw("...")`: a bare `char const *`, of no exception class. -/
  | charPtr (msg : Str)
  /-- XQilla's exceptions, which have no base class. -/
  | xqException
  deriving DecidableEq, Repr

namespace Exn

/-- `what()`, for the classes of `Error.hh`. -/
def what : Exn → Str
  | error msg | batchError msg _ | notImplemented msg | runtimeError msg | charPtr msg => msg
  | duplicateKey key => str "duplicate key: " ++ key
  | openError path extra =>
    str "Cannot open \"" ++ path ++ str "\"" ++ (if extra = [] then [] else str ": " ++ extra)
  | iterationInterrupted => str "Iteration was interrupted."
  | filesystemError | logicError | outOfRange | lengthError | badAlloc | xqException => []

/-- Caught by `catch (Error const &)`. -/
def isError : Exn → Bool
  | error _ | batchError _ _ | duplicateKey _ | notImplemented _ | openError _ _ | iterationInterrupted => true
  | _ => false

/-- Caught by `catch (OpenError const &)`. -/
def isOpenError : Exn → Bool
  | openError _ _ => true
  | _ => false

/-- Caught by `catch (std::runtime_error &)`: `Error` derives from it, and so
does what Boost throws. -/
def isRuntimeError : Exn → Bool
  | runtimeError _ | filesystemError => true
  | e => e.isError

end Exn

/-- How a call ends other than by returning. -/
inductive Stop
  | raised (e : Exn)
  /-- Behaviour the language leaves undefined. -/
  | undefined
  /-- Not done within the fuel given. -/
  | unfinished
  deriving DecidableEq, Repr

abbrev Outcome := Except Stop

def raise {α} (e : Exn) : Outcome α := .error (.raised e)

theorem bind_ok_iff {α β} {x : Outcome α} {f : α → Outcome β} {b : β} :
    x >>= f = .ok b ↔ ∃ a, x = .ok a ∧ f a = .ok b := by
  cases x with
  | error e => simp [bind, Except.bind]
  | ok a => simp [bind, Except.bind]

theorem map_ok_iff {α β} {x : Outcome α} {f : α → β} {b : β} : f <$> x = .ok b ↔ ∃ a, x = .ok a ∧ f a = b := by
  cases x with
  | error e => simp [Functor.map, Except.map]
  | ok a => simp [Functor.map, Except.map]

/-- What an iterator delivers. -/
structure Entry where
  name : Str
  contents : Str
  deriving DecidableEq, Repr

/-- `size_t` of a C++ `int` or `long`: the value modulo `2 ^ 64`. -/
@[irreducible] def sizeT (i : Int) : Nat := (i % 2 ^ 64).toNat

/-- `int` of a wider integer: the value modulo `2 ^ 32`, read as signed. -/
@[irreducible] def int32 (i : Int) : Int := (i + 2 ^ 31) % 2 ^ 32 - 2 ^ 31

/-- A signed 64-bit value (`off_type`, `long`) of an unsigned one. -/
@[irreducible] def int64 (i : Int) : Int := (i + 2 ^ 63) % 2 ^ 64 - 2 ^ 63

theorem int32_of_lt {i : Int} (h₀ : 0 ≤ i) (h : i < 2 ^ 31) : int32 i = i := by
  unfold int32; omega

theorem int32_toNat_le (n : Nat) : (int32 n).toNat ≤ n := by
  unfold int32; omega

theorem int64_of_lt {i : Int} (h₀ : 0 ≤ i) (h : i < 2 ^ 63) : int64 i = i := by
  unfold int64; omega

theorem sizeT_of_lt {i : Nat} (h : i < 2 ^ 64) : sizeT i = i := by
  unfold sizeT; omega

/-- `PTRDIFF_MAX`: what `new[]` and `vector<unsigned char>` refuse to exceed. An
allocation up to it is taken to succeed. -/
def ptrdiffMax : Nat := 2 ^ 63 - 1

end AlpinoCorpus
