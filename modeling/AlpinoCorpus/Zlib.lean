/-
zlib, as far as the two dictzip buffers call it. It is not part of the
repository: a parameter of the model, whose fields bound what one call may
write into the memory it was given.
-/
import AlpinoCorpus.Basic

namespace AlpinoCorpus

inductive Flush
  | fullFlush
  | finish
  deriving DecidableEq

/-- The return codes the code looks at. -/
inductive ZRet
  | ok
  | streamEnd
  | error
  deriving DecidableEq

/-- One call of `deflate`: what it returned, what it put at `next_out`, how
much of `next_in` it took, `msg` and the stream after it. -/
structure Deflated (σ : Type) where
  ret : ZRet
  out : Str
  consumed : Nat
  msg : Option Str
  stream : σ

/-- `inflateInit2`, one call of `inflate` and `inflateEnd` on a slice. What
`inflate` put at `next_out` stays there when it returns an error. -/
structure Inflated where
  init : Bool
  ret : ZRet
  out : Str
  ended : Bool
  msg : Option Str
  deriving DecidableEq

structure Zlib where
  Stream : Type
  /-- The stream after `deflateInit2`. -/
  init : Stream
  /-- The stream, `next_in`, `avail_out`. -/
  deflate : Stream → Str → Nat → Flush → Deflated Stream
  deflate_le : ∀ s xs n f, (deflate s xs n f).out.length ≤ n
  inflate : Str → Nat → Inflated
  inflate_le : ∀ z n, (inflate z n).out.length ≤ n
  crc32 : UInt32 → Str → UInt32

/-- `throw std::runtime_error(msg)` for a C string that may be null. -/
def zError (msg : Option Str) : Exn :=
  match msg with
  | some m => .runtimeError m
  | none => .logicError

end AlpinoCorpus
