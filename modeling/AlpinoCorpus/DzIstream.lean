/-
`DzIstreamBuf`: the stream buffer that reads a dictzip file, and
`DzIstream`, the `std::istream` over it.

The constructor reads the gzip header, the chunk table of the `RA` field
and the optional fields. After that the buffer holds one inflated chunk at
a time, with the get area over it. `DzFile` is what the constructor read
and nothing changes later; `DzIstreamBuf` adds the chunk in the buffer.
-/
import AlpinoCorpus.Zlib
import AlpinoCorpus.Lib.Stdio

namespace AlpinoCorpus

open Stdio

structure DzChunk where
  offset : Nat
  size : Nat
  deriving DecidableEq

structure DzFile where
  /-- The bytes of the file. -/
  stream : Str
  /-- Not assigned when the file has no `RA` field. -/
  chunkLen : Option Nat
  dataOffset : Nat
  chunks : List DzChunk
  deriving DecidableEq

structure DzIstreamBuf where
  file : DzFile
  buffer : Str
  curChunk : Int
  /-- `gptr() - eback()` and `egptr() - eback()`; `eback()` is the start of
  the buffer. -/
  gptr : Nat
  egptr : Nat

/-! ## The constructor -/

namespace DzFile

/-- `fgetc(d_stream) + (fgetc(d_stream) * 256)`. -/
def get16 (f : FileIn) : Int × FileIn :=
  let (lo, f) := f.fgetc
  let (hi, f) := f.fgetc
  (lo + hi * 256, f)

def readHeader (f : FileIn) : Outcome (Str × FileIn) :=
  let (header, f) := f.fread 10
  if header.length ≠ 10 then
    raise (.runtimeError (str "DzIstreamBuf::readHeader: could not read header!"))
  else if header.getD 0 0 ≠ 0x1f ∨ header.getD 1 0 ≠ 0x8b then
    raise (.runtimeError (str "DzIstreamBuf::readHeader: not a gzip file!"))
  else if header.getD 2 0 ≠ 8 then
    raise (.runtimeError (str "DzIstreamBuf::readHeader: unknown compression method!"))
  else if header.getD 3 0 &&& 4 = 0 then
    raise (.runtimeError (str "DzIstreamBuf::readHeader: no extra fields, cannot be a dictzip file!"))
  else .ok (header, f)

/-- What the loop of `readExtra` has read so far. -/
structure Extra where
  file : FileIn
  chunkLen : Option Nat
  chunks : List DzChunk

/-- The chunk table: `n` more entries, the next chunk at `chunkPos`. At the
end of the file an entry is `fgetc() + fgetc() * 256` of -1, as `size_t`. -/
def readChunks : Nat → FileIn → Nat → List DzChunk × FileIn
  | 0, f, _ => ([], f)
  | n + 1, f, chunkPos =>
    let (len, f) := get16 f
    let chunkLen := sizeT len
    let (chunks, f) := readChunks n f ((chunkPos + chunkLen) % 2 ^ 64)
    (⟨chunkPos, chunkLen⟩ :: chunks, f)

/-- The most chunks that a `vector` of them holds. -/
def maxChunks : Nat := ptrdiffMax / 16

/-- The `RA` field after its header. A count read at the end of the file is
near `2 ^ 64`; pushing that many chunks runs out of memory, as reading the
field over and over does. -/
def readRA (x : Extra) (f : FileIn) : Outcome Extra :=
  let (ver, f) := get16 f
  if ver ≠ 1 then raise (.charPtr (str "DzIstreamBuf::readExtra: unknown dictzip version!"))
  else
    let (chunkLen, f) := get16 f
    let (chunkCount, f) := get16 f
    if sizeT chunkLen > ptrdiffMax then raise .lengthError
    else if x.chunks.length + sizeT chunkCount > maxChunks then raise .badAlloc
    else
      let (chunks, f) := readChunks (sizeT chunkCount) f 0
      .ok ⟨f, some (sizeT chunkLen), x.chunks ++ chunks⟩

/-- One round of the loop of `readExtra`: a field of the extra part. -/
def readField (x : Extra) : Outcome Extra :=
  let (si, f) := x.file.fread 2
  if si.length ≠ 2 then
    raise (.charPtr (str "DzIstreamBuf::readExtra: could not read extra field header!"))
  else
    let (len, f) := get16 f
    -- Does this field part provide chunk information?
    if si = str "RA" then readRA x f
    else .ok { x with file := f.seekCur len }

def readExtraLoop (fuel : Nat) (nextField : Int) (x : Extra) : Outcome Extra :=
  if x.file.pos < nextField then
    match fuel with
    | 0 => .error .unfinished
    | fuel + 1 => do
      let x ← readField x
      readExtraLoop fuel nextField x
  else .ok x

def readExtra (fuel : Nat) (f : FileIn) : Outcome Extra :=
  let (extraLen, f) := get16 f
  readExtraLoop fuel (f.pos + extraLen) ⟨f, none, []⟩

/-- `while (fgetc(d_stream) != 0) {}`. -/
def skipString : Nat → FileIn → Outcome FileIn
  | 0, _ => .error .unfinished
  | fuel + 1, f =>
    let (c, f) := f.fgetc
    if c = 0 then .ok f else skipString fuel f

def skipOptional (fuel : Nat) (header : Str) (f : FileIn) : Outcome FileIn := do
  let flg := header.getD 3 0
  let f ← if flg &&& 8 ≠ 0 then skipString fuel f else .ok f
  let f ← if flg &&& 16 ≠ 0 then skipString fuel f else .ok f
  .ok (if flg &&& 2 ≠ 0 then f.seekCur 2 else f)

def openFile (fuel : Nat) (bytes : Str) : Outcome DzFile := do
  let (header, f) ← readHeader ⟨bytes, 0⟩
  let x ← readExtra fuel f
  let f ← skipOptional fuel header x.file
  .ok ⟨bytes, x.chunkLen, f.pos, x.chunks⟩

/-- The size of `d_buffer`. -/
def bufferLen (file : DzFile) : Nat := file.chunkLen.getD 0

end DzFile

namespace DzIstreamBuf

/-- `d_buffer` as `resize` left it, the get area empty at its end. -/
def ofFile (file : DzFile) : DzIstreamBuf :=
  { file, buffer := List.replicate file.bufferLen 0, curChunk := -1
    gptr := file.bufferLen, egptr := file.bufferLen }

def openFile (fuel : Nat) (bytes : Str) : Outcome DzIstreamBuf := do
  let file ← DzFile.openFile fuel bytes
  .ok (ofFile file)

/-! ## Reading -/

/-- `d_buffer` after `inflate` put `out` at its start. -/
def overwrite (buffer out : Str) : Str := out ++ buffer.drop out.length

variable (Z : Zlib)

/-- Each read of the file seeks first, so its position is not a part of the
state. A chunk whose offset has wrapped is one whose size `new[]` refuses. -/
def readChunk (b : DzIstreamBuf) (n : Int) : Outcome Unit × DzIstreamBuf :=
  if n = b.curChunk then (.ok (), b)
  else match (if 0 ≤ n then b.file.chunks[n.toNat]? else none) with
    | none => (.error .undefined, b)
    | some chunkN =>
      if chunkN.size > ptrdiffMax then (raise .badAlloc, b)
      else
        let zBuf := (b.file.stream.drop (b.file.dataOffset + chunkN.offset)).take chunkN.size
        if zBuf.length ≠ chunkN.size then
          (raise (.runtimeError (str "DzIstreamBuf::readChunk: could not read chunk!")), b)
        else
          let r := Z.inflate zBuf b.file.bufferLen
          if r.init = false then (raise (zError r.msg), b)
          else
            let b := { b with buffer := overwrite b.buffer r.out }
            if r.ret = .error then (raise (zError r.msg), b)
            else if r.ended = false then (raise (zError r.msg), b)
            else (.ok (), { b with curChunk := n, gptr := 0, egptr := r.out.length })

/-- `*gptr()` as an `int`: `char` is signed, and `EOF` is -1. -/
def charInt (c : UInt8) : Int := if c < 128 then c.toNat else c.toNat - 256

/-- `*gptr()`, undefined past the buffer. -/
def peek (b : DzIstreamBuf) : Outcome Int :=
  match b.buffer[b.gptr]? with
  | some c => .ok (charInt c)
  | none => .error .undefined

def underflow (b : DzIstreamBuf) : Outcome Int × DzIstreamBuf :=
  if b.gptr < b.egptr then (b.peek, b)
  else if b.curChunk + 1 ≥ int32 b.file.chunks.length then (.ok (-1), b)
  else match b.readChunk Z (b.curChunk + 1) with
    | (.error e, b) => (.error e, b)
    | (.ok (), b) => (b.peek, b)

/-- `std::ios::seekdir`; the end is not supported. -/
inductive SeekDir
  | beg
  | cur
  | end_
  deriving DecidableEq

/-- `curPos + off`, whose overflow is undefined. -/
def targetPos (b : DzIstreamBuf) (chunkLen : Nat) (off : Int) : SeekDir → Outcome Int
  | .beg => .ok off
  | .cur =>
    let target := int64 (sizeT (b.curChunk * chunkLen + b.gptr)) + off
    if -2 ^ 63 ≤ target ∧ target < 2 ^ 63 then .ok target else .error .undefined
  | .end_ => .ok (-1)

/-- Both divisions are of `size_t`, their results `int`s. -/
def seekoff (b : DzIstreamBuf) (off : Int) (dir : SeekDir) : Outcome Int × DzIstreamBuf :=
  if dir = .end_ then (.ok (-1), b)
  else match b.file.chunkLen with
    | none => (.error .undefined, b)
    | some chunkLen =>
      match b.targetPos chunkLen off dir with
      | .error e => (.error e, b)
      | .ok targetPos =>
        if chunkLen = 0 then (.error .undefined, b)
        else
          let targetChunk := int32 (sizeT targetPos / chunkLen : Nat)
          let chunkPos := int32 (sizeT targetPos % chunkLen : Nat)
          if targetPos < 0 then (.ok (-1), b)
          else match b.readChunk Z targetChunk with
            | (.error e, b) => (.error e, b)
            | (.ok (), b) => (.ok targetPos, { b with gptr := chunkPos.toNat })

/-- `if (!in_avail()) { if (underflow() == EOF) break; }`: whether to go on. -/
def fill (b : DzIstreamBuf) : Outcome Bool × DzIstreamBuf :=
  if b.gptr = b.egptr then
    match b.underflow Z with
    | (.error e, b) => (.error e, b)
    | (.ok c, b) => (.ok (c ≠ -1), b)
  else (.ok true, b)

/-- The loop of `xsgetn`: `n` characters to go, `dest` those copied, whose
number is an `int`. A negative `in_avail()` becomes the size of a `memcpy`. -/
def xsgetnLoop : Nat → DzIstreamBuf → Nat → Str → Outcome Unit × Str × DzIstreamBuf
  | 0, b, _, dest => (.error .unfinished, dest, b)
  | fuel + 1, b, n, dest =>
    if n = 0 then (.ok (), dest, b)
    else match b.fill Z with
      | (.error e, b) => (.error e, dest, b)
      | (.ok false, b) => (.ok (), dest, b)
      | (.ok true, b) =>
        if b.egptr < b.gptr then (.error .undefined, dest, b)
        else
          let avail := min (b.egptr - b.gptr) n
          if dest.length + avail ≥ 2 ^ 31 then (.error .undefined, dest, b)
          else xsgetnLoop fuel { b with gptr := b.gptr + avail } (n - avail)
            (dest ++ (b.buffer.drop b.gptr).take avail)

/-- Every round that copies nothing goes on to the next chunk. -/
def xsgetn (b : DzIstreamBuf) (n : Nat) : Outcome Unit × Str × DzIstreamBuf :=
  xsgetnLoop Z (n + b.file.chunks.length + 2) b n []

end DzIstreamBuf

/-! ## The stream -/

/-- `DzIstream`: a `std::istream` on the buffer. -/
structure DzIstream where
  buf : DzIstreamBuf
  eofbit : Bool
  failbit : Bool
  badbit : Bool

namespace DzIstream

def openFile (fuel : Nat) (bytes : Str) : Outcome DzIstream := do
  let buf ← DzIstreamBuf.openFile fuel bytes
  .ok ⟨buf, false, false, false⟩

def good (s : DzIstream) : Bool := !s.eofbit && !s.failbit && !s.badbit

variable (Z : Zlib)

/-- `seekg(off, beg)`. On a stream that is not good the sentry sets
`failbit` and nothing else happens; an exception of the buffer sets
`badbit`. -/
def seekg (s : DzIstream) (off : Int) : Outcome Unit × DzIstream :=
  let s := { s with eofbit := false }
  if s.good = false then (.ok (), { s with failbit := true })
  else match s.buf.seekoff Z off .beg with
    | (.ok p, b) => (.ok (), { s with buf := b, failbit := p = -1 })
    | (.error (.raised _), b) => (.ok (), { s with buf := b, badbit := true })
    | (.error e, b) => (.error e, { s with buf := b })

/-- `read(dest, n)`, with what it put into `dest`. -/
def read (s : DzIstream) (n : Nat) : Outcome Unit × Str × DzIstream :=
  if s.good = false then (.ok (), [], { s with failbit := true })
  else match s.buf.xsgetn Z n with
    | (.ok (), dest, b) =>
      let short : Bool := dest.length ≠ n
      (.ok (), dest, { s with buf := b, eofbit := short, failbit := short })
    | (.error (.raised _), dest, b) => (.ok (), dest, { s with buf := b, badbit := true })
    | (.error e, dest, b) => (.error e, dest, { s with buf := b })

/-- A seek and then a read; the stream is not looked at in between. -/
def readAt (s : DzIstream) (off : Int) (n : Nat) : Outcome Unit × Str × DzIstream :=
  match s.seekg Z off with
  | (.error e, s) => (.error e, [], s)
  | (.ok (), s) => s.read Z n

end DzIstream

end AlpinoCorpus
