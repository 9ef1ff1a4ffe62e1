/-
`DzOstreamBuf`: the stream buffer that writes a dictzip file, and
`DzOstream`, the `std::ostream` over it.

Characters collect in the put area. When it is full and more come, the put
area is deflated as one chunk, ended by a full flush so that the chunk can
be inflated without the ones before it, and appended to a temporary file.
The destructor flushes what is left and puts the file together: header,
chunk table, the temporary file, trailer.
-/
import AlpinoCorpus.Zlib

namespace AlpinoCorpus

/-- `static_cast<size_t>((0xffff - 12) * 0.89)`. -/
def dzPrefUncompressedSize : Nat := 58315

/-- The characters between `pbase()` and `pptr()`: never more than
`epptr() - pbase()`. -/
structure PutArea where
  bytes : Str
  le : bytes.length ≤ dzPrefUncompressedSize

namespace PutArea

def empty : PutArea := ⟨[], Nat.zero_le _⟩

/-- `epptr() - pptr()`. -/
def avail (a : PutArea) : Nat := dzPrefUncompressedSize - a.bytes.length

/-- `memcpy(pptr(), s, n); pbump(n)` for `n` at most `avail`. -/
def push (a : PutArea) (s : Str) (h : s.length ≤ a.avail) : PutArea :=
  ⟨a.bytes ++ s, by have := a.le; unfold avail at h; simp only [List.length_append]; omega⟩

end PutArea

structure DzOstreamBuf (Z : Zlib) where
  /-- The temporary file. -/
  zData : Str
  zStream : Z.Stream
  putArea : PutArea
  size : Nat
  crc32 : UInt32
  /-- `d_chunks`: the writer leaves every offset 0 and uses the sizes only. -/
  chunks : List Nat

namespace DzOstreamBuf

variable {Z : Zlib}

/-- The constructor, both files opened and `deflateInit2` done. -/
def openFile (Z : Zlib) : DzOstreamBuf Z :=
  { zData := [], zStream := Z.init, putArea := .empty, size := 0, crc32 := Z.crc32 0 [], chunks := [] }

def flushBuffer (b : DzOstreamBuf Z) : Outcome Unit × DzOstreamBuf Z :=
  let size := b.putArea.bytes.length
  let r := Z.deflate b.zStream b.putArea.bytes dzPrefUncompressedSize .fullFlush
  if r.ret = .ok then
    (.ok (), { zData := b.zData ++ r.out
               zStream := r.stream
               putArea := .empty
               size := b.size + size
               crc32 := Z.crc32 b.crc32 b.putArea.bytes
               chunks := b.chunks ++ [r.out.length] })
  else (raise (zError r.msg), { b with zStream := r.stream })

theorem flushBuffer_avail {b b' : DzOstreamBuf Z} (h : b.flushBuffer = (.ok (), b')) :
    b'.putArea.avail = dzPrefUncompressedSize := by
  simp only [flushBuffer] at h
  split at h <;> simp only [Prod.mk.injEq] at h
  · rw [← h.2]; rfl
  · exact absurd h.1 (by simp [raise])

/-- If the buffer is full, flush it. -/
def makeRoom (b : DzOstreamBuf Z) : Outcome Unit × DzOstreamBuf Z :=
  if b.putArea.avail = 0 then b.flushBuffer else (.ok (), b)

theorem makeRoom_avail {b b' : DzOstreamBuf Z} (h : b.makeRoom = (.ok (), b')) : 0 < b'.putArea.avail := by
  unfold makeRoom at h
  split at h
  · rw [flushBuffer_avail h]; decide
  · cases h; omega

/-- The loop of `xsputn`: `s` is what is left to write, `nWritten` an
`int`. -/
def xsputnLoop (b : DzOstreamBuf Z) (s : Str) (nWritten : Nat) : Outcome Nat × DzOstreamBuf Z :=
  if _hs : s = [] then (.ok nWritten, b)
  else match _hb : b.makeRoom with
    | (.error e, b) => (.error e, b)
    | (.ok (), b) =>
      let avail := min b.putArea.avail s.length
      if nWritten + avail ≥ 2 ^ 31 then (.error .undefined, b)
      else
        xsputnLoop { b with putArea := b.putArea.push (s.take avail) (by rw [List.length_take]; omega) }
          (s.drop avail) (nWritten + avail)
termination_by s.length
decreasing_by
  have := makeRoom_avail _hb
  have := List.length_pos_iff.mpr _hs
  rw [List.length_drop]; omega

def xsputn (b : DzOstreamBuf Z) (s : Str) : Outcome Nat × DzOstreamBuf Z := b.xsputnLoop s 0

/-- `overflow`, called with a character by `sputc` on a full put area. -/
def overflow (b : DzOstreamBuf Z) (c : UInt8) : Outcome Unit × DzOstreamBuf Z :=
  match b.flushBuffer with
  | (.error e, b) => (.error e, b)
  | (.ok (), b) =>
    if h : 1 ≤ b.putArea.avail then (.ok (), { b with putArea := b.putArea.push [c] h })
    else (.error .undefined, b)

/-- `sputc`: into the put area, or `overflow` when it is full. The character
is handed over as an `unsigned char`, so it is never `EOF`. -/
def sputc (b : DzOstreamBuf Z) (c : UInt8) : Outcome Unit × DzOstreamBuf Z :=
  if h : 1 ≤ b.putArea.avail then (.ok (), { b with putArea := b.putArea.push [c] h }) else b.overflow c

/-- The two bytes of `fputc(n % 256); fputc(n / 256)`. -/
def put16 (n : Nat) : Str := [UInt8.ofNat (n % 256), UInt8.ofNat (n / 256)]

/-- `writeToBuf<uint32_t>`. -/
def put32 (n : Nat) : Str :=
  [UInt8.ofNat n, UInt8.ofNat (n / 2 ^ 8), UInt8.ofNat (n / 2 ^ 16), UInt8.ofNat (n / 2 ^ 24)]

/-- `gzipId1`, `gzipId2`, `GZ_CM_DEFLATE`, `GZ_FLG_EXTRA`, the time, `GZ_XFL_MAX`,
`GZ_OS_UNIX`. A clock past 2038 is written as 0. -/
def writeHeader (secsSinceEpoch : Nat) : Str :=
  let secs := if secsSinceEpoch > 2 ^ 31 - 1 then 0 else secsSinceEpoch
  [0x1f, 0x8b, 8, 4] ++ put32 secs ++ [2, 3]

def writeChunkInfo (chunks : List Nat) : Str :=
  put16 (10 + 2 * chunks.length) ++ str "RA" ++ put16 (6 + 2 * chunks.length) ++ [1, 0] ++
    put16 dzPrefUncompressedSize ++ put16 chunks.length ++ (chunks.map put16).flatten

def writeTrailer (b : DzOstreamBuf Z) : Str := put32 b.crc32.toNat ++ put32 b.size

/-- The destructor: the bytes of the finished file. An exception of the
last flush is printed and forgotten. -/
def close (b : DzOstreamBuf Z) (secsSinceEpoch : Nat) : Str :=
  let b := b.flushBuffer.2
  let finish := Z.deflate b.zStream [] dzPrefUncompressedSize .finish
  writeHeader secsSinceEpoch ++ writeChunkInfo b.chunks ++ (b.zData ++ finish.out) ++ b.writeTrailer

end DzOstreamBuf

/-- `DzOstream`: a `std::ostream` whose only state of its own, here, is
`badbit`. -/
structure DzOstream (Z : Zlib) where
  buf : DzOstreamBuf Z
  badbit : Bool

namespace DzOstream

variable {Z : Zlib}

def openFile (Z : Zlib) : DzOstream Z := ⟨.openFile Z, false⟩

/-- `operator<<` of a string: nothing once the stream is bad; an exception
of the buffer is caught and sets `badbit`, as a short write does. -/
def write (o : DzOstream Z) (s : Str) : Outcome Unit × DzOstream Z :=
  if o.badbit then (.ok (), o)
  else match o.buf.xsputn s with
    | (.ok n, b) => (.ok (), ⟨b, n ≠ s.length⟩)
    | (.error (.raised _), b) => (.ok (), ⟨b, true⟩)
    | (.error e, b) => (.error e, ⟨b, false⟩)

end DzOstream

end AlpinoCorpus
