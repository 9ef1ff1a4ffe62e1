/-
`CompactCorpusReaderPrivate`: the reader of a compact corpus. The index is
read once; every entry is a seek and a read on one shared data stream.
-/
import AlpinoCorpus.Base64
import AlpinoCorpus.DzIstream
import AlpinoCorpus.Lib.Iteration

namespace AlpinoCorpus

open Iteration

structure IndexItem where
  name : Str
  offset : UInt64
  size : UInt64
  deriving DecidableEq

/-- Over `[d_iter, d_end)`. -/
structure IndexIter where
  items : List IndexItem

namespace IndexIter

def hasNext (it : IndexIter) : Outcome Bool × IndexIter := (.ok (!it.items.isEmpty), it)

def next (it : IndexIter) : Outcome Entry × IndexIter :=
  match it.items with
  | item :: items => (.ok ⟨item.name, []⟩, ⟨items⟩)
  | [] => (.error .undefined, it)

def machine : Machine IndexIter Stop Entry := ⟨hasNext, next⟩

theorem delivers (items : List IndexItem) :
    Delivers machine ⟨items⟩ (items.map fun item => ⟨item.name, []⟩) false := by
  refine Delivers.of_simulation (R := fun it xs b => xs = it.items.map (fun item => ⟨item.name, []⟩) ∧
    (b = true → xs ≠ [])) ?_ ?_ ?_ ⟨rfl, nofun⟩
  · rintro it xs b ⟨rfl, -⟩
    exact ⟨it, by simp [machine, hasNext], rfl, by simp⟩
  · rintro ⟨items⟩ x xs ⟨h, -⟩
    cases items with
    | nil => cases h
    | cons item items =>
      obtain ⟨rfl, rfl⟩ := List.cons.inj h
      exact ⟨⟨items⟩, rfl, rfl, nofun⟩
  · rintro it ⟨-, h⟩
    exact h rfl rfl

end IndexIter

structure CompactCorpusReaderPrivate where
  dataStream : DzIstream
  indices : List IndexItem
  /-- The latest assignment first. -/
  namedIndices : List (Str × IndexItem)

namespace CompactCorpusReaderPrivate

/-- `std::getline` of the index: a newline at the end starts no line. -/
def lines : Str → List Str
  | [] => []
  | c :: cs =>
    if c = 10 then [] :: lines cs
    else match lines cs with
      | [] => [[c]]
      | l :: ls => (c :: l) :: ls

/-- `std::getline(iss, .., delim)`: what stands before the delimiter, and
what is left in the stream. -/
def getline (delim : UInt8) (iss : Str) : Str × Str :=
  (iss.takeWhile (· ≠ delim), (iss.dropWhile (· ≠ delim)).drop 1)

/-- One round of the loop over the index: a field that is missing is empty. -/
def indexItem (line : Str) : Outcome IndexItem := do
  let (name, iss) := getline 9 line
  let (offset64, iss) := getline 9 iss
  let offset ← b64Decode offset64
  let (size64, _) := getline 10 iss
  let size ← b64Decode size64
  .ok ⟨name, offset, size⟩

def readIndices (r : CompactCorpusReaderPrivate) : List Str → Outcome CompactCorpusReaderPrivate
  | [] => .ok r
  | line :: lines => do
    let item ← indexItem line
    readIndices { r with indices := r.indices ++ [item]
                         namedIndices := (item.name, item) :: r.namedIndices } lines

/-- `open`, both files opened: `data` and `index` are their bytes. -/
def openFile (fuel : Nat) (data index : Str) : Outcome CompactCorpusReaderPrivate := do
  let dataStream ← DzIstream.openFile fuel data
  readIndices ⟨dataStream, [], []⟩ (lines index)

/-- `d_namedIndices.find`. -/
def find (r : CompactCorpusReaderPrivate) (filename : Str) : Option IndexItem :=
  r.namedIndices.lookup filename

def getEntries (r : CompactCorpusReaderPrivate) : IndexIter := ⟨r.indices⟩

def getSize (r : CompactCorpusReaderPrivate) : Nat := r.indices.length

/-- Nothing looks at the state of the stream after the seek or the read:
bytes that were not read are the zeros of the vector. -/
def readEntry (Z : Zlib) (r : CompactCorpusReaderPrivate) (filename : Str) :
    Outcome Str × CompactCorpusReaderPrivate :=
  match r.find filename with
  | none => (raise (.error (str "CompactCorpusReaderPrivate::read: requesting unknown data!")), r)
  | some item =>
    let size := item.size.toNat
    if size > ptrdiffMax then (raise .lengthError, r)
    else match r.dataStream.readAt Z (int64 item.offset.toNat) size with
      | (.error e, _, s) => (.error e, { r with dataStream := s })
      | (.ok (), dest, s) =>
        (.ok (dest ++ List.replicate (size - dest.length) 0), { r with dataStream := s })

/-- `readEntry` on the names in order: the outcome of each call. -/
def readEntries (Z : Zlib) (r : CompactCorpusReaderPrivate) : List Str → List (Outcome Str)
  | [] => []
  | n :: ns =>
    let (out, r) := r.readEntry Z n
    out :: r.readEntries Z ns

end CompactCorpusReaderPrivate

end AlpinoCorpus
