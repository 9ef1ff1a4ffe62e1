/-
One `readEntry`, by the state of the stream it finds: what it returns, and
how it leaves the stream. Over a sequence of reads the stream stays live as
long as every read comes out whole, and is dead from the first that does
not.
-/
import AlpinoCorpus.CompactReader
import AlpinoCorpus.DzIstreamFacts

namespace AlpinoCorpus

namespace CompactCorpusReaderPrivate

variable (Z : Zlib)

/-- The dictzip file under the reader. -/
def file (r : CompactCorpusReaderPrivate) : DzFile := r.dataStream.buf.file

/-- `readEntry` throws before it comes to the stream: an unknown name, or a
size that no vector has. -/
def Refused (r : CompactCorpusReaderPrivate) (filename : Str) : Prop :=
  ∀ item, r.find filename = some item → ptrdiffMax < item.size.toNat

/-- What the data file holds for an item of the index. -/
def itemSlice (r : CompactCorpusReaderPrivate) (st : Standing) (item : IndexItem) : Slice :=
  r.file.slice Z st (int64 item.offset.toNat) item.size.toNat

/-- The reader `r` after some reads, with its stream live. -/
structure LiveFrom (st : Standing) (r r' : CompactCorpusReaderPrivate) : Prop where
  named : r'.namedIndices = r.namedIndices
  live : r'.dataStream.Live Z r.file st

/-- The reader `r` after some reads, with its stream dead. -/
structure DeadFrom (r r' : CompactCorpusReaderPrivate) : Prop where
  named : r'.namedIndices = r.namedIndices
  dead : r'.dataStream.Dead

variable {Z} {r r' : CompactCorpusReaderPrivate} {st : Standing} {filename : Str}

theorem LiveFrom.find (h : LiveFrom Z st r r') : r'.find filename = r.find filename := by
  rw [CompactCorpusReaderPrivate.find, h.named]; rfl

theorem DeadFrom.find (h : DeadFrom r r') : r'.find filename = r.find filename := by
  rw [CompactCorpusReaderPrivate.find, h.named]; rfl

/-- A read that is refused: what it throws depends on the index alone. -/
theorem readEntry_refused (h : Refused r filename) (hf : r'.find filename = r.find filename) :
    r'.readEntry Z filename = ((r.readEntry Z filename).1, r') := by
  unfold readEntry
  rw [hf]
  cases hr : r.find filename with
  | none => rfl
  | some item => simp only [if_pos (h item hr)]

/-- A read on a dead stream returns zeros. -/
theorem readEntry_dead (h : DeadFrom r r') {item : IndexItem} (hitem : r.find filename = some item)
    (hsize : item.size.toNat ≤ ptrdiffMax) :
    ∃ r'', r'.readEntry Z filename = (.ok (List.replicate item.size.toNat 0), r'') ∧ DeadFrom r r'' := by
  obtain ⟨s, hs, hd⟩ := h.dead.readAt (Z := Z) (int64 item.offset.toNat) item.size.toNat
  refine ⟨{ r' with dataStream := s }, ?_, h.named, hd⟩
  simp only [readEntry, h.find.trans hitem, if_neg (Nat.not_lt.mpr hsize), hs]
  simp

/-- A read on a live stream of an entry that the data hold whole. -/
theorem readEntry_whole (h : LiveFrom Z st r r') {item : IndexItem} (hitem : r.find filename = some item)
    (hsize : item.size.toNat ≤ ptrdiffMax) {data : Str} {st' : Standing} (hdata : r.itemSlice Z st item = .whole data st') :
    ∃ r'', r'.readEntry Z filename = (.ok data, r'') ∧ LiveFrom Z st' r r'' := by
  have hread := h.live.readAt (int64 item.offset.toNat) item.size.toNat
  have hlen := r.file.slice_within Z st (int64 item.offset.toNat) item.size.toNat
  rw [show r.file.slice Z st _ _ = .whole data st' from hdata] at hread hlen
  obtain ⟨s, hs, hl⟩ := hread
  refine ⟨{ r' with dataStream := s }, ?_, h.named, hl⟩
  simp only [Slice.Within] at hlen
  simp only [readEntry, h.find.trans hitem, if_neg (Nat.not_lt.mpr hsize), hs, hlen, Nat.sub_self,
    List.replicate_zero, List.append_nil]

/-- A read on a live stream of an entry that the data do not hold whole. -/
theorem readEntry_cut (h : LiveFrom Z st r r') {item : IndexItem} (hitem : r.find filename = some item)
    (hsize : item.size.toNat ≤ ptrdiffMax) {data : Str} (hdata : r.itemSlice Z st item = .cut data) :
    ∃ r'', r'.readEntry Z filename = (.ok (data ++ List.replicate (item.size.toNat - data.length) 0), r'') ∧
      DeadFrom r r'' := by
  have hread := h.live.readAt (int64 item.offset.toNat) item.size.toNat
  rw [show r.file.slice Z st _ _ = .cut data from hdata] at hread
  obtain ⟨s, hs, hd⟩ := hread
  refine ⟨{ r' with dataStream := s }, ?_, h.named, hd⟩
  simp only [readEntry, h.find.trans hitem, if_neg (Nat.not_lt.mpr hsize), hs]

/-- A read on a live stream that the language leaves undefined. -/
theorem readEntry_undefined (h : LiveFrom Z st r r') {item : IndexItem} (hitem : r.find filename = some item)
    (hsize : item.size.toNat ≤ ptrdiffMax) (hdata : r.itemSlice Z st item = .undefined) :
    (r'.readEntry Z filename).1 = .error .undefined := by
  have hread := h.live.readAt (int64 item.offset.toNat) item.size.toNat
  rw [show r.file.slice Z st _ _ = .undefined from hdata] at hread
  rcases hs : r'.dataStream.readAt Z (int64 item.offset.toNat) item.size.toNat with ⟨out, dest, s⟩
  rw [hs] at hread
  obtain rfl : out = .error .undefined := hread
  simp only [readEntry, h.find.trans hitem, if_neg (Nat.not_lt.mpr hsize), hs]

theorem readIndices_dataStream : ∀ (lines : List Str) {r r' : CompactCorpusReaderPrivate},
    r.readIndices lines = .ok r' → r'.dataStream = r.dataStream
  | [], _, _, h => by cases h; rfl
  | line :: lines, r, r', h => by
    simp only [readIndices, bind_ok_iff] at h
    obtain ⟨item, -, h⟩ := h
    have hd := readIndices_dataStream lines h
    exact hd

/-- A reader that `open` returned. -/
theorem openFile_live {fuel : Nat} {data index : Str} (h : openFile fuel data index = .ok r) : LiveFrom Z .fresh r r := by
  simp only [openFile, DzIstream.openFile, DzIstreamBuf.openFile, bind_ok_iff] at h
  obtain ⟨s, ⟨b, ⟨f, -, hb⟩, hs⟩, h⟩ := h
  cases hb
  cases hs
  have hd : r.dataStream = ⟨.ofFile f, false, false, false⟩ := readIndices_dataStream _ h
  refine ⟨rfl, ?_, rfl, ?_, ?_⟩
  · rw [hd]; rfl
  · rw [hd]; exact DzIstreamBuf.sound_ofFile f
  · rw [hd]; exact DzIstreamBuf.stands_ofFile f

end CompactCorpusReaderPrivate

end AlpinoCorpus
