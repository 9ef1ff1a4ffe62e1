/-
`CompactCorpusWriterPrivate`: the data of every entry goes to a dictzip
stream, its name, offset and size to a line of the index.

`writeAll_archive`: what the files of a finished archive hold, for any
entries whose put areas zlib can deflate.
-/
import AlpinoCorpus.Base64
import AlpinoCorpus.DzOstreamFacts

namespace AlpinoCorpus

open Pieces

structure CompactCorpusWriterPrivate (Z : Zlib) where
  dataStream : DzOstream Z
  indexStream : Str
  offset : UInt64

namespace CompactCorpusWriterPrivate

variable {Z : Zlib}

/-- The constructor, both files opened. -/
def openFiles (Z : Zlib) : CompactCorpusWriterPrivate Z := ⟨.openFile Z, [], 0⟩

/-- `name << "\t" << b64_encode(d_offset) << "\t" << b64_encode(data.size()) << endl`. -/
def indexLine (name : Str) (offset size : UInt64) : Str :=
  name ++ str "\t" ++ b64Encode offset ++ str "\t" ++ b64Encode size ++ str "\n"

/-- Nothing looks at the state of the data stream: the line is written and
the offset moves on whether or not the data were. -/
def writeEntry (w : CompactCorpusWriterPrivate Z) (name data : Str) :
    Outcome Unit × CompactCorpusWriterPrivate Z :=
  match w.dataStream.write data with
  | (.error e, o) => (.error e, { w with dataStream := o })
  | (.ok (), o) =>
    let size := UInt64.ofNat data.length
    (.ok (), { dataStream := o
               indexStream := w.indexStream ++ indexLine name w.offset size
               offset := w.offset + size })

/-- `writeEntry` on the pairs in order. -/
def writeEntries (w : CompactCorpusWriterPrivate Z) : List (Str × Str) → Outcome Unit × CompactCorpusWriterPrivate Z
  | [] => (.ok (), w)
  | e :: es =>
    match w.writeEntry e.1 e.2 with
    | (.error x, w) => (.error x, w)
    | (.ok (), w) => w.writeEntries es

/-- Destroying the writer: the bytes of `.data.dz` and `.index`. -/
def close (w : CompactCorpusWriterPrivate Z) (secsSinceEpoch : Nat) : Str × Str :=
  (w.dataStream.buf.close secsSinceEpoch, w.indexStream)

/-! ## The index that goes with the data -/

/-- The text of the data file: the data one after another. -/
def textOf (entries : List (Str × Str)) : Str := (entries.map (·.2)).flatten

/-- The index lines of entries whose data start at `offset`. -/
def indexOf : Nat → List (Str × Str) → Str
  | _, [] => []
  | offset, e :: es =>
    indexLine e.1 (UInt64.ofNat offset) (UInt64.ofNat e.2.length) ++ indexOf (offset + e.2.length) es

/-- The writer after `text` was written in good order. -/
structure Good (w : CompactCorpusWriterPrivate Z) (areas : List Str) (text : Str) : Prop where
  wrote : w.dataStream.buf.Wrote areas
  text_eq : w.dataStream.buf.text areas = text
  good : w.dataStream.badbit = false
  offset : w.offset = UInt64.ofNat text.length

theorem writeEntry_good {w : CompactCorpusWriterPrivate Z} {areas text} (name data tail : Str) (h : w.Good areas text)
    (ha : DzOstreamBuf.Deflates Z (text ++ (data ++ tail))) (hs : data.length < 2 ^ 31) :
    ∃ w' areas', w.writeEntry name data = (.ok (), w') ∧ w'.Good areas' (text ++ data) ∧
      w'.indexStream = w.indexStream ++ indexLine name (UInt64.ofNat text.length) (UInt64.ofNat data.length) := by
  obtain ⟨b', areas', hx, hw', ht'⟩ := DzOstreamBuf.xsputn_wrote h.wrote (h.text_eq ▸ ha) hs
  have hwr : w.dataStream.write data = (.ok (), ⟨b', false⟩) := by
    simp [DzOstream.write, h.good, hx]
  refine ⟨⟨⟨b', false⟩, w.indexStream ++ indexLine name w.offset (UInt64.ofNat data.length),
    w.offset + UInt64.ofNat data.length⟩, areas', ?_, ⟨hw', ?_, rfl, ?_⟩, ?_⟩
  · simp only [writeEntry, hwr]
  · rw [← h.text_eq]; exact ht'
  · simp only [h.offset, List.length_append, UInt64.ofNat_add]
  · rw [h.offset]

theorem writeEntries_good : ∀ (entries : List (Str × Str)) (w : CompactCorpusWriterPrivate Z) (areas) (text : Str),
    w.Good areas text → DzOstreamBuf.Deflates Z (text ++ textOf entries) → (∀ e ∈ entries, e.2.length < 2 ^ 31) →
    ∃ w' areas', w.writeEntries entries = (.ok (), w') ∧ w'.Good areas' (text ++ textOf entries) ∧
      w'.indexStream = w.indexStream ++ indexOf text.length entries
  | [], w, areas, text, h, _, _ => ⟨w, areas, rfl, by simpa [textOf] using h, by simp [indexOf]⟩
  | e :: es, w, areas, text, h, ha, hs => by
    have ht : textOf (e :: es) = e.2 ++ textOf es := by simp [textOf]
    obtain ⟨w₁, areas₁, h₁, hg₁, hi₁⟩ := writeEntry_good e.1 e.2 (textOf es) h (ht ▸ ha) (hs e (by simp))
    obtain ⟨w', areas', h', hg', hi'⟩ := writeEntries_good es w₁ areas₁ (text ++ e.2) hg₁
      (by rw [List.append_assoc, ← ht]; exact ha) (fun x hx => hs x (by simp [hx]))
    refine ⟨w', areas', by simp only [writeEntries, h₁, h'], by rw [ht, ← List.append_assoc]; exact hg', ?_⟩
    rw [hi', hi₁, indexOf, List.append_assoc, List.length_append]

/-- **A finished archive.** The data file is a header, a table of the
deflated pieces of the text and these pieces; the index lists the entries
with the prefix sums of their sizes. -/
theorem writeAll_archive (entries : List (Str × Str)) (secs : Nat) (ha : PutAreas Z (textOf entries))
    (hs : (textOf entries).length < 2 ^ 31) :
    ∃ (w : CompactCorpusWriterPrivate Z) (zs : List Str) (rest : Str),
      (openFiles Z).writeEntries entries = (.ok (), w) ∧
      w.close secs = (DzOstreamBuf.writeHeader secs ++ DzOstreamBuf.writeChunkInfo (zs.map List.length) ++
        (zs.flatten ++ rest), indexOf 0 entries) ∧
      List.Forall₂ (Inflates Z dzPrefUncompressedSize) zs (pieces dzPrefUncompressedSize (textOf entries)) ∧
      ∀ z ∈ zs, z.length ≤ dzPrefUncompressedSize := by
  have hg : (openFiles Z).Good [] [] := ⟨DzOstreamBuf.wrote_openFile, rfl, rfl, rfl⟩
  have hle : ∀ e ∈ entries, e.2.length < 2 ^ 31 := fun e he =>
    lt_of_le_of_lt (List.Sublist.length_le (List.sublist_flatten_of_mem (List.mem_map_of_mem he))) hs
  obtain ⟨w, areas, hrun, hg, hi⟩ := writeEntries_good entries _ [] [] hg
    (by simpa using ha.deflates) hle
  simp only [List.nil_append] at hg
  obtain ⟨zs, rest, hcl, hz, hzle⟩ := DzOstreamBuf.close_chunks hg.wrote (hg.text_eq ▸ ha) secs
  refine ⟨w, zs, rest, hrun, ?_, hg.text_eq ▸ hz, hzle⟩
  rw [close, hcl, hi]
  rfl

end CompactCorpusWriterPrivate

end AlpinoCorpus
