/-
A compact writer whose data stream fails.

`flushBuffer` throws when `deflate` does not return `Z_OK`; the stream
catches that, sets `badbit` and takes no more characters. `writeEntry` looks
at neither: its line is written and the offset moves on. A run is in order
as long as every full put area is deflated (`writeEntries_described`).
-/
import AlpinoCorpus.CompactRoundTrip

namespace AlpinoCorpus

open Pieces

namespace DzOstream

variable {Z : Zlib} {o : DzOstream Z} {b : DzOstreamBuf Z} {s : Str}

theorem write_ok {n : Nat} (hgood : o.badbit = false) (h : o.buf.xsputn s = (.ok n, b)) :
    o.write s = (.ok (), ⟨b, n ≠ s.length⟩) := by
  simp only [write, hgood, Bool.false_eq_true, if_false, h]

/-- An exception of the buffer stays in the stream. -/
theorem write_raised {e : Exn} (hgood : o.badbit = false) (h : o.buf.xsputn s = (raise e, b)) :
    o.write s = (.ok (), ⟨b, true⟩) := by
  simp only [write, hgood, Bool.false_eq_true, if_false, h, raise]

theorem write_undefined (hgood : o.badbit = false) (h : (o.buf.xsputn s).1 = .error .undefined) :
    ∃ o', o.write s = (.error .undefined, o') := by
  rcases hx : o.buf.xsputn s with ⟨r, b⟩
  rw [hx] at h
  obtain rfl : r = .error .undefined := h
  exact ⟨⟨b, false⟩, by simp only [write, hgood, Bool.false_eq_true, if_false, hx]⟩

end DzOstream

namespace CompactCorpusWriterPrivate

open DzOstreamBuf

variable {Z : Zlib}

/-- A writer whose data stream has taken all of `text`. -/
def InOrder (w : CompactCorpusWriterPrivate Z) (text : Str) : Prop := ∃ areas, w.Good areas text ∧ FlushesAll Z areas

theorem InOrder.accepted {w : CompactCorpusWriterPrivate Z} {text : Str} (h : w.InOrder text) :
    w.dataStream.buf.accepted = text.length := by
  obtain ⟨areas, hg, -⟩ := h
  rw [hg.wrote.accepted_eq, hg.text_eq]

theorem InOrder.flushes {w : CompactCorpusWriterPrivate Z} {text : Str} (h : w.InOrder text) : Flushes Z text := by
  obtain ⟨areas, hg, hd⟩ := h
  rw [Flushes, ← hg.text_eq, hg.wrote.pieces_text, List.dropLast_concat]
  exact hd

/-- A call of `writeEntry` on a writer in order: whether or not the data are
taken, the line is written. -/
theorem InOrder.writeEntry {w : CompactCorpusWriterPrivate Z} {text : Str} (h : w.InOrder text) (name data : Str) :
    (2 ^ 31 ≤ data.length ∧ (w.writeEntry name data).1 = .error .undefined) ∨
      ∃ w', w.writeEntry name data = (.ok (), w') ∧
        w'.indexStream = w.indexStream ++ indexLine name (UInt64.ofNat text.length) (UInt64.ofNat data.length) ∧
        (w'.InOrder (text ++ data) ∨
          w'.dataStream.badbit = true ∧ w'.dataStream.buf.accepted < text.length + data.length ∧
            ∀ tail, ¬Flushes Z (text ++ (data ++ tail))) := by
  obtain ⟨areas, hg, hd⟩ := h
  have houtcome := xsputnLoop_outcome data 0 w.dataStream.buf areas hg.wrote hd
  rw [Nat.zero_add, ← xsputn, hg.text_eq, hg.wrote.accepted_eq, hg.text_eq] at houtcome
  rcases houtcome with ⟨b', areas', hx, hw', hd', ht'⟩ | ⟨hge, hundef⟩ | ⟨e, b', hx, hacc, hnot⟩
  · have hwrite := DzOstream.write_ok hg.good hx
    refine .inr ⟨_, by rw [CompactCorpusWriterPrivate.writeEntry, hwrite], by rw [← hg.offset], .inl ⟨areas', ?_, hd'⟩⟩
    exact ⟨hw', ht', by simp, by simp only [hg.offset, List.length_append, UInt64.ofNat_add]⟩
  · obtain ⟨o, hwrite⟩ := DzOstream.write_undefined hg.good hundef
    exact .inl ⟨hge, by rw [CompactCorpusWriterPrivate.writeEntry, hwrite]⟩
  · have hwrite := DzOstream.write_raised hg.good hx
    exact .inr ⟨_, by rw [CompactCorpusWriterPrivate.writeEntry, hwrite], by rw [← hg.offset], .inr ⟨rfl, hacc, hnot⟩⟩

open CompactCorpusReaderPrivate

end CompactCorpusWriterPrivate

end AlpinoCorpus
