/-
The first read of a compact corpus: whether it returns the bytes of the
entry, or else throws.

It never throws once it has come to the stream, which keeps every exception
to itself; so it is right exactly when it finds all of the entry.
`first_read_iff` says when, for any data file that opens.
-/
import AlpinoCorpus.CompactHistory
import AlpinoCorpus.DzSeeking

namespace AlpinoCorpus

namespace DzFile

variable (Z : Zlib) (f : DzFile)

/-- Where a seek to `off` comes out in the text: chunk `off / chunkLen`
starts after the chunks before it, however long these are. -/
def landing (off : Nat) : Nat :=
  ((f.contents Z).take (off / f.bufferLen)).flatten.length + off % f.bufferLen

/-- The `n` bytes at `off` are in the text, and a seek and a read find them. -/
structure Lies (off n : Nat) : Prop where
  inside : off + n ≤ (f.text Z).length
  chunkLen : 0 < f.bufferLen
  chunk : off / f.bufferLen < f.chunks.length
  count : n < 2 ^ 31
  /-- Of no concern in a file of full chunks. -/
  found : 0 < n → (∀ out, (f.contents Z)[off / f.bufferLen]? = some out → off % f.bufferLen ≤ out.length) ∧
    ((f.text Z).drop (f.landing Z off)).take n = ((f.text Z).drop off).take n

variable {Z f}

/-- A chunk that is short leaves a seek short of its place, never past it. -/
theorem landing_le (f : DzFile) (off : Nat) : f.landing Z off ≤ off := by
  unfold landing
  calc ((f.contents Z).take (off / f.bufferLen)).flatten.length + off % f.bufferLen
      ≤ off / f.bufferLen * f.bufferLen + off % f.bufferLen := Nat.add_le_add_right (f.length_take_contents_le _) _
    _ = off := Nat.div_add_mod' off f.bufferLen

/-- In a file of full chunks a seek comes out where it should. -/
theorem Dictzip.lies_iff {L : Nat} (h : f.Dictzip Z L) (off n : Nat) :
    f.Lies Z off n ↔ off + n ≤ (f.text Z).length ∧ off / L < f.chunks.length ∧ n < 2 ^ 31 := by
  have hlen := h.bufferLen
  constructor
  · intro hlies
    exact ⟨hlies.inside, hlen ▸ hlies.chunk, hlies.count⟩
  · rintro ⟨hin, hchunk, hn⟩
    have hland : f.landing Z off = off := by
      rw [landing, hlen, h.length_take hchunk, Nat.div_add_mod']
    refine ⟨hin, hlen ▸ h.pos, hlen.symm ▸ hchunk, hn, fun _ => ⟨fun out hout => ?_, by rw [hland]⟩⟩
    rw [hlen] at hout ⊢
    have hend := (h.length_take_succ hout).2
    by_cases hlast : off / L + 1 < f.chunks.length
    · rw [h.length_take hlast, Nat.add_mul, Nat.one_mul] at hend
      exact Nat.le_of_lt (Nat.add_left_cancel hend ▸ Nat.mod_lt _ h.pos)
    · have hall : (f.contents Z).length ≤ off / L + 1 := h.inflated ▸ Nat.le_of_not_lt hlast
      rw [List.take_of_length_le hall] at hend
      have hle : off ≤ (f.text Z).length := Nat.le_trans (Nat.le_add_right _ _) hin
      rw [DzFile.text, hend] at hle
      exact Nat.le_of_add_le_add_left ((Nat.div_add_mod' off L).symm ▸ hle : off / L * L + off % L ≤ _)

/-- The text from inside chunk `c` on. -/
theorem drop_text {c pos : Nat} {out : Str} (hout : (f.contents Z)[c]? = some out) (hpos : pos ≤ out.length) :
    (f.text Z).drop (((f.contents Z).take c).flatten.length + pos) =
      out.drop pos ++ ((f.contents Z).drop (c + 1)).flatten := by
  obtain ⟨hc, rfl⟩ := List.getElem?_eq_some_iff.mp hout
  have hall : f.text Z = ((f.contents Z).take c).flatten ++
      ((f.contents Z)[c] ++ ((f.contents Z).drop (c + 1)).flatten) := by
    rw [← List.flatten_cons, ← List.drop_eq_getElem_cons hc, ← List.flatten_append, List.take_append_drop, text]
  rw [hall, ← List.drop_drop, List.drop_left, List.drop_append_of_le_length hpos]

end DzFile

namespace DzIstream

variable {Z : Zlib}

theorem seekg_not_raised (s : DzIstream) (off : Int) (e : Exn) : (s.seekg Z off).1 ≠ .error (.raised e) := by
  simp only [seekg]
  split
  · intro h
    cases h
  · split
    · intro h
      cases h
    · intro h
      cases h
    · next hne _ =>
      intro h
      cases h
      exact hne _ rfl

theorem read_not_raised (s : DzIstream) (n : Nat) (e : Exn) : (s.read Z n).1 ≠ .error (.raised e) := by
  simp only [read]
  split
  · intro h
    cases h
  · split
    · intro h
      cases h
    · intro h
      cases h
    · next hne _ =>
      intro h
      cases h
      exact hne _ rfl

/-- A stream keeps the exceptions of its buffer to itself. -/
theorem readAt_not_raised (s : DzIstream) (off : Int) (n : Nat) (e : Exn) :
    (s.readAt Z off n).1 ≠ .error (.raised e) := by
  have hseek := s.seekg_not_raised (Z := Z) off e
  unfold readAt
  split
  · next e' s' hs =>
    rw [hs] at hseek
    exact hseek
  · next s' hs => exact s'.read_not_raised n e

/-- The stream as its constructor leaves it. -/
def fresh (f : DzFile) : DzIstream := ⟨.ofFile f, false, false, false⟩

theorem live_fresh (f : DzFile) : Live Z f .fresh (fresh f) :=
  ⟨rfl, rfl, DzIstreamBuf.sound_ofFile f, DzIstreamBuf.stands_ofFile f⟩

theorem ofFile_curChunk_ne (f : DzFile) (n : Nat) : (DzIstreamBuf.ofFile f).curChunk ≠ n := by
  have := Int.natCast_nonneg n
  simp only [DzIstreamBuf.ofFile]
  omega

section Fresh

variable {f : DzFile} {off : Nat}

/-- Without a chunk length a seek divides by nothing, or by what happens to
be in memory. -/
theorem readAt_without_chunkLen (h : ¬ 0 < f.bufferLen) (off : Int) (n : Nat) :
    ((fresh f).readAt Z off n).1 = .error .undefined := by
  have hundef : f.slice Z .fresh off n = .undefined := by
    rcases hlen : f.chunkLen with _ | _ | L
    · simp only [DzFile.slice, hlen]
    · simp only [DzFile.slice, hlen]
    · rw [DzFile.bufferLen, hlen] at h
      exact absurd (Nat.succ_pos L) h
  have hread := (live_fresh f).readAt (Z := Z) off n
  rwa [hundef] at hread

variable (hopen : ∃ fuel bytes, DzFile.openFile fuel bytes = .ok f) (hL : 0 < f.bufferLen)
  (hle : off ≤ (f.text Z).length)

include hL

theorem chunkLen_eq : f.chunkLen = some f.bufferLen := by
  unfold DzFile.bufferLen at hL ⊢
  cases hlen : f.chunkLen with
  | none => rw [hlen] at hL; exact absurd hL (Nat.lt_irrefl 0)
  | some L => rfl

include hopen hle

/-- The divisions of a seek into the text are not cut off. -/
theorem seek_divisions :
    int32 (sizeT (off : Int) / f.bufferLen : Nat) = (off / f.bufferLen : Nat) ∧
      int32 (sizeT (off : Int) % f.bufferLen : Nat) = (off % f.bufferLen : Nat) := by
  have htext := DzFile.length_text_lt_of_opened (Z := Z) hopen
  obtain ⟨fuel, bytes, hopen⟩ := hopen
  obtain ⟨hfew, hL'⟩ := DzFile.openFile_few hopen
  have hbuffer := hL' _ (chunkLen_eq hL)
  have hq : off / f.bufferLen ≤ (f.contents Z).length :=
    Nat.le_trans (Nat.div_le_div_right (Nat.le_trans hle f.length_text_le))
      (Nat.le_of_eq (Nat.mul_div_cancel _ hL))
  have hcount := f.length_contents_le (Z := Z)
  have hmod : off % f.bufferLen < f.bufferLen := Nat.mod_lt _ hL
  have hq' : off / f.bufferLen < 2 ^ 31 := by omega
  have hmod' : off % f.bufferLen < 2 ^ 31 := by omega
  rw [sizeT_of_lt (by omega)]
  exact ⟨int32_of_lt (Int.natCast_nonneg _) (by exact_mod_cast hq'),
    int32_of_lt (Int.natCast_nonneg _) (by exact_mod_cast hmod')⟩

/-- A chunk number past the table. -/
theorem readAt_past_table (hge : f.chunks.length ≤ off / f.bufferLen) (n : Nat) :
    ((fresh f).readAt Z off n).1 = .error .undefined := by
  obtain ⟨hc, hpos⟩ := seek_divisions hopen hL hle
  refine @Live.readAt_undefined Z f _ _ (live_fresh f) _ (.ofFile f) ?_ n
  have hneg : ¬ (off : Int) < 0 := by omega
  have hread : (DzIstreamBuf.ofFile f).readChunk Z (off / f.bufferLen : Nat) = (.error .undefined, .ofFile f) := by
    rw [DzIstreamBuf.readChunk, if_neg (ofFile_curChunk_ne f _).symm, if_pos (Int.natCast_nonneg _), Int.toNat_natCast]
    simp only [DzIstreamBuf.ofFile, List.getElem?_eq_none hge]
  exact DzIstreamBuf.seekoff_error (chunkLen_eq hL) (Nat.ne_of_gt hL) (Int.not_lt.mp hneg) (hc ▸ hread)

/-- The seek to a chunk that can be loaded. -/
theorem seekg_inside {out : Str} (hload : f.load Z (off / f.bufferLen) = some out) :
    ∃ s, (fresh f).seekg Z off = (.ok (), s) ∧ Live Z f (.loaded (out.headD 0)) s ∧ s.buf.Loaded Z (off / f.bufferLen) out ∧
      s.buf.gptr = off % f.bufferLen ∧ s.buf.buffer = DzIstreamBuf.overwrite (List.replicate f.bufferLen 0) out := by
  obtain ⟨hc, hpos⟩ := seek_divisions hopen hL hle
  obtain ⟨b, hseek, hf, hs, hl, hg, hsame, hbuf⟩ := DzIstreamBuf.seekoff_some (DzIstreamBuf.sound_ofFile (Z := Z) f)
    (chunkLen_eq hL) (Nat.ne_of_gt hL) (Int.natCast_nonneg off) hc hload
  obtain ⟨s, hsg, hlive, rfl⟩ := (live_fresh f).seekg_ok hseek (Int.natCast_nonneg off) hf hs
    ((live_fresh f).stands_loaded hL hl hsame hbuf)
  have hg' : s.buf.gptr = (int32 (sizeT (off : Int) % f.bufferLen : Nat)).toNat := hg
  rw [hpos, Int.toNat_natCast] at hg'
  exact ⟨s, hsg, hlive, hl, hg', hbuf (ofFile_curChunk_ne f _)⟩

/-- Nothing is read, wherever the seek goes in the table. -/
theorem readAt_nothing (hlt : off / f.bufferLen < f.chunks.length) :
    ∃ s, (fresh f).readAt Z off 0 = (.ok (), [], s) := by
  cases hload : f.load Z (off / f.bufferLen) with
  | some out =>
    obtain ⟨s, hs, hlive, -⟩ := seekg_inside hopen hL hle hload
    obtain ⟨s', hr⟩ := hlive.read_ok (n := 0) DzIstreamBuf.xsgetn_zero
    exact ⟨s', by rw [readAt, hs]; exact hr⟩
  | none =>
    obtain ⟨hc, -⟩ := seek_divisions hopen hL hle
    obtain ⟨e, b, hseek, -⟩ := DzIstreamBuf.seekoff_none (DzIstreamBuf.sound_ofFile (Z := Z) f) (chunkLen_eq hL)
      (Nat.ne_of_gt hL) (Int.natCast_nonneg off) hc hlt hload
    obtain ⟨s, hs, hdead⟩ := (live_fresh (Z := Z) f).seekg_fails (.inr ⟨e, b, hseek⟩)
    obtain ⟨s', hr, -⟩ := hdead.read (Z := Z) 0
    exact ⟨s', by rw [readAt, hs]; exact hr⟩

/-- An offset past what the chunk inflates to. -/
theorem readAt_past_chunk {out : Str} (hload : f.load Z (off / f.bufferLen) = some out)
    (hlt : out.length < off % f.bufferLen) {n : Nat} (hn : n ≠ 0) :
    ((fresh f).readAt Z off n).1 = .error .undefined := by
  obtain ⟨s, hs, hlive, hl, hg, -⟩ := seekg_inside hopen hL hle hload
  rw [readAt, hs]
  exact hlive.read_undefined (by rw [DzIstreamBuf.xsgetn_past (by rw [hg, hl.egptr]; exact hlt) hn])

/-- What is read from inside a chunk, where the text has all of it and no
0xFF. -/
theorem readAt_landing (hff : 0xFF ∉ f.text Z) {out : Str} (hout : (f.contents Z)[off / f.bufferLen]? = some out)
    (hin : off % f.bufferLen ≤ out.length) {n : Nat} (hn : f.landing Z off + n ≤ (f.text Z).length) :
    if n < 2 ^ 31 then ∃ s, (fresh f).readAt Z off n = (.ok (), ((f.text Z).drop (f.landing Z off)).take n, s)
    else ((fresh f).readAt Z off n).1 = .error .undefined := by
  obtain ⟨hc, rfl⟩ := List.getElem?_eq_some_iff.mp hout
  have hload : f.load Z (off / f.bufferLen) = some (f.contents Z)[off / f.bufferLen] := by
    rw [← hout, DzFile.getElem?_contents (Nat.le_of_lt hc)]
  obtain ⟨s, hs, hlive, hl, hg, hbuf⟩ := seekg_inside hopen hL hle hload
  have hat : DzIstreamBuf.At Z s.buf (off / f.bufferLen) ((f.contents Z)[off / f.bufferLen].drop (off % f.bufferLen)) :=
    ⟨hlive.sound, _, hl, by rw [hg], by rw [hg]; exact hin⟩
  -- No 0xFF is in the buffer: it held zeros, and now a chunk.
  obtain ⟨first, hfirst⟩ := hlive.sound.first (by rw [hlive.file_eq]; exact hL)
  have hclean : first ≠ 0xFF := by
    intro hx
    have hmem := List.mem_of_head? hfirst
    rw [hbuf, DzIstreamBuf.overwrite, List.mem_append] at hmem
    rcases hmem with hmem | hmem
    · exact hff (List.mem_flatten.mpr ⟨_, List.getElem_mem hc, hx ▸ hmem⟩)
    · have := List.eq_of_mem_replicate (List.mem_of_mem_drop hmem)
      rw [hx] at this
      cases this
  have hscan := DzIstreamBuf.xsgetn_scans hat.left hfirst n
  have hrest : 0xFF ∉ ((f.contents Z).drop (off / f.bufferLen + 1)).flatten := by
    intro hmem
    obtain ⟨o, ho, hmem⟩ := List.mem_flatten.mp hmem
    exact hff (List.mem_flatten.mpr ⟨o, List.mem_of_mem_drop ho, hmem⟩)
  rw [hlive.file_eq, DzFile.entered_rest (DzFile.chunkCount_of_opened hopen) (Nat.succ_le_of_lt hc),
    DzFile.entered_clean _ _ hclean hrest, ← DzFile.drop_text hout hin] at hscan
  rw [← DzFile.landing, DzIstreamBuf.Scans, List.nil_append] at hscan
  have hlen : (((f.text Z).drop (f.landing Z off)).take n).length = n := by
    rw [List.length_take, List.length_drop]
    omega
  rw [hlen] at hscan
  split
  · next hlt =>
    rw [if_pos hlt] at hscan
    rcases hscan with ⟨b', hr, -⟩ | ⟨e, b', -, -, hshort, -⟩
    · obtain ⟨s', hr'⟩ := hlive.read_ok hr
      exact ⟨s', by rw [readAt, hs]; exact hr'⟩
    · rw [List.length_drop] at hshort
      omega
  · next hlt =>
    rw [if_neg hlt] at hscan
    obtain ⟨dest, b', hr⟩ := hscan
    rw [readAt, hs]
    exact hlive.read_undefined (by rw [hr])

end Fresh

end DzIstream

namespace CompactCorpusReaderPrivate

variable {Z : Zlib}

/-- A reader that `open` returned: a stream on a file that was opened. -/
theorem openFile_fresh {fuel : Nat} {data index : Str} {r : CompactCorpusReaderPrivate}
    (h : openFile fuel data index = .ok r) :
    r.dataStream = .fresh r.file ∧ ∃ fuel bytes, DzFile.openFile fuel bytes = .ok r.file := by
  simp only [openFile, DzIstream.openFile, DzIstreamBuf.openFile, bind_ok_iff] at h
  obtain ⟨s, ⟨b, ⟨f, hf, hb⟩, hs⟩, h⟩ := h
  cases hb
  cases hs
  have hd : r.dataStream = .fresh f := readIndices_dataStream _ h
  have hfile : r.file = f := by rw [file, hd]; rfl
  rw [hfile]
  exact ⟨hd, fuel, data, hf⟩

/-- What `readEntry` of an entry is to do: return the bytes at its place in
the data, all of them, or throw. -/
def ReturnsBytes (Z : Zlib) (r : CompactCorpusReaderPrivate) (filename : Str) (item : IndexItem) : Prop :=
  (∃ e, (r.readEntry Z filename).1 = .error (.raised e)) ∨
    item.offset.toNat + item.size.toNat ≤ (r.file.text Z).length ∧
      (r.readEntry Z filename).1 = .ok (((r.file.text Z).drop item.offset.toNat).take item.size.toNat)

/-- `readEntry` after its checks: the bytes that were read, padded. -/
theorem readEntry_unrefused {r : CompactCorpusReaderPrivate} {filename : Str} {item : IndexItem}
    (hitem : r.find filename = some item) (hsize : item.size.toNat ≤ ptrdiffMax) :
    (r.readEntry Z filename).1 =
      ((r.dataStream.readAt Z (int64 item.offset.toNat) item.size.toNat).1.map fun () =>
        (r.dataStream.readAt Z (int64 item.offset.toNat) item.size.toNat).2.1 ++ List.replicate (item.size.toNat -
          (r.dataStream.readAt Z (int64 item.offset.toNat) item.size.toNat).2.1.length) 0) := by
  simp only [readEntry, hitem, if_neg (Nat.not_lt.mpr hsize)]
  rcases r.dataStream.readAt Z (int64 item.offset.toNat) item.size.toNat with ⟨o, dest, s⟩
  cases o <;> rfl

/-- The stream throws nothing. -/
theorem readEntry_not_raised {r : CompactCorpusReaderPrivate} {filename : Str} {item : IndexItem}
    (hitem : r.find filename = some item) (hsize : item.size.toNat ≤ ptrdiffMax) :
    ¬∃ e, (r.readEntry Z filename).1 = .error (.raised e) := by
  rintro ⟨e, he⟩
  have hnot := r.dataStream.readAt_not_raised (Z := Z) (int64 item.offset.toNat) item.size.toNat e
  rw [readEntry_unrefused hitem hsize] at he
  cases ho : (r.dataStream.readAt Z (int64 item.offset.toNat) item.size.toNat).1 with
  | ok u => rw [ho] at he; cases he
  | error e' => rw [ho] at he hnot; cases he; exact hnot rfl

/-- **When the first read of an entry returns its bytes or throws**: when
no vector has its size, or when it lies in the data. -/
theorem first_read_iff {fuel : Nat} {data index : Str} {r : CompactCorpusReaderPrivate}
    (hopen : openFile fuel data index = .ok r) (hff : 0xFF ∉ r.file.text Z) {filename : Str} {item : IndexItem}
    (hitem : r.find filename = some item) :
    r.ReturnsBytes Z filename item ↔
      ptrdiffMax < item.size.toNat ∨ r.file.Lies Z item.offset.toNat item.size.toNat := by
  obtain ⟨hfresh, hfile⟩ := openFile_fresh hopen
  by_cases hsize : ptrdiffMax < item.size.toNat
  · refine iff_of_true (.inl ⟨.lengthError, ?_⟩) (.inl hsize)
    simp only [readEntry, hitem, if_pos hsize, raise]
  have hread := readEntry_unrefused (Z := Z) hitem (Nat.le_of_not_lt hsize)
  rw [ReturnsBytes, or_iff_right (readEntry_not_raised hitem (Nat.le_of_not_lt hsize)), or_iff_right hsize]
  by_cases hin : item.offset.toNat + item.size.toNat ≤ (r.file.text Z).length
  swap
  · exact iff_of_false (fun h => hin h.1) fun h => hin h.inside
  rw [and_iff_right hin]
  have hle : item.offset.toNat ≤ (r.file.text Z).length := Nat.le_trans (Nat.le_add_right _ _) hin
  have htext := DzFile.length_text_lt_of_opened (Z := Z) hfile
  rw [hfresh, int64_of_lt (Int.natCast_nonneg _) (by omega)] at hread
  have hundef : ∀ {o : Outcome Unit × Str × DzIstream}, o.1 = .error .undefined →
      ∀ {g : Unit → Str} {xs : Str}, o.1.map g ≠ .ok xs := by
    intro o ho g xs
    rw [ho]
    intro h
    cases h
  rw [hread]
  by_cases hL : 0 < r.file.bufferLen
  swap
  · exact iff_of_false (hundef (DzIstream.readAt_without_chunkLen hL _ _)) fun h => hL h.chunkLen
  by_cases hlt : item.offset.toNat / r.file.bufferLen < r.file.chunks.length
  swap
  · exact iff_of_false (hundef (DzIstream.readAt_past_table hfile hL hle (Nat.le_of_not_lt hlt) _))
      fun h => hlt h.chunk
  by_cases hzero : item.size.toNat = 0
  · obtain ⟨s, hs⟩ := DzIstream.readAt_nothing hfile hL hle hlt
    rw [hzero, hs]
    exact iff_of_true rfl ⟨by omega, hL, hlt, by decide, fun h => absurd h (Nat.lt_irrefl 0)⟩
  -- The chunk that the entry starts in can be loaded.
  have hc : item.offset.toNat / r.file.bufferLen < (r.file.contents Z).length := by
    rw [Nat.div_lt_iff_lt_mul hL]
    have := r.file.length_text_le (Z := Z)
    omega
  have hout := List.getElem?_eq_getElem hc
  by_cases hpos : item.offset.toNat % r.file.bufferLen ≤
      (r.file.contents Z)[item.offset.toNat / r.file.bufferLen].length
  swap
  · have hload := (DzFile.getElem?_contents (Nat.le_of_lt hc)).symm.trans hout
    refine iff_of_false (hundef (DzIstream.readAt_past_chunk hfile hL hle hload (Nat.lt_of_not_le hpos) hzero)) ?_
    exact fun h => hpos ((h.found (Nat.pos_of_ne_zero hzero)).1 _ hout)
  have hland := r.file.landing_le (Z := Z) item.offset.toNat
  have hfound := DzIstream.readAt_landing hfile hL hle hff hout hpos (n := item.size.toNat) (by omega)
  split at hfound
  · next hn =>
    obtain ⟨s, hs⟩ := hfound
    rw [hs]
    have hlen : (((r.file.text Z).drop (r.file.landing Z item.offset.toNat)).take item.size.toNat).length =
        item.size.toNat := by
      rw [List.length_take, List.length_drop]
      omega
    simp only [Except.map, hlen, Nat.sub_self, List.replicate_zero, List.append_nil, Except.ok.injEq]
    constructor
    · intro h
      refine ⟨hin, hL, hlt, hn, fun _ => ⟨fun out ho => ?_, h⟩⟩
      rw [hout, Option.some.injEq] at ho
      exact ho ▸ hpos
    · intro h
      exact (h.found (Nat.pos_of_ne_zero hzero)).2
  · next hn =>
    exact iff_of_false (hundef hfound) fun h => hn h.count

/-! ## An entry that ends past the data -/

/-- The content of the sample, the entry that ends one past it, and the
one before. -/
theorem sample_first_reads :
    (do let r ← openFile 1 sampleDz sampleIndex
        .ok (r.file.text sampleZlib, r.find (str "1.xml"), r.find (str "2.xml"),
          (r.readEntry sampleZlib (str "2.xml")).1) : Outcome _) =
      .ok (sampleText, some ⟨str "1.xml", 0, 4⟩, some ⟨str "2.xml", 4, 5⟩, .ok (str "<b/>" ++ [0])) := by
  decide +kernel

theorem sample_first_read :
    ∃ r, openFile 1 sampleDz sampleIndex = .ok r ∧
      (r.ReturnsBytes sampleZlib (str "1.xml") ⟨str "1.xml", 0, 4⟩ ↔
        ptrdiffMax < (4 : UInt64).toNat ∨ r.file.Lies sampleZlib (0 : UInt64).toNat (4 : UInt64).toNat) := by
  obtain ⟨r, hopen, hr⟩ := bind_ok_iff.mp sample_first_reads
  simp only [Except.ok.injEq, Prod.mk.injEq] at hr
  exact ⟨r, hopen, first_read_iff hopen (by rw [hr.1]; decide) hr.2.1⟩

/-- The first read of `2.xml` returns a byte that the data do not have. -/
theorem short_read_padded :
    ¬ ∀ (fuel : Nat) (data index : Str) (r : CompactCorpusReaderPrivate), openFile fuel data index = .ok r →
      0xFF ∉ r.file.text sampleZlib → ∀ (e : Str) (item : IndexItem), r.find e = some item →
        r.ReturnsBytes sampleZlib e item := by
  intro h
  obtain ⟨r, hopen, hr⟩ := bind_ok_iff.mp sample_first_reads
  simp only [Except.ok.injEq, Prod.mk.injEq] at hr
  obtain ⟨htext, -, hitem, hread⟩ := hr
  rcases h 1 sampleDz sampleIndex r hopen (by rw [htext]; decide) _ _ hitem with ⟨e, he⟩ | ⟨hin, -⟩
  · rw [hread] at he
    cases he
  · rw [htext] at hin
    exact absurd hin (by decide)

end CompactCorpusReaderPrivate

end AlpinoCorpus
