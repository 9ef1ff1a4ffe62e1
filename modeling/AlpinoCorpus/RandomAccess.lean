/-
Random access to a dictzip file: the buffer against a cursor on the text.

A `TextBuf` is what `DzIstreamBuf` is to look like: the same calls, on the
text as it was before it was compressed. Step by step they return the same
(`Shows.call`), so a run of the buffer is a run of the cursor as long as no
seek goes past the end of the text, or to the end where the last chunk is
full. `random_access` puts a written file under it.
-/
import AlpinoCorpus.CompactRoundTrip
import AlpinoCorpus.DzSeeking
import AlpinoCorpus.DzWrites
import AlpinoCorpus.Archives
import AlpinoCorpus.Lib.Cursor

namespace AlpinoCorpus

open Pieces

/-! ## The text itself -/

abbrev TextBuf := Cursor UInt8

namespace TextBuf

open DzIstreamBuf (Call SeekDir)

def ofText (text : Str) : TextBuf := Cursor.start text

/-- Where a seek is to go. There is none from the end. -/
def target (t : TextBuf) (off : Int) : SeekDir → Int
  | .beg => off
  | .cur => t.pos + off
  | .end_ => -1

/-- What a call returns and what it copies. A seek that fails returns -1. -/
def call (t : TextBuf) : Call → (Int × Str) × TextBuf
  | .seekoff off dir =>
    match t.seek (t.target off.toInt dir) with
    | some t' => ((t.target off.toInt dir, []), t')
    | none => ((-1, []), t)
  | .xsgetn n => (((t.read n).1.length, (t.read n).1), (t.read n).2)

def results : TextBuf → List Call → List (Int × Str)
  | _, [] => []
  | t, c :: cs => (t.call c).1 :: results (t.call c).2 cs

/-- A seek to before the text, into it, or to its end if the last chunk has
room left. -/
def Reachable (L : Nat) (t : TextBuf) : Call → Prop
  | .seekoff off dir =>
    t.target off.toInt dir < t.items.length ∨
      t.target off.toInt dir = t.items.length ∧ (t.items = [] ∨ ¬ L ∣ t.items.length)
  | .xsgetn _ => True

/-- Of every call of a run. -/
def AllReachable (L : Nat) : TextBuf → List Call → Prop
  | _, [] => True
  | t, c :: cs => t.Reachable L c ∧ AllReachable L (t.call c).2 cs

theorem call_before {t : TextBuf} {off : Int64} {dir : SeekDir} (h : t.target off.toInt dir < 0) :
    t.call (.seekoff off dir) = ((-1, []), t) := by
  simp only [call, Cursor.seek_before h]

theorem call_inside {t : TextBuf} {off : Int64} {dir : SeekDir} {n : Nat} (hn : t.target off.toInt dir = n)
    (h : n ≤ t.items.length) : t.call (.seekoff off dir) = (((n : Int), []), ⟨t.items, n, h⟩) := by
  simp only [call, hn, Cursor.seek_inside h]

theorem call_past {t : TextBuf} {off : Int64} {dir : SeekDir} (h : t.items.length < t.target off.toInt dir) :
    t.call (.seekoff off dir) = ((-1, []), t) := by
  simp only [call, Cursor.seek_past h]

end TextBuf

namespace DzFile

variable {Z : Zlib}

/-- The chunks of a file, when they are known one by one. -/
theorem contentsFrom_eq {f : DzFile} : ∀ (outs : List Str) (n : Nat), (∀ i < outs.length, f.load Z (n + i) = outs[i]?) →
    f.contentsFrom Z outs.length n = outs
  | [], _, _ => rfl
  | out :: outs, n, h => by
    have hfirst : f.load Z n = some out := h 0 (Nat.succ_pos _)
    have hrest := contentsFrom_eq outs (n + 1) fun i hi => by
      rw [Nat.add_assoc, Nat.add_comm 1 i]
      exact h (i + 1) (Nat.succ_lt_succ hi)
    rw [List.length_cons, contentsFrom, hfirst, hrest]

theorem Holds.contents {file : DzFile} {text : Str} (h : Holds Z file text) :
    file.contents Z = pieces dzPrefUncompressedSize text := by
  rw [DzFile.contents, h.length]
  refine contentsFrom_eq _ 0 fun i hi => ?_
  rw [Nat.zero_add]
  exact h.load i (h.length ▸ hi)

/-- A written file is a dictzip file. -/
theorem Holds.dictzip {file : DzFile} {text : Str} (h : Holds Z file text)
    (hopen : ∃ fuel bytes, openFile fuel bytes = .ok file) : file.Dictzip Z dzPrefUncompressedSize where
  opened := hopen
  chunkLen := h.chunkLen
  pos := by decide
  chunks := by
    rw [h.length]
    exact (lt_length_pieces_iff (by decide)).mpr (.inr rfl)
  inflated := by rw [h.contents, h.length]
  full := by
    rw [h.contents]
    exact fun out => length_of_mem_dropLast_pieces

end DzFile

namespace DzIstreamBuf

variable {Z : Zlib}

/-- What the calls of a run return and what they copy. -/
def results (Z : Zlib) : DzIstreamBuf → List Call → List (Outcome Int × Str)
  | _, [] => []
  | b, c :: cs => ((b.call Z c).1, (b.call Z c).2.1) :: results Z (b.call Z c).2.2 cs

/-- A dictzip file of the pieces of its text, none of which begins with the
byte that is taken for the end. -/
structure Stores (Z : Zlib) (file : DzFile) (L : Nat) : Prop where
  dictzip : file.Dictzip Z L
  contents : file.contents Z = pieces L (file.text Z)
  noEof : ∀ out ∈ file.contents Z, out.head? ≠ some 0xFF
  short : (file.text Z).length < 2 ^ 31

/-- The buffer shows the text from where the cursor is. -/
structure Shows (Z : Zlib) (file : DzFile) (b : DzIstreamBuf) (t : TextBuf) : Prop where
  file_eq : b.file = file
  items : t.items = file.text Z
  seated : Seated Z b t.pos

variable {file : DzFile} {L : Nat} {b : DzIstreamBuf} {t : TextBuf}

theorem shows_ofFile (file : DzFile) : Shows Z file (ofFile file) (.ofText (file.text Z)) :=
  ⟨rfl, rfl, seated_ofFile file⟩

/-- All that is left can be read. -/
theorem Shows.readable (hs : Stores Z file L) (h : Shows Z file b t) : b.readable Z = t.rest := by
  obtain ⟨k, cur, pre, hl, -, ht, hp⟩ := h.seated.place
  have hall : ∀ out ∈ (b.file.contents Z).drop k, decide (out.head? ≠ some 0xFF) = true := by
    intro out hout
    rw [h.file_eq] at hout
    exact decide_eq_true (hs.noEof out (List.mem_of_mem_drop hout))
  rw [hl.readable, List.takeWhile_eq_self_iff.mpr hall, ← Seated.text ht hp, Cursor.rest, h.items, h.file_eq]

/-- Where the buffer sends a seek. -/
theorem Shows.target (hs : Stores Z file L) (h : Shows Z file b t) (off : Int) (dir : SeekDir) :
    b.target off dir = t.target off dir := by
  cases dir with
  | beg => rfl
  | cur => rw [DzIstreamBuf.target, h.seated.position hs.dictzip h.file_eq, TextBuf.target]
  | end_ => rfl

/-- The target that a seek computes, if it can. -/
theorem Shows.of_targetPos (hs : Stores Z file L) (h : Shows Z file b t) {off target : Int} {dir : SeekDir}
    (ht : b.targetPos L off dir = .ok target) : target = t.target off dir := by
  cases dir with
  | beg => exact (Except.ok.inj ht).symm
  | cur =>
    have hle := h.seated.le
    have hlt := hs.dictzip.length_text_lt
    have hpos : b.curChunk * L + b.gptr = (t.pos : Int) := by
      rw [← hs.dictzip.bufferLen, ← h.file_eq]
      exact h.seated.position hs.dictzip h.file_eq
    rw [h.file_eq] at hle
    simp only [DzIstreamBuf.targetPos, hpos, sizeT_of_lt (show t.pos < 2 ^ 64 by omega),
      int64_of_lt (Int.natCast_nonneg t.pos) (by omega)] at ht
    split at ht
    · exact (Except.ok.inj ht).symm
    · cases ht
  | end_ => exact (Except.ok.inj ht).symm

/-- A seek to a place after the start of the text returns that, if it
returns. -/
theorem Shows.of_seekoff (hs : Stores Z file L) (h : Shows Z file b t) {off r : Int} {dir : SeekDir}
    (hr : (b.seekoff Z off dir).1 = .ok r) (hpos : 0 ≤ t.target off dir) : r = t.target off dir := by
  rcases seekoff_cases hs.dictzip (h.file_eq ▸ h.seated.kept) off dir with
    ⟨b', hb⟩ | ⟨-, rfl | ⟨t', ht', hneg⟩⟩ | ⟨t', b', hb, ht', -, -⟩
  · rw [hb] at hr
    cases hr
  · cases hpos
  · rw [h.of_targetPos hs ht'] at hneg
    omega
  · rw [hb, Except.ok.injEq] at hr
    rw [← hr, h.of_targetPos hs ht']

/-- A place in the text has a chunk, and so has the end if the last chunk
is not full. -/
theorem div_lt_chunks_iff (hs : Stores Z file L) {n : Nat} (hle : n ≤ (file.text Z).length) :
    n / L < file.chunks.length ↔
      n < (file.text Z).length ∨ n = (file.text Z).length ∧ (file.text Z = [] ∨ ¬ L ∣ (file.text Z).length) := by
  have hL := hs.dictzip.pos
  rw [← hs.dictzip.inflated, hs.contents, lt_length_pieces_iff hL, Nat.div_eq_zero_iff_lt hL]
  have hfloor := Nat.div_mul_le_self n L
  rcases Nat.lt_or_eq_of_le hle with hlt | rfl
  · exact iff_of_true (.inl (Nat.lt_of_le_of_lt hfloor hlt)) (.inl hlt)
  · have hdvd : (file.text Z).length / L * L < (file.text Z).length ↔ ¬ L ∣ (file.text Z).length := by
      rw [Nat.dvd_iff_div_mul_eq]
      omega
    rw [hdvd, ← List.length_eq_zero_iff]
    constructor
    · rintro (hno | hlt)
      · exact .inr ⟨rfl, .inr hno⟩
      · rw [← hdvd, Nat.div_eq_of_lt hlt]
        omega
    · rintro (hlt | ⟨-, h0 | hno⟩)
      · exact absurd hlt (Nat.lt_irrefl _)
      · exact .inr (h0 ▸ hL)
      · exact .inl hno

/-- A seek that is in reach. -/
theorem Shows.seekoff (hs : Stores Z file L) (h : Shows Z file b t) {off : Int64} {dir : SeekDir}
    (hreach : t.Reachable L (.seekoff off dir)) :
    ∃ b', b.call Z (.seekoff off dir) =
      (.ok (t.call (.seekoff off dir)).1.1, (t.call (.seekoff off dir)).1.2, b') ∧
        Shows Z file b' (t.call (.seekoff off dir)).2 := by
  have hd := hs.dictzip
  have ht := h.target hs off.toInt dir
  by_cases hneg : t.target off.toInt dir < 0
  · have hsafe : CallSafe Z b (.seekoff off dir) := .inl (ht.symm ▸ hneg)
    obtain ⟨⟨r, dest, b', hcall, -⟩, -⟩ := h.seated.call_safe hd h.file_eq hsafe
    rw [TextBuf.call_before hneg]
    rcases seekoff_cases hd (h.file_eq ▸ h.seated.kept) off.toInt dir with
      ⟨b₁, hb⟩ | ⟨hb, -⟩ | ⟨t', b₁, -, ht', hpos, -⟩
    · simp only [DzIstreamBuf.call, hb, Prod.mk.injEq, reduceCtorEq, false_and] at hcall
    · exact ⟨b, by simp only [DzIstreamBuf.call, hb], h⟩
    · rw [h.of_targetPos hs ht'] at hpos
      omega
  obtain ⟨n, hn⟩ := Int.eq_ofNat_of_zero_le (Int.not_lt.mp hneg)
  simp only [TextBuf.Reachable, hn, Int.ofNat_lt, Int.natCast_inj, h.items] at hreach
  have hle : n ≤ (file.text Z).length := hreach.elim Nat.le_of_lt fun h => Nat.le_of_eq h.1
  obtain ⟨b', hb, hf', hseat⟩ :=
    h.seated.seekoff_inside hd h.file_eq (ht.trans hn) hle ((div_lt_chunks_iff hs hle).mpr hreach)
  rw [TextBuf.call_inside hn (h.items.symm ▸ hle)]
  exact ⟨b', by simp only [DzIstreamBuf.call, hb], hf', h.items, hseat⟩

/-- A seek that is not: the cursor fails, or there is no chunk to go to. -/
theorem Shows.seekoff_ne (hs : Stores Z file L) (h : Shows Z file b t) {off : Int64} {dir : SeekDir}
    (hreach : ¬ t.Reachable L (.seekoff off dir)) :
    (b.call Z (.seekoff off dir)).1 ≠ .ok (t.call (.seekoff off dir)).1.1 := by
  have hd := hs.dictzip
  intro hr
  have hge : (t.items.length : Int) ≤ t.target off.toInt dir := Int.not_lt.mp fun hlt => hreach (.inl hlt)
  have hres := h.of_seekoff hs hr (by omega)
  rcases Int.lt_or_eq_of_le hge with hgt | heq
  · rw [TextBuf.call_past hgt] at hres
    simp only at hres
    omega
  · simp only [TextBuf.Reachable, ← heq, Int.lt_irrefl, false_or, true_and, h.items] at hreach
    have hdir : dir ≠ .end_ := by
      rintro rfl
      exact absurd heq (by simp only [TextBuf.target]; omega)
    have htarget : b.target off.toInt dir = ((file.text Z).length : Nat) := by
      rw [h.target hs, ← heq, h.items]
    have hlt := hd.length_text_lt
    have hpos := h.seated.targetPos hd h.file_eq off dir (by omega)
    rw [htarget] at hpos
    have hfull : file.chunks.length ≤ (file.text Z).length / L := by
      rw [← Nat.not_lt, div_lt_chunks_iff hs (Nat.le_refl _)]
      simp only [Nat.lt_irrefl, false_or, true_and]
      exact hreach
    have hpast := h.seated.seekoff_past hd h.file_eq hdir hpos (Nat.le_refl _) hfull
    simp only [DzIstreamBuf.call, hpast, reduceCtorEq] at hr

/-- **One call**, on the buffer and on the text. -/
theorem Shows.call (hs : Stores Z file L) (h : Shows Z file b t) {c : Call} (hreach : t.Reachable L c) :
    ∃ b', b.call Z c = (.ok (t.call c).1.1, (t.call c).1.2, b') ∧ Shows Z file b' (t.call c).2 := by
  cases c with
  | seekoff off dir => exact h.seekoff hs hreach
  | xsgetn n =>
    have hshort := hs.short
    have hread := h.seated.xsgetn hs.dictzip h.file_eq n
    have hlen := t.length_rest
    rw [h.readable hs, if_pos (by rw [h.items] at hlen; omega)] at hread
    obtain ⟨b', hr, hf', hseat⟩ := hread
    refine ⟨b', ?_, hf', h.items, hseat⟩
    simp only [DzIstreamBuf.call, hr]
    rfl

/-- **A run** returns what it does on the text, if and only if every seek is
in reach. -/
theorem Shows.results_iff (hs : Stores Z file L) : ∀ (cs : List Call) {b : DzIstreamBuf} {t : TextBuf},
    Shows Z file b t →
    (b.results Z cs = (t.results cs).map (fun r => (.ok r.1, r.2)) ↔ t.AllReachable L cs)
  | [], _, _, _ => iff_of_true rfl trivial
  | c :: cs, b, t, h => by
    simp only [results, TextBuf.results, List.map_cons, List.cons.injEq, Prod.mk.injEq, TextBuf.AllReachable]
    by_cases hreach : t.Reachable L c
    · obtain ⟨b', hcall, h'⟩ := h.call hs hreach
      rw [hcall]
      simp only [hreach, true_and, results_iff hs cs h']
    · refine iff_of_false (fun heq => ?_) fun hall => hreach hall.1
      cases c with
      | seekoff off dir => exact h.seekoff_ne hs hreach heq.1.1
      | xsgetn n => exact hreach trivial

end DzIstreamBuf

/-! ## A written file -/

namespace DzOstreamBuf

variable {Z : Zlib}

/-- **Random access to a written file.** However a text was split into
writes, the file opens, and reads and seeks in it are reads and seeks in the
text, as long as no seek goes past the end, or to the end where the last
chunk is full. -/
theorem random_access (ws : List Write) (hz : PutAreas Z (bytesOf ws))
    (hfew : (bytesOf ws).length ≤ 32762 * dzPrefUncompressedSize)
    (hff : ∀ i, (bytesOf ws)[i * dzPrefUncompressedSize]? ≠ some 0xFF) :
    ∃ w, (openFile Z).writes ws = (.ok (), w) ∧ ∀ secs fuel, 0 < fuel →
      ∃ b, DzIstreamBuf.openFile fuel (w.close secs) = .ok b ∧ ∀ cs,
        b.results Z cs = ((TextBuf.ofText (bytesOf ws)).results cs).map (fun r => (.ok r.1, r.2)) ↔
          (TextBuf.ofText (bytesOf ws)).AllReachable dzPrefUncompressedSize cs := by
  have hlt : (bytesOf ws).length < 2 ^ 31 := Nat.lt_of_le_of_lt hfew (by decide)
  obtain ⟨w, areas, hrun, hw, ht⟩ := writes_wrote ws wrote_openFile (hz.deflates) hlt
  have ht : w.text areas = bytesOf ws := ht
  refine ⟨w, hrun, fun secs fuel hfuel => ?_⟩
  obtain ⟨zs, rest, hclose, hinf, hzle⟩ := close_chunks hw (ht ▸ hz) secs
  rw [ht] at hinf
  have hzs : zs.length ≤ 32762 := by
    rw [hinf.length_eq]
    exact length_pieces_le (by decide) 32761 _ hfew
  have hsizes : ∀ s ∈ zs.map List.length, s < 65536 := by
    intro s hs
    obtain ⟨z, hzm, rfl⟩ := List.mem_map.mp hs
    exact Nat.lt_of_le_of_lt (hzle z hzm) (by decide)
  have hopen := DzFile.openFile_written secs (zs.flatten ++ rest) hfuel hsizes (by rwa [List.length_map])
  have hholds := DzFile.holds_archive (writeHeader secs ++ writeChunkInfo (zs.map List.length)) rest hinf hzle (by omega)
  generalize DzFile.mk _ _ _ _ = file at hopen hholds
  have htext : file.text Z = bytesOf ws := by rw [DzFile.text, hholds.contents, pieces_flatten]
  have hstores : DzIstreamBuf.Stores Z file dzPrefUncompressedSize := by
    refine ⟨hholds.dictzip ⟨_, _, hopen⟩, by rw [htext, hholds.contents], fun out hout => ?_, htext ▸ hlt⟩
    rw [hholds.contents] at hout
    obtain ⟨i, hi, rfl⟩ := List.getElem_of_mem hout
    have hpiece := getElem?_pieces (by decide) i (bytesOf ws) ((lt_length_pieces_iff (by decide)).mp hi)
    rw [List.getElem?_eq_getElem hi, Option.some.injEq] at hpiece
    rw [hpiece, List.head?_take, List.head?_drop, if_neg (by decide)]
    exact hff i
  refine ⟨.ofFile file, ?_, fun cs => ?_⟩
  · rw [hclose, DzIstreamBuf.openFile, hopen]
    rfl
  · rw [← htext]
    exact (DzIstreamBuf.shows_ofFile file).results_iff hstores cs

theorem sample_random_access :
    ∃ w, (openFile (Stored.zlib 0)).writes sampleWrites = (.ok (), w) ∧ ∀ secs fuel, 0 < fuel →
      ∃ b, DzIstreamBuf.openFile fuel (w.close secs) = .ok b ∧ ∀ cs,
        b.results (Stored.zlib 0) cs = ((TextBuf.ofText (bytesOf sampleWrites)).results cs).map (fun r => (.ok r.1, r.2)) ↔
          (TextBuf.ofText (bytesOf sampleWrites)).AllReachable dzPrefUncompressedSize cs :=
  random_access sampleWrites (Stored.putAreas (by decide)) (by decide) (by
    intro i h
    exact absurd (List.mem_of_getElem? h) (by decide))

end DzOstreamBuf

end AlpinoCorpus
