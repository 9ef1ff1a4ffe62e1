/-
Reading back a finished compact archive.

The data file inflates, chunk by chunk, to the pieces of the text, so a
slice of the stream is a slice of the text (`slice_archive`); the index
says which slice each entry is. `archive_round_trip` puts the two together
for any sequence of reads.
-/
import AlpinoCorpus.CompactWriter
import AlpinoCorpus.CompactReaderFacts
import AlpinoCorpus.DzFormat
import AlpinoCorpus.StoredZlib

namespace AlpinoCorpus

open Iteration Pieces

/-! ## The data -/

namespace DzFile

variable {Z : Zlib}

/-- A file whose chunks hold `text`. -/
structure Holds (Z : Zlib) (file : DzFile) (text : Str) : Prop where
  chunkLen : file.chunkLen = some dzPrefUncompressedSize
  load : ∀ i, i < file.chunks.length → file.load Z i = (pieces dzPrefUncompressedSize text)[i]?
  length : file.chunks.length = (pieces dzPrefUncompressedSize text).length
  few : file.chunks.length < 2 ^ 31

theorem Holds.chunkCount {file : DzFile} {text : Str} (h : Holds Z file text) :
    file.chunkCount = file.chunks.length := by
  have := h.few
  rw [DzFile.chunkCount, int32_of_lt (by omega) (by omega), Int.toNat_natCast]

theorem Holds.later {file : DzFile} {text : Str} (h : Holds Z file text) (n : Nat) :
    file.later Z n = ((pieces dzPrefUncompressedSize text).drop (n + 1)).map some := by
  refine List.ext_getElem? fun i => ?_
  rw [DzFile.later, h.chunkCount, List.getElem?_map, List.getElem?_map, List.getElem?_drop]
  by_cases hi : i < file.chunks.length - (n + 1)
  · rw [List.getElem?_range' hi, Nat.one_mul, Option.map_some, h.load _ (by omega),
      List.getElem?_eq_getElem (by rw [← h.length]; omega), Option.map_some]
  · rw [List.getElem?_eq_none (by simpa using hi), List.getElem?_eq_none (by rw [← h.length]; omega)]
    rfl

/-- Fetching through chunks that can all be loaded, are not empty and hold
no 0xFF. -/
theorem fetch_pieces : ∀ (ps : List Str) (st : Standing) (cur : Str) (n : Nat), (∀ p ∈ ps, p ≠ [] ∧ 0xFF ∉ p) →
    n ≤ (cur ++ ps.flatten).length → ∃ st', fetch (ps.map some) st cur n = .whole ((cur ++ ps.flatten).take n) st'
  | ps, st, cur, n, hps, hn => by
    by_cases hle : n ≤ cur.length
    · exact ⟨st, by rw [fetch_of_le hle, List.take_append_of_le_length hle]⟩
    · cases ps with
      | nil => simp only [List.flatten_nil, List.append_nil] at hn; exact absurd hn hle
      | cons p ps =>
        obtain ⟨hne, hff⟩ := hps p (by simp)
        obtain ⟨x, xs, rfl⟩ := List.exists_cons_of_ne_nil hne
        have hhead : x ≠ 0xFF := by
          rintro rfl
          exact hff (by simp)
        rw [List.flatten_cons, List.length_append] at hn
        obtain ⟨st', hfetch⟩ := fetch_pieces ps (.loaded x) (x :: xs) (n - cur.length) (fun q hq => hps q (by simp [hq]))
          (by omega)
        have htake : (cur ++ ((x :: xs) ++ ps.flatten)).take n = cur ++ ((x :: xs) ++ ps.flatten).take (n - cur.length) := by
          rw [List.take_append, List.take_of_length_le (Nat.le_of_not_le hle)]
        refine ⟨st', ?_⟩
        rw [List.map_cons, fetch_some (Nat.lt_of_not_le hle), List.headD_cons, if_neg hhead, hfetch, Slice.prepend,
          List.flatten_cons, htake]

/-- **A slice of the stream is a slice of the text.** -/
theorem slice_archive {file : DzFile} {text : Str} (h : Holds Z file text) (hff : 0xFF ∉ text)
    (hlt : text.length < 2 ^ 31) {off n : Nat} (hn : 0 < n) (hle : off + n ≤ text.length) (st : Standing) :
    ∃ st', file.slice Z st off n = .whole ((text.drop off).take n) st' := by
  have hL : 0 < dzPrefUncompressedSize := by decide
  obtain ⟨c, hc⟩ : ∃ c, c = off / dzPrefUncompressedSize := ⟨_, rfl⟩
  obtain ⟨pos, hpos⟩ : ∃ pos, pos = off % dzPrefUncompressedSize := ⟨_, rfl⟩
  have hdm : c * dzPrefUncompressedSize + pos = off := by
    rw [hc, hpos, Nat.mul_comm]; exact Nat.div_add_mod _ _
  have hpiece := getElem?_pieces hL c text (.inl (by omega))
  have hclt : c < file.chunks.length := by
    rw [h.length]
    exact (List.getElem?_eq_some_iff.mp hpiece).1
  have hplt : pos < dzPrefUncompressedSize := hpos ▸ Nat.mod_lt _ hL
  obtain ⟨piece, hp⟩ : ∃ piece, piece = (text.drop (c * dzPrefUncompressedSize)).take dzPrefUncompressedSize :=
    ⟨_, rfl⟩
  rw [← hp] at hpiece
  have hplen : pos ≤ piece.length := by rw [hp, List.length_take, List.length_drop]; omega
  -- What is left of the piece and the pieces after it are the text from `off` on.
  have hrest : piece.drop pos ++ ((pieces dzPrefUncompressedSize text).drop (c + 1)).flatten = text.drop off := by
    have hall := flatten_drop_pieces hL c text
    rw [List.drop_eq_getElem_cons (h.length ▸ hclt), List.flatten_cons,
      (List.getElem?_eq_some_iff.mp hpiece).2] at hall
    have hoff : text.drop off = (text.drop (c * dzPrefUncompressedSize)).drop pos := by rw [List.drop_drop, hdm]
    rw [hoff, ← hall, List.drop_append_of_le_length hplen]
  have htext : text ≠ [] := by rintro rfl; simp only [List.length_nil] at hle; omega
  obtain ⟨st', hfetch⟩ := fetch_pieces ((pieces dzPrefUncompressedSize text).drop (c + 1)) (.loaded (piece.headD st.first))
    (piece.drop pos) n
    (fun p hp => ⟨ne_nil_of_mem_pieces htext (List.mem_of_mem_drop hp),
      fun hx => hff (mem_of_mem_pieces (List.mem_of_mem_drop hp) hx)⟩)
    (by rw [hrest, List.length_drop]; omega)
  rw [hrest, ← h.later] at hfetch
  have hlen : ((text.drop off).take n).length < 2 ^ 31 := by rw [List.length_take, List.length_drop]; omega
  have hchunk : int32 (sizeT (off : Int) / dzPrefUncompressedSize : Nat) = c := by
    have := h.few
    rw [sizeT_of_lt (by omega), ← hc, int32_of_lt (by omega) (by omega)]
  have hchunkPos : int32 (sizeT (off : Int) % dzPrefUncompressedSize : Nat) = pos := by
    have : dzPrefUncompressedSize < 2 ^ 31 := by decide
    rw [sizeT_of_lt (by omega), ← hpos, int32_of_lt (by omega) (by omega)]
  refine ⟨st', ?_⟩
  rw [slice_inside Z h.chunkLen (Nat.ne_of_gt hL) (Int.natCast_nonneg off) hchunk hchunkPos
    ((h.load c hclt).trans hpiece) hplen, hfetch, bounded, if_pos hlen]

/-- The reader's file of a finished archive holds the text. -/
theorem holds_archive (header body : Str) {zs : List Str} {text : Str}
    (hz : List.Forall₂ (Inflates Z dzPrefUncompressedSize) zs (pieces dzPrefUncompressedSize text))
    (hzle : ∀ z ∈ zs, z.length ≤ dzPrefUncompressedSize) (hfew : zs.length < 2 ^ 31) :
    Holds Z ⟨header ++ (zs.flatten ++ body), some dzPrefUncompressedSize, header.length,
      chunkTable 0 (zs.map List.length)⟩ text := by
  have hlen : (chunkTable 0 (zs.map List.length)).length = zs.length := by
    simp [chunkTable, length_starts]
  refine ⟨rfl, fun i hi => ?_, hlen.trans hz.length_eq, hlen ▸ hfew⟩
  rw [hlen] at hi
  obtain ⟨z, hzi⟩ : ∃ z, zs[i]? = some z := ⟨_, List.getElem?_eq_getElem hi⟩
  obtain ⟨s, hs⟩ : ∃ s, (starts 0 (zs.map List.length))[i]? = some s :=
    ⟨_, List.getElem?_eq_getElem (by simpa [length_starts] using hi)⟩
  obtain ⟨piece, hpi⟩ : ∃ p, (pieces dzPrefUncompressedSize text)[i]? = some p :=
    ⟨_, List.getElem?_eq_getElem (hz.length_eq ▸ hi)⟩
  have hinf : Inflates Z dzPrefUncompressedSize z piece := by
    have h := (List.forall₂_iff_get.mp hz).2 i hi (hz.length_eq ▸ hi)
    simp only [List.get_eq_getElem] at h
    rwa [(List.getElem?_eq_some_iff.mp hzi).2, (List.getElem?_eq_some_iff.mp hpi).2] at h
  have hchunk : (chunkTable 0 (zs.map List.length))[i]? = some ⟨s, z.length⟩ := by
    rw [chunkTable, List.getElem?_zipWith, hs, List.getElem?_map, hzi]
    rfl
  have hslice : (((header ++ (zs.flatten ++ body)).drop (header.length + s)).take z.length) = z := by
    rw [← List.drop_drop, List.drop_left]
    exact (slice_flatten 0 i zs z s hzi hs).2
  have hzlen := hzle z (List.mem_of_getElem? hzi)
  have hmax : dzPrefUncompressedSize ≤ ptrdiffMax := by decide
  rw [hpi, load]
  simp only [hchunk, hslice, bufferLen, Option.getD_some]
  have hret : (Z.inflate z dzPrefUncompressedSize).ret ≠ .error := by
    rcases hinf.ret with h | h <;> rw [h] <;> decide
  simp only [hzlen.trans hmax, hinf.init, hret, hinf.ended, hinf.out, ne_eq, not_false_eq_true, and_self, if_true]

end DzFile

/-! ## The index -/

namespace CompactCorpusReaderPrivate

open CompactCorpusWriterPrivate

/-- The items of entries whose data start at `offset`. -/
def itemsOf : Nat → List (Str × Str) → List IndexItem
  | _, [] => []
  | offset, e :: es =>
    ⟨e.1, UInt64.ofNat offset, UInt64.ofNat e.2.length⟩ :: itemsOf (offset + e.2.length) es

theorem lines_append {l : Str} (hl : 10 ∉ l) (rest : Str) : lines (l ++ 10 :: rest) = l :: lines rest := by
  induction l with
  | nil => simp [lines]
  | cons c l ih =>
    simp only [List.mem_cons, not_or] at hl
    rw [List.cons_append, lines, if_neg (Ne.symm hl.1), ih hl.2]

theorem getline_append {delim : UInt8} {xs : Str} (hxs : delim ∉ xs) (rest : Str) :
    getline delim (xs ++ delim :: rest) = (xs, rest) := by
  have hne : ∀ c ∈ xs, decide (c ≠ delim) = true := fun c hc => by
    simp only [decide_eq_true_eq]; rintro rfl; exact hxs hc
  rw [getline, List.takeWhile_append_of_pos hne, List.dropWhile_append_of_pos hne]
  simp

theorem getline_all {delim : UInt8} {xs : Str} (hxs : delim ∉ xs) : getline delim xs = (xs, []) := by
  have hne : ∀ c ∈ xs, decide (c ≠ delim) = true := fun c hc => by
    simp only [decide_eq_true_eq]; rintro rfl; exact hxs hc
  have h₁ : xs.takeWhile (· ≠ delim) = xs := List.takeWhile_eq_self_iff.mpr hne
  have h₂ : xs.dropWhile (· ≠ delim) = [] := List.dropWhile_eq_nil_iff.mpr hne
  rw [getline, h₁, h₂, List.drop_nil]

/-- A line of the writer, without its newline. -/
theorem indexItem_line {name : Str} (hname : 9 ∉ name) (offset size : UInt64) :
    indexItem (name ++ str "\t" ++ b64Encode offset ++ str "\t" ++ b64Encode size) = .ok ⟨name, offset, size⟩ := by
  have htab : str "\t" = [9] := rfl
  have h₁ : (9 : UInt8) ∉ b64Encode offset := fun h => (b64Encode_clean offset 9 h).1 rfl
  have h₂ : (10 : UInt8) ∉ b64Encode size := fun h => (b64Encode_clean size 10 h).2 rfl
  simp only [htab, List.append_assoc, List.cons_append, List.nil_append]
  simp only [indexItem, getline_append hname, getline_append h₁, getline_all h₂, b64Decode_encode, bind, Except.bind]

theorem readIndices_written : ∀ (entries : List (Str × Str)) (offset : Nat) (r : CompactCorpusReaderPrivate),
    (∀ e ∈ entries, 9 ∉ e.1 ∧ 10 ∉ e.1) →
    r.readIndices (lines (indexOf offset entries)) =
      .ok { r with indices := r.indices ++ itemsOf offset entries
                   namedIndices := ((itemsOf offset entries).map fun i => (i.name, i)).reverse ++ r.namedIndices }
  | [], offset, r, _ => by simp [indexOf, lines, readIndices, itemsOf]
  | e :: es, offset, r, h => by
    obtain ⟨h9, h10⟩ := h e (by simp)
    have hline : indexLine e.1 (UInt64.ofNat offset) (UInt64.ofNat e.2.length) =
        e.1 ++ str "\t" ++ b64Encode (UInt64.ofNat offset) ++ str "\t" ++ b64Encode (UInt64.ofNat e.2.length) ++
          [10] := rfl
    have hclean : ∀ v, (10 : UInt8) ∉ b64Encode v := fun v hv => (b64Encode_clean v 10 hv).2 rfl
    have hnl : (10 : UInt8) ∉ e.1 ++ str "\t" ++ b64Encode (UInt64.ofNat offset) ++ str "\t" ++
        b64Encode (UInt64.ofNat e.2.length) := by
      simp only [List.mem_append, not_or]
      exact ⟨⟨⟨⟨h10, by decide⟩, hclean _⟩, by decide⟩, hclean _⟩
    rw [indexOf, hline, List.append_assoc, List.singleton_append, lines_append hnl, readIndices, indexItem_line h9]
    refine (readIndices_written es (offset + e.2.length) _ (fun x hx => h x (by simp [hx]))).trans ?_
    simp [itemsOf]

/-- Each entry has an item, which says where in the text its data are. -/
theorem mem_itemsOf : ∀ (entries : List (Str × Str)) (start : Nat) (e : Str × Str), e ∈ entries →
    ∃ off, ⟨e.1, UInt64.ofNat (start + off), UInt64.ofNat e.2.length⟩ ∈ itemsOf start entries ∧
      off + e.2.length ≤ (textOf entries).length ∧ ((textOf entries).drop off).take e.2.length = e.2
  | [], _, _, h => absurd h (by simp)
  | x :: xs, start, e, h => by
    have ht : textOf (x :: xs) = x.2 ++ textOf xs := by simp [textOf]
    rw [ht]
    rcases List.mem_cons.mp h with rfl | h
    · exact ⟨0, by simp [itemsOf], by simp, by simp⟩
    · obtain ⟨off, hmem, hle, hdata⟩ := mem_itemsOf xs (start + x.2.length) e h
      refine ⟨x.2.length + off, ?_, by rw [List.length_append]; omega, ?_⟩
      · rw [itemsOf, ← Nat.add_assoc]
        exact List.mem_cons_of_mem _ hmem
      · rw [← List.drop_drop, List.drop_left, hdata]

theorem map_name_itemsOf : ∀ (entries : List (Str × Str)) (start : Nat),
    (itemsOf start entries).map (·.name) = entries.map (·.1)
  | [], _ => rfl
  | e :: es, start => by simp [itemsOf, map_name_itemsOf es]

theorem length_itemsOf (entries : List (Str × Str)) (start : Nat) :
    (itemsOf start entries).length = entries.length := by
  have := congrArg List.length (map_name_itemsOf entries start)
  simpa using this

theorem lookup_of_mem {β : Type} {l : List (Str × β)} {k : Str} {v : β} (hn : (l.map Prod.fst).Nodup)
    (h : (k, v) ∈ l) : l.lookup k = some v := by
  induction l with
  | nil => simp at h
  | cons p l ih =>
    rw [List.map_cons, List.nodup_cons] at hn
    rcases List.mem_cons.mp h with rfl | h
    · simp
    · have hne : k ≠ p.1 := by
        rintro rfl
        exact hn.1 (List.mem_map.mpr ⟨_, h, rfl⟩)
      rw [List.lookup_cons, show (k == p.1) = false by simpa using hne]
      exact ih hn.2 h

theorem lookup_eq_none {β : Type} {l : List (Str × β)} {k : Str} (h : k ∉ l.map Prod.fst) : l.lookup k = none := by
  rw [List.lookup_eq_none_iff]
  intro p hp
  rw [bne_iff_ne]
  rintro rfl
  exact h (List.mem_map.mpr ⟨p, hp, rfl⟩)

/-- What the entries say about a read: the data under that name. -/
def written (entries : List (Str × Str)) (filename : Str) : Outcome Str :=
  match entries.lookup filename with
  | some data => .ok data
  | none => raise (.error (str "CompactCorpusReaderPrivate::read: requesting unknown data!"))

/-- A reader on the archive of `entries`. -/
structure Archived (Z : Zlib) (entries : List (Str × Str)) (r : CompactCorpusReaderPrivate) : Prop where
  holds : r.file.Holds Z (textOf entries)
  indices : r.indices = itemsOf 0 entries
  named : r.namedIndices = ((itemsOf 0 entries).map fun i => (i.name, i)).reverse

variable {Z : Zlib}

theorem Archived.find {entries : List (Str × Str)} {r : CompactCorpusReaderPrivate} (h : Archived Z entries r)
    (hn : (entries.map (·.1)).Nodup) {item : IndexItem} (hi : item ∈ itemsOf 0 entries) :
    r.find item.name = some item := by
  rw [CompactCorpusReaderPrivate.find, h.named]
  refine lookup_of_mem ?_ (List.mem_reverse.mpr (List.mem_map.mpr ⟨item, hi, rfl⟩))
  rw [List.map_reverse, List.nodup_reverse, List.map_map]
  exact (map_name_itemsOf entries 0).symm ▸ hn

theorem Archived.find_none {entries : List (Str × Str)} {r : CompactCorpusReaderPrivate} (h : Archived Z entries r)
    {filename : Str} (hf : filename ∉ entries.map (·.1)) : r.find filename = none := by
  rw [CompactCorpusReaderPrivate.find, h.named]
  refine lookup_eq_none ?_
  rw [List.map_reverse, List.mem_reverse, List.map_map]
  exact (map_name_itemsOf entries 0).symm ▸ hf

/-- What a reader of an archive has for an entry, whatever was read before. -/
theorem Archived.itemSlice {entries : List (Str × Str)} {r : CompactCorpusReaderPrivate} (h : Archived Z entries r)
    (hdata : ∀ e ∈ entries, e.2 ≠ [] ∧ 0xFF ∉ e.2) (hlt : (textOf entries).length < 2 ^ 31) {e : Str × Str}
    (he : e ∈ entries) :
    ∃ item ∈ itemsOf 0 entries, item.name = e.1 ∧ item.size.toNat ≤ ptrdiffMax ∧
      ∀ st, ∃ st', r.itemSlice Z st item = .whole e.2 st' := by
  obtain ⟨off, hmem, hle, hslice⟩ := mem_itemsOf entries 0 e he
  rw [Nat.zero_add] at hmem
  obtain ⟨hne, -⟩ := hdata e he
  have hff : 0xFF ∉ textOf entries := by
    simp only [textOf, List.mem_flatten, List.mem_map]
    rintro ⟨l, ⟨x, hx, rfl⟩, h255⟩
    exact (hdata x hx).2 h255
  have hpos := List.length_pos_iff.mpr hne
  have hsize : (UInt64.ofNat e.2.length).toNat = e.2.length := UInt64.toNat_ofNat_of_lt' (by simp [UInt64.size]; omega)
  have hoff : (UInt64.ofNat off).toNat = off := UInt64.toNat_ofNat_of_lt' (by simp [UInt64.size]; omega)
  refine ⟨_, hmem, rfl, by rw [hsize]; unfold ptrdiffMax; omega, fun st => ?_⟩
  obtain ⟨st', hst'⟩ := DzFile.slice_archive h.holds hff hlt hpos hle st
  refine ⟨st', ?_⟩
  rw [CompactCorpusReaderPrivate.itemSlice, hsize, hoff, int64_of_lt (by omega) (by omega), hst', hslice]

/-- One read of an archive leaves it live and returns what was written. -/
theorem Archived.readEntry {entries : List (Str × Str)} {r r' : CompactCorpusReaderPrivate} (h : Archived Z entries r)
    (hn : (entries.map (·.1)).Nodup) (hdata : ∀ e ∈ entries, e.2 ≠ [] ∧ 0xFF ∉ e.2)
    (hlt : (textOf entries).length < 2 ^ 31) {st : Standing} (hl : LiveFrom Z st r r') (filename : Str) :
    ∃ r'' st', r'.readEntry Z filename = (written entries filename, r'') ∧ LiveFrom Z st' r r'' := by
  by_cases hf : filename ∈ entries.map (·.1)
  · obtain ⟨e, he, rfl⟩ := List.mem_map.mp hf
    obtain ⟨item, hmem, hname, hsize, hslice⟩ := h.itemSlice hdata hlt he
    obtain ⟨st', hst'⟩ := hslice st
    obtain ⟨r'', hr, hl'⟩ := readEntry_whole hl (hname ▸ h.find hn hmem) hsize hst'
    refine ⟨r'', st', ?_, hl'⟩
    rw [hr, written, lookup_of_mem hn (v := e.2) he]
  · refine ⟨r', st, ?_, hl⟩
    rw [written, lookup_eq_none hf]
    simp only [CompactCorpusReaderPrivate.readEntry, hl.find, h.find_none hf]

theorem Archived.readEntries {entries : List (Str × Str)} {r : CompactCorpusReaderPrivate} (h : Archived Z entries r)
    (hn : (entries.map (·.1)).Nodup) (hdata : ∀ e ∈ entries, e.2 ≠ [] ∧ 0xFF ∉ e.2)
    (hlt : (textOf entries).length < 2 ^ 31) : ∀ (names : List Str) {r' : CompactCorpusReaderPrivate} {st : Standing},
    LiveFrom Z st r r' → r'.readEntries Z names = names.map (written entries)
  | [], _, _, _ => rfl
  | n :: ns, r', st, hl => by
    obtain ⟨r'', st', hr, hl'⟩ := h.readEntry hn hdata hlt hl n
    simp only [CompactCorpusReaderPrivate.readEntries, hr, h.readEntries hn hdata hlt ns hl', List.map_cons]

/-- The bytes of a finished archive open. -/
theorem openFile_archive {entries : List (Str × Str)} (secs : Nat) (rest : Str) {fuel : Nat} {zs : List Str}
    (hfuel : 0 < fuel) (hclean : ∀ e ∈ entries, 9 ∉ e.1 ∧ 10 ∉ e.1)
    (hz : List.Forall₂ (Inflates Z dzPrefUncompressedSize) zs (pieces dzPrefUncompressedSize (textOf entries)))
    (hzle : ∀ z ∈ zs, z.length ≤ dzPrefUncompressedSize) (hfew : zs.length ≤ 32762) :
    ∃ r, openFile fuel (DzOstreamBuf.writeHeader secs ++ DzOstreamBuf.writeChunkInfo (zs.map List.length) ++
        (zs.flatten ++ rest)) (indexOf 0 entries) = .ok r ∧ Archived Z entries r := by
  have hsizes : ∀ s ∈ zs.map List.length, s < 65536 := by
    simp only [List.mem_map]
    rintro s ⟨z, hzm, rfl⟩
    exact Nat.lt_of_le_of_lt (hzle z hzm) (by decide)
  have hopen := DzFile.openFile_written secs (zs.flatten ++ rest) hfuel hsizes (by simpa using hfew)
  have hholds := DzFile.holds_archive
    (DzOstreamBuf.writeHeader secs ++ DzOstreamBuf.writeChunkInfo (zs.map List.length)) rest hz hzle (by omega)
  generalize (DzFile.mk _ _ _ _) = file at hopen hholds
  have hindex := readIndices_written entries 0 ⟨⟨.ofFile file, false, false, false⟩, [], []⟩ hclean
  rw [List.nil_append, List.append_nil] at hindex
  refine ⟨⟨⟨.ofFile file, false, false, false⟩, itemsOf 0 entries,
    ((itemsOf 0 entries).map fun i => (i.name, i)).reverse⟩, ?_, hholds, rfl, rfl⟩
  simp only [openFile, DzIstream.openFile, DzIstreamBuf.openFile, hopen, bind, Except.bind, hindex]

/-- **The round trip of a compact archive.** What was written under a name
is what a read of it returns, whatever was read before. -/
theorem archive_round_trip (Z : Zlib) (entries : List (Str × Str)) (secs : Nat)
    (hnames : (entries.map (·.1)).Nodup) (hclean : ∀ e ∈ entries, 9 ∉ e.1 ∧ 10 ∉ e.1)
    (hdata : ∀ e ∈ entries, e.2 ≠ [] ∧ 0xFF ∉ e.2)
    (hlen : (textOf entries).length ≤ 32762 * dzPrefUncompressedSize) (hz : PutAreas Z (textOf entries)) :
    ∃ w, (openFiles Z).writeEntries entries = (.ok (), w) ∧
      ∀ fuel, 0 < fuel → ∃ r, openFile fuel (w.close secs).1 (w.close secs).2 = .ok r ∧
        Delivers IndexIter.machine r.getEntries (entries.map fun e => ⟨e.1, []⟩) false ∧
        r.getSize = entries.length ∧
        ∀ names, r.readEntries Z names = names.map (written entries) := by
  have hlt : (textOf entries).length < 2 ^ 31 := Nat.lt_of_le_of_lt hlen (by decide)
  obtain ⟨w, zs, rest, hw, hclose, hinf, hzle⟩ := writeAll_archive entries secs hz hlt
  refine ⟨w, hw, fun fuel hfuel => ?_⟩
  have hfew : zs.length ≤ 32762 := by
    rw [hinf.length_eq]
    exact length_pieces_le (by decide) 32761 _ hlen
  obtain ⟨r, hopen, har⟩ := openFile_archive secs rest hfuel hclean hinf hzle hfew
  refine ⟨r, by rw [hclose]; exact hopen, ?_, ?_, fun names => ?_⟩
  · have h := IndexIter.delivers r.indices
    rwa [har.indices, show (itemsOf 0 entries).map (fun item => (⟨item.name, []⟩ : Entry)) =
      ((itemsOf 0 entries).map (·.name)).map (fun n => ⟨n, []⟩) by rw [List.map_map]; rfl,
      map_name_itemsOf, List.map_map, ← har.indices] at h
  · rw [getSize, har.indices, length_itemsOf]
  · exact har.readEntries hnames hdata hlt names (openFile_live hopen)

def sampleEntries : List (Str × Str) := [(str "1.xml", str "<a/>"), (str "2.xml", str "<b/>")]

theorem sample_archive_round_trip :
    ∃ w, (openFiles (Stored.zlib 0)).writeEntries sampleEntries = (.ok (), w) ∧
      ∀ fuel, 0 < fuel → ∃ r, openFile fuel (w.close 0).1 (w.close 0).2 = .ok r ∧
        Delivers IndexIter.machine r.getEntries (sampleEntries.map fun e => ⟨e.1, []⟩) false ∧
        r.getSize = sampleEntries.length ∧
        ∀ names, r.readEntries (Stored.zlib 0) names = names.map (written sampleEntries) :=
  archive_round_trip (Stored.zlib 0) sampleEntries 0 (by decide) (by decide) (by decide) (by decide)
    (Stored.putAreas (by decide))

/-! ## A small archive

What zlib makes of the text of these entries, byte for byte. -/

def sampleText : Str := str "<a/><b/>"

def sampleChunk : Str := [0xb2, 0x49, 0xd4, 0xb7, 0xb3, 0x49, 0xd2, 0xb7, 0x03, 0x00, 0x00, 0x00, 0xff, 0xff]

/-- zlib on `sampleText` and `sampleChunk`, and on nothing else. -/
def sampleZlib : Zlib where
  Stream := Unit
  init := ()
  deflate _ xs n f :=
    match f with
    | .fullFlush =>
      if xs = sampleText ∧ 14 ≤ n then ⟨.ok, sampleChunk.take n, xs.length, none, ()⟩ else ⟨.error, [], 0, none, ()⟩
    | .finish => if xs = [] ∧ 2 ≤ n then ⟨.streamEnd, [3, 0].take n, 0, none, ()⟩ else ⟨.error, [], 0, none, ()⟩
  deflate_le _ xs n f := by
    cases f <;> (dsimp only; split <;> simp)
  inflate z n :=
    if z = sampleChunk ∧ 8 ≤ n then ⟨true, .ok, sampleText.take n, true, none⟩ else ⟨true, .error, [], true, none⟩
  inflate_le z n := by split <;> simp
  crc32 _ xs := if xs = sampleText then 0x50b9129f else 0

theorem sample_putAreas : PutAreas sampleZlib (textOf sampleEntries) where
  deflates := by
    intro areas a hpre
    rw [pieces_of_le (by decide)] at hpre
    obtain rfl : a = sampleText :=
      (List.mem_singleton.mp (hpre.subset (List.mem_append_right areas (List.mem_singleton_self a)))).trans (by decide)
    show (sampleZlib.deflate () sampleText dzPrefUncompressedSize .fullFlush).ret = .ok
    decide
  inflates := by
    intro areas a hpre
    rw [pieces_of_le (by decide)] at hpre
    obtain rfl : a = sampleText :=
      (List.mem_singleton.mp (hpre.subset (List.mem_append_right areas (List.mem_singleton_self a)))).trans (by decide)
    have hz : sampleZlib.inflate (sampleZlib.deflate () sampleText dzPrefUncompressedSize .fullFlush).out
        dzPrefUncompressedSize = ⟨true, .ok, sampleText, true, none⟩ := by decide
    rw [show (DzOstreamBuf.fed sampleZlib areas).zStream = () from rfl]
    constructor <;> rw [hz]
    exact .inl rfl

end CompactCorpusReaderPrivate

end AlpinoCorpus
