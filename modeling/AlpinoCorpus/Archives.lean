/-
Finished archives and the readers opened on them: what a list of entries
must be like to be given back by an archive (`Archivable`), and what a
reader of the archive then lists and reads.
-/
import AlpinoCorpus.CompactHistory
import AlpinoCorpus.Opening

namespace AlpinoCorpus

open Iteration Pieces CompactCorpusWriterPrivate

namespace CompactCorpusReaderPrivate

/-- Entries that an archive gives back as they are. The last two say that
the data fill no more chunks than the table has room for, and that zlib can
deflate each of them into the room there is and inflate it again. -/
structure Archivable (Z : Zlib) (entries : List (Str × Str)) : Prop where
  names : (entries.map (·.1)).Nodup
  clean : ∀ e ∈ entries, 9 ∉ e.1 ∧ 10 ∉ e.1
  data : ∀ e ∈ entries, e.2 ≠ [] ∧ 0xFF ∉ e.2
  few : (textOf entries).length ≤ 32762 * dzPrefUncompressedSize
  deflates : PutAreas Z (textOf entries)

variable {Z : Zlib} {entries : List (Str × Str)} {r : CompactCorpusReaderPrivate}

theorem Archivable.length_lt (h : Archivable Z entries) : (textOf entries).length < 2 ^ 31 :=
  Nat.lt_of_le_of_lt h.few (by decide)

/-- The files of the archive open. -/
theorem Archivable.opens (h : Archivable Z entries) (secs : Nat) :
    ∃ w, (openFiles Z).writeEntries entries = (.ok (), w) ∧
      ∀ fuel, 0 < fuel → ∃ r, openFile fuel (w.close secs).1 (w.close secs).2 = .ok r ∧ Archived Z entries r ∧
        LiveFrom Z .fresh r r := by
  obtain ⟨w, zs, rest, hw, hclose, hinf, hzle⟩ := writeAll_archive entries secs h.deflates h.length_lt
  refine ⟨w, hw, fun fuel hfuel => ?_⟩
  have hfew : zs.length ≤ 32762 := by
    rw [hinf.length_eq]
    exact length_pieces_le (by decide) 32761 _ h.few
  obtain ⟨r, hopen, har⟩ := openFile_archive secs rest hfuel h.clean hinf hzle hfew
  exact ⟨r, by rw [hclose]; exact hopen, har, openFile_live hopen⟩

/-- The names of an archive, in the order they were written. -/
theorem Archived.items (h : Archived Z entries r) :
    r.indices.map (fun item => (⟨item.name, []⟩ : Entry)) = entries.map fun e => ⟨e.1, []⟩ := by
  rw [h.indices, show (itemsOf 0 entries).map (fun item => (⟨item.name, []⟩ : Entry)) =
    ((itemsOf 0 entries).map (·.name)).map (fun n => ⟨n, []⟩) by rw [List.map_map]; rfl, map_name_itemsOf, List.map_map]
  rfl

theorem Archived.lists (h : Archived Z entries r) :
    Delivers IndexIter.machine r.getEntries (entries.map fun e => ⟨e.1, []⟩) false := by
  rw [← h.items]
  exact IndexIter.delivers r.indices

/-- Any number of reads, in any order. -/
theorem Archived.reads (h : Archived Z entries r) (ha : Archivable Z entries) (hl : LiveFrom Z .fresh r r) (names : List Str) :
    r.readEntries Z names = names.map (written entries) :=
  h.readEntries ha.names ha.data ha.length_lt names hl

/-- Reading depends on nothing that was read before. -/
theorem Archived.read (h : Archived Z entries r) (ha : Archivable Z entries) :
    ∀ {st : Standing} {r' : CompactCorpusReaderPrivate}, LiveFrom Z st r r' → ∀ (before : List Str) (n : Str),
      ((r'.readAll Z before).readEntry Z n).1 = written entries n
  | _, _, hl, [], n => by
    obtain ⟨r'', -, hr, -⟩ := h.readEntry ha.names ha.data ha.length_lt hl n
    rw [readAll, hr]
  | _, _, hl, n' :: before, n => by
    obtain ⟨r'', st', hr, hl'⟩ := h.readEntry ha.names ha.data ha.length_lt hl n'
    rw [readAll, hr]
    exact h.read ha hl' before n

theorem Archived.steady (h : Archived Z entries r) (ha : Archivable Z entries) (hl : LiveFrom Z .fresh r r) :
    (r.corpus Z).Steady :=
  fun before n => (h.read ha hl before n).trans (h.read ha hl [] n).symm

/-- So it does where every entry comes out whole, or is refused. -/
theorem steady_of_intact {fuel : Nat} {data index : Str} (hopen : openFile fuel data index = .ok r) (hin : ∀ n, Intact Z r n) :
    (r.corpus Z).Steady := fun _ n =>
  (hin n).readAll (openFile_live hopen) (fun m _ => hin m) (openFile_live hopen)

theorem create_openFile {node : Str → Node} {fuel : Nat} {path : Str} (h : create node fuel path = .ok r) :
    ∃ data index, openFile fuel data index = .ok r := by
  obtain ⟨canonical, -, h⟩ := bind_ok_iff.mp h
  unfold construct at h
  split at h
  · cases h
  · split at h
    · cases h
    · exact ⟨_, _, h⟩
    · cases h
  · cases h

theorem written_mem (hn : (entries.map (·.1)).Nodup) {e : Str × Str} (he : e ∈ entries) :
    written entries e.1 = .ok e.2 := by
  rw [written, lookup_of_mem (v := e.2) hn he]

/-- The order of the entries does not matter to a read. -/
theorem written_perm {es es' : List (Str × Str)} (hp : es.Perm es') (hn : (es.map (·.1)).Nodup) (n : Str) :
    written es n = written es' n := by
  have hn' : (es'.map (·.1)).Nodup := (hp.map _).nodup_iff.mp hn
  by_cases h : n ∈ es.map (·.1)
  · obtain ⟨e, he, rfl⟩ := List.mem_map.mp h
    rw [written_mem hn he, written_mem hn' (hp.mem_iff.mp he)]
  · have h' : n ∉ es'.map (·.1) := fun hm => h ((hp.map _).mem_iff.mpr hm)
    rw [written, written, lookup_eq_none h, lookup_eq_none h']

end CompactCorpusReaderPrivate

/-- A disk on which all entries of compact corpora come out whole. -/
theorem Env.onDisk_steady (env : Env) {node : Str → Node} (container : Str → Except Str DbCorpus) {fuel : Nat} {Z : Zlib}
    (hin : ∀ path r, CompactCorpusReaderPrivate.create node fuel path = .ok r → ∀ n, CompactCorpusReaderPrivate.Intact Z r n) :
    (env.onDisk node container fuel Z).Steady := by
  intro path corpus hc
  obtain ⟨r, hr, rfl⟩ := map_ok_iff.mp hc
  obtain ⟨data, index, hopen⟩ := CompactCorpusReaderPrivate.create_openFile hr
  exact CompactCorpusReaderPrivate.steady_of_intact hopen (hin path r hr)

/-- Entries that fit in one chunk, in any order. -/
theorem CompactCorpusReaderPrivate.Archivable.of_perm {es entries : List (Str × Str)} (hp : es.Perm entries)
    (names : (entries.map (·.1)).Nodup) (clean : ∀ e ∈ entries, 9 ∉ e.1 ∧ 10 ∉ e.1)
    (data : ∀ e ∈ entries, e.2 ≠ [] ∧ 0xFF ∉ e.2) (hfit : (textOf entries).length + 10 ≤ dzPrefUncompressedSize) :
    Archivable (Stored.zlib 0) es := by
  have hlen : (textOf es).length = (textOf entries).length := ((hp.map _).flatten).length_eq
  refine ⟨(hp.map _).nodup_iff.mpr names, fun e he => clean e (hp.mem_iff.mp he), fun e he => data e (hp.mem_iff.mp he), ?_,
    Stored.putAreas (by omega)⟩
  have hmax : dzPrefUncompressedSize ≤ 32762 * dzPrefUncompressedSize := by decide
  omega

end AlpinoCorpus
