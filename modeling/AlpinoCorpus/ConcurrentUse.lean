/-
Threads that share a compact writer, or a compact reader.

Both take a mutex around the statements that touch their streams, and these
statements are the steps here: between any two of them another thread may
run. `concurrent_writes` and `concurrent_reads` say what comes of it for any
number of threads and any interleaving.
-/
import AlpinoCorpus.Archives
import AlpinoCorpus.CompactHistory
import AlpinoCorpus.Lib.Locking

namespace AlpinoCorpus

open Iteration Locking

/-! ## Writers -/

namespace CompactCorpusWriterPrivate

variable {Z : Zlib}

/-- `*d_dataStream << data`. -/
def putData (data : Str) (s : CompactCorpusWriterPrivate Z × Outcome Unit) : CompactCorpusWriterPrivate Z × Outcome Unit :=
  match s.2 with
  | .error e => (s.1, .error e)
  | .ok () =>
    match s.1.dataStream.write data with
    | (out, o) => ({ s.1 with dataStream := o }, out)

/-- One insertion into `*d_indexStream`. -/
def putIndex (text : CompactCorpusWriterPrivate Z → Str) (s : CompactCorpusWriterPrivate Z × Outcome Unit) :
    CompactCorpusWriterPrivate Z × Outcome Unit :=
  match s.2 with
  | .error e => (s.1, .error e)
  | .ok () => ({ s.1 with indexStream := s.1.indexStream ++ text s.1 }, .ok ())

/-- `d_offset += data.size()`. -/
def moveOffset (size : UInt64) (s : CompactCorpusWriterPrivate Z × Outcome Unit) :
    CompactCorpusWriterPrivate Z × Outcome Unit :=
  match s.2 with
  | .error e => (s.1, .error e)
  | .ok () => ({ s.1 with offset := s.1.offset + size }, .ok ())

/-- `writeEntry(name, data)` as a thread runs it, under `d_writeMutex`. -/
def writeEntryCall (Z : Zlib) (e : Str × Str) : Call (CompactCorpusWriterPrivate Z) (Outcome Unit) :=
  let size := UInt64.ofNat e.2.length
  .locks (.ok ())
    [putData e.2, putIndex fun _ => e.1, putIndex fun _ => str "\t", putIndex fun w => b64Encode w.offset,
      putIndex fun _ => str "\t", putIndex fun _ => b64Encode size, putIndex fun _ => str "\n", moveOffset size]

/-- With no other thread about, it is `writeEntry`. -/
theorem writeEntryCall_alone (w : CompactCorpusWriterPrivate Z) (e : Str × Str) :
    (writeEntryCall Z e).alone w = ((w.writeEntry e.1 e.2).2, (w.writeEntry e.1 e.2).1) := by
  simp only [writeEntryCall, Call.alone, runSteps, List.foldl_cons, List.foldl_nil, writeEntry]
  rcases hw : w.dataStream.write e.2 with ⟨x | _, o⟩
  · simp only [putData, putIndex, moveOffset, hw]
  · simp only [putData, putIndex, moveOffset, hw, indexLine, List.append_assoc]

theorem serial_writes : ∀ {entries : List (Str × Str)} {w w' : CompactCorpusWriterPrivate Z},
    w.writeEntries entries = (.ok (), w') → serial (writeEntryCall Z) w entries = (w', entries.map fun _ => .ok ())
  | [], w, w', h => by
    obtain rfl : w = w' := by simpa [writeEntries] using h
    rfl
  | e :: es, w, w', h => by
    rw [writeEntries] at h
    rcases hw : w.writeEntry e.1 e.2 with ⟨x | _, w₁⟩
    · rw [hw] at h
      cases h
    · rw [hw] at h
      simp only [serial, writeEntryCall_alone, hw, serial_writes h, List.map_cons]

variable {ι : Type} [DecidableEq ι]

/-- **Any number of threads writing to one archive.** However the threads
interleave, none waits for ever and none goes on for ever; at the end no write
has failed, and the archive holds the entries of all threads, those of one
thread in its own order, each to be read back as its thread wrote it. -/
theorem concurrent_writes (threads : List ι) (hthreads : threads.Nodup) (hall : ∀ i, i ∈ threads)
    (program : ι → List (Str × Str))
    (ha : ∀ es, es.Perm (threads.flatMap program) → CompactCorpusReaderPrivate.Archivable Z es) (secs : Nat)
    {c : Config ι (Str × Str) (CompactCorpusWriterPrivate Z) (Outcome Unit)}
    (hs : Steps (writeEntryCall Z) (.start program (openFiles Z)) c) :
    (∃ c', Steps (writeEntryCall Z) c c' ∧ c'.Finished) ∧
    (∀ run : Nat → Config ι (Str × Str) (CompactCorpusWriterPrivate Z) (Outcome Unit), run 0 = c →
      ¬∀ n, Step (writeEntryCall Z) (run n) (run (n + 1))) ∧
    (c.Finished → (∀ out ∈ c.results, out = .ok ()) ∧ (∀ i, c.opsOf i = program i) ∧
      c.ops.Perm (threads.flatMap program) ∧
      ∀ fuel, 0 < fuel → ∃ r, CompactCorpusReaderPrivate.openFile fuel (c.shared.close secs).1 (c.shared.close secs).2 =
          .ok r ∧
        Delivers IndexIter.machine r.getEntries (c.ops.map fun e => ⟨e.1, []⟩) false ∧
        ∀ names, r.readEntries Z names =
          names.map (CompactCorpusReaderPrivate.written (threads.flatMap program))) := by
  have : Fintype ι := .ofList threads hall
  refine ⟨(Serial.start.steps hs).finishes, fun run _ => no_endless_run run, fun hfin => ?_⟩
  obtain ⟨horder, hserial⟩ := linearizable hs hfin
  have hperm := ops_perm hthreads hall horder
  have hentries := ha c.ops hperm
  obtain ⟨w, hw, hopens⟩ := hentries.opens secs
  rw [serial_writes hw, Prod.mk.injEq] at hserial
  obtain ⟨rfl, hresults⟩ := hserial
  refine ⟨fun out hout => ?_, horder, hperm, fun fuel hfuel => ?_⟩
  · rw [← hresults] at hout
    obtain ⟨e, -, rfl⟩ := List.mem_map.mp hout
    rfl
  · obtain ⟨r, hopen, har, hl⟩ := hopens fuel hfuel
    refine ⟨r, hopen, har.lists, fun names => ?_⟩
    rw [har.reads hentries hl]
    exact List.map_congr_left fun n _ => CompactCorpusReaderPrivate.written_perm hperm hentries.names n

/-- Two threads with an entry each. -/
def sampleProgram (i : Fin 2) : List (Str × Str) :=
  if i = 0 then [(str "1.xml", str "<a/>")] else [(str "2.xml", str "<b/>")]

theorem sample_concurrent_writes :
    ∃ c : Config (Fin 2) (Str × Str) (CompactCorpusWriterPrivate (Stored.zlib 0)) (Outcome Unit),
      Steps (writeEntryCall (Stored.zlib 0)) (.start sampleProgram (openFiles (Stored.zlib 0))) c ∧ c.Finished ∧
      ∃ r, CompactCorpusReaderPrivate.openFile 1 (c.shared.close 0).1 (c.shared.close 0).2 = .ok r ∧
        r.readEntries (Stored.zlib 0) [str "2.xml", str "1.xml", str "3.xml"] =
          [.ok (str "<b/>"), .ok (str "<a/>"),
            raise (.error (str "CompactCorpusReaderPrivate::read: requesting unknown data!"))] := by
  have ha : ∀ es, es.Perm ([0, 1].flatMap sampleProgram) → CompactCorpusReaderPrivate.Archivable (Stored.zlib 0) es :=
    fun es hp => .of_perm hp (by decide) (by decide) (by decide) (by decide)
  obtain ⟨c, hs, hfin⟩ := (concurrent_writes [0, 1] (by decide) (by decide) sampleProgram ha 0 .refl).1
  obtain ⟨-, -, -, hopens⟩ := (concurrent_writes [0, 1] (by decide) (by decide) sampleProgram ha 0 hs).2.2 hfin
  obtain ⟨r, hopen, -, hreads⟩ := hopens 1 (by decide)
  exact ⟨c, hs, hfin, r, hopen, by rw [hreads]; decide⟩

end CompactCorpusWriterPrivate

/-! ## Readers -/

namespace CompactCorpusReaderPrivate

variable (Z : Zlib)

/-- `std::vector<unsigned char> data(size)`. -/
def allocate (item : IndexItem) (s : CompactCorpusReaderPrivate × Outcome Str) : CompactCorpusReaderPrivate × Outcome Str :=
  match s.2 with
  | .error e => (s.1, .error e)
  | .ok _ => (s.1, if item.size.toNat > ptrdiffMax then raise .lengthError else .ok (List.replicate item.size.toNat 0))

/-- `d_dataStream->seekg(offset, std::ios::beg)`. -/
def seekTo (item : IndexItem) (s : CompactCorpusReaderPrivate × Outcome Str) : CompactCorpusReaderPrivate × Outcome Str :=
  match s.2 with
  | .error e => (s.1, .error e)
  | .ok data =>
    match s.1.dataStream.seekg Z (int64 item.offset.toNat) with
    | (.error e, dataStream) => ({ s.1 with dataStream }, .error e)
    | (.ok (), dataStream) => ({ s.1 with dataStream }, .ok data)

/-- `d_dataStream->read(&data[0], size)`. -/
def readInto (item : IndexItem) (s : CompactCorpusReaderPrivate × Outcome Str) : CompactCorpusReaderPrivate × Outcome Str :=
  match s.2 with
  | .error e => (s.1, .error e)
  | .ok data =>
    match s.1.dataStream.read Z item.size.toNat with
    | (.error e, _, dataStream) => ({ s.1 with dataStream }, .error e)
    | (.ok (), dest, dataStream) => ({ s.1 with dataStream }, .ok (dest ++ data.drop dest.length))

/-- `readEntry(filename)` as a thread runs it: it looks the name up in `r`,
whose index nothing changes, and takes `d_readMutex` for the rest. -/
def readEntryCall (r : CompactCorpusReaderPrivate) (filename : Str) : Call CompactCorpusReaderPrivate (Outcome Str) :=
  match r.find filename with
  | none => .returns (raise (.error (str "CompactCorpusReaderPrivate::read: requesting unknown data!")))
  | some item => .locks (.ok []) [allocate item, seekTo Z item, readInto Z item]

variable {Z : Zlib} {r r' : CompactCorpusReaderPrivate}

theorem readEntryCall_alone (hnamed : r'.namedIndices = r.namedIndices) (n : Str) :
    (readEntryCall Z r n).alone r' = ((r'.readEntry Z n).2, (r'.readEntry Z n).1) := by
  have hfind : r'.find n = r.find n := by rw [find, hnamed]; rfl
  unfold readEntryCall readEntry
  rw [hfind]
  cases r.find n with
  | none => rfl
  | some item =>
    simp only [Call.alone, runSteps, List.foldl_cons, List.foldl_nil, DzIstream.readAt]
    by_cases hsize : item.size.toNat > ptrdiffMax
    · simp only [allocate, seekTo, readInto, if_pos hsize, raise]
    · rcases hseek : r'.dataStream.seekg Z (int64 item.offset.toNat) with ⟨e | _, s⟩
      · simp only [allocate, seekTo, readInto, if_neg hsize, hseek]
      · rcases hread : s.read Z item.size.toNat with ⟨e | _, dest, s'⟩
        · simp only [allocate, seekTo, readInto, if_neg hsize, hseek, hread]
        · simp only [allocate, seekTo, readInto, if_neg hsize, hseek, hread, List.drop_replicate]

/-- Intact reads one after another return what each returns alone. -/
theorem serial_reads : ∀ {names : List Str} {r' : CompactCorpusReaderPrivate} {st st' : Standing}, LiveFrom Z st r r →
    LiveFrom Z st' r r' → (∀ n ∈ names, Intact Z r n) →
    (serial (readEntryCall Z r) r' names).2 = names.map fun n => (r.readEntry Z n).1
  | [], _, _, _, _, _, _ => rfl
  | n :: ns, r', st, st', hl, hl', hin => by
    obtain ⟨hn, hns⟩ := List.forall_mem_cons.mp hin
    obtain ⟨hout, st'', hlive⟩ := hn.readEntry hl hl'
    rw [serial, readEntryCall_alone hl'.named]
    simp only [List.map_cons, hout, serial_reads hl hlive hns]

/-- **Any number of threads reading one corpus.** As long as the entries
they ask for come out whole (they end inside the data, and none of them
crosses into a chunk that begins with 0xFF), every thread is given what it would be given alone;
none waits for ever, and none goes on for ever. -/
theorem concurrent_reads {ι : Type} [DecidableEq ι] [Fintype ι] {fuel : Nat} {data index : Str}
    (hopen : openFile fuel data index = .ok r) (program : ι → List Str) (hin : ∀ i, ∀ n ∈ program i, Intact Z r n)
    {c : Config ι Str CompactCorpusReaderPrivate (Outcome Str)} (hs : Steps (readEntryCall Z r) (.start program r) c) :
    (∀ x ∈ c.history, x.2.2 = (r.readEntry Z x.2.1).1) ∧
    (∃ c', Steps (readEntryCall Z r) c c' ∧ c'.Finished ∧ ∀ i, c'.opsOf i = program i) ∧
    ∀ run : Nat → Config ι Str CompactCorpusReaderPrivate (Outcome Str), run 0 = c →
      ¬∀ n, Step (readEntryCall Z r) (run n) (run (n + 1)) := by
  have hserial : Serial (readEntryCall Z r) program r c := Serial.start.steps hs
  refine ⟨?_, ?_, fun run _ => no_endless_run run⟩
  · have hops : ∀ n ∈ c.ops, Intact Z r n := by
      intro n hn
      obtain ⟨x, hx, rfl⟩ := List.mem_map.mp hn
      exact hin x.1 _ (hserial.mem_program hx)
    have hres := serial_reads (openFile_live hopen) (openFile_live hopen) hops
    rw [hserial.results, Config.results, Config.ops, List.map_map] at hres
    exact List.map_inj_left.mp hres
  · obtain ⟨c', hs', hfin⟩ := hserial.finishes
    exact ⟨c', hs', hfin, (linearizable (hs.trans hs') hfin).1⟩

theorem sample_concurrent_reads :
    ∃ r, openFile 1 sampleDz sampleIndex = .ok r ∧
      ∃ c : Config (Fin 2) Str CompactCorpusReaderPrivate (Outcome Str),
        Steps (readEntryCall sampleZlib r) (.start (fun _ => [str "1.xml", str "1.xml"]) r) c ∧ c.Finished ∧
        ∀ x ∈ c.history, x.2.2 = (r.readEntry sampleZlib x.2.1).1 := by
  obtain ⟨r, hopen, -⟩ := bind_ok_iff.mp sample_item
  have hin : ∀ i : Fin 2, ∀ n ∈ [str "1.xml", str "1.xml"], Intact sampleZlib r n := by
    intro i n hn
    obtain rfl : n = str "1.xml" := by simpa using hn
    exact sample_intact hopen
  obtain ⟨c, hs, hfin, -⟩ := (concurrent_reads hopen (fun _ => [str "1.xml", str "1.xml"]) hin .refl).2.1
  exact ⟨r, hopen, c, hs, hfin, (concurrent_reads hopen _ hin hs).1⟩

end CompactCorpusReaderPrivate

end AlpinoCorpus
