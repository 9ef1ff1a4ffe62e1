/-
`alpinocorpus-create`: the entries of a reader, or those that a query
matches, are written to a new corpus, each of them once.

A compact corpus made so serves what was written (`conversion_serves`),
also when an entry that cannot be read ends the run. One made with a query
answers the next query as the first reader answers both, one after the
other (`query_after_conversion`).
-/
import AlpinoCorpus.Archives
import AlpinoCorpus.BatchWrite
import AlpinoCorpus.Serving

namespace AlpinoCorpus

open Iteration Firsts CompactCorpusWriterPrivate CompactCorpusReaderPrivate Copying

/-- A reader as a source to copy from. -/
def Reader.source (env : Env) (fuel : Nat) (rdr : Reader) : Source where
  Reader := AlpinoCorpus.Reader
  read r n := (r.read env n [], r.after n)
  Iter := AlpinoCorpus.Iter × Unit
  iterator := (Iter.body env fuel).machine rdr

namespace Create

section Loop

variable {S : Source} {ω : Type} (write : ω → Str → Str → Outcome Unit × ω)

/-- The loop of `writeCorpus`, with its set `seen` and what it prints. -/
def writeCorpusLoop : Nat → List Str → Str → S.Iter → Copying S ω → Outcome Unit × Str × Copying S ω
  | 0, _, cerr, _, c => (.error .unfinished, cerr, c)
  | fuel + 1, seen, cerr, i, c =>
    match S.iterator.hasNext i with
    | (.error e, _) => (.error e, cerr, c)
    | (.ok false, _) => (.ok (), cerr, c)
    | (.ok true, i) =>
      match S.iterator.next i with
      | (.error e, _) => (.error e, cerr, c)
      | (.ok entry, i) =>
        if seen.contains entry.name then
          writeCorpusLoop fuel seen (cerr ++ (str "Duplicate entry: " ++ entry.name ++ str "\n")) i c
        else
          match c.copyEntry write entry.name with
          | (.error e, c) => (.error e, cerr, c)
          | (.ok (), c) => writeCorpusLoop fuel (entry.name :: seen) cerr i c

variable {write}

/-- The names that are new are copied in turn, up to the first that fails. -/
theorem writeCorpusLoop_eq : ∀ (es : List Entry) (fuel : Nat) (seen : List Str) (cerr : Str) (i : S.Iter)
    (c : Copying S ω), Delivers S.iterator i es false → es.length < fuel →
    ∃ cerr', writeCorpusLoop write fuel seen cerr i c =
      (firstError (c.attempts write (firstsBy id seen (es.map Entry.name))), cerr',
        c.tryAll write (c.reached write (firstsBy id seen (es.map Entry.name))))
  | [], fuel, seen, cerr, i, c, hi, hf => by
    obtain ⟨fuel, rfl⟩ : ∃ k, fuel = k + 1 := ⟨fuel - 1, by omega⟩
    obtain ⟨i', hn, -⟩ := hi.done
    exact ⟨cerr, by simp only [writeCorpusLoop, hn]; rfl⟩
  | e :: es, fuel, seen, cerr, i, c, hi, hf => by
    rw [List.length_cons] at hf
    obtain ⟨fuel, rfl⟩ : ∃ k, fuel = k + 1 := ⟨fuel - 1, by omega⟩
    obtain ⟨i₁, i₂, hn, hx, hi₂⟩ := hi.take
    by_cases hseen : e.name ∈ seen
    · obtain ⟨cerr', h⟩ := writeCorpusLoop_eq es fuel seen
        (cerr ++ (str "Duplicate entry: " ++ e.name ++ str "\n")) i₂ c hi₂ (by omega)
      refine ⟨cerr', ?_⟩
      simp only [writeCorpusLoop, hn, hx, h, List.map_cons, firstsBy, id, List.contains_iff_mem, hseen, if_true]
    · simp only [writeCorpusLoop, hn, hx, List.contains_iff_mem, if_neg hseen, List.map_cons, firstsBy, id, attempts, reached]
      rcases hc : c.copyEntry write e.name with ⟨s | _, c'⟩
      · exact ⟨cerr, by simp only [firstError, tryAll, hc]⟩
      · obtain ⟨cerr', h⟩ := writeCorpusLoop_eq es fuel (e.name :: seen) cerr i₂ c' hi₂ (by omega)
        exact ⟨cerr', by simp only [firstError, tryAll, hc, h]⟩

end Loop

/-- What `writeCorpus` iterates over. -/
def requested (env : Env) (rdr : Reader) (query : Str) (sortOrder : SortOrder) : Outcome Iter :=
  if query.isEmpty then rdr.getEntries env sortOrder else rdr.query env .xpath query sortOrder

/-- `writeCorpus`, with what it prints. -/
def writeCorpus {ω : Type} (env : Env) (fuel : Nat) (write : ω → Str → Str → Outcome Unit × ω) (rdr : Reader) (query : Str)
    (sortOrder : SortOrder) (w : ω) : Outcome Unit × Str × ω :=
  match requested env rdr query sortOrder with
  | .error e => (.error e, [], w)
  | .ok it =>
    match writeCorpusLoop (S := rdr.source env fuel) write fuel [] [] (it, ()) ⟨rdr, w⟩ with
    | (out, cerr, c) => (out, cerr, c.writer)

/-! ## What is written -/

variable {env : Env} {rdr : Reader} {Z : Zlib}

def readable (env : Env) (rdr : Reader) (n : Str) : Bool := (rdr.read env n []).isOk

/-- The entries that are written: the names, each once, up to the first that
cannot be read. -/
def good (env : Env) (rdr : Reader) (es : List Entry) : List Str :=
  (firstsBy id [] (es.map Entry.name)).takeWhile (readable env rdr)

/-- How the reads end: with the first that fails. -/
def readAll (env : Env) (rdr : Reader) (es : List Entry) : Outcome Unit :=
  firstError ((firstsBy id [] (es.map Entry.name)).map fun n => (rdr.read env n []).map fun _ => ())

/-- An entry with its document. -/
def withDoc (doc : Str → Str) (n : Str) : Str × Str := (n, doc n)

theorem isOk_iff {α : Type} {x : Outcome α} : x.isOk = true ↔ ∃ a, x = .ok a := by
  cases x <;> simp [Except.isOk, Except.toBool]

/-- What can be read is read as its document. -/
theorem read_of_readable {n : Str} (h : readable env rdr n = true) : rdr.read env n [] = .ok (docOf env rdr n) := by
  obtain ⟨doc, hdoc⟩ := isOk_iff.mp h
  rw [hdoc, docOf, show rdr.readEntry env n = _ from hdoc]

theorem read_good {es : List Entry} {n : Str} (h : n ∈ good env rdr es) : rdr.read env n [] = .ok (docOf env rdr n) :=
  read_of_readable (List.mem_takeWhile_imp (p := readable env rdr) h)

/-- Copying names that can be read into a writer that takes them, and then
one that cannot be read. Each name is read as it is at first, whatever was
read before. -/
theorem copy_names {fuel : Nat} : ∀ {names : List Str} {r : Reader} {w w' : CompactCorpusWriterPrivate Z},
    (∀ n ∈ names, r.Gives env n (rdr.read env n [])) →
    w.writeEntries ((names.takeWhile (readable env rdr)).map (withDoc (docOf env rdr))) = (.ok (), w') →
    let c : Copying (rdr.source env fuel) (CompactCorpusWriterPrivate Z) := ⟨r, w⟩
    firstError (c.attempts writeEntry names) = firstError (names.map fun n => (rdr.read env n []).map fun _ => ()) ∧
      (c.tryAll writeEntry (c.reached writeEntry names)).writer = w'
  | [], r, w, w', _, h => by
    obtain rfl : w = w' := by simpa [writeEntries] using h
    exact ⟨rfl, rfl⟩
  | n :: names, r, w, w', hr, h => by
    obtain ⟨hrn, hrs⟩ := List.forall_mem_cons.mp hr
    have hrn := hrn.read
    by_cases hn : readable env rdr n = true
    · have hread := read_of_readable hn
      rw [List.takeWhile_cons, if_pos hn, List.map_cons, writeEntries] at h
      rcases hw : w.writeEntry (withDoc (docOf env rdr) n).1 (withDoc (docOf env rdr) n).2 with ⟨x | _, w₁⟩
      · rw [hw] at h
        cases h
      · rw [hw] at h
        have hcopy : (⟨r, w⟩ : Copying (rdr.source env fuel) (CompactCorpusWriterPrivate Z)).copyEntry writeEntry n =
            (.ok (), ⟨r.after n, w₁⟩) := by
          have hw : w.writeEntry n (docOf env rdr n) = (.ok (), w₁) := hw
          simp only [copyEntry, Reader.source, hrn, hread, hw]
        simp only [attempts, reached, hcopy, tryAll, List.map_cons, hread, Except.map, firstError]
        exact copy_names (fun n' hn' => (hrs n' hn').after n) h
    · rw [List.takeWhile_cons, if_neg hn] at h
      obtain rfl : w = w' := by simpa [writeEntries] using h
      rcases hread : rdr.read env n [] with e | doc
      · have hcopy : (⟨r, w⟩ : Copying (rdr.source env fuel) (CompactCorpusWriterPrivate Z)).copyEntry writeEntry n =
            (.error e, ⟨r.after n, w⟩) := by
          simp only [copyEntry, Reader.source, hrn, hread]
        simp only [attempts, reached, hcopy, tryAll, List.map_cons, hread, Except.map, firstError, and_self]
      · exact absurd (isOk_iff.mpr ⟨doc, hread⟩) hn

/-- A run of `writeCorpus` on a compact writer. -/
theorem writeCorpus_compact {query : Str} {sortOrder : SortOrder} {it : Iter} {es : List Entry}
    (hit : requested env rdr query sortOrder = .ok it) (hd : it.Deliver env es)
    (hgives : ∀ e ∈ es, rdr.Gives env e.name (rdr.read env e.name [])) {w : CompactCorpusWriterPrivate Z}
    (hw : (openFiles Z).writeEntries ((good env rdr es).map (withDoc (docOf env rdr))) = (.ok (), w)) :
    ∃ n, ∀ fuel ≥ n, ∃ cerr,
      writeCorpus env fuel writeEntry rdr query sortOrder (openFiles Z) = (readAll env rdr es, cerr, w) := by
  obtain ⟨n, hn⟩ := hd
  refine ⟨max n (es.length + 1), fun fuel hfuel => ?_⟩
  have hdel : Delivers (rdr.source env fuel).iterator (it, ()) es false := hn fuel (by omega) rdr
  obtain ⟨cerr, hloop⟩ := @writeCorpusLoop_eq (rdr.source env fuel) _ writeEntry es fuel [] [] (it, ())
    ⟨rdr, openFiles Z⟩ hdel (by omega)
  have hnames : ∀ n ∈ firstsBy id [] (es.map Entry.name), rdr.Gives env n (rdr.read env n []) := by
    intro n hn
    obtain ⟨e, he, rfl⟩ := List.mem_map.mp ((firstsBy_sublist [] _).subset hn)
    exact hgives e he
  obtain ⟨herr, hwriter⟩ := @copy_names env rdr Z fuel _ rdr _ _ hnames hw
  refine ⟨cerr, ?_⟩
  simp only [writeCorpus, hit, hloop, herr, hwriter, readAll]

/-! ## The new corpus -/

/-- A reader on an archive serves the entries that were written. -/
theorem serves_archive {entries : List (Str × Str)} {r : CompactCorpusReaderPrivate} (har : Archived Z entries r)
    (ha : Archivable Z entries) (hl : LiveFrom Z .fresh r r) (hempty : [] ∉ entries.map (·.1)) {doc : Str → Str}
    (hdoc : ∀ e ∈ entries, e.2 = doc e.1) (env : Env) (sortOrder : SortOrder) :
    Serves env (.corpus (.leaf (.compact (r.corpus Z)))) sortOrder (entries.map (·.1)) doc := by
  have hlists : (Reader.corpus (.leaf (.compact (r.corpus Z)))).Lists env sortOrder (entries.map (·.1)) := by
    have hnames : (r.indices.map fun item => (⟨item.name, []⟩ : Entry)).map Entry.name = entries.map (·.1) := by
      rw [har.items, List.map_map]
      rfl
    exact ⟨_, _, rfl, Iter.deliver_index r.indices, hnames⟩
  refine serves_runXPath (usesRunXPath_compact env _) hlists ha.names hempty fun n hn => ?_
  obtain ⟨e, he, rfl⟩ := List.mem_map.mp hn
  refine Reader.gives_compact_iff.mpr fun before => ?_
  have hread := har.read ha hl before e.1
  rw [written_mem ha.names he, hdoc e he] at hread
  exact hread

theorem getLast?_append_ext {base ext : Str} (h : ext = dataExt ∨ ext = indexExt) :
    ∃ c, (base ++ ext).getLast? = some c ∧ c ≠ 47 := by
  rcases h with rfl | rfl
  · exact ⟨122, by rw [List.getLast?_append_of_ne_nil _ (by decide)]; decide, by decide⟩
  · exact ⟨120, by rw [List.getLast?_append_of_ne_nil _ (by decide)]; decide, by decide⟩

theorem canonicalize_ext {base ext : Str} (h : ext = dataExt ∨ ext = indexExt) : canonicalize (base ++ ext) = .ok base := by
  rcases h with rfl | rfl
  · rw [canonicalize, if_pos (by simp [endsWith])]
    simp [dataExt, str]
  · have hne : ¬endsWith (base ++ indexExt) dataExt = true := by
      intro hsuffix
      obtain ⟨t, ht⟩ := List.isSuffixOf_iff_suffix.mp hsuffix
      have hlast := congrArg List.getLast? ht
      rw [List.getLast?_append_of_ne_nil _ (by decide), List.getLast?_append_of_ne_nil _ (by decide)] at hlast
      exact absurd hlast (by decide)
    rw [canonicalize, if_neg hne, if_pos (by simp [endsWith])]
    simp [indexExt, str]

/-- The factory opens a finished archive by either of its files. -/
theorem factoryOpen_archive {node : Str → Node} {container : Str → Except Str DbCorpus} {fuel : Nat} {base data index : Str}
    (hdata : node (base ++ dataExt) = .regular data) (hindex : node (base ++ indexExt) = .regular index)
    {r : CompactCorpusReaderPrivate} (hopen : openFile fuel data index = .ok r) {ext : Str}
    (hext : ext = dataExt ∨ ext = indexExt) :
    factoryOpen (env.onDisk node container fuel Z) (base ++ ext) = .ok (.compact (r.corpus Z)) := by
  obtain ⟨c, hlast, hc⟩ := @getLast?_append_ext base ext hext
  have hdir : directoryPath (base ++ ext) = .ok (base ++ ext) := by rw [directoryPath, hlast]; simp only [if_neg hc]
  have hnode : ∃ bytes, node (base ++ ext) = .regular bytes := by
    rcases hext with rfl | rfl
    · exact ⟨_, hdata⟩
    · exact ⟨_, hindex⟩
  obtain ⟨bytes, hnode⟩ := hnode
  have hleaf : openDirectory (env.onDisk node container fuel Z) (base ++ ext) =
      raise (.openError (base ++ ext) (str "non-existent or not a directory")) := by
    rw [openDirectory_onDisk fuel hdir, hnode]
  have hcompact : (env.onDisk node container fuel Z).openCompact (base ++ ext) = .ok (r.corpus Z) := by
    simp [Env.onDisk, create, canonicalize_ext hext, construct, hdata, hindex, hopen, bind, Except.bind]
  rw [factoryOpen, hleaf, hcompact]
  rfl

/-- The files of a compact corpus are on a disk. -/
structure OnDisk (node : Str → Node) (base : Str) (files : Str × Str) : Prop where
  data : node (base ++ dataExt) = .regular files.1
  index : node (base ++ indexExt) = .regular files.2

/-- The files of a writer that took these names, on a disk: the factory
opens them, and the reader serves the names. -/
theorem written_serves {names : List Str} {doc : Str → Str} (hempty : [] ∉ names)
    (ha : Archivable Z (names.map (withDoc doc))) {w : CompactCorpusWriterPrivate Z}
    (hw : (openFiles Z).writeEntries (names.map (withDoc doc)) = (.ok (), w)) {secs : Nat} {node : Str → Node}
    {container : Str → Except Str DbCorpus} {base : Str} (hdisk : OnDisk node base (w.close secs)) {fuel : Nat}
    (hfuel : 0 < fuel) {ext : Str} (hext : ext = dataExt ∨ ext = indexExt) :
    ∃ l, factoryOpen (env.onDisk node container fuel Z) (base ++ ext) = .ok l ∧
      ∀ sortOrder, Serves (env.onDisk node container fuel Z) (.corpus (.leaf l)) sortOrder names doc := by
  obtain ⟨w', hw', hopens⟩ := ha.opens secs
  obtain rfl : w = w' := (Prod.mk.inj (hw.symm.trans hw')).2
  obtain ⟨r, hopen, har, hl⟩ := hopens fuel hfuel
  have hnames : (names.map (withDoc doc)).map (·.1) = names := by
    rw [List.map_map]
    exact List.map_id _
  refine ⟨_, factoryOpen_archive hdisk.data hdisk.index hopen hext, fun sortOrder => ?_⟩
  have hdoc : ∀ e ∈ names.map (withDoc doc), e.2 = doc e.1 := by
    intro e he
    obtain ⟨n, -, rfl⟩ := List.mem_map.mp he
    rfl
  have hserves := serves_archive har ha hl (by rw [hnames]; exact hempty) hdoc (env.onDisk node container fuel Z) sortOrder
  rwa [hnames] at hserves

/-- **Conversion.** The new corpus, opened by either of its files, serves
the entries of the old one in the order in which they were first delivered,
each once, up to the first that cannot be read; the run ends as the reads
do. No read of the old corpus may depend on those before it. -/
theorem conversion_serves {query : Str} {sortOrder : SortOrder} {it : Iter} {es : List Entry}
    (hit : requested env rdr query sortOrder = .ok it) (hd : it.Deliver env es)
    (hgives : ∀ e ∈ es, rdr.Gives env e.name (rdr.read env e.name [])) (hempty : [] ∉ good env rdr es)
    (ha : Archivable Z ((good env rdr es).map (withDoc (docOf env rdr)))) :
    ∃ n, ∀ fuel ≥ n, ∃ cerr w,
      writeCorpus env fuel writeEntry rdr query sortOrder (openFiles Z) = (readAll env rdr es, cerr, w) ∧
      ∀ secs node container base, OnDisk node base (w.close secs) → ∀ fuel', 0 < fuel' →
        ∀ ext, ext = dataExt ∨ ext = indexExt →
        ∃ l, factoryOpen (env.onDisk node container fuel' Z) (base ++ ext) = .ok l ∧
          ∀ sortOrder', Serves (env.onDisk node container fuel' Z) (.corpus (.leaf l)) sortOrder' (good env rdr es)
            (docOf env rdr) := by
  obtain ⟨w, hw, -⟩ := ha.opens 0
  obtain ⟨n, hn⟩ := writeCorpus_compact hit hd hgives hw
  refine ⟨n, fun fuel hfuel => ?_⟩
  obtain ⟨cerr, hrun⟩ := hn fuel hfuel
  exact ⟨cerr, w, hrun, fun secs node container base hdisk fuel' hfuel' ext hext =>
    written_serves hempty ha hw hdisk hfuel' hext⟩

/-- A corpus that lists one name twice, and an entry of more bytes than a
vector may have. -/
def sampleOld : CompactCorpus where
  indices := [⟨str "1.xml", 0, 4⟩, ⟨str "2.xml", 4, 4⟩, ⟨str "1.xml", 0, 4⟩, ⟨str "3.xml", 8, 2 ^ 63⟩, ⟨str "4.xml", 8, 4⟩]
  readEntry before n := if n = str "3.xml" then raise .lengthError else
    (sampleCorpus [(str "1.xml", str "<a/>"), (str "2.xml", str "<b/>"), (str "4.xml", str "<c/>")]).readEntry before n

/-- `1.xml` and `2.xml` are written, `3.xml` ends the run. -/
theorem sample_conversion_serves :
    ∃ n, ∀ fuel ≥ n, ∃ cerr w,
      writeCorpus (sampleEnv [] []) fuel writeEntry (.corpus (.leaf (.compact sampleOld))) [] .naturalOrder
          (openFiles (Stored.zlib 0)) =
        (raise .lengthError, cerr, w) ∧
      ∀ secs node container base, OnDisk node base (w.close secs) → ∀ fuel', 0 < fuel' →
        ∀ ext, ext = dataExt ∨ ext = indexExt →
        ∃ l, factoryOpen ((sampleEnv [] []).onDisk node container fuel' (Stored.zlib 0)) (base ++ ext) = .ok l ∧
          ∀ sortOrder', Serves ((sampleEnv [] []).onDisk node container fuel' (Stored.zlib 0)) (.corpus (.leaf l)) sortOrder'
            [str "1.xml", str "2.xml"] (docOf (sampleEnv [] []) (.corpus (.leaf (.compact sampleOld)))) := by
  have hgood : good (sampleEnv [] []) (.corpus (.leaf (.compact sampleOld)))
      (sampleOld.indices.map fun item => ⟨item.name, []⟩) = [str "1.xml", str "2.xml"] := by decide
  have hread : readAll (sampleEnv [] []) (.corpus (.leaf (.compact sampleOld)))
      (sampleOld.indices.map fun item => ⟨item.name, []⟩) = raise .lengthError := by decide
  have h := @conversion_serves (sampleEnv [] []) (.corpus (.leaf (.compact sampleOld))) (Stored.zlib 0) [] .naturalOrder _ _ rfl
    (Iter.deliver_index _) (fun _ _ => Reader.gives_compact_iff.mpr fun _ => rfl) (by rw [hgood]; decide)
    (by rw [hgood]; exact .of_perm (.refl _) (by decide) (by decide) (by decide) (by decide))
  rwa [hgood, hread] at h

/-! ## Queries before and after -/

/-- No separator starts before the one between two strings, unless one does
in the first string, or it ends in the part of one that the next completes. -/
theorem not_separator_join {c : UInt8} {cs p : Str} (h : ¬separator <+: c :: cs) (hend : ¬str "+|" <:+ c :: cs) :
    ¬separator <+: c :: (cs ++ (separator ++ p)) := by
  rintro ⟨rest, hrest⟩
  have hsep : separator = [43, 124, 43] := by decide
  rw [hsep] at hrest h
  rcases cs with _ | ⟨d, _ | ⟨d', ds⟩⟩
  · simp at hrest
  · simp only [List.cons_append, List.nil_append, List.cons.injEq] at hrest
    obtain ⟨rfl, rfl, -⟩ := hrest
    exact hend (by decide)
  · simp only [List.cons_append, List.nil_append, List.cons.injEq] at hrest
    obtain ⟨rfl, rfl, rfl, -⟩ := hrest
    exact h ⟨ds, rfl⟩

/-- The induction is on what is left to read of the first string. -/
theorem splitLoop_join {part q p : Str} (hne : part ++ q ≠ []) (hsep : ¬separator <:+ q) (hend : ¬str "+|" <:+ q) :
    splitLoop part (q ++ (separator ++ p)) = splitLoop part q ++ splitLoop [] p := by
  induction hn : q.length using Nat.strongRecOn generalizing part q with
  | ind n ih =>
    cases q with
    | nil =>
      have hpart : part.isEmpty = false := by simpa using hne
      rw [List.nil_append, splitLoop_sep rfl, splitLoop, hpart]
      rfl
    | cons c cs =>
      by_cases h : separator <+: c :: cs
      · obtain ⟨rest, hrest⟩ := h
        have hrest_ne : rest ≠ [] := by
          rintro rfl
          exact hsep (by rw [← hrest, List.append_nil])
        have hsub : rest <:+ c :: cs := ⟨separator, hrest⟩
        have hlen := congrArg List.length hrest
        rw [List.length_append, length_separator] at hlen
        rw [← hrest, List.append_assoc, splitLoop_sep rfl, splitLoop_sep rfl, List.cons_append,
          ih rest.length (by omega) (by simpa using hrest_ne) (fun h => hsep (h.trans hsub))
            (fun h => hend (h.trans hsub)) rfl]
      · have hsuffix := List.suffix_cons c cs
        rw [List.cons_append, splitLoop_cons (not_separator_join h hend), splitLoop_cons h,
          ih cs.length (by rw [← hn]; simp) (by simp) (fun h => hsep (h.trans hsuffix)) (fun h => hend (h.trans hsuffix)) rfl]

theorem splitString_join {q p : Str} (hq : q ≠ []) (hp : p ≠ []) (hsep : ¬separator <:+ q) (hend : ¬str "+|" <:+ q) :
    splitString (q ++ (separator ++ p)) = splitString q ++ splitString p := by
  have hne : ¬(q ++ (separator ++ p)).isEmpty = true := by simp [hq]
  rw [splitString, splitString, splitString, if_neg hne, if_neg (by simpa using hq), if_neg (by simpa using hp),
    splitLoop_join (by simpa using hq) hsep hend]

/-- What is written of a corpus that serves its entries. -/
theorem good_query {sortOrder : SortOrder} {names : List Str} {doc : Str → Str} (h : Serves env rdr sortOrder names doc)
    {queries : List Str} (hne : queries ≠ []) :
    good env rdr (pipeline env doc queries names) = names.filter (Matches env doc queries) := by
  rw [good, firsts_pipeline h.nodup hne, List.takeWhile_eq_self_iff]
  intro n hn
  exact isOk_iff.mpr ⟨_, (h.reads n (List.mem_of_mem_filter hn)).read⟩

theorem readAll_ok {es : List Entry} (h : good env rdr es = firstsBy id [] (es.map Entry.name)) : readAll env rdr es = .ok () := by
  refine firstError_ok fun o ho => ?_
  obtain ⟨n, hn, rfl⟩ := List.mem_map.mp ho
  rw [← h] at hn
  rw [read_good hn]
  rfl

theorem requested_query {query : Str} (h : query ≠ []) (sortOrder : SortOrder) :
    requested env rdr query sortOrder = rdr.query env .xpath query sortOrder := if_neg (by simpa using h)

/-- **A query on what another query kept.** A corpus made with the query `q`
answers `p` as the old one answers `q+|+p`, if no stage ends with an error. -/
theorem query_after_conversion {sortOrder : SortOrder} {names : List Str} {doc : Str → Str}
    (h : Serves env rdr sortOrder names doc) {q p : Str} (hq : Accepted env (splitString q))
    (hp : Accepted env (splitString p)) (heval : ∀ n ∈ names, ErrorFree env (splitString q ++ splitString p) (doc n))
    (hqne : q ≠ []) (hpne : p ≠ []) (hsep : ¬separator <:+ q) (hend : ¬str "+|" <:+ q)
    (ha : Archivable Z ((names.filter (Matches env doc (splitString q))).map (withDoc doc))) :
    ∃ n, ∀ fuel ≥ n, ∃ cerr w,
      writeCorpus env fuel writeEntry rdr q sortOrder (openFiles Z) = (.ok (), cerr, w) ∧
      ∀ secs node container base, OnDisk node base (w.close secs) → ∀ fuel', 0 < fuel' →
        ∀ ext, ext = dataExt ∨ ext = indexExt →
        ∃ l, factoryOpen (env.onDisk node container fuel' Z) (base ++ ext) = .ok l ∧
          ∀ sortOrder', ∃ old new es, rdr.query env .xpath (q ++ (separator ++ p)) sortOrder = .ok old ∧ old.Deliver env es ∧
            (Reader.corpus (.leaf l)).query (env.onDisk node container fuel' Z) .xpath p sortOrder' = .ok new ∧
            new.Deliver (env.onDisk node container fuel' Z) es := by
  have hjoin := splitString_join hqne hpne hsep hend
  have hdoc : ∀ n ∈ names, docOf env rdr n = doc n := by
    intro n hn
    rw [docOf, show rdr.readEntry env n = _ from (h.reads n hn).read]
  have hgood := good_query h (splitString_ne_nil q)
  have hentries : (good env rdr (pipeline env doc (splitString q) names)).map (withDoc (docOf env rdr)) =
      (names.filter (Matches env doc (splitString q))).map (withDoc doc) := by
    rw [hgood]
    exact List.map_congr_left fun n hn => congrArg (Prod.mk n) (hdoc n (List.mem_of_mem_filter hn))
  obtain ⟨w, hw, -⟩ := ha.opens 0
  have hevalq : ∀ n ∈ names, ErrorFree env (splitString q) (doc n) := fun n hn s hs =>
    heval n hn s (List.mem_append_left _ hs)
  have hevalp : ∀ n ∈ names, ErrorFree env (splitString p) (doc n) := fun n hn s hs =>
    heval n hn s (List.mem_append_right _ hs)
  obtain ⟨it, hit, hd⟩ := h.answers q hq hevalq
  rw [← requested_query hqne] at hit
  rw [← hentries] at hw
  have hgives : ∀ e ∈ pipeline env doc (splitString q) names, rdr.Gives env e.name (rdr.read env e.name []) := by
    intro e he
    have hread := h.reads e.name (mem_pipeline he)
    rwa [hread.read]
  obtain ⟨n, hn⟩ := writeCorpus_compact hit hd hgives hw
  rw [hentries] at hw
  have hall : readAll env rdr (pipeline env doc (splitString q) names) = .ok () :=
    readAll_ok (by rw [hgood, firsts_pipeline h.nodup (splitString_ne_nil q)])
  refine ⟨n, fun fuel hfuel => ?_⟩
  obtain ⟨cerr, hrun⟩ := hn fuel hfuel
  refine ⟨cerr, w, by rw [hrun, hall], fun secs node container base hdisk fuel' hfuel' ext hext => ?_⟩
  obtain ⟨l, hopen, hserves⟩ := @written_serves env Z _ _ (fun hmem => h.nonempty (List.mem_of_mem_filter hmem)) ha w hw
    secs node container base hdisk fuel' hfuel' ext hext
  refine ⟨l, hopen, fun sortOrder' => ?_⟩
  obtain ⟨old, hold, hdold⟩ := h.answers (q ++ (separator ++ p))
    (by rw [hjoin]; exact List.forall_mem_append.mpr ⟨hq, hp⟩) (by rw [hjoin]; exact heval)
  obtain ⟨new, hnew, hdnew⟩ := (hserves sortOrder').answers p hp fun n hn => hevalp n (List.mem_of_mem_filter hn)
  rw [hjoin, ← pipeline_filter _ (splitString_ne_nil p)] at hdold
  exact ⟨old, new, _, hold, hdold, hnew, hdnew⟩

theorem sample_query_after_conversion :
    ∃ n, ∀ fuel ≥ n, ∃ cerr w,
      writeCorpus (sampleEnv [] sampleValues) fuel writeEntry (.corpus (.leaf (.compact (sampleCorpus sampleDocs))))
          (str "//b") .naturalOrder (openFiles (Stored.zlib 0)) = (.ok (), cerr, w) ∧
      ∀ secs node container base, OnDisk node base (w.close secs) → ∀ fuel', 0 < fuel' →
        ∀ ext, ext = dataExt ∨ ext = indexExt →
        ∃ l, factoryOpen ((sampleEnv [] sampleValues).onDisk node container fuel' (Stored.zlib 0)) (base ++ ext) = .ok l ∧
          ∀ sortOrder', ∃ old new es,
            (Reader.corpus (.leaf (.compact (sampleCorpus sampleDocs)))).query (sampleEnv [] sampleValues) .xpath
              (str "//b" ++ (separator ++ str "//a")) .naturalOrder = .ok old ∧
            old.Deliver (sampleEnv [] sampleValues) es ∧
            (Reader.corpus (.leaf l)).query ((sampleEnv [] sampleValues).onDisk node container fuel' (Stored.zlib 0)) .xpath
              (str "//a") sortOrder' = .ok new ∧
            new.Deliver ((sampleEnv [] sampleValues).onDisk node container fuel' (Stored.zlib 0)) es := by
  have hserves : Serves (sampleEnv [] sampleValues) (.corpus (.leaf (.compact (sampleCorpus sampleDocs)))) .naturalOrder
      [str "1.xml", str "2.xml"] sampleDoc :=
    serves_runXPath (usesRunXPath_compact _ _) ⟨_, _, rfl, Iter.deliver_index _, by decide⟩ (by decide) (by decide) (by
      simp only [(sampleCorpus_steady _).gives_iff]
      decide)
  have hmatches : [str "1.xml", str "2.xml"].filter (Matches (sampleEnv [] sampleValues) sampleDoc (splitString (str "//b"))) =
      [str "2.xml"] := by decide
  refine query_after_conversion hserves (by decide) (by decide) (by decide) (by decide) (by decide) (by decide) (by decide) ?_
  rw [hmatches]
  exact .of_perm (.refl _) (by decide) (by decide) (by decide) (by decide)

end Create

end AlpinoCorpus
