/-
A directory tree searched for corpora. The constructor names each file it
accepts by its path, without the directory and the extension, and these
names are the keys of the reader of many corpora: a file whose name is
another's, or one that `NameCompare` does not tell from it, takes its place.
-/
import AlpinoCorpus.Registration

namespace AlpinoCorpus

open OrdMap

namespace RecursiveCorpusReaderPrivate

/-- A file that is taken for a corpus. -/
def isCorpus (dactOnly : Bool) (path : Str) : Bool :=
  extension path = str ".dact" || (!dactOnly && extension path = str ".index")

theorem skip_iff (dactOnly : Bool) (path : Str) :
    (extension path ≠ str ".dact" ∧ (dactOnly ∨ extension path ≠ str ".index")) ↔ isCorpus dactOnly path = false := by
  simp [isCorpus, imp_iff_not_or]

/-- The files that are taken for corpora. -/
def accepted (dactOnly : Bool) (paths : List Str) : List Str := paths.filter (isCorpus dactOnly)

/-- The name of a file in the tree. -/
def corpusName (d_directory path : Str) : Str := (dropExtension path).drop (d_directory.length + 1)

theorem found_eq (d : Str) (dactOnly : Bool) (paths : List Str) :
    found d dactOnly paths = (accepted dactOnly paths).map fun path => (corpusName d path, (path, false)) := by
  induction paths with
  | nil => rfl
  | cons path paths ih =>
    cases hcorpus : isCorpus dactOnly path with
    | false =>
      have hskip := (skip_iff dactOnly path).mpr hcorpus
      rw [accepted, List.filter_cons_of_neg (by simp [hcorpus]), ← accepted, ← ih]
      exact List.filterMap_cons_none (if_pos hskip)
    | true =>
      have hskip : ¬_ := fun h => absurd ((skip_iff dactOnly path).mp h) (by simp [hcorpus])
      rw [accepted, List.filter_cons_of_pos hcorpus, ← accepted, List.map_cons, ← ih]
      exact List.filterMap_cons_some (if_neg hskip)

/-- The constructor returns if every file it accepts is there. -/
theorem registerFiles_total {env : Env} {d : Str} {dactOnly : Bool} : ∀ {paths : List Str} (r : RecursiveCorpusReaderPrivate),
    (∀ path ∈ accepted dactOnly paths, env.pathExists path = .ok true) → ∃ r', registerFiles env d dactOnly paths r = .ok r'
  | [], r, _ => ⟨r, rfl⟩
  | path :: paths, r, h => by
    rw [accepted, List.filter_cons] at h
    rw [registerFiles]
    simp only [skip_iff]
    cases hcorpus : isCorpus dactOnly path with
    | false =>
      rw [if_neg (by simp [hcorpus])] at h
      rw [if_pos rfl]
      exact registerFiles_total r h
    | true =>
      rw [if_pos hcorpus, List.forall_mem_cons] at h
      simp only [Bool.true_eq_false, if_false, h.1, bind, Except.bind, if_true]
      exact registerFiles_total _ h.2

/-- Every accepted file is visited once by a full run, and the size is the
number of entries the run delivers. -/
def LosesNone (env : Env) (r : RecursiveCorpusReaderPrivate) (files : List Str) (sortOrder : SortOrder) : Prop :=
  ∃ visited es, MultiCorpusReaderPrivate.Visits env r.multiReader sortOrder visited es ∧
    (visited.map (·.filename)).Perm files ∧ r.getSize env = .ok es.length

/-- A plain corpus counts as many entries as it delivers. -/
theorem sizeOfCorpus_plain (env : Env) {c : Str × Bool} (hc : c.2 = false) :
    MultiCorpusReaderPrivate.sizeOfCorpus (openCorpus env) (Corpus.delivered env) c = plainCount env c := by
  rw [plainCount, MultiCorpusReaderPrivate.sizeOfCorpus, MultiCorpusReaderPrivate.sizeOfCorpus, openCorpus_plain hc]
  cases factoryOpen env c.1 with
  | error s => rfl
  | ok l => rfl

section

open MultiCorpusReaderPrivate

variable {env : Env} {r : RecursiveCorpusReaderPrivate} {ps : List Registration}

/-- The size, all corpora inside being opened. -/
theorem getSize_opened (hopen : ∀ c ∈ r.multiReader.corpora, ∃ l, factoryOpen env c.1 = .ok l) :
    r.getSize env = .ok (r.multiReader.corpora.map (plainCount env)).sum := by
  have hsize : (Corpus.recursive r).getSize env = .ok (r.multiReader.corpora.map (plainCount env)).sum :=
    Corpus.getSize_iff.mpr ⟨fun c hc => .inl (hopen c hc), rfl⟩
  exact hsize

/-- Names that are told apart: as many entries as are counted. -/
theorem length_entries_plain (hm : r.multiReader = registerAll ps .empty)
    (hpair : ps.Pairwise fun p q => ¬StrictWeak.Equiv nameCompare p.1 q.1) (sortOrder : SortOrder) :
    (r.multiReader.entries env sortOrder).length = (r.multiReader.corpora.map (plainCount env)).sum := by
  have hcorpora : r.multiReader.corpora = ps.map Prod.snd := by rw [hm, corpora_registerAll]; rfl
  have hplain : ∀ c ∈ r.multiReader.corpora, sizeOfCorpus (openCorpus env) (Corpus.delivered env) c = plainCount env c :=
    fun c hc => sizeOfCorpus_plain env (r.plain c hc)
  rw [length_entries, (((entries_perm hm hpair).map Prod.snd).map _).sum_eq, ← hcorpora]
  exact congrArg List.sum (List.map_congr_left hplain)

/-- Of a reader with these files registered. -/
theorem losesNone_registered {d : Str} {files : List Str}
    (hm : r.multiReader = registerAll (files.map fun path => (corpusName d path, (path, false))) .empty)
    (hopen : ∀ path ∈ files, ∃ l, factoryOpen env path = .ok l) (sortOrder : SortOrder) :
    LosesNone env r files sortOrder ↔
      files.Pairwise fun p q => ¬StrictWeak.Equiv nameCompare (corpusName d p) (corpusName d q) := by
  have hcorpora : r.multiReader.corpora = files.map fun path => (path, false) := by
    rw [hm, corpora_registerAll, List.map_map]
    rfl
  have hopened : ∀ c ∈ r.multiReader.corpora, ∃ l, factoryOpen env c.1 = .ok l := by
    rw [hcorpora, List.forall_mem_map]
    exact hopen
  have hsettled : r.multiReader.Settled env := by
    have hperm := corpora_perm (files.map fun path => (corpusName d path, (path, false)))
    rw [← hm] at hperm
    exact Settled.of_plain fun c hc => ⟨r.plainMap c hc, .inl (hopened c.2
      (hperm.subset (List.mem_append_left _ (List.mem_map_of_mem hc))))⟩
  have hvisits := visits_settled hsettled sortOrder
  rw [← List.pairwise_map (f := fun path => (corpusName d path, (path, false)))
    (R := fun p q : Registration => ¬StrictWeak.Equiv nameCompare p.1 q.1)]
  constructor
  · intro h
    obtain ⟨visited, es, hv, hperm, -⟩ := h
    obtain ⟨rfl, rfl⟩ := hv.unique hvisits
    exact pairwise_of_visited hm (by simpa using hperm.length_eq)
  · intro hpair
    refine ⟨_, _, hvisits, ?_, ?_⟩
    · have hperm := ((entries_perm hm hpair).map Prod.snd).map Prod.fst
      simpa [MultiIter.readerIters, Function.comp_def] using hperm
    · rw [getSize_opened hopened, length_entries_plain hm hpair]

/-- What the constructor makes of a directory whose corpora can be opened. -/
theorem construct_total {directory d : Str} {dactOnly : Bool} (hd : directoryPath directory = .ok d)
    (hdir : env.pathExists d = .ok true ∧ env.isDirectory d = .ok true)
    (hexists : ∀ path ∈ accepted dactOnly (env.listing d), env.pathExists path = .ok true) :
    ∃ r, construct env directory dactOnly = .ok r ∧
      r.multiReader = registerAll ((accepted dactOnly (env.listing d)).map fun path => (corpusName d path, (path, false))) .empty := by
  obtain ⟨r, hr⟩ := registerFiles_total (d := d) .empty hexists
  refine ⟨r, by rw [construct, hd]; simp [bind, Except.bind, Env.isPresentDirectory, hdir, hr], ?_⟩
  rw [← found_eq]
  exact registerFiles_ok hr

/-- **A recursive reader loses no corpus file** exactly when the names it
gives them are told apart. -/
theorem losesNone_iff {directory d : Str} {dactOnly : Bool} (hd : directoryPath directory = .ok d)
    (hdir : env.pathExists d = .ok true ∧ env.isDirectory d = .ok true)
    (hopen : ∀ path ∈ accepted dactOnly (env.listing d), env.pathExists path = .ok true ∧ ∃ l, factoryOpen env path = .ok l)
    (sortOrder : SortOrder) :
    ∃ r, construct env directory dactOnly = .ok r ∧
      (LosesNone env r (accepted dactOnly (env.listing d)) sortOrder ↔
        (accepted dactOnly (env.listing d)).Pairwise fun p q =>
          ¬StrictWeak.Equiv nameCompare (corpusName d p) (corpusName d q)) := by
  obtain ⟨r, hr, hm⟩ := construct_total hd hdir fun path hpath => (hopen path hpath).1
  exact ⟨r, hr, losesNone_registered hm (fun path hpath => (hopen path hpath).2) sortOrder⟩

end

/-- A directory `d` of compact corpora with one entry each, whatever their
extension. -/
def treeEnv (files : List Str) : Env :=
  { sampleEnv (files.map fun f => (str "d/" ++ f, [(str "1.xml", str "<a/>")])) [] with
    pathExists := fun _ => .ok true
    isDirectory := fun p => .ok (p = str "d")
    below := fun _ => files }

theorem sample_losesNone_iff :
    ∃ r, construct (treeEnv [str "a.dact", str "b.index"]) (str "d/") false = .ok r ∧
      (LosesNone (treeEnv [str "a.dact", str "b.index"]) r
          (accepted false ((treeEnv [str "a.dact", str "b.index"]).listing (str "d"))) .naturalOrder ↔
        (accepted false ((treeEnv [str "a.dact", str "b.index"]).listing (str "d"))).Pairwise fun p q =>
          ¬StrictWeak.Equiv nameCompare (corpusName (str "d") p) (corpusName (str "d") q)) := by
  have hfiles : accepted false ((treeEnv [str "a.dact", str "b.index"]).listing (str "d")) =
      [str "d/a.dact", str "d/b.index"] := by decide
  refine losesNone_iff (by decide) (by decide) ?_ .naturalOrder
  rw [hfiles]
  simp only [List.forall_mem_cons, List.not_mem_nil, false_imp_iff, implies_true, and_true]
  exact ⟨⟨rfl, _, rfl⟩, rfl, _, rfl⟩

/-- `a.dact` and `a.index` have one name: one of them is visited, and both
are counted. -/
theorem same_name_loses_file :
    ∃ r, construct (treeEnv [str "a.dact", str "a.index"]) (str "d") false = .ok r ∧
      (∀ path ∈ [str "d/a.dact", str "d/a.index"], ∃ l, factoryOpen (treeEnv [str "a.dact", str "a.index"]) path = .ok l) ∧
      r.getSize (treeEnv [str "a.dact", str "a.index"]) = .ok 2 ∧
      ¬LosesNone (treeEnv [str "a.dact", str "a.index"]) r [str "d/a.dact", str "d/a.index"] .naturalOrder := by
  have hfiles : accepted false ((treeEnv [str "a.dact", str "a.index"]).listing (str "d")) =
      [str "d/a.dact", str "d/a.index"] := by decide
  have hd : directoryPath (str "d") = .ok (str "d") := by decide
  have hdir : (treeEnv [str "a.dact", str "a.index"]).pathExists (str "d") = .ok true ∧
      (treeEnv [str "a.dact", str "a.index"]).isDirectory (str "d") = .ok true := by decide
  have hexists : ∀ path ∈ accepted false ((treeEnv [str "a.dact", str "a.index"]).listing (str "d")),
      (treeEnv [str "a.dact", str "a.index"]).pathExists path = .ok true := fun _ _ => rfl
  obtain ⟨r, hr, hm⟩ := construct_total hd hdir hexists
  rw [hfiles] at hm
  have hopen : ∀ path ∈ [str "d/a.dact", str "d/a.index"], ∃ l, factoryOpen (treeEnv [str "a.dact", str "a.index"]) path = .ok l := by
    simp only [List.forall_mem_cons, List.not_mem_nil, false_imp_iff, implies_true, and_true]
    exact ⟨⟨_, rfl⟩, _, rfl⟩
  have hcorpora : r.multiReader.corpora = [(str "d/a.dact", false), (str "d/a.index", false)] := by
    rw [hm, MultiCorpusReaderPrivate.corpora_registerAll]
    rfl
  have hopened : ∀ c ∈ r.multiReader.corpora, ∃ l, factoryOpen (treeEnv [str "a.dact", str "a.index"]) c.1 = .ok l := by
    intro c hc
    rw [hcorpora] at hc
    exact hopen c.1 (List.mem_map_of_mem (f := Prod.fst) hc)
  refine ⟨r, hr, hopen, ?_, fun h => ?_⟩
  · rw [getSize_opened hopened, hcorpora]
    decide
  · have hpair := (losesNone_registered hm hopen .naturalOrder).mp h
    unfold StrictWeak.Equiv at hpair
    exact absurd hpair (by decide)

end RecursiveCorpusReaderPrivate

end AlpinoCorpus
