/-
The treebanks of a command line. The utilities open them as one corpus, each
under the name of its file without the extension. Names are told apart by
`NameCompare`, and paths are taken apart at the longest name, so what is on
the command line is all there exactly when the names allow it
(`openCorpora_complete_iff`).
-/
import AlpinoCorpus.Registration
import AlpinoCorpus.Transforming

namespace AlpinoCorpus.Util

open OrdMap MultiCorpusReaderPrivate

/-- `path::filename()`, which is a dot behind a slash. -/
def lastPart (p : Str) : Str := if p.getLast? = some 47 then str "." else filename p

/-- The name `openCorpora` registers a treebank under: of a directory all of
its path, without one slash at the end, of a file the last part. -/
def corpusName (isDir : Bool) (path : Str) : Str :=
  let p := if isDir ∧ path.getLast? = some 47 then path.dropLast else path
  let p := dropExtension p
  if isDir then p else lastPart p

def openCorpora (env : Env) (recursive : Bool) (paths : List Str) : Outcome MultiCorpusReaderPrivate :=
  paths.foldlM (fun readers path => do
    let isDir ← env.isDirectory path
    readers.pushBack env (corpusName isDir path) path (recursive && isDir)) empty

/-! ## What is opened -/

/-- Whether there is a directory at a path, where that can be determined. -/
def isDir (env : Env) (path : Str) : Bool :=
  match env.isDirectory path with
  | .ok b => b
  | .error _ => false

/-- The name of the treebank at a path. -/
def treebankName (env : Env) (path : Str) : Str := corpusName (isDir env path) path

/-- There is a corpus at the path, with these entries. -/
structure Treebank (env : Env) (sortOrder : SortOrder) (recursive : Bool) (path : Str) (names : List Str)
    (doc : Str → Except Exn Str) : Prop where
  found : env.pathExists path = .ok true
  determined : env.isDirectory path = .ok (isDir env path)
  nonempty : names ≠ []
  opens : ∃ reader, openCorpus env (path, recursive && isDir env path) = .ok reader ∧
    Stocks env sortOrder (.corpus reader) names doc

variable {env : Env} {sortOrder : SortOrder} {recursive : Bool} {paths : List Str} {names : Str → List Str}
  {doc : Str → Str → Except Exn Str} {m : MultiCorpusReaderPrivate}

def registrations (env : Env) (recursive : Bool) (paths : List Str) : List Registration :=
  paths.map fun path => (treebankName env path, (path, recursive && isDir env path))

theorem openCorpora_ok (h : ∀ path ∈ paths, env.pathExists path = .ok true ∧ env.isDirectory path = .ok (isDir env path)) :
    openCorpora env recursive paths = .ok (registerAll (registrations env recursive paths) empty) := by
  rw [openCorpora, registrations]
  generalize empty = m
  induction paths generalizing m with
  | nil => rfl
  | cons path paths ih =>
    obtain ⟨⟨hexists, hdir⟩, hpaths⟩ := List.forall_mem_cons.mp h
    have hpush : m.pushBack env (treebankName env path) path (recursive && isDir env path) =
        .ok (m.register (treebankName env path) path (recursive && isDir env path)) := by
      rw [pushBack, hexists]
      rfl
    rw [List.foldlM_cons, hdir]
    show (m.pushBack env (treebankName env path) path (recursive && isDir env path) >>= _) = _
    rw [hpush]
    exact ih hpaths _

/-- The paths of all entries, each under the name of its treebank. -/
def entryPaths (env : Env) (paths : List Str) (names : Str → List Str) : List Str :=
  paths.flatMap fun path => (names path).map fun n => treebankName env path ++ 47 :: n

/-- The reader lists every entry of every treebank once, looks for it in its
treebank, and answers queries on all of them. -/
def Complete (env : Env) (sortOrder : SortOrder) (recursive : Bool) (paths : List Str) (names : Str → List Str)
    (doc : Str → Str → Except Exn Str) (m : MultiCorpusReaderPrivate) : Prop :=
  ∃ (listed : List Str) (docs : Str → Except Exn Str), Keeps env sortOrder (.multi m) listed docs ∧
    listed.Perm (entryPaths env paths names) ∧
    ∀ path ∈ paths, ∀ n ∈ names path, docs (treebankName env path ++ 47 :: n) = doc path n ∧
      m.Reaches (treebankName env path ++ 47 :: n) (path, recursive && isDir env path) n

/-- No treebank has the name of another, for the map. -/
def ToldApart (env : Env) (paths : List Str) : Prop :=
  paths.Pairwise fun p q => ¬StrictWeak.Equiv nameCompare (treebankName env p) (treebankName env q)

/-- Every treebank has a name, and no longer name begins the path of one of
its entries. -/
def Found (env : Env) (paths : List Str) (names : Str → List Str) : Prop :=
  ∀ path ∈ paths, treebankName env path ≠ [] ∧ ∀ n ∈ names path, ∀ path' ∈ paths,
    treebankName env path' <+: treebankName env path ++ 47 :: n → (treebankName env path').length ≤ (treebankName env path).length

/-! ## What is listed -/

theorem corpora_opened : (registerAll (registrations env recursive paths) empty).corpora =
    paths.map fun path => (path, recursive && isDir env path) := by
  rw [corpora_registerAll, registrations, List.map_map]
  rfl

/-- What is in the map is a treebank of the command line. -/
theorem treebank_of_mem {c : Str × (Str × Bool)} (hm : m = registerAll (registrations env recursive paths) empty)
    (hc : c ∈ m.corporaMap.entries) : ∃ path ∈ paths, c.2 = (path, recursive && isDir env path) := by
  have hperm := corpora_perm (registrations env recursive paths)
  rw [← hm] at hperm
  have hmem := hperm.subset (List.mem_append_left _ (List.mem_map_of_mem hc))
  rw [hm, corpora_opened] at hmem
  obtain ⟨path, hpath, heq⟩ := List.mem_map.mp hmem
  exact ⟨path, hpath, heq.symm⟩

/-- A listing of the reader has the entries of the treebanks that are left in
the map. -/
theorem length_listed (h : ∀ path ∈ paths, Treebank env sortOrder recursive path (names path) (doc path))
    (hm : m = registerAll (registrations env recursive paths) empty) {listed : List Str}
    (hlists : (Reader.multi m).Lists env sortOrder listed) :
    listed.length = ((m.corporaMap.entries.map Prod.snd).map fun c => (names c.1).length).sum := by
  obtain ⟨es, hd, hes⟩ := m.lists_corpora (fun c => names c.2.1) fun c hc => by
    obtain ⟨path, hpath, heq⟩ := treebank_of_mem hm hc
    obtain ⟨reader, hopen, hstocks⟩ := (h path hpath).opens
    exact .inr ⟨reader, heq ▸ hopen, by rw [heq]; exact hstocks.lists⟩
  obtain ⟨it, es', hit, hd', rfl⟩ := hlists
  obtain rfl : .multi (.ofEntries m.corporaMap sortOrder) = it := Except.ok.inj hit
  rw [hd'.unique hd, hes, List.length_flatMap, List.map_map]
  simp only [List.length_map, Function.comp_def]

/-- With every entry listed, no treebank has lost its name. -/
theorem toldApart_of_listed (h : ∀ path ∈ paths, Treebank env sortOrder recursive path (names path) (doc path))
    (hm : m = registerAll (registrations env recursive paths) empty) {listed : List Str}
    (hlists : (Reader.multi m).Lists env sortOrder listed) (hperm : listed.Perm (entryPaths env paths names)) :
    ToldApart env paths := by
  have hlen : (entryPaths env paths names).length = (m.corpora.map fun c => (names c.1).length).sum := by
    rw [hm, corpora_opened, entryPaths, List.length_flatMap, List.map_map]
    simp only [List.length_map, Function.comp_def]
  have hall := ((corpora_perm (registrations env recursive paths)).map fun c => (names c.1).length).sum_eq
  rw [← hm, List.map_append, List.sum_append, ← hlen, ← hperm.length_eq, length_listed h hm hlists] at hall
  have hzero := (sum_eq_zero_iff _).mp (Nat.add_left_cancel (hall.trans (Nat.add_zero _).symm))
  have hnil : replaced nameCompare (registrations env recursive paths) [] = [] := by
    rw [List.eq_nil_iff_forall_not_mem]
    intro c hc
    have hmem : c ∈ m.corpora := by
      rw [hm]
      exact (corpora_perm _).subset (List.mem_append_right _ hc)
    rw [hm, corpora_opened] at hmem
    obtain ⟨path, hpath, rfl⟩ := List.mem_map.mp hmem
    exact (h path hpath).nonempty (List.length_eq_zero_iff.mp (hzero _ (List.mem_map_of_mem hc)))
  have hpair := (pairwise_of_replaced_nil strictWeak_nameCompare List.Pairwise.nil hnil).2
  rwa [registrations, List.pairwise_map] at hpair

/-! ## What is found -/

theorem ToldApart.injective (h : ToldApart env paths) {p q : Str} (hp : p ∈ paths) (hq : q ∈ paths)
    (heq : treebankName env p = treebankName env q) : p = q := by
  have hsymm : Std.Symm fun p q => ¬StrictWeak.Equiv nameCompare (treebankName env p) (treebankName env q) :=
    ⟨fun _ _ h he => h (And.symm he)⟩
  by_contra hne
  refine List.Pairwise.forall h hp hq hne ?_
  rw [heq]
  exact strictWeak_nameCompare.equiv_refl _

/-- Names that are told apart are all in the map. -/
theorem ToldApart.entries_perm (h : ToldApart env paths) (hm : m = registerAll (registrations env recursive paths) empty) :
    m.corporaMap.entries.Perm (registrations env recursive paths) := by
  refine MultiCorpusReaderPrivate.entries_perm hm ?_
  rw [registrations, List.pairwise_map]
  exact h

theorem ToldApart.mem_entries_iff (h : ToldApart env paths) (hm : m = registerAll (registrations env recursive paths) empty)
    {c : Str × (Str × Bool)} : c ∈ m.corporaMap.entries ↔
      ∃ path ∈ paths, (treebankName env path, (path, recursive && isDir env path)) = c := by
  rw [(h.entries_perm hm).mem_iff, registrations, List.mem_map]

/-- Where a path that begins with a name is looked for in a corpus: no longer
name begins it, and the corpus of the empty name is the one of no name. -/
theorem longest_of_reaches {name n : Str} {c corpus : Str × Bool} (hmem : (name, c) ∈ m.corporaMap.entries)
    (h : m.Reaches (name ++ 47 :: n) corpus n) :
    (∀ c ∈ m.corporaMap.entries, c.1 <+: name ++ 47 :: n → c.1.length ≤ name.length) ∧ (name = [] → corpus = ([], false)) := by
  have hname : name <+: name ++ 47 :: n := List.prefix_append _ _
  rcases m.search_cases (name ++ 47 :: n) with ⟨hnone, -⟩ | ⟨l, corpus', hl, hlp, hlmax, hc, he⟩
  · exact absurd hname (hnone _ hmem)
  · split at he
    · -- a reading that never fails
      have hok := h Unit (fun _ => .ok ()) fun _ _ => .ok []
      rw [readEntry, hc, he] at hok
      cases hok
    · next hin =>
      obtain ⟨rfl, hdrop⟩ := h.eq (reaches_of_ok hc he)
      have hlen := congrArg List.length hdrop
      rw [List.length_drop, List.length_append, List.length_cons] at hlen
      rw [List.length_append, List.length_cons] at hin
      have hle := hlmax _ hmem hname
      have hll : l.length = name.length := by omega
      obtain rfl : l = name := prefix_eq_of_length hlp hname hll
      exact ⟨hlmax, fun hnil => if_pos hnil⟩

/-- The path of no corpus cannot be opened. -/
theorem openCorpus_nil {reader : Corpus} : openCorpus env ([], false) ≠ .ok reader := nofun

theorem found_of_reaches (h : ∀ path ∈ paths, Treebank env sortOrder recursive path (names path) (doc path))
    (hm : m = registerAll (registrations env recursive paths) empty) (hapart : ToldApart env paths)
    (hreaches : ∀ path ∈ paths, ∀ n ∈ names path,
      m.Reaches (treebankName env path ++ 47 :: n) (path, recursive && isDir env path) n) : Found env paths names := by
  intro path hpath
  have hmem := (hapart.mem_entries_iff hm).mpr ⟨path, hpath, rfl⟩
  constructor
  · intro hnil
    obtain ⟨n, hn⟩ := List.exists_mem_of_ne_nil _ (h path hpath).nonempty
    obtain ⟨reader, hopen, -⟩ := (h path hpath).opens
    rw [(longest_of_reaches hmem (hreaches path hpath n hn)).2 hnil] at hopen
    exact openCorpus_nil hopen
  · intro n hn path' hpath' hp
    exact (longest_of_reaches hmem (hreaches path hpath n hn)).1 _ ((hapart.mem_entries_iff hm).mpr ⟨path', hpath', rfl⟩) hp

/-! ## What is all there -/

/-- What an entry is read as, if it is read or throws. -/
def readOf (env : Env) (rdr : Reader) (entry : Str) : Except Exn Str :=
  match rdr.read env entry [] with
  | .ok content => .ok content
  | .error (.raised e) => .error e
  | .error _ => .error .logicError

theorem readOf_eq {rdr : Reader} {entry : Str} {d : Except Exn Str} (h : rdr.read env entry [] = d.mapError .raised) :
    readOf env rdr entry = d := by
  rw [readOf, h]
  cases d <;> rfl

/-- The entries of the treebank of a name. -/
def namesOf (env : Env) (paths : List Str) (names : Str → List Str) (name : Str) : List Str :=
  (paths.find? fun path => treebankName env path = name).elim [] names

theorem namesOf_name (h : ToldApart env paths) {path : Str} (hpath : path ∈ paths) :
    namesOf env paths names (treebankName env path) = names path := by
  have hfind : paths.find? (fun p => treebankName env p = treebankName env path) = some path := by
    cases hf : paths.find? (fun p => treebankName env p = treebankName env path) with
    | none => simpa using List.find?_eq_none.mp hf path hpath
    | some p =>
      have hp := List.find?_some hf
      rw [h.injective (List.mem_of_find?_eq_some hf) hpath (by simpa using hp)]
  rw [namesOf, hfind]
  rfl

theorem read_entry (h : ∀ path ∈ paths, Treebank env sortOrder recursive path (names path) (doc path))
    (hm : m = registerAll (registrations env recursive paths) empty) (hapart : ToldApart env paths)
    (hfound : Found env paths names) {path n : Str} (hpath : path ∈ paths) (hn : n ∈ names path) :
    m.Reaches (treebankName env path ++ 47 :: n) (path, recursive && isDir env path) n ∧
      (Reader.multi m).read env (treebankName env path ++ 47 :: n) [] = (doc path n).mapError .raised := by
  have hreaches : m.Reaches (treebankName env path ++ 47 :: n) (path, recursive && isDir env path) n :=
    fun ρ opener read => readEntry_longest opener read (hfound path hpath).1
      ((hapart.mem_entries_iff hm).mpr ⟨path, hpath, rfl⟩) fun c hc hp => by
        obtain ⟨path', hpath', rfl⟩ := (hapart.mem_entries_iff hm).mp hc
        exact (hfound path hpath).2 n hn path' hpath' hp
  refine ⟨hreaches, ?_⟩
  obtain ⟨reader, hopen, hstocks⟩ := (h path hpath).opens
  rw [read_nil, Reader.readEntry, hreaches, hopen]
  exact hstocks.read n hn

theorem allStock (h : ∀ path ∈ paths, Treebank env sortOrder recursive path (names path) (doc path))
    (hm : m = registerAll (registrations env recursive paths) empty) (hapart : ToldApart env paths)
    (hfound : Found env paths names) : AllStock env sortOrder m (namesOf env paths names) (readOf env (.multi m)) := by
  have hentries := fun c => (hapart.mem_entries_iff hm (c := c)).mp
  refine ⟨fun c hc => ?_, fun c hc => ?_, fun c hc n hn c' hc' hp => ?_⟩
  · obtain ⟨path, hpath, rfl⟩ := hentries c hc
    obtain ⟨reader, hopen, hstocks⟩ := (h path hpath).opens
    refine .inr ⟨reader, hopen, ?_⟩
    simp only [namesOf_name hapart hpath]
    refine ⟨hstocks.base, hstocks.lists, hstocks.nodup, hstocks.nonempty, fun n hn => ?_⟩
    rw [readOf_eq (read_entry h hm hapart hfound hpath hn).2]
    exact hstocks.reads n hn
  · obtain ⟨path, hpath, rfl⟩ := hentries c hc
    exact (hfound path hpath).1
  · obtain ⟨path, hpath, rfl⟩ := hentries c hc
    obtain ⟨path', hpath', rfl⟩ := hentries c' hc'
    rw [namesOf_name hapart hpath] at hn
    exact (hfound path hpath).2 n hn path' hpath' hp

theorem paths_perm (hm : m = registerAll (registrations env recursive paths) empty) (hapart : ToldApart env paths) :
    (m.paths (namesOf env paths names)).Perm (entryPaths env paths names) := by
  refine ((hapart.entries_perm hm).flatMap_right _).trans (List.Perm.of_eq ?_)
  rw [registrations, List.flatMap_map, entryPaths]
  exact List.flatMap_congr fun path hpath => by rw [namesOf_name hapart hpath]

/-! ## Files -/

theorem slash_notMem_filename (p : Str) : 47 ∉ filename p := by
  intro hmem
  rw [filename, List.mem_reverse] at hmem
  simpa using List.mem_takeWhile_imp hmem

theorem slash_notMem_treebankName {path : Str} (h : isDir env path = false) : 47 ∉ treebankName env path := by
  have hname : treebankName env path = lastPart (dropExtension path) := by simp [treebankName, corpusName, h]
  rw [hname, lastPart]
  split
  · decide
  · exact slash_notMem_filename _

/-- The name of a file has no slash, and cannot begin a longer part of a path
than its first. -/
theorem found_files_iff (hfiles : ∀ path ∈ paths, isDir env path = false) :
    Found env paths names ↔ ∀ path ∈ paths, treebankName env path ≠ [] := by
  refine ⟨fun h path hpath => (h path hpath).1, fun h path hpath => ⟨h path hpath, fun n _ path' hpath' hp => ?_⟩⟩
  by_contra hlen
  have hslash : treebankName env path ++ [47] <+: treebankName env path' := prefix_of_path hp (by omega)
  exact slash_notMem_treebankName (hfiles path' hpath') (hslash.subset (by simp))

/-- **The treebanks of a command line** are all there exactly when `NameCompare`
tells their names apart, and no longer name begins the path of an entry; for
files, when their names are told apart and not empty. -/
theorem openCorpora_complete_iff (h : ∀ path ∈ paths, Treebank env sortOrder recursive path (names path) (doc path)) :
    ∃ m, openCorpora env recursive paths = .ok m ∧
      (Complete env sortOrder recursive paths names doc m ↔ ToldApart env paths ∧ Found env paths names) ∧
      ((∀ path ∈ paths, isDir env path = false) →
        (Found env paths names ↔ ∀ path ∈ paths, treebankName env path ≠ [])) := by
  refine ⟨_, openCorpora_ok fun path hpath => ⟨(h path hpath).found, (h path hpath).determined⟩, ⟨?_, ?_⟩, found_files_iff⟩
  · rintro ⟨listed, docs, hkeeps, hperm, hreads⟩
    have hapart := toldApart_of_listed h rfl hkeeps.lists hperm
    exact ⟨hapart, found_of_reaches h rfl hapart fun path hpath n hn => (hreads path hpath n hn).2⟩
  · rintro ⟨hapart, hfound⟩
    refine ⟨_, _, (allStock h rfl hapart hfound).keeps, paths_perm rfl hapart, fun path hpath n hn => ?_⟩
    obtain ⟨hreaches, hread⟩ := read_entry h rfl hapart hfound hpath hn
    exact ⟨readOf_eq hread, hreaches⟩

/-- Three treebank files; `w1` and `w01` are one name for the map. -/
def treebankEnv : Env :=
  sampleEnv [(str "x/w1.index", sampleDocs), (str "y/w01.index", sampleDocs), (str "y/w2.index", sampleDocs)] sampleValues

theorem treebank_sample {path : Str} (hpath : path ∈ [str "x/w1.index", str "y/w01.index", str "y/w2.index"]) :
    Treebank treebankEnv .naturalOrder true path [str "1.xml", str "2.xml"] fun n => .ok (sampleDoc n) := by
  have hcompact : openCorpus treebankEnv (path, false) = .ok (.leaf (.compact (sampleCorpus sampleDocs))) := by
    simp only [List.mem_cons, List.not_mem_nil, or_false] at hpath
    rcases hpath with rfl | rfl | rfl <;> rfl
  have hreads : ∀ n ∈ [str "1.xml", str "2.xml"], (Reader.corpus (.leaf (.compact (sampleCorpus sampleDocs)))).Gives treebankEnv n
      (.ok (sampleDoc n)) := by
    simp only [(sampleCorpus_steady _).gives_iff]
    decide
  refine ⟨?_, rfl, by decide, _, hcompact, usesRunXPath_compact _ _, ⟨_, _, rfl, Iter.deliver_index _, by decide⟩,
    by decide, by decide, hreads⟩
  simp only [List.mem_cons, List.not_mem_nil, or_false] at hpath
  rcases hpath with rfl | rfl | rfl <;> rfl

theorem sample_openCorpora_complete :
    (∃ m, openCorpora treebankEnv true [str "x/w1.index", str "y/w2.index"] = .ok m ∧
      Complete treebankEnv .naturalOrder true [str "x/w1.index", str "y/w2.index"] (fun _ => [str "1.xml", str "2.xml"])
        (fun _ n => .ok (sampleDoc n)) m) ∧
    ∃ m, openCorpora treebankEnv true [str "x/w1.index", str "y/w01.index"] = .ok m ∧
      ¬Complete treebankEnv .naturalOrder true [str "x/w1.index", str "y/w01.index"] (fun _ => [str "1.xml", str "2.xml"])
        (fun _ n => .ok (sampleDoc n)) m := by
  have hdifferent : [str "x/w1.index", str "y/w2.index"] ⊆ [str "x/w1.index", str "y/w01.index", str "y/w2.index"] := by decide
  have hsame : [str "x/w1.index", str "y/w01.index"] ⊆ [str "x/w1.index", str "y/w01.index", str "y/w2.index"] := by decide
  constructor
  · obtain ⟨m, hm, hcomplete, hfiles⟩ := @openCorpora_complete_iff treebankEnv .naturalOrder true _
      (fun _ => [str "1.xml", str "2.xml"]) (fun _ n => .ok (sampleDoc n)) fun path hpath => treebank_sample (hdifferent hpath)
    refine ⟨m, hm, hcomplete.mpr ⟨?_, (hfiles fun _ _ => rfl).mpr (by decide)⟩⟩
    unfold ToldApart StrictWeak.Equiv
    decide
  · obtain ⟨m, hm, hcomplete, -⟩ := @openCorpora_complete_iff treebankEnv .naturalOrder true _
      (fun _ => [str "1.xml", str "2.xml"]) (fun _ n => .ok (sampleDoc n)) fun path hpath => treebank_sample (hsame hpath)
    refine ⟨m, hm, fun h => ?_⟩
    have hapart := (hcomplete.mp h).1
    revert hapart
    unfold ToldApart StrictWeak.Equiv
    decide

end AlpinoCorpus.Util
