/-
A query over many corpora runs in one of two ways. `MultiCorpusReader` asks
every corpus and puts the answers together; `RecursiveCorpusReader`, whose
`runXPath` does not override that of the base class, filters the entries of
all corpora and reads each document back by its path. Both deliver the same.
-/
import AlpinoCorpus.PathLookup

namespace AlpinoCorpus

open Iteration OrdMap

/-! ## Reading back -/

namespace MultiCorpusReaderPrivate

/-- No name is another one, a slash, and more. -/
def Separate (m : MultiCorpusReaderPrivate) : Prop :=
  ∀ c ∈ m.corporaMap.entries, ∀ c' ∈ m.corporaMap.entries, ¬c.1 ++ [47] <+: c'.1

theorem prefix_of_path {n name e : Str} (h : name <+: n ++ 47 :: e) (hlen : n.length < name.length) : n ++ [47] <+: name := by
  have hn : n ++ [47] <+: n ++ 47 :: e := by
    rw [List.prefix_append_right_inj]
    exact ⟨e, rfl⟩
  exact List.prefix_of_prefix_length_le hn h (by rw [List.length_append, List.length_singleton]; exact hlen)

theorem Separate.longest {m : MultiCorpusReaderPrivate} (h : m.Separate) {c : Str × (Str × Bool)}
    (hc : c ∈ m.corporaMap.entries) (e : Str) :
    ∀ c' ∈ m.corporaMap.entries, c'.1 <+: c.1 ++ 47 :: e → c'.1.length ≤ c.1.length := by
  intro c' hc' hp
  by_contra hlen
  exact h c hc c' hc' (prefix_of_path hp (by omega))

/-- A path has one name. -/
theorem Separate.name_unique {m : MultiCorpusReaderPrivate} (h : m.Separate) {c c' : Str × (Str × Bool)}
    (hc : c ∈ m.corporaMap.entries) (hc' : c' ∈ m.corporaMap.entries) {e e' : Str}
    (heq : c.1 ++ 47 :: e = c'.1 ++ 47 :: e') : c = c' ∧ e = e' := by
  have hp : c.1 <+: c.1 ++ 47 :: e := List.prefix_append _ _
  have hp' : c'.1 <+: c.1 ++ 47 :: e := heq ▸ List.prefix_append _ _
  have hlen : c'.1.length = c.1.length :=
    le_antisymm (h.longest hc e c' hc' hp') (h.longest hc' e' c hc (heq ▸ hp))
  have hname : c'.1 = c.1 := (List.prefix_of_prefix_length_le hp' hp hlen.le).eq_of_length hlen
  rw [hname] at heq
  obtain rfl : c = c' :=
    m.corporaMap.sorted.unique hc hc' (by rw [hname]; exact strictWeak_nameCompare.equiv_refl _)
  exact ⟨rfl, by simpa using heq⟩

end MultiCorpusReaderPrivate

theorem read_nil (env : Env) (rdr : Reader) (entry : Str) : rdr.read env entry [] = rdr.readEntry env entry := rfl

/-- A recursive reader reads as the reader of many corpora inside it. -/
theorem RecursiveCorpusReaderPrivate.readEntry_eq (env : Env) (r : RecursiveCorpusReaderPrivate) (path : Str) :
    r.readEntry env path = (Reader.multi r.multiReader).readEntry env path := by
  rw [RecursiveCorpusReaderPrivate.readEntry, Reader.readEntry, MultiCorpusReaderPrivate.readEntry,
    MultiCorpusReaderPrivate.readEntry]
  cases hc : r.multiReader.corpusFromPath path with
  | error s => rfl
  | ok corpus =>
    have hplain : corpus.2 = false := by
      obtain ⟨l, c, hloop, -, hl, -⟩ :=
        MultiCorpusReaderPrivate.loops_longest path r.multiReader.corporaMap.entries false [] ([], false)
      rw [MultiCorpusReaderPrivate.corpusFromPath, hloop] at hc
      split at hc
      · next heq =>
        injection hc with hc
        obtain rfl : c = corpus := (congrArg Prod.snd heq).trans hc
        rcases hl with ⟨-, rfl⟩ | ⟨hmem, -, -⟩
        · rfl
        · exact r.plainMap _ hmem
      · cases hc
    simp only [bind, Except.bind]
    rw [openCorpus_plain hplain]
    cases factoryOpen env corpus.1 with
    | error s => rfl
    | ok l => rfl

/-! ## The two ways -/

/-- The sequence a query delivers; one that throws delivers nothing, and one
whose stages are accepted does not throw. -/
def Returns (env : Env) (query : Outcome Iter) (queries : List Str) (es : List Entry) : Prop :=
  match query with
  | .ok it => it.Deliver env es
  | .error _ => es = [] ∧ ¬Accepted env queries

theorem Returns.mono {env : Env} {query : Outcome Iter} {queries queries' : List Str} {es : List Entry}
    (h : Returns env query queries es) (hacc : Accepted env queries' → Accepted env queries) : Returns env query queries' es := by
  cases query with
  | ok it => exact h
  | error s => exact ⟨h.1, fun hq => h.2 (hacc hq)⟩

/-- A query as the base class runs it. -/
def baseQuery (env : Env) (rdr : Reader) (q : Str) (sortOrder : SortOrder) : Outcome Iter :=
  CorpusReader.query env rdr (CorpusReader.runXPath env rdr (rdr.getEntries env)) (rdr.runXQuery env) .xpath q sortOrder

/-- The document an entry is read as. -/
def docOf (env : Env) (rdr : Reader) (entry : Str) : Str :=
  match rdr.readEntry env entry with
  | .ok doc => doc
  | .error _ => []

/-- The values of a stage on an entry. -/
def answersOf (env : Env) (rdr : Reader) (q entry : Str) : List Str := stageValues env q (docOf env rdr entry)

/-- What a reader's entries deliver, if they deliver anything. -/
noncomputable def listed (env : Env) (rdr : Reader) (sortOrder : SortOrder) : List Entry :=
  open Classical in
  if h : ∃ es it, rdr.getEntries env sortOrder = .ok it ∧ it.Deliver env es then h.choose else []

/-- The reader runs queries with `CorpusReader::runXPath`, and its entries
have names that are distinct and not empty, and can be read; the stages end
on them without errors. -/
structure Queryable (env : Env) (sortOrder : SortOrder) (queries : List Str) (rdr : Reader) : Prop where
  base : rdr.UsesRunXPath env
  lists : ∃ names, rdr.Lists env sortOrder names ∧ names.Nodup ∧ [] ∉ names ∧
    ∀ n ∈ names, ∃ doc, rdr.read env n [] = .ok doc ∧ ErrorFree env queries doc

variable {env : Env} {sortOrder : SortOrder} {queries : List Str}

theorem Queryable.listed {rdr : Reader} (h : Queryable env sortOrder queries rdr) :
    (∃ it, rdr.getEntries env sortOrder = .ok it ∧ it.Deliver env (listed env rdr sortOrder)) ∧
      ((listed env rdr sortOrder).map Entry.name).Nodup ∧ (∀ e ∈ listed env rdr sortOrder, e.name ≠ []) ∧
      ∀ e ∈ listed env rdr sortOrder, rdr.read env e.name [] = .ok (docOf env rdr e.name) ∧
        ErrorFree env queries (docOf env rdr e.name) := by
  obtain ⟨names, ⟨it, es, hit, hd, hnames⟩, hnodup, hempty, hread⟩ := h.lists
  have hex : ∃ es it, rdr.getEntries env sortOrder = .ok it ∧ it.Deliver env es := ⟨es, it, hit, hd⟩
  obtain ⟨it', hit', hd'⟩ := hex.choose_spec
  have hchoose : AlpinoCorpus.listed env rdr sortOrder = hex.choose := by rw [AlpinoCorpus.listed, dif_pos hex]
  obtain rfl : it = it' := by
    rw [hit] at hit'
    injection hit'
  have hes : AlpinoCorpus.listed env rdr sortOrder = es := by rw [hchoose]; exact hd'.unique hd
  rw [hes, hnames]
  refine ⟨⟨it, hit, hd⟩, hnodup, fun e he h => ?_, fun e he => ?_⟩
  · exact hempty (by rw [← hnames, ← h]; exact List.mem_map_of_mem he)
  · obtain ⟨doc, hdoc, heval⟩ := hread e.name (by rw [← hnames]; exact List.mem_map_of_mem he)
    have hdocOf : docOf env rdr e.name = doc := by rw [docOf, show rdr.readEntry env e.name = _ from hdoc]
    rw [hdocOf]
    exact ⟨hdoc, heval⟩

/-- A stage on entries with distinct names. -/
theorem stage_distinct {vals : Str → List Str} {es : List Entry} (hnodup : (es.map Entry.name).Nodup)
    (hempty : ∀ e ∈ es, e.name ≠ []) :
    FilterIter.stage vals [] es = es.flatMap fun e => (vals e.name).map (Entry.mk e.name) := by
  have hgroup : FilterIter.Grouped (es.map Entry.name) (fun _ => 1) es := by
    simp [FilterIter.Grouped, List.flatMap_singleton']
  have hmem : [] ∉ es.map Entry.name := fun h => by
    obtain ⟨e, he, hname⟩ := List.mem_map.mp h
    exact hempty e he hname
  rw [FilterIter.stage_grouped vals hnodup hmem hgroup, List.flatMap_map]
  simp

/-- The stages after the first. -/
theorem returns_stages {rdr : Reader} {it : Iter} {es : List Entry} (queries : List Str) (hd : it.Deliver env es)
    (hread : ∀ e ∈ es, rdr.read env e.name [] = .ok (docOf env rdr e.name))
    (heval : ∀ e ∈ es, ErrorFree env queries (docOf env rdr e.name)) :
    Returns env (queries.foldlM (fun it q => Iter.filter <$> FilterIter.create env rdr it q) it) queries
      (if Accepted env queries then FilterIter.stages (answersOf env rdr) es queries else []) := by
  split
  · next hq =>
    obtain ⟨it', hit', hd'⟩ := deliver_stages hd hread hq heval
    rw [hit']
    exact hd'
  · next hq =>
    obtain ⟨e, he⟩ := foldlM_rejected rdr it hq
    rw [he]
    exact ⟨rfl, hq⟩

/-! ### Asking every corpus -/

variable {m : MultiCorpusReaderPrivate} {q₁ : Str}

/-- Every corpus is refused, or can be queried. -/
def AllQueryable (env : Env) (sortOrder : SortOrder) (queries : List Str) (m : MultiCorpusReaderPrivate) : Prop :=
  ∀ c ∈ m.corporaMap.entries, (∃ e, openCorpus env c.2 = .error (.raised e) ∧ e.isOpenError = true) ∨
    ∃ reader, openCorpus env c.2 = .ok reader ∧ Queryable env sortOrder queries (.corpus reader)

theorem AllQueryable.opened (h : AllQueryable env sortOrder queries m) : ∀ c ∈ m.corporaMap.entries, Opened (openCorpus env c.2) := by
  intro c hc
  rcases h c hc with he | ⟨reader, ho, -⟩
  · exact .inr he
  · exact .inl ⟨reader, ho⟩

theorem AllQueryable.queryable (h : AllQueryable env sortOrder queries m) {c : Str × (Str × Bool)} (hc : c ∈ m.corporaMap.entries)
    {reader : Corpus} (ho : openCorpus env c.2 = .ok reader) : Queryable env sortOrder queries (.corpus reader) := by
  rcases h c hc with ⟨e, he, -⟩ | ⟨reader', ho', hq⟩
  · rw [ho] at he; cases he
  · rw [ho] at ho'
    injection ho' with ho'
    rwa [ho']

/-- The query that a reader of many corpora starts in one of them. -/
theorem start_query {reader : Corpus} (hbase : (Reader.corpus reader).UsesRunXPath env) (h₁ : splitString q₁ = [q₁]) :
    (Iter.start env reader (.ofQuery m.corporaMap q₁ .xpath sortOrder) ()).1 =
      CorpusReader.runXPath env (.corpus reader) (reader.getEntries env) q₁ sortOrder := by
  have hquery : reader.query env .xpath q₁ sortOrder = (do
      let it ← reader.runXPath env q₁ sortOrder
      .ok it) := by
    simp only [Corpus.query, CorpusReader.query, h₁]
    rfl
  rw [show (Iter.start env reader (.ofQuery m.corporaMap q₁ .xpath sortOrder) ()).1 = reader.query env .xpath q₁ sortOrder
    from rfl, hquery, show reader.runXPath env = _ from hbase]
  exact bind_pure _

/-- The answers of one corpus to one stage. -/
noncomputable def answers (env : Env) (sortOrder : SortOrder) (q : Str) (reader : Corpus) : List Entry :=
  if env.parse (FilterIter.cStr q) then
    FilterIter.stage (answersOf env (.corpus reader) q) [] (listed env (.corpus reader) sortOrder)
  else []

/-- **Asking every corpus.** -/
theorem fresh_query (h : AllQueryable env sortOrder queries m) (hmem : q₁ ∈ queries) (h₁ : splitString q₁ = [q₁]) :
    Iter.Fresh env (.ofQuery m.corporaMap q₁ .xpath sortOrder)
      (m.corporaMap.listing (openCorpus env) (answers env sortOrder q₁)) := by
  refine fresh_listing rfl rfl rfl _ h.opened fun c hc reader ho => ?_
  have hq := h.queryable hc ho
  obtain ⟨⟨it, hit, hd⟩, -, -, hread⟩ := hq.listed
  have hit : reader.getEntries env sortOrder = .ok it := hit
  have hrun : CorpusReader.runXPath env (.corpus reader) (reader.getEntries env) q₁ sortOrder =
      Iter.filter <$> FilterIter.create env (.corpus reader) it q₁ := by
    rw [CorpusReader.runXPath, hit]
    rfl
  rw [start_query hq.base h₁, hrun, answers]
  by_cases hp : env.parse (FilterIter.cStr q₁) = true
  · rw [if_pos hp, create_ok hp]
    exact .inl ⟨_, rfl, Iter.deliver_filter ⟨.corpus reader, it, [], FilterIter.cStr q₁, [], false⟩ hd
      (fun e he => (hread e he).1) fun e he => (hread e he).2 q₁ hmem⟩
  · rw [if_neg hp, FilterIter.create, if_neg hp]
    exact .inr ⟨_, rfl, rfl, rfl⟩

/-! ### Filtering the entries of all -/

/-- A reader over `m`: the reader of many corpora, or a recursive reader. -/
structure Over (env : Env) (m : MultiCorpusReaderPrivate) (rdr : Reader) : Prop where
  entries : rdr.getEntries env = m.getEntries
  reads : ∀ path, rdr.readEntry env path = (Reader.multi m).readEntry env path

theorem over_multi (env : Env) (m : MultiCorpusReaderPrivate) : Over env m (.multi m) := ⟨rfl, fun _ => rfl⟩

theorem over_recursive (env : Env) (r : RecursiveCorpusReaderPrivate) : Over env r.multiReader (.corpus (.recursive r)) :=
  ⟨rfl, r.readEntry_eq env⟩

/-- What a reader of many corpora lists. -/
noncomputable def listedAll (env : Env) (sortOrder : SortOrder) (m : MultiCorpusReaderPrivate) : List Entry :=
  m.corporaMap.listing (openCorpus env) fun reader => listed env (.corpus reader) sortOrder

theorem fresh_listedAll (h : AllQueryable env sortOrder queries m) :
    Iter.Fresh env (.ofEntries m.corporaMap sortOrder) (listedAll env sortOrder m) :=
  fresh_listing rfl rfl rfl _ h.opened fun _ hc _ ho => .inl (h.queryable hc ho).listed.1

/-- An entry of one corpus, by its path. -/
theorem mem_listing {entries : Corpus → List Entry} {e : Entry}
    (h : e ∈ m.corporaMap.listing (openCorpus env) entries) :
    ∃ c ∈ m.corporaMap.entries, ∃ reader, openCorpus env c.2 = .ok reader ∧
      ∃ e' ∈ entries reader, e = { e' with name := c.1 ++ 47 :: e'.name } := by
  obtain ⟨c, hc, he⟩ := List.mem_flatMap.mp h
  cases ho : openCorpus env c.2 with
  | error s => simp [ho] at he
  | ok reader =>
    simp only [ho, under] at he
    obtain ⟨e', he', rfl⟩ := List.mem_map.mp he
    exact ⟨c, hc, reader, ho, e', he', rfl⟩

/-- A path is read as the entry in its corpus. -/
theorem read_path (hnames : ∀ c ∈ m.corporaMap.entries, c.1 ≠ []) (hsep : m.Separate) {c : Str × (Str × Bool)}
    (hc : c ∈ m.corporaMap.entries) {reader : Corpus} (ho : openCorpus env c.2 = .ok reader) (e : Str) :
    (Reader.multi m).readEntry env (c.1 ++ 47 :: e) = reader.readEntry env e := by
  rw [Reader.readEntry, MultiCorpusReaderPrivate.readEntry_longest _ _ (hnames c hc) hc (hsep.longest hc e), ho]
  rfl

/-- The paths of all entries are distinct. -/
theorem listedAll_nodup (h : AllQueryable env sortOrder queries m) (hsep : m.Separate) :
    ((listedAll env sortOrder m).map Entry.name).Nodup := by
  rw [listedAll, Corpora.listing, List.map_flatMap, List.nodup_flatMap]
  constructor
  · intro c hc
    cases ho : openCorpus env c.2 with
    | error s => simp
    | ok reader =>
      have hnodup := (h.queryable hc ho).listed.2.1
      have hmap : (under c.1 (listed env (.corpus reader) sortOrder)).map Entry.name =
          ((listed env (.corpus reader) sortOrder).map Entry.name).map fun n => c.1 ++ 47 :: n := by
        simp [under]
      simp only [hmap]
      exact hnodup.map fun n n' heq => by simpa using heq
  · refine List.Pairwise.imp_of_mem ?_ m.corporaMap.sorted
    intro c c' hc hc' hlt path hp hp'
    cases ho : openCorpus env c.2 with
    | error s => simp [ho] at hp
    | ok reader =>
      cases ho' : openCorpus env c'.2 with
      | error s => simp [ho'] at hp'
      | ok reader' =>
        simp only [ho, ho', under, List.map_map] at hp hp'
        obtain ⟨e, -, rfl⟩ := List.mem_map.mp hp
        obtain ⟨e', -, heq⟩ := List.mem_map.mp hp'
        rw [(hsep.name_unique hc hc' heq.symm).1, strictWeak_nameCompare.irrefl] at hlt
        cases hlt

/-- Every path is read as its corpus reads the entry. -/
theorem read_listedAll (h : AllQueryable env sortOrder queries m) (hnames : ∀ c ∈ m.corporaMap.entries, c.1 ≠ []) (hsep : m.Separate) :
    ∀ e ∈ listedAll env sortOrder m, (Reader.multi m).readEntry env e.name = .ok (docOf env (.multi m) e.name) ∧
      ErrorFree env queries (docOf env (.multi m) e.name) := by
  intro e he
  obtain ⟨c, hc, reader, ho, e', he', rfl⟩ := mem_listing he
  obtain ⟨hread, heval⟩ := (h.queryable hc ho).listed.2.2.2 e' he'
  have hread : reader.readEntry env e'.name = .ok (docOf env (.corpus reader) e'.name) := hread
  rw [docOf, read_path hnames hsep hc ho, hread]
  exact ⟨rfl, heval⟩

/-- **One stage.** Filtering all entries gives the answers of every corpus,
one corpus after the other. -/
theorem stage_listedAll (h : AllQueryable env sortOrder queries m) (hnames : ∀ c ∈ m.corporaMap.entries, c.1 ≠ []) (hsep : m.Separate)
    (hq : env.parse (FilterIter.cStr q₁) = true) :
    FilterIter.stage (answersOf env (.multi m) q₁) [] (listedAll env sortOrder m) =
      m.corporaMap.listing (openCorpus env) (answers env sortOrder q₁) := by
  have hempty : ∀ e ∈ listedAll env sortOrder m, e.name ≠ [] := by
    intro e he
    obtain ⟨c, hc, reader, -, e', -, rfl⟩ := mem_listing he
    simp
  rw [stage_distinct (listedAll_nodup h hsep) hempty, listedAll, Corpora.listing, Corpora.listing, List.flatMap_assoc]
  refine List.flatMap_congr fun c hc => ?_
  cases ho : openCorpus env c.2 with
  | error s => rfl
  | ok reader =>
    obtain ⟨-, hnodup, hne, -⟩ := (h.queryable hc ho).listed
    simp only [answers, hq, if_true]
    rw [stage_distinct hnodup hne, under, under, List.flatMap_map, List.map_flatMap]
    refine List.flatMap_congr fun e _ => ?_
    have hdoc : docOf env (.multi m) (c.1 ++ 47 :: e.name) = docOf env (.corpus reader) e.name := by
      rw [docOf, read_path hnames hsep hc ho]
      rfl
    simp only [answersOf, hdoc, List.map_map]
    rfl

/-! ## Both ways -/

theorem stages_nil (vals : Str → Str → List Str) (queries : List Str) : FilterIter.stages vals [] queries = [] := by
  induction queries with
  | nil => rfl
  | cons q queries ih => exact ih

theorem Over.answersOf {rdr : Reader} (h : Over env m rdr) : AlpinoCorpus.answersOf env rdr = AlpinoCorpus.answersOf env (.multi m) := by
  funext q path
  rw [AlpinoCorpus.answersOf, AlpinoCorpus.answersOf, docOf, docOf, h.reads path]

/-- What both ways deliver. -/
noncomputable def queryAll (env : Env) (sortOrder : SortOrder) (m : MultiCorpusReaderPrivate) (queries : List Str) : List Entry :=
  if Accepted env queries then FilterIter.stages (answersOf env (.multi m)) (listedAll env sortOrder m) queries else []

/-- Asking every corpus, stage after stage. -/
theorem returns_multi {q : Str} (h : AllQueryable env sortOrder (splitString q) m)
    (hnames : ∀ c ∈ m.corporaMap.entries, c.1 ≠ []) (hsep : m.Separate) :
    Returns env ((Reader.multi m).query env .xpath q sortOrder) (splitString q) (queryAll env sortOrder m (splitString q)) := by
  cases hs : splitString q with
  | nil => exact absurd hs (splitString_ne_nil q)
  | cons q₁ queries =>
    have h₁ : splitString q₁ = [q₁] := splitString_stage (show q₁ ∈ splitString q by simp [hs])
    rw [hs] at h
    have hread : ∀ e ∈ m.corporaMap.listing (openCorpus env) (answers env sortOrder q₁),
        (Reader.multi m).read env e.name [] = .ok (docOf env (.multi m) e.name) ∧
          ErrorFree env (q₁ :: queries) (docOf env (.multi m) e.name) := by
      intro e he
      by_cases hq : env.parse (FilterIter.cStr q₁) = true
      · rw [← stage_listedAll h hnames hsep hq] at he
        obtain ⟨e', he', hname⟩ := stage_subset he
        rw [← hname]
        exact read_listedAll h hnames hsep e' he'
      · obtain ⟨c, -, reader, -, e', he', -⟩ := mem_listing he
        rw [answers, if_neg hq] at he'
        cases he'
    have hreturns := returns_stages queries (fresh_query h List.mem_cons_self h₁).deliver (fun e he => (hread e he).1)
      fun e he q' hq' => (hread e he).2 q' (List.mem_cons_of_mem q₁ hq')
    rw [← multi_query m hs] at hreturns
    by_cases hq : env.parse (FilterIter.cStr q₁) = true
    · have hacc : Accepted env (q₁ :: queries) ↔ Accepted env queries := by simp [Accepted, hq]
      rw [← stage_listedAll h hnames hsep hq] at hreturns
      simp only [queryAll, hacc]
      exact hreturns.mono hacc.mp
    · -- every corpus refuses the first stage
      have hacc : ¬Accepted env (q₁ :: queries) := fun h => hq (h q₁ (by simp))
      have hnil : m.corporaMap.listing (openCorpus env) (answers env sortOrder q₁) = [] := by
        refine List.flatMap_eq_nil_iff.mpr fun c _ => ?_
        cases openCorpus env c.2 with
        | error s => rfl
        | ok reader => simp [answers, hq, under]
      rw [hnil, stages_nil, ite_self] at hreturns
      rw [queryAll, if_neg hacc]
      exact hreturns.mono fun h => absurd h hacc

/-- Filtering all entries, stage after stage. -/
theorem returns_over {rdr : Reader} {q : Str} (hover : Over env m rdr) (h : AllQueryable env sortOrder (splitString q) m)
    (hnames : ∀ c ∈ m.corporaMap.entries, c.1 ≠ []) (hsep : m.Separate) :
    Returns env (baseQuery env rdr q sortOrder) (splitString q) (queryAll env sortOrder m (splitString q)) := by
  have hread : ∀ e ∈ listedAll env sortOrder m, rdr.read env e.name [] = .ok (docOf env rdr e.name) ∧
      ErrorFree env (splitString q) (docOf env rdr e.name) := by
    intro e he
    obtain ⟨hread, heval⟩ := read_listedAll h hnames hsep e he
    have hdoc : docOf env rdr e.name = docOf env (.multi m) e.name := by rw [docOf, docOf, hover.reads]
    rw [read_nil, hover.reads, hread, hdoc]
    exact ⟨rfl, heval⟩
  have hreturns := returns_stages (splitString q) (fresh_listedAll h).deliver (fun e he => (hread e he).1)
    fun e he => (hread e he).2
  rw [hover.answersOf] at hreturns
  cases hs : splitString q with
  | nil => exact absurd hs (splitString_ne_nil q)
  | cons q₁ queries =>
    rw [hs, List.foldlM_cons] at hreturns
    have hentries : rdr.getEntries env sortOrder = .ok (.multi (.ofEntries m.corporaMap sortOrder)) := by
      rw [hover.entries]
      rfl
    have hrun : CorpusReader.runXPath env rdr (rdr.getEntries env) q₁ sortOrder =
        Iter.filter <$> FilterIter.create env rdr (.multi (.ofEntries m.corporaMap sortOrder)) q₁ := by
      rw [CorpusReader.runXPath, hentries]
      rfl
    simp only [baseQuery, CorpusReader.query, hs, hrun]
    exact hreturns

/-- **Query then concatenate, concatenate then filter.** The reader of many
corpora, a recursive reader over the same corpora, and the function of the
base class deliver the same entries; each returns an iterator when the stages
are accepted. -/
theorem query_then_concatenate {q : Str} (h : AllQueryable env sortOrder (splitString q) m)
    (hnames : ∀ c ∈ m.corporaMap.entries, c.1 ≠ []) (hsep : m.Separate) :
    ∃ es, Returns env ((Reader.multi m).query env .xpath q sortOrder) (splitString q) es ∧
      Returns env (baseQuery env (.multi m) q sortOrder) (splitString q) es ∧
      ∀ r : RecursiveCorpusReaderPrivate, r.multiReader = m →
        Returns env ((Reader.corpus (.recursive r)).query env .xpath q sortOrder) (splitString q) es := by
  refine ⟨_, returns_multi h hnames hsep, returns_over (over_multi env m) h hnames hsep, ?_⟩
  rintro r rfl
  exact returns_over (over_recursive env r) h hnames hsep

/-- Three corpora; the second does not open. -/
def treebanks : MultiCorpusReaderPrivate :=
  ((MultiCorpusReaderPrivate.empty.register (str "a") (str "a.index") false).register (str "b") (str "b.index") false).register
    (str "c/d") (str "d.index") false

def treebanksEnv : Env :=
  sampleEnv [(str "a.index", sampleDocs), (str "d.index", [(str "1.xml", str "<s><a>x</a></s>")])] sampleValues

theorem queryable_sample {docs : List (Str × Str)} (queries : List Str) (hnodup : (docs.map Prod.fst).Nodup)
    (hempty : [] ∉ docs.map Prod.fst) : Queryable treebanksEnv .naturalOrder queries (.corpus (.leaf (.compact (sampleCorpus docs)))) := by
  refine ⟨rfl, docs.map Prod.fst, ⟨_, _, rfl, Iter.deliver_index _, ?_⟩, hnodup, hempty, fun n hn => ?_⟩
  · simp [sampleCorpus]
  · cases hl : docs.lookup n with
    | none =>
      obtain ⟨d, hd, rfl⟩ := List.mem_map.mp hn
      exact absurd (List.lookup_eq_none_iff.mp hl d hd) (by simp)
    | some doc =>
      exact ⟨doc, by simp [read_nil, Reader.readEntry, Corpus.readEntry, Leaf.readEntry, sampleCorpus, hl], fun _ _ => rfl⟩

theorem sample_query_then_concatenate :
    ∃ es, Returns treebanksEnv ((Reader.multi treebanks).query treebanksEnv .xpath (str "//b+|+//a") .naturalOrder)
        (splitString (str "//b+|+//a")) es ∧
      Returns treebanksEnv (baseQuery treebanksEnv (.multi treebanks) (str "//b+|+//a") .naturalOrder)
        (splitString (str "//b+|+//a")) es ∧
      ∀ r : RecursiveCorpusReaderPrivate, r.multiReader = treebanks →
        Returns treebanksEnv ((Reader.corpus (.recursive r)).query treebanksEnv .xpath (str "//b+|+//a") .naturalOrder)
          (splitString (str "//b+|+//a")) es := by
  have hentries : treebanks.corporaMap.entries =
      [(str "a", (str "a.index", false)), (str "b", (str "b.index", false)), (str "c/d", (str "d.index", false))] := by decide
  have hsep : treebanks.Separate := by
    unfold MultiCorpusReaderPrivate.Separate
    decide
  have hall : AllQueryable treebanksEnv .naturalOrder (splitString (str "//b+|+//a")) treebanks := by
    intro c hc
    simp only [hentries, List.mem_cons, List.not_mem_nil, or_false] at hc
    rcases hc with rfl | rfl | rfl
    · exact .inr ⟨_, rfl, queryable_sample _ (by decide) (by decide)⟩
    · exact .inl ⟨_, rfl, rfl⟩
    · exact .inr ⟨_, rfl, queryable_sample _ (by decide) (by decide)⟩
  exact query_then_concatenate hall (by decide) hsep

/-! ## Skip and concatenate -/

/-- How a corpus of the map turns out: its iterator delivers these entries,
it does not open, or its query does not start. -/
inductive Turnout
  | delivers (es : List Entry)
  | openError
  | queryError

def Turnout.given : Turnout → Option (List Entry)
  | delivers es => some es
  | openError | queryError => none

def Turnout.entries (t : Turnout) : List Entry := t.given.getD []

namespace MultiIter

variable {W κ : Type}

/-- What `openTip` asks of a reader: the query, or the entries. -/
def ask (entries : Corpus → SortOrder → W → Outcome κ × W)
    (query : Corpus → QueryDialect → Str → SortOrder → W → Outcome κ × W) (reader : Corpus) (it : MultiIter κ) (w : W) :
    Outcome κ × W :=
  if it.d_hasQuery then query reader it.d_dialect it.d_query it.d_sortOrder w else entries reader it.d_sortOrder w

/-- A corpus turns out so, when it is its turn in a run for `it`. -/
def TurnsOut (env : Env) (inner : Body W κ) (start : Corpus → MultiIter κ → W → Outcome κ × W) (rdr : Reader)
    (it : MultiIter κ) (tip : ReaderIter) : Turnout → Prop
  | .delivers es => ∃ reader, openCorpus env (tip.filename, tip.recursive) = .ok reader ∧
      ∀ w, ∃ iter w', start reader it w = (.ok iter, w') ∧ Delivers (inner.machine rdr) (iter, w') es false
  | .openError => ∃ e, e.isOpenError = true ∧ openCorpus env (tip.filename, tip.recursive) = raise e
  | .queryError => ∃ reader, openCorpus env (tip.filename, tip.recursive) = .ok reader ∧
      ∀ w, ∃ e w', e.isRuntimeError = true ∧ start reader it w = (raise e, w')

variable {env : Env} {inner : Body W κ} {rdr : Reader} {entries : Corpus → SortOrder → W → Outcome κ × W}
  {query : Corpus → QueryDialect → Str → SortOrder → W → Outcome κ × W}

/-- Every request of the run asks the same of a reader. -/
theorem ask_request {it it' : MultiIter κ} (h : it'.request = it.request) (reader : Corpus) (w : W) :
    ask entries query reader it' w = ask entries query reader it w := by
  simp only [request, Prod.mk.injEq] at h
  obtain ⟨h₁, h₂, h₃, h₄⟩ := h
  rw [ask, ask, h₁, h₂, h₃, h₄]

theorem TurnsOut.opens {it : MultiIter κ} {tip : ReaderIter} : ∀ {t : Turnout},
    TurnsOut env inner (ask entries query) rdr it tip t →
    Opens inner (openTip env (ask entries query)) rdr it tip t.given
  | .delivers es, h => by
    obtain ⟨reader, hopen, h⟩ := h
    intro it' w hreq
    obtain ⟨iter, w', hs, hd⟩ := h w
    rw [← ask_request hreq] at hs
    exact ⟨reader, iter, w', by simp only [openTip, hopen, hs], hd⟩
  | .openError, h => by
    obtain ⟨e, he, hopen⟩ := h
    intro it' w _
    exact ⟨w, by simp only [openTip, hopen, raise, he, if_true]⟩
  | .queryError, h => by
    obtain ⟨reader, hopen, h⟩ := h
    intro it' w hreq
    obtain ⟨e, w', he, hs⟩ := h w
    rw [← ask_request hreq] at hs
    exact ⟨w', by simp only [openTip, hopen, hs, raise, he, if_true]⟩

/-- **Iteration over many corpora is skip and concatenate.** -/
theorem delivers_concatenation {corpora : Corpora} {it : MultiIter κ}
    (hnew : (∃ sortOrder, it = ofEntries corpora sortOrder) ∨ ∃ q dialect sortOrder, it = ofQuery corpora q dialect sortOrder)
    (turnout : ReaderIter → Turnout)
    (h : ∀ tip ∈ readerIters corpora, TurnsOut env inner (ask entries query) rdr it tip (turnout tip)) (w : W) :
    Delivers ((body inner (openTip env (ask entries query))).machine rdr) (it, w)
      ((readerIters corpora).flatMap fun tip => under tip.name (turnout tip).entries) false := by
  obtain ⟨hiters, hcur, hint⟩ : it.d_iters = readerIters corpora ∧ it.d_currentIter = none ∧ it.d_interrupted = false := by
    rcases hnew with ⟨sortOrder, rfl⟩ | ⟨q, dialect, sortOrder, rfl⟩
    · exact ⟨rfl, rfl, rfl⟩
    · exact ⟨rfl, rfl, rfl⟩
  have hleft : Left inner (openTip env (ask entries query)) rdr (fun tip => (turnout tip).given) it w [] false := by
    refine ⟨hint, fun tip htip => (h tip (hiters ▸ htip)).opens, ?_⟩
    rw [hcur]
    exact ⟨rfl, rfl⟩
  have hrest : it.rest (fun tip => (turnout tip).given) [] =
      (readerIters corpora).flatMap fun tip => under tip.name (turnout tip).entries := by
    rw [rest, under, List.map_nil, List.nil_append, concat, hiters]
    rfl
  exact hrest ▸ hleft.delivers

/-- The entries of `a`, nothing of `b`, which does not open, and the entry
of `c/d`. -/
theorem sample_concatenation :
    ∃ fuel, Delivers ((body (Iter.body treebanksEnv fuel)
          (openTip treebanksEnv (ask (fun reader sortOrder w => (reader.getEntries treebanksEnv sortOrder, w))
            fun reader d q sortOrder w => (reader.query treebanksEnv d q sortOrder, w)))).machine (.multi treebanks))
        (ofEntries treebanks.corporaMap .naturalOrder, ())
        ((readerIters treebanks.corporaMap).flatMap fun tip => under tip.name
          (if tip.name = str "b" then Turnout.openError
            else if tip.name = str "a" then .delivers (sampleDocs.map fun d => ⟨d.1, []⟩)
            else .delivers [⟨str "1.xml", []⟩]).entries) false := by
  have hiters : readerIters treebanks.corporaMap =
      [⟨str "a", str "a.index", false⟩, ⟨str "b", str "b.index", false⟩, ⟨str "c/d", str "d.index", false⟩] := by decide
  have hindex : ∀ items : List IndexItem, (Iter.index ⟨items⟩).Deliver treebanksEnv (items.map fun item => ⟨item.name, []⟩) :=
    fun items => Iter.deliver_index items
  obtain ⟨n, hn⟩ := hindex (sampleCorpus sampleDocs).indices
  obtain ⟨k, hk⟩ := hindex (sampleCorpus [(str "1.xml", str "<s><a>x</a></s>")]).indices
  refine ⟨max n k, delivers_concatenation (.inl ⟨_, rfl⟩) _ (fun tip htip => ?_) ()⟩
  rw [hiters] at htip
  simp only [List.mem_cons, List.not_mem_nil, or_false] at htip
  rcases htip with rfl | rfl | rfl
  · exact ⟨_, rfl, fun w => ⟨_, w, rfl, hn _ (le_max_left n k) _⟩⟩
  · exact ⟨_, rfl, rfl⟩
  · exact ⟨_, rfl, fun w => ⟨_, w, rfl, hk _ (le_max_right n k) _⟩⟩

end MultiIter

end AlpinoCorpus
