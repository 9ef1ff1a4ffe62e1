/-
Query pipelines: what the stages of a query deliver together, for a reader
that runs its queries with `CorpusReader::runXPath`.
-/
import AlpinoCorpus.IterFacts

namespace AlpinoCorpus

open Iteration

/-! ## Stages on lists -/

namespace FilterIter

/-- Several stages, one after the other, of a query engine `vals`. -/
def stages (vals : Str → Str → List Str) (es : List Entry) (queries : List Str) : List Entry :=
  queries.foldl (fun es q => stage (vals q) [] es) es

/-- The entries come in groups, one for each name, of `count` entries. -/
def Grouped (names : List Str) (count : Str → Nat) (es : List Entry) : Prop :=
  es.map Entry.name = names.flatMap fun n => List.replicate (count n) n

/-- A group passes a stage as the values on its document. -/
theorem stage_group {vals : Str → List Str} {n : Str} {k : Nat} {es es' : List Entry} (file : Str)
    (h : es.map Entry.name = List.replicate k n) :
    stage vals n (es ++ es') = stage vals n es' ∧
      (file ≠ n → stage vals file (es ++ es') =
        if k = 0 then stage vals file es' else (vals n).map (Entry.mk n) ++ stage vals n es') := by
  induction es generalizing k file with
  | nil =>
    obtain rfl : k = 0 := by simpa using h.symm
    exact ⟨rfl, fun _ => rfl⟩
  | cons e es ih =>
    cases k with
    | zero => cases h
    | succ k =>
      rw [List.replicate_succ, List.map_cons, List.cons.injEq] at h
      obtain ⟨rfl, h⟩ := h
      have ih := (ih e.name h).1
      refine ⟨?_, fun hfile => ?_⟩
      · simp [stage, ih]
      · simp [stage, hfile.symm, ih]

/-- What a stage makes of groups: the test on the last name is right because
equal names come together. -/
theorem stage_grouped (vals : Str → List Str) {count : Str → Nat} {names : List Str} (hnames : names.Nodup) :
    ∀ {file : Str} {es : List Entry}, file ∉ names → Grouped names count es →
      stage vals file es = names.flatMap fun n => if count n = 0 then [] else (vals n).map (Entry.mk n) := by
  induction names with
  | nil =>
    intro file es _ h
    obtain rfl : es = [] := by simpa [Grouped] using h
    rfl
  | cons n names ih =>
    intro file es hfile h
    obtain ⟨hn, hnodup⟩ := List.nodup_cons.mp hnames
    obtain ⟨es₁, es₂, rfl, h₁, h₂⟩ := List.map_eq_append_iff.mp h
    have hne : file ≠ n := fun h => hfile (by simp [h])
    rw [(stage_group file h₁).2 hne, List.flatMap_cons]
    split
    · rw [ih hnodup (fun h => hfile (by simp [h])) h₂, List.nil_append]
    · rw [ih hnodup hn h₂]

theorem Grouped.stage {vals : Str → List Str} {count : Str → Nat} {names : List Str} :
    Grouped names (fun n => if count n = 0 then 0 else (vals n).length)
      (names.flatMap fun n => if count n = 0 then [] else (vals n).map (Entry.mk n)) := by
  simp only [Grouped, List.map_flatMap]
  congr 1
  funext n
  split
  · rfl
  · rw [List.map_map]
    exact List.map_const'

/-- **The stages of a query on groups.** The last stage gives its values on
the documents where each stage before it has one. -/
theorem stages_grouped (vals : Str → Str → List Str) {names : List Str} (hnames : names.Nodup) (hempty : [] ∉ names) :
    ∀ {queries : List Str} {count : Str → Nat} {es : List Entry}, Grouped names count es → queries ≠ [] →
      stages vals es queries = names.flatMap fun n =>
        if count n ≠ 0 ∧ ∀ q ∈ queries.dropLast, vals q n ≠ [] then
          (vals (queries.getLastD []) n).map (Entry.mk n)
        else [] := by
  intro queries
  induction queries with
  | nil => intro count es _ hne; exact absurd rfl hne
  | cons q queries ih =>
    intro count es h _
    have hstage := stage_grouped (vals q) hnames hempty h
    cases queries with
    | nil =>
      rw [stages, List.foldl_cons, List.foldl_nil, hstage]
      congr 1
      funext n
      by_cases hc : count n = 0 <;> simp [hc]
    | cons q' queries =>
      rw [stages, List.foldl_cons, hstage]
      refine (ih Grouped.stage (by simp)).trans ?_
      congr 1
      funext n
      have : (if count n = 0 then 0 else (vals q n).length) ≠ 0 ↔ count n ≠ 0 ∧ vals q n ≠ [] := by
        by_cases hc : count n = 0 <;> simp [hc]
      simp only [this, List.dropLast_cons_cons, List.forall_mem_cons, and_assoc]
      rfl

end FilterIter

/-! ## Sample surroundings -/

/-- `std::sort` by `NameCompare`, as one implementation may do it. -/
def sortNames (names : List Str) : List Str := names.mergeSort fun a b => !nameCompare b a

theorem sortNames_sorted (names : List Str) : (sortNames names).Pairwise fun a b => nameCompare b a = false :=
  strictWeak_nameCompare.mergeSort_sorted names

/-- An opened compact corpus with these documents. -/
def sampleCorpus (docs : List (Str × Str)) : CompactCorpus where
  indices := docs.map fun d => ⟨d.1, 0, 0⟩
  readEntry _ n :=
    match docs.lookup n with
    | some doc => .ok doc
    | none => raise (.error (str "CompactCorpusReaderPrivate::read: requesting unknown data!"))

theorem sampleCorpus_steady (docs : List (Str × Str)) : (Reader.corpus (.leaf (.compact (sampleCorpus docs)))).Steady :=
  fun _ _ => rfl

/-- Compact corpora, and two XPath engines that agree on the expressions
they know. -/
def sampleEnv (corpora : List (Str × List (Str × Str))) (values : List ((Str × Str) × List Str)) : Env where
  pathExists p := .ok (corpora.lookup p).isSome
  isDirectory _ := .ok false
  below _ := []
  readFile p := raise (.runtimeError (str "readFile: '" ++ p ++ str "' is not a regular file"))
  openCompact p :=
    match corpora.lookup p with
    | some docs => .ok (sampleCorpus docs)
    | none => raise (.openError p (str "not a regular file"))
  openDb p := raise (.openError p [])
  sort := sortNames
  sort_perm _ := List.mergeSort_perm _ _
  sort_sorted := sortNames_sorted
  parse q := values.any fun v => v.1.1 = q
  evaluate q doc := some ((values.lookup (q, doc)).getD [])
  raises _ _ := false
  compile _ q := values.any fun v => v.1.1 = q
  prepare q := if values.any fun v => v.1.1 = q then none else some []
  mark _ content := .ok content
  transform _ content := .ok content
  typeName _ := []

/-! ## The pipeline of a reader -/

/-- The reader answers queries with `CorpusReader::runXPath`. -/
def Reader.UsesRunXPath (env : Env) (rdr : Reader) : Prop :=
  rdr.runXPath env = CorpusReader.runXPath env rdr (rdr.getEntries env)

theorem usesRunXPath_directory (env : Env) (d : Str) : (Reader.corpus (.leaf (.directory d))).UsesRunXPath env := rfl

theorem usesRunXPath_compact (env : Env) (c : CompactCorpus) : (Reader.corpus (.leaf (.compact c))).UsesRunXPath env := rfl

theorem usesRunXPath_recursive (env : Env) (r : RecursiveCorpusReaderPrivate) :
    (Reader.corpus (.recursive r)).UsesRunXPath env := rfl

/-- The reader's entries are delivered under these names. -/
def Reader.Lists (env : Env) (rdr : Reader) (sortOrder : SortOrder) (names : List Str) : Prop :=
  ∃ it es, rdr.getEntries env sortOrder = .ok it ∧ it.Deliver env es ∧ es.map Entry.name = names

/-- The XPath parser accepts every stage. -/
def Accepted (env : Env) (queries : List Str) : Prop := ∀ q ∈ queries, env.parse (FilterIter.cStr q) = true

instance (env : Env) (queries : List Str) : Decidable (Accepted env queries) :=
  inferInstanceAs (Decidable (∀ q ∈ queries, env.parse (FilterIter.cStr q) = true))

/-- The values of a stage on a document. -/
def stageValues (env : Env) (q doc : Str) : List Str := FilterIter.values env (FilterIter.cStr q) doc

/-- No stage ends with an error on the document. -/
def ErrorFree (env : Env) (queries : List Str) (doc : Str) : Prop :=
  ∀ q ∈ queries, FilterIter.fails env (FilterIter.cStr q) doc = false

instance (env : Env) (queries : List Str) (doc : Str) : Decidable (ErrorFree env queries doc) :=
  inferInstanceAs (Decidable (∀ q ∈ queries, FilterIter.fails env (FilterIter.cStr q) doc = false))

theorem create_ok {ι : Type} {env : Env} {corpus : Reader} {itr : ι} {q : Str} (h : env.parse (FilterIter.cStr q) = true) :
    FilterIter.create env corpus itr q = .ok ⟨corpus, itr, [], FilterIter.cStr q, [], false⟩ := by
  rw [FilterIter.create, if_pos h]

/-- The stages that `query` puts on an iterator, all accepted. -/
theorem foldlM_accepted {env : Env} (rdr : Reader) : ∀ {queries : List Str} (it : Iter), Accepted env queries →
    ∃ it', queries.foldlM (fun it q => Iter.filter <$> FilterIter.create env rdr it q) it = (.ok it' : Outcome Iter)
  | [], it, _ => ⟨it, rfl⟩
  | q :: queries, it, h => by
    obtain ⟨hq, hqs⟩ := List.forall_mem_cons.mp h
    rw [List.foldlM_cons, create_ok hq]
    exact foldlM_accepted rdr _ hqs

/-- A stage that is not accepted makes the query throw. -/
theorem foldlM_rejected {env : Env} (rdr : Reader) : ∀ {queries : List Str} (it : Iter), ¬Accepted env queries →
    ∃ e, queries.foldlM (fun it q => Iter.filter <$> FilterIter.create env rdr it q) it = (.error (.raised (.error e)) : Outcome Iter)
  | [], _, h => absurd (fun _ hq => by cases hq) h
  | q :: queries, it, h => by
    rw [List.foldlM_cons]
    by_cases hq : env.parse (FilterIter.cStr q) = true
    · rw [create_ok hq]
      exact foldlM_rejected rdr _ fun hqs => h (List.forall_mem_cons.mpr ⟨hq, hqs⟩)
    · rw [FilterIter.create, if_neg hq]
      exact ⟨_, rfl⟩

/-- Every entry a stage delivers has the name of one it was given. -/
theorem stage_subset {vals : Str → List Str} {es : List Entry} : ∀ {file : Str} {e : Entry},
    e ∈ FilterIter.stage vals file es → ∃ e' ∈ es, e'.name = e.name := by
  induction es with
  | nil => intro file e h; cases h
  | cons x xs ih =>
    intro file e h
    rw [FilterIter.stage] at h
    split at h
    · obtain ⟨e', he', h⟩ := ih h
      exact ⟨e', by simp [he'], h⟩
    · rcases List.mem_append.mp h with h | h
      · obtain ⟨v, -, rfl⟩ := List.mem_map.mp h
        exact ⟨x, by simp, rfl⟩
      · obtain ⟨e', he', h⟩ := ih h
        exact ⟨e', by simp [he'], h⟩

/-- The stages that `query` puts on an iterator. -/
theorem deliver_stages {env : Env} {rdr : Reader} {doc : Str → Str} : ∀ {queries : List Str} {it : Iter} {es : List Entry},
    it.Deliver env es → (∀ e ∈ es, rdr.read env e.name [] = .ok (doc e.name)) → Accepted env queries →
    (∀ e ∈ es, ErrorFree env queries (doc e.name)) →
    ∃ it', queries.foldlM (fun it q => Iter.filter <$> FilterIter.create env rdr it q) it = (.ok it' : Outcome Iter) ∧
      it'.Deliver env (FilterIter.stages (fun q n => stageValues env q (doc n)) es queries) := by
  intro queries
  induction queries with
  | nil => intro it es h _ _ _; exact ⟨it, rfl, h⟩
  | cons q queries ih =>
    intro it es h hread hq heval
    obtain ⟨hq, hqs⟩ := List.forall_mem_cons.mp hq
    have hd := Iter.deliver_filter ⟨rdr, it, [], FilterIter.cStr q, [], false⟩ h hread
      fun e he => heval e he q List.mem_cons_self
    obtain ⟨it', h', hd'⟩ := ih hd
      (fun e he => by
        obtain ⟨e', he', hname⟩ := stage_subset he
        rw [← hname]; exact hread e' he')
      hqs
      (fun e he => by
        obtain ⟨e', he', hname⟩ := stage_subset he
        rw [← hname]; exact fun q' hq' => heval e' he' q' (List.mem_cons_of_mem q hq'))
    refine ⟨it', ?_, hd'⟩
    rw [List.foldlM_cons, create_ok hq]
    exact h'

/-- A query over many corpora: the first stage is left to them. -/
theorem multi_query {env : Env} {sortOrder : SortOrder} (m : MultiCorpusReaderPrivate) {q q₁ : Str} {queries : List Str}
    (h : splitString q = q₁ :: queries) :
    (Reader.multi m).query env .xpath q sortOrder =
      queries.foldlM (fun it q => Iter.filter <$> FilterIter.create env (.multi m) it q)
        (.multi (.ofQuery m.corporaMap q₁ .xpath sortOrder)) := by
  have h₁ : splitString q₁ = [q₁] := splitString_stage (by rw [h]; simp)
  simp only [Reader.query, CorpusReader.query, Reader.runXPath, MultiCorpusReaderPrivate.query, h, h₁]
  rfl

/-- What a query is to deliver: for each name, in order, the values of its
last stage, where every stage before it has a value. -/
def pipeline (env : Env) (doc : Str → Str) (queries names : List Str) : List Entry :=
  names.flatMap fun n =>
    if ∀ q ∈ queries.dropLast, stageValues env q (doc n) ≠ [] then
      (stageValues env (queries.getLastD []) (doc n)).map (Entry.mk n)
    else []

/-- **Query pipelines**, of stages that evaluate without an error. -/
theorem query_pipeline {env : Env} {rdr : Reader} {sortOrder : SortOrder} {names : List Str} {doc : Str → Str} {q : Str}
    (hrdr : rdr.UsesRunXPath env) (hlist : rdr.Lists env sortOrder names) (hnodup : names.Nodup) (hempty : [] ∉ names)
    (hread : ∀ n ∈ names, rdr.read env n [] = .ok (doc n)) (hq : Accepted env (splitString q))
    (heval : ∀ n ∈ names, ErrorFree env (splitString q) (doc n)) :
    ∃ it, rdr.query env .xpath q sortOrder = .ok it ∧ it.Deliver env (pipeline env doc (splitString q) names) := by
  obtain ⟨itr, es, hentries, hd, rfl⟩ := hlist
  have hread : ∀ e ∈ es, rdr.read env e.name [] = .ok (doc e.name) := fun e he => hread _ (List.mem_map_of_mem he)
  have heval : ∀ e ∈ es, ErrorFree env (splitString q) (doc e.name) := fun e he => heval _ (List.mem_map_of_mem he)
  obtain ⟨it, hit, hdeliver⟩ := deliver_stages hd hread hq heval
  have hstages : FilterIter.stages (fun q n => stageValues env q (doc n)) es (splitString q) =
      pipeline env doc (splitString q) (es.map Entry.name) := by
    have hgroup : FilterIter.Grouped (es.map Entry.name) (fun _ => 1) es := by
      simp [FilterIter.Grouped, List.flatMap_singleton']
    rw [FilterIter.stages_grouped _ hnodup hempty hgroup (splitString_ne_nil q)]
    simp [pipeline]
  rw [hstages] at hdeliver
  refine ⟨it, ?_, hdeliver⟩
  cases hs : splitString q with
  | nil => exact absurd hs (splitString_ne_nil q)
  | cons q₁ queries =>
    rw [hs] at hit
    rw [List.foldlM_cons] at hit
    rw [Reader.query, CorpusReader.query, hs, show rdr.runXPath env = _ from hrdr]
    simp only [CorpusReader.runXPath, hentries]
    exact hit

/-- Two documents, and the values of two expressions on them. -/
def sampleDocs : List (Str × Str) :=
  [(str "1.xml", str "<s><a>x</a></s>"), (str "2.xml", str "<s><a>y</a><b/><a>z</a></s>")]

def sampleValues : List ((Str × Str) × List Str) :=
  [((str "//a", str "<s><a>x</a></s>"), [str "x"]),
   ((str "//a", str "<s><a>y</a><b/><a>z</a></s>"), [str "y", str "z"]),
   ((str "//b", str "<s><a>y</a><b/><a>z</a></s>"), [str ""])]

def sampleDoc (n : Str) : Str := (sampleDocs.lookup n).getD []

theorem sample_query_pipeline :
    ∃ it, (Reader.corpus (.leaf (.compact (sampleCorpus sampleDocs)))).query (sampleEnv [] sampleValues) .xpath
        (str "//b+|+//a") .naturalOrder = .ok it ∧
      it.Deliver (sampleEnv [] sampleValues) [⟨str "2.xml", str "y"⟩, ⟨str "2.xml", str "z"⟩] := by
  have hlist : (Reader.corpus (.leaf (.compact (sampleCorpus sampleDocs)))).Lists (sampleEnv [] sampleValues)
      .naturalOrder [str "1.xml", str "2.xml"] := ⟨_, _, rfl, Iter.deliver_index _, by decide⟩
  have hread : ∀ n ∈ [str "1.xml", str "2.xml"],
      (Reader.corpus (.leaf (.compact (sampleCorpus sampleDocs)))).read (sampleEnv [] sampleValues) n [] =
        .ok (sampleDoc n) := by decide
  have hq : Accepted (sampleEnv [] sampleValues) (splitString (str "//b+|+//a")) := by decide
  obtain ⟨it, hit, hd⟩ := query_pipeline (usesRunXPath_compact _ _) hlist (by decide) (by decide) hread hq (by decide)
  have hvalues : pipeline (sampleEnv [] sampleValues) sampleDoc (splitString (str "//b+|+//a"))
      [str "1.xml", str "2.xml"] = [⟨str "2.xml", str "y"⟩, ⟨str "2.xml", str "z"⟩] := by decide
  exact ⟨it, hit, hvalues ▸ hd⟩

end AlpinoCorpus
