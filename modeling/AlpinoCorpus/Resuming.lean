/-
Queries over entries of which some cannot be read. The stage that reads such
an entry throws, from `hasNext`; a client that calls again is given what comes
after it, and no other entry is lost or delivered twice.
-/
import AlpinoCorpus.Pipeline
import AlpinoCorpus.ReaderFacts
import AlpinoCorpus.Lib.Scripts

namespace AlpinoCorpus

open Iteration

/-- The value of a query on an entry. -/
def given (name : Str) (value : Str) : Item Stop Entry := .gives (.ok ⟨name, value⟩)

/-! ## One stage -/

namespace FilterIter

variable {W ι : Type} {env : Env} {inner : Body W ι}

/-- What a stage makes of what is in store inside it, `file` being the name
it has seen last. -/
def stageItems (vals : Str → Outcome (List Str)) : Str → List (Item Stop Entry) → List (Item Stop Entry)
  | _, [] => []
  | file, .raises e :: items => .raises e :: stageItems vals file items
  | file, .gives (.error e) :: items => .raises e :: stageItems vals file items
  | file, .gives (.ok x) :: items =>
    if x.name = file then stageItems vals file items
    else match vals x.name with
      | .error e => .raises e :: stageItems vals x.name items
      | .ok vs => vs.map (given x.name) ++ stageItems vals x.name items

/-- The values of the query on an entry, if it can be read. -/
def valuesOf (env : Env) (corpus : Reader) (query n : Str) : Outcome (List Str) :=
  (corpus.read env n []).map (values env query)

/-- What is left: the buffer, and what the stage makes of what is left inside. -/
def store (env : Env) (it : FilterIter ι) (items : List (Item Stop Entry)) : List (Item Stop Entry) :=
  it.d_buffer.map (given it.d_file) ++ stageItems (valuesOf env it.d_corpus it.d_query) it.d_file items

/-- The query ends without an error on the documents of these entries. -/
def Evaluates (env : Env) (corpus : Reader) (query : Str) (items : List (Item Stop Entry)) : Prop :=
  ∀ e, .gives (.ok e) ∈ items → ∀ doc, corpus.read env e.name [] = .ok doc → fails env query doc = false

/-- `items` is in store inside. -/
structure Holds (env : Env) (inner : Body W ι) (s : FilterIter ι × W) (items : List (Item Stop Entry)) : Prop where
  inside : Follows (inner.machine s.1.d_corpus) (s.1.d_itr, s.2) items false
  evaluates : Evaluates env s.1.d_corpus s.1.d_query items

/-- At most `n` items are in store inside, and the script is what the stage
makes of them. -/
structure Stored (env : Env) (inner : Body W ι) (n : Nat) (s : FilterIter ι × W) (script : List (Item Stop Entry))
    (ready : Bool) : Prop where
  inside : ∃ items, Holds env inner s items ∧ items.length ≤ n ∧ script = s.1.store env items
  buffer : ready = true → s.1.d_buffer ≠ []

theorem Stored.mono {n n' : Nat} {s : FilterIter ι × W} {script : List (Item Stop Entry)} {b : Bool} (hn : n ≤ n')
    (h : Stored env inner n s script b) : Stored env inner n' s script b := by
  obtain ⟨⟨items, hin, hlen, hscript⟩, hb⟩ := h
  exact ⟨⟨items, hin, hlen.trans hn, hscript⟩, hb⟩

theorem Evaluates.tail {corpus : Reader} {query : Str} {item : Item Stop Entry} {items : List (Item Stop Entry)}
    (h : Evaluates env corpus query (item :: items)) : Evaluates env corpus query items :=
  fun e he => h e (List.mem_cons_of_mem item he)

/-- The loop, by induction on the rounds that are left; each takes an item. -/
theorem hasNextLoop_asks (fuel : Nat) : ∀ {it : FilterIter ι} {w : W} {items : List (Item Stop Entry)},
    Holds env inner (it, w) items → items.length < fuel → it.d_interrupted = false →
    Asks (Stored env inner items.length) (hasNextLoop env inner fuel (it, w)) (it.store env items) := by
  induction fuel with
  | zero => intro it w items _ hn; omega
  | succ fuel ih =>
    rintro ⟨corpus, itr, file, query, buffer, interrupted⟩ w items ⟨hin, heval⟩ hn (rfl : interrupted = false)
    have heval : Evaluates env corpus query items := heval
    cases buffer with
    | cons v vs => exact .more rfl ⟨⟨items, ⟨hin, heval⟩, le_rfl, rfl⟩, fun _ => List.cons_ne_nil v vs⟩
    | nil =>
      rcases items with _ | ⟨(e | x) | e, items⟩
      · obtain ⟨⟨itr', w'⟩, h₁, hin⟩ := hin.done
        have h₁ : inner.hasNext (itr, w) = (.ok false, itr', w') := h₁
        simp only [hasNextLoop, h₁]
        exact .done rfl ⟨⟨[], ⟨hin, heval⟩, le_rfl, rfl⟩, by simp⟩
      · obtain ⟨⟨itr₁, w₁⟩, h₁, hin⟩ := hin.hasNext
        obtain ⟨⟨itr₂, w₂⟩, h₂, hin⟩ := hin.next
        have h₁ : inner.hasNext (itr, w) = (.ok true, itr₁, w₁) := h₁
        have h₂ : inner.next corpus (itr₁, w₁) = (.error e, itr₂, w₂) := h₂
        simp only [hasNextLoop, h₁, h₂]
        exact .raises rfl ⟨⟨items, ⟨hin, heval.tail⟩, Nat.le_succ _, rfl⟩, by simp⟩
      · obtain ⟨⟨itr₁, w₁⟩, h₁, hin⟩ := hin.hasNext
        obtain ⟨⟨itr₂, w₂⟩, h₂, hin⟩ := hin.next
        have h₁ : inner.hasNext (itr, w) = (.ok true, itr₁, w₁) := h₁
        have h₂ : inner.next corpus (itr₁, w₁) = (.ok x, itr₂, w₂) := h₂
        have hn : items.length < fuel := by simpa using hn
        have hle : items.length ≤ (Item.gives (Except.ok x) :: items : List (Item Stop Entry)).length := Nat.le_succ _
        by_cases hname : x.name = file
        · -- the entry of the value before
          have hround := @ih ⟨corpus, itr₂, file, query, [], false⟩ w₂ items ⟨hin, heval.tail⟩ hn rfl
          have hstore : store env ⟨corpus, itr, file, query, [], false⟩ (.gives (.ok x) :: items) =
              store env (⟨corpus, itr₂, file, query, [], false⟩ : FilterIter ι) items := by
            simp [store, stageItems, hname]
          rw [hstore]
          simp only [hasNextLoop, h₁, h₂, hname]
          exact hround.imp fun _ _ _ => Stored.mono hle
        · cases hread : corpus.read env x.name [] with
          | error e =>
            have hparse := parseFile_error (⟨corpus, itr₂, x.name, query, [], false⟩ : FilterIter ι) hread w₂
            have hstore : store env (⟨corpus, itr, file, query, [], false⟩ : FilterIter ι) (.gives (.ok x) :: items) =
                .raises e :: store env (⟨corpus, itr₂, x.name, query, [], false⟩ : FilterIter ι) items := by
              simp [store, stageItems, hname, valuesOf, hread, Except.map]
            rw [hstore]
            simp only [hasNextLoop, h₁, h₂, if_neg hname, hparse]
            exact .raises rfl ⟨⟨items, ⟨hin, heval.tail⟩, hle, rfl⟩, by simp⟩
          | ok doc =>
            have hparse := parseFile_ok (⟨corpus, itr₂, x.name, query, [], false⟩ : FilterIter ι) hread
              (heval x List.mem_cons_self doc hread) w₂
            have hstore : store env (⟨corpus, itr, file, query, [], false⟩ : FilterIter ι) (.gives (.ok x) :: items) =
                store env (⟨corpus, itr₂, x.name, query, values env query doc, false⟩ : FilterIter ι) items := by
              simp [store, stageItems, hname, valuesOf, hread, Except.map]
            have hround := @ih ⟨corpus, itr₂, x.name, query, values env query doc, false⟩ w₂ items ⟨hin, heval.tail⟩ hn rfl
            rw [hstore]
            simp only [hasNextLoop, h₁, h₂, if_neg hname, hparse, List.nil_append]
            exact hround.imp fun _ _ _ => Stored.mono hle
      · obtain ⟨⟨itr', w'⟩, h₁, hin⟩ := hin.raises
        have h₁ : inner.hasNext (itr, w) = (.error e, itr', w') := h₁
        simp only [hasNextLoop, h₁]
        exact .raises rfl ⟨⟨items, ⟨hin, heval.tail⟩, Nat.le_succ _, rfl⟩, by simp⟩

/-- **A stage over an iterator that may fail.** -/
theorem Holds.follows {fuel : Nat} {it : FilterIter ι} {w : W} {items : List (Item Stop Entry)}
    (h : Holds env inner (it, w) items) (hn : items.length < fuel) (rdr : Reader) :
    Follows ((body env inner fuel).machine rdr) (it, w) (it.store env items) false := by
  refine Follows.of_simulation (R := Stored env inner (fuel - 1)) ?_ ?_ ?_ ⟨⟨items, h, by omega, rfl⟩, by simp⟩
  · rintro ⟨it, w⟩ script b ⟨⟨items, h, hn, rfl⟩, -⟩
    have hasks := @hasNextLoop_asks _ _ env _ fuel { it with d_interrupted := false } w items ⟨h.inside, h.evaluates⟩
      (by omega) rfl
    exact hasks.imp fun _ _ _ => Stored.mono hn
  · rintro ⟨it, w⟩ x script ⟨⟨items, h, hn, hscript⟩, hb⟩
    cases hbuf : it.d_buffer with
    | nil => exact absurd hbuf (hb rfl)
    | cons v vs =>
      simp only [store, hbuf, List.map_cons, List.cons_append, List.cons.injEq, given, Item.gives.injEq] at hscript
      obtain ⟨rfl, rfl⟩ := hscript
      exact ⟨({ it with d_buffer := vs }, w), by simp [Body.machine, body, next, hbuf],
        ⟨items, ⟨h.inside, h.evaluates⟩, hn, rfl⟩, by simp⟩
  · rintro ⟨it, w⟩ script ⟨⟨items, -, -, rfl⟩, hb⟩
    cases hbuf : it.d_buffer with
    | nil => exact absurd hbuf (hb rfl)
    | cons v vs => simp [store, hbuf, given, Due]

end FilterIter

/-! ## The stages of a query -/

/-- What is in store of an entry: its values, or the failure to read it. -/
def groupItems (n : Str) : Outcome (List Str) → List (Item Stop Entry)
  | .ok vs => vs.map (given n)
  | .error e => [.raises e]

namespace FilterIter

variable {vals : Str → Outcome (List Str)}

/-- What a stage makes of the values of the stage before. -/
def stageGroup (vals : Str → Outcome (List Str)) (n : Str) : Outcome (List Str) → Outcome (List Str)
  | .ok [] => .ok []
  | .ok (_ :: _) => vals n
  | .error e => .error e

theorem stageItems_skip (n : Str) (vs : List Str) (items : List (Item Stop Entry)) :
    stageItems vals n (vs.map (given n) ++ items) = stageItems vals n items := by
  induction vs with
  | nil => rfl
  | cons v vs ih => rw [List.map_cons, List.cons_append, given, stageItems, if_pos rfl, ih]

theorem stageItems_new {n file : Str} (h : file ≠ n) (v : Str) (items : List (Item Stop Entry)) :
    stageItems vals file (given n v :: items) = groupItems n (vals n) ++ stageItems vals n items := by
  rw [given, stageItems, if_neg fun h' => h h'.symm]
  cases vals n <;> rfl

/-- The first stage, over a listing. -/
theorem stageItems_entries {es : List Entry} {file : Str} (hnodup : (es.map Entry.name).Nodup)
    (hfile : file ∉ es.map Entry.name) : stageItems vals file (es.map fun e => .gives (.ok e)) =
      (es.map Entry.name).flatMap fun n => groupItems n (vals n) := by
  induction es generalizing file with
  | nil => rfl
  | cons e es ih =>
    obtain ⟨hname, hnames⟩ := List.nodup_cons.mp hnodup
    rw [List.map_cons, show (Item.gives (.ok e) : Item Stop Entry) = given e.name e.contents from rfl,
      stageItems_new fun h => hfile (by simp [h]), ih hnames hname]
    rfl

/-- A stage over the values of another. -/
theorem stageItems_groups {group : Str → Outcome (List Str)} {names : List Str} {file : Str} (hnodup : names.Nodup)
    (hfile : file ∉ names) : stageItems vals file (names.flatMap fun n => groupItems n (group n)) =
      names.flatMap fun n => groupItems n (stageGroup vals n (group n)) := by
  induction names generalizing file with
  | nil => rfl
  | cons n names ih =>
    obtain ⟨hn, hnames⟩ := List.nodup_cons.mp hnodup
    have hne : file ≠ n := fun h => hfile (by simp [h])
    have hfile : file ∉ names := fun h => hfile (List.mem_cons_of_mem n h)
    rw [List.flatMap_cons, List.flatMap_cons]
    rcases group n with e | _ | ⟨v, vs⟩
    · exact congrArg (Item.raises e :: ·) (ih hnames hfile)
    · exact ih hnames hfile
    · show stageItems vals file (given n v :: (vs.map (given n) ++ _)) = groupItems n (vals n) ++ _
      rw [stageItems_new hne, stageItems_skip, ih hnames hn]

end FilterIter

/-- With enough fuel the iterator follows a script, whichever reader `next`
is called with. -/
def Iter.Follow (env : Env) (it : Iter) (items : List (Item Stop Entry)) : Prop :=
  ∃ n, ∀ fuel ≥ n, ∀ rdr, Follows ((Iter.body env fuel).machine rdr) (it, ()) items false

theorem Iter.Deliver.follow {env : Env} {it : Iter} {es : List Entry} (h : it.Deliver env es) :
    it.Follow env (es.map fun e => .gives (.ok e)) := by
  obtain ⟨n, hn⟩ := h
  exact ⟨n, fun fuel hfuel rdr => (hn fuel hfuel rdr).follows⟩

theorem Iter.follow_filter {env : Env} (it : FilterIter Iter) {items : List (Item Stop Entry)} (h : it.d_itr.Follow env items)
    (heval : FilterIter.Evaluates env it.d_corpus it.d_query items) : (Iter.filter it).Follow env (it.store env items) := by
  obtain ⟨n, hn⟩ := h
  refine ⟨max n (items.length + 1) + 1, fun fuel hfuel rdr => ?_⟩
  obtain ⟨m, rfl⟩ : ∃ m, fuel = m + 1 := ⟨fuel - 1, by omega⟩
  have hholds : FilterIter.Holds env (Iter.body env m) (it, ()) items := ⟨hn m (by omega) it.d_corpus, heval⟩
  have hf : Follows ((FilterIter.body env (Iter.body env m) m).machine rdr) (it, ()) (it.store env items) false :=
    hholds.follows (by omega) rdr
  have hiter : Follows ((Iter.body env (m + 1)).machine rdr) (Iter.filter it, ()) (it.store env items) false :=
    hf.map (fun s => (Iter.filter s.1, s.2)) (fun _ => rfl) fun _ => rfl
  exact hiter

/-! ## A query that resumes -/

/-- The values on an entry of the last stage, where every stage before it has
one; or what reading the entry throws. -/
def answerTo (env : Env) (doc : Str → Except Exn Str) (queries : List Str) (n : Str) : Outcome (List Str) :=
  match doc n with
  | .error e => raise e
  | .ok doc =>
    .ok (if ∀ q ∈ queries.dropLast, stageValues env q doc ≠ [] then stageValues env (queries.getLastD []) doc else [])

/-- No stage ends with an error on the documents that can be read. -/
def Evaluates (env : Env) (doc : Str → Except Exn Str) (queries names : List Str) : Prop :=
  ∀ n ∈ names, ∀ d, doc n = .ok d → ErrorFree env queries d

theorem Evaluates.cons {env : Env} {doc : Str → Except Exn Str} {q : Str} {queries names : List Str}
    (h : Evaluates env doc (q :: queries) names) : Evaluates env doc [q] names ∧ Evaluates env doc queries names :=
  ⟨fun n hn d hd => List.forall_mem_singleton.mpr (h n hn d hd q List.mem_cons_self),
    fun n hn d hd q' hq' => h n hn d hd q' (List.mem_cons_of_mem q hq')⟩

/-- Reading the entry throws. -/
def unreadable (doc : Str → Except Exn Str) (n : Str) : Bool := !(doc n).isOk

/-- The values on an entry, if it can be read. -/
def valuesIn (env : Env) (doc : Str → Except Exn Str) (queries : List Str) (n : Str) : List Str :=
  ((answerTo env doc queries n).toOption).getD []

theorem valuesOf_eq {env : Env} {rdr : Reader} {doc : Str → Except Exn Str} {n : Str}
    (h : rdr.read env n [] = (doc n).mapError .raised) (q : Str) :
    FilterIter.valuesOf env rdr (FilterIter.cStr q) n = answerTo env doc [q] n := by
  rw [FilterIter.valuesOf, h, answerTo]
  cases doc n <;> simp [Except.map, Except.mapError, raise, stageValues]

theorem answerTo_concat (env : Env) {doc : Str → Except Exn Str} {n doc' : Str} (h : doc n = .ok doc') (init : List Str)
    (last : Str) : answerTo env doc (init ++ [last]) n =
      .ok (if ∀ q ∈ init, stageValues env q doc' ≠ [] then stageValues env last doc' else []) := by
  rw [answerTo, h, List.dropLast_concat, List.getLastD_concat]

/-- A stage on what is given of entries that are listed. -/
theorem Evaluates.stage {env : Env} {rdr : Reader} {doc : Str → Except Exn Str} {names queries : List Str}
    (hread : ∀ n ∈ names, rdr.read env n [] = (doc n).mapError .raised) (h : Evaluates env doc queries names) {q : Str}
    (hq : q ∈ queries) {items : List (Item Stop Entry)} (hitems : ∀ e, .gives (.ok e) ∈ items → e.name ∈ names) :
    FilterIter.Evaluates env rdr (FilterIter.cStr q) items := by
  intro e he d hd
  rw [hread e.name (hitems e he)] at hd
  cases hdoc : doc e.name with
  | error _ => rw [hdoc] at hd; cases hd
  | ok d' =>
    rw [hdoc] at hd
    cases hd
    exact h e.name (hitems e he) d hdoc q hq

theorem name_of_group {env : Env} {doc : Str → Except Exn Str} {names queries : List Str} {e : Entry}
    (he : .gives (.ok e) ∈ names.flatMap fun n => groupItems n (answerTo env doc queries n)) : e.name ∈ names := by
  obtain ⟨n, hn, he⟩ := List.mem_flatMap.mp he
  cases hanswer : answerTo env doc queries n with
  | error stop => simp [hanswer, groupItems] at he
  | ok vs =>
    rw [hanswer] at he
    obtain ⟨v, -, hv⟩ := List.mem_map.mp he
    cases hv
    exact hn

/-- One stage more. -/
theorem stageGroup_answerTo {env : Env} {rdr : Reader} {doc : Str → Except Exn Str} {n : Str}
    (h : rdr.read env n [] = (doc n).mapError .raised) {queries : List Str} (hne : queries ≠ []) (q : Str) :
    FilterIter.stageGroup (FilterIter.valuesOf env rdr (FilterIter.cStr q)) n (answerTo env doc queries n) =
      answerTo env doc (queries ++ [q]) n := by
  cases hdoc : doc n with
  | error e =>
    rw [answerTo, answerTo, hdoc]
    rfl
  | ok doc' =>
    obtain rfl | ⟨init, last, rfl⟩ := queries.eq_nil_or_concat'
    · exact absurd rfl hne
    have hvals : FilterIter.valuesOf env rdr (FilterIter.cStr q) n = .ok (stageValues env q doc') := by
      rw [FilterIter.valuesOf, h, hdoc]
      rfl
    rw [answerTo_concat env hdoc, answerTo_concat env hdoc]
    by_cases hinit : ∀ q ∈ init, stageValues env q doc' ≠ []
    · rw [if_pos hinit]
      cases hlast : stageValues env last doc' with
      | nil =>
        rw [if_neg fun h => h last (by simp) hlast]
        rfl
      | cons v vs =>
        rw [if_pos (List.forall_mem_append.mpr ⟨hinit, List.forall_mem_singleton.mpr (by simp [hlast])⟩)]
        exact hvals
    · rw [if_neg hinit, if_neg fun h => hinit fun q hq => h q (List.mem_append_left _ hq)]
      rfl

/-- The stages that `query` puts on the values of others. -/
theorem follow_stages {env : Env} {rdr : Reader} {doc : Str → Except Exn Str} {names : List Str} (hnodup : names.Nodup)
    (hempty : [] ∉ names) (hread : ∀ n ∈ names, rdr.read env n [] = (doc n).mapError .raised) :
    ∀ (queries done : List Str) (it : Iter), done ≠ [] →
      it.Follow env (names.flatMap fun n => groupItems n (answerTo env doc done n)) → Accepted env queries →
      Evaluates env doc queries names →
      ∃ it', queries.foldlM (fun it q => Iter.filter <$> FilterIter.create env rdr it q) it = (.ok it' : Outcome Iter) ∧
        it'.Follow env (names.flatMap fun n => groupItems n (answerTo env doc (done ++ queries) n))
  | [], done, it, _, h, _, _ => ⟨it, rfl, by rwa [List.append_nil]⟩
  | q :: queries, done, it, hne, h, hq, heval => by
    obtain ⟨hq, hqs⟩ := List.forall_mem_cons.mp hq
    have hf := Iter.follow_filter ⟨rdr, it, [], FilterIter.cStr q, [], false⟩ h
      (heval.stage hread List.mem_cons_self fun _ => name_of_group)
    have hevals := heval.cons.2
    have hstage : FilterIter.store env ⟨rdr, it, [], FilterIter.cStr q, [], false⟩
        (names.flatMap fun n => groupItems n (answerTo env doc done n)) =
          names.flatMap fun n => groupItems n (answerTo env doc (done ++ [q]) n) := by
      rw [FilterIter.store, List.map_nil, List.nil_append, FilterIter.stageItems_groups hnodup hempty]
      exact List.flatMap_congr fun n hn => by rw [stageGroup_answerTo (hread n hn) hne]
    rw [hstage] at hf
    obtain ⟨it', h', hd'⟩ := follow_stages hnodup hempty hread queries (done ++ [q]) _ (by simp) hf hqs hevals
    refine ⟨it', ?_, by rwa [List.append_cons]⟩
    rw [List.foldlM_cons, create_ok hq]
    exact h'

/-- The reader runs queries with `CorpusReader::runXPath` and lists distinct
names; `doc n` is the document of an entry, or what reading it throws,
whatever was read before. -/
structure Stocks (env : Env) (sortOrder : SortOrder) (rdr : Reader) (names : List Str) (doc : Str → Except Exn Str) : Prop where
  base : rdr.UsesRunXPath env
  lists : rdr.Lists env sortOrder names
  nodup : names.Nodup
  nonempty : [] ∉ names
  reads : ∀ n ∈ names, rdr.Gives env n ((doc n).mapError .raised)

theorem Stocks.read {env : Env} {rdr : Reader} {sortOrder : SortOrder} {names : List Str} {doc : Str → Except Exn Str}
    (h : Stocks env sortOrder rdr names doc) : ∀ n ∈ names, rdr.read env n [] = (doc n).mapError .raised :=
  fun n hn => (h.reads n hn).read

/-- One stage, as the reader starts it. -/
theorem Stocks.follow {env : Env} {rdr : Reader} {sortOrder : SortOrder} {names : List Str} {doc : Str → Except Exn Str}
    (h : Stocks env sortOrder rdr names doc) {q : Str} (hq : env.parse (FilterIter.cStr q) = true)
    (heval : Evaluates env doc [q] names) :
    ∃ it, CorpusReader.runXPath env rdr (rdr.getEntries env) q sortOrder = .ok it ∧
      it.Follow env (names.flatMap fun n => groupItems n (answerTo env doc [q] n)) := by
  obtain ⟨itr, es, hentries, hd, hnames⟩ := h.lists
  have hentry : ∀ e, .gives (.ok e) ∈ es.map (fun e => (.gives (.ok e) : Item Stop Entry)) → e.name ∈ names := by
    intro e he
    obtain ⟨e', he', hgives⟩ := List.mem_map.mp he
    cases hgives
    exact hnames ▸ List.mem_map_of_mem he'
  have hf := Iter.follow_filter ⟨rdr, itr, [], FilterIter.cStr q, [], false⟩ hd.follow
    (heval.stage h.read (List.mem_singleton_self q) hentry)
  have hstage : FilterIter.store env ⟨rdr, itr, [], FilterIter.cStr q, [], false⟩ (es.map fun e => .gives (.ok e)) =
      names.flatMap fun n => groupItems n (answerTo env doc [q] n) := by
    rw [FilterIter.store, List.map_nil, List.nil_append,
      FilterIter.stageItems_entries (hnames ▸ h.nodup) (hnames ▸ h.nonempty), hnames]
    exact List.flatMap_congr fun n hn => by rw [valuesOf_eq (h.read n hn)]
  rw [hstage] at hf
  refine ⟨_, ?_, hf⟩
  simp only [CorpusReader.runXPath, hentries, create_ok hq]
  rfl

/-- **Queries resume.** Of entries that can be read or throw, in the order of
the listing: the values of the last stage where every stage before has one,
and once what reading throws; after that the query goes on. -/
theorem Stocks.answers {env : Env} {rdr : Reader} {sortOrder : SortOrder} {names : List Str} {doc : Str → Except Exn Str}
    {q : Str} (h : Stocks env sortOrder rdr names doc) (hq : Accepted env (splitString q))
    (heval : Evaluates env doc (splitString q) names) :
    ∃ it, rdr.query env .xpath q sortOrder = .ok it ∧
      it.Follow env (names.flatMap fun n => groupItems n (answerTo env doc (splitString q) n)) := by
  cases hs : splitString q with
  | nil => exact absurd hs (splitString_ne_nil q)
  | cons q₁ queries =>
    rw [hs] at hq heval
    obtain ⟨hq₁, hqs⟩ := List.forall_mem_cons.mp hq
    obtain ⟨heval₁, hevals⟩ := heval.cons
    obtain ⟨it, hit, hf⟩ := h.follow hq₁ heval₁
    obtain ⟨it', h', hd'⟩ := follow_stages h.nodup h.nonempty h.read queries [q₁] it (by simp) hf hqs hevals
    refine ⟨it', ?_, hd'⟩
    rw [Reader.query, CorpusReader.query, hs, show rdr.runXPath env = _ from h.base]
    simp only [hit]
    exact h'

/-- A corpus with an entry of more bytes than a vector may have, between two
others. -/
def brokenCorpus : CompactCorpus where
  indices := [⟨str "1.xml", 0, 0⟩, ⟨str "0.xml", 0, 2 ^ 63⟩, ⟨str "2.xml", 0, 0⟩]
  readEntry before n := if n = str "0.xml" then raise .lengthError else (sampleCorpus sampleDocs).readEntry before n

def brokenDoc (n : Str) : Except Exn Str := if n = str "0.xml" then .error .lengthError else .ok (sampleDoc n)

end AlpinoCorpus
