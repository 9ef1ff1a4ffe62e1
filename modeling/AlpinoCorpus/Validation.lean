/-
Validation of queries, and what it says about running them. A query is split
into stages for both. Validation compiles a stage with libxml2, in a reader of
many corpora in the first corpus only; running compiles it with XQilla, once
for every corpus.
-/
import AlpinoCorpus.Pipeline
import AlpinoCorpus.ReaderFacts

namespace AlpinoCorpus

open Iteration

inductive Either (L R : Type)
  | left (l : L)
  | right (r : R)
  deriving DecidableEq, Repr

/-! ## `isValidQuery` -/

namespace CorpusReader

/-- The loop of `isValidQuery` over the stages. -/
def isValidQueryLoop (validQuery : Str → Outcome (Either Str Unit)) : List Str → Outcome (Either Str Unit)
  | [] => .ok (.right ())
  | query :: queries => do
    match ← validQuery query with
    | .left what => .ok (.left what)
    | .right _ => isValidQueryLoop validQuery queries

/-- `CorpusReader::isValidQuery`; `validQuery` is a virtual function. -/
def isValidQuery (validQuery : Str → Outcome (Either Str Unit)) (q : Str) : Outcome (Either Str Unit) :=
  isValidQueryLoop validQuery (splitString q)

/-- `CorpusReader::validQuery`. -/
def validQuery (env : Env) (d : QueryDialect) (vars : Bool) (query : Str) : Outcome (Either Str Unit) :=
  if d ≠ .xpath then .ok (.left (str "Only XPath2 queries are supported for this corpus."))
  else if query.isEmpty then .ok (.right ())
  else if env.compile vars (FilterIter.cStr query) then .ok (.right ())
  else .ok (.left (str "Invalid expression"))

end CorpusReader

/-- `XmlManager::prepare`, with the text of what it throws. -/
def prepared (what : Option Str) : Either Str Unit :=
  match what with
  | some what => .left what
  | none => .right ()

namespace Leaf

def validQuery (env : Env) (l : Leaf) (d : QueryDialect) (vars : Bool) (query : Str) : Outcome (Either Str Unit) :=
  match l with
  | db corpus => CorpusReader.isValidQuery (fun query => .ok (prepared (corpus.prepare query))) query
  | _ => CorpusReader.validQuery env d vars query

def isValidQuery (env : Env) (l : Leaf) (d : QueryDialect) (vars : Bool) (q : Str) : Outcome (Either Str Unit) :=
  CorpusReader.isValidQuery (l.validQuery env d vars) q

end Leaf

namespace MultiCorpusReaderPrivate

/-- `MultiCorpusReaderPrivate::validQuery`: the first corpus of the map is
asked; a map without corpora leaves it to DB XML. -/
def validQuery {ρ : Type} (env : Env) (opener : Str × Bool → Outcome ρ)
    (isValidQuery : ρ → QueryDialect → Bool → Str → Outcome (Either Str Unit)) (m : MultiCorpusReaderPrivate)
    (d : QueryDialect) (vars : Bool) (query : Str) : Outcome (Either Str Unit) :=
  match m.corporaMap.entries with
  | (_, p) :: _ =>
    match (do let reader ← opener p; isValidQuery reader d vars query) with
    | .error (.raised e) => if e.isOpenError then .ok (.right ()) else raise e
    | result => result
  | [] => .ok (prepared (env.prepare query))

/-- `MultiCorpusReader::validQuery`. -/
def validQueryPublic {ρ : Type} (env : Env) (opener : Str × Bool → Outcome ρ)
    (isValidQuery : ρ → QueryDialect → Bool → Str → Outcome (Either Str Unit)) (m : MultiCorpusReaderPrivate)
    (d : QueryDialect) (vars : Bool) (query : Str) : Outcome (Either Str Unit) :=
  CorpusReader.isValidQuery (m.validQuery env opener isValidQuery d vars) query

end MultiCorpusReaderPrivate

/-- `RecursiveCorpusReaderPrivate::validQuery`: `isValidQuery` of the reader
of many corpora. -/
def RecursiveCorpusReaderPrivate.validQuery (env : Env) (r : RecursiveCorpusReaderPrivate) (d : QueryDialect)
    (vars : Bool) (query : Str) : Outcome (Either Str Unit) :=
  CorpusReader.isValidQuery
    (r.multiReader.validQueryPublic env (fun corpus => factoryOpen env corpus.1) (Leaf.isValidQuery env) d vars) query

namespace Corpus

def validQuery (env : Env) (c : Corpus) (d : QueryDialect) (vars : Bool) (query : Str) : Outcome (Either Str Unit) :=
  match c with
  | leaf l => l.validQuery env d vars query
  | recursive r => CorpusReader.isValidQuery (r.validQuery env d vars) query

def isValidQuery (env : Env) (c : Corpus) (d : QueryDialect) (vars : Bool) (q : Str) : Outcome (Either Str Unit) :=
  CorpusReader.isValidQuery (c.validQuery env d vars) q

end Corpus

namespace Reader

def validQuery (env : Env) (rdr : Reader) (d : QueryDialect) (vars : Bool) (query : Str) :
    Outcome (Either Str Unit) :=
  match rdr with
  | corpus c => c.validQuery env d vars query
  | multi m => m.validQueryPublic env (openCorpus env) (Corpus.isValidQuery env) d vars query

def isValidQuery (env : Env) (rdr : Reader) (d : QueryDialect) (vars : Bool) (q : Str) : Outcome (Either Str Unit) :=
  CorpusReader.isValidQuery (rdr.validQuery env d vars) q

end Reader

/-! ## What validation looks at -/

/-- What a stage is validated with: a corpus, DB XML, or nothing at all. -/
inductive Validator
  | corpus
  | manager
  | nobody
  deriving DecidableEq

def MultiCorpusReaderPrivate.validator {ρ : Type} (opener : Str × Bool → Outcome ρ) (validator : ρ → Validator)
    (m : MultiCorpusReaderPrivate) : Validator :=
  match m.corporaMap.entries with
  | [] => .manager
  | (_, p) :: _ =>
    match opener p with
    | .ok reader => validator reader
    | .error _ => .nobody

def Corpus.validator (env : Env) : Corpus → Validator
  | leaf _ => .corpus
  | recursive r => r.multiReader.validator (fun corpus => factoryOpen env corpus.1) fun _ => .corpus

/-- The corpus that validation comes to, if it comes to one. -/
def Reader.validator (env : Env) : Reader → Validator
  | corpus c => c.validator env
  | multi m => m.validator (openCorpus env) (Corpus.validator env)

/-- What the validator lets through. -/
def Validator.passes (env : Env) : Validator → Str → Bool
  | corpus, query => query.isEmpty || env.parse (FilterIter.cStr query)
  | manager, query => (env.prepare query).isNone
  | nobody, _ => true

/-- The two compilers accept the same expressions that are not empty, and
neither accepts the empty one. -/
structure Env.Agree (env : Env) : Prop where
  nonempty : ∀ q, q ≠ [] → env.compile false q = env.parse q
  compile_nil : env.compile false [] = false
  parse_nil : env.parse [] = false

theorem Env.Agree.eq {env : Env} (h : env.Agree) (q : Str) : env.compile false q = env.parse q := by
  by_cases hq : q = []
  · rw [hq, h.compile_nil, h.parse_nil]
  · exact h.nonempty q hq

/-- Opened as a reader of the kind `P`, or refused with an `OpenError`. -/
def OpensAs {α : Type} (P : α → Prop) (x : Outcome α) : Prop :=
  (∃ a, x = .ok a ∧ P a) ∨ ∃ e, x = .error (.raised e) ∧ e.isOpenError = true

theorem OpensAs.of_ok {α : Type} {P : α → Prop} {x : Outcome α} {a : α} (h : OpensAs P x) (hx : x = .ok a) : P a := by
  rcases h with ⟨b, hb, hP⟩ | ⟨e, he, -⟩
  · rw [hx] at hb
    injection hb with hb
    rwa [hb]
  · rw [hx] at he
    cases he

def Leaf.Plain : Leaf → Prop
  | db _ => False
  | _ => True

def Corpus.Tree (env : Env) : Corpus → Prop
  | leaf l => l.Plain
  | recursive r => ∀ c ∈ r.multiReader.corporaMap.entries, OpensAs Leaf.Plain (factoryOpen env c.2.1)

/-- A tree of readers without DB XML, in which corpora may be refused. -/
def Reader.Tree (env : Env) : Reader → Prop
  | corpus c => c.Tree env
  | multi m => ∀ c ∈ m.corporaMap.entries, OpensAs (Corpus.Tree env) (openCorpus env c.2)

/-! ### Stages one by one -/

/-- An answer that is `Right` exactly when `b` is. -/
def Answers (r : Outcome (Either Str Unit)) (b : Bool) : Prop := ∃ x, r = .ok x ∧ (x = .right () ↔ b = true)

theorem isValidQuery_stage {q : Str} (h : splitString q = [q]) (validQuery : Str → Outcome (Either Str Unit)) :
    CorpusReader.isValidQuery validQuery q = validQuery q := by
  rw [CorpusReader.isValidQuery, h, CorpusReader.isValidQueryLoop]
  cases validQuery q with
  | error s => rfl
  | ok x => cases x <;> rfl

theorem answers_loop {validQuery : Str → Outcome (Either Str Unit)} {b : Str → Bool} : ∀ {queries : List Str},
    (∀ q ∈ queries, Answers (validQuery q) (b q)) →
    Answers (CorpusReader.isValidQueryLoop validQuery queries) (queries.all b)
  | [], _ => ⟨_, rfl, by simp⟩
  | q :: queries, h => by
    obtain ⟨⟨x, hx, hb⟩, hqs⟩ := List.forall_mem_cons.mp h
    rw [CorpusReader.isValidQueryLoop, hx, List.all_cons]
    cases x with
    | left what =>
      have hfalse : b q = false := by simpa using hb
      exact ⟨.left what, rfl, by simp [hfalse]⟩
    | right u =>
      rw [show b q = true from hb.mp rfl, Bool.true_and]
      exact answers_loop hqs

variable {env : Env} {sortOrder : SortOrder} {readers : Set Reader}

theorem Leaf.answers {l : Leaf} (hplain : l.Plain) (hagree : env.Agree) (q : Str) :
    Answers (l.validQuery env .xpath false q) (Validator.passes env .corpus q) := by
  have hbase : Answers (CorpusReader.validQuery env .xpath false q) (Validator.passes env .corpus q) := by
    rw [CorpusReader.validQuery, if_neg (by simp), hagree.eq, Validator.passes]
    cases hq : q.isEmpty with
    | true => exact ⟨_, rfl, by simp⟩
    | false => cases hp : env.parse (FilterIter.cStr q) <;> exact ⟨_, rfl, by simp⟩
  cases l with
  | directory d => exact hbase
  | compact c => exact hbase
  | db c => exact hplain.elim

/-- A reader of many corpora answers as its validator does, if the corpora do. -/
theorem MultiCorpusReaderPrivate.answers {ρ : Type} {opener : Str × Bool → Outcome ρ}
    {isValidQuery : ρ → QueryDialect → Bool → Str → Outcome (Either Str Unit)} {validator : ρ → Validator} {P : ρ → Prop}
    {m : MultiCorpusReaderPrivate} {q : Str} (hopen : ∀ c ∈ m.corporaMap.entries, OpensAs P (opener c.2))
    (hvalid : ∀ reader, P reader → Answers (isValidQuery reader .xpath false q) ((validator reader).passes env q)) :
    Answers (m.validQuery env opener isValidQuery .xpath false q) ((m.validator opener validator).passes env q) := by
  rw [validQuery, MultiCorpusReaderPrivate.validator]
  cases hm : m.corporaMap.entries with
  | nil =>
    cases hp : env.prepare q <;> exact ⟨_, rfl, by simp [prepared, Validator.passes, hp]⟩
  | cons c cs =>
    rcases hopen c (by simp [hm]) with ⟨reader, ho, hP⟩ | ⟨e, ho, he⟩
    · obtain ⟨x, hx, hb⟩ := hvalid reader hP
      simp only [ho, bind, Except.bind, hx]
      exact ⟨x, rfl, hb⟩
    · simp only [ho, bind, Except.bind, he, if_true]
      exact ⟨_, rfl, by simp [Validator.passes]⟩

theorem Corpus.answers {c : Corpus} (htree : c.Tree env) (hagree : env.Agree) {q : Str} (hq : splitString q = [q]) :
    Answers (c.validQuery env .xpath false q) ((c.validator env).passes env q) := by
  cases c with
  | leaf l => exact l.answers htree hagree q
  | recursive r =>
    rw [Corpus.validQuery, isValidQuery_stage hq, RecursiveCorpusReaderPrivate.validQuery, isValidQuery_stage hq,
      MultiCorpusReaderPrivate.validQueryPublic, isValidQuery_stage hq]
    refine MultiCorpusReaderPrivate.answers htree fun l hl => ?_
    rw [Leaf.isValidQuery, isValidQuery_stage hq]
    exact l.answers hl hagree q

theorem Reader.answers {rdr : Reader} (htree : rdr.Tree env) (hagree : env.Agree) {q : Str} (hq : splitString q = [q]) :
    Answers (rdr.validQuery env .xpath false q) ((rdr.validator env).passes env q) := by
  cases rdr with
  | corpus c => exact c.answers htree hagree hq
  | multi m =>
    rw [Reader.validQuery, MultiCorpusReaderPrivate.validQueryPublic, isValidQuery_stage hq]
    refine MultiCorpusReaderPrivate.answers htree fun c hc => ?_
    rw [Corpus.isValidQuery, isValidQuery_stage hq]
    exact c.answers hc hagree hq

/-- **What a valid query is.** -/
theorem isValidQuery_iff {rdr : Reader} (htree : rdr.Tree env) (hagree : env.Agree) (q : Str) :
    rdr.isValidQuery env .xpath false q = .ok (.right ()) ↔ ∀ stage ∈ splitString q, (rdr.validator env).passes env stage := by
  obtain ⟨x, hx, hb⟩ := answers_loop fun stage hs => rdr.answers htree hagree (splitString_stage hs)
  rw [Reader.isValidQuery, CorpusReader.isValidQuery, hx]
  simpa using hb

/-! ## What running compiles -/

/-- What a filter raises about its query. -/
def FilterIter.refusal : Exn := .error (str "CorpusReader::FilterIter::FilterIter: could not evaluate XPath expression.")

/-- The readers that a run of a query reads through. -/
def Reader.readsThrough (env : Env) : Reader → Set Reader
  | corpus c => {corpus c}
  | multi m => {rdr | rdr = multi m ∨ ∃ c ∈ m.corporaMap.entries, ∃ reader, openCorpus env c.2 = .ok reader ∧ rdr = corpus reader}

/-- An error because of the text of a query, when it is compiled or when it
is evaluated: not one that reading a document raises as well. -/
def TextError (env : Env) (readers : Set Reader) (e : Exn) : Prop :=
  (e = FilterIter.refusal ∨ e = .xqException) ∧ ∀ rdr ∈ readers, ∀ path, rdr.read env path [] ≠ raise e

/-- A reader of the run, on whose documents the stages end without errors. -/
structure Reader.Suits (env : Env) (readers : Set Reader) (queries : List Str) (rdr : Reader) : Prop where
  mem : rdr ∈ readers
  errorFree : ∀ path doc, rdr.read env path [] = .ok doc → ErrorFree env queries doc

theorem Reader.Suits.mono {env : Env} {readers : Set Reader} {rdr : Reader} {queries queries' : List Str}
    (h : rdr.Suits env readers queries') (hsub : queries ⊆ queries') : rdr.Suits env readers queries :=
  ⟨h.mem, fun path doc hread q hq => h.errorFree path doc hread q (hsub hq)⟩

/-- What a run is to be spared: the state keeps `T`, and no error is because
of the text of the query. -/
def Spared {α σ : Type} (env : Env) (readers : Set Reader) (T : σ → Prop) (r : Outcome α × (σ × Unit)) : Prop :=
  T r.2.1 ∧ ∀ e, r.1 = .error (.raised e) → ¬TextError env readers e

/-- The XPath query that an iterator asks every corpus, if it asks one. -/
def MultiIter.asked (it : MultiIter Iter) : Option Str :=
  if it.d_hasQuery ∧ it.d_dialect = .xpath then some it.d_query else none

/-- A corpus that an iterator may come to: a tree, on which the query that it
is asked ends without errors. -/
def Corpus.Fits (env : Env) (readers : Set Reader) (asked : Option Str) (c : Corpus) : Prop :=
  c.Tree env ∧ ∀ q ∈ asked, (Reader.corpus c).Suits env readers (splitString q)

/-- The query of a filter ends without errors on what its reader reads. -/
def FilterIter.Free (env : Env) (readers : Set Reader) (it : FilterIter Iter) : Prop :=
  it.d_corpus ∈ readers ∧ ∀ path doc, it.d_corpus.read env path [] = .ok doc → FilterIter.fails env it.d_query doc = false

/-- Iterators over trees of readers. -/
inductive Tame (env : Env) (readers : Set Reader) : Iter → Prop
  | empty : Tame env readers .empty
  | index (it : IndexIter) : Tame env readers (.index it)
  | dir (it : DirIter) : Tame env readers (.dir it)
  | sortedDir (it : SortedDirIter) : Tame env readers (.sortedDir it)
  | filter (it : FilterIter Iter) (hitr : Tame env readers it.d_itr) (hfree : it.Free env readers) : Tame env readers (.filter it)
  | multi (it : MultiIter Iter) (htips : ∀ tip ∈ it.d_iters, OpensAs (Corpus.Fits env readers it.asked) (openCorpus env (tip.filename, tip.recursive)))
      (hcur : ∀ iter, it.d_currentIter = some iter → Tame env readers iter) : Tame env readers (.multi it)

/-- A body that is spared wherever it is called. -/
structure SparedBody (env : Env) (readers : Set Reader) (inner : Body Unit Iter) : Prop where
  hasNext : ∀ it w, Tame env readers it → Spared env readers (Tame env readers) (inner.hasNext (it, w))
  next : ∀ rdr it w, Tame env readers it → Spared env readers (Tame env readers) (inner.next rdr (it, w))

theorem not_textError {e : Exn} (h : e ≠ FilterIter.refusal) (hxq : e ≠ .xqException) : ¬TextError env readers e :=
  fun ht => ht.1.elim h hxq

namespace FilterIter

/-- The condition on a filter. -/
def Tame (env : Env) (readers : Set Reader) (it : FilterIter Iter) : Prop := AlpinoCorpus.Tame env readers it.d_itr ∧ it.Free env readers

/-- Parsing a file throws what reading it throws. -/
theorem spared_parseFile (it : FilterIter Iter) (file : Str) (w : Unit) (h : Tame env readers it) :
    Spared env readers (Tame env readers) (it.parseFile env file w) := by
  cases hread : it.d_corpus.read env file [] with
  | error s =>
    rw [parseFile_error it hread]
    refine ⟨h, fun e he ht => ht.2 it.d_corpus h.2.1 file ?_⟩
    obtain rfl : s = .raised e := by injection he
    exact hread
  | ok doc =>
    rw [parseFile_ok it hread (h.2.2 file doc hread)]
    exact ⟨h, fun _ he => by cases he⟩

theorem spared_hasNextLoop {inner : Body Unit Iter} (hinner : SparedBody env readers inner) : ∀ (n : Nat) (it : FilterIter Iter) (w : Unit),
    Tame env readers it → Spared env readers (Tame env readers) (hasNextLoop env inner n (it, w))
  | 0, _, _, h => ⟨h, fun _ he => by cases he⟩
  | n + 1, it, w, h => by
    rw [hasNextLoop]
    split
    · exact ⟨h, fun _ he => by cases he⟩
    · have h₁ := hinner.hasNext it.d_itr w h.1
      split
      · next e itr w heq => rw [heq] at h₁; exact ⟨⟨h₁.1, h.2⟩, fun e he => h₁.2 e (congrArg Except.error (Except.error.inj he))⟩
      · next itr w heq => rw [heq] at h₁; exact ⟨⟨h₁.1, h.2⟩, fun _ he => by cases he⟩
      · next itr w heq =>
        rw [heq] at h₁
        have h₂ := hinner.next it.d_corpus itr w h₁.1
        split
        · next s itr w heq =>
          rw [heq] at h₂
          exact ⟨⟨h₂.1, h.2⟩, fun e he => h₂.2 e (congrArg Except.error (Except.error.inj he))⟩
        · next e itr w heq =>
          rw [heq] at h₂
          split
          · exact spared_hasNextLoop hinner n _ _ ⟨h₂.1, h.2⟩
          · split
            · refine ⟨⟨h₂.1, h.2⟩, fun e he => not_textError ?_ ?_⟩ <;>
              · obtain rfl : Exn.iterationInterrupted = e := by injection he with he; injection he
                decide
            · have hparse := spared_parseFile { it with d_itr := itr, d_file := e.name } e.name w ⟨h₂.1, h.2⟩
              split
              · next e' s heq =>
                rw [heq] at hparse
                exact ⟨hparse.1, fun e he => hparse.2 e (congrArg Except.error (Except.error.inj he))⟩
              · next s heq =>
                rw [heq] at hparse
                exact spared_hasNextLoop hinner n _ _ hparse.1

theorem spared_next (it : FilterIter Iter) (w : Unit) (h : Tame env readers it) : Spared env readers (Tame env readers) (next (it, w)) := by
  rw [next]
  split
  · refine ⟨h, fun e he => not_textError ?_ ?_⟩ <;>
    · obtain rfl : Exn.error (str "Calling next() on an iterator that is exhausted.") = e := by
        injection he with he; injection he
      decide
  · exact ⟨h, fun _ he => by cases he⟩

end FilterIter

namespace MultiIter

/-- The condition on the iterator of many corpora. -/
def Tame (env : Env) (readers : Set Reader) (it : MultiIter Iter) : Prop :=
  (∀ tip ∈ it.d_iters, OpensAs (Corpus.Fits env readers it.asked) (openCorpus env (tip.filename, tip.recursive))) ∧
    ∀ iter, it.d_currentIter = some iter → AlpinoCorpus.Tame env readers iter

theorem spared_currentHasNext {inner : Body Unit Iter} (hinner : SparedBody env readers inner) (it : MultiIter Iter) (w : Unit)
    (h : Tame env readers it) : Spared env readers (Tame env readers) (currentHasNext inner (it, w)) := by
  unfold currentHasNext
  cases hcur : it.d_currentIter with
  | none => exact ⟨h, fun _ he => by cases he⟩
  | some iter =>
    have hhas := hinner.hasNext iter w (h.2 iter hcur)
    refine ⟨⟨h.1, fun iter' heq => ?_⟩, hhas.2⟩
    obtain rfl := Option.some.inj heq
    exact hhas.1

theorem spared_next {inner : Body Unit Iter} (hinner : SparedBody env readers inner) (rdr : Reader) (it : MultiIter Iter) (w : Unit)
    (h : Tame env readers it) : Spared env readers (Tame env readers) (next inner rdr (it, w)) := by
  rw [next]
  split
  · refine ⟨h, fun e he => not_textError ?_ ?_⟩ <;>
    · obtain rfl : Exn.iterationInterrupted = e := by injection he with he; injection he
      decide
  · split
    · exact ⟨h, fun _ he => by cases he⟩
    · next iter hcur =>
      have hnext := hinner.next rdr iter w (h.2 iter hcur)
      split
      · next s iter' w heq =>
        rw [heq] at hnext
        exact ⟨⟨h.1, fun iter' heq => by obtain rfl := Option.some.inj heq; exact hnext.1⟩, hnext.2⟩
      · next e iter' w heq =>
        rw [heq] at hnext
        exact ⟨⟨h.1, fun iter' heq => by obtain rfl := Option.some.inj heq; exact hnext.1⟩, fun _ he => by cases he⟩

theorem currentHasNext_asked (inner : Body Unit Iter) (it : MultiIter Iter) (w : Unit) :
    (currentHasNext inner (it, w)).2.1.asked = it.asked := by
  unfold currentHasNext
  cases it.d_currentIter <;> rfl

end MultiIter

/-! ### The iterators of a tree -/

theorem create_cases (env : Env) (rdr : Reader) (itr : Iter) (q : Str) :
    (env.parse (FilterIter.cStr q) = true ∧
      FilterIter.create env rdr itr q = .ok ⟨rdr, itr, [], FilterIter.cStr q, [], false⟩) ∨
      FilterIter.create env rdr itr q = raise FilterIter.refusal := by
  by_cases h : env.parse (FilterIter.cStr q) = true
  · exact .inl ⟨h, create_ok h⟩
  · exact .inr (if_neg h)

theorem tame_create {rdr : Reader} {itr it : Iter} {q : Str} (h : Tame env readers itr) (hsuits : rdr.Suits env readers [q])
    (hit : Iter.filter <$> FilterIter.create env rdr itr q = .ok it) : Tame env readers it := by
  rcases create_cases env rdr itr q with ⟨-, hc⟩ | hc
  · rw [hc] at hit
    obtain rfl := Except.ok.inj hit
    exact .filter _ h ⟨hsuits.mem, fun path doc hread => hsuits.errorFree path doc hread q (List.mem_singleton_self q)⟩
  · rw [hc] at hit
    cases hit

theorem tame_foldlM {rdr : Reader} : ∀ {queries : List Str} {it it' : Iter}, Tame env readers it → rdr.Suits env readers queries →
    queries.foldlM (fun it q => Iter.filter <$> FilterIter.create env rdr it q) it = (.ok it' : Outcome Iter) → Tame env readers it'
  | [], it, it', h, _, hit => by
    obtain rfl : it = it' := by injection hit
    exact h
  | q :: queries, it, it', h, hsuits, hit => by
    rw [List.foldlM_cons] at hit
    obtain ⟨it₁, h₁, hit⟩ := bind_ok_iff.mp hit
    exact tame_foldlM (tame_create h (hsuits.mono (by simp)) h₁) (hsuits.mono (List.subset_cons_self q queries)) hit

theorem Leaf.tame_entries {l : Leaf} (hplain : l.Plain) {it : Iter} (h : l.getEntries env sortOrder = .ok it) : Tame env readers it := by
  cases l with
  | directory d =>
    cases sortOrder with
    | naturalOrder => injection h with h; subst h; exact .dir _
    | numericalOrder => injection h with h; subst h; exact .sortedDir _
  | compact c => injection h with h; subst h; exact .index _
  | db c => exact hplain.elim

theorem Corpus.tree_leaf {c : Str × Bool} (hc : c.2 = false) (h : OpensAs Leaf.Plain (factoryOpen env c.1)) :
    OpensAs (Corpus.Tree env) (openCorpus env c) := by
  rw [openCorpus_plain hc]
  rcases h with ⟨l, ho, hl⟩ | ⟨e, ho, he⟩
  · exact .inl ⟨.leaf l, by rw [ho]; rfl, hl⟩
  · exact .inr ⟨e, by rw [ho]; rfl, he⟩

/-- The corpora of a recursive reader are trees. -/
theorem RecursiveCorpusReaderPrivate.tree {r : RecursiveCorpusReaderPrivate} (h : (Corpus.recursive r).Tree env) :
    (Reader.multi r.multiReader).Tree env := fun c hc => Corpus.tree_leaf (r.plainMap c hc) (h c hc)

/-- Every corpus that opens ends the query without errors. -/
def MultiCorpusReaderPrivate.Suits (env : Env) (readers : Set Reader) (m : MultiCorpusReaderPrivate) (asked : Option Str) : Prop :=
  ∀ c ∈ m.corporaMap.entries, ∀ reader, openCorpus env c.2 = .ok reader →
    ∀ q ∈ asked, (Reader.corpus reader).Suits env readers (splitString q)

theorem MultiIter.tame_readerIters {m : MultiCorpusReaderPrivate} (h : (Reader.multi m).Tree env) {asked : Option Str}
    (hsuits : m.Suits env readers asked) : ∀ tip ∈ MultiIter.readerIters m.corporaMap,
      OpensAs (Corpus.Fits env readers asked) (openCorpus env (tip.filename, tip.recursive)) := by
  intro tip htip
  obtain ⟨c, hc, rfl⟩ := List.mem_map.mp htip
  rcases h c hc with ⟨reader, ho, htree⟩ | hrefused
  · exact .inl ⟨reader, ho, htree, hsuits c hc reader ho⟩
  · exact .inr hrefused

theorem tame_ofEntries {m : MultiCorpusReaderPrivate} (h : (Reader.multi m).Tree env) :
    Tame env readers (.multi (.ofEntries m.corporaMap sortOrder)) :=
  .multi _ (MultiIter.tame_readerIters h fun _ _ _ _ _ hq => nomatch hq) nofun

theorem tame_ofQuery {m : MultiCorpusReaderPrivate} (h : (Reader.multi m).Tree env) {q : Str} (d : QueryDialect)
    (hsuits : d = .xpath → m.Suits env readers (some q)) : Tame env readers (.multi (.ofQuery m.corporaMap q d sortOrder)) := by
  refine .multi _ (MultiIter.tame_readerIters h ?_) nofun
  cases d with
  | xpath => exact hsuits rfl
  | xquery => exact fun _ _ _ _ _ hq => nomatch hq

namespace Corpus

theorem getEntries_ok {c : Corpus} (h : c.Tree env) : ∃ it, c.getEntries env sortOrder = .ok it ∧ Tame env readers it := by
  cases c with
  | leaf l =>
    obtain ⟨it, hit, -⟩ := l.deliver_entries env sortOrder
    exact ⟨it, hit, l.tame_entries h hit⟩
  | recursive r => exact ⟨_, rfl, tame_ofEntries (r.tree h)⟩

theorem usesRunXPath {c : Corpus} (h : c.Tree env) : (Reader.corpus c).UsesRunXPath env := by
  cases c with
  | leaf l =>
    cases l with
    | directory d => rfl
    | compact c => rfl
    | db c => exact h.elim
  | recursive r => rfl

/-- A query puts its stages on the entries. -/
theorem query_eq {c : Corpus} (h : c.Tree env) (q : Str) : ∃ itr, Tame env readers itr ∧ c.query env .xpath q sortOrder =
    (splitString q).foldlM (fun it q => Iter.filter <$> FilterIter.create env (.corpus c) it q) itr := by
  obtain ⟨itr, hitr, htame⟩ := @getEntries_ok env sortOrder readers c h
  refine ⟨itr, htame, ?_⟩
  cases hs : splitString q with
  | nil => exact absurd hs (splitString_ne_nil q)
  | cons q₁ queries =>
    have hrun : c.runXPath env q₁ sortOrder = Iter.filter <$> FilterIter.create env (.corpus c) itr q₁ := by
      have hitr : (Reader.corpus c).getEntries env sortOrder = .ok itr := hitr
      rw [show c.runXPath env = _ from usesRunXPath h, CorpusReader.runXPath, hitr]
      rfl
    rw [Corpus.query, CorpusReader.query, hs, List.foldlM_cons]
    simp only [hrun]

theorem tame_query {c : Corpus} (h : c.Tree env) {q : Str} {it : Iter} (hsuits : (Reader.corpus c).Suits env readers (splitString q))
    (hit : c.query env .xpath q sortOrder = .ok it) : Tame env readers it := by
  obtain ⟨itr, htame, heq⟩ := @query_eq env sortOrder readers c h q
  rw [heq] at hit
  exact tame_foldlM htame hsuits hit

/-- An XQuery is refused, or left to the corpora below. -/
theorem query_xquery {c : Corpus} (h : c.Tree env) (q : Str) :
    (∃ msg, c.query env .xquery q sortOrder = raise (.notImplemented msg)) ∨
      ∃ it, c.query env .xquery q sortOrder = .ok it ∧ Tame env readers it := by
  cases c with
  | leaf l =>
    cases l with
    | directory d => exact .inl ⟨_, rfl⟩
    | compact c => exact .inl ⟨_, rfl⟩
    | db c => exact h.elim
  | recursive r => exact .inr ⟨_, rfl, tame_ofQuery (r.tree h) .xquery nofun⟩

/-- What a reader of many corpora starts in one of them; a refusal is one that
it catches. -/
theorem tame_start {c : Corpus} {it : MultiIter Iter} (h : c.Fits env readers it.asked) {w : Unit} :
    (∃ iter, (Iter.start env c it w).1 = .ok iter ∧ Tame env readers iter) ∨
      ∃ e, (Iter.start env c it w).1 = raise e ∧ e.isRuntimeError = true := by
  obtain ⟨htree, hsuits⟩ := h
  unfold Iter.start
  cases hq : it.d_hasQuery with
  | false =>
    obtain ⟨iter, hit, htame⟩ := @getEntries_ok env it.d_sortOrder readers c htree
    exact .inl ⟨iter, hit, htame⟩
  | true =>
    cases hd : it.d_dialect with
    | xpath =>
      simp only [if_true]
      cases hquery : c.query env .xpath it.d_query it.d_sortOrder with
      | ok iter =>
        have hasked : it.asked = some it.d_query := if_pos ⟨hq, hd⟩
        exact .inl ⟨iter, rfl, tame_query htree (hsuits _ hasked) hquery⟩
      | error s =>
        obtain ⟨itr, -, heq⟩ := @query_eq env it.d_sortOrder readers c htree it.d_query
        obtain hok | ⟨e, he⟩ : Accepted env (splitString it.d_query) ∨ _ :=
          (Classical.em _).imp_right (foldlM_rejected (.corpus c) itr)
        · obtain ⟨it', hit'⟩ := foldlM_accepted (.corpus c) itr hok
          rw [heq, hit'] at hquery
          cases hquery
        · rw [heq, he] at hquery
          cases hquery
          exact .inr ⟨_, rfl, rfl⟩
    | xquery =>
      simp only [if_true]
      rcases @query_xquery env it.d_sortOrder readers c htree it.d_query with ⟨msg, hmsg⟩ | hok
      · exact .inr ⟨_, hmsg, rfl⟩
      · exact .inl hok

end Corpus

/-- `openTip` throws nothing where the corpora fit. -/
theorem MultiIter.openTip_fits {it : MultiIter Iter} {tip : ReaderIter} (w : Unit)
    (hopen : OpensAs (Corpus.Fits env readers it.asked) (openCorpus env (tip.filename, tip.recursive))) :
    MultiIter.openTip env (Iter.start env) it tip w = (.ok none, w) ∨
      ∃ reader iter, MultiIter.openTip env (Iter.start env) it tip w = (.ok (some (reader, iter)), w) ∧
        AlpinoCorpus.Tame env readers iter := by
  rcases hopen with ⟨reader, ho, hfits⟩ | ⟨e, ho, he⟩
  · have hstart := @Corpus.tame_start env readers reader it hfits w
    have hw : Iter.start env reader it w = ((Iter.start env reader it w).1, w) := rfl
    rcases hstart with ⟨iter, hs, htame⟩ | ⟨e, hs, he⟩
    · rw [hs] at hw
      exact .inr ⟨reader, iter, by simp only [MultiIter.openTip, ho, hw], htame⟩
    · rw [hs] at hw
      exact .inl (by simp only [MultiIter.openTip, ho, hw, raise, he, if_true])
  · exact .inl (by simp only [MultiIter.openTip, ho, he, if_true])

/-! ### Runs -/

namespace MultiIter

theorem spared_nextIteratorLoop {inner : Body Unit Iter} (hinner : SparedBody env readers inner) :
    ∀ (tips : List ReaderIter) (it : MultiIter Iter) (w : Unit), Tame env readers it →
      (∀ tip ∈ tips, OpensAs (Corpus.Fits env readers it.asked) (openCorpus env (tip.filename, tip.recursive))) →
      Spared env readers (Tame env readers) (nextIteratorLoop inner (openTip env (Iter.start env)) tips (it, w))
  | [], _, _, h, _ => ⟨h, fun _ he => by cases he⟩
  | tip :: tips, it, w, h, htips => by
    rw [nextIteratorLoop]
    split
    · exact ⟨h, fun _ he => by cases he⟩
    · have hcur := spared_currentHasNext hinner it w h
      have hasked := currentHasNext_asked inner it w
      split
      · next s st heq =>
        rw [heq] at hcur
        exact ⟨hcur.1, fun e he => hcur.2 e (congrArg Except.error (Except.error.inj he))⟩
      · next st heq => rw [heq] at hcur; exact ⟨hcur.1, fun _ he => by cases he⟩
      · next it₁ w₁ heq =>
        rw [heq] at hcur hasked
        rw [← hasked] at htips
        obtain ⟨htip, htips⟩ := List.forall_mem_cons.mp htips
        have hcleared : OpensAs (Corpus.Fits env readers
            ({ it₁ with d_currentIter := none, d_currentReader := none } : MultiIter Iter).asked) _ := htip
        obtain hnone | ⟨reader, iter, hsome, htame⟩ := openTip_fits w₁ hcleared
        · simp only [hnone]
          exact spared_nextIteratorLoop hinner tips _ _ ⟨htips, fun _ h => by cases h⟩ htips
        · simp only [hsome]
          refine spared_nextIteratorLoop hinner tips _ _ ⟨htips, fun iter' heq => ?_⟩ htips
          obtain rfl := Option.some.inj heq
          exact htame

theorem spared_hasNext {inner : Body Unit Iter} (hinner : SparedBody env readers inner) (it : MultiIter Iter) (w : Unit) (h : Tame env readers it) :
    Spared env readers (Tame env readers) (hasNext inner (openTip env (Iter.start env)) (it, w)) := by
  unfold hasNext
  split
  · refine ⟨h, fun e he => not_textError ?_ ?_⟩ <;>
    · obtain rfl : Exn.iterationInterrupted = e := by injection he with he; injection he
      decide
  · have hloop := spared_nextIteratorLoop hinner it.d_iters it w h h.1
    split
    · next s st heq =>
      rw [heq] at hloop
      exact ⟨hloop.1, fun e he => hloop.2 e (congrArg Except.error (Except.error.inj he))⟩
    · next st heq =>
      rw [heq] at hloop
      exact spared_currentHasNext hinner _ _ hloop.1

end MultiIter

/-- **No call raises an error because of the text of a query.** -/
theorem spared_body (env : Env) (readers : Set Reader) : ∀ fuel, SparedBody env readers (Iter.body env fuel)
  | 0 => ⟨fun _ _ h => ⟨h, fun _ he => by cases he⟩, fun _ _ _ h => ⟨h, fun _ he => by cases he⟩⟩
  | fuel + 1 => by
    have ih := spared_body env readers fuel
    constructor
    · intro it w h
      cases h with
      | empty => exact ⟨.empty, fun _ he => by cases he⟩
      | index it => exact ⟨.index _, fun _ he => by cases he⟩
      | dir it => exact ⟨.dir _, fun _ he => by cases he⟩
      | sortedDir it => exact ⟨.sortedDir _, fun _ he => by cases he⟩
      | filter it hitr hfree =>
        have hf := FilterIter.spared_hasNextLoop ih fuel { it with d_interrupted := false } w ⟨hitr, hfree⟩
        exact ⟨.filter _ hf.1.1 hf.1.2, hf.2⟩
      | multi it htips hcur =>
        have hm := MultiIter.spared_hasNext ih it w ⟨htips, hcur⟩
        exact ⟨.multi _ hm.1.1 hm.1.2, hm.2⟩
    · intro rdr it w h
      cases h with
      | empty => exact ⟨.empty, fun _ he => by cases he⟩
      | index it =>
        refine ⟨.index _, fun e he => ?_⟩
        change it.next.1 = _ at he
        rw [IndexIter.next] at he
        split at he <;> cases he
      | dir it =>
        refine ⟨.dir _, fun e he => ?_⟩
        change it.next.1 = _ at he
        rw [DirIter.next] at he
        split at he <;> cases he
      | sortedDir it =>
        refine ⟨.sortedDir _, fun e he => ?_⟩
        change it.next.1 = _ at he
        rw [SortedDirIter.next] at he
        split at he <;> cases he
      | filter it hitr hfree =>
        have hf := FilterIter.spared_next it w ⟨hitr, hfree⟩
        exact ⟨.filter _ hf.1.1 hf.1.2, hf.2⟩
      | multi it htips hcur =>
        have hm := MultiIter.spared_next ih rdr it w ⟨htips, hcur⟩
        exact ⟨.multi _ hm.1.1 hm.1.2, hm.2⟩

/-- A complete iteration is spared. -/
theorem spared_exhaust (fuel : Nat) (rdr : Reader) : ∀ (n : Nat) (it : Iter) (w : Unit), Tame env readers it →
    Spared env readers (Tame env readers) (exhaust ((Iter.body env fuel).machine rdr) .unfinished n (it, w))
  | 0, _, _, h => ⟨h, fun _ he => by cases he⟩
  | n + 1, it, w, h => by
    have hhas := (spared_body env readers fuel).hasNext it w h
    rw [exhaust]
    split
    · next s st heq =>
      rw [show (Iter.body env fuel).hasNext (it, w) = _ from heq] at hhas
      exact ⟨hhas.1, fun e he => hhas.2 e (congrArg Except.error (Except.error.inj he))⟩
    · next st heq =>
      rw [show (Iter.body env fuel).hasNext (it, w) = _ from heq] at hhas
      exact ⟨hhas.1, fun _ he => by cases he⟩
    · next st heq =>
      rw [show (Iter.body env fuel).hasNext (it, w) = _ from heq] at hhas
      have hnext := (spared_body env readers fuel).next rdr st.1 st.2 hhas.1
      split
      · next s st' heq =>
        rw [show (Iter.body env fuel).next rdr (st.1, st.2) = _ from heq] at hnext
        exact ⟨hnext.1, fun e he => hnext.2 e (congrArg Except.error (Except.error.inj he))⟩
      · next x st' heq =>
        rw [show (Iter.body env fuel).next rdr (st.1, st.2) = _ from heq] at hnext
        have hrest := spared_exhaust fuel rdr n st'.1 st'.2 hnext.1
        split
        · next s st'' heq => rw [show exhaust _ _ n (st'.1, st'.2) = _ from heq] at hrest; exact hrest
        · next xs st'' heq =>
          rw [show exhaust _ _ n (st'.1, st'.2) = _ from heq] at hrest
          exact ⟨hrest.1, fun _ he => by cases he⟩

/-! ## Validated queries -/

/-- A query that runs: it returns an iterator, no complete iteration ends in
an error because of the text, and no corpus that opens is passed over. -/
structure Reader.Runs (env : Env) (rdr : Reader) (q : Str) (sortOrder : SortOrder) : Prop where
  returns : ∃ it, rdr.query env .xpath q sortOrder = .ok it
  iterates : ∀ it, rdr.query env .xpath q sortOrder = .ok it → ∀ fuel n rdr' e,
    (exhaust ((Iter.body env fuel).machine rdr') .unfinished n (it, ())).1 = .error (.raised e) → ¬TextError env (rdr.readsThrough env) e
  complete : ∀ m, rdr = .multi m → ∀ tip ∈ MultiIter.readerIters m.corporaMap, ∀ reader,
    openCorpus env (tip.filename, tip.recursive) = .ok reader → ∃ iter,
      (MultiIter.openTip env (Iter.start env) (.ofQuery m.corporaMap ((splitString q).headD []) .xpath sortOrder) tip ()).1 =
        .ok (some (reader, iter))

/-- The stages that are compiled when a query runs: a reader of many corpora
compiles the first for each corpus that opens. -/
def Reader.Compiles (env : Env) (rdr : Reader) (queries : List Str) : Prop :=
  match rdr with
  | corpus _ => Accepted env queries
  | multi m => Accepted env queries.tail ∧
    ((∃ c ∈ m.corporaMap.entries, ∃ reader, openCorpus env c.2 = .ok reader) → env.parse (FilterIter.cStr (queries.headD [])) = true)

/-- No stage ends with an error on anything that a run reads. -/
def Reader.Evaluates (env : Env) (rdr : Reader) (queries : List Str) : Prop :=
  ∀ rdr' ∈ rdr.readsThrough env, ∀ path doc, rdr'.read env path [] = .ok doc → ErrorFree env queries doc

theorem Reader.Evaluates.suits {env : Env} {rdr rdr' : Reader} {queries : List Str} (h : rdr.Evaluates env queries)
    (hmem : rdr' ∈ rdr.readsThrough env) : rdr'.Suits env (rdr.readsThrough env) queries := ⟨hmem, h rdr' hmem⟩

/-- The stages of a query, all or none of them refused. -/
theorem foldlM_ok_iff (rdr : Reader) (queries : List Str) (it : Iter) :
    (∃ it', queries.foldlM (fun it q => Iter.filter <$> FilterIter.create env rdr it q) it = (.ok it' : Outcome Iter)) ↔
      Accepted env queries := by
  constructor
  · rintro ⟨it', hit⟩
    by_contra h
    obtain ⟨e, he⟩ := foldlM_rejected rdr it h
    rw [hit] at he
    cases he
  · exact foldlM_accepted rdr it

theorem Corpus.query_ok_iff {c : Corpus} (h : c.Tree env) (q : Str) :
    (∃ it, c.query env .xpath q sortOrder = .ok it) ↔ Accepted env (splitString q) := by
  obtain ⟨itr, -, heq⟩ := @query_eq env sortOrder ∅ c h q
  rw [heq]
  exact foldlM_ok_iff (.corpus c) (splitString q) itr

/-- A corpus that opens is passed over exactly when the stage is refused. -/
theorem openTip_ok_iff {it : MultiIter Iter} (hquery : it.d_hasQuery = true) (hd : it.d_dialect = .xpath) {tip : ReaderIter}
    {reader : Corpus} (ho : openCorpus env (tip.filename, tip.recursive) = .ok reader) (htree : reader.Tree env) :
    (∃ iter, (MultiIter.openTip env (Iter.start env) it tip ()).1 = .ok (some (reader, iter))) ↔
      Accepted env (splitString it.d_query) := by
  have hquery' : (∃ i, reader.query env .xpath it.d_query it.d_sortOrder = .ok i) ↔ _ := Corpus.query_ok_iff htree _
  rw [← hquery']
  rw [MultiIter.openTip, ho]
  simp only [Iter.start, hquery, hd, if_true]
  cases reader.query env .xpath it.d_query it.d_sortOrder with
  | ok iter => simp
  | error s =>
    cases s with
    | raised e => simp; split <;> simp [raise]
    | undefined => simp
    | unfinished => simp

/-- **When a query runs.** -/
theorem runs_iff {rdr : Reader} (htree : rdr.Tree env) {q : Str} (heval : rdr.Evaluates env (splitString q)) :
    rdr.Runs env q sortOrder ↔ rdr.Compiles env (splitString q) := by
  cases rdr with
  | corpus c =>
    rw [Reader.Compiles, ← Corpus.query_ok_iff htree]
    constructor
    · intro h
      exact h.returns
    · intro h
      refine ⟨h, fun it hit fuel n rdr' e he => ?_, fun _ he => by cases he⟩
      exact (spared_exhaust fuel rdr' n it () (c.tame_query htree (heval.suits rfl) hit)).2 e he
  | multi m =>
    cases hs : splitString q with
    | nil => exact absurd hs (splitString_ne_nil q)
    | cons q₁ queries =>
      have h₁ : splitString q₁ = [q₁] := splitString_stage (show q₁ ∈ splitString q by simp [hs])
      have hasked : splitString (.ofQuery m.corporaMap ((q₁ :: queries).headD []) .xpath sortOrder : MultiIter Iter).d_query = [q₁] := h₁
      have hreturns : (∃ it, (Reader.multi m).query env .xpath q sortOrder = .ok it) ↔ Accepted env queries := by
        rw [multi_query m hs]
        exact foldlM_ok_iff _ _ _
      rw [Reader.Compiles, List.tail_cons, List.headD_cons]
      constructor
      · intro h
        refine ⟨hreturns.mp h.returns, ?_⟩
        rintro ⟨c, hc, reader, ho⟩
        have hopen := h.complete m rfl ⟨c.1, c.2.1, c.2.2⟩ (List.mem_map_of_mem hc) reader ho
        rw [hs, openTip_ok_iff rfl rfl ho ((htree c hc).of_ok ho)] at hopen
        exact hopen q₁ (by rw [hasked]; simp)
      · rintro ⟨hqueries, hq₁⟩
        refine ⟨hreturns.mpr hqueries, fun it hit fuel n rdr' e he => ?_, ?_⟩
        · refine (spared_exhaust fuel rdr' n it () ?_).2 e he
          rw [multi_query m hs] at hit
          rw [hs] at heval
          have hsuits : m.Suits env ((Reader.multi m).readsThrough env) (some q₁) := by
            rintro c hc reader ho q' ⟨⟩
            refine (heval.suits (.inr ⟨c, hc, reader, ho, rfl⟩)).mono ?_
            rw [h₁]
            exact List.cons_subset_cons q₁ (List.nil_subset queries)
          exact tame_foldlM (tame_ofQuery htree .xpath fun _ => hsuits)
            ((heval.suits (.inl rfl)).mono (List.subset_cons_self q₁ queries)) hit
        · intro m' heq tip htip reader ho
          obtain rfl : m = m' := by injection heq
          obtain ⟨c, hc, rfl⟩ := List.mem_map.mp htip
          rw [hs, openTip_ok_iff rfl rfl ho ((htree c hc).of_ok ho)]
          intro stage hstage
          rw [hasked, List.mem_singleton] at hstage
          rw [hstage]
          exact hq₁ ⟨c, hc, reader, ho⟩

/-- Where the first corpus does not open, every query is valid. -/
theorem valid_of_nobody {rdr : Reader} (htree : rdr.Tree env) (hagree : env.Agree) (h : rdr.validator env = .nobody) (q : Str) :
    rdr.isValidQuery env .xpath false q = .ok (.right ()) :=
  (isValidQuery_iff htree hagree q).mpr fun _ _ => by rw [h]; rfl

/-- **Validated queries run**, where validation comes to a corpus, exactly
when no stage is empty: the empty stage is let through. -/
theorem validated_runs_iff {rdr : Reader} (htree : rdr.Tree env) (hagree : env.Agree) (hvalidator : rdr.validator env = .corpus)
    {q : Str} (hvalid : rdr.isValidQuery env .xpath false q = .ok (.right ())) (heval : rdr.Evaluates env (splitString q))
    (sortOrder : SortOrder) : rdr.Runs env q sortOrder ↔ [] ∉ splitString q := by
  have hpass := (isValidQuery_iff htree hagree q).mp hvalid
  rw [hvalidator] at hpass
  have haccepted : Accepted env (splitString q) ↔ [] ∉ splitString q := by
    constructor
    · intro h hempty
      have := h [] hempty
      rw [show FilterIter.cStr [] = [] from rfl, hagree.parse_nil] at this
      cases this
    · intro hne stage hstage
      have := hpass stage hstage
      rw [Validator.passes, Bool.or_eq_true, List.isEmpty_iff] at this
      rcases this with rfl | hp
      · exact absurd hstage hne
      · exact hp
  rw [runs_iff htree heval, ← haccepted]
  cases rdr with
  | corpus c => rfl
  | multi m =>
    have hopened : ∃ c ∈ m.corporaMap.entries, ∃ reader, openCorpus env c.2 = .ok reader := by
      rw [Reader.validator, MultiCorpusReaderPrivate.validator] at hvalidator
      split at hvalidator
      · cases hvalidator
      · next name p cs hm =>
        split at hvalidator
        · next reader ho => exact ⟨(name, p), by simp [hm], reader, ho⟩
        · cases hvalidator
    unfold Reader.Compiles
    cases hs : splitString q with
    | nil => exact absurd hs (splitString_ne_nil q)
    | cons q₁ queries => simp [Accepted, hopened, and_comm]

/-- Two corpora; the second does not open. -/
def halfOpened : MultiCorpusReaderPrivate :=
  (MultiCorpusReaderPrivate.empty.register (str "a") (str "a.index") false).register (str "b") (str "b.index") false

def halfOpenedEnv : Env := sampleEnv [(str "a.index", sampleDocs)] sampleValues

theorem sample_validated_runs_iff :
    (Reader.multi halfOpened).isValidQuery halfOpenedEnv .xpath false (str "//b+|+//a") = .ok (.right ()) ∧
      (Reader.multi halfOpened).Runs halfOpenedEnv (str "//b+|+//a") .numericalOrder := by
  have htree : (Reader.multi halfOpened).Tree halfOpenedEnv := by
    intro c hc
    have hentries : halfOpened.corporaMap.entries =
        [(str "a", (str "a.index", false)), (str "b", (str "b.index", false))] := by decide
    simp only [hentries, List.mem_cons, List.not_mem_nil, or_false] at hc
    rcases hc with rfl | rfl
    · exact .inl ⟨_, rfl, trivial⟩
    · exact .inr ⟨_, rfl, rfl⟩
  have hagree : halfOpenedEnv.Agree := ⟨fun _ _ => rfl, by decide, by decide⟩
  have hvalid : (Reader.multi halfOpened).isValidQuery halfOpenedEnv .xpath false (str "//b+|+//a") = .ok (.right ()) := by
    decide
  have heval : (Reader.multi halfOpened).Evaluates halfOpenedEnv (splitString (str "//b+|+//a")) :=
    fun _ _ _ _ _ _ _ => Bool.and_false _
  exact ⟨hvalid, (validated_runs_iff htree hagree rfl hvalid heval .numericalOrder).mpr (by decide)⟩

/-- The empty query is valid, and throws. So may a query of which the
evaluation ends with an error. -/
theorem valid_queries_do_not_run :
    let rdr := Reader.corpus (.leaf (.compact (sampleCorpus sampleDocs)))
    let env := sampleEnv [] sampleValues
    let raising := { env with raises := fun _ _ => true }
    (rdr.Tree env ∧ env.Agree ∧ rdr.isValidQuery env .xpath false [] = .ok (.right ()) ∧
      rdr.query env .xpath [] .naturalOrder = raise FilterIter.refusal ∧ ¬rdr.Runs env [] .naturalOrder) ∧
    (rdr.Tree raising ∧ raising.Agree ∧ rdr.isValidQuery raising .xpath false (str "//b") = .ok (.right ()) ∧
      ¬rdr.Runs raising (str "//b") .naturalOrder) := by
  intro rdr env raising
  refine ⟨⟨trivial, ⟨fun _ _ => rfl, by decide, by decide⟩, by decide, rfl, ?_⟩,
    trivial, ⟨fun _ _ => rfl, by decide, by decide⟩, by decide, ?_⟩
  · rintro ⟨⟨it, hit⟩, -, -⟩
    cases hit
  · rintro ⟨⟨it, hit⟩, hiterates, -⟩
    have hraised : TextError raising (rdr.readsThrough raising) .xqException := by
      refine ⟨.inr rfl, fun rdr' hmem path heq => ?_⟩
      obtain rfl : rdr' = rdr := hmem
      change (sampleCorpus sampleDocs).readEntry [] path = _ at heq
      rw [sampleCorpus] at heq
      dsimp only at heq
      split at heq <;> cases heq
    refine hiterates it hit 2 2 rdr .xqException ?_ hraised
    obtain rfl := Except.ok.inj hit
    rfl

end AlpinoCorpus
