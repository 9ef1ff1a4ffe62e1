/-
The iterators: their bodies, each over the iterator inside it, and what the
readers hand out as `entries` and as answers to a query.

A body that wraps another is written for any kind `ι` of inner iterator, any
store `W` its calls go through, and any kind `ρ` of reader. `Iter` closes the
circle with iterators and readers that are values; there the store holds
nothing, and every read is as the first one.
-/
import AlpinoCorpus.Readers

namespace AlpinoCorpus

open Iteration

/-- The virtual functions of a body: `next` is given the reader it is called
with. -/
structure Body (W ι : Type) (ρ : Type := Reader) where
  hasNext : ι × W → Outcome Bool × (ι × W)
  next : ρ → ι × W → Outcome Entry × (ι × W)

/-- What a client that calls `next` with the one reader sees. -/
def Body.machine {W ι ρ : Type} (body : Body W ι ρ) (rdr : ρ) : Machine (ι × W) Stop Entry :=
  ⟨body.hasNext, body.next rdr⟩

/-- `CorpusReader::read`, as the bodies call it. -/
class Reads (ρ W : Type) where
  read : Env → ρ → Str → List MarkerQuery → W → Outcome Str × W

/-- A reader that is a value has no history. -/
instance {W : Type} : Reads Reader W := ⟨fun env rdr entry queries w => (rdr.read env entry queries, w)⟩

/-! ## Directories and containers -/

/-- `paths` is what the directory iterator has not passed yet. -/
structure DirIter where
  d_directory : Str
  paths : List Str

namespace DirIter

/-- `isValid`, at a path. -/
def isValid (path : Str) : Bool := extension path = str ".xml"

def hasNext (it : DirIter) : Outcome Bool × DirIter :=
  let it := { it with paths := it.paths.dropWhile fun p => !isValid p }
  (.ok (!it.paths.isEmpty), it)

/-- The name of an entry: its path without the directory. -/
def entryName (d_directory path : Str) : Str :=
  match path.drop d_directory.length with
  | 47 :: name => name
  | name => name

def next (it : DirIter) : Outcome Entry × DirIter :=
  match it.paths with
  | path :: paths => (.ok ⟨entryName it.d_directory path, []⟩, { it with paths })
  | [] => (.error .undefined, it)

def machine : Machine DirIter Stop Entry := ⟨hasNext, next⟩

end DirIter

/-- A vector and a place in it. -/
structure SortedDirIter where
  d_entries : List Str
  d_iter : Nat

namespace SortedDirIter

def create (env : Env) (d_directory : Str) (paths : List Str) : SortedDirIter :=
  ⟨env.sort (paths.map (DirIter.entryName d_directory)), 0⟩

/-- `isValid`, at an entry. -/
def isValid (entry : Str) : Bool := endsWith entry (str ".xml")

def hasNext (it : SortedDirIter) : Outcome Bool × SortedDirIter :=
  let it := { it with d_iter := it.d_iter + ((it.d_entries.drop it.d_iter).takeWhile fun e => !isValid e).length }
  (.ok (it.d_iter ≠ it.d_entries.length), it)

def next (it : SortedDirIter) : Outcome Entry × SortedDirIter :=
  match it.d_entries[it.d_iter]? with
  | some entry => (.ok ⟨entry, []⟩, { it with d_iter := it.d_iter + 1 })
  | none => (.error .undefined, it)

def machine : Machine SortedDirIter Stop Entry := ⟨hasNext, next⟩

end SortedDirIter

/-- `DbIter` and `QueryIter`, over the results not taken yet. -/
structure DbIter where
  r : List Entry

namespace DbIter

def hasNext (it : DbIter) : Outcome Bool × DbIter := (.ok (!it.r.isEmpty), it)

def next (it : DbIter) : Outcome Entry × DbIter :=
  match it.r with
  | e :: r => (.ok e, ⟨r⟩)
  | [] => (.error .undefined, it)

def machine : Machine DbIter Stop Entry := ⟨hasNext, next⟩

end DbIter

/-! ## Queries on documents -/

structure FilterIter (ι : Type) (ρ : Type := Reader) where
  d_corpus : ρ
  d_itr : ι
  d_file : Str
  d_query : Str
  d_buffer : List Str
  d_interrupted : Bool

namespace FilterIter

variable {W ι ρ : Type}

/-- What `c_str()` shows of a string. -/
def cStr (s : Str) : Str := s.takeWhile (· ≠ 0)

/-- The constructor. -/
def create (env : Env) (corpus : ρ) (itr : ι) (query : Str) : Outcome (FilterIter ι ρ) :=
  if env.parse (cStr query) then
    .ok { d_corpus := corpus, d_itr := itr, d_file := [], d_query := cStr query, d_buffer := [],
          d_interrupted := false }
  else raise (.error (str "CorpusReader::FilterIter::FilterIter: could not evaluate XPath expression."))

/-- A document that does not parse leaves the buffer as it is. The values are
pushed one by one, so those before an error of the evaluation stay. -/
def parseFile [Reads ρ W] (env : Env) (it : FilterIter ι ρ) (file : Str) (w : W) : Outcome Unit × (FilterIter ι ρ × W) :=
  match Reads.read env it.d_corpus file [] w with
  | (.error e, w) => (.error e, (it, w))
  | (.ok xml, w) =>
    match env.evaluate it.d_query xml with
    | none => (.ok (), (it, w))
    | some values =>
      (if env.raises it.d_query xml then raise .xqException else .ok (),
        ({ it with d_buffer := it.d_buffer ++ values }, w))

/-- The loop of `hasNext`, for at most `fuel` rounds. -/
def hasNextLoop [Reads ρ W] (env : Env) (inner : Body W ι ρ) :
    Nat → FilterIter ι ρ × W → Outcome Bool × (FilterIter ι ρ × W)
  | 0, s => (.error .unfinished, s)
  | fuel + 1, (it, w) =>
    if !it.d_buffer.isEmpty then (.ok true, (it, w))
    else match inner.hasNext (it.d_itr, w) with
      | (.error e, (itr, w)) => (.error e, ({ it with d_itr := itr }, w))
      | (.ok false, (itr, w)) => (.ok false, ({ it with d_itr := itr }, w))
      | (.ok true, (itr, w)) =>
        match inner.next it.d_corpus (itr, w) with
        | (.error e, (itr, w)) => (.error e, ({ it with d_itr := itr }, w))
        | (.ok e, (itr, w)) =>
          -- the same name again: this is not the first stage
          if e.name = it.d_file then hasNextLoop env inner fuel ({ it with d_itr := itr }, w)
          else if it.d_interrupted then (raise .iterationInterrupted, ({ it with d_itr := itr }, w))
          else match parseFile env { it with d_itr := itr, d_file := e.name } e.name w with
            | (.error e', s) => (.error e', s)
            | (.ok (), s) => hasNextLoop env inner fuel s

def hasNext [Reads ρ W] (env : Env) (inner : Body W ι ρ) (fuel : Nat) (s : FilterIter ι ρ × W) :
    Outcome Bool × (FilterIter ι ρ × W) :=
  hasNextLoop env inner fuel ({ s.1 with d_interrupted := false }, s.2)

def next (s : FilterIter ι ρ × W) : Outcome Entry × (FilterIter ι ρ × W) :=
  match s.1.d_buffer with
  | [] => (raise (.error (str "Calling next() on an iterator that is exhausted.")), s)
  | value :: d_buffer => (.ok ⟨s.1.d_file, value⟩, ({ s.1 with d_buffer }, s.2))

def body [Reads ρ W] (env : Env) (inner : Body W ι ρ) (fuel : Nat) : Body W (FilterIter ι ρ) ρ :=
  ⟨hasNext env inner fuel, fun _ => next⟩

end FilterIter

/-! ## Stylesheets -/

structure StylesheetIter (ι : Type) where
  d_iter : ι
  d_markerQueries : List MarkerQuery
  d_stylesheet : Str

namespace StylesheetIter

variable {W ι ρ : Type}

def hasNext (inner : Body W ι ρ) (s : StylesheetIter ι × W) : Outcome Bool × (StylesheetIter ι × W) :=
  match inner.hasNext (s.1.d_iter, s.2) with
  | (r, (d_iter, w)) => (r, ({ s.1 with d_iter }, w))

def next [Reads ρ W] (env : Env) (inner : Body W ι ρ) (rdr : ρ) (s : StylesheetIter ι × W) :
    Outcome Entry × (StylesheetIter ι × W) :=
  match inner.next rdr (s.1.d_iter, s.2) with
  | (.error e, (d_iter, w)) => (.error e, ({ s.1 with d_iter }, w))
  | (.ok e, (d_iter, w)) =>
    match Reads.read env rdr e.name s.1.d_markerQueries w with
    | (.error stop, w) => (.error stop, ({ s.1 with d_iter }, w))
    | (.ok xml, w) =>
      (do let contents ← env.transform s.1.d_stylesheet xml
          .ok { e with contents },
        ({ s.1 with d_iter }, w))

def body [Reads ρ W] (env : Env) (inner : Body W ι ρ) : Body W (StylesheetIter ι) ρ := ⟨hasNext inner, next env inner⟩

end StylesheetIter

/-! ## Many corpora -/

structure ReaderIter where
  name : Str
  filename : Str
  recursive : Bool
  deriving DecidableEq

/-- `d_currentIter` points to an iterator of kind `κ`. -/
structure MultiIter (κ : Type) where
  d_sortOrder : SortOrder
  d_totalIters : Nat
  d_iters : List ReaderIter
  d_currentReader : Option Corpus
  d_currentIter : Option κ
  d_currentName : Str
  d_hasQuery : Bool
  d_query : Str
  d_dialect : QueryDialect
  d_interrupted : Bool

namespace MultiIter

variable {W κ ρ : Type}

def readerIters (corpora : Corpora) : List ReaderIter := corpora.entries.map fun e => ⟨e.1, e.2.1, e.2.2⟩

/-- The constructor for entries. -/
def ofEntries (corpora : Corpora) (sortOrder : SortOrder) : MultiIter κ where
  d_sortOrder := sortOrder
  d_totalIters := (readerIters corpora).length
  d_iters := readerIters corpora
  d_currentReader := none
  d_currentIter := none
  d_currentName := []
  d_hasQuery := false
  d_query := []
  d_dialect := .xpath
  d_interrupted := false

/-- The constructor for a query. -/
def ofQuery (corpora : Corpora) (query : Str) (dialect : QueryDialect) (sortOrder : SortOrder) : MultiIter κ :=
  { ofEntries corpora sortOrder with d_hasQuery := true, d_query := query, d_dialect := dialect }

/-- `openTip`: the reader and the iterator to go on with, or none. `start`
is what is asked of the reader: its entries, or the query. -/
def openTip (env : Env) (start : Corpus → MultiIter κ → W → Outcome κ × W) (it : MultiIter κ) (tip : ReaderIter) (w : W) :
    Outcome (Option (Corpus × κ)) × W :=
  match openCorpus env (tip.filename, tip.recursive) with
  | .error (.raised e) => (if e.isOpenError then .ok none else raise e, w)
  | .error s => (.error s, w)
  | .ok reader =>
    match start reader it w with
    | (.error (.raised e), w) => (if e.isRuntimeError then .ok none else raise e, w)
    | (.error s, w) => (.error s, w)
    | (.ok iter, w) => (.ok (some (reader, iter)), w)

/-- `d_currentIter && d_currentIter->hasNext()`. -/
def currentHasNext (inner : Body W κ ρ) (s : MultiIter κ × W) : Outcome Bool × (MultiIter κ × W) :=
  match s.1.d_currentIter with
  | none => (.ok false, s)
  | some iter =>
    match inner.hasNext (iter, s.2) with
    | (r, (iter, w)) => (r, ({ s.1 with d_currentIter := some iter }, w))

/-- The loop of `nextIterator`, over the corpora in `d_iters`. A corpus is
taken off once `openTip` has returned. -/
def nextIteratorLoop (inner : Body W κ ρ) (openTip : MultiIter κ → ReaderIter → W → Outcome (Option (Corpus × κ)) × W) :
    List ReaderIter → MultiIter κ × W → Outcome Unit × (MultiIter κ × W)
  | [], s => (.ok (), s)
  | tip :: tips, s =>
    if s.1.d_interrupted then (.ok (), s)
    else match currentHasNext inner s with
      | (.error e, s) => (.error e, s)
      | (.ok true, s) => (.ok (), s)
      | (.ok false, (it, w)) =>
        let it := { it with d_currentIter := none, d_currentReader := none }
        match openTip it tip w with
        | (.error e, w) => (.error e, (it, w))
        | (.ok none, w) => nextIteratorLoop inner openTip tips ({ it with d_iters := tips }, w)
        | (.ok (some (reader, iter)), w) =>
          nextIteratorLoop inner openTip tips
            ({ it with d_currentIter := some iter, d_currentReader := some reader, d_currentName := tip.name,
                       d_iters := tips }, w)

def hasNext (inner : Body W κ ρ) (openTip : MultiIter κ → ReaderIter → W → Outcome (Option (Corpus × κ)) × W)
    (s : MultiIter κ × W) : Outcome Bool × (MultiIter κ × W) :=
  if s.1.d_interrupted then (raise .iterationInterrupted, s)
  else match nextIteratorLoop inner openTip s.1.d_iters s with
    | (.error e, s) => (.error e, s)
    | (.ok (), s) => currentHasNext inner s

def next (inner : Body W κ ρ) (rdr : ρ) (s : MultiIter κ × W) : Outcome Entry × (MultiIter κ × W) :=
  if s.1.d_interrupted then (raise .iterationInterrupted, s)
  else match s.1.d_currentIter with
    | none => (.error .undefined, s)
    | some iter =>
      match inner.next rdr (iter, s.2) with
      | (.error e, (iter, w)) => (.error e, ({ s.1 with d_currentIter := some iter }, w))
      | (.ok e, (iter, w)) =>
        (.ok { e with name := s.1.d_currentName ++ 47 :: e.name }, ({ s.1 with d_currentIter := some iter }, w))

def body (inner : Body W κ ρ) (openTip : MultiIter κ → ReaderIter → W → Outcome (Option (Corpus × κ)) × W) :
    Body W (MultiIter κ) ρ :=
  ⟨hasNext inner openTip, next inner⟩

end MultiIter

/-! ## The iterators -/

/-- An `EntryIterator`, with the body it owns; `empty` has none. -/
inductive Iter
  | empty
  | index (it : IndexIter)
  | dir (it : DirIter)
  | sortedDir (it : SortedDirIter)
  | db (it : DbIter)
  | filter (it : FilterIter Iter)
  | stylesheet (it : StylesheetIter Iter)
  | multi (it : MultiIter Iter)

/-! ## What the readers hand out -/

namespace CorpusReader

/-- `CorpusReader::query`; the rest are virtual functions of `self`. -/
def query (env : Env) (self : Reader) (runXPath runXQuery : Str → SortOrder → Outcome Iter) (d : QueryDialect) (q : Str)
    (sortOrder : SortOrder) : Outcome Iter :=
  match d with
  | .xpath =>
    match splitString q with
    | [] => .error .undefined
    | q₁ :: queries => do
      let qIter ← runXPath q₁ sortOrder
      queries.foldlM (fun qIter q => Iter.filter <$> FilterIter.create env self qIter q) qIter
  | .xquery => runXQuery q sortOrder

/-- `CorpusReader::runXPath`. -/
def runXPath (env : Env) (self : Reader) (getEntries : SortOrder → Outcome Iter) (query : Str) (sortOrder : SortOrder) :
    Outcome Iter := do
  let itr ← getEntries sortOrder
  Iter.filter <$> FilterIter.create env self itr query

/-- `CorpusReader::runXQuery`. -/
def runXQuery (env : Env) (self : Reader) : Outcome Iter :=
  raise (.notImplemented (str "XQuery functionality" ++ str " not implemented in class " ++ env.typeName self))

end CorpusReader

namespace Leaf

def getEntries (env : Env) (l : Leaf) (sortOrder : SortOrder) : Outcome Iter :=
  match l with
  | directory d_directory =>
    match sortOrder with
    | .naturalOrder => .ok (.dir ⟨d_directory, env.listing d_directory⟩)
    | .numericalOrder => .ok (.sortedDir (.create env d_directory (env.listing d_directory)))
  | compact corpus => .ok (.index ⟨corpus.indices⟩)
  | db corpus => .ok (.db ⟨corpus.documents⟩)

def runXQuery (env : Env) (l : Leaf) (query : Str) (_sortOrder : SortOrder) : Outcome Iter :=
  match l with
  | db corpus => (fun r => .db ⟨r⟩) <$> corpus.query query
  | _ => CorpusReader.runXQuery env (.corpus (.leaf l))

def runXPath (env : Env) (l : Leaf) (query : Str) (sortOrder : SortOrder) : Outcome Iter :=
  match l with
  | db _ => l.runXQuery env (str "collection('corpus')" ++ query) sortOrder
  | _ => CorpusReader.runXPath env (.corpus (.leaf l)) (l.getEntries env) query sortOrder

end Leaf

namespace MultiCorpusReaderPrivate

def getEntries (m : MultiCorpusReaderPrivate) (sortOrder : SortOrder) : Outcome Iter :=
  .ok (.multi (.ofEntries m.corporaMap sortOrder))

def runXPath (m : MultiCorpusReaderPrivate) (query : Str) (sortOrder : SortOrder) : Outcome Iter :=
  .ok (.multi (.ofQuery m.corporaMap query .xpath sortOrder))

def runXQuery (m : MultiCorpusReaderPrivate) (query : Str) (sortOrder : SortOrder) : Outcome Iter :=
  .ok (.multi (.ofQuery m.corporaMap query .xquery sortOrder))

/-- `d_private->query`, which the public reader runs its queries through. -/
def query (env : Env) (m : MultiCorpusReaderPrivate) (d : QueryDialect) (q : Str) (sortOrder : SortOrder) : Outcome Iter :=
  CorpusReader.query env (.multi m) m.runXPath m.runXQuery d q sortOrder

end MultiCorpusReaderPrivate

namespace RecursiveCorpusReaderPrivate

def getEntries (r : RecursiveCorpusReaderPrivate) (sortOrder : SortOrder) : Outcome Iter :=
  r.multiReader.getEntries sortOrder

/-- The function of the base class: the one the class declares takes no sort
order, and does not override it. -/
def runXPath (env : Env) (r : RecursiveCorpusReaderPrivate) (query : Str) (sortOrder : SortOrder) : Outcome Iter :=
  CorpusReader.runXPath env (.corpus (.recursive r)) r.getEntries query sortOrder

def runXQuery (env : Env) (r : RecursiveCorpusReaderPrivate) (query : Str) (sortOrder : SortOrder) : Outcome Iter :=
  r.multiReader.query env .xquery query sortOrder

end RecursiveCorpusReaderPrivate

namespace Corpus

def getEntries (env : Env) : Corpus → SortOrder → Outcome Iter
  | leaf l => l.getEntries env
  | recursive r => r.getEntries

def runXPath (env : Env) : Corpus → Str → SortOrder → Outcome Iter
  | leaf l => l.runXPath env
  | recursive r => r.runXPath env

def runXQuery (env : Env) : Corpus → Str → SortOrder → Outcome Iter
  | leaf l => l.runXQuery env
  | recursive r => r.runXQuery env

def query (env : Env) (c : Corpus) (d : QueryDialect) (q : Str) (sortOrder : SortOrder) : Outcome Iter :=
  CorpusReader.query env (.corpus c) (c.runXPath env) (c.runXQuery env) d q sortOrder

end Corpus

namespace Reader

def getEntries (env : Env) : Reader → SortOrder → Outcome Iter
  | corpus c => c.getEntries env
  | multi m => m.getEntries

def runXPath (env : Env) : Reader → Str → SortOrder → Outcome Iter
  | corpus c => c.runXPath env
  | multi m => m.query env .xpath

def runXQuery (env : Env) : Reader → Str → SortOrder → Outcome Iter
  | corpus c => c.runXQuery env
  | multi m => m.query env .xquery

def query (env : Env) (rdr : Reader) (d : QueryDialect) (q : Str) (sortOrder : SortOrder) : Outcome Iter :=
  CorpusReader.query env rdr (rdr.runXPath env) (rdr.runXQuery env) d q sortOrder

def entriesWithStylesheet (env : Env) (rdr : Reader) (stylesheet : Str) (markerQueries : List MarkerQuery)
    (sortOrder : SortOrder) : Outcome Iter := do
  let iter ← rdr.getEntries env sortOrder
  .ok (.stylesheet ⟨iter, markerQueries, stylesheet⟩)

/-- `queryWithStylesheet`, by way of `runQueryWithStylesheet`. -/
def queryWithStylesheet (env : Env) (rdr : Reader) (d : QueryDialect) (q stylesheet : Str)
    (markerQueries : List MarkerQuery) (sortOrder : SortOrder) : Outcome Iter :=
  match d with
  | .xquery => CorpusReader.runXQuery env rdr
  | .xpath => do
    let iter ← rdr.query env .xpath q sortOrder
    .ok (.stylesheet ⟨iter, markerQueries, stylesheet⟩)

end Reader

/-! ## Running an iterator -/

namespace Iter

/-- What `openTip` asks of the reader it opened. -/
def start (env : Env) (reader : Corpus) (it : MultiIter Iter) (w : Unit) : Outcome Iter × Unit :=
  (if it.d_hasQuery then reader.query env it.d_dialect it.d_query it.d_sortOrder
    else reader.getEntries env it.d_sortOrder, w)

/-- A call on a body that wraps nothing. -/
def plain {σ α : Type} (wrap : σ → Iter) (call : Outcome α × σ) (w : Unit) : Outcome α × (Iter × Unit) :=
  (call.1, (wrap call.2, w))

def wrapped {σ α : Type} (wrap : σ → Iter) (call : Outcome α × (σ × Unit)) : Outcome α × (Iter × Unit) :=
  (call.1, (wrap call.2.1, call.2.2))

/-- The calls on an `EntryIterator`. The fuel bounds the depth of wrapped
bodies, and the rounds of each loop. -/
def body (env : Env) : Nat → Body Unit Iter
  | 0 => ⟨fun s => (.error .unfinished, s), fun _ s => (.error .unfinished, s)⟩
  | fuel + 1 =>
    let inner := body env fuel
    { hasNext := fun
        | (empty, w) => (.ok false, (empty, w))
        | (index it, w) => plain index it.hasNext w
        | (dir it, w) => plain dir it.hasNext w
        | (sortedDir it, w) => plain sortedDir it.hasNext w
        | (db it, w) => plain db it.hasNext w
        | (filter it, w) => wrapped filter (FilterIter.hasNext env inner fuel (it, w))
        | (stylesheet it, w) => wrapped stylesheet (StylesheetIter.hasNext inner (it, w))
        | (multi it, w) => wrapped multi (MultiIter.hasNext inner (MultiIter.openTip env (start env)) (it, w))
      next := fun rdr => fun
        -- `d_impl->next(reader)` through a null pointer
        | (empty, w) => (.error .undefined, (empty, w))
        | (index it, w) => plain index it.next w
        | (dir it, w) => plain dir it.next w
        | (sortedDir it, w) => plain sortedDir it.next w
        | (db it, w) => plain db it.next w
        | (filter it, w) => wrapped filter (FilterIter.next (it, w))
        | (stylesheet it, w) => wrapped stylesheet (StylesheetIter.next env inner rdr (it, w))
        | (multi it, w) => wrapped multi (MultiIter.next inner rdr (it, w)) }

/-- With enough fuel the iterator delivers the entries `xs`, whichever
reader `next` is called with. -/
def Deliver (env : Env) (it : Iter) (xs : List Entry) : Prop :=
  ∃ n, ∀ fuel ≥ n, ∀ rdr, Delivers ((body env fuel).machine rdr) (it, ()) xs false

end Iter

/-! ## The number of entries -/

namespace Leaf

/-- `getSize`; a directory counts what its iterator delivers. -/
def getSize (env : Env) : Leaf → Outcome Nat
  | directory d_directory =>
    let paths := env.listing d_directory
    List.length <$> (exhaust DirIter.machine .unfinished (paths.length + 1) ⟨d_directory, paths⟩).1
  | compact corpus => .ok corpus.indices.length
  | db corpus => .ok corpus.documents.length

end Leaf

namespace MultiCorpusReaderPrivate

/-- The loop of `getSize` over `d_corpora`. -/
def getSizeLoop {ρ : Type} (opener : Str × Bool → Outcome ρ) (getSize : ρ → Outcome Nat) :
    List (Str × Bool) → Nat → Outcome Nat
  | [], size => .ok size
  | corpus :: corpora, size =>
    match opener corpus with
    | .error (.raised e) => if e.isOpenError then getSizeLoop opener getSize corpora size else raise e
    | .error s => .error s
    | .ok reader => do
      let n ← getSize reader
      getSizeLoop opener getSize corpora (size + n)

end MultiCorpusReaderPrivate

def RecursiveCorpusReaderPrivate.getSize (env : Env) (r : RecursiveCorpusReaderPrivate) : Outcome Nat :=
  MultiCorpusReaderPrivate.getSizeLoop (fun corpus => factoryOpen env corpus.1) (Leaf.getSize env) r.multiReader.corpora 0

def Corpus.getSize (env : Env) : Corpus → Outcome Nat
  | leaf l => l.getSize env
  | recursive r => r.getSize env

def MultiCorpusReaderPrivate.getSize (env : Env) (m : MultiCorpusReaderPrivate) : Outcome Nat :=
  getSizeLoop (openCorpus env) (Corpus.getSize env) m.corpora 0

end AlpinoCorpus
