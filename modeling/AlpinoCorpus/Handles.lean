/-
Iterator handles and the store behind their pointers: `d_impl` of an
`EntryIterator`, `d_currentIter` of a `MultiIter`, the positions that
directory iterators and query results share with their copies, and the
readers that filters read through.
-/
import AlpinoCorpus.Iter
import AlpinoCorpus.Lib.Store

namespace AlpinoCorpus

open Iteration
open Store (Loc)

structure EntryIterator where
  d_impl : Option Loc
  deriving DecidableEq

/-- The bodies, with handles in them. A copy of a `recursive_directory_iterator`
or of an `XmlResults` has the position in common with it, so these are
pointers as well. -/
inductive IterImpl
  | index (it : IndexIter)
  | dir (d_directory : Str) (iter : Loc)
  | sortedDir (it : SortedDirIter)
  | db (r : Loc)
  | filter (it : FilterIter EntryIterator Loc)
  | stylesheet (it : StylesheetIter EntryIterator)
  | multi (it : MultiIter Loc)

inductive Cell
  | impl (it : IterImpl)
  /-- What `d_currentIter` points to. -/
  | iter (it : EntryIterator)
  | paths (paths : List Str)
  | results (r : List Entry)

/-- The cells, and the readers that have been opened. -/
structure World where
  cells : List Cell
  readers : List Reader

namespace World

def alloc (c : Cell) (w : World) : Loc × World :=
  let (l, cells) := Store.alloc c w.cells
  (l, { w with cells })

def set (w : World) (l : Loc) (c : Cell) : World := { w with cells := w.cells.set l c }

def openReader (rdr : Reader) (w : World) : Loc × World :=
  let (l, readers) := Store.alloc rdr w.readers
  (l, { w with readers })

end World

/-! ## Reading -/

/-- A read through a reader that others may read through as well. -/
instance : Reads Loc World where
  read env l entry queries w :=
    match w.readers[l]? with
    | some rdr => (rdr.read env entry queries, { w with readers := w.readers.set l (rdr.after entry) })
    | none => (.error .undefined, w)

/-- `EntryIterator(new ..)`. -/
def EntryIterator.new (it : IterImpl) (w : World) : EntryIterator × World :=
  let (l, w) := w.alloc (.impl it)
  (⟨some l⟩, w)

/-! ## What a reader hands out -/

/-- A reader hands out iterators that are in no corpus yet. -/
def MultiIter.build (it : MultiIter Iter) : MultiIter Loc :=
  ⟨it.d_sortOrder, it.d_totalIters, it.d_iters, it.d_currentReader, none, it.d_currentName, it.d_hasQuery, it.d_query,
    it.d_dialect, it.d_interrupted⟩

mutual

/-- An iterator made of new objects, over the reader `self`. -/
def Iter.build (self : Loc) : Iter → World → EntryIterator × World
  | .empty, w => (⟨none⟩, w)
  | .index it, w => EntryIterator.new (.index it) w
  | .dir it, w =>
    let (iter, w) := w.alloc (.paths it.paths)
    EntryIterator.new (.dir it.d_directory iter) w
  | .sortedDir it, w => EntryIterator.new (.sortedDir it) w
  | .db it, w =>
    let (r, w) := w.alloc (.results it.r)
    EntryIterator.new (.db r) w
  | .filter it, w =>
    let (it, w) := FilterIter.build self it w
    EntryIterator.new (.filter it) w
  | .stylesheet it, w =>
    let (it, w) := StylesheetIter.build self it w
    EntryIterator.new (.stylesheet it) w
  | .multi it, w => EntryIterator.new (.multi it.build) w

def FilterIter.build (self : Loc) : FilterIter Iter → World → FilterIter EntryIterator Loc × World
  | ⟨_, itr, d_file, d_query, d_buffer, d_interrupted⟩, w =>
    let (d_itr, w) := Iter.build self itr w
    (⟨self, d_itr, d_file, d_query, d_buffer, d_interrupted⟩, w)

def StylesheetIter.build (self : Loc) : StylesheetIter Iter → World → StylesheetIter EntryIterator × World
  | ⟨iter, d_markerQueries, d_stylesheet⟩, w =>
    let (d_iter, w) := Iter.build self iter w
    (⟨d_iter, d_markerQueries, d_stylesheet⟩, w)

end

/-! ## The calls -/

namespace IterImpl

/-- A call on a body that wraps nothing. -/
def plain {σ α : Type} (wrap : σ → IterImpl) (call : Outcome α × σ) (w : World) : Outcome α × (IterImpl × World) :=
  (call.1, (wrap call.2, w))

def wrapped {σ α : Type} (wrap : σ → IterImpl) (call : Outcome α × (σ × World)) : Outcome α × (IterImpl × World) :=
  (call.1, (wrap call.2.1, call.2.2))

/-- A call on a directory iterator, whose place is in the store. -/
def atPaths {α : Type} (call : DirIter → Outcome α × DirIter) (d_directory : Str) (iter : Loc) (w : World) :
    Outcome α × (IterImpl × World) :=
  match w.cells[iter]? with
  | some (.paths paths) =>
    let c := call ⟨d_directory, paths⟩
    (c.1, (.dir d_directory iter, w.set iter (.paths c.2.paths)))
  | _ => (.error .undefined, (.dir d_directory iter, w))

/-- A call on query results. -/
def atResults {α : Type} (call : DbIter → Outcome α × DbIter) (r : Loc) (w : World) :
    Outcome α × (IterImpl × World) :=
  match w.cells[r]? with
  | some (.results es) =>
    let c := call ⟨es⟩
    (c.1, (.db r, w.set r (.results c.2.r)))
  | _ => (.error .undefined, (.db r, w))

end IterImpl

/-- What `openTip` asks of the reader it opened, and `new EntryIterator(..)`. -/
def EntryIterator.start (env : Env) (reader : Corpus) (it : MultiIter Loc) (w : World) : Outcome Loc × World :=
  match if it.d_hasQuery then reader.query env it.d_dialect it.d_query it.d_sortOrder else reader.getEntries env it.d_sortOrder with
  | .error e => (.error e, w)
  | .ok iter =>
    let (self, w) := w.openReader (.corpus reader)
    let (h, w) := iter.build self w
    let (c, w) := w.alloc (.iter h)
    (.ok c, w)

/-- The calls through a pointer to an `EntryIterator`. -/
def EntryIterator.pointed (inner : Body World EntryIterator Loc) : Body World Loc Loc where
  hasNext := fun (c, w) =>
    match w.cells[c]? with
    | some (.iter h) =>
      let (r, (_, w)) := inner.hasNext (h, w)
      (r, (c, w))
    | _ => (.error .undefined, (c, w))
  next := fun rdr (c, w) =>
    match w.cells[c]? with
    | some (.iter h) =>
      let (r, (_, w)) := inner.next rdr (h, w)
      (r, (c, w))
    | _ => (.error .undefined, (c, w))

/-- The virtual functions. -/
def IterImpl.body (env : Env) (inner : Body World EntryIterator Loc) (fuel : Nat) : Body World IterImpl Loc where
  hasNext := fun
    | (index it, w) => plain index it.hasNext w
    | (dir d_directory iter, w) => atPaths DirIter.hasNext d_directory iter w
    | (sortedDir it, w) => plain sortedDir it.hasNext w
    | (db r, w) => atResults DbIter.hasNext r w
    | (filter it, w) => wrapped filter (FilterIter.hasNext env inner fuel (it, w))
    | (stylesheet it, w) => wrapped stylesheet (StylesheetIter.hasNext inner (it, w))
    | (multi it, w) =>
      wrapped multi (MultiIter.hasNext (EntryIterator.pointed inner) (MultiIter.openTip env (EntryIterator.start env)) (it, w))
  next := fun rdr => fun
    | (index it, w) => plain index it.next w
    | (dir d_directory iter, w) => atPaths DirIter.next d_directory iter w
    | (sortedDir it, w) => plain sortedDir it.next w
    | (db r, w) => atResults DbIter.next r w
    | (filter it, w) => wrapped filter (FilterIter.next (it, w))
    | (stylesheet it, w) => wrapped stylesheet (StylesheetIter.next env inner rdr (it, w))
    | (multi it, w) => wrapped multi (MultiIter.next (EntryIterator.pointed inner) rdr (it, w))

namespace EntryIterator

/-- A call through `d_impl`; `none` is the answer of a handle that has no
body. -/
def through {α : Type} (empty : Outcome α) (call : IterImpl × World → Outcome α × (IterImpl × World))
    (s : EntryIterator × World) : Outcome α × (EntryIterator × World) :=
  match s.1.d_impl with
  | none => (empty, s)
  | some l =>
    match s.2.cells[l]? with
    | some (.impl it) =>
      let (r, (it, w)) := call (it, s.2)
      (r, (s.1, w.set l (.impl it)))
    | _ => (.error .undefined, s)

/-- The calls on an `EntryIterator`. The fuel is that of `Iter.body`. -/
def body (env : Env) : Nat → Body World EntryIterator Loc
  | 0 => ⟨fun s => (.error .unfinished, s), fun _ s => (.error .unfinished, s)⟩
  | fuel + 1 =>
    let impl := IterImpl.body env (body env fuel) fuel
    { hasNext := through (.ok false) impl.hasNext
      next := fun rdr => through (.error .undefined) (impl.next rdr) }

end EntryIterator

/-! ## Copies -/

/-- The virtual function `copy`; `copyHandle` is the copy constructor of
`EntryIterator`. -/
def IterImpl.copy (copyHandle : EntryIterator → World → EntryIterator × World) :
    IterImpl → World → IterImpl × World
  | filter it, w =>
    let (d_itr, w) := copyHandle it.d_itr w
    (filter { it with d_itr }, w)
  | stylesheet it, w =>
    -- the constructor takes the iterator by value
    let (iter, w) := copyHandle it.d_iter w
    let (d_iter, w) := copyHandle iter w
    (stylesheet { it with d_iter }, w)
  -- the pointers of the others are copied with them
  | it, w => (it, w)

namespace EntryIterator

/-- The copy constructor, `EntryIterator::copy` on a handle that has no body
yet. The fuel bounds the depth of wrapped bodies. -/
def copyLoop : Nat → EntryIterator → World → EntryIterator × World
  | 0, _, w => (⟨none⟩, w)
  | fuel + 1, h, w =>
    match h.d_impl with
    | none => (⟨none⟩, w)
    | some l =>
      match w.cells[l]? with
      | some (.impl it) =>
        let (it, w) := it.copy (copyLoop fuel) w
        EntryIterator.new it w
      | _ => (⟨none⟩, w)

/-- Wrapped bodies are allocated before what wraps them. -/
def copy (other : EntryIterator) (w : World) : EntryIterator × World := copyLoop (w.cells.length + 1) other w

/-- `operator=`, between two handles: an empty one on the right is passed
over. -/
def assign (h other : EntryIterator) (w : World) : EntryIterator × World :=
  if other.d_impl = none then (h, w) else other.copy w

end EntryIterator

/-! ## Clients -/

/-- What a client asks of a reader. -/
inductive Request
  | entries (sortOrder : SortOrder)
  | query (d : QueryDialect) (q : Str) (sortOrder : SortOrder)
  | entriesWithStylesheet (stylesheet : Str) (markerQueries : List MarkerQuery) (sortOrder : SortOrder)
  | queryWithStylesheet (d : QueryDialect) (q stylesheet : Str) (markerQueries : List MarkerQuery) (sortOrder : SortOrder)

def Reader.ask (env : Env) (rdr : Reader) : Request → Outcome Iter
  | .entries sortOrder => rdr.getEntries env sortOrder
  | .query d q sortOrder => rdr.query env d q sortOrder
  | .entriesWithStylesheet stylesheet queries sortOrder => rdr.entriesWithStylesheet env stylesheet queries sortOrder
  | .queryWithStylesheet d q stylesheet queries sortOrder => rdr.queryWithStylesheet env d q stylesheet queries sortOrder

/-- A program with handles, by number. -/
structure Client where
  handles : Nat → EntryIterator
  store : World

/-- No handle has a body, and no reader is open. -/
def Client.init : Client := ⟨fun _ => ⟨none⟩, ⟨[], []⟩⟩

/-- `next` is given a reader, by its place or by itself. -/
inductive Method (ρ : Type)
  | hasNext
  | next (rdr : ρ)

inductive Op
  | openReader (rdr : Reader)
  /-- A handle for the iterator that the reader at `l` hands out. -/
  | create (x : Nat) (l : Loc) (request : Request)
  /-- `EntryIterator x(y)`. -/
  | copyConstruct (x y : Nat)
  /-- `x = y`. -/
  | assign (x y : Nat)
  | call (x : Nat) (m : Method Loc)

def answer {α : Type} (ok : α → Answer Stop Entry) : Outcome α → Answer Stop Entry
  | .ok x => ok x
  | .error e => .failed e

/-- A call on a body, and what the client sees of it. -/
def Body.call {W ι ρ : Type} (body : Body W ι ρ) (m : Method ρ) (s : ι × W) : Answer Stop Entry × (ι × W) :=
  match m with
  | .hasNext => (answer .more (body.hasNext s).1, (body.hasNext s).2)
  | .next rdr => (answer .entry (body.next rdr s).1, (body.next rdr s).2)

namespace Client

def setHandle (c : Client) (x : Nat) (h : EntryIterator × World) : Client := ⟨Function.update c.handles x h.1, h.2⟩

def call (env : Env) (fuel : Nat) (c : Client) (x : Nat) (m : Method Loc) : Answer Stop Entry × Client :=
  let (a, h) := (EntryIterator.body env fuel).call m (c.handles x, c.store)
  (a, c.setHandle x h)

/-- A request that is refused leaves the handle as it is. -/
def create (env : Env) (c : Client) (x : Nat) (l : Loc) (request : Request) : Client :=
  match c.store.readers[l]? with
  | none => c
  | some rdr =>
    match rdr.ask env request with
    | .ok it => c.setHandle x (it.build l c.store)
    | .error _ => c

def perform (env : Env) (fuel : Nat) (c : Client) : Op → Client
  | .openReader rdr => { c with store := (c.store.openReader rdr).2 }
  | .create x l request => c.create env x l request
  | .copyConstruct x y => c.setHandle x ((c.handles y).copy c.store)
  | .assign x y => if x = y then c else c.setHandle x ((c.handles x).assign (c.handles y) c.store)
  | .call x m => (c.call env fuel x m).2

/-- Calls on any of the handles, in this order, and their answers. -/
def answers (env : Env) (fuel : Nat) : List (Nat × Method Loc) → Client → List (Nat × Answer Stop Entry)
  | [], _ => []
  | (x, m) :: ms, c => (x, (c.call env fuel x m).1) :: answers env fuel ms (c.call env fuel x m).2

/-- What the calls on one handle answer, among others. -/
def answersAt (env : Env) (fuel : Nat) (x : Nat) (ms : List (Nat × Method Loc)) (c : Client) : List (Answer Stop Entry) :=
  ((c.answers env fuel ms).filter (·.1 = x)).map Prod.snd

/-- What calls on one handle answer when there are no others. -/
def alone (env : Env) (fuel : Nat) (x : Nat) (ms : List (Method Loc)) (c : Client) : List (Answer Stop Entry) :=
  (c.answers env fuel (ms.map (Prod.mk x))).map Prod.snd

end Client

/-- The calls on one handle. -/
def methodsAt {ρ : Type} (x : Nat) (ms : List (Nat × Method ρ)) : List (Method ρ) := (ms.filter (·.1 = x)).map Prod.snd

end AlpinoCorpus
