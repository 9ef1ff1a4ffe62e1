/-
The corpus readers: what the factory opens (a directory, a compact corpus,
a DB XML container, or a directory searched for corpora) and the reader of
many corpora under one roof.

What lies outside the library is a parameter, `Env`: the file system, the
constructors of the single readers, DB XML, and the two XPath engines.
Opening is a function of the path here. Reading is one of the name, but for
an open compact corpus: its reads go through one stream, and what they give
may depend on those before (see `CompactHistory`). Where it does not, the
corpus is `Steady`.
-/
import AlpinoCorpus.CompactReader
import AlpinoCorpus.NameCompare
import AlpinoCorpus.Split

namespace AlpinoCorpus

open OrdMap

inductive SortOrder
  | naturalOrder
  | numericalOrder
  deriving DecidableEq

inductive QueryDialect
  | xpath
  | xquery
  deriving DecidableEq

structure MarkerQuery where
  query : Str
  attr : Str
  value : Str
  deriving DecidableEq

/-! ## Paths -/

/-- What follows the last slash. -/
def filename (p : Str) : Str := (p.reverse.takeWhile (· ≠ 47)).reverse

/-- `path::extension()`: the file name from its last dot. -/
def extension (p : Str) : Str :=
  let name := filename p
  if name = str "." ∨ name = str ".." ∨ 46 ∉ name then []
  else 46 :: (name.reverse.takeWhile (· ≠ 46)).reverse

/-- `path::replace_extension("")`. -/
def dropExtension (p : Str) : Str := p.take (p.length - (extension p).length)

/-- `path(p).parent_path()` of a path that ends in a slash. -/
def dropSlashes (p : Str) : Str := (p.reverse.dropWhile (· = 47)).reverse

/-- `d_directory` of a directory name, which may be written with a slash at
its end. The last character of an empty name is not there to look at. -/
def directoryPath (directory : Str) : Outcome Str :=
  match directory.getLast? with
  | none => .error .undefined
  | some c => .ok (if c = 47 then dropSlashes directory else directory)

/-- `path::operator/=`. -/
def pathAppend (p q : Str) : Str :=
  if q = [] then p
  else if p = [] ∨ p.getLast? = some 47 ∨ q.head? = some 47 then p ++ q
  else p ++ 47 :: q

/-- `boost::algorithm::ends_with`. -/
def endsWith (s suffix : Str) : Bool := suffix.isSuffixOf s

/-! ## The readers of one corpus -/

/-- An opened compact corpus: what reading an entry gives, after reads of
these names. -/
structure CompactCorpus where
  indices : List IndexItem
  readEntry : List Str → Str → Outcome Str

/-- The corpus as a read leaves it. -/
def CompactCorpus.after (corpus : CompactCorpus) (entry : Str) : CompactCorpus :=
  { corpus with readEntry := fun before => corpus.readEntry (entry :: before) }

/-- No read depends on those before it. -/
def CompactCorpus.Steady (corpus : CompactCorpus) : Prop :=
  ∀ before entry, corpus.readEntry before entry = corpus.readEntry [] entry

/-- An opened DB XML container: what `getAllDocuments`, `getDocument`,
`query` and `prepare` give. -/
structure DbCorpus where
  documents : List Entry
  getDocument : Str → Outcome Str
  query : Str → Outcome (List Entry)
  prepare : Str → Option Str

/-- The readers `CorpusReaderFactory::open` tries. -/
inductive Leaf
  | directory (d_directory : Str)
  | compact (corpus : CompactCorpus)
  | db (corpus : DbCorpus)

/-! ## Many corpora -/

/-- `std::map<std::string, std::pair<std::string, bool>, NameCompare>`: the
file of each name, and whether it is searched for corpora. -/
structure Corpora where
  entries : List (Str × (Str × Bool))
  sorted : Sorted nameCompare entries

namespace Corpora

def empty : Corpora := ⟨[], .nil⟩

/-- `operator[]`, assigned to. -/
def assign (cs : Corpora) (name : Str) (corpus : Str × Bool) : Corpora :=
  ⟨insert nameCompare name corpus cs.entries, cs.sorted.insert strictWeak_nameCompare name corpus⟩

end Corpora

/-- The list keeps every registration, the map one for each name. -/
structure MultiCorpusReaderPrivate where
  corpora : List (Str × Bool)
  corporaMap : Corpora

/-- The reader of a directory searched for corpora: it registers what it
finds with a reader of many corpora, each to be opened as it is. -/
structure RecursiveCorpusReaderPrivate where
  multiReader : MultiCorpusReaderPrivate
  plain : ∀ c ∈ multiReader.corpora, c.2 = false
  plainMap : ∀ c ∈ multiReader.corporaMap.entries, c.2.2 = false

/-- What the factory opens. -/
inductive Corpus
  | leaf (reader : Leaf)
  | recursive (reader : RecursiveCorpusReaderPrivate)

/-- Every reader of the library. -/
inductive Reader
  | corpus (reader : Corpus)
  | multi (reader : MultiCorpusReaderPrivate)

/-- What the readers use. -/
structure Env where
  /-- `bf::exists` and `bf::is_directory`, which throw where the status of a
  path cannot be determined. -/
  pathExists : Str → Outcome Bool
  isDirectory : Str → Outcome Bool
  /-- What `recursive_directory_iterator` finds, relative to the directory. -/
  below : Str → List Str
  readFile : Str → Outcome Str
  /-- The constructors of `CompactCorpusReader` and `DbCorpusReader`. -/
  openCompact : Str → Outcome CompactCorpus
  openDb : Str → Outcome DbCorpus
  /-- `std::sort` by `NameCompare`. -/
  sort : List Str → List Str
  sort_perm : ∀ names, (sort names).Perm names
  sort_sorted : ∀ names, (sort names).Pairwise fun a b => nameCompare b a = false
  /-- XQilla: the expressions it parses, and what one gives on a document
  (`none` where the document does not parse), behind which an error of the
  evaluation may come. -/
  parse : Str → Bool
  evaluate : Str → Str → Option (List Str)
  raises : Str → Str → Bool
  /-- `xmlXPathCtxtCompile`, with or without variables. -/
  compile : Bool → Str → Bool
  /-- `XmlManager::prepare` of the reader of many corpora: what it throws. -/
  prepare : Str → Option Str
  /-- The marking of the nodes that marker queries match. -/
  mark : List MarkerQuery → Str → Outcome Str
  /-- `Stylesheet::transform`, by stylesheet. -/
  transform : Str → Str → Outcome Str
  /-- `typeid(*this).name()`. -/
  typeName : Reader → Str

/-- Every compact corpus that opens is steady. -/
def Env.Steady (env : Env) : Prop := ∀ path corpus, env.openCompact path = .ok corpus → corpus.Steady

/-- The paths of a `recursive_directory_iterator`. -/
def Env.listing (env : Env) (directory : Str) : List Str := (env.below directory).map fun p => directory ++ 47 :: p

/-- `bf::exists(path) && bf::is_directory(path)`. -/
def Env.isPresentDirectory (env : Env) (path : Str) : Outcome Bool := do
  if ← env.pathExists path then env.isDirectory path else .ok false

namespace MultiCorpusReaderPrivate

def empty : MultiCorpusReaderPrivate := ⟨[], .empty⟩

def register (m : MultiCorpusReaderPrivate) (name filename : Str) (recursive : Bool) : MultiCorpusReaderPrivate :=
  ⟨m.corpora ++ [(filename, recursive)], m.corporaMap.assign name (filename, recursive)⟩

/-- `push_back`. -/
def pushBack (env : Env) (m : MultiCorpusReaderPrivate) (name filename : Str) (recursive : Bool) :
    Outcome MultiCorpusReaderPrivate := do
  if ← env.pathExists filename then .ok (m.register name filename recursive)
  else raise (.openError filename [])

end MultiCorpusReaderPrivate

namespace RecursiveCorpusReaderPrivate

def empty : RecursiveCorpusReaderPrivate := ⟨.empty, by simp [MultiCorpusReaderPrivate.empty],
  by simp [MultiCorpusReaderPrivate.empty, Corpora.empty]⟩

def register (r : RecursiveCorpusReaderPrivate) (name filename : Str) : RecursiveCorpusReaderPrivate where
  multiReader := r.multiReader.register name filename false
  plain c hc := by
    rcases List.mem_append.mp hc with hc | hc
    · exact r.plain c hc
    · rw [List.mem_singleton.mp hc]
  plainMap c hc := by
    rcases mem_insert hc with hc | ⟨hv, -⟩
    · exact r.plainMap c hc
    · rw [hv]

/-- The loop of the constructor over the files found. -/
def registerFiles (env : Env) (d_directory : Str) (dactOnly : Bool) :
    List Str → RecursiveCorpusReaderPrivate → Outcome RecursiveCorpusReaderPrivate
  | [], r => .ok r
  | path :: paths, r =>
    if extension path ≠ str ".dact" ∧ (dactOnly ∨ extension path ≠ str ".index") then
      registerFiles env d_directory dactOnly paths r
    else do
      let name := (dropExtension path).drop (d_directory.length + 1)
      if ← env.pathExists path then registerFiles env d_directory dactOnly paths (r.register name path)
      else raise (.openError path [])

/-- The constructor. -/
def construct (env : Env) (directory : Str) (dactOnly : Bool) : Outcome RecursiveCorpusReaderPrivate := do
  let d_directory ← directoryPath directory
  if !(← env.isPresentDirectory d_directory) then
    raise (.openError directory (str "non-existent or not a directory"))
  else registerFiles env d_directory dactOnly (env.listing d_directory) .empty

end RecursiveCorpusReaderPrivate

/-! ## The factory -/

/-- The constructor of `DirectoryCorpusReader`. -/
def openDirectory (env : Env) (directory : Str) : Outcome Leaf := do
  let d_directory ← directoryPath directory
  if !(← env.isPresentDirectory d_directory) then
    raise (.openError directory (str "non-existent or not a directory"))
  else .ok (.directory d_directory)

/-- `try { return new ..; } catch (OpenError const &) {}`, and what follows. -/
def orElse {α} (first : Outcome α) (rest : Outcome α) : Outcome α :=
  match first with
  | .error (.raised e) => if e.isOpenError then rest else first
  | _ => first

/-- `CorpusReaderFactory::open`. -/
def factoryOpen (env : Env) (corpusPath : Str) : Outcome Leaf :=
  orElse (openDirectory env corpusPath)
    (orElse (.compact <$> env.openCompact corpusPath)
      (orElse (.db <$> env.openDb corpusPath)
        (raise (.openError corpusPath []))))

/-- `CorpusReaderFactory::openRecursive`. -/
def factoryOpenRecursive (env : Env) (path : Str) (dactOnly : Bool) : Outcome RecursiveCorpusReaderPrivate :=
  RecursiveCorpusReaderPrivate.construct env path dactOnly

/-- The corpus of a registration: `openRecursive`, with its default for
`dactOnly`, or `open`. -/
def openCorpus (env : Env) (corpus : Str × Bool) : Outcome Corpus :=
  if corpus.2 then .recursive <$> factoryOpenRecursive env corpus.1 true
  else .leaf <$> factoryOpen env corpus.1

/-! ## Reading -/

namespace MultiCorpusReaderPrivate

/-- The loop of `corpusFromPath`. -/
def corpusLoop (path : Str) : List (Str × (Str × Bool)) → Bool → Str → Str × Bool → Bool × (Str × Bool)
  | [], found, _, corpus => (found, corpus)
  | (name, c) :: cs, found, longest, corpus =>
    if name.isPrefixOf path then
      if name.length > longest.length then corpusLoop path cs true name c
      else corpusLoop path cs true longest corpus
    else corpusLoop path cs found longest corpus

def corpusFromPath (m : MultiCorpusReaderPrivate) (path : Str) : Outcome (Str × Bool) :=
  match corpusLoop path m.corporaMap.entries false [] ([], false) with
  | (true, corpus) => .ok corpus
  | (false, _) => raise (.runtimeError (str "Unknown corpus: " ++ path))

/-- The loop of `entryFromPath`. -/
def entryLoop (path : Str) : List (Str × (Str × Bool)) → Bool → Str → Bool × Str
  | [], found, longest => (found, longest)
  | (name, _) :: cs, found, longest =>
    if name.isPrefixOf path then
      if name.length > longest.length then entryLoop path cs true name
      else entryLoop path cs true longest
    else entryLoop path cs found longest

/-- The separator is skipped by its place; `substr` refuses a place past the
end. -/
def entryFromPath (m : MultiCorpusReaderPrivate) (path : Str) : Outcome Str :=
  match entryLoop path m.corporaMap.entries false [] with
  | (true, longest) =>
    if longest.length + 1 > path.length then raise .outOfRange
    else .ok (path.drop (longest.length + 1))
  | (false, _) => raise (.runtimeError (str "Could not find entry: " ++ path))

/-- `readEntry` and `readEntryMarkQueries`, which differ in how the opened
reader is `read`. -/
def readEntry {ρ : Type} (opener : Str × Bool → Outcome ρ) (read : ρ → Str → Outcome Str)
    (m : MultiCorpusReaderPrivate) (path : Str) : Outcome Str := do
  let fnRec ← m.corpusFromPath path
  let reader ← opener fnRec
  let entry ← m.entryFromPath path
  read reader entry

end MultiCorpusReaderPrivate

/-- `CorpusReader::read`: the stages before the last of a marker query only
filter. -/
def CorpusReader.read (readEntry : Str → Outcome Str) (readEntryMarkQueries : Str → List MarkerQuery → Outcome Str)
    (entry : Str) (queries : List MarkerQuery) : Outcome Str :=
  if queries.isEmpty then readEntry entry
  else readEntryMarkQueries entry
    (queries.map fun q => { q with query := (splitString q.query).getLast (splitString_ne_nil _) })

namespace Leaf

/-- The first read of a reader. -/
def readEntry (env : Env) (l : Leaf) (entry : Str) : Outcome Str :=
  match l with
  | directory d_directory => env.readFile (pathAppend d_directory entry)
  | compact corpus => corpus.readEntry [] entry
  | db corpus => corpus.getDocument entry

/-- `CorpusReader::readEntryMarkQueries`. -/
def readEntryMarkQueries (env : Env) (l : Leaf) (entry : Str) (queries : List MarkerQuery) : Outcome Str := do
  let content ← l.readEntry env entry
  env.mark queries content

end Leaf

namespace RecursiveCorpusReaderPrivate

/-- Its corpora are opened as they are (`plainMap`). -/
def readEntry (env : Env) (r : RecursiveCorpusReaderPrivate) (path : Str) : Outcome Str :=
  r.multiReader.readEntry (fun fnRec => factoryOpen env fnRec.1) (Leaf.readEntry env) path

def readEntryMarkQueries (env : Env) (r : RecursiveCorpusReaderPrivate) (path : Str) (queries : List MarkerQuery) :
    Outcome Str :=
  r.multiReader.readEntry (fun fnRec => factoryOpen env fnRec.1)
    (fun l entry => CorpusReader.read (l.readEntry env) (l.readEntryMarkQueries env) entry queries) path

end RecursiveCorpusReaderPrivate

namespace Corpus

def readEntry (env : Env) : Corpus → Str → Outcome Str
  | leaf l => l.readEntry env
  | recursive r => r.readEntry env

def readEntryMarkQueries (env : Env) : Corpus → Str → List MarkerQuery → Outcome Str
  | leaf l => l.readEntryMarkQueries env
  | recursive r => r.readEntryMarkQueries env

end Corpus

namespace Reader

def readEntry (env : Env) : Reader → Str → Outcome Str
  | corpus c => c.readEntry env
  | multi m => m.readEntry (openCorpus env) (Corpus.readEntry env)

def readEntryMarkQueries (env : Env) : Reader → Str → List MarkerQuery → Outcome Str
  | corpus c, path, queries => c.readEntryMarkQueries env path queries
  | multi m, path, queries =>
    m.readEntry (openCorpus env)
      (fun c entry => CorpusReader.read (c.readEntry env) (c.readEntryMarkQueries env) entry queries) path

def read (env : Env) (rdr : Reader) (entry : Str) (queries : List MarkerQuery) : Outcome Str :=
  CorpusReader.read (rdr.readEntry env) (rdr.readEntryMarkQueries env) entry queries

/-- The reader as a read leaves it: an open compact corpus is the one that
reads go through, the others open what they read. -/
def after : Reader → Str → Reader
  | corpus (.leaf (.compact c)), entry => .corpus (.leaf (.compact (c.after entry)))
  | rdr, _ => rdr

/-- No read through the reader depends on those before it. -/
def Steady : Reader → Prop
  | corpus (.leaf (.compact c)) => c.Steady
  | _ => True

/-- Reading the entry gives `content`, whatever was read through the reader
before. -/
def Gives (env : Env) (rdr : Reader) (entry : Str) (content : Outcome Str) : Prop :=
  ∀ before : List Str, (before.foldl after rdr).read env entry [] = content

end Reader

end AlpinoCorpus
