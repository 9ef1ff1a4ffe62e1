/-
The C interface. An exception becomes a null pointer, a zero or a message,
and a string ends at its first NUL byte. A client of an iterator cannot tell
an entry that throws from the end: each round of its loop comes to the next
such entry, and a further round goes on behind it (`client_rounds`).
-/
import AlpinoCorpus.Conversion
import AlpinoCorpus.Transforming
import AlpinoCorpus.Lib.Clients

namespace AlpinoCorpus

open Iteration

/-- Caught by `catch (std::exception const &)`: all but a bare string and
what XQilla throws. -/
def Exn.isStdException : Exn → Bool
  | charPtr _ | xqException => false
  | _ => true

def Stop.isStdException : Stop → Bool
  | raised e => e.isStdException
  | _ => false

namespace CApi

/-- A `char const *`: the bytes up to the terminating NUL. -/
structure CString where
  bytes : Str
  terminated : 0 ∉ bytes
  deriving DecidableEq

theorem zero_notMem_cStr (s : Str) : 0 ∉ FilterIter.cStr s := fun h => by simpa using List.mem_takeWhile_imp h

/-- `strdup(s.c_str())`; also what a client sees of a copy of all of `s`. -/
def strdup (s : Str) : CString := ⟨FilterIter.cStr s, zero_notMem_cStr s⟩

theorem strdup_bytes (c : CString) : strdup c.bytes = c := by
  have h : FilterIter.cStr c.bytes = c.bytes := List.takeWhile_eq_self_iff.mpr fun b hb => by
    have hne : b ≠ 0 := fun h => c.terminated (h ▸ hb)
    simpa using hne
  simp only [strdup, h]

/-- A `try` block whose handler returns `NULL`. -/
def orNull {α : Type} : Outcome α → Outcome (Option α)
  | .ok a => .ok (some a)
  | .error e => if e.isStdException then .ok none else .error e

/-! ## Readers -/

/-- `alpinocorpus_entry_t`. -/
structure CEntry where
  name : CString
  contents : CString
  deriving DecidableEq

def CEntry.ofEntry (e : Entry) : CEntry := ⟨strdup e.name, strdup e.contents⟩

/-- `marker_query_t`. -/
structure MarkerQueryT where
  query : CString
  attr : CString
  value : CString

/-- The loop over `queries`. -/
def markerQueries (queries : List MarkerQueryT) : List MarkerQuery :=
  queries.map fun q => ⟨q.query.bytes, q.attr.bytes, q.value.bytes⟩

section Readers

variable (env : Env) (reader : Reader)

/-- `alpinocorpus_open`. -/
def openReader (path : CString) : Outcome (Option Reader) :=
  orNull ((fun l => .corpus (.leaf l)) <$> factoryOpen env path.bytes)

/-- `alpinocorpus_read` and `alpinocorpus_read_mark_queries`, which copy all
the bytes. -/
def readMarkQueries (entry : CString) (queries : List MarkerQueryT) : Outcome (Option CString) :=
  orNull (strdup <$> reader.read env entry.bytes (markerQueries queries))

def read (entry : CString) : Outcome (Option CString) := readMarkQueries env reader entry []

/-! ## Iterators -/

/-- `alpinocorpus_entry_iter` has no `try`. -/
def entryIter (sortOrder : SortOrder) : Outcome Iter := reader.getEntries env sortOrder

def queryIter (query : CString) (sortOrder : SortOrder) : Outcome (Option Iter) :=
  orNull (reader.query env .xpath query.bytes sortOrder)

/-- `readData` is `Stylesheet::readData`; it is called before the `try`. -/
def queryStylesheetIter (readData : Str → Outcome Str) (query stylesheet : CString) (queries : List MarkerQueryT)
    (sortOrder : SortOrder) : Outcome (Option Iter) := do
  let parsedStylesheet ← readData stylesheet.bytes
  orNull (reader.queryWithStylesheet env .xpath query.bytes parsedStylesheet (markerQueries queries) sortOrder)

end Readers

section Iterators

variable {σ : Type} (m : Machine σ Stop Entry)

def iterHasNext (iter : σ) : Outcome Bool × σ :=
  match m.hasNext iter with
  | (r, iter) => ((fun b => b.getD false) <$> orNull r, iter)

def iterNext (iter : σ) : Outcome (Option CEntry) × σ :=
  match m.next iter with
  | (r, iter) => ((fun e => e.map CEntry.ofEntry) <$> orNull r, iter)

/-- An iterator as a C client sees it. -/
def machine : Machine σ Stop (Option CEntry) := ⟨iterHasNext m, iterNext m⟩

end Iterators

/-! ## What a client is given -/

/-- An entry as a client is given it; a null pointer where `next` throws. -/
def shown (x : Outcome Entry) : Option CEntry := x.toOption.map CEntry.ofEntry

theorem hides {σ : Type} (m : Machine σ Stop Entry) : Hides (fun e => e.isStdException = true) shown m (machine m) where
  more h := by simp only [machine, iterHasNext, h, orNull, Functor.map, Except.map, Option.getD_some]
  ends hP h := by
    simp only [machine, iterHasNext, h, orNull, if_pos hP]
    rfl
  entry {s s' x} hP h := by
    cases x with
    | ok e =>
      simp only [machine, iterNext, h, orNull]
      rfl
    | error e =>
      simp only [machine, iterNext, h, orNull, if_pos (hP e rfl)]
      rfl

variable {env : Env} {sortOrder : SortOrder} {rdr : Reader} {names : List Str} {doc : Str → Except Exn Str}

/-- The rounds of a query, whatever is shown of a value. -/
theorem rounds_groups (shown : Outcome Entry → Option CEntry) (queries names : List Str) :
    rounds shown (names.flatMap fun n => groupItems n (answerTo env doc queries n)) =
      (names.splitOnP (unreadable doc)).map fun run => run.flatMap fun n =>
        (valuesIn env doc queries n).map fun v => shown (.ok ⟨n, v⟩) := by
  induction names with
  | nil => rfl
  | cons n names ih =>
    rw [List.flatMap_cons, List.splitOnP_cons_eq_if_modifyHead]
    cases hdoc : doc n with
    | error e =>
      have hbad : unreadable doc n = true := by simp [unreadable, hdoc, Except.isOk, Except.toBool]
      rw [if_pos hbad, answerTo, hdoc]
      exact congrArg _ ih
    | ok d =>
      have hgood : ¬unreadable doc n = true := by simp [unreadable, hdoc, Except.isOk, Except.toBool]
      have hvalues : groupItems n (answerTo env doc queries n) =
          ((valuesIn env doc queries n).map fun v => (⟨n, v⟩ : Entry)).map fun x => .gives (.ok x) := by
        rw [valuesIn, answerTo, hdoc, List.map_map]
        rfl
      rw [if_neg hgood, hvalues, rounds_append_given, ih]
      cases names.splitOnP (unreadable doc) with
      | nil => rfl
      | cons run runs => simp

/-- What is in store for a query: values, and what reading an entry throws. -/
theorem mem_groups {queries : List Str} {item : Item Stop Entry}
    (h : item ∈ names.flatMap fun n => groupItems n (answerTo env doc queries n)) :
    ∃ n ∈ names, (∃ v, item = given n v) ∨ ∃ e, doc n = .error e ∧ item = .raises (.raised e) := by
  obtain ⟨n, hn, h⟩ := List.mem_flatMap.mp h
  refine ⟨n, hn, ?_⟩
  rw [answerTo] at h
  cases hdoc : doc n with
  | error e =>
    rw [hdoc] at h
    exact .inr ⟨e, rfl, List.mem_singleton.mp h⟩
  | ok d =>
    rw [hdoc] at h
    obtain ⟨v, -, rfl⟩ := List.mem_map.mp h
    exact .inl ⟨v, rfl⟩

theorem failsOnly_groups {queries : List Str} (hstd : ∀ n ∈ names, ∀ e, doc n = .error e → e.isStdException = true) :
    FailsOnly (fun e => e.isStdException = true) (names.flatMap fun n => groupItems n (answerTo env doc queries n)) := by
  constructor
  · intro e he
    obtain ⟨n, hn, ⟨v, hv⟩ | ⟨x, hdoc, hx⟩⟩ := mem_groups he
    · cases hv
    · cases hx
      exact hstd n hn x hdoc
  · intro e he
    obtain ⟨n, hn, ⟨v, hv⟩ | ⟨x, hdoc, hx⟩⟩ := mem_groups he
    · cases hv
    · cases hx

/-- The same, where each value is worked on. -/
theorem failsOnly_transform {text : Str → Outcome Str} {items : List (Item Stop Entry)}
    (h : FailsOnly (fun e => e.isStdException = true) items)
    (htext : ∀ x, .gives (.ok x) ∈ items → ∀ e, text x.name = .error e → e.isStdException = true) :
    FailsOnly (fun e => e.isStdException = true) (items.map (transformItem text)) := by
  constructor
  · intro e he
    obtain ⟨x | e', hx, hitem⟩ := List.mem_map.mp he
    · cases hitem
    · cases hitem
      exact h.1 _ hx
  · intro e he
    obtain ⟨(e' | x) | e', hx, hitem⟩ := List.mem_map.mp he
    · cases hitem
      exact h.2 _ hx
    · cases ht : text x.name with
      | ok contents => simp [transformItem, Item.bind, Except.bind, ht, Except.map] at hitem
      | error e₂ =>
        simp only [transformItem, Item.bind, Except.bind, ht, Except.map, Item.gives.injEq, Except.error.injEq] at hitem
        subst hitem
        exact htext x hx _ ht
    · cases hitem

/-- The rounds over a corpus: in each the entries up to the next that cannot
be read, with what the client is given for each value on them. -/
def corpusRounds (env : Env) (doc : Str → Except Exn Str) (queries names : List Str) (entry : Str → Str → Option CEntry) :
    List (List (Option CEntry)) :=
  (names.splitOnP (unreadable doc)).map fun run => run.flatMap fun n => (valuesIn env doc queries n).map (entry n)

/-- **The rounds of a C client.** The first round comes to the first entry
that cannot be read, as to an end; each further round goes on behind the entry
at which the last one ended, and nothing is lost but these entries. With a
stylesheet, an entry that cannot be transformed is a null pointer, and ends
no round. -/
theorem client_rounds (h : Keeps env sortOrder rdr names doc) {query : CString} (hq : Accepted env (splitString query.bytes))
    (heval : Evaluates env doc (splitString query.bytes) names) (hstd : ∀ n ∈ names, ∀ e, doc n = .error e → e.isStdException = true) :
    (∃ it, queryIter env rdr query sortOrder = .ok (some it) ∧ ∃ n, ∀ fuel ≥ n, ∀ k,
      Rounds (machine ((Iter.body env fuel).machine rdr)) (it, ())
        (corpusRounds env doc (splitString query.bytes) names (fun n v => some ⟨strdup n, strdup v⟩) ++
          List.replicate k [])) ∧
    ∀ (readData : Str → Outcome Str) (stylesheet : CString) (sheet : Str) (queries : List MarkerQueryT),
      readData stylesheet.bytes = .ok sheet →
      (∀ n ∈ names, ∀ e, StylesheetIter.text env rdr sheet (markerQueries queries) n = .error e → e.isStdException = true) →
      ∃ it, queryStylesheetIter env rdr readData query stylesheet queries sortOrder = .ok (some it) ∧
        ∃ n, ∀ fuel ≥ n, ∀ k, Rounds (machine ((Iter.body env fuel).machine rdr)) (it, ())
          (corpusRounds env doc (splitString query.bytes) names
            (fun n _ => (StylesheetIter.text env rdr sheet (markerQueries queries) n).toOption.map fun text =>
              ⟨strdup n, strdup text⟩) ++ List.replicate k []) := by
  obtain ⟨it, hit, hf⟩ := h.answers query.bytes hq heval
  have hfails := @failsOnly_groups env names doc (splitString query.bytes) hstd
  constructor
  · obtain ⟨n, hn⟩ := hf
    refine ⟨it, by rw [queryIter, hit, orNull], n, fun fuel hfuel k => ?_⟩
    have hr := (hides ((Iter.body env fuel).machine rdr)).rounds (hn fuel hfuel rdr) hfails k
    rw [rounds_groups] at hr
    exact hr
  · intro readData stylesheet sheet queries hsheet htext
    have hquery : queryStylesheetIter env rdr readData query stylesheet queries sortOrder =
        .ok (some (.stylesheet ⟨it, markerQueries queries, sheet⟩)) := by
      simp only [queryStylesheetIter, hsheet, Reader.queryWithStylesheet, hit, bind, Except.bind, orNull]
    obtain ⟨n, hn⟩ := Iter.follow_stylesheet hf sheet (markerQueries queries) rdr
    refine ⟨_, hquery, n, fun fuel hfuel k => ?_⟩
    have hfailsText : FailsOnly (fun e : Stop => e.isStdException = true) _ := failsOnly_transform hfails fun x hx e he => by
      obtain ⟨n, hnames, ⟨v, hv⟩ | ⟨e', -, hx⟩⟩ := mem_groups hx
      · cases hv
        exact htext n hnames e he
      · cases hx
    have hr := (hides ((Iter.body env fuel).machine rdr)).rounds (hn fuel hfuel) hfailsText k
    rw [show transformItem (StylesheetIter.text env rdr sheet (markerQueries queries)) = Item.bind _ from rfl, rounds_bind,
      rounds_groups] at hr
    have hentry : ∀ n v, shown ((.ok ⟨n, v⟩ : Outcome Entry).bind fun e =>
        (StylesheetIter.text env rdr sheet (markerQueries queries) e.name).map fun contents => { e with contents }) =
          (StylesheetIter.text env rdr sheet (markerQueries queries) n).toOption.map fun text => ⟨strdup n, strdup text⟩ := by
      intro n v
      simp only [shown, Except.bind]
      cases StylesheetIter.text env rdr sheet (markerQueries queries) n <;> rfl
    simp only [hentry] at hr
    exact hr

/-- A string constant. -/
def cstr (s : String) : CString := strdup (str s)

/-- Of three corpora: the first round comes to the entry of the first corpus
that cannot be read, and the second to the end. -/
theorem sample_client_rounds :
    (∃ it, queryIter brokenEnv (.multi brokenBanks) (cstr "//a") .naturalOrder = .ok (some it) ∧ ∃ n, ∀ fuel ≥ n,
      Rounds (machine ((Iter.body brokenEnv fuel).machine (.multi brokenBanks))) (it, ())
        [[some ⟨cstr "a/1.xml", cstr "x"⟩],
          [some ⟨cstr "a/2.xml", cstr "y"⟩, some ⟨cstr "a/2.xml", cstr "z"⟩, some ⟨cstr "c/1.xml", cstr "x"⟩,
            some ⟨cstr "c/2.xml", cstr "y"⟩, some ⟨cstr "c/2.xml", cstr "z"⟩], [], []]) ∧
      ∃ it, queryStylesheetIter brokenEnv (.multi brokenBanks) .ok (cstr "//b") (cstr "<xsl:stylesheet/>") [] .naturalOrder =
        .ok (some it) ∧ ∃ n, ∀ fuel ≥ n,
        Rounds (machine ((Iter.body brokenEnv fuel).machine (.multi brokenBanks))) (it, ())
          [[], [some ⟨cstr "a/2.xml", cstr "<s><a>y</a><b/><a>z</a></s>"⟩,
            some ⟨cstr "c/2.xml", cstr "<s><a>y</a><b/><a>z</a></s>"⟩], []] := by
  have hstd : ∀ n ∈ brokenBanks.paths brokenNames, ∀ e, brokenDoc (n.drop 2) = .error e → e.isStdException = true := by
    intro n _ e he
    rw [brokenDoc] at he
    split at he
    · cases he
      rfl
    · cases he
  have htext : ∀ n ∈ brokenBanks.paths brokenNames, ∀ e, StylesheetIter.text brokenEnv (.multi brokenBanks)
      (cstr "<xsl:stylesheet/>").bytes (markerQueries []) n = .error e → e.isStdException = true := by
    intro n hn e he
    have hread := allStock_broken.read n hn
    simp only [StylesheetIter.text, markerQueries, List.map_nil, hread] at he
    cases hdoc : brokenDoc (n.drop 2) with
    | error x =>
      rw [hdoc] at he
      cases he
      exact hstd n hn x hdoc
    | ok d =>
      rw [hdoc] at he
      cases he
  have ha : Accepted brokenEnv (splitString (cstr "//a").bytes) := by decide
  have hb : Accepted brokenEnv (splitString (cstr "//b").bytes) := by decide
  obtain ⟨⟨it, hit, n, hn⟩, -⟩ := client_rounds allStock_broken.keeps ha (fun _ _ _ _ _ _ => Bool.and_false _) hstd
  obtain ⟨-, hsheet⟩ := client_rounds allStock_broken.keeps hb (fun _ _ _ _ _ _ => Bool.and_false _) hstd
  obtain ⟨it', hit', n', hn'⟩ := hsheet .ok (cstr "<xsl:stylesheet/>") _ [] rfl htext
  exact ⟨⟨it, hit, n, fun fuel hfuel => hn fuel hfuel 2⟩, it', hit', n', fun fuel hfuel => hn' fuel hfuel 1⟩

/-! ## Writers -/

section Writers

variable {Z : Zlib}

/-- What is returned for an exception: a copy of its message. -/
def orMessage : Outcome Unit → Outcome (Option CString)
  | .ok () => .ok none
  | .error (.raised e) => if e.isStdException then .ok (some (strdup e.what)) else raise e
  | .error e => .error e

/-- `alpinocorpus_write`, to a compact corpus. -/
def write (writer : CompactCorpusWriterPrivate Z) (name content : CString) :
    Outcome (Option CString) × CompactCorpusWriterPrivate Z :=
  match writer.writeEntry name.bytes content.bytes with
  | (r, writer) => (orMessage r, writer)

/-- A call for each entry, and what the calls return. -/
def writeAll (writer : CompactCorpusWriterPrivate Z) : List (CString × CString) →
    List (Outcome (Option CString)) × CompactCorpusWriterPrivate Z
  | [] => ([], writer)
  | e :: es =>
    match write writer e.1 e.2 with
    | (r, writer) => (r :: (writeAll writer es).1, (writeAll writer es).2)

def bytesOf (entries : List (CString × CString)) : List (Str × Str) := entries.map fun e => (e.1.bytes, e.2.bytes)

theorem writeAll_ok {entries : List (CString × CString)} {w w' : CompactCorpusWriterPrivate Z}
    (h : w.writeEntries (bytesOf entries) = (.ok (), w')) : writeAll w entries = (entries.map fun _ => .ok none, w') := by
  induction entries generalizing w with
  | nil =>
    obtain rfl : w = w' := (Prod.mk.inj h).2
    rfl
  | cons e es ih =>
    rw [bytesOf, List.map_cons, CompactCorpusWriterPrivate.writeEntries] at h
    rcases hw : w.writeEntry e.1.bytes e.2.bytes with ⟨x | _, w₁⟩
    · rw [hw] at h
      cases h
    · rw [hw] at h
      simp only [writeAll, write, hw, ih h, orMessage, List.map_cons]

end Writers

/-! ## What is written is read back -/

theorem bytes_injective : Function.Injective CString.bytes := fun a b h => by
  cases a
  cases b
  cases h
  rfl

theorem lookup_bytes (entries : List (CString × CString)) (name : CString) :
    (bytesOf entries).lookup name.bytes = (entries.lookup name).map CString.bytes := by
  induction entries with
  | nil => rfl
  | cons e es ih =>
    by_cases h : name = e.1
    · subst h
      rw [bytesOf, List.map_cons, List.lookup_cons_self, List.lookup_cons_self]
      rfl
    · have hne : name.bytes ≠ e.1.bytes := fun hb => h (bytes_injective hb)
      have h₁ : (name == e.1) = false := by simpa using h
      have h₂ : (name.bytes == e.1.bytes) = false := by simpa using hne
      rw [bytesOf, List.map_cons, List.lookup_cons, List.lookup_cons, h₁, h₂]
      exact ih

open CompactCorpusWriterPrivate CompactCorpusReaderPrivate Create in
/-- **Write, close, open, read.** Each call that writes returns no message.
A client that opens the files, by either of their names, is given the names
in the order in which they were written, and under each name what was written
there, whatever it read before; under any other name it is given a null
pointer. -/
theorem written_read_back {Z : Zlib} {entries : List (CString × CString)} (ha : Archivable Z (bytesOf entries)) :
    ∃ w, writeAll (openFiles Z) entries = (entries.map fun _ => .ok none, w) ∧
      ∀ env secs node container base, OnDisk node base (w.close secs) → ∀ fuel, 0 < fuel →
        ∀ (path : CString) ext, path.bytes = base ++ ext → ext = dataExt ∨ ext = indexExt →
        ∃ reader, openReader (Env.onDisk env node container fuel Z) path = .ok (some reader) ∧
          (∀ sortOrder, ∃ it, entryIter (Env.onDisk env node container fuel Z) reader sortOrder = .ok it ∧
            ∃ n, ∀ fuel' ≥ n, ∀ k,
              Rounds (machine ((Iter.body (Env.onDisk env node container fuel Z) fuel').machine reader)) (it, ())
                ((entries.map fun e => some ⟨e.1, strdup []⟩) :: List.replicate k [])) ∧
          ∀ (before : List Str) name, read (Env.onDisk env node container fuel Z) (before.foldl Reader.after reader) name =
            .ok (entries.lookup name) := by
  obtain ⟨w, hw, hopens⟩ := ha.opens 0
  refine ⟨w, writeAll_ok hw, fun env secs node container base hdisk fuel hfuel path ext hpath hext => ?_⟩
  obtain ⟨w', hw', hopens⟩ := ha.opens secs
  obtain rfl : w = w' := (Prod.mk.inj (hw.symm.trans hw')).2
  obtain ⟨r, hopen, har, hl⟩ := hopens fuel hfuel
  refine ⟨.corpus (.leaf (.compact (r.corpus Z))), ?_, fun sortOrder => ?_, fun before name => ?_⟩
  · rw [openReader, hpath, factoryOpen_archive hdisk.data hdisk.index hopen hext]
    rfl
  · obtain ⟨n, hn⟩ := @Iter.deliver_index (Env.onDisk env node container fuel Z) r.indices
    refine ⟨_, rfl, n, fun fuel' hfuel' k => ?_⟩
    have hfollows := (hn fuel' hfuel' (.corpus (.leaf (.compact (r.corpus Z))))).follows
    have hr := (hides _).rounds hfollows ⟨by simp, by simp⟩ k
    have hrounds : rounds shown ((r.indices.map fun item => (⟨item.name, []⟩ : Entry)).map fun x => .gives (.ok x)) =
        [entries.map fun e => some ⟨e.1, strdup []⟩] := by
      have hone := @rounds_append_given Stop Entry (Option CEntry) shown (r.indices.map fun item => (⟨item.name, []⟩ : Entry)) []
      rw [List.append_nil] at hone
      rw [hone, har.items, bytesOf, List.map_map, List.map_map]
      simp [rounds, shown, Except.toOption, CEntry.ofEntry, strdup_bytes]
    rw [hrounds] at hr
    exact hr
  · have hgives := (@Reader.gives_compact_iff (Env.onDisk env node container fuel Z) name.bytes
      (written (bytesOf entries) name.bytes) (r.corpus Z)).mpr fun before => har.read ha hl before name.bytes
    rw [read, readMarkQueries, show markerQueries [] = [] from rfl, hgives before, written, lookup_bytes]
    cases entries.lookup name with
    | none => rfl
    | some content => exact congrArg (fun c => (.ok (some c) : Outcome (Option CString))) (strdup_bytes content)

/-- A disk with the two files of a corpus. -/
def twoFiles (base : Str) (files : Str × Str) (p : Str) : Node :=
  if p = base ++ dataExt then .regular files.1
  else if p = base ++ indexExt then .regular files.2
  else .missing

theorem sample_written_read_back :
    ∃ w, writeAll (CompactCorpusWriterPrivate.openFiles (Stored.zlib 0))
        [(cstr "1.xml", cstr "<a/>"), (cstr "2.xml", cstr "<b/>")] = ([.ok none, .ok none], w) ∧
      ∀ secs, ∃ reader,
        openReader (Env.onDisk (sampleEnv [] []) (twoFiles (str "c") (w.close secs)) (fun _ => .error []) 1 (Stored.zlib 0))
          (cstr "c.index") = .ok (some reader) ∧
        read (Env.onDisk (sampleEnv [] []) (twoFiles (str "c") (w.close secs)) (fun _ => .error []) 1 (Stored.zlib 0)) reader
          (cstr "2.xml") = .ok (some (cstr "<b/>")) ∧
        read (Env.onDisk (sampleEnv [] []) (twoFiles (str "c") (w.close secs)) (fun _ => .error []) 1 (Stored.zlib 0)) reader
          (cstr "3.xml") = .ok none := by
  obtain ⟨w, hw, h⟩ := @written_read_back (Stored.zlib 0) [(cstr "1.xml", cstr "<a/>"), (cstr "2.xml", cstr "<b/>")]
    (.of_perm (.refl _) (by decide) (by decide) (by decide) (by decide))
  refine ⟨w, hw, fun secs => ?_⟩
  obtain ⟨reader, hopen, -, hread⟩ := h (sampleEnv [] []) secs (twoFiles (str "c") (w.close secs)) (fun _ => .error []) (str "c")
    ⟨if_pos rfl, by rw [twoFiles, if_neg (by decide), if_pos rfl]⟩ 1 Nat.one_pos (cstr "c.index") _ rfl (.inr rfl)
  exact ⟨reader, hopen, hread [] _, hread [] _⟩

end CApi

end AlpinoCorpus
