/-
`CorpusWriter::write(corpus, failsafe)`: a whole corpus copied into a
writer, either up to the first error or to the end with the errors
collected.

`failsafe` of the public function says to go on after an error. Both
writers hand it, unchanged, to a parameter that says to stop at the first.
-/
import AlpinoCorpus.CompactRoundTrip

namespace AlpinoCorpus

open Iteration

/-- A reader to copy from: an iterator over its entries, and reads that may
change it. -/
structure Source where
  Reader : Type
  read : Reader → Str → Outcome Str × Reader
  Iter : Type
  iterator : Machine Iter Stop Entry

structure BatchError where
  msg : Str
  n : Nat

namespace BatchError

def new : BatchError := ⟨str "Errors in batch conversion:\n", 0⟩

def append (err : BatchError) (e : Exn) : BatchError :=
  ⟨err.msg ++ (str "    " ++ e.what ++ str "\n"), err.n + 1⟩

def empty (err : BatchError) : Bool := err.n = 0

end BatchError

/-! ## The two loops -/

/-- The reader and the writer, as a copy goes on. -/
structure Copying (S : Source) (ω : Type) where
  reader : S.Reader
  writer : ω

namespace Copying

variable {S : Source} {ω : Type} (write : ω → Str → Str → Outcome Unit × ω)

/-- `write(e.name, corpus.read(e.name))`. -/
def copyEntry (c : Copying S ω) (name : Str) : Outcome Unit × Copying S ω :=
  match S.read c.reader name with
  | (.error e, reader) => (.error e, ⟨reader, c.writer⟩)
  | (.ok data, reader) =>
    match write c.writer name data with
    | (out, writer) => (out, ⟨reader, writer⟩)

def writeFailFirst : Nat → S.Iter → Copying S ω → Outcome Unit × Copying S ω
  | 0, _, c => (.error .unfinished, c)
  | fuel + 1, i, c =>
    match S.iterator.hasNext i with
    | (.error e, _) => (.error e, c)
    | (.ok false, _) => (.ok (), c)
    | (.ok true, i) =>
      match S.iterator.next i with
      | (.error e, _) => (.error e, c)
      | (.ok entry, i) =>
        match c.copyEntry write entry.name with
        | (.error e, c) => (.error e, c)
        | (.ok (), c) => writeFailFirst fuel i c

def writeFailSafeLoop : Nat → BatchError → S.Iter → Copying S ω → Outcome Unit × Copying S ω
  | 0, _, _, c => (.error .unfinished, c)
  | fuel + 1, err, i, c =>
    match S.iterator.hasNext i with
    | (.error e, _) => (.error e, c)
    | (.ok false, _) => (if err.empty then .ok () else raise (.batchError err.msg err.n), c)
    | (.ok true, i) =>
      match S.iterator.next i with
      | (.error e, _) => (.error e, c)
      | (.ok entry, i) =>
        match c.copyEntry write entry.name with
        | (.ok (), c) => writeFailSafeLoop fuel err i c
        | (.error (.raised e), c) =>
          if e.isError then writeFailSafeLoop fuel (err.append e) i c else (raise e, c)
        | (.error e, c) => (.error e, c)

def writeFailSafe (fuel : Nat) (i : S.Iter) (c : Copying S ω) : Outcome Unit × Copying S ω :=
  writeFailSafeLoop write fuel .new i c

/-- `writeEntry(corpus, fail_first)` of a writer, which may have something
to do before the loop. -/
def writeEntry (before : Outcome Unit) (fuel : Nat) (i : S.Iter) (c : Copying S ω) (failFirst : Bool) :
    Outcome Unit × Copying S ω :=
  match before with
  | .error e => (.error e, c)
  | .ok () => if failFirst then c.writeFailFirst write fuel i else c.writeFailSafe write fuel i

end Copying

/-! ## The two writers -/

structure XmlException where
  /-- The code is `UNIQUE_ERROR`. -/
  uniqueError : Bool
  what : Str

/-- What the writer uses of DB XML, and of `boost::filesystem` for names. A
call that throws leaves the container as it was. -/
structure DbXml where
  Container : Type
  createUpdateContext : Except XmlException Unit
  putDocument : Container → Str → Str → Except XmlException Container
  genericString : Str → Str

namespace DbCorpusWriterPrivate

variable (D : DbXml)

def mkUpdateContext : Outcome Unit :=
  match D.createUpdateContext with
  | .ok () => .ok ()
  | .error e => raise (.error (str "cannot create XML database update context: " ++ e.what))

def write (container : D.Container) (name content : Str) : Outcome Unit × D.Container :=
  match D.putDocument container (D.genericString name) content with
  | .ok container => (.ok (), container)
  | .error e =>
    if e.uniqueError then (raise (.duplicateKey name), container)
    else (raise (.error (str "cannot write document \"" ++ name ++ str "\": " ++ e.what)), container)

end DbCorpusWriterPrivate

inductive WriterType
  | dbxmlCorpusWriter
  | compactCorpusWriter

namespace CorpusWriter

variable (Z : Zlib) (D : DbXml)

/-- What a writer of the type writes to. -/
def State : WriterType → Type
  | .dbxmlCorpusWriter => D.Container
  | .compactCorpusWriter => CompactCorpusWriterPrivate Z

/-- How a writer of the type writes one entry of a corpus. -/
def put : (t : WriterType) → State Z D t → Str → Str → Outcome Unit × State Z D t
  | .dbxmlCorpusWriter => DbCorpusWriterPrivate.write D
  | .compactCorpusWriter => CompactCorpusWriterPrivate.writeEntry

variable {S : Source}

/-- `DbCorpusWriter::writeEntry(corpus, fail_first)`. -/
def dbWriteEntry (fuel : Nat) (i : S.Iter) (c : Copying S D.Container) (failFirst : Bool) :
    Outcome Unit × Copying S D.Container :=
  c.writeEntry (DbCorpusWriterPrivate.write D) (DbCorpusWriterPrivate.mkUpdateContext D) fuel i failFirst

/-- `CompactCorpusWriterPrivate::writeEntry(corpus, fail_first)`. -/
def compactPrivateWriteEntry (fuel : Nat) (i : S.Iter) (c : Copying S (CompactCorpusWriterPrivate Z)) (failFirst : Bool) :
    Outcome Unit × Copying S (CompactCorpusWriterPrivate Z) :=
  c.writeEntry CompactCorpusWriterPrivate.writeEntry (.ok ()) fuel i failFirst

/-- `CompactCorpusWriter::writeEntry(corpus, failsafe)`. -/
def compactWriteEntry (fuel : Nat) (i : S.Iter) (c : Copying S (CompactCorpusWriterPrivate Z)) (failsafe : Bool) :
    Outcome Unit × Copying S (CompactCorpusWriterPrivate Z) :=
  compactPrivateWriteEntry Z fuel i c failsafe

/-- `write(corpus, failsafe)`, by the virtual `writeEntry`. -/
def write : (t : WriterType) → Nat → S.Iter → Copying S (State Z D t) → Bool →
    Outcome Unit × Copying S (State Z D t)
  | .dbxmlCorpusWriter, fuel, i, c, failsafe => dbWriteEntry D fuel i c failsafe
  | .compactCorpusWriter, fuel, i, c, failsafe => compactWriteEntry Z fuel i c failsafe

end CorpusWriter

/-! ## What the two modes promise -/

/-- The message of a `BatchError` that collects `es`. -/
def BatchError.report (es : List Exn) : Str :=
  str "Errors in batch conversion:\n" ++ (es.map fun e => str "    " ++ e.what ++ str "\n").flatten

namespace Copying

variable {S : Source} {ω : Type} (write : ω → Str → Str → Outcome Unit × ω)

/-- The outcome of each entry in turn, when all are tried. -/
def attempts (c : Copying S ω) : List Str → List (Outcome Unit)
  | [] => []
  | n :: ns => (c.copyEntry write n).1 :: (c.copyEntry write n).2.attempts ns

/-- Reader and writer after all the entries were tried. -/
def tryAll (c : Copying S ω) : List Str → Copying S ω
  | [] => c
  | n :: ns => (c.copyEntry write n).2.tryAll ns

/-- The entries that do not fail, with their data. -/
def succeeding (c : Copying S ω) : List Str → List (Str × Str)
  | [] => []
  | n :: ns =>
    match (c.copyEntry write n).1, (S.read c.reader n).1 with
    | .ok (), .ok data => (n, data) :: (c.copyEntry write n).2.succeeding ns
    | _, _ => (c.copyEntry write n).2.succeeding ns

/-- The entries up to the first that fails, that one included. -/
def reached (c : Copying S ω) : List Str → List Str
  | [] => []
  | n :: ns =>
    match (c.copyEntry write n).1 with
    | .ok () => n :: (c.copyEntry write n).2.reached ns
    | .error _ => [n]

/-- A writer with these entries written to it. -/
def storeAll (w : ω) (es : List (Str × Str)) : ω := es.foldl (fun w e => (write w e.1 e.2).2) w

def failure : Outcome Unit → Option Exn
  | .error (.raised e) => some e
  | _ => none

def firstError : List (Outcome Unit) → Outcome Unit
  | [] => .ok ()
  | .ok () :: os => firstError os
  | .error e :: _ => .error e

/-- Every entry is tried, those that do not fail are stored, and the errors
of the others are thrown as one. -/
structure FailSafe (c : Copying S ω) (names : List Str) (r : Outcome Unit × Copying S ω) : Prop where
  tried : r.2.reader = (c.tryAll write names).reader
  stored : r.2.writer = storeAll write c.writer (c.succeeding write names)
  outcome : r.1 =
    match (c.attempts write names).filterMap failure with
    | [] => .ok ()
    | e :: es => raise (.batchError (BatchError.report (e :: es)) (es.length + 1))

/-- The first entry that fails is the last that is tried, those before it
are stored, and its error is thrown. -/
structure FailFirst (c : Copying S ω) (names : List Str) (r : Outcome Unit × Copying S ω) : Prop where
  tried : r.2.reader = (c.tryAll write (c.reached write names)).reader
  stored : r.2.writer = storeAll write c.writer (c.succeeding write (c.reached write names))
  outcome : r.1 = firstError (c.attempts write names)

/-- An entry is copied, or raises an `Error`. -/
def Contained (o : Outcome Unit) : Prop := o = .ok () ∨ ∃ e, e.isError = true ∧ o = raise e

/-! ## What the two loops do -/

variable {write}

/-- The loop that stops at the first error. -/
theorem writeFailFirst_eq : ∀ (entries : List Entry) (fuel : Nat) (i : S.Iter) (c : Copying S ω),
    Delivers S.iterator i entries false → entries.length < fuel →
    c.writeFailFirst write fuel i = (firstError (c.attempts write (entries.map (·.name))),
      c.tryAll write (c.reached write (entries.map (·.name))))
  | [], fuel, i, c, hi, hf => by
    obtain ⟨fuel, rfl⟩ : ∃ k, fuel = k + 1 := ⟨fuel - 1, by omega⟩
    obtain ⟨i', hn, -⟩ := hi.done
    simp only [writeFailFirst, hn]
    rfl
  | e :: entries, fuel, i, c, hi, hf => by
    rw [List.length_cons] at hf
    obtain ⟨fuel, rfl⟩ : ∃ k, fuel = k + 1 := ⟨fuel - 1, by omega⟩
    obtain ⟨i₁, i₂, hn, hx, hi₂⟩ := hi.take
    simp only [writeFailFirst, hn, hx, List.map_cons, attempts, reached]
    rcases hc : c.copyEntry write e.name with ⟨_ | _, c'⟩
    · simp only [firstError, tryAll, hc]
    · simp only [firstError, tryAll, hc]
      exact writeFailFirst_eq entries fuel i₂ c' hi₂ (by omega)

theorem foldl_append (es : List Exn) (err : BatchError) : es.foldl BatchError.append err =
    ⟨err.msg ++ (es.map fun e => str "    " ++ e.what ++ str "\n").flatten, err.n + es.length⟩ := by
  induction es generalizing err with
  | nil => simp
  | cons e es ih =>
    rw [List.foldl_cons, ih]
    simp only [BatchError.append, List.map_cons, List.flatten_cons, List.append_assoc, List.length_cons]
    congr 1
    omega

/-- The loop that goes on, with the errors collected before in `err`. -/
theorem writeFailSafeLoop_eq : ∀ (entries : List Entry) (fuel : Nat) (err : BatchError) (i : S.Iter)
    (c : Copying S ω), Delivers S.iterator i entries false → entries.length < fuel →
    (∀ o ∈ c.attempts write (entries.map (·.name)), Contained o) →
    let err' := ((c.attempts write (entries.map (·.name))).filterMap failure).foldl BatchError.append err
    c.writeFailSafeLoop write fuel err i =
      (if err'.empty then .ok () else raise (.batchError err'.msg err'.n), c.tryAll write (entries.map (·.name)))
  | [], fuel, err, i, c, hi, hf, _ => by
    obtain ⟨fuel, rfl⟩ : ∃ k, fuel = k + 1 := ⟨fuel - 1, by omega⟩
    obtain ⟨i', hn, -⟩ := hi.done
    simp only [writeFailSafeLoop, hn]
    rfl
  | e :: entries, fuel, err, i, c, hi, hf, hall => by
    rw [List.length_cons] at hf
    obtain ⟨fuel, rfl⟩ : ∃ k, fuel = k + 1 := ⟨fuel - 1, by omega⟩
    obtain ⟨i₁, i₂, hn, hx, hi₂⟩ := hi.take
    simp only [List.map_cons, attempts, List.forall_mem_cons] at hall
    obtain ⟨hhead, htail⟩ := hall
    simp only [writeFailSafeLoop, hn, hx, List.map_cons, attempts, tryAll]
    have ih := fun err => writeFailSafeLoop_eq entries fuel err i₂ (c.copyEntry write e.name).2 hi₂ (by omega) htail
    rcases hc : c.copyEntry write e.name with ⟨o, c'⟩
    rw [hc] at hhead ih
    rcases hhead with rfl | ⟨x, hx, rfl⟩
    · simp only [ih]
      rfl
    · simp only [raise, hx, if_true, ih]
      rfl

/-- A write that throws leaves the writer as it was. -/
def Keeps (write : ω → Str → Str → Outcome Unit × ω) : Prop :=
  ∀ w n d e w', write w n d = (raise e, w') → w' = w

/-- What is stored when all are tried is what does not fail. -/
theorem tryAll_writer (hk : Keeps write) : ∀ (names : List Str) (c : Copying S ω),
    (∀ o ∈ c.attempts write names, Contained o) →
    (c.tryAll write names).writer = storeAll write c.writer (c.succeeding write names)
  | [], _, _ => rfl
  | n :: ns, c, hall => by
    simp only [attempts, List.forall_mem_cons] at hall
    obtain ⟨hhead, htail⟩ := hall
    have ih := tryAll_writer hk ns (c.copyEntry write n).2 htail
    rw [tryAll, ih, succeeding]
    rcases hr : S.read c.reader n with ⟨e | data, reader⟩
    · have hc : c.copyEntry write n = (.error e, ⟨reader, c.writer⟩) := by simp only [copyEntry, hr]
      simp only [hc]
    · rcases hw : write c.writer n data with ⟨o, w⟩
      have hc : c.copyEntry write n = (o, ⟨reader, w⟩) := by simp only [copyEntry, hr, hw]
      rw [hc] at hhead ⊢
      rcases hhead with rfl | ⟨e, -, rfl⟩
      · simp only [storeAll, List.foldl_cons, hw]
      · simp only [raise, hk _ _ _ _ _ hw]

/-- The attempts up to the first failure are among all attempts. -/
theorem attempts_reached : ∀ (names : List Str) (c : Copying S ω) (o : Outcome Unit),
    o ∈ c.attempts write (c.reached write names) → o ∈ c.attempts write names
  | [], _, _, h => h
  | n :: ns, c, o, h => by
    unfold reached at h
    rw [attempts, List.mem_cons]
    split at h
    · rw [attempts, List.mem_cons] at h
      exact h.imp_right (attempts_reached ns _ o)
    · rw [attempts, List.mem_cons] at h
      exact h.imp_right fun h => by cases h

/-- Nothing fails: every entry is reached. -/
theorem reached_all : ∀ (names : List Str) (c : Copying S ω), (∀ o ∈ c.attempts write names, o = .ok ()) →
    c.reached write names = names
  | [], _, _ => rfl
  | n :: ns, c, h => by
    simp only [attempts, List.forall_mem_cons] at h
    rw [reached, h.1, reached_all ns _ h.2]

theorem firstError_ok {os : List (Outcome Unit)} (h : ∀ o ∈ os, o = .ok ()) : firstError os = .ok () := by
  induction os with
  | nil => rfl
  | cons o os ih =>
    rw [List.forall_mem_cons] at h
    rw [h.1, firstError, ih h.2]

theorem failures_nil {os : List (Outcome Unit)} (h : ∀ o ∈ os, o = .ok ()) : os.filterMap failure = [] := by
  rw [List.filterMap_eq_nil_iff]
  intro o ho
  rw [h o ho]; rfl

/-- Something fails: the first error is the first of the failures. -/
theorem firstError_failures {os : List (Outcome Unit)} (hall : ∀ o ∈ os, Contained o) (h : ¬∀ o ∈ os, o = .ok ()) :
    ∃ e es, os.filterMap failure = e :: es ∧ firstError os = raise e := by
  induction os with
  | nil => exact absurd (by simp) h
  | cons o os ih =>
    rw [List.forall_mem_cons] at hall
    rcases hall.1 with rfl | ⟨e, -, rfl⟩
    · obtain ⟨e, es, h₁, h₂⟩ := ih hall.2 fun ho => h (List.forall_mem_cons.mpr ⟨rfl, ho⟩)
      exact ⟨e, es, (List.filterMap_cons_none rfl).trans h₁, by rw [firstError, h₂]⟩
    · exact ⟨e, os.filterMap failure, rfl, rfl⟩

/-- A collected report is never one of the errors it collects. -/
theorem report_ne (e : Exn) (es : List Exn) (n : Nat) : e ≠ .batchError (BatchError.report (e :: es)) n := by
  intro h
  have hlen := congrArg List.length (congrArg Exn.what h)
  simp only [Exn.what, BatchError.report, List.map_cons, List.flatten_cons, List.length_append] at hlen
  have : 0 < (str "\n").length := by decide
  omega

/-- The loop that stops at the first error keeps the promise to do so. -/
theorem writeFailFirst_failFirst (hk : Keeps write) {entries : List Entry} {fuel : Nat} {i : S.Iter}
    {c : Copying S ω} (hi : Delivers S.iterator i entries false) (hf : entries.length < fuel)
    (hall : ∀ o ∈ c.attempts write (entries.map (·.name)), Contained o) :
    FailFirst write c (entries.map (·.name)) (c.writeFailFirst write fuel i) := by
  rw [writeFailFirst_eq entries fuel i c hi hf]
  exact ⟨rfl, tryAll_writer hk _ c fun o ho => hall o (attempts_reached _ c o ho), rfl⟩

/-- The loop that goes on keeps the promise to do so. -/
theorem writeFailSafe_failSafe (hk : Keeps write) {entries : List Entry} {fuel : Nat} {i : S.Iter}
    {c : Copying S ω} (hi : Delivers S.iterator i entries false) (hf : entries.length < fuel)
    (hall : ∀ o ∈ c.attempts write (entries.map (·.name)), Contained o) :
    FailSafe write c (entries.map (·.name)) (c.writeFailSafe write fuel i) := by
  rw [writeFailSafe, writeFailSafeLoop_eq entries fuel .new i c hi hf hall, foldl_append]
  refine ⟨rfl, tryAll_writer hk _ c hall, ?_⟩
  cases (c.attempts write (entries.map (·.name))).filterMap failure with
  | nil => rfl
  | cons e es => simp [BatchError.new, BatchError.empty, BatchError.report]

/-- The two promises are one when nothing fails, and exclude each other
when something does. -/
theorem promises_agree_iff {c : Copying S ω} {names : List Str} (hall : ∀ o ∈ c.attempts write names, Contained o)
    {r₁ r₂ : Outcome Unit × Copying S ω} (h₁ : FailFirst write c names r₁) (h₂ : FailSafe write c names r₂) :
    (FailSafe write c names r₁ ↔ ∀ o ∈ c.attempts write names, o = .ok ()) ∧
    (FailFirst write c names r₂ ↔ ∀ o ∈ c.attempts write names, o = .ok ()) := by
  by_cases hok : ∀ o ∈ c.attempts write names, o = .ok ()
  · have hreach := reached_all names c hok
    have hfail := failures_nil hok
    have hfirst := firstError_ok hok
    have ho₁ := h₁.outcome
    have ho₂ := h₂.outcome
    rw [hfirst] at ho₁
    rw [hfail] at ho₂
    have ht₁ := h₁.tried
    have hs₁ := h₁.stored
    rw [hreach] at ht₁ hs₁
    refine ⟨iff_of_true ⟨ht₁, hs₁, ?_⟩ hok, iff_of_true ⟨?_, ?_, ?_⟩ hok⟩
    · rw [hfail, ho₁]
    · rw [hreach]; exact h₂.tried
    · rw [hreach]; exact h₂.stored
    · rw [hfirst]; exact ho₂
  · obtain ⟨e, es, hfail, hfirst⟩ := firstError_failures hall hok
    have hne : (raise e : Outcome Unit) ≠ raise (.batchError (BatchError.report (e :: es)) (es.length + 1)) := by
      intro h
      simp only [raise, Except.error.injEq, Stop.raised.injEq] at h
      exact report_ne e es _ h
    refine ⟨iff_of_false (fun h => ?_) hok, iff_of_false (fun h => ?_) hok⟩
    · have ho := h.outcome
      rw [hfail, h₁.outcome, hfirst] at ho
      exact hne ho
    · have ho := h.outcome
      rw [hfirst, h₂.outcome, hfail] at ho
      exact hne ho.symm

end Copying

namespace CorpusWriter

open Copying

variable {Z : Zlib} {D : DbXml} {S : Source}

theorem keeps_db : Keeps (DbCorpusWriterPrivate.write D) := by
  intro w n d e w' h
  simp only [DbCorpusWriterPrivate.write] at h
  split at h
  · cases h
  · split at h <;> exact (Prod.mk.inj h).2.symm

/-- A stream that fails says nothing. -/
theorem write_ne_raise {o o' : DzOstream Z} {s : Str} {e : Exn} : o.write s ≠ (raise e, o') := by
  unfold DzOstream.write
  split
  · exact fun h => by cases h
  · split
    · exact fun h => by cases h
    · exact fun h => by cases h
    · next x _ hx _ =>
      intro h
      simp only [raise, Prod.mk.injEq, Except.error.injEq] at h
      exact hx e h.1

/-- The compact writer never throws. -/
theorem keeps_compact : Keeps (CompactCorpusWriterPrivate.writeEntry (Z := Z)) := by
  intro w n d e w' h
  simp only [CompactCorpusWriterPrivate.writeEntry] at h
  split at h
  · next x o hw =>
    rw [(Prod.mk.inj h).1] at hw
    exact absurd hw write_ne_raise
  · cases h

/-- What the documentation of `write(corpus, failsafe)` promises. -/
def Promise (t : WriterType) (c : Copying S (State Z D t)) (names : List Str)
    (r : Outcome Unit × Copying S (State Z D t)) (failsafe : Bool) : Prop :=
  if failsafe then FailSafe (put Z D t) c names r else FailFirst (put Z D t) c names r

/-- **When `write(corpus, failsafe)` keeps its promise**: exactly when no
entry fails, in either mode and for either writer, the modes being
exchanged. -/
theorem write_promise_iff (hctx : D.createUpdateContext = .ok ()) (t : WriterType) {entries : List Entry} {fuel : Nat}
    {i : S.Iter} {c : Copying S (State Z D t)} (hi : Delivers S.iterator i entries false) (hf : entries.length < fuel)
    (hall : ∀ o ∈ c.attempts (put Z D t) (entries.map (·.name)), Contained o) (failsafe : Bool) :
    Promise t c (entries.map (·.name)) (write Z D t fuel i c failsafe) failsafe ↔
      ∀ o ∈ c.attempts (put Z D t) (entries.map (·.name)), o = .ok () := by
  have hk : Keeps (put Z D t) := by
    cases t
    · exact keeps_db
    · exact keeps_compact
  have hw : write Z D t fuel i c failsafe =
      if failsafe then c.writeFailFirst (put Z D t) fuel i else c.writeFailSafe (put Z D t) fuel i := by
    cases t
    · simp only [write, dbWriteEntry, Copying.writeEntry, DbCorpusWriterPrivate.mkUpdateContext, hctx]; rfl
    · rfl
  have hagree := promises_agree_iff hall (writeFailFirst_failFirst hk hi hf hall) (writeFailSafe_failSafe hk hi hf hall)
  rw [hw]
  cases failsafe
  · exact hagree.2
  · exact hagree.1

/-! ## A corpus whose first entry cannot be read -/

open CompactCorpusReaderPrivate (sampleZlib)

/-- `1.xml` cannot be read, `2.xml` can. -/
def sampleSource : Source where
  Reader := Unit
  read _ n := (if n = str "1.xml" then raise (.error (str "no such document")) else .ok (str "<b/>"), ())
  Iter := IndexIter
  iterator := IndexIter.machine

def sampleIter : IndexIter := ⟨[⟨str "1.xml", 0, 4⟩, ⟨str "2.xml", 4, 4⟩]⟩

/-- A container of well-formed documents with distinct names. -/
def sampleDb : DbXml where
  Container := List (Str × Str)
  createUpdateContext := .ok ()
  putDocument docs n content :=
    if (docs.lookup n).isSome then .error ⟨true, str "Document exists"⟩ else .ok (docs ++ [(n, content)])
  genericString n := n

def sampleCopying : Copying sampleSource (State sampleZlib sampleDb .dbxmlCorpusWriter) := ⟨(), []⟩

/-- Asked to go on after errors, the writer stops at the first. -/
theorem failsafe_stops_at_first_error :
    ¬Promise .dbxmlCorpusWriter sampleCopying [str "1.xml", str "2.xml"]
      (write sampleZlib sampleDb .dbxmlCorpusWriter 3 sampleIter sampleCopying true) true := by
  intro h
  have hstored : ([] : List (Str × Str)) = [(str "2.xml", str "<b/>")] := h.stored
  cases hstored

theorem sample_write_promise_iff :
    Promise .dbxmlCorpusWriter sampleCopying [str "1.xml", str "2.xml"]
        (write sampleZlib sampleDb .dbxmlCorpusWriter 3 sampleIter sampleCopying true) true ↔
      ∀ o ∈ sampleCopying.attempts (put sampleZlib sampleDb .dbxmlCorpusWriter) [str "1.xml", str "2.xml"],
        o = .ok () := by
  have hi : Delivers sampleSource.iterator sampleIter [⟨str "1.xml", []⟩, ⟨str "2.xml", []⟩] false :=
    IndexIter.delivers sampleIter.items
  have hall : ∀ o ∈ sampleCopying.attempts (put sampleZlib sampleDb .dbxmlCorpusWriter)
      [str "1.xml", str "2.xml"], Contained o := by
    have hattempts : sampleCopying.attempts (put sampleZlib sampleDb .dbxmlCorpusWriter)
        [str "1.xml", str "2.xml"] = [raise (.error (str "no such document")), .ok ()] := rfl
    rw [hattempts, List.forall_mem_cons, List.forall_mem_singleton]
    exact ⟨.inr ⟨_, rfl, rfl⟩, .inl rfl⟩
  exact write_promise_iff rfl .dbxmlCorpusWriter hi (by decide) hall true

end CorpusWriter

end AlpinoCorpus
