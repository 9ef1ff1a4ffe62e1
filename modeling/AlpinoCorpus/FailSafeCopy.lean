/-
The loop of `writeFailSafe`, whatever the reads throw.

It catches `Error`, and `util::readFile` throws a `std::runtime_error` that
is none: such an error of one entry ends the copy of all.
-/
import AlpinoCorpus.BatchWrite

namespace AlpinoCorpus

open Iteration

namespace Copying

variable {S : Source} {ω : Type} {write : ω → Str → Str → Outcome Unit × ω}

/-- The outcome of `corpus.read` for each entry in turn. -/
def reads (S : Source) (r : S.Reader) : List Str → List (Outcome Str)
  | [] => []
  | n :: ns => (S.read r n).1 :: reads S (S.read r n).2 ns

/-- Every entry that can be copied is, in order, and the errors of the
others are thrown as one in the end. -/
structure Survives (write : ω → Str → Str → Outcome Unit × ω) (c : Copying S ω) (names : List Str)
    (r : Outcome Unit × Copying S ω) : Prop where
  stored : r.2.writer = storeAll write c.writer (c.succeeding write names)
  normal : r.1 = .ok () ↔ ∀ o ∈ c.attempts write names, o = .ok ()
  batch : (¬∀ o ∈ c.attempts write names, o = .ok ()) → ∃ msg n, r.1 = raise (.batchError msg n)

/-- The copy of an entry ends with a `std::runtime_error` at worst. -/
def Ends (o : Outcome Unit) : Prop := o = .ok () ∨ ∃ e, e.isRuntimeError = true ∧ o = raise e

theorem FailSafe.survives {c : Copying S ω} {names : List Str} {r : Outcome Unit × Copying S ω}
    (h : FailSafe write c names r) (hall : ∀ o ∈ c.attempts write names, Contained o) : Survives write c names r := by
  refine ⟨h.stored, ?_, fun hfail => ?_⟩
  · rw [h.outcome]
    by_cases hok : ∀ o ∈ c.attempts write names, o = .ok ()
    · rw [failures_nil hok]
      exact iff_of_true rfl hok
    · obtain ⟨e, es, hfailures, -⟩ := firstError_failures hall hok
      rw [hfailures]
      exact iff_of_false (fun h => by cases h) hok
  · obtain ⟨e, es, hfailures, -⟩ := firstError_failures hall hfail
    have ho := h.outcome
    rw [hfailures] at ho
    exact ⟨_, _, ho⟩

/-- The first failure that is no `Error` ends the loop. -/
theorem writeFailSafeLoop_escapes : ∀ (entries : List Entry) (fuel : Nat) (err : BatchError) (i : S.Iter)
    (c : Copying S ω), Delivers S.iterator i entries false → entries.length < fuel →
    (∀ o ∈ c.attempts write (entries.map (·.name)), Ends o) →
    (¬∀ o ∈ c.attempts write (entries.map (·.name)), Contained o) →
    ∃ e, e.isError = false ∧ (c.writeFailSafeLoop write fuel err i).1 = raise e
  | [], _, _, _, _, _, _, _, h => absurd (by simp [attempts]) h
  | e :: entries, fuel, err, i, c, hi, hf, hall, h => by
    rw [List.length_cons] at hf
    obtain ⟨fuel, rfl⟩ : ∃ k, fuel = k + 1 := ⟨fuel - 1, by omega⟩
    obtain ⟨i₁, i₂, hn, hx, hi₂⟩ := hi.take
    simp only [List.map_cons, attempts, List.forall_mem_cons] at hall h
    obtain ⟨hhead, htail⟩ := hall
    simp only [writeFailSafeLoop, hn, hx]
    have ih := fun err => writeFailSafeLoop_escapes entries fuel err i₂ (c.copyEntry write e.name).2 hi₂ (by omega) htail
    rcases hc : c.copyEntry write e.name with ⟨o, c'⟩
    rw [hc] at hhead ih h
    rcases hhead with rfl | ⟨x, -, rfl⟩
    · exact ih err fun htail => h ⟨.inl rfl, htail⟩
    · by_cases hx : x.isError = true
      · simp only [raise, hx, if_true]
        exact ih _ fun htail => h ⟨.inr ⟨x, hx, rfl⟩, htail⟩
      · simp only [raise, hx, Bool.false_eq_true, if_false]
        exact ⟨x, by simpa using hx, rfl⟩

/-- Writes that throw nothing but an `Error`. -/
def RaisesErrors (write : ω → Str → Str → Outcome Unit × ω) : Prop :=
  ∀ w n d e w', write w n d = (raise e, w') → e.isError = true

/-- An entry fails with something else exactly when its read does. -/
theorem attempts_contained_iff (hw : RaisesErrors write) : ∀ (names : List Str) (c : Copying S ω),
    (∀ o ∈ c.attempts write names, Ends o) →
    ((∀ o ∈ c.attempts write names, Contained o) ↔
      ∀ o ∈ reads S c.reader names, ∀ e, o = raise e → e.isError = true)
  | [], _, _ => by simp [attempts, reads]
  | n :: ns, c, hall => by
    simp only [attempts, List.forall_mem_cons] at hall
    obtain ⟨hhead, htail⟩ := hall
    have ih := attempts_contained_iff hw ns (c.copyEntry write n).2 htail
    simp only [attempts, reads, List.forall_mem_cons]
    rcases hr : S.read c.reader n with ⟨e | data, reader⟩
    · have hc : c.copyEntry write n = (.error e, ⟨reader, c.writer⟩) := by simp only [copyEntry, hr]
      rw [hc] at hhead ih ⊢
      refine and_congr ?_ ih
      rcases hhead with hok | ⟨x, -, hraise⟩
      · cases hok
      · cases hraise
        constructor
        · intro h e he
          cases he
          rcases h with hok | ⟨e, he, heq⟩
          · cases hok
          · cases heq
            exact he
        · intro h
          exact .inr ⟨x, h x rfl, rfl⟩
    · rcases hput : write c.writer n data with ⟨o, w⟩
      have hc : c.copyEntry write n = (o, ⟨reader, w⟩) := by simp only [copyEntry, hr, hput]
      rw [hc] at hhead ih ⊢
      refine and_congr (iff_of_true ?_ fun e he => by cases he) ih
      rcases hhead with hok | ⟨x, -, rfl⟩
      · exact .inl hok
      · exact .inr ⟨x, hw _ _ _ _ _ hput, rfl⟩

end Copying

namespace CorpusWriter

open Copying

variable {Z : Zlib} {D : DbXml} {S : Source}

theorem raisesErrors_put (t : WriterType) : RaisesErrors (put Z D t) := by
  intro w n d e w' h
  cases t with
  | dbxmlCorpusWriter =>
    simp only [put, DbCorpusWriterPrivate.write] at h
    split at h
    · cases h
    · split at h <;> cases h <;> rfl
  | compactCorpusWriter =>
    simp only [put, CompactCorpusWriterPrivate.writeEntry] at h
    split at h
    · next x o hw =>
      rw [(Prod.mk.inj h).1] at hw
      exact absurd hw write_ne_raise
    · cases h

theorem keeps_put (t : WriterType) : Keeps (put Z D t) := by
  cases t
  · exact keeps_db
  · exact keeps_compact

/-- **The fail-safe loop survives every bad entry** whose read throws an
`Error`, and no other. -/
theorem writeFailSafe_survives_iff (t : WriterType) {entries : List Entry} {fuel : Nat} {i : S.Iter}
    {c : Copying S (State Z D t)} (hi : Delivers S.iterator i entries false) (hf : entries.length < fuel)
    (hall : ∀ o ∈ c.attempts (put Z D t) (entries.map (·.name)), Ends o) :
    Survives (put Z D t) c (entries.map (·.name)) (c.writeFailSafe (put Z D t) fuel i) ↔
      ∀ o ∈ reads S c.reader (entries.map (·.name)), ∀ e, o = raise e → e.isError = true := by
  rw [← attempts_contained_iff (raisesErrors_put t) _ c hall]
  constructor
  · intro h
    by_contra hnot
    obtain ⟨e, he, hr⟩ := writeFailSafeLoop_escapes entries fuel .new i c hi hf hall hnot
    have hfail : ¬∀ o ∈ c.attempts (put Z D t) (entries.map (·.name)), o = .ok () :=
      fun hok => hnot fun o ho => .inl (hok o ho)
    obtain ⟨msg, n, hbatch⟩ := h.batch hfail
    rw [writeFailSafe, hr] at hbatch
    cases hbatch
    cases he
  · intro h
    exact (writeFailSafe_failSafe (keeps_put t) hi hf h).survives h

/-! ## A directory with an entry that is gone -/

open CompactCorpusReaderPrivate (sampleZlib)

/-- `1.xml` is in the cache of the entries and no longer in the directory. -/
def goneSource : Source where
  Reader := Unit
  read _ n :=
    (if n = str "1.xml" then raise (.runtimeError (str "readFile: '1.xml' is not a regular file")) else .ok (str "<b/>"), ())
  Iter := IndexIter
  iterator := IndexIter.machine

def goneCopying : Copying goneSource (State sampleZlib sampleDb .dbxmlCorpusWriter) := ⟨(), []⟩

theorem sample_survives_iff :
    Survives (put sampleZlib sampleDb .dbxmlCorpusWriter) goneCopying [str "1.xml", str "2.xml"]
        (goneCopying.writeFailSafe (put sampleZlib sampleDb .dbxmlCorpusWriter) 3 sampleIter) ↔
      ∀ o ∈ reads goneSource () [str "1.xml", str "2.xml"], ∀ e, o = raise e → e.isError = true := by
  have hi : Delivers goneSource.iterator sampleIter [⟨str "1.xml", []⟩, ⟨str "2.xml", []⟩] false :=
    IndexIter.delivers sampleIter.items
  have hall : ∀ o ∈ goneCopying.attempts (put sampleZlib sampleDb .dbxmlCorpusWriter) [str "1.xml", str "2.xml"], Ends o := by
    have hattempts : goneCopying.attempts (put sampleZlib sampleDb .dbxmlCorpusWriter) [str "1.xml", str "2.xml"] =
        [raise (.runtimeError (str "readFile: '1.xml' is not a regular file")), .ok ()] := rfl
    rw [hattempts, List.forall_mem_cons, List.forall_mem_singleton]
    exact ⟨.inr ⟨_, rfl, rfl⟩, .inl rfl⟩
  exact writeFailSafe_survives_iff .dbxmlCorpusWriter hi (by decide) hall

/-- The entry after it is not copied, and the error is not a `BatchError`. -/
theorem writeFailSafe_ends_at_runtime_error :
    (goneCopying.writeFailSafe (put sampleZlib sampleDb .dbxmlCorpusWriter) 3 sampleIter).1 =
        raise (.runtimeError (str "readFile: '1.xml' is not a regular file")) ∧
      ¬Survives (put sampleZlib sampleDb .dbxmlCorpusWriter) goneCopying [str "1.xml", str "2.xml"]
        (goneCopying.writeFailSafe (put sampleZlib sampleDb .dbxmlCorpusWriter) 3 sampleIter) := by
  refine ⟨rfl, fun h => ?_⟩
  have hstored : ([] : List (Str × Str)) = [(str "2.xml", str "<b/>")] := h.stored
  cases hstored

end CorpusWriter

end AlpinoCorpus
