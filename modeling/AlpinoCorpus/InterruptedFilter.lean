/-
A filter that is interrupted and asked again. `hasNext` looks at the flag
when it has taken an entry from the iterator inside, and throws before it has
parsed the document: the entry is gone, and its results with it.
-/
import AlpinoCorpus.Interrupts
import AlpinoCorpus.Pipeline

namespace AlpinoCorpus

open Iteration Stepping

namespace FilterIter

variable {W ι : Type}

/-- A client takes what a filter has, to the end: it is given `xs`, and
`hasNext` throws `IterationInterrupted` at the entries `struck`. After an
exception the client calls `hasNext` again. `interrupt` comes between any two
steps, where there are `interrupts`. -/
inductive Iterates (env : Env) (inner : Body W ι) (interrupts : Prop) :
    Point → FilterIter ι × W → List Entry → List Entry → Prop
  | interrupted {p : Point} {it : FilterIter ι} {w : W} {xs struck : List Entry} (hi : interrupts)
    (hr : Iterates env inner interrupts p (it.interrupt, w) xs struck) : Iterates env inner interrupts p (it, w) xs struck
  | goes {p p' : Point} {s s' : FilterIter ι × W} {xs struck : List Entry} (h : step env inner p s = (.goes p', s'))
    (hr : Iterates env inner interrupts p' s' xs struck) : Iterates env inner interrupts p s xs struck
  | ended {p : Point} {s s' : FilterIter ι × W} (h : step env inner p s = (.ends (.ok false), s')) :
    Iterates env inner interrupts p s [] []
  | found {p : Point} {s s₁ s' : FilterIter ι × W} {x : Entry} {xs struck : List Entry}
    (h : step env inner p s = (.ends (.ok true), s₁)) (hnext : next s₁ = (.ok x, s'))
    (hr : Iterates env inner interrupts .start s' xs struck) : Iterates env inner interrupts p s (x :: xs) struck
  | struck {e : Entry} {s s' : FilterIter ι × W} {xs struck : List Entry}
    (h : step env inner (.test e) s = (.ends (raise .iterationInterrupted), s'))
    (hr : Iterates env inner interrupts .start s' xs struck) : Iterates env inner interrupts (.test e) s xs (e :: struck)
  | failed {p : Point} {s s' : FilterIter ι × W} {stop : Stop} {xs struck : List Entry}
    (h : step env inner p s = (.ends (.error stop), s')) (hp : ∀ e, p ≠ .test e)
    (hr : Iterates env inner interrupts .start s' xs struck) : Iterates env inner interrupts p s xs struck

/-- The results a query has on an entry; a document that cannot be read has
none. -/
def results (env : Env) (corpus : Reader) (query : Str) (e : Entry) : List Entry :=
  match corpus.read env e.name [] with
  | .ok xml => (values env query xml).map (Entry.mk e.name)
  | .error _ => []

/-- The entries that are not parsed yet. -/
def Pending (inner : Body W ι) : Point → FilterIter ι × W → List Entry → Prop
  | .start, s, es | .loop, s, es => Delivers (inner.machine s.1.d_corpus) (s.1.d_itr, s.2) es false
  | .take, s, es => s.1.d_buffer = [] ∧ es ≠ [] ∧ Delivers (inner.machine s.1.d_corpus) (s.1.d_itr, s.2) es true
  | .test e, s, es | .parse e, s, es => s.1.d_buffer = [] ∧
      ∃ es', es = e :: es' ∧ Delivers (inner.machine s.1.d_corpus) (s.1.d_itr, s.2) es' false

/-- A filter on its way, with the entries `es` to come. -/
structure Going (inner : Body W ι) (corpus : Reader) (query : Str) (p : Point) (s : FilterIter ι × W) (es : List Entry) :
    Prop where
  corpus : s.1.d_corpus = corpus
  query : s.1.d_query = query
  pending : Pending inner p s es
  distinct : (es.map Entry.name).Nodup
  unseen : s.1.d_file ∉ es.map Entry.name

/-- What it still has to give. -/
def left (env : Env) (corpus : Reader) (query : Str) (it : FilterIter ι) (es : List Entry) : List Entry :=
  it.d_buffer.map (Entry.mk it.d_file) ++ es.flatMap (results env corpus query)

theorem Going.interrupt {inner : Body W ι} {corpus : Reader} {query : Str} {p : Point} {it : FilterIter ι} {w : W}
    {es : List Entry} (h : Going inner corpus query p (it, w) es) : Going inner corpus query p (it.interrupt, w) es :=
  ⟨h.corpus, h.query, by cases p <;> exact h.pending, h.distinct, h.unseen⟩

/-- How far a round of the loop is from its end. -/
def Point.rank : Point → Nat
  | .start => 5
  | .loop => 4
  | .take => 3
  | .test _ => 2
  | .parse _ => 1

/-- What a step may come to, and what is left then. -/
inductive Advance (env : Env) (inner : Body W ι) (corpus : Reader) (query : Str) (p : Point) (s : FilterIter ι × W)
    (es : List Entry) : Prop
  | goes (p' : Point) (s' : FilterIter ι × W) (es' : List Entry) (h : step env inner p s = (.goes p', s'))
    (hg : Going inner corpus query p' s' es') (hleft : left env corpus query s'.1 es' = left env corpus query s.1 es)
    (hflag : s'.1.d_interrupted = true → p ≠ .start ∧ s.1.d_interrupted = true)
    (hless : 6 * es'.length + p'.rank < 6 * es.length + p.rank)
  | ended (s' : FilterIter ι × W) (h : step env inner p s = (.ends (.ok false), s')) (hleft : left env corpus query s.1 es = [])
  | found (s₁ s' : FilterIter ι × W) (x : Entry) (h : step env inner p s = (.ends (.ok true), s₁))
    (hnext : next s₁ = (.ok x, s')) (hg : Going inner corpus query .start s' es)
    (hleft : left env corpus query s.1 es = x :: left env corpus query s'.1 es)
  | struck (e : Entry) (s' : FilterIter ι × W) (es' : List Entry) (hp : p = .test e) (hflag : s.1.d_interrupted = true)
    (h : step env inner p s = (.ends (raise .iterationInterrupted), s')) (hg : Going inner corpus query .start s' es')
    (hleft : left env corpus query s.1 es = results env corpus query e ++ left env corpus query s'.1 es')
  | failed (e : Entry) (s' : FilterIter ι × W) (es' : List Entry) (stop : Stop) (hp : p = .parse e)
    (h : step env inner p s = (.ends (.error stop), s')) (hg : Going inner corpus query .start s' es')
    (hleft : left env corpus query s.1 es = left env corpus query s'.1 es') (hless : es'.length < es.length)

variable {env : Env} {inner : Body W ι} {interrupts : Prop} {corpus : Reader} {query : Str}

/-- Whether or not it throws, the results come into the buffer. -/
theorem parseFile_cases (env : Env) (it : FilterIter ι) (e : Entry) (w : W) :
    ∃ r vs, parseFile env it e.name w = (r, ({ it with d_buffer := it.d_buffer ++ vs }, w)) ∧
      results env it.d_corpus it.d_query e = vs.map (Entry.mk e.name) := by
  cases hread : it.d_corpus.read env e.name [] with
  | error stop => exact ⟨.error stop, [], by simp [parseFile_error it hread w], by rw [results, hread]; rfl⟩
  | ok xml => exact ⟨_, _, parseFile_read it hread w, by rw [results, hread]⟩

theorem Going.advance {p : Point} {s : FilterIter ι × W} {es : List Entry} (h : Going inner corpus query p s es) :
    Advance env inner corpus query p s es := by
  obtain ⟨⟨corpus, itr, file, query, buffer, interrupted⟩, w⟩ := s
  obtain ⟨rfl, rfl, hpending, hdistinct, hunseen⟩ := h
  cases p with
  | start =>
    exact .goes .loop (⟨corpus, itr, file, query, buffer, false⟩, w) es rfl ⟨rfl, rfl, hpending, hdistinct, hunseen⟩ rfl
      (fun h => by cases h) (by simp [Point.rank])
  | loop =>
    cases buffer with
    | cons v vs =>
      exact .found _ (⟨corpus, itr, file, query, vs, interrupted⟩, w) ⟨file, v⟩ rfl rfl ⟨rfl, rfl, hpending, hdistinct, hunseen⟩ rfl
    | nil =>
      obtain ⟨⟨itr', w'⟩, hhas, hin⟩ := Delivers.hasNext hpending
      have hhas : inner.hasNext (itr, w) = (.ok (!es.isEmpty), itr', w') := hhas
      cases es with
      | nil => exact .ended (⟨corpus, itr', file, query, [], interrupted⟩, w') (by simp [step, hhas]) rfl
      | cons e es =>
        exact .goes .take (⟨corpus, itr', file, query, [], interrupted⟩, w') (e :: es) (by simp [step, hhas])
          ⟨rfl, rfl, ⟨rfl, by simp, hin⟩, hdistinct, hunseen⟩ rfl (fun h => ⟨by simp, h⟩)
          (by simp [Point.rank])
  | take =>
    obtain ⟨hbuf, hne, hin⟩ := hpending
    cases es with
    | nil => exact absurd rfl hne
    | cons e es =>
      obtain ⟨⟨itr', w'⟩, hnext, hin⟩ := hin.next
      have hnext : inner.next corpus (itr, w) = (.ok e, itr', w') := hnext
      exact .goes (.test e) (⟨corpus, itr', file, query, buffer, interrupted⟩, w') (e :: es) (by simp [step, hnext])
        ⟨rfl, rfl, ⟨hbuf, es, rfl, hin⟩, hdistinct, hunseen⟩ rfl (fun h => ⟨by simp, h⟩)
          (by simp [Point.rank])
  | test e =>
    obtain ⟨hbuf, es', rfl, hin⟩ := hpending
    have hname : e.name ≠ file := fun h => hunseen (by simp [h])
    cases interrupted with
    | true =>
      refine .struck e (⟨corpus, itr, file, query, buffer, true⟩, w) es' rfl rfl (by simp [step, hname])
        ⟨rfl, rfl, hin, (List.nodup_cons.mp hdistinct).2, fun h => hunseen (List.mem_cons_of_mem _ h)⟩ ?_
      have hbuf : buffer = [] := hbuf
      simp [left, hbuf]
    | false =>
      exact .goes (.parse e) (⟨corpus, itr, file, query, buffer, false⟩, w) (e :: es') (by simp [step, hname])
        ⟨rfl, rfl, ⟨hbuf, es', rfl, hin⟩, hdistinct, hunseen⟩ rfl (fun h => by cases h)
        (by simp [Point.rank])
  | parse e =>
    obtain ⟨hbuf, es', rfl, hin⟩ := hpending
    obtain rfl : buffer = [] := hbuf
    obtain ⟨hnot, hdistinct'⟩ := List.nodup_cons.mp hdistinct
    obtain ⟨r, vs, hp, hres⟩ := parseFile_cases env ⟨corpus, itr, e.name, query, [], interrupted⟩ e w
    have hleft : left env corpus query (⟨corpus, itr, file, query, [], interrupted⟩ : FilterIter ι) (e :: es') =
        left env corpus query (⟨corpus, itr, e.name, query, vs, interrupted⟩ : FilterIter ι) es' := by
      simp [left, show results env corpus query e = _ from hres]
    cases r with
    | error stop =>
      exact .failed e (⟨corpus, itr, e.name, query, vs, interrupted⟩, w) es' stop rfl (by simp only [step, hp]; rfl)
        ⟨rfl, rfl, hin, hdistinct', hnot⟩ hleft (by simp)
    | ok _ =>
      exact .goes .loop (⟨corpus, itr, e.name, query, vs, interrupted⟩, w) es' (by simp only [step, hp]; rfl)
        ⟨rfl, rfl, hin, hdistinct', hnot⟩ hleft.symm (fun h => ⟨by simp, h⟩)
        (by simp only [Point.rank, List.length_cons]; omega)

/-- What a client is given, and what it misses, is what was left. -/
theorem Iterates.given {p : Point} {s : FilterIter ι × W} {xs struck : List Entry}
    (h : Iterates env inner interrupts p s xs struck) : ∀ {es : List Entry}, Going inner corpus query p s es →
    xs.length + (struck.flatMap (results env corpus query)).length = (left env corpus query s.1 es).length ∧
      (struck.flatMap (results env corpus query) = [] → xs = left env corpus query s.1 es) := by
  induction h with
  | interrupted _ _ ih => exact fun hg => ih hg.interrupt
  | goes h _ ih =>
    intro es hg
    have hadv : Advance env inner corpus query _ _ es := hg.advance
    cases hadv with
    | goes p' s' es' h₁ hg' hleft =>
      rw [h, Prod.mk.injEq, Turn.goes.injEq] at h₁
      obtain ⟨rfl, rfl⟩ := h₁
      exact hleft ▸ ih hg'
    | ended _ h₁ | found _ _ _ h₁ | struck _ _ _ _ _ h₁ | failed _ _ _ _ _ h₁ => rw [h] at h₁; cases h₁
  | ended h =>
    intro es hg
    have hadv : Advance env inner corpus query _ _ es := hg.advance
    cases hadv with
    | ended s' h₁ hleft => simp [hleft]
    | goes _ _ _ h₁ | found _ _ _ h₁ | struck _ _ _ _ _ h₁ | failed _ _ _ _ _ h₁ => rw [h] at h₁; cases h₁
  | found h hnext _ ih =>
    intro es hg
    have hadv : Advance env inner corpus query _ _ es := hg.advance
    cases hadv with
    | found s₁ s' x h₁ hnext₁ hg' hleft =>
      rw [h, Prod.mk.injEq] at h₁
      obtain ⟨-, rfl⟩ := h₁
      rw [hnext, Prod.mk.injEq, Except.ok.injEq] at hnext₁
      obtain ⟨rfl, rfl⟩ := hnext₁
      obtain ⟨hlen, heq⟩ := ih hg'
      rw [hleft]
      exact ⟨by rw [List.length_cons, List.length_cons]; omega, fun hnil => by rw [heq hnil]⟩
    | goes _ _ _ h₁ | ended _ h₁ | struck _ _ _ _ _ h₁ | failed _ _ _ _ _ h₁ => rw [h] at h₁; cases h₁
  | struck h _ ih =>
    intro es hg
    have hadv : Advance env inner corpus query _ _ es := hg.advance
    cases hadv with
    | struck e s' es' hp hflag h₁ hg' hleft =>
      obtain rfl := Point.test.inj hp
      rw [h, Prod.mk.injEq] at h₁
      obtain ⟨-, rfl⟩ := h₁
      obtain ⟨hlen, heq⟩ := ih hg'
      rw [hleft, List.flatMap_cons]
      refine ⟨by rw [List.length_append, List.length_append]; omega, fun hnil => ?_⟩
      rw [List.append_eq_nil_iff] at hnil
      rw [hnil.1, List.nil_append, heq hnil.2]
    | goes _ _ _ h₁ | ended _ h₁ | found _ _ _ h₁ => rw [h] at h₁; cases h₁
    | failed _ _ _ _ hp => cases hp
  | failed h hp _ ih =>
    intro es hg
    have hadv : Advance env inner corpus query _ _ es := hg.advance
    cases hadv with
    | failed e s' es' stop hp' h₁ hg' hleft =>
      rw [h, Prod.mk.injEq] at h₁
      obtain ⟨-, rfl⟩ := h₁
      exact hleft ▸ ih hg'
    | struck e _ _ hp' => exact absurd hp' (hp e)
    | goes _ _ _ h₁ | ended _ h₁ | found _ _ _ h₁ => rw [h] at h₁; cases h₁

/-- A client that is not interrupted is given all that was left. -/
theorem Going.iterates {p : Point} {s : FilterIter ι × W} {es : List Entry} (h : Going inner corpus query p s es)
    (hflag : s.1.d_interrupted = true → p = .start) :
    Iterates env inner interrupts p s (left env corpus query s.1 es) [] := by
  induction hn : 6 * (es.length + (left env corpus query s.1 es).length) + p.rank using Nat.strong_induction_on
    generalizing p s es with
  | _ n ih =>
    have hadv : Advance env inner corpus query p s es := h.advance
    cases hadv with
    | goes p' s' es' hs hg hleft hflag' hless =>
      rw [← hleft] at hn ⊢
      exact .goes hs (ih _ (by omega) hg (fun ht => absurd (hflag (hflag' ht).2) (hflag' ht).1) rfl)
    | ended s' hs hleft =>
      rw [hleft]
      exact .ended hs
    | found s₁ s' x hs hnext hg hleft =>
      rw [hleft, List.length_cons] at hn
      rw [hleft]
      exact .found hs hnext (ih _ (by simp only [Point.rank]; omega) hg (fun _ => rfl) rfl)
    | struck e s' es' hp hf => rw [hp] at hflag; cases hflag hf
    | failed e s' es' stop hp hs hg hleft hless =>
      rw [hleft] at hn ⊢
      exact .failed hs (by simp [hp]) (ih _ (by simp only [Point.rank]; omega) hg (fun _ => rfl) rfl)

/-- Names that come once each are not skipped. -/
theorem stage_unseen {vals : Str → List Str} {es : List Entry} (hdistinct : (es.map Entry.name).Nodup) :
    ∀ {file : Str}, file ∉ es.map Entry.name →
      stage vals file es = es.flatMap fun e => (vals e.name).map (Entry.mk e.name) := by
  induction es with
  | nil => intro file _; rfl
  | cons e es ih =>
    intro file hfile
    obtain ⟨hnot, hdistinct⟩ := List.nodup_cons.mp hdistinct
    have hne : e.name ≠ file := fun h => hfile (by simp [h])
    rw [stage, if_neg hne, ih hdistinct hnot, List.flatMap_cons]

/-- Where the documents can be read and the query evaluated on them, an
uninterrupted iteration is given what the filter delivers. -/
theorem iterates_alone_iff {it : FilterIter ι} {w : W} {es xs : List Entry} {doc : Str → Str} {fuel : Nat}
    (h : Going inner corpus query .start (it, w) es) (hread : ∀ e ∈ es, corpus.read env e.name [] = .ok (doc e.name))
    (heval : ∀ e ∈ es, fails env query (doc e.name) = false) (hfuel : es.length < fuel) (rdr : Reader) :
    Iterates env inner False .start (it, w) xs [] ↔ Delivers ((body env inner fuel).machine rdr) (it, w) xs false := by
  have hcorpus : it.d_corpus = corpus := h.corpus
  have hquery : it.d_query = query := h.query
  have hleft : Left env inner doc fuel it w es := ⟨h.pending, by rw [hcorpus]; exact hread, by rw [hquery]; exact heval, hfuel⟩
  have hrest : left env corpus query it es = it.rest env doc es := by
    rw [left, rest, stage_unseen h.distinct h.unseen, hquery]
    congr 1
    refine List.flatMap_congr fun e he => ?_
    rw [results, hread e he]
  constructor
  · intro hrun
    rw [(hrun.given h).2 rfl, hrest]
    exact hleft.delivers rdr
  · intro hd
    rw [hd.unique (hleft.delivers rdr), ← hrest]
    exact h.iterates fun _ => rfl

theorem going_new {itr : ι} {it : FilterIter ι} {w : W} {es : List Entry} (hnew : create env corpus itr query = .ok it)
    (hin : Delivers (inner.machine corpus) (itr, w) es false) (hdistinct : (es.map Entry.name).Nodup)
    (hnames : ∀ e ∈ es, e.name ≠ []) : Going inner corpus (cStr query) .start (it, w) es ∧ it.d_interrupted = false := by
  unfold create at hnew
  split at hnew
  · cases hnew
    refine ⟨⟨rfl, rfl, hin, hdistinct, fun h => ?_⟩, rfl⟩
    obtain ⟨e, he, hname⟩ := List.mem_map.mp h
    exact hnames e he hname
  · cases hnew

/-- **Interrupted and asked again.** What is given before and after is what
an uninterrupted iteration gives, if and only if the query has nothing on the
entries at which `hasNext` threw. A read depends on the name only. -/
theorem interrupted_iff {itr : ι} {it : FilterIter ι} {w : W} {es xs struck : List Entry}
    (hnew : create env corpus itr query = .ok it) (hin : Delivers (inner.machine corpus) (itr, w) es false)
    (hdistinct : (es.map Entry.name).Nodup) (hnames : ∀ e ∈ es, e.name ≠ [])
    (hrun : Iterates env inner True .start (it, w) xs struck) :
    Iterates env inner False .start (it, w) xs [] ↔ ∀ e ∈ struck, results env corpus (cStr query) e = [] := by
  obtain ⟨hg, hflag⟩ := going_new hnew hin hdistinct hnames
  obtain ⟨hlen, heq⟩ := hrun.given hg
  rw [← List.flatMap_eq_nil_iff]
  constructor
  · intro halone
    have hall := (halone.given hg).2 rfl
    rw [← hall] at hlen
    exact List.eq_nil_of_length_eq_zero (by omega)
  · intro hnil
    rw [heq hnil]
    exact hg.iterates fun _ => rfl

/-- A filter over the names left of the sample corpus. -/
def sampleFilter (query : Str) (names : List Str) (interrupted : Bool) : FilterIter Iter where
  d_corpus := .corpus (.leaf (.compact (sampleCorpus sampleDocs)))
  d_itr := .index ⟨names.map fun n => ⟨n, 0, 0⟩⟩
  d_file := []
  d_query := query
  d_buffer := []
  d_interrupted := interrupted

abbrev sampleInner : Body Unit Iter := Iter.body (sampleEnv [] sampleValues) 1

theorem deliver_names (names : List Str) (rdr : Reader) :
    Delivers (sampleInner.machine rdr) (.index ⟨names.map fun n => ⟨n, 0, 0⟩⟩, ()) (names.map fun n => ⟨n, []⟩) false := by
  have hd : Delivers (sampleInner.machine rdr) (.index ⟨names.map fun n => ⟨n, 0, 0⟩⟩, ())
      ((names.map fun n => (⟨n, 0, 0⟩ : IndexItem)).map fun item => ⟨item.name, []⟩) false :=
    (IndexIter.delivers _).map (fun it => (Iter.index it, ())) (fun _ => rfl) fun _ => rfl
  rwa [List.map_map] at hd

theorem going_sample (query : Str) (names : List Str) (interrupted : Bool) (hdistinct : names.Nodup) (hnames : [] ∉ names) :
    Going sampleInner (.corpus (.leaf (.compact (sampleCorpus sampleDocs)))) query .start
      (sampleFilter query names interrupted, ()) (names.map fun n => ⟨n, []⟩) := by
  have hmap : (names.map fun n => (⟨n, []⟩ : Entry)).map Entry.name = names := by
    rw [List.map_map]
    exact List.map_id names
  exact ⟨rfl, rfl, deliver_names names _, by rwa [hmap], by rwa [hmap]⟩

/-- The interrupt comes while the first entry is taken. -/
theorem iterates_interrupted (query name : Str) {names : List Str} {xs struck : List Entry} (hname : name ≠ [])
    (hr : Iterates (sampleEnv [] sampleValues) sampleInner True .start (sampleFilter query names true, ()) xs struck) :
    Iterates (sampleEnv [] sampleValues) sampleInner True .start (sampleFilter query (name :: names) false, ()) xs
      (⟨name, []⟩ :: struck) := by
  have htake : step (sampleEnv [] sampleValues) sampleInner .loop (sampleFilter query (name :: names) false, ()) =
      (.goes .take, (sampleFilter query (name :: names) false, ())) := rfl
  have htest : step (sampleEnv [] sampleValues) sampleInner .take ((sampleFilter query (name :: names) false).interrupt, ()) =
      (.goes (.test ⟨name, []⟩), (sampleFilter query names true, ())) := rfl
  have hthrow : step (sampleEnv [] sampleValues) sampleInner (.test ⟨name, []⟩) (sampleFilter query names true, ()) =
      (.ends (raise .iterationInterrupted), (sampleFilter query names true, ())) := by
    simp [step, sampleFilter, hname]
  exact .goes rfl (.goes htake (.interrupted trivial (.goes htest (.struck hthrow hr))))

/-- The interrupt comes at the first document, and its result is lost. -/
theorem interrupt_loses_results :
    create (sampleEnv [] sampleValues) (.corpus (.leaf (.compact (sampleCorpus sampleDocs))))
        (.index ⟨[⟨str "1.xml", 0, 0⟩, ⟨str "2.xml", 0, 0⟩]⟩) (str "//a") =
          .ok (sampleFilter (str "//a") [str "1.xml", str "2.xml"] false) ∧
      Iterates (sampleEnv [] sampleValues) sampleInner True .start
        (sampleFilter (str "//a") [str "1.xml", str "2.xml"] false, ())
        [⟨str "2.xml", str "y"⟩, ⟨str "2.xml", str "z"⟩] [⟨str "1.xml", []⟩] ∧
      Iterates (sampleEnv [] sampleValues) sampleInner False .start
        (sampleFilter (str "//a") [str "1.xml", str "2.xml"] false, ())
        [⟨str "1.xml", str "x"⟩, ⟨str "2.xml", str "y"⟩, ⟨str "2.xml", str "z"⟩] [] ∧
      ¬Iterates (sampleEnv [] sampleValues) sampleInner False .start
        (sampleFilter (str "//a") [str "1.xml", str "2.xml"] false, ())
        [⟨str "2.xml", str "y"⟩, ⟨str "2.xml", str "z"⟩] [] := by
  have hg := going_sample (str "//a") [str "1.xml", str "2.xml"] false (by decide) (by decide)
  have hrest := going_sample (str "//a") [str "2.xml"] true (by decide) (by decide)
  have hall : left (sampleEnv [] sampleValues) (.corpus (.leaf (.compact (sampleCorpus sampleDocs)))) (str "//a")
      (sampleFilter (str "//a") [str "1.xml", str "2.xml"] false) [⟨str "1.xml", []⟩, ⟨str "2.xml", []⟩] =
        [⟨str "1.xml", str "x"⟩, ⟨str "2.xml", str "y"⟩, ⟨str "2.xml", str "z"⟩] := by decide
  have hleft : left (sampleEnv [] sampleValues) (.corpus (.leaf (.compact (sampleCorpus sampleDocs)))) (str "//a")
      (sampleFilter (str "//a") [str "2.xml"] true) [⟨str "2.xml", []⟩] =
        [⟨str "2.xml", str "y"⟩, ⟨str "2.xml", str "z"⟩] := by decide
  refine ⟨rfl, iterates_interrupted _ _ (by decide) (hleft ▸ hrest.iterates fun _ => rfl),
    hall ▸ hg.iterates fun _ => rfl, fun h => ?_⟩
  have hgiven := (h.given hg).2 rfl
  simp only [List.map_cons, List.map_nil, hall] at hgiven
  cases hgiven

/-- Interrupted where the query has no result, nothing is lost. -/
theorem sample_interrupted :
    Iterates (sampleEnv [] sampleValues) sampleInner False .start
      (sampleFilter (str "//b") [str "1.xml", str "2.xml"] false, ()) [⟨str "2.xml", []⟩] [] := by
  have hrest := going_sample (str "//b") [str "2.xml"] true (by decide) (by decide)
  have hleft : left (sampleEnv [] sampleValues) (.corpus (.leaf (.compact (sampleCorpus sampleDocs)))) (str "//b")
      (sampleFilter (str "//b") [str "2.xml"] true) [⟨str "2.xml", []⟩] = [⟨str "2.xml", []⟩] := by decide
  have hrun := iterates_interrupted (str "//b") (str "1.xml") (by decide)
    (hleft ▸ hrest.iterates fun _ => rfl)
  have hnew : create (sampleEnv [] sampleValues) (.corpus (.leaf (.compact (sampleCorpus sampleDocs))))
      (.index ⟨[⟨str "1.xml", 0, 0⟩, ⟨str "2.xml", 0, 0⟩]⟩) (str "//b") =
        .ok (sampleFilter (str "//b") [str "1.xml", str "2.xml"] false) := rfl
  exact (interrupted_iff hnew (deliver_names [str "1.xml", str "2.xml"] _) (by decide) (by decide) hrun).mpr (by decide)

end FilterIter

end AlpinoCorpus
