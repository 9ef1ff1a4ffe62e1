/-
What each iterator delivers, in terms of what the iterator inside it
delivers.
-/
import AlpinoCorpus.Iter

namespace AlpinoCorpus

open Iteration

/-! ## Directories and containers -/

/-- Skipping to the first element that counts leaves the same ones. -/
theorem skip_cases {α : Type} (p : α → Bool) (xs : List α) :
    ((xs.dropWhile fun x => !p x) = [] ∧ xs.filter p = []) ∨
      ∃ y ys, (xs.dropWhile fun x => !p x) = y :: ys ∧ p y = true ∧ xs.filter p = y :: ys.filter p := by
  induction xs with
  | nil => exact .inl ⟨rfl, rfl⟩
  | cons x xs ih =>
    cases h : p x with
    | true => exact .inr ⟨x, xs, by simp [h], h, by simp [h]⟩
    | false => simpa [h] using ih

theorem drop_skipped {α : Type} (p : α → Bool) (xs : List α) : xs.drop (xs.takeWhile p).length = xs.dropWhile p := by
  induction xs with
  | nil => rfl
  | cons x xs ih =>
    cases h : p x with
    | true => simp [h, ih]
    | false => simp [h]

namespace DirIter

/-- What is left to deliver. -/
def rest (it : DirIter) : List Entry := (it.paths.filter isValid).map fun p => ⟨entryName it.d_directory p, []⟩

theorem delivers (it : DirIter) : Delivers machine it it.rest false := by
  refine Delivers.of_simulation (R := fun it xs b => xs = it.rest ∧
    (b = true → ∃ p ps, it.paths = p :: ps ∧ isValid p = true)) ?_ ?_ ?_ ⟨rfl, nofun⟩
  · rintro ⟨d, paths⟩ xs b ⟨rfl, -⟩
    rcases skip_cases isValid paths with ⟨hd, hf⟩ | ⟨p, ps, hd, hp, hf⟩
    · exact ⟨⟨d, []⟩, by simp [machine, hasNext, rest, hd, hf], by simp [rest, hf], by simp [rest, hf]⟩
    · exact ⟨⟨d, p :: ps⟩, by simp [machine, hasNext, rest, hd, hf], by simp [rest, hf, hp],
        fun _ => ⟨p, ps, rfl, hp⟩⟩
  · rintro ⟨d, paths⟩ x xs ⟨hxs, h⟩
    obtain ⟨p, ps, rfl, hp⟩ := h rfl
    simp only [rest, List.filter_cons, hp, if_true, List.map_cons, List.cons.injEq] at hxs
    obtain ⟨rfl, rfl⟩ := hxs
    exact ⟨⟨d, ps⟩, rfl, rfl, nofun⟩
  · rintro ⟨d, paths⟩ ⟨hxs, h⟩
    obtain ⟨p, ps, rfl, hp⟩ := h rfl
    simp [rest, hp] at hxs

end DirIter

namespace SortedDirIter

def rest (it : SortedDirIter) : List Entry := ((it.d_entries.drop it.d_iter).filter isValid).map fun e => ⟨e, []⟩

theorem delivers {it : SortedDirIter} (hit : it.d_iter ≤ it.d_entries.length) : Delivers machine it it.rest false := by
  refine Delivers.of_simulation (R := fun it xs b => it.d_iter ≤ it.d_entries.length ∧ xs = it.rest ∧
    (b = true → ∃ e es, it.d_entries.drop it.d_iter = e :: es ∧ isValid e = true)) ?_ ?_ ?_ ⟨hit, rfl, nofun⟩
  · rintro ⟨entries, i⟩ xs b ⟨hi, rfl, -⟩
    have hi : i ≤ entries.length := hi
    have hdrop := drop_skipped (fun e => !isValid e) (entries.drop i)
    have hlen := (List.takeWhile_prefix (fun e => !isValid e) (l := entries.drop i)).length_le
    obtain ⟨n, hn⟩ : ∃ n, n = ((entries.drop i).takeWhile fun e => !isValid e).length := ⟨_, rfl⟩
    rw [← hn, List.drop_drop] at hdrop
    rw [← hn, List.length_drop] at hlen
    rcases skip_cases isValid (entries.drop i) with ⟨hd, hf⟩ | ⟨e, es, hd, he, hf⟩
    · rw [hd, List.drop_eq_nil_iff] at hdrop
      have hend : i + n = entries.length := by omega
      exact ⟨⟨entries, i + n⟩, by simp [machine, hasNext, rest, ← hn, hf, hend], by simp [hend],
        by simp [rest, hf, hend], by simp [rest, hf]⟩
    · rw [hd] at hdrop
      have hin : i + n < entries.length := by
        by_contra hge
        rw [List.drop_eq_nil_of_le (by omega)] at hdrop
        cases hdrop
      refine ⟨⟨entries, i + n⟩, ?_, by simp only; omega, by simp [rest, hf, hdrop, he], fun _ => ⟨e, es, hdrop, he⟩⟩
      simp [machine, hasNext, rest, ← hn, hf]
      omega
  · rintro ⟨entries, i⟩ x xs ⟨hi, hxs, h⟩
    obtain ⟨e, es, hdrop, he⟩ := h rfl
    simp only at hdrop
    simp only [rest, hdrop, List.filter_cons, he, if_true, List.map_cons, List.cons.injEq] at hxs
    obtain ⟨rfl, rfl⟩ := hxs
    have hget : entries[i]? = some e := by rw [← List.head?_drop, hdrop]; rfl
    have htail : entries.drop (i + 1) = es := by rw [← List.tail_drop, hdrop]; rfl
    exact ⟨⟨entries, i + 1⟩, by simp [machine, next, hget], (List.getElem?_eq_some_iff.mp hget).1,
      by simp [rest, htail], nofun⟩
  · rintro ⟨entries, i⟩ ⟨hi, hxs, h⟩
    obtain ⟨e, es, hdrop, he⟩ := h rfl
    simp only at hdrop
    simp [rest, hdrop, he] at hxs

end SortedDirIter

theorem DbIter.delivers (r : List Entry) : Delivers DbIter.machine ⟨r⟩ r false := by
  refine Delivers.of_simulation (R := fun it xs b => xs = it.r ∧ (b = true → xs ≠ [])) ?_ ?_ ?_ ⟨rfl, nofun⟩
  · rintro it xs b ⟨rfl, -⟩
    exact ⟨it, rfl, rfl, by simp⟩
  · rintro ⟨r⟩ x xs ⟨h, -⟩
    obtain rfl : x :: xs = r := h
    exact ⟨⟨xs⟩, rfl, rfl, nofun⟩
  · rintro it ⟨-, h⟩
    exact h rfl rfl

/-! ## Queries on documents -/

namespace FilterIter

variable {W ι : Type} {env : Env} {inner : Body W ι}

/-- The values of a query on a document. -/
def values (env : Env) (query doc : Str) : List Str := (env.evaluate query doc).getD []

/-- What a stage makes of the entries it is given, `file` being the name it
has seen last. -/
def stage (values : Str → List Str) : Str → List Entry → List Entry
  | _, [] => []
  | file, e :: es =>
    if e.name = file then stage values file es
    else (values e.name).map (Entry.mk e.name) ++ stage values e.name es

/-- What is left: the buffer, and what the entries left inside will give. -/
def rest (env : Env) (doc : Str → Str) (it : FilterIter ι) (es : List Entry) : List Entry :=
  it.d_buffer.map (Entry.mk it.d_file) ++ stage (fun n => values env it.d_query (doc n)) it.d_file es

/-- The evaluation of a query on a document ends with an error. -/
def fails (env : Env) (query doc : Str) : Bool := (env.evaluate query doc).isSome && env.raises query doc

theorem parseFile_read (it : FilterIter ι) {file doc : Str} (h : it.d_corpus.read env file [] = .ok doc) (w : W) :
    it.parseFile env file w = (if fails env it.d_query doc then raise .xqException else .ok (),
      ({ it with d_buffer := it.d_buffer ++ values env it.d_query doc }, w)) := by
  cases hv : env.evaluate it.d_query doc with
  | none => simp [parseFile, Reads.read, fails, values, h, hv]
  | some vs => simp [parseFile, Reads.read, fails, values, h, hv]

theorem parseFile_ok (it : FilterIter ι) {file doc : Str} (h : it.d_corpus.read env file [] = .ok doc)
    (hfails : fails env it.d_query doc = false) (w : W) :
    it.parseFile env file w = (.ok (), ({ it with d_buffer := it.d_buffer ++ values env it.d_query doc }, w)) := by
  rw [parseFile_read it h, hfails]
  rfl

theorem parseFile_error (it : FilterIter ι) {file : Str} {e : Stop} (h : it.d_corpus.read env file [] = .error e) (w : W) :
    it.parseFile env file w = (.error e, (it, w)) := by
  simp only [parseFile, Reads.read, h]

/-- `es` is left inside, its documents can be read and the query evaluated on
them, and `fuel` is enough for the loop. -/
structure Left (env : Env) (inner : Body W ι) (doc : Str → Str) (fuel : Nat) (it : FilterIter ι) (w : W)
    (es : List Entry) : Prop where
  inside : Delivers (inner.machine it.d_corpus) (it.d_itr, w) es false
  read : ∀ e ∈ es, it.d_corpus.read env e.name [] = .ok (doc e.name)
  evaluates : ∀ e ∈ es, fails env it.d_query (doc e.name) = false
  short : es.length < fuel

/-- One round of the loop that takes an entry. -/
theorem hasNextLoop_entry {doc : Str → Str} {fuel : Nat} {it : FilterIter ι} {w : W} {e : Entry} {es : List Entry}
    (h : Left env inner doc (fuel + 1) it w (e :: es)) (hbuf : it.d_buffer = []) (hint : it.d_interrupted = false) :
    ∃ it' w', hasNextLoop env inner (fuel + 1) (it, w) = hasNextLoop env inner fuel (it', w') ∧
      Left env inner doc fuel it' w' es ∧ it'.d_interrupted = false ∧
      it'.rest env doc es = it.rest env doc (e :: es) := by
  obtain ⟨corpus, itr, file, query, buffer, interrupted⟩ := it
  obtain rfl : buffer = [] := hbuf
  obtain rfl : interrupted = false := hint
  obtain ⟨hin, hread, heval, hshort⟩ := h
  rw [List.forall_mem_cons] at hread heval
  obtain ⟨⟨itr₁, w₁⟩, ⟨itr₂, w₂⟩, h₁, h₂, hin⟩ := hin.take
  have h₁ : inner.hasNext (itr, w) = (.ok true, itr₁, w₁) := h₁
  have h₂ : inner.next corpus (itr₁, w₁) = (.ok e, itr₂, w₂) := h₂
  have hshort : es.length < fuel := by simpa using hshort
  by_cases hname : e.name = file
  · refine ⟨⟨corpus, itr₂, file, query, [], false⟩, w₂, ?_, ⟨hin, hread.2, heval.2, hshort⟩, rfl, ?_⟩
    · simp [hasNextLoop, h₁, h₂, hname]
    · simp [rest, stage, hname]
  · have hparse := parseFile_ok ⟨corpus, itr₂, e.name, query, [], false⟩ hread.1 heval.1 w₂
    refine ⟨⟨corpus, itr₂, e.name, query, values env query (doc e.name), false⟩, w₂, ?_, ⟨hin, hread.2, heval.2, hshort⟩, rfl, ?_⟩
    · simp [hasNextLoop, h₁, h₂, hname, hparse]
    · simp [rest, stage, hname]

/-- The loop stops with a value in the buffer, or when nothing is left
inside. -/
theorem hasNextLoop_rest {doc : Str → Str} {fuel : Nat} : ∀ {it : FilterIter ι} {w : W} {es : List Entry},
    Left env inner doc fuel it w es → it.d_interrupted = false →
    ∃ it' w' es', hasNextLoop env inner fuel (it, w) = (.ok (!(it.rest env doc es).isEmpty), (it', w')) ∧
      Left env inner doc fuel it' w' es' ∧ it'.rest env doc es' = it.rest env doc es ∧
      (it'.d_buffer = [] → it.rest env doc es = []) := by
  induction fuel with
  | zero => intro it w es h; exact absurd h.short (by omega)
  | succ fuel ih =>
    intro it w es h hint
    cases hbuf : it.d_buffer with
    | cons v vs => exact ⟨it, w, es, by simp [hasNextLoop, rest, hbuf], h, rfl, by simp [hbuf]⟩
    | nil =>
      cases es with
      | nil =>
        obtain ⟨⟨itr', w'⟩, h₁, hin⟩ := h.inside.hasNext
        have h₁ : inner.hasNext (it.d_itr, w) = (.ok false, itr', w') := h₁
        have hrest : it.rest env doc [] = [] := by simp [rest, hbuf, stage]
        exact ⟨{ it with d_itr := itr' }, w', [], by simp [hasNextLoop, hbuf, h₁, hrest], ⟨hin, nofun, nofun, by simp⟩, rfl,
          fun _ => hrest⟩
      | cons e es =>
        obtain ⟨it₁, w₁, hstep, h₁, hint₁, hrest₁⟩ := hasNextLoop_entry h hbuf hint
        obtain ⟨it', w', es', hh, h', hr, hb⟩ := ih h₁ hint₁
        rw [hrest₁] at hh hr hb
        exact ⟨it', w', es', hstep.trans hh, ⟨h'.inside, h'.read, h'.evaluates, by have := h'.short; omega⟩, hr, hb⟩

/-- **A stage over an iterator.** Whatever the schedule of calls, it gives
the values of its query, by entry, skipping a name that comes again. -/
theorem Left.delivers {fuel : Nat} {doc : Str → Str} {it : FilterIter ι} {w : W} {es : List Entry}
    (h : Left env inner doc fuel it w es) (rdr : Reader) :
    Delivers ((body env inner fuel).machine rdr) (it, w) (it.rest env doc es) false := by
  refine Delivers.of_simulation (R := fun s xs b => ∃ es, Left env inner doc fuel s.1 s.2 es ∧
    xs = s.1.rest env doc es ∧ (b = true → s.1.d_buffer ≠ [])) ?_ ?_ ?_ ⟨es, h, rfl, nofun⟩
  · rintro ⟨it, w⟩ xs b ⟨es, h, rfl, -⟩
    have h₀ : Left env inner doc fuel { it with d_interrupted := false } w es := ⟨h.inside, h.read, h.evaluates, h.short⟩
    obtain ⟨it', w', es', hh, h', hr, hb⟩ := hasNextLoop_rest h₀ rfl
    refine ⟨(it', w'), hh, es', h', hr.symm, fun hne hbuf => ?_⟩
    have : it.rest env doc es = [] := hb hbuf
    simp [this] at hne
  · rintro ⟨it, w⟩ x xs ⟨es, h, hxs, hb⟩
    cases hbuf : it.d_buffer with
    | nil => exact absurd hbuf (hb rfl)
    | cons v vs =>
      simp only [rest, hbuf, List.map_cons, List.cons_append, List.cons.injEq] at hxs
      obtain ⟨rfl, rfl⟩ := hxs
      exact ⟨({ it with d_buffer := vs }, w), by simp [Body.machine, body, next, hbuf], es, ⟨h.inside, h.read, h.evaluates, h.short⟩,
        rfl, nofun⟩
  · rintro ⟨it, w⟩ ⟨es, -, hxs, hb⟩
    cases hbuf : it.d_buffer with
    | nil => exact hb rfl hbuf
    | cons v vs => simp [rest, hbuf] at hxs

end FilterIter

/-- What a stylesheet makes of the entry inside, with a reader that is a
value. -/
theorem StylesheetIter.next_eq {W ι : Type} {env : Env} {inner : Body W ι} {rdr : Reader} {it : StylesheetIter ι} {w w' : W}
    {r : Outcome Entry} {d_iter : ι} (h : inner.next rdr (it.d_iter, w) = (r, (d_iter, w'))) :
    next env inner rdr (it, w) =
      (do let e ← r
          let xml ← rdr.read env e.name it.d_markerQueries
          let contents ← env.transform it.d_stylesheet xml
          .ok { e with contents },
        ({ it with d_iter }, w')) := by
  cases r with
  | error e => simp only [next, h]; rfl
  | ok e =>
    simp only [next, h, Reads.read, bind, Except.bind]
    cases rdr.read env e.name it.d_markerQueries <;> rfl

/-! ## Many corpora -/

/-- The entries of a corpus under its name. -/
def under (name : Str) (es : List Entry) : List Entry := es.map fun e => { e with name := name ++ 47 :: e.name }

namespace MultiIter

variable {W κ : Type} {inner : Body W κ}
  {openTip : MultiIter κ → ReaderIter → W → Outcome (Option (Corpus × κ)) × W}

/-- What is asked of every corpus. -/
def request (it : MultiIter κ) : SortOrder × Bool × Str × QueryDialect :=
  (it.d_sortOrder, it.d_hasQuery, it.d_query, it.d_dialect)

/-- A corpus is passed over, or gives an iterator that delivers `es`. -/
def Opens (inner : Body W κ) (openTip : MultiIter κ → ReaderIter → W → Outcome (Option (Corpus × κ)) × W) (rdr : Reader)
    (it : MultiIter κ) (tip : ReaderIter) : Option (List Entry) → Prop
  | none => ∀ it' w, it'.request = it.request → ∃ w', openTip it' tip w = (.ok none, w')
  | some es => ∀ it' w, it'.request = it.request → ∃ reader iter w', openTip it' tip w = (.ok (some (reader, iter)), w') ∧
      Delivers (inner.machine rdr) (iter, w') es false

/-- What the corpora give, one after the other. -/
def concat (given : ReaderIter → Option (List Entry)) (tips : List ReaderIter) : List Entry :=
  tips.flatMap fun tip => under tip.name ((given tip).getD [])

/-- Every corpus not opened yet is to give `given`, and `cur` is left of the
one that is open. -/
structure Left (inner : Body W κ) (openTip : MultiIter κ → ReaderIter → W → Outcome (Option (Corpus × κ)) × W) (rdr : Reader)
    (given : ReaderIter → Option (List Entry)) (it : MultiIter κ) (w : W) (cur : List Entry) (ready : Bool) : Prop where
  going : it.d_interrupted = false
  opens : ∀ tip ∈ it.d_iters, Opens inner openTip rdr it tip (given tip)
  current : match it.d_currentIter with
    | none => cur = [] ∧ ready = false
    | some iter => Delivers (inner.machine rdr) (iter, w) cur ready

variable {rdr : Reader} {given : ReaderIter → Option (List Entry)}

/-- What is left of a run. -/
def rest (given : ReaderIter → Option (List Entry)) (it : MultiIter κ) (cur : List Entry) : List Entry :=
  under it.d_currentName cur ++ concat given it.d_iters

theorem Left.currentHasNext {it : MultiIter κ} {w : W} {cur : List Entry} {b : Bool}
    (h : Left inner openTip rdr given it w cur b) :
    ∃ it' w', MultiIter.currentHasNext inner (it, w) = (.ok (!cur.isEmpty), (it', w')) ∧
      Left inner openTip rdr given it' w' cur (!cur.isEmpty) ∧ it'.d_iters = it.d_iters ∧
      it'.rest given cur = it.rest given cur := by
  have hcur := h.current
  cases hc : it.d_currentIter with
  | none =>
    rw [hc] at hcur
    obtain ⟨rfl, rfl⟩ := hcur
    exact ⟨it, w, by simp [MultiIter.currentHasNext, hc], h, rfl, rfl⟩
  | some iter =>
    rw [hc] at hcur
    obtain ⟨⟨iter', w'⟩, hn, hd⟩ := hcur.hasNext
    have hn : inner.hasNext (iter, w) = (.ok (!cur.isEmpty), iter', w') := hn
    exact ⟨{ it with d_currentIter := some iter' }, w', by simp [MultiIter.currentHasNext, hc, hn],
      ⟨h.going, h.opens, hd⟩, rfl, rfl⟩

/-- The loop goes on to the next corpus that has entries, if there is one. -/
theorem nextIteratorLoop_rest : ∀ {it : MultiIter κ} {w : W} {cur : List Entry} {b : Bool},
    Left inner openTip rdr given it w cur b →
    ∃ it' w' cur', nextIteratorLoop inner openTip it.d_iters (it, w) = (.ok (), (it', w')) ∧
      (∃ b', Left inner openTip rdr given it' w' cur' b') ∧ it'.rest given cur' = it.rest given cur ∧
      (cur' = [] → it'.d_iters = []) := by
  intro it w cur b h
  induction htips : it.d_iters generalizing it w cur b with
  | nil => exact ⟨it, w, cur, rfl, ⟨b, h⟩, rfl, fun _ => htips⟩
  | cons tip tips ih =>
    obtain ⟨it₁, w₁, hhas, h₁, hiters, hrest⟩ := h.currentHasNext
    simp only [nextIteratorLoop, h.going, Bool.false_eq_true, if_false, hhas]
    cases cur with
    | cons e es => exact ⟨it₁, w₁, e :: es, rfl, ⟨_, h₁⟩, hrest, nofun⟩
    | nil =>
      have hopens := h₁.opens
      rw [hiters, htips, List.forall_mem_cons] at hopens
      have hnone : it₁.rest given [] = under tip.name ((given tip).getD []) ++ concat given tips := by
        simp [rest, under, concat, hiters, htips]
      rw [← hrest, hnone]
      cases hg : given tip with
      | none =>
        rw [hg] at hopens
        obtain ⟨w₂, ho⟩ := hopens.1 { it₁ with d_currentIter := none, d_currentReader := none } w₁ rfl
        simp only [List.isEmpty_nil, Bool.not_true, ho]
        have hl : Left inner openTip rdr given
            { it₁ with d_currentIter := none, d_currentReader := none, d_iters := tips } w₂ [] false :=
          ⟨h₁.going, hopens.2, rfl, rfl⟩
        exact ih hl rfl
      | some es =>
        rw [hg] at hopens
        obtain ⟨reader, iter, w₂, ho, hd⟩ := hopens.1 { it₁ with d_currentIter := none, d_currentReader := none } w₁ rfl
        simp only [List.isEmpty_nil, Bool.not_true, ho]
        have hl : Left inner openTip rdr given
            { it₁ with d_currentIter := some iter, d_currentReader := some reader, d_currentName := tip.name,
                       d_iters := tips } w₂ es false :=
          ⟨h₁.going, hopens.2, hd⟩
        exact ih hl rfl

/-- `hasNext`: what it answers, and that no corpus is left when it is false. -/
theorem Left.hasNext {it : MultiIter κ} {w : W} {cur : List Entry} {b : Bool}
    (h : Left inner openTip rdr given it w cur b) :
    ∃ it' w' cur', MultiIter.hasNext inner openTip (it, w) = (.ok (!(it.rest given cur).isEmpty), (it', w')) ∧
      Left inner openTip rdr given it' w' cur' (!(it.rest given cur).isEmpty) ∧ it'.rest given cur' = it.rest given cur ∧
      (it.rest given cur = [] → it'.d_iters = []) := by
  obtain ⟨it₁, w₁, cur', hloop, ⟨b₁, h₁⟩, hrest₁, hend⟩ := nextIteratorLoop_rest h
  obtain ⟨it', w', hhas, h', hiters, hrest'⟩ := h₁.currentHasNext
  have hempty : cur'.isEmpty = (it.rest given cur).isEmpty := by
    rw [← hrest₁]
    cases cur' with
    | nil => simp [rest, under, concat, hend rfl]
    | cons e es => simp [rest, under]
  rw [hempty] at hhas h'
  refine ⟨it', w', cur', ?_, h', hrest'.trans hrest₁, fun hnil => ?_⟩
  · simp only [MultiIter.hasNext, h.going, Bool.false_eq_true, if_false, hloop, hhas]
  · rw [hnil, List.isEmpty_nil, List.isEmpty_iff] at hempty
    rw [hiters, hend hempty]

theorem Left.next {it : MultiIter κ} {w : W} {x : Entry} {xs cur : List Entry}
    (h : Left inner openTip rdr given it w cur true) (hxs : x :: xs = it.rest given cur) :
    ∃ it' w' cur', MultiIter.next inner rdr (it, w) = (.ok x, (it', w')) ∧ Left inner openTip rdr given it' w' cur' false ∧
      it'.rest given cur' = xs ∧ it'.d_iters = it.d_iters := by
  have hcur := h.current
  cases hc : it.d_currentIter with
  | none => simp [hc] at hcur
  | some iter =>
    simp only [hc] at hcur
    cases cur with
    | nil => exact absurd rfl (hcur.1 rfl)
    | cons e es =>
      obtain ⟨⟨iter', w'⟩, hn, hd⟩ := hcur.next
      have hn : inner.next rdr (iter, w) = (.ok e, iter', w') := hn
      simp only [rest, under, List.map_cons, List.cons_append, List.cons.injEq] at hxs
      obtain ⟨rfl, rfl⟩ := hxs
      exact ⟨{ it with d_currentIter := some iter' }, w', es, by simp [MultiIter.next, h.going, hc, hn],
        ⟨h.going, h.opens, hd⟩, rfl, rfl⟩

/-- **Many corpora.** Whatever the schedule of calls, the corpora that give
an iterator follow one another, each under its own name. -/
theorem Left.delivers {it : MultiIter κ} {w : W} {cur : List Entry} {b : Bool} (h : Left inner openTip rdr given it w cur b) :
    Delivers ((body inner openTip).machine rdr) (it, w) (it.rest given cur) false := by
  refine Delivers.of_simulation (R := fun s xs b => ∃ cur b', Left inner openTip rdr given s.1 s.2 cur b' ∧
    xs = s.1.rest given cur ∧ (b = true → b' = true)) ?_ ?_ ?_ ⟨cur, b, h, rfl, nofun⟩
  · rintro ⟨it, w⟩ xs b ⟨cur, b', h, rfl, -⟩
    obtain ⟨it', w', cur', hh, h', hr, -⟩ := h.hasNext
    exact ⟨(it', w'), hh, cur', _, h', hr.symm, id⟩
  · rintro ⟨it, w⟩ x xs ⟨cur, b', h, hxs, hb⟩
    obtain rfl := hb rfl
    obtain ⟨it', w', cur', hh, h', hr, -⟩ := h.next hxs
    exact ⟨(it', w'), hh, cur', false, h', hr.symm, nofun⟩
  · rintro ⟨it, w⟩ ⟨cur, b', h, hxs, hb⟩
    obtain rfl := hb rfl
    have hcur := h.current
    cases hc : it.d_currentIter with
    | none => simp [hc] at hcur
    | some iter =>
      simp only [hc] at hcur
      cases cur with
      | nil => exact hcur.1 rfl rfl
      | cons e es => simp [rest, under] at hxs

/-- A whole run comes to the end of the corpora. -/
theorem Left.exhaust {n : Nat} : ∀ {it : MultiIter κ} {w : W} {cur : List Entry} {b : Bool},
    Left inner openTip rdr given it w cur b → (it.rest given cur).length < n →
    ∃ it' w', Iteration.exhaust ((body inner openTip).machine rdr) .unfinished n (it, w) = (.ok (it.rest given cur), (it', w')) ∧
      it'.d_iters = [] := by
  induction n with
  | zero => intro it w cur b _ hn; omega
  | succ n ih =>
    intro it w cur b h hn
    obtain ⟨it₁, w₁, cur₁, h₁, hl₁, hr₁, hend⟩ := h.hasNext
    have h₁ : ((body inner openTip).machine rdr).hasNext (it, w) = _ := h₁
    rw [← hr₁] at h₁ hl₁ hend hn ⊢
    cases hrest : it₁.rest given cur₁ with
    | nil =>
      rw [hrest] at h₁ hend
      exact ⟨it₁, w₁, by simp [Iteration.exhaust, h₁], hend rfl⟩
    | cons x xs =>
      rw [hrest] at h₁ hl₁ hn
      obtain ⟨it₂, w₂, cur₂, h₂, hl₂, hr₂, -⟩ := hl₁.next hrest.symm
      have h₂ : ((body inner openTip).machine rdr).next (it₁, w₁) = _ := h₂
      obtain ⟨it₃, w₃, h₃, hend₃⟩ := ih hl₂ (by rw [hr₂]; simpa using hn)
      rw [hr₂] at h₃
      exact ⟨it₃, w₃, by simp [Iteration.exhaust, h₁, h₂, h₃], hend₃⟩

end MultiIter

/-! ## The iterators -/

namespace Iter

variable {env : Env}

theorem Deliver.unique {it : Iter} {xs ys : List Entry} (hx : Deliver env it xs) (hy : Deliver env it ys) : xs = ys := by
  obtain ⟨n, hn⟩ := hx
  obtain ⟨m, hm⟩ := hy
  exact (hn (max n m) (le_max_left n m) (.multi .empty)).unique (hm (max n m) (le_max_right n m) (.multi .empty))

/-- A body that wraps nothing. -/
theorem deliver_plain {σ : Type} {m : Machine σ Stop Entry} {s : σ} {xs : List Entry} (wrap : σ → Iter)
    (h : Delivers m s xs false)
    (hhas : ∀ n s, (body env (n + 1)).hasNext (wrap s, ()) = plain wrap (m.hasNext s) ())
    (hnext : ∀ n rdr s, (body env (n + 1)).next rdr (wrap s, ()) = plain wrap (m.next s) ()) : Deliver env (wrap s) xs := by
  refine ⟨1, fun fuel hfuel rdr => ?_⟩
  obtain ⟨n, rfl⟩ : ∃ n, fuel = n + 1 := ⟨fuel - 1, by omega⟩
  exact h.map (fun s => (wrap s, ())) (hhas n) (hnext n rdr)

theorem deliver_index (items : List IndexItem) :
    Deliver env (index ⟨items⟩) (items.map fun item => ⟨item.name, []⟩) :=
  deliver_plain index (IndexIter.delivers items) (fun _ _ => rfl) fun _ _ _ => rfl

theorem deliver_dir (it : DirIter) : Deliver env (dir it) it.rest :=
  deliver_plain dir it.delivers (fun _ _ => rfl) fun _ _ _ => rfl

theorem deliver_sortedDir {it : SortedDirIter} (hit : it.d_iter ≤ it.d_entries.length) :
    Deliver env (sortedDir it) it.rest :=
  deliver_plain sortedDir (SortedDirIter.delivers hit) (fun _ _ => rfl) fun _ _ _ => rfl

theorem deliver_db (r : List Entry) : Deliver env (db ⟨r⟩) r :=
  deliver_plain db (DbIter.delivers r) (fun _ _ => rfl) fun _ _ _ => rfl

/-- A stage over an iterator of its reader, where every document can be read
and the query evaluated on it. -/
theorem deliver_filter (it : FilterIter Iter) {es : List Entry} {doc : Str → Str} (h : Deliver env it.d_itr es)
    (hread : ∀ e ∈ es, it.d_corpus.read env e.name [] = .ok (doc e.name))
    (heval : ∀ e ∈ es, FilterIter.fails env it.d_query (doc e.name) = false) :
    Deliver env (.filter it) (it.rest env doc es) := by
  obtain ⟨n, hn⟩ := h
  refine ⟨max n (es.length + 1) + 1, fun fuel hfuel rdr => ?_⟩
  obtain ⟨m, rfl⟩ : ∃ m, fuel = m + 1 := ⟨fuel - 1, by omega⟩
  have hleft : FilterIter.Left env (body env m) doc m it () es :=
    ⟨hn m (by omega) it.d_corpus, hread, heval, by omega⟩
  have hd : Delivers ((body env (m + 1)).machine rdr) (filter it, ()) (it.rest env doc es) false :=
    (hleft.delivers rdr).map (fun s => (filter s.1, s.2)) (fun _ => rfl) fun _ => rfl
  exact hd

/-- A corpus is passed over, or gives an iterator that delivers `es`. -/
def Opens (env : Env) (it : MultiIter Iter) (tip : ReaderIter) : Option (List Entry) → Prop
  | none => MultiIter.openTip env (start env) it tip () = (.ok none, ())
  | some es => ∃ reader iter, MultiIter.openTip env (start env) it tip () = (.ok (some (reader, iter)), ()) ∧ Deliver env iter es

/-- A corpus that refuses to open is passed over. -/
theorem opens_refused {it : MultiIter Iter} {tip : ReaderIter} {e : Exn}
    (h : openCorpus env (tip.filename, tip.recursive) = .error (.raised e)) (he : e.isOpenError = true) :
    Opens env it tip none := by
  simp [Opens, MultiIter.openTip, h, he]

theorem opens_started {it : MultiIter Iter} {tip : ReaderIter} {reader : Corpus} {iter : Iter} {es : List Entry}
    (h : openCorpus env (tip.filename, tip.recursive) = .ok reader) (hs : (start env reader it ()).1 = .ok iter)
    (hd : Deliver env iter es) : Opens env it tip (some es) := by
  have hs : start env reader it () = (.ok iter, ()) := Prod.ext hs rfl
  exact ⟨reader, iter, by simp [MultiIter.openTip, h, hs], hd⟩

/-- So is one whose entries or query cannot be started. -/
theorem opens_not_started {it : MultiIter Iter} {tip : ReaderIter} {reader : Corpus} {e : Exn}
    (h : openCorpus env (tip.filename, tip.recursive) = .ok reader)
    (hs : (start env reader it ()).1 = .error (.raised e)) (he : e.isRuntimeError = true) : Opens env it tip none := by
  have hs : start env reader it () = (.error (.raised e), ()) := Prod.ext hs rfl
  simp [Opens, MultiIter.openTip, h, hs, he]

/-- Enough fuel for one of each of finitely many. -/
theorem exists_fuel {α : Type} {P : α → Nat → Prop} (xs : List α) (h : ∀ x ∈ xs, ∃ n, ∀ fuel ≥ n, P x fuel) :
    ∃ n, ∀ fuel ≥ n, ∀ x ∈ xs, P x fuel := by
  induction xs with
  | nil => exact ⟨0, fun _ _ _ h => by cases h⟩
  | cons x xs ih =>
    rw [List.forall_mem_cons] at h
    obtain ⟨n, hn⟩ := h.1
    obtain ⟨m, hm⟩ := ih h.2
    refine ⟨max n m, fun fuel hfuel y hy => ?_⟩
    rcases List.mem_cons.mp hy with rfl | hy
    · exact hn fuel (by omega)
    · exact hm fuel (by omega) y hy

/-- What `openTip` does depends on the request only. -/
theorem openTip_request {it it' : MultiIter Iter} (h : it'.request = it.request) (tip : ReaderIter) :
    MultiIter.openTip env (start env) it' tip () = MultiIter.openTip env (start env) it tip () := by
  simp only [MultiIter.request, Prod.mk.injEq] at h
  obtain ⟨h₁, h₂, h₃, h₄⟩ := h
  have hstart : ∀ reader w, start env reader it' w = start env reader it w := by
    intro reader w
    simp only [start, h₁, h₂, h₃, h₄]
  simp only [MultiIter.openTip, hstart]

/-- A run over many corpora before its first call, which is to give `xs`. -/
def Fresh (env : Env) (it : MultiIter Iter) (xs : List Entry) : Prop :=
  ∃ given n, (∀ fuel ≥ n, ∀ rdr,
    MultiIter.Left (body env fuel) (MultiIter.openTip env (start env)) rdr given it () [] false) ∧ it.rest given [] = xs

theorem fresh_multi {it : MultiIter Iter} (gives : ReaderIter → List Entry) (hcur : it.d_currentIter = none)
    (hint : it.d_interrupted = false)
    (h : ∀ tip ∈ it.d_iters, ∃ given, Opens env it tip given ∧ given.getD [] = gives tip) :
    Fresh env it (it.d_iters.flatMap fun tip => under tip.name (gives tip)) := by
  choose! given hgiven using h
  obtain ⟨n, hn⟩ := exists_fuel (P := fun tip fuel => ∀ rdr,
    MultiIter.Opens (body env fuel) (MultiIter.openTip env (start env)) rdr it tip (given tip)) it.d_iters <| by
    intro tip htip
    have hopens := (hgiven tip htip).1
    cases hg : given tip with
    | none =>
      rw [hg] at hopens
      exact ⟨0, fun _ _ _ it' w hreq => ⟨(), (openTip_request hreq tip).trans hopens⟩⟩
    | some es =>
      rw [hg] at hopens
      obtain ⟨reader, iter, ho, n, hn⟩ := hopens
      exact ⟨n, fun fuel hfuel rdr it' w hreq =>
        ⟨reader, iter, (), (openTip_request hreq tip).trans ho, hn fuel hfuel rdr⟩⟩
  refine ⟨given, n, fun fuel hfuel rdr => ⟨hint, fun tip htip => hn fuel hfuel tip htip rdr, ?_⟩, ?_⟩
  · rw [hcur]
    exact ⟨rfl, rfl⟩
  · rw [MultiIter.rest, under, List.map_nil, List.nil_append, MultiIter.concat]
    exact List.flatMap_congr fun tip htip => by rw [(hgiven tip htip).2]

theorem Fresh.deliver {it : MultiIter Iter} {xs : List Entry} (h : Fresh env it xs) : Deliver env (.multi it) xs := by
  obtain ⟨given, n, hn, rfl⟩ := h
  refine ⟨n + 1, fun fuel hfuel rdr => ?_⟩
  obtain ⟨m, rfl⟩ : ∃ m, fuel = m + 1 := ⟨fuel - 1, by omega⟩
  have hd : Delivers ((body env (m + 1)).machine rdr) (multi it, ()) (it.rest given []) false :=
    (hn m (by omega) rdr).delivers.map (fun s => (multi s.1, s.2)) (fun _ => rfl) fun _ => rfl
  exact hd

/-- A full run comes to the end of the corpora. -/
theorem Fresh.exhaust {it : MultiIter Iter} {xs : List Entry} (h : Fresh env it xs) :
    ∃ n, ∀ fuel ≥ n, ∀ rdr, ∃ rounds it',
      Iteration.exhaust ((body env fuel).machine rdr) .unfinished rounds (.multi it, ()) = (.ok xs, (.multi it', ())) ∧
        it'.d_iters = [] := by
  obtain ⟨given, n, hn, rfl⟩ := h
  refine ⟨n + 1, fun fuel hfuel rdr => ?_⟩
  obtain ⟨m, rfl⟩ : ∃ m, fuel = m + 1 := ⟨fuel - 1, by omega⟩
  obtain ⟨it', w, hrun, hend⟩ := (hn m (by omega) rdr).exhaust (Nat.lt_succ_self _)
  have hiter : Iteration.exhaust ((body env (m + 1)).machine rdr) .unfinished ((it.rest given []).length + 1)
      (multi it, ()) = (.ok (it.rest given []), (multi it', w)) :=
    exhaust_map hrun (fun s => (multi s.1, s.2)) (fun _ => rfl) fun _ => rfl
  exact ⟨_, it', hiter, hend⟩

end Iter

/-! ## What the readers of one corpus list -/

/-- The entries of a reader, as its iterator is to deliver them. -/
def Leaf.entries (env : Env) (l : Leaf) (sortOrder : SortOrder) : List Entry :=
  match l with
  | directory d =>
    match sortOrder with
    | .naturalOrder => DirIter.rest ⟨d, env.listing d⟩
    | .numericalOrder => SortedDirIter.rest (.create env d (env.listing d))
  | compact corpus => corpus.indices.map fun item => ⟨item.name, []⟩
  | db corpus => corpus.documents

theorem Leaf.deliver_entries (env : Env) (l : Leaf) (sortOrder : SortOrder) :
    ∃ it, l.getEntries env sortOrder = .ok it ∧ it.Deliver env (l.entries env sortOrder) := by
  cases l with
  | directory d =>
    cases sortOrder with
    | naturalOrder => exact ⟨_, rfl, Iter.deliver_dir _⟩
    | numericalOrder => exact ⟨_, rfl, Iter.deliver_sortedDir (Nat.zero_le _)⟩
  | compact corpus => exact ⟨_, rfl, Iter.deliver_index _⟩
  | db corpus => exact ⟨_, rfl, Iter.deliver_db _⟩

end AlpinoCorpus
