/-
Queries over many corpora, some of whose entries cannot be read. The failure
of one entry ends neither its corpus nor those after it
(`both_resume`).
-/
import AlpinoCorpus.Resuming
import AlpinoCorpus.Concatenation

namespace AlpinoCorpus

open Iteration

/-- What is in store of a corpus, under its name. -/
def underItems (name : Str) (items : List (Item Stop Entry)) : List (Item Stop Entry) :=
  items.map (.bind fun e => .ok { e with name := name ++ 47 :: e.name })

theorem underItems_group (name n : Str) (group : Outcome (List Str)) :
    underItems name (groupItems n group) = groupItems (name ++ 47 :: n) group := by
  cases group with
  | error e => rfl
  | ok vs =>
    rw [underItems, groupItems, List.map_map]
    rfl

/-! ## The iterator over many corpora -/

namespace MultiIter

variable {W κ : Type} {inner : Body W κ}
  {openTip : MultiIter κ → ReaderIter → W → Outcome (Option (Corpus × κ)) × W}

/-- A corpus is passed over, or gives an iterator that follows `items`. -/
def Begins (inner : Body W κ) (openTip : MultiIter κ → ReaderIter → W → Outcome (Option (Corpus × κ)) × W) (rdr : Reader)
    (it : MultiIter κ) (tip : ReaderIter) : Option (List (Item Stop Entry)) → Prop
  | none => ∀ it' w, it'.request = it.request → ∃ w', openTip it' tip w = (.ok none, w')
  | some items => ∀ it' w, it'.request = it.request → ∃ reader iter w', openTip it' tip w = (.ok (some (reader, iter)), w') ∧
      Follows (inner.machine rdr) (iter, w') items false

variable {rdr : Reader} {given : ReaderIter → Option (List (Item Stop Entry))}

/-- What is left of a run: of the corpus that is open, and of those to come. -/
def stock (given : ReaderIter → Option (List (Item Stop Entry))) (it : MultiIter κ) (cur : List (Item Stop Entry)) :
    List (Item Stop Entry) :=
  underItems it.d_currentName cur ++ it.d_iters.flatMap fun tip => underItems tip.name ((given tip).getD [])

/-- Every corpus not opened yet is to give `given`, and `cur` is in store of
the one that is open. -/
structure Going (inner : Body W κ) (openTip : MultiIter κ → ReaderIter → W → Outcome (Option (Corpus × κ)) × W) (rdr : Reader)
    (given : ReaderIter → Option (List (Item Stop Entry))) (it : MultiIter κ) (w : W) (cur : List (Item Stop Entry))
    (ready : Bool) : Prop where
  going : it.d_interrupted = false
  begins : ∀ tip ∈ it.d_iters, Begins inner openTip rdr it tip (given tip)
  current : match it.d_currentIter with
    | none => cur = [] ∧ ready = false
    | some iter => Follows (inner.machine rdr) (iter, w) cur ready

/-- The state after a call on the corpus that is open. -/
structure Same (inner : Body W κ) (openTip : MultiIter κ → ReaderIter → W → Outcome (Option (Corpus × κ)) × W) (rdr : Reader)
    (given : ReaderIter → Option (List (Item Stop Entry))) (it : MultiIter κ) (s : MultiIter κ × W)
    (cur : List (Item Stop Entry)) (ready : Bool) : Prop where
  going : Going inner openTip rdr given s.1 s.2 cur ready
  iters : s.1.d_iters = it.d_iters
  name : s.1.d_currentName = it.d_currentName

theorem Same.stock {it : MultiIter κ} {s : MultiIter κ × W} {cur : List (Item Stop Entry)} {b : Bool}
    (h : Same inner openTip rdr given it s cur b) (cur' : List (Item Stop Entry)) : s.1.stock given cur' = it.stock given cur' := by
  rw [MultiIter.stock, MultiIter.stock, h.iters, h.name]

theorem Going.currentHasNext {it : MultiIter κ} {w : W} {cur : List (Item Stop Entry)} {b : Bool}
    (h : Going inner openTip rdr given it w cur b) :
    Asks (Same inner openTip rdr given it) (MultiIter.currentHasNext inner (it, w)) cur := by
  have hcur := h.current
  cases hc : it.d_currentIter with
  | none =>
    rw [hc] at hcur
    obtain ⟨rfl, rfl⟩ := hcur
    simp only [MultiIter.currentHasNext, hc]
    exact .done rfl ⟨h, rfl, rfl⟩
  | some iter =>
    rw [hc] at hcur
    have hstep : MultiIter.currentHasNext inner (it, w) = ((inner.hasNext (iter, w)).1,
        ({ it with d_currentIter := some (inner.hasNext (iter, w)).2.1 }, (inner.hasNext (iter, w)).2.2)) := by
      simp only [MultiIter.currentHasNext, hc]
    rw [hstep]
    cases hcur.asks with
    | done hx hrest => exact .done hx ⟨⟨h.going, h.begins, hrest⟩, rfl, rfl⟩
    | more hx hrest => exact .more hx ⟨⟨h.going, h.begins, hrest⟩, rfl, rfl⟩
    | raises hx hrest => exact .raises hx ⟨⟨h.going, h.begins, hrest⟩, rfl, rfl⟩

/-- The script that is left of a run, and what it is made up of. -/
def Stands (inner : Body W κ) (openTip : MultiIter κ → ReaderIter → W → Outcome (Option (Corpus × κ)) × W) (rdr : Reader)
    (given : ReaderIter → Option (List (Item Stop Entry))) (s : MultiIter κ × W) (script : List (Item Stop Entry))
    (ready : Bool) : Prop :=
  ∃ cur b, Going inner openTip rdr given s.1 s.2 cur b ∧ script = s.1.stock given cur ∧
    (ready = true → b = true ∧ cur ≠ [])

/-- `hasNext` without its check for interrupts: the loop over the corpora to
come, and a last look at the one that is open. The induction is on the
corpora to come. -/
def hasNextFrom (inner : Body W κ) (openTip : MultiIter κ → ReaderIter → W → Outcome (Option (Corpus × κ)) × W)
    (tips : List ReaderIter) (s : MultiIter κ × W) : Outcome Bool × (MultiIter κ × W) :=
  match nextIteratorLoop inner openTip tips s with
  | (.error e, s) => (.error e, s)
  | (.ok (), s) => MultiIter.currentHasNext inner s

/-- A look at the corpus that is open settles what comes next, if it has
anything in store, or none is to come. -/
theorem Same.asks {it : MultiIter κ} {x : Outcome Bool × (MultiIter κ × W)} {cur : List (Item Stop Entry)}
    (h : Asks (Same inner openTip rdr given it) x cur) (hlast : cur = [] → it.d_iters = []) :
    Asks (Stands inner openTip rdr given) x (it.stock given cur) := by
  cases h with
  | done hx h =>
    have hnil : it.stock given [] = [] := by rw [MultiIter.stock, hlast rfl]; rfl
    rw [hnil]
    exact .done hx ⟨[], false, h.going, by rw [h.stock, hnil], by simp⟩
  | @more v items hx h =>
    exact .more hx ⟨.gives v :: items, true, h.going, (h.stock (.gives v :: items)).symm, fun _ => ⟨rfl, List.cons_ne_nil _ _⟩⟩
  | @raises e items hx h => exact .raises hx ⟨items, false, h.going, (h.stock _).symm, by simp⟩

theorem hasNextFrom_asks (tips : List ReaderIter) : ∀ {it : MultiIter κ} {w : W} {cur : List (Item Stop Entry)} {b : Bool},
    Going inner openTip rdr given it w cur b → it.d_iters = tips →
    Asks (Stands inner openTip rdr given) (hasNextFrom inner openTip tips (it, w)) (it.stock given cur) := by
  induction tips with
  | nil => exact fun h htips => Same.asks h.currentHasNext fun _ => htips
  | cons tip tips ih =>
    intro it w cur b h htips
    have hasks := h.currentHasNext
    simp only [hasNextFrom, nextIteratorLoop, h.going, Bool.false_eq_true, if_false]
    generalize hx : MultiIter.currentHasNext inner (it, w) = x at hasks
    obtain ⟨r, s⟩ := x
    cases hasks with
    | raises hr hs =>
      obtain rfl : r = .error _ := hr
      exact Same.asks (.raises rfl hs) fun hnil => by cases hnil
    | more hr hs =>
      obtain rfl : r = .ok true := hr
      have hasks := Same.asks hs.going.currentHasNext fun hnil => by cases hnil
      rw [hs.stock] at hasks
      exact hasks
    | done hr hs =>
      obtain rfl : r = .ok false := hr
      obtain ⟨it₁, w₁⟩ := s
      have hbegins := hs.going.begins
      rw [show it₁.d_iters = tip :: tips from hs.iters.trans htips, List.forall_mem_cons] at hbegins
      have hstock : it.stock given [] = underItems tip.name ((given tip).getD []) ++
          tips.flatMap fun tip => underItems tip.name ((given tip).getD []) := by
        rw [MultiIter.stock, htips]
        rfl
      rw [hstock]
      cases hg : given tip with
      | none =>
        rw [hg] at hbegins
        obtain ⟨w₂, hopen⟩ := hbegins.1 { it₁ with d_currentIter := none, d_currentReader := none } w₁ rfl
        simp only [hopen]
        have hgoing : Going inner openTip rdr given
            { it₁ with d_currentIter := none, d_currentReader := none, d_iters := tips } w₂ [] false :=
          ⟨hs.going.going, hbegins.2, rfl, rfl⟩
        exact ih hgoing rfl
      | some items =>
        rw [hg] at hbegins
        obtain ⟨reader, iter, w₂, hopen, hf⟩ := hbegins.1 { it₁ with d_currentIter := none, d_currentReader := none } w₁ rfl
        simp only [hopen]
        have hgoing : Going inner openTip rdr given
            { it₁ with d_currentIter := some iter, d_currentReader := some reader, d_currentName := tip.name,
                       d_iters := tips } w₂ items false :=
          ⟨hs.going.going, hbegins.2, hf⟩
        exact ih hgoing rfl

theorem hasNext_eq {it : MultiIter κ} (w : W) (h : it.d_interrupted = false) :
    hasNext inner openTip (it, w) = hasNextFrom inner openTip it.d_iters (it, w) := by
  rw [hasNext, if_neg (by simp [h])]
  rfl

/-- `next`, after a `hasNext` that is true. -/
theorem Going.next {it : MultiIter κ} {w : W} {y : Item Stop Entry} {cur : List (Item Stop Entry)} {x : Outcome Entry}
    {script : List (Item Stop Entry)} (h : Going inner openTip rdr given it w (y :: cur) true)
    (hscript : .gives x :: script = it.stock given (y :: cur)) :
    ∃ s, MultiIter.next inner rdr (it, w) = (x, s) ∧ Stands inner openTip rdr given s script false := by
  have hcur := h.current
  cases hc : it.d_currentIter with
  | none => simp [hc] at hcur
  | some iter =>
    rw [hc] at hcur
    cases y with
    | raises e => exact (hcur.1 rfl).elim
    | gives y =>
      obtain ⟨⟨iter', w'⟩, hn, hf⟩ := hcur.next
      have hn : inner.next rdr (iter, w) = (y, iter', w') := hn
      obtain ⟨hx, rfl⟩ := List.cons.inj hscript
      obtain rfl := Item.gives.inj hx
      have hgoing : Going inner openTip rdr given { it with d_currentIter := some iter' } w' cur false :=
        ⟨h.going, h.begins, hf⟩
      refine ⟨({ it with d_currentIter := some iter' }, w'), ?_, cur, false, hgoing, rfl, by simp⟩
      rw [MultiIter.next, if_neg (by simp [h.going])]
      simp only [hc, hn]
      cases y <;> rfl

/-- **Many corpora, some of whose entries fail.** -/
theorem Going.follows {it : MultiIter κ} {w : W} {cur : List (Item Stop Entry)} {b : Bool}
    (h : Going inner openTip rdr given it w cur b) :
    Follows ((body inner openTip).machine rdr) (it, w) (it.stock given cur) false := by
  refine Follows.of_simulation (R := Stands inner openTip rdr given) ?_ ?_ ?_ ⟨cur, b, h, rfl, by simp⟩
  · rintro ⟨it, w⟩ script b ⟨cur, b', h, rfl, -⟩
    show Asks _ (hasNext inner openTip (it, w)) _
    rw [hasNext_eq w h.going]
    exact hasNextFrom_asks it.d_iters h rfl
  · rintro ⟨it, w⟩ x script ⟨cur, b, h, hscript, hb⟩
    obtain ⟨rfl, hne⟩ := hb rfl
    cases cur with
    | nil => exact absurd rfl hne
    | cons y cur => exact h.next hscript
  · rintro ⟨it, w⟩ script ⟨cur, b, h, rfl, hb⟩
    obtain ⟨rfl, hne⟩ := hb rfl
    have hcur := h.current
    cases hc : it.d_currentIter with
    | none => simp [hc] at hcur
    | some iter =>
      rw [hc] at hcur
      rcases cur with _ | ⟨y | e, cur⟩
      · exact absurd rfl hne
      · trivial
      · exact hcur.1 rfl

end MultiIter

namespace Iter

variable {env : Env}

/-- A corpus is passed over, or gives an iterator that follows `items`. -/
def Begins (env : Env) (it : MultiIter Iter) (tip : ReaderIter) : Option (List (Item Stop Entry)) → Prop
  | none => MultiIter.openTip env (start env) it tip () = (.ok none, ())
  | some items =>
    ∃ reader iter, MultiIter.openTip env (start env) it tip () = (.ok (some (reader, iter)), ()) ∧ iter.Follow env items

theorem follow_multi {it : MultiIter Iter} (stock : ReaderIter → List (Item Stop Entry)) (hcur : it.d_currentIter = none)
    (hint : it.d_interrupted = false)
    (h : ∀ tip ∈ it.d_iters, ∃ given, Begins env it tip given ∧ given.getD [] = stock tip) :
    (Iter.multi it).Follow env (it.d_iters.flatMap fun tip => underItems tip.name (stock tip)) := by
  choose! given hgiven using h
  obtain ⟨n, hn⟩ := exists_fuel (P := fun tip fuel => ∀ rdr,
    MultiIter.Begins (body env fuel) (MultiIter.openTip env (start env)) rdr it tip (given tip)) it.d_iters <| by
    intro tip htip
    have hbegins := (hgiven tip htip).1
    cases hg : given tip with
    | none =>
      rw [hg] at hbegins
      exact ⟨0, fun _ _ _ it' w hreq => ⟨(), (openTip_request hreq tip).trans hbegins⟩⟩
    | some items =>
      rw [hg] at hbegins
      obtain ⟨reader, iter, ho, n, hn⟩ := hbegins
      exact ⟨n, fun fuel hfuel rdr it' w hreq =>
        ⟨reader, iter, (), (openTip_request hreq tip).trans ho, hn fuel hfuel rdr⟩⟩
  have hstock : it.stock given [] = it.d_iters.flatMap fun tip => underItems tip.name (stock tip) := by
    rw [MultiIter.stock, underItems, List.map_nil, List.nil_append]
    exact List.flatMap_congr fun tip htip => by rw [(hgiven tip htip).2]
  refine ⟨n + 1, fun fuel hfuel rdr => ?_⟩
  obtain ⟨k, rfl⟩ : ∃ k, fuel = k + 1 := ⟨fuel - 1, by omega⟩
  have hgoing : MultiIter.Going (body env k) (MultiIter.openTip env (start env)) rdr given it () [] false :=
    ⟨hint, fun tip htip => hn k (by omega) tip htip rdr, by rw [hcur]; exact ⟨rfl, rfl⟩⟩
  have hf : Follows ((body env (k + 1)).machine rdr) (multi it, ()) (it.stock given []) false :=
    hgoing.follows.map (fun s => (multi s.1, s.2)) (fun _ => rfl) fun _ => rfl
  rw [hstock] at hf
  exact hf

end Iter

/-! ## A query on many corpora -/

/-- The paths of the entries of all corpora. -/
def MultiCorpusReaderPrivate.paths (m : MultiCorpusReaderPrivate) (names : Str → List Str) : List Str :=
  m.corporaMap.entries.flatMap fun c => (names c.1).map fun n => c.1 ++ 47 :: n

theorem MultiCorpusReaderPrivate.nil_notMem_paths (m : MultiCorpusReaderPrivate) (names : Str → List Str) :
    [] ∉ m.paths names := by
  intro hmem
  obtain ⟨c, -, hp⟩ := List.mem_flatMap.mp hmem
  obtain ⟨n, -, hnil⟩ := List.mem_map.mp hp
  simp at hnil

/-- The listing of corpora that are refused, or list `names`. -/
theorem MultiCorpusReaderPrivate.lists_corpora {env : Env} {sortOrder : SortOrder} (m : MultiCorpusReaderPrivate)
    (names : Str × (Str × Bool) → List Str)
    (h : ∀ c ∈ m.corporaMap.entries, (∃ e, openCorpus env c.2 = .error (.raised e) ∧ e.isOpenError = true ∧ names c = []) ∨
      ∃ reader, openCorpus env c.2 = .ok reader ∧ (Reader.corpus reader).Lists env sortOrder (names c)) :
    ∃ es, (Iter.multi (.ofEntries m.corporaMap sortOrder)).Deliver env es ∧
      es.map Entry.name = m.corporaMap.entries.flatMap fun c => (names c).map fun n => c.1 ++ 47 :: n := by
  have hopens : ∀ c ∈ m.corporaMap.entries, ∃ es : List Entry, es.map Entry.name = names c ∧
      ∃ given, Iter.Opens env (.ofEntries m.corporaMap sortOrder) ⟨c.1, c.2.1, c.2.2⟩ given ∧ given.getD [] = es := by
    intro c hc
    rcases h c hc with ⟨e, hopen, he, hnil⟩ | ⟨reader, hopen, it, es, hit, hd, hnames⟩
    · exact ⟨[], hnil.symm, none, Iter.opens_refused hopen he, rfl⟩
    · exact ⟨es, hnames, some es, Iter.opens_started hopen hit hd, rfl⟩
  choose! es hes using hopens
  have hfresh := @Iter.fresh_multi env (.ofEntries m.corporaMap sortOrder) (fun tip => es (tip.name, (tip.filename, tip.recursive))) rfl rfl fun tip htip => ?_
  · refine ⟨_, hfresh.deliver, ?_⟩
    show ((MultiIter.readerIters m.corporaMap).flatMap _).map Entry.name = _
    rw [MultiIter.readerIters, List.flatMap_map, List.map_flatMap]
    refine List.flatMap_congr fun c hc => ?_
    rw [← (hes c hc).1, under, List.map_map, List.map_map]
    rfl
  · obtain ⟨c, hc, rfl⟩ := List.mem_map.mp htip
    exact (hes c hc).2

/-- Every corpus is refused, or stocks the entries of its name; and no longer
name begins the path of one of them. -/
structure AllStock (env : Env) (sortOrder : SortOrder) (m : MultiCorpusReaderPrivate) (names : Str → List Str)
    (doc : Str → Except Exn Str) : Prop where
  corpora : ∀ c ∈ m.corporaMap.entries,
    (∃ e, openCorpus env c.2 = .error (.raised e) ∧ e.isOpenError = true ∧ names c.1 = []) ∨
      ∃ reader, openCorpus env c.2 = .ok reader ∧
        Stocks env sortOrder (.corpus reader) (names c.1) fun n => doc (c.1 ++ 47 :: n)
  named : ∀ c ∈ m.corporaMap.entries, c.1 ≠ []
  longest : ∀ c ∈ m.corporaMap.entries, ∀ n ∈ names c.1,
    ∀ c' ∈ m.corporaMap.entries, c'.1 <+: c.1 ++ 47 :: n → c'.1.length ≤ c.1.length

namespace AllStock

variable {env : Env} {sortOrder : SortOrder} {m : MultiCorpusReaderPrivate} {names : Str → List Str} {doc : Str → Except Exn Str}

/-- A corpus that has names is open. -/
theorem opened (h : AllStock env sortOrder m names doc) {c : Str × (Str × Bool)} (hc : c ∈ m.corporaMap.entries) {n : Str}
    (hn : n ∈ names c.1) : ∃ reader, openCorpus env c.2 = .ok reader ∧
      Stocks env sortOrder (.corpus reader) (names c.1) fun n => doc (c.1 ++ 47 :: n) := by
  rcases h.corpora c hc with ⟨e, -, -, hnil⟩ | hopen
  · rw [hnil] at hn
    cases hn
  · exact hopen

theorem nodup (h : AllStock env sortOrder m names doc) : (m.paths names).Nodup := by
  rw [MultiCorpusReaderPrivate.paths, List.nodup_flatMap]
  constructor
  · intro c hc
    refine List.Nodup.map (fun n n' heq => by simpa using heq) ?_
    rcases h.corpora c hc with ⟨e, -, -, hnil⟩ | ⟨reader, -, hstocks⟩
    · rw [hnil]
      exact List.nodup_nil
    · exact hstocks.nodup
  · refine List.Pairwise.imp_of_mem ?_ m.corporaMap.sorted
    intro c c' hc hc' hlt path hp hp'
    obtain ⟨e, he, rfl⟩ := List.mem_map.mp hp
    obtain ⟨e', he', heq⟩ := List.mem_map.mp hp'
    have hbegins : c.1 <+: c.1 ++ 47 :: e := List.prefix_append _ _
    have hbegins' : c'.1 <+: c.1 ++ 47 :: e := heq ▸ List.prefix_append _ _
    have hlen : c.1.length = c'.1.length :=
      le_antisymm (h.longest c' hc' e' he' c hc (heq ▸ hbegins)) (h.longest c hc e he c' hc' hbegins')
    rw [MultiCorpusReaderPrivate.prefix_eq_of_length hbegins hbegins' hlen, strictWeak_nameCompare.irrefl] at hlt
    cases hlt

theorem read (h : AllStock env sortOrder m names doc) :
    ∀ p ∈ m.paths names, (Reader.multi m).read env p [] = (doc p).mapError .raised := by
  intro p hp
  obtain ⟨c, hc, hp⟩ := List.mem_flatMap.mp hp
  obtain ⟨n, hn, rfl⟩ := List.mem_map.mp hp
  obtain ⟨reader, hopen, hstocks⟩ := h.opened hc hn
  refine Eq.trans ?_ (hstocks.read n hn)
  rw [read_nil, Reader.readEntry, MultiCorpusReaderPrivate.readEntry_longest _ _ (h.named c hc) hc (h.longest c hc n hn), hopen]
  rfl

/-- The entries of one corpus are among those of all. -/
theorem evaluates {queries : List Str} (h : Evaluates env doc queries (m.paths names)) {c : Str × (Str × Bool)}
    (hc : c ∈ m.corporaMap.entries) : Evaluates env (fun n => doc (c.1 ++ 47 :: n)) queries (names c.1) :=
  fun n hn => h (c.1 ++ 47 :: n) (List.mem_flatMap.mpr ⟨c, hc, List.mem_map_of_mem hn⟩)

/-- The first stage, which every corpus is asked for. -/
theorem follow (h : AllStock env sortOrder m names doc) {q : Str} (h₁ : splitString q = [q])
    (hq : env.parse (FilterIter.cStr q) = true) (heval : Evaluates env doc [q] (m.paths names)) :
    (Iter.multi (.ofQuery m.corporaMap q .xpath sortOrder)).Follow env
      ((m.paths names).flatMap fun p => groupItems p (answerTo env doc [q] p)) := by
  have hf := @Iter.follow_multi env (.ofQuery m.corporaMap q .xpath sortOrder)
    (fun tip => (names tip.name).flatMap fun n => groupItems n (answerTo env (fun n => doc (tip.name ++ 47 :: n)) [q] n))
    rfl rfl fun tip htip => ?_
  · have hstock : ((MultiIter.readerIters m.corporaMap).flatMap fun tip => underItems tip.name
        ((names tip.name).flatMap fun n => groupItems n (answerTo env (fun n => doc (tip.name ++ 47 :: n)) [q] n))) =
          (m.paths names).flatMap fun p => groupItems p (answerTo env doc [q] p) := by
      rw [MultiIter.readerIters, MultiCorpusReaderPrivate.paths, List.flatMap_map, List.flatMap_assoc]
      refine List.flatMap_congr fun c _ => ?_
      rw [underItems, List.map_flatMap, List.flatMap_map]
      exact List.flatMap_congr fun n _ => underItems_group c.1 n _
    exact hstock ▸ hf
  · obtain ⟨c, hc, rfl⟩ := List.mem_map.mp htip
    rcases h.corpora c hc with ⟨e, hopen, he, hnil⟩ | ⟨reader, hopen, hstocks⟩
    · exact ⟨none, Iter.opens_refused hopen he, by rw [hnil]; rfl⟩
    · obtain ⟨it, hit, hf⟩ := hstocks.follow hq (evaluates heval hc)
      have hstart : Iter.start env reader (.ofQuery m.corporaMap q .xpath sortOrder) () = (.ok it, ()) :=
        Prod.ext ((start_query hstocks.base h₁).trans hit) rfl
      refine ⟨some _, ⟨reader, it, ?_, hf⟩, rfl⟩
      simp [MultiIter.openTip, hopen, hstart]

/-- **Many corpora resume.** The entries of every corpus that opens, one
corpus after the other: an entry that cannot be read throws once, and ends
neither its corpus nor those that follow. -/
theorem answers {q : Str} (h : AllStock env sortOrder m names doc) (hq : Accepted env (splitString q))
    (heval : Evaluates env doc (splitString q) (m.paths names)) :
    ∃ it, (Reader.multi m).query env .xpath q sortOrder = .ok it ∧
      it.Follow env ((m.paths names).flatMap fun p => groupItems p (answerTo env doc (splitString q) p)) := by
  cases hs : splitString q with
  | nil => exact absurd hs (splitString_ne_nil q)
  | cons q₁ queries =>
    rw [hs] at hq heval
    obtain ⟨hq₁, hqs⟩ := List.forall_mem_cons.mp hq
    obtain ⟨heval₁, hevals⟩ := heval.cons
    have hf := h.follow (splitString_stage (show q₁ ∈ splitString q by simp [hs])) hq₁ heval₁
    obtain ⟨it, hit, hf'⟩ := follow_stages h.nodup (m.nil_notMem_paths names) h.read queries [q₁] _ (by simp) hf hqs hevals
    exact ⟨it, by rw [multi_query m hs, hit], hf'⟩

/-- The listing of all corpora. -/
theorem lists (h : AllStock env sortOrder m names doc) :
    ∃ es, (Iter.multi (.ofEntries m.corporaMap sortOrder)).Deliver env es ∧ es.map Entry.name = m.paths names :=
  m.lists_corpora (fun c => names c.1) fun c hc => (h.corpora c hc).imp_right fun ⟨reader, hopen, hstocks⟩ =>
    ⟨reader, hopen, hstocks.lists⟩

/-- A recursive reader over the same corpora stocks their paths. -/
theorem recursive (h : AllStock env sortOrder m names doc) {r : RecursiveCorpusReaderPrivate} (hr : r.multiReader = m) :
    Stocks env sortOrder (.corpus (.recursive r)) (m.paths names) doc := by
  obtain ⟨es, hd, hes⟩ := h.lists
  refine ⟨usesRunXPath_recursive env r, ⟨_, es, by rw [← hr] at hd ⊢; rfl, hd, hes⟩, h.nodup, m.nil_notMem_paths names,
    fun p hp => ?_⟩
  have hsteady : (Reader.corpus (.recursive r)).Steady := trivial
  rw [hsteady.gives_iff, ← h.read p hp, ← hr]
  exact r.readEntry_eq env p

end AllStock

/-- **Both ways resume.** With entries that cannot be read, too, the reader of
many corpora and a recursive reader over them give the same: the values by
entry, and one failure for each entry that throws. -/
theorem both_resume {env : Env} {sortOrder : SortOrder} {m : MultiCorpusReaderPrivate} {names : Str → List Str}
    {doc : Str → Except Exn Str} {q : Str} (h : AllStock env sortOrder m names doc) (hq : Accepted env (splitString q))
    (heval : Evaluates env doc (splitString q) (m.paths names)) :
    ∃ items, items = (m.paths names).flatMap (fun p => groupItems p (answerTo env doc (splitString q) p)) ∧
      (∃ it, (Reader.multi m).query env .xpath q sortOrder = .ok it ∧ it.Follow env items) ∧
      ∀ r : RecursiveCorpusReaderPrivate, r.multiReader = m →
        ∃ it, (Reader.corpus (.recursive r)).query env .xpath q sortOrder = .ok it ∧ it.Follow env items :=
  ⟨_, rfl, h.answers hq heval, fun _ hr => (h.recursive hr).answers hq heval⟩

/-- Three corpora: one with an entry that cannot be read, one that does not
open, and one that is whole. -/
def brokenBanks : MultiCorpusReaderPrivate :=
  ((MultiCorpusReaderPrivate.empty.register (str "a") (str "a.index") false).register (str "b") (str "b.index") false).register
    (str "c") (str "c.index") false

def brokenEnv : Env :=
  { sampleEnv [(str "c.index", sampleDocs)] sampleValues with
    openCompact := fun p =>
      if p = str "a.index" then .ok brokenCorpus
      else if p = str "c.index" then .ok (sampleCorpus sampleDocs)
      else raise (.openError p []) }

def brokenNames (name : Str) : List Str :=
  if name = str "a" then [str "1.xml", str "0.xml", str "2.xml"] else if name = str "c" then [str "1.xml", str "2.xml"] else []

theorem allStock_broken : AllStock brokenEnv .naturalOrder brokenBanks brokenNames fun p => brokenDoc (p.drop 2) := by
  have hentries : brokenBanks.corporaMap.entries =
      [(str "a", (str "a.index", false)), (str "b", (str "b.index", false)), (str "c", (str "c.index", false))] := by decide
  have hsep : brokenBanks.Separate := by
    unfold MultiCorpusReaderPrivate.Separate
    decide
  refine ⟨fun c hc => ?_, by decide, fun c hc n _ => hsep.longest hc n⟩
  simp only [hentries, List.mem_cons, List.not_mem_nil, or_false] at hc
  rcases hc with rfl | rfl | rfl
  · refine .inr ⟨_, rfl, usesRunXPath_compact _ _, ⟨_, _, rfl, Iter.deliver_index _, by decide⟩, by decide, by decide, ?_⟩
    have hsteady : (Reader.corpus (.leaf (.compact brokenCorpus))).Steady := fun _ _ => rfl
    simp only [hsteady.gives_iff]
    decide
  · exact .inl ⟨_, rfl, rfl, by decide⟩
  · refine .inr ⟨_, rfl, usesRunXPath_compact _ _, ⟨_, _, rfl, Iter.deliver_index _, by decide⟩, by decide, by decide, ?_⟩
    simp only [(sampleCorpus_steady _).gives_iff]
    decide

/-- The failure of the first corpus, and the values of both others. -/
def brokenItems : List (Item Stop Entry) :=
  [.raises (.raised .lengthError), given (str "a/2.xml") (str "y"), given (str "a/2.xml") (str "z"),
    given (str "c/2.xml") (str "y"), given (str "c/2.xml") (str "z")]

theorem sample_both_resume :
    (∃ it, (Reader.multi brokenBanks).query brokenEnv .xpath (str "//b+|+//a") .naturalOrder = .ok it ∧
      it.Follow brokenEnv brokenItems) ∧
      ∀ r : RecursiveCorpusReaderPrivate, r.multiReader = brokenBanks →
        ∃ it, (Reader.corpus (.recursive r)).query brokenEnv .xpath (str "//b+|+//a") .naturalOrder = .ok it ∧
          it.Follow brokenEnv brokenItems := by
  have hq : Accepted brokenEnv (splitString (str "//b+|+//a")) := by decide
  obtain ⟨items, hitems, h⟩ := both_resume allStock_broken hq fun _ _ _ _ _ _ => rfl
  obtain rfl : items = brokenItems := by
    rw [hitems]
    decide
  exact h

end AlpinoCorpus
