/-
Registration with a reader of many corpora. `push_back` keeps a list, which
the size is counted over, and a map, which the iterator goes through. The
map takes two names for one when `NameCompare` puts neither before the other
(`a1` and `a01`), and then the later corpus replaces the earlier one.
-/
import AlpinoCorpus.Pipeline
import AlpinoCorpus.ReaderFacts

namespace AlpinoCorpus

open Iteration OrdMap

/-- A name, its file, and whether the file is searched for corpora. -/
abbrev Registration := Str × (Str × Bool)

namespace MultiCorpusReaderPrivate

/-- A sequence of `push_back` calls. -/
def pushAll (env : Env) (ps : List Registration) (m : MultiCorpusReaderPrivate) : Outcome MultiCorpusReaderPrivate :=
  ps.foldlM (fun m p => m.pushBack env p.1 p.2.1 p.2.2) m

def registerAll (ps : List Registration) (m : MultiCorpusReaderPrivate) : MultiCorpusReaderPrivate :=
  ps.foldl (fun m p => m.register p.1 p.2.1 p.2.2) m

theorem pushAll_ok {env : Env} : ∀ {ps : List Registration} {m m' : MultiCorpusReaderPrivate},
    pushAll env ps m = .ok m' → m' = registerAll ps m
  | [], m, m', h => by
    injection h with h
    exact h.symm
  | p :: ps, m, m', h => by
    rw [pushAll, List.foldlM_cons] at h
    obtain ⟨m₁, h₁, h⟩ := bind_ok_iff.mp h
    obtain ⟨b, -, h₁⟩ := bind_ok_iff.mp h₁
    split at h₁
    · injection h₁ with h₁
      rw [← h₁] at h
      change m' = registerAll ps (m.register p.1 p.2.1 p.2.2)
      exact pushAll_ok h
    · cases h₁

theorem corpora_registerAll : ∀ (ps : List Registration) (m : MultiCorpusReaderPrivate),
    (registerAll ps m).corpora = m.corpora ++ ps.map Prod.snd
  | [], m => by simp [registerAll]
  | p :: ps, m => by
    have ih := corpora_registerAll ps (m.register p.1 p.2.1 p.2.2)
    rw [registerAll, List.foldl_cons]
    unfold registerAll at ih
    rw [ih]
    simp [register]

theorem entries_registerAll : ∀ (ps : List Registration) (m : MultiCorpusReaderPrivate),
    (registerAll ps m).corporaMap.entries = assignAll nameCompare ps m.corporaMap.entries
  | [], _ => rfl
  | p :: ps, m => entries_registerAll ps (m.register p.1 p.2.1 p.2.2)

/-- Every corpus in the list is in the map, or has been replaced there. -/
theorem corpora_perm (ps : List Registration) :
    ((registerAll ps empty).corporaMap.entries.map Prod.snd ++ replaced nameCompare ps []).Perm (registerAll ps empty).corpora := by
  rw [entries_registerAll, corpora_registerAll]
  have h : ((assignAll nameCompare ps []).map Prod.snd ++ replaced nameCompare ps []).Perm (ps.map Prod.snd ++ [].map Prod.snd) :=
    assignAll_values_perm strictWeak_nameCompare List.Pairwise.nil
  simpa [empty, Corpora.empty] using h

end MultiCorpusReaderPrivate

/-! ## Directories searched for corpora -/

namespace RecursiveCorpusReaderPrivate

/-- What the constructor registers of the files found. -/
def found (d_directory : Str) (dactOnly : Bool) (paths : List Str) : List Registration :=
  paths.filterMap fun path =>
    if extension path ≠ str ".dact" ∧ (dactOnly ∨ extension path ≠ str ".index") then none
    else some ((dropExtension path).drop (d_directory.length + 1), (path, false))

theorem registerFiles_ok {env : Env} {d : Str} {dactOnly : Bool} : ∀ {paths : List Str} {r r' : RecursiveCorpusReaderPrivate},
    registerFiles env d dactOnly paths r = .ok r' →
      r'.multiReader = MultiCorpusReaderPrivate.registerAll (found d dactOnly paths) r.multiReader
  | [], r, r', h => by
    injection h with h
    rw [← h]
    rfl
  | path :: paths, r, r', h => by
    rw [registerFiles] at h
    by_cases hskip : extension path ≠ str ".dact" ∧ (dactOnly ∨ extension path ≠ str ".index")
    · rw [if_pos hskip] at h
      rw [found, List.filterMap_cons, if_pos hskip]
      exact registerFiles_ok h
    · rw [if_neg hskip] at h
      rw [found, List.filterMap_cons, if_neg hskip]
      obtain ⟨b, -, h⟩ := bind_ok_iff.mp h
      split at h
      · exact registerFiles_ok h
      · cases h

theorem construct_ok {env : Env} {directory : Str} {dactOnly : Bool} {r : RecursiveCorpusReaderPrivate}
    (h : construct env directory dactOnly = .ok r) :
    ∃ d, directoryPath directory = .ok d ∧
      r.multiReader = MultiCorpusReaderPrivate.registerAll (found d dactOnly (env.listing d)) .empty := by
  obtain ⟨d, hd, h⟩ := bind_ok_iff.mp h
  obtain ⟨b, -, h⟩ := bind_ok_iff.mp h
  split at h
  · cases h
  · exact ⟨d, hd, registerFiles_ok h⟩

end RecursiveCorpusReaderPrivate

/-! ## What is counted and what is delivered -/

/-- The entries of a corpus inside a directory, none if it does not open. -/
def plainCount (env : Env) (corpus : Str × Bool) : Nat :=
  MultiCorpusReaderPrivate.sizeOfCorpus (fun c => factoryOpen env c.1) (fun l => (l.entries env .naturalOrder).length) corpus

theorem Corpora.length_listing {ρ : Type} (opener : Str × Bool → Outcome ρ) (entries : ρ → List Entry) (corpora : Corpora) :
    (corpora.listing opener entries).length =
      ((corpora.entries.map Prod.snd).map (MultiCorpusReaderPrivate.sizeOfCorpus opener fun r => (entries r).length)).sum := by
  rw [Corpora.listing, List.length_flatMap, List.map_map]
  congr 1
  refine List.map_congr_left fun c _ => ?_
  simp only [Function.comp, MultiCorpusReaderPrivate.sizeOfCorpus]
  cases opener c.2 with
  | error s => rfl
  | ok reader => simp [under]

namespace Corpus

/-- What `getSize` counts, when it returns. -/
def counted (env : Env) : Corpus → Nat
  | leaf l => (l.entries env .naturalOrder).length
  | recursive r => (r.multiReader.corpora.map (plainCount env)).sum

/-- What a run delivers. -/
def delivered (env : Env) (c : Corpus) : Nat := (c.entries env .naturalOrder).length

theorem length_entries (env : Env) (c : Corpus) (sortOrder : SortOrder) :
    (c.entries env sortOrder).length = c.delivered env := by
  cases c with
  | leaf l => exact (l.entries_perm env sortOrder).length_eq
  | recursive r =>
    simp only [delivered, entries, Corpora.length_listing]
    congr 2
    funext c
    simp only [MultiCorpusReaderPrivate.sizeOfCorpus]
    cases factoryOpen env c.1 with
    | error s => rfl
    | ok l => exact (l.entries_perm env sortOrder).length_eq

/-- Every corpus registered inside opens, or is refused with `OpenError`. -/
def Countable (env : Env) : Corpus → Prop
  | leaf _ => True
  | recursive r => ∀ c ∈ r.multiReader.corpora, Opened (factoryOpen env c.1)

theorem getSize_iff {env : Env} {c : Corpus} {n : Nat} :
    c.getSize env = .ok n ↔ c.Countable env ∧ n = c.counted env := by
  cases c with
  | leaf l =>
    rw [getSize, l.getSize_eq env .naturalOrder]
    simp [counted, Countable, eq_comm]
  | recursive r =>
    rw [getSize, RecursiveCorpusReaderPrivate.getSize,
      MultiCorpusReaderPrivate.getSizeLoop_ok fun l => (l.entries env .naturalOrder).length]
    · rw [Nat.zero_add]
      refine and_congr_left' (forall₂_congr fun c _ => and_iff_left fun l _ => ?_)
      exact ⟨_, l.getSize_eq env .naturalOrder⟩
    · intro c _ l _ n hn
      rw [l.getSize_eq env .naturalOrder] at hn
      injection hn with hn
      exact hn.symm

end Corpus

/-- What is found in a directory that is searched for corpora. -/
def foundInside (env : Env) (directory : Str) : List Registration :=
  match directoryPath directory with
  | .ok d => RecursiveCorpusReaderPrivate.found d true (env.listing d)
  | .error _ => []

theorem openCorpus_recursive {env : Env} {c : Str × Bool} {reader : Corpus} (h : openCorpus env c = .ok reader) :
    (c.2 = false ∧ ∃ l, reader = .leaf l) ∨
      (c.2 = true ∧ ∃ r, reader = .recursive r ∧
        r.multiReader = MultiCorpusReaderPrivate.registerAll (foundInside env c.1) .empty) := by
  rcases openCorpus_ok h with ⟨hc, l, -, hl⟩ | ⟨hc, r, hr, heq⟩
  · exact .inl ⟨hc, l, hl.symm⟩
  · obtain ⟨d, hd, hm⟩ := RecursiveCorpusReaderPrivate.construct_ok hr
    exact .inr ⟨hc, r, heq.symm, by rw [hm, foundInside, hd]⟩

/-- The corpora that lose their name to a later one in the same directory. -/
def replacedInside (env : Env) (directory : Str) : List (Str × Bool) := replaced nameCompare (foundInside env directory) []

/-- Of a directory that is searched for corpora: what is found opens, or is
refused with `OpenError`, and what loses its name has no entries. -/
def KeptInside (env : Env) (corpus : Str × Bool) : Prop :=
  corpus.2 = true → (∀ p ∈ foundInside env corpus.1, Opened (factoryOpen env p.2.1)) ∧
    ∀ c ∈ replacedInside env corpus.1, plainCount env c = 0

theorem sum_eq_zero_iff (xs : List Nat) : xs.sum = 0 ↔ ∀ x ∈ xs, x = 0 := by
  induction xs with
  | nil => simp
  | cons x xs ih => simp [ih]

/-- More is counted than delivered by what loses its name. -/
theorem counted_eq {env : Env} {c : Str × Bool} {reader : Corpus} (h : openCorpus env c = .ok reader) :
    reader.delivered env ≤ reader.counted env ∧
      (KeptInside env c ↔ reader.Countable env ∧ reader.counted env = reader.delivered env) := by
  rcases openCorpus_recursive h with ⟨hc, l, rfl⟩ | ⟨hc, r, rfl, hr⟩
  · exact ⟨le_rfl, by simp [KeptInside, hc, Corpus.Countable, Corpus.counted, Corpus.delivered, Corpus.entries]⟩
  · have hperm := ((MultiCorpusReaderPrivate.corpora_perm (foundInside env c.1)).map (plainCount env)).sum_eq
    have hcorpora := MultiCorpusReaderPrivate.corpora_registerAll (foundInside env c.1) .empty
    rw [← hr] at hperm hcorpora
    have hdelivered : (Corpus.recursive r).delivered env =
        ((r.multiReader.corporaMap.entries.map Prod.snd).map (plainCount env)).sum := by
      rw [Corpus.delivered, Corpus.entries, Corpora.length_listing]
      rfl
    rw [List.map_append, List.sum_append, ← hdelivered] at hperm
    have hcounted : (Corpus.recursive r).counted env = (Corpus.recursive r).delivered env +
        ((replacedInside env c.1).map (plainCount env)).sum := hperm.symm
    have hfound : (Corpus.recursive r).Countable env ↔ ∀ p ∈ foundInside env c.1, Opened (factoryOpen env p.2.1) := by
      rw [Corpus.Countable, hcorpora]
      exact List.forall_mem_map
    refine ⟨by omega, ?_⟩
    have hzero := sum_eq_zero_iff ((replacedInside env c.1).map (plainCount env))
    rw [List.forall_mem_map] at hzero
    rw [KeptInside, ← hfound, ← hzero]
    constructor
    · intro h
      exact ⟨(h hc).1, by have := (h hc).2; omega⟩
    · rintro ⟨h₁, h₂⟩ -
      exact ⟨h₁, by omega⟩

/-- What can be counted can be delivered. -/
theorem Corpus.Countable.settled {env : Env} {c : Str × Bool} {reader : Corpus} (ho : openCorpus env c = .ok reader)
    (h : reader.Countable env) : reader.Settled env := by
  rcases openCorpus_recursive ho with ⟨-, l, rfl⟩ | ⟨-, r, rfl, hr⟩
  · trivial
  · intro e he
    have hperm := MultiCorpusReaderPrivate.corpora_perm (foundInside env c.1)
    rw [← hr] at hperm
    exact h e.2 (hperm.subset (List.mem_append_left _ (List.mem_map_of_mem he)))

/-! ## Full runs -/

namespace MultiCorpusReaderPrivate

/-- A full run of `entries` takes the corpora `visited` off the list, and
delivers `es`. -/
def Visits (env : Env) (m : MultiCorpusReaderPrivate) (sortOrder : SortOrder) (visited : List ReaderIter) (es : List Entry) :
    Prop :=
  ∃ n, ∀ fuel ≥ n, ∀ rdr, ∃ rounds it,
    exhaust ((Iter.body env fuel).machine rdr) .unfinished rounds (.multi (.ofEntries m.corporaMap sortOrder), ()) =
      (.ok es, (.multi it, ())) ∧ MultiIter.readerIters m.corporaMap = visited ++ it.d_iters

theorem visits_settled {env : Env} {m : MultiCorpusReaderPrivate} (h : m.Settled env) (sortOrder : SortOrder) :
    Visits env m sortOrder (MultiIter.readerIters m.corporaMap) (m.entries env sortOrder) := by
  obtain ⟨n, hn⟩ := (fresh_entries h sortOrder).exhaust
  refine ⟨n, fun fuel hfuel rdr => ?_⟩
  obtain ⟨rounds, it, hrun, hend⟩ := hn fuel hfuel rdr
  exact ⟨rounds, it, hrun, by rw [hend, List.append_nil]⟩

theorem Visits.unique {env : Env} {m : MultiCorpusReaderPrivate} {sortOrder : SortOrder} {visited visited' : List ReaderIter}
    {es es' : List Entry} (h : Visits env m sortOrder visited es) (h' : Visits env m sortOrder visited' es') :
    visited = visited' ∧ es = es' := by
  obtain ⟨n, hn⟩ := h
  obtain ⟨n', hn'⟩ := h'
  obtain ⟨k, it, hrun, hv⟩ := hn (max n n') (le_max_left n n') (.multi m)
  obtain ⟨k', it', hrun', hv'⟩ := hn' (max n n') (le_max_right n n') (.multi m)
  have h₁ := exhaust_of_le hrun (le_max_left k k')
  rw [exhaust_of_le hrun' (le_max_right k k')] at h₁
  simp only [Prod.mk.injEq, Except.ok.injEq, Iter.multi.injEq, and_true] at h₁
  obtain ⟨rfl, rfl⟩ := h₁
  rw [hv] at hv'
  exact ⟨List.append_cancel_right hv', rfl⟩

/-! ## What registration keeps -/

/-- Every corpus registered is visited once, under its own name and with its
own file, and the size is the number of entries delivered. -/
def NothingLost (env : Env) (ps : List Registration) (m : MultiCorpusReaderPrivate) (sortOrder : SortOrder) : Prop :=
  ∃ visited es, Visits env m sortOrder visited es ∧ visited.Perm (ps.map fun p => ⟨p.1, p.2.1, p.2.2⟩) ∧
    m.getSize env = .ok es.length

variable {env : Env} {ps : List Registration} {m : MultiCorpusReaderPrivate} {sortOrder : SortOrder}

theorem getSize_registered {n : Nat} (hm : m = registerAll ps empty) (hopen : ∀ p ∈ ps, ∃ c, openCorpus env p.2 = .ok c) :
    m.getSize env = .ok n ↔ (∀ p ∈ ps, ∀ c, openCorpus env p.2 = .ok c → c.Countable env) ∧
      n = ((ps.map Prod.snd).map (sizeOfCorpus (openCorpus env) (Corpus.counted env))).sum := by
  have hcorpora : m.corpora = ps.map Prod.snd := by rw [hm, corpora_registerAll]; rfl
  rw [getSize, hcorpora, getSizeLoop_ok (Corpus.counted env), Nat.zero_add, List.forall_mem_map]
  · refine and_congr_left' (forall₂_congr fun p hp => ?_)
    constructor
    · rintro ⟨-, h⟩ c hc
      obtain ⟨n, hn⟩ := h c hc
      exact (Corpus.getSize_iff.mp hn).1
    · intro h
      obtain ⟨c, hc⟩ := hopen p hp
      exact ⟨.inl ⟨c, hc⟩, fun c hc => ⟨_, Corpus.getSize_iff.mpr ⟨h c hc, rfl⟩⟩⟩
  · intro c _ reader _ n hn
    exact (Corpus.getSize_iff.mp hn).2

theorem length_entries (env : Env) (m : MultiCorpusReaderPrivate) (sortOrder : SortOrder) :
    (m.entries env sortOrder).length =
      ((m.corporaMap.entries.map Prod.snd).map (sizeOfCorpus (openCorpus env) (Corpus.delivered env))).sum := by
  rw [entries, Corpora.length_listing]
  congr 2
  funext c
  simp only [sizeOfCorpus, Corpus.length_entries]

/-- What registered corpora are in the map opens without other errors. -/
theorem settled_registered (hm : m = registerAll ps empty) (hopen : ∀ p ∈ ps, ∃ c, openCorpus env p.2 = .ok c)
    (hcount : ∀ p ∈ ps, ∀ c, openCorpus env p.2 = .ok c → c.Countable env) : m.Settled env := by
  intro c hc
  have hperm := corpora_perm ps
  rw [← hm, show m.corpora = ps.map Prod.snd by rw [hm, corpora_registerAll]; rfl] at hperm
  obtain ⟨p, hp, hpc⟩ := List.mem_map.mp (hperm.subset (List.mem_append_left _ (List.mem_map_of_mem hc)))
  rw [← hpc]
  exact ⟨.inl (hopen p hp), fun reader ho => (hcount p hp reader ho).settled ho⟩

/-- Names that the map tells apart are all in it. -/
theorem entries_perm (hm : m = registerAll ps empty) (h : ps.Pairwise fun p q => ¬StrictWeak.Equiv nameCompare p.1 q.1) :
    m.corporaMap.entries.Perm ps := by
  rw [hm, entries_registerAll]
  have hperm : (assignAll nameCompare ps []).Perm (ps ++ []) := assignAll_perm (by simp) h
  simpa [empty, Corpora.empty] using hperm

/-- Every registration being visited, the names are told apart. -/
theorem pairwise_of_visited (hm : m = registerAll ps empty)
    (h : (MultiIter.readerIters m.corporaMap).length = ps.length) :
    ps.Pairwise fun p q => ¬StrictWeak.Equiv nameCompare p.1 q.1 := by
  have hlen := (corpora_perm ps).length_eq
  rw [← hm, show m.corpora = ps.map Prod.snd by rw [hm, corpora_registerAll]; rfl, List.length_append, List.length_map,
    List.length_map] at hlen
  rw [MultiIter.readerIters, List.length_map] at h
  have hnil : replaced nameCompare ps [] = [] := List.length_eq_zero_iff.mp (by omega)
  exact (pairwise_of_replaced_nil strictWeak_nameCompare List.Pairwise.nil hnil).2

theorem eq_of_sum_eq {α : Type} {f g : α → Nat} : ∀ {xs : List α}, (∀ x ∈ xs, f x ≤ g x) → (xs.map g).sum = (xs.map f).sum →
    ∀ x ∈ xs, g x = f x
  | [], _, _ => nofun
  | x :: xs, hle, hsum => by
    obtain ⟨hx, hxs⟩ := List.forall_mem_cons.mp hle
    have hrest := List.sum_le_sum hxs
    simp only [List.map_cons, List.sum_cons] at hsum
    exact List.forall_mem_cons.mpr ⟨by omega, eq_of_sum_eq hxs (by omega)⟩

/-- **Registration loses nothing** exactly when the names are told apart, at
the top and, as far as it counts, in every directory searched for corpora. -/
theorem nothing_lost_iff (hpush : pushAll env ps empty = .ok m) (hopen : ∀ p ∈ ps, ∃ c, openCorpus env p.2 = .ok c) :
    NothingLost env ps m sortOrder ↔
      (ps.Pairwise fun p q => ¬StrictWeak.Equiv nameCompare p.1 q.1) ∧ ∀ p ∈ ps, KeptInside env p.2 := by
  have hm := pushAll_ok hpush
  have hsizes : ∀ p ∈ ps, ∃ c, openCorpus env p.2 = .ok c ∧
      sizeOfCorpus (openCorpus env) (Corpus.counted env) p.2 = c.counted env ∧
      sizeOfCorpus (openCorpus env) (Corpus.delivered env) p.2 = c.delivered env := fun p hp => by
    obtain ⟨c, hc⟩ := hopen p hp
    exact ⟨c, hc, by simp [sizeOfCorpus, hc], by simp [sizeOfCorpus, hc]⟩
  constructor
  · rintro ⟨visited, es, hvisit, hperm, hsize⟩
    obtain ⟨hcount, hlen⟩ := (getSize_registered hm hopen).mp hsize
    obtain ⟨rfl, rfl⟩ := hvisit.unique (visits_settled (settled_registered hm hopen hcount) sortOrder)
    have hpair := pairwise_of_visited hm (by simpa using hperm.length_eq)
    refine ⟨hpair, fun p hp => ?_⟩
    rw [length_entries, (((entries_perm hm hpair).map Prod.snd).map _).sum_eq] at hlen
    have hle : ∀ c ∈ ps.map Prod.snd, sizeOfCorpus (openCorpus env) (Corpus.delivered env) c ≤
        sizeOfCorpus (openCorpus env) (Corpus.counted env) c := by
      rw [List.forall_mem_map]
      intro p hp
      obtain ⟨c, hc, h₁, h₂⟩ := hsizes p hp
      rw [h₁, h₂]
      exact (counted_eq hc).1
    obtain ⟨c, hc, h₁, h₂⟩ := hsizes p hp
    have heq := eq_of_sum_eq hle hlen.symm p.2 (List.mem_map_of_mem hp)
    rw [h₁, h₂] at heq
    exact (counted_eq hc).2.mpr ⟨hcount p hp c hc, heq⟩
  · rintro ⟨hpair, hkept⟩
    have hcount : ∀ p ∈ ps, ∀ c, openCorpus env p.2 = .ok c → c.Countable env := fun p hp c hc =>
      ((counted_eq hc).2.mp (hkept p hp)).1
    refine ⟨_, _, visits_settled (settled_registered hm hopen hcount) sortOrder, (entries_perm hm hpair).map _, ?_⟩
    rw [getSize_registered hm hopen]
    refine ⟨hcount, ?_⟩
    rw [length_entries, (((entries_perm hm hpair).map Prod.snd).map _).sum_eq]
    congr 1
    refine List.map_congr_left ?_
    rw [List.forall_mem_map]
    intro p hp
    obtain ⟨c, hc, h₁, h₂⟩ := hsizes p hp
    rw [h₁, h₂]
    exact ((counted_eq hc).2.mp (hkept p hp)).2.symm

def twinsEnv : Env :=
  sampleEnv [(str "a.index", [(str "1.xml", str "<a/>"), (str "2.xml", str "<b/>")]),
    (str "b.index", [(str "3.xml", str "<c/>")])] []

def siblings : List Registration := [(str "a1", (str "a.index", false)), (str "a2", (str "b.index", false))]

theorem sample_nothing_lost : NothingLost twinsEnv siblings (registerAll siblings empty) .naturalOrder := by
  have hopen : ∀ p ∈ siblings, ∃ c, openCorpus twinsEnv p.2 = .ok c := by
    intro p hp
    simp only [siblings, List.mem_cons, List.not_mem_nil, or_false] at hp
    rcases hp with rfl | rfl
    · exact ⟨_, rfl⟩
    · exact ⟨_, rfl⟩
  have hpair : siblings.Pairwise fun p q => ¬StrictWeak.Equiv nameCompare p.1 q.1 := by
    unfold StrictWeak.Equiv
    decide
  have hplain : ∀ p ∈ siblings, p.2.2 = false := by decide
  exact (nothing_lost_iff rfl hopen).mpr ⟨hpair, fun p hp h => by rw [hplain p hp] at h; cases h⟩

/-- Two names that differ, but not for the map. -/
def twins : List Registration := [(str "a1", (str "a.index", false)), (str "a01", (str "b.index", false))]

/-- The second corpus takes the place of the first, under the first name; the
size still counts both. -/
theorem equivalent_names_lose_corpus :
    (twins.map Prod.fst).Nodup ∧ ∃ m, pushAll twinsEnv twins empty = .ok m ∧
      (∀ p ∈ twins, ∃ c, openCorpus twinsEnv p.2 = .ok c) ∧ m.getSize twinsEnv = .ok 3 ∧
      Visits twinsEnv m .naturalOrder [⟨str "a1", str "b.index", false⟩] [⟨str "a1/3.xml", []⟩] ∧
      ¬NothingLost twinsEnv twins m .naturalOrder := by
  have hentries : (registerAll twins empty).corporaMap.entries = [(str "a1", (str "b.index", false))] := by decide
  have hsettled : (registerAll twins empty).Settled twinsEnv := by
    refine Settled.of_plain fun c hc => ?_
    obtain rfl : c = (str "a1", (str "b.index", false)) := by simpa [hentries] using hc
    exact ⟨rfl, .inl ⟨_, rfl⟩⟩
  have hvisits : Visits twinsEnv (registerAll twins empty) .naturalOrder [⟨str "a1", str "b.index", false⟩]
      [⟨str "a1/3.xml", []⟩] := by
    have h := visits_settled hsettled .naturalOrder
    have hlist : (registerAll twins empty).entries twinsEnv .naturalOrder = [⟨str "a1/3.xml", []⟩] := by decide
    rw [hlist, MultiIter.readerIters, hentries] at h
    exact h
  refine ⟨by decide, registerAll twins empty, rfl, ?_, by decide, hvisits, ?_⟩
  · intro p hp
    simp only [twins, List.mem_cons, List.not_mem_nil, or_false] at hp
    rcases hp with rfl | rfl
    · exact ⟨_, rfl⟩
    · exact ⟨_, rfl⟩
  · rintro ⟨visited, es, hv, hperm, -⟩
    obtain ⟨rfl, rfl⟩ := hv.unique hvisits
    have := hperm.length_eq
    simp [twins] at this

end MultiCorpusReaderPrivate

end AlpinoCorpus
