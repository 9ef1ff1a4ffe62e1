/-
Handles stand for iterators that are values: `Rep` says which, and with
which cells of the store. A call on a handle answers as the call on the
value does, and writes in those cells only. Reads answer as well, where the
readers that they go through are steady: those are as they were before.
-/
import AlpinoCorpus.BodySims
import AlpinoCorpus.Handles
import AlpinoCorpus.ReaderFacts

namespace AlpinoCorpus

open Iteration
open Store (Loc unused lt_of_getElem? getElem?_set getElem?_set_ne alloc_getElem?)

/-! ## The store -/

theorem Leaf.steady {env : Env} (henv : env.Steady) {path : Str} {l : Leaf} (ho : factoryOpen env path = .ok l) :
    (Reader.corpus (.leaf l)).Steady := by
  rcases factoryOpen_ok ho with ⟨d, rfl⟩ | ⟨c, hc, rfl⟩ | ⟨c, -, rfl⟩
  · trivial
  · exact henv path c hc
  · trivial

theorem Corpus.steady {env : Env} (henv : env.Steady) {corpus : Str × Bool} {reader : Corpus}
    (ho : openCorpus env corpus = .ok reader) : (Reader.corpus reader).Steady := by
  cases reader with
  | recursive r => trivial
  | leaf l => exact Leaf.steady henv (openCorpus_leaf ho)

/-- The reader at `l`, if reads through it do not change it. -/
def Refers (w : World) (l : Loc) (rdr : Reader) : Prop := w.readers[l]? = some rdr ∧ rdr.Steady

theorem Refers.read {w : World} {l : Loc} {rdr : Reader} (h : Refers w l rdr) (env : Env) (entry : Str) (queries : List MarkerQuery) :
    Reads.read env l entry queries w = (rdr.read env entry queries, w) := by
  obtain ⟨hl, hsteady⟩ := h
  have hlt := lt_of_getElem? hl
  simp only [Reads.read, hl, hsteady.after]
  rw [List.getElem?_eq_getElem hlt, Option.some.injEq] at hl
  rw [← hl, List.set_getElem_self]

@[simp] theorem World.set_cells (w : World) (l : Loc) (c : Cell) : (w.set l c).cells = w.cells.set l c := rfl

/-- `w'` comes of `w` by writing in `fp`, by allocating, and by opening
readers that are steady. -/
structure World.Within (fp : Set Loc) (w w' : World) : Prop where
  cells : Store.Within fp w.cells w'.cells
  readers : ∃ opened, w'.readers = w.readers ++ opened ∧ ∀ rdr ∈ opened, rdr.Steady

open World (Within)

namespace World.Within

variable {fp fp' : Set Loc} {w w' w'' : World}

theorem refl (fp : Set Loc) (w : World) : Within fp w w := ⟨.refl _ _, [], by simp, by simp⟩

theorem grows (h : Within fp w w') : w.cells.length ≤ w'.cells.length := h.cells.grows

theorem mono (h : Within fp w w') (hfp : fp ⊆ fp') : Within fp' w w' := ⟨h.cells.mono hfp, h.readers⟩

theorem trans (h : Within fp w w') (h' : Within fp' w' w'') (hfp : fp' ⊆ fp ∪ unused w.cells) : Within fp w w'' := by
  refine ⟨h.cells.trans h'.cells hfp, ?_⟩
  obtain ⟨opened, heq, hsteady⟩ := h.readers
  obtain ⟨opened', heq', hsteady'⟩ := h'.readers
  refine ⟨opened ++ opened', by rw [heq', heq, List.append_assoc], fun rdr hmem => ?_⟩
  exact (List.mem_append.mp hmem).elim (hsteady rdr) (hsteady' rdr)

theorem unused (h : Within fp w w') : Store.unused w'.cells ⊆ Store.unused w.cells := h.cells.unused

theorem footprint {fp'' : Set Loc} (h : Within fp w w') (hfp' : fp' ⊆ fp ∪ Store.unused w.cells)
    (hfp'' : fp'' ⊆ fp' ∪ Store.unused w'.cells) : fp'' ⊆ fp ∪ Store.unused w.cells := h.cells.footprint hfp' hfp''

theorem set {l : Loc} (hl : l ∈ fp) (c : Cell) : Within fp w (w.set l c) := ⟨.set hl c, [], by simp [World.set], by simp⟩

theorem alloc (c : Cell) : Within fp w (w.alloc c).2 := ⟨.alloc c, [], by simp [World.alloc], by simp⟩

theorem openReader {rdr : Reader} (h : rdr.Steady) : Within fp w (w.openReader rdr).2 :=
  ⟨.refl _ _, [rdr], rfl, by simpa using h⟩

theorem getElem? {l : Loc} {c : Cell} (h : Within fp w w') (hl : w.cells[l]? = some c) (hfp : l ∉ fp) : w'.cells[l]? = some c :=
  h.cells.getElem? hl hfp

/-- An open reader stays. -/
theorem reader {l : Loc} {rdr : Reader} (h : Within fp w w') (hl : w.readers[l]? = some rdr) : w'.readers[l]? = some rdr := by
  obtain ⟨opened, heq, -⟩ := h.readers
  rw [heq, List.getElem?_append_left (lt_of_getElem? hl), hl]

theorem refers {l : Loc} {rdr : Reader} (h : Within fp w w') (hl : Refers w l rdr) : Refers w' l rdr := ⟨h.reader hl.1, hl.2⟩

end World.Within

/-! ## Handles and values -/

/-- `h` stands for the iterator `v`, with the cells `fp`. A wrapped body is
older than what wraps it. -/
inductive Rep (w : World) : EntryIterator → Iter → Set Loc → Prop
  | empty : Rep w ⟨none⟩ .empty ∅
  | index {l it} (hl : w.cells[l]? = some (.impl (.index it))) : Rep w ⟨some l⟩ (.index it) {l}
  | dir {l s d paths} (hl : w.cells[l]? = some (.impl (.dir d s))) (hs : w.cells[s]? = some (.paths paths)) :
    Rep w ⟨some l⟩ (.dir ⟨d, paths⟩) {l, s}
  | sortedDir {l it} (hl : w.cells[l]? = some (.impl (.sortedDir it))) : Rep w ⟨some l⟩ (.sortedDir it) {l}
  | db {l s r} (hl : w.cells[l]? = some (.impl (.db s))) (hs : w.cells[s]? = some (.results r)) : Rep w ⟨some l⟩ (.db ⟨r⟩) {l, s}
  | filter {l corpus rdr h v file query buffer interrupted fp}
    (hl : w.cells[l]? = some (.impl (.filter ⟨corpus, h, file, query, buffer, interrupted⟩))) (hrdr : Refers w corpus rdr)
    (inside : Rep w h v fp) (hnot : l ∉ fp) (hlt : ∀ l' ∈ h.d_impl, l' < l) :
    Rep w ⟨some l⟩ (.filter ⟨rdr, v, file, query, buffer, interrupted⟩) (insert l fp)
  | stylesheet {l h v queries stylesheet fp} (hl : w.cells[l]? = some (.impl (.stylesheet ⟨h, queries, stylesheet⟩)))
    (inside : Rep w h v fp) (hnot : l ∉ fp) (hlt : ∀ l' ∈ h.d_impl, l' < l) :
    Rep w ⟨some l⟩ (.stylesheet ⟨v, queries, stylesheet⟩) (insert l fp)
  | multi {l order total iters reader name hasQuery query dialect interrupted}
    (hl : w.cells[l]? = some (.impl (.multi ⟨order, total, iters, reader, none, name, hasQuery, query, dialect, interrupted⟩))) :
    Rep w ⟨some l⟩ (.multi ⟨order, total, iters, reader, none, name, hasQuery, query, dialect, interrupted⟩) {l}
  | multiCurrent {l order total iters reader c h v fp name hasQuery query dialect interrupted}
    (hl : w.cells[l]? = some (.impl (.multi ⟨order, total, iters, reader, some c, name, hasQuery, query, dialect, interrupted⟩)))
    (hc : w.cells[c]? = some (.iter h)) (inside : Rep w h v fp) (hnotc : c ∉ fp) (hnot : l ∉ insert c fp) :
    Rep w ⟨some l⟩ (.multi ⟨order, total, iters, reader, some v, name, hasQuery, query, dialect, interrupted⟩)
      (insert l (insert c fp))

namespace Rep

variable {w w' : World} {h : EntryIterator} {v : Iter} {fp : Set Loc}

/-- Only its own cells count. -/
theorem frame (hr : Rep w h v fp) (hreaders : ∀ {l rdr}, Refers w l rdr → Refers w' l rdr)
    (hw : ∀ l ∈ fp, w'.cells[l]? = w.cells[l]?) : Rep w' h v fp := by
  induction hr with
  | empty => exact .empty
  | index hl => exact .index (by rw [hw _ (by simp), hl])
  | dir hl hs => exact .dir (by rw [hw _ (by simp), hl]) (by rw [hw _ (by simp), hs])
  | sortedDir hl => exact .sortedDir (by rw [hw _ (by simp), hl])
  | db hl hs => exact .db (by rw [hw _ (by simp), hl]) (by rw [hw _ (by simp), hs])
  | filter hl hrdr _ hnot hlt ih =>
    exact .filter (by rw [hw _ (by simp), hl]) (hreaders hrdr) (ih fun l hmem => hw l (Set.mem_insert_of_mem _ hmem)) hnot hlt
  | stylesheet hl _ hnot hlt ih =>
    exact .stylesheet (by rw [hw _ (by simp), hl]) (ih fun l hmem => hw l (Set.mem_insert_of_mem _ hmem)) hnot hlt
  | multi hl => exact .multi (by rw [hw _ (by simp), hl])
  | multiCurrent hl hc _ hnotc hnot ih =>
    refine .multiCurrent (by rw [hw _ (by simp), hl]) (by rw [hw _ (by simp), hc]) (ih fun l hmem => ?_) hnotc hnot
    exact hw l (Set.mem_insert_of_mem _ (Set.mem_insert_of_mem _ hmem))

theorem lt (hr : Rep w h v fp) : ∀ l ∈ fp, l < w.cells.length := by
  induction hr with
  | empty => simp
  | index hl | sortedDir hl | multi hl =>
    intro l hmem
    rw [Set.mem_singleton_iff.mp hmem]
    exact lt_of_getElem? hl
  | dir hl hs | db hl hs =>
    intro l hmem
    rcases hmem with heq | heq
    · rw [heq]
      exact lt_of_getElem? hl
    · rw [Set.mem_singleton_iff.mp heq]
      exact lt_of_getElem? hs
  | filter hl _ _ _ _ ih | stylesheet hl _ _ _ ih =>
    intro l hmem
    rcases hmem with heq | hmem
    · rw [heq]
      exact lt_of_getElem? hl
    · exact ih l hmem
  | multiCurrent hl hc _ _ _ ih =>
    intro l hmem
    rcases hmem with heq | heq | hmem
    · rw [heq]
      exact lt_of_getElem? hl
    · rw [heq]
      exact lt_of_getElem? hc
    · exact ih l hmem

theorem mem (hr : Rep w h v fp) : ∀ l ∈ h.d_impl, l ∈ fp := by
  intro l hl
  cases hr <;> simp at hl <;> simp [hl]

/-- What happens elsewhere leaves it alone. -/
theorem within {fp' : Set Loc} (hr : Rep w h v fp) (hw : Within fp' w w') (hdisj : ∀ l ∈ fp, l ∉ fp') : Rep w' h v fp :=
  hr.frame hw.refers fun l hl => hw.cells.keeps l (hr.lt l hl) (hdisj l hl)

/-- What is allocated leaves it alone. -/
theorem grow (hr : Rep w h v fp) (hw : Within ∅ w w') : Rep w' h v fp := hr.within hw fun _ _ hmem => hmem

end Rep

/-! ### New handles -/

/-- A handle for `v` whose cells are all new. -/
def Fresh (w : World) (x : EntryIterator × World) (v : Iter) : Prop :=
  ∃ fp, Rep x.2 x.1 v fp ∧ Within ∅ w x.2 ∧ fp ⊆ unused w.cells

theorem within_new (w : World) (it : IterImpl) : Within ∅ w (EntryIterator.new it w).2 := Within.alloc _

theorem new_getElem? (it : IterImpl) (w : World) : (EntryIterator.new it w).2.cells[w.cells.length]? = some (.impl it) :=
  alloc_getElem? _ w.cells

namespace Fresh

variable {w : World} {x : EntryIterator × World} {v : Iter}

theorem empty (w : World) : Fresh w (⟨none⟩, w) .empty := ⟨∅, .empty, .refl _ _, Set.empty_subset _⟩

theorem index (w : World) (it : IndexIter) : Fresh w (EntryIterator.new (.index it) w) (.index it) :=
  ⟨{w.cells.length}, .index (new_getElem? _ w), within_new _ _, Set.singleton_subset_iff.mpr (le_refl w.cells.length)⟩

theorem sortedDir (w : World) (it : SortedDirIter) : Fresh w (EntryIterator.new (.sortedDir it) w) (.sortedDir it) :=
  ⟨{w.cells.length}, .sortedDir (new_getElem? _ w), within_new _ _, Set.singleton_subset_iff.mpr (le_refl w.cells.length)⟩

theorem multi (w : World) (order : SortOrder) (total : Nat) (iters : List ReaderIter) (reader : Option Corpus) (name : Str)
    (hasQuery : Bool) (query : Str) (dialect : QueryDialect) (interrupted : Bool) :
    Fresh w (EntryIterator.new (.multi ⟨order, total, iters, reader, none, name, hasQuery, query, dialect, interrupted⟩) w)
      (.multi ⟨order, total, iters, reader, none, name, hasQuery, query, dialect, interrupted⟩) :=
  ⟨{w.cells.length}, .multi (new_getElem? _ w), within_new _ _, Set.singleton_subset_iff.mpr (le_refl w.cells.length)⟩

/-- The body that is allocated around a new handle. -/
theorem around (hx : Fresh w x v) (it : IterImpl) : ∃ fp, (EntryIterator.new it x.2).2.cells[x.2.cells.length]? = some (.impl it) ∧
    Rep (EntryIterator.new it x.2).2 x.1 v fp ∧ x.2.cells.length ∉ fp ∧ (∀ l ∈ x.1.d_impl, l < x.2.cells.length) ∧
    Within ∅ w (EntryIterator.new it x.2).2 ∧ insert x.2.cells.length fp ⊆ unused w.cells := by
  obtain ⟨fp, hr, hw, hfp⟩ := hx
  refine ⟨fp, new_getElem? _ _, hr.grow (within_new _ _), fun h => lt_irrefl _ (hr.lt _ h), fun l hl => hr.lt l (hr.mem l hl),
    hw.trans (within_new _ _) (Set.empty_subset _), Set.insert_subset hw.grows hfp⟩

theorem filter (hx : Fresh w x v) {corpus : Loc} {rdr : Reader} (hrdr : Refers w corpus rdr) (file query : Str)
    (buffer : List Str) (interrupted : Bool) :
    Fresh w (EntryIterator.new (.filter ⟨corpus, x.1, file, query, buffer, interrupted⟩) x.2)
      (.filter ⟨rdr, v, file, query, buffer, interrupted⟩) := by
  obtain ⟨fp, hl, hr, hnot, hlt, hw, hfp⟩ := hx.around (.filter ⟨corpus, x.1, file, query, buffer, interrupted⟩)
  exact ⟨_, .filter hl (hw.refers hrdr) hr hnot hlt, hw, hfp⟩

theorem stylesheet (hx : Fresh w x v) (queries : List MarkerQuery) (sheet : Str) :
    Fresh w (EntryIterator.new (.stylesheet ⟨x.1, queries, sheet⟩) x.2) (.stylesheet ⟨v, queries, sheet⟩) := by
  obtain ⟨fp, hl, hr, hnot, hlt, hw, hfp⟩ := hx.around (.stylesheet ⟨x.1, queries, sheet⟩)
  exact ⟨_, .stylesheet hl hr hnot hlt, hw, hfp⟩

end Fresh

/-! ### What a reader hands out -/

/-- All filters read through the one reader, and no corpus has been opened. -/
inductive ReadsOver (rdr : Reader) : Iter → Prop
  | empty : ReadsOver rdr .empty
  | index (it : IndexIter) : ReadsOver rdr (.index it)
  | dir (it : DirIter) : ReadsOver rdr (.dir it)
  | sortedDir (it : SortedDirIter) : ReadsOver rdr (.sortedDir it)
  | db (it : DbIter) : ReadsOver rdr (.db it)
  | filter {v file query buffer interrupted} (inside : ReadsOver rdr v) : ReadsOver rdr (.filter ⟨rdr, v, file, query, buffer, interrupted⟩)
  | stylesheet {v queries sheet} (inside : ReadsOver rdr v) : ReadsOver rdr (.stylesheet ⟨v, queries, sheet⟩)
  | multi {order total iters reader name hasQuery query dialect interrupted} :
    ReadsOver rdr (.multi ⟨order, total, iters, reader, none, name, hasQuery, query, dialect, interrupted⟩)

namespace ReadsOver

variable {env : Env} {self : Reader} {sortOrder : SortOrder}

theorem create {itr it : Iter} {q : Str} (h : ReadsOver self itr) (hit : Iter.filter <$> FilterIter.create env self itr q = .ok it) :
    ReadsOver self it := by
  rw [FilterIter.create] at hit
  split at hit
  · cases hit
    exact .filter h
  · cases hit

theorem foldlM : ∀ {queries : List Str} {itr it : Iter}, ReadsOver self itr →
    queries.foldlM (fun it q => Iter.filter <$> FilterIter.create env self it q) itr = (.ok it : Outcome Iter) → ReadsOver self it
  | [], _, _, h, hit => by
    cases hit
    exact h
  | q :: queries, _, _, h, hit => by
    rw [List.foldlM_cons] at hit
    obtain ⟨it₁, h₁, hit⟩ := bind_ok_iff.mp hit
    exact foldlM (h.create h₁) hit

/-- The base class keeps it, whatever the virtual functions do. -/
theorem query {runXPath runXQuery : Str → SortOrder → Outcome Iter} {d : QueryDialect} {q : Str} {it : Iter}
    (hxpath : ∀ q it, runXPath q sortOrder = .ok it → ReadsOver self it) (hxquery : ∀ q it, runXQuery q sortOrder = .ok it → ReadsOver self it)
    (hit : CorpusReader.query env self runXPath runXQuery d q sortOrder = .ok it) : ReadsOver self it := by
  unfold CorpusReader.query at hit
  split at hit
  · split at hit
    · cases hit
    · obtain ⟨it₁, h₁, hit⟩ := bind_ok_iff.mp hit
      exact foldlM (hxpath _ _ h₁) hit
  · exact hxquery _ _ hit

theorem runXPath {getEntries : SortOrder → Outcome Iter} {q : Str} {it : Iter}
    (hentries : ∀ it, getEntries sortOrder = .ok it → ReadsOver self it)
    (hit : CorpusReader.runXPath env self getEntries q sortOrder = .ok it) : ReadsOver self it := by
  obtain ⟨itr, hitr, hit⟩ := bind_ok_iff.mp hit
  exact (hentries itr hitr).create hit

theorem leaf_getEntries {l : Leaf} {it : Iter} (hit : l.getEntries env sortOrder = .ok it) : ReadsOver self it := by
  unfold Leaf.getEntries at hit
  split at hit
  · split at hit <;> cases hit
    · exact .dir _
    · exact .sortedDir _
  · cases hit
    exact .index _
  · cases hit
    exact .db _

theorem leaf_runXQuery {l : Leaf} {q : Str} {it : Iter} (hit : l.runXQuery env q sortOrder = .ok it) : ReadsOver self it := by
  unfold Leaf.runXQuery at hit
  split at hit
  · obtain ⟨r, -, rfl⟩ := map_ok_iff.mp hit
    exact .db _
  · cases hit

theorem getEntries {rdr : Reader} {it : Iter} (hit : rdr.getEntries env sortOrder = .ok it) : ReadsOver rdr it := by
  cases rdr with
  | multi m =>
    cases hit
    exact .multi
  | corpus c =>
    cases c with
    | leaf l => exact leaf_getEntries hit
    | recursive r =>
      cases hit
      exact .multi

theorem multi_query {m : MultiCorpusReaderPrivate} {d : QueryDialect} {q : Str} {it : Iter}
    (hit : m.query env d q sortOrder = .ok it) : ReadsOver (.multi m) it := by
  refine query (fun _ _ h => ?_) (fun _ _ h => ?_) hit <;>
  · cases h
    exact .multi

/-- What a query of a reader hands out. -/
theorem corpus_query {c : Corpus} {d : QueryDialect} {q : Str} {it : Iter} (hit : c.query env d q sortOrder = .ok it) :
    ReadsOver (.corpus c) it := by
  cases c with
  | leaf l =>
    refine query (fun q it h => ?_) (fun _ _ h => leaf_runXQuery h) hit
    cases l with
    | db c => exact @leaf_runXQuery env _ sortOrder (.db c) _ it h
    | directory d => exact runXPath (fun _ h => leaf_getEntries h) h
    | compact c => exact runXPath (fun _ h => leaf_getEntries h) h
  | recursive r =>
    refine query (fun q it h => ?_) (fun _ _ h => ?_) hit
    · refine runXPath (fun _ h => ?_) h
      cases h
      exact .multi
    · cases h
      exact .multi

theorem ask {rdr : Reader} {request : Request} {it : Iter} (hit : rdr.ask env request = .ok it) : ReadsOver rdr it := by
  have hquery : ∀ {d q sortOrder it}, rdr.query env d q sortOrder = .ok it → ReadsOver rdr it := by
    intro d q sortOrder it hit
    cases rdr with
    | multi m => exact query (fun _ _ => multi_query) (fun _ _ => multi_query) hit
    | corpus c => exact corpus_query hit
  cases request with
  | entries sortOrder => exact getEntries hit
  | query d q sortOrder => exact hquery hit
  | entriesWithStylesheet stylesheet queries sortOrder =>
    obtain ⟨iter, hiter, heq⟩ := bind_ok_iff.mp hit
    cases heq
    exact .stylesheet (getEntries hiter)
  | queryWithStylesheet d q stylesheet queries sortOrder =>
    cases d with
    | xquery => cases hit
    | xpath =>
      obtain ⟨iter, hiter, heq⟩ := bind_ok_iff.mp hit
      cases heq
      exact .stylesheet (hquery hiter)

end ReadsOver

/-- The cell that is allocated for a new handle. -/
theorem Fresh.pointed {w : World} {x : EntryIterator × World} {v : Iter} (hx : Fresh w x v) :
    ∃ fp, (x.2.alloc (.iter x.1)).2.cells[x.2.cells.length]? = some (.iter x.1) ∧ Rep (x.2.alloc (.iter x.1)).2 x.1 v fp ∧ x.2.cells.length ∉ fp ∧
      Within ∅ w (x.2.alloc (.iter x.1)).2 ∧ insert x.2.cells.length fp ⊆ unused w.cells := by
  obtain ⟨fp, hr, hw, hfp⟩ := hx
  exact ⟨fp, alloc_getElem? _ _, hr.grow (Within.alloc _), fun h => lt_irrefl _ (hr.lt _ h),
    hw.trans (Within.alloc _) (Set.empty_subset _), Set.insert_subset hw.grows hfp⟩

theorem build_fresh {rdr : Reader} {self : Loc} {v : Iter} (hv : ReadsOver rdr v) : ∀ {w : World}, Refers w self rdr →
    Fresh w (v.build self w) v := by
  induction hv with
  | empty => exact fun _ => .empty _
  | index it => exact fun _ => .index _ it
  | sortedDir it => exact fun _ => .sortedDir _ it
  | multi => exact fun _ => .multi _ _ _ _ _ _ _ _ _ _
  | filter _ ih => exact fun hrdr => (ih hrdr).filter hrdr _ _ _ _
  | stylesheet _ ih => exact fun hrdr => (ih hrdr).stylesheet _ _
  | dir it =>
    intro w _
    have hs : (w.alloc (.paths it.paths)).2.cells[w.cells.length]? = some (.paths it.paths) := alloc_getElem? _ w.cells
    have hgrow : Within ∅ w (w.alloc (.paths it.paths)).2 := Within.alloc _
    have hnew := within_new (w.alloc (.paths it.paths)).2 (.dir it.d_directory w.cells.length)
    refine ⟨_, .dir (new_getElem? _ _) (hnew.getElem? hs (Set.notMem_empty _)), hgrow.trans hnew (Set.empty_subset _), ?_⟩
    exact Set.insert_subset hgrow.grows (Set.singleton_subset_iff.mpr (le_refl w.cells.length))
  | db it =>
    intro w _
    have hs : (w.alloc (.results it.r)).2.cells[w.cells.length]? = some (.results it.r) := alloc_getElem? _ w.cells
    have hgrow : Within ∅ w (w.alloc (.results it.r)).2 := Within.alloc _
    have hnew := within_new (w.alloc (.results it.r)).2 (.db w.cells.length)
    refine ⟨_, .db (new_getElem? _ _) (hnew.getElem? hs (Set.notMem_empty _)), hgrow.trans hnew (Set.empty_subset _), ?_⟩
    exact Set.insert_subset hgrow.grows (Set.singleton_subset_iff.mpr (le_refl w.cells.length))

/-! ### Calls -/

/-- What becomes of a handle that began on `fp` in `w`. -/
def Comes (w : World) (fp : Set Loc) (h : EntryIterator) (s : EntryIterator × World) (t : Iter × Unit) : Prop :=
  s.1 = h ∧ ∃ fp', Rep s.2 h t.1 fp' ∧ Within fp w s.2 ∧ fp' ⊆ fp ∪ unused w.cells

theorem Comes.trans {w w' : World} {fp fp' : Set Loc} {h : EntryIterator} {s : EntryIterator × World} {t : Iter × Unit}
    (hw : Within fp w w') (hfp : fp' ⊆ fp ∪ unused w.cells) (hc : Comes w' fp' h s t) : Comes w fp h s t := by
  obtain ⟨hh, fp'', hr, hw', hfp'⟩ := hc
  exact ⟨hh, fp'', hr, hw.trans hw' hfp, hw.footprint hfp hfp'⟩

theorem Comes.reads {env : Env} {w : World} {fp : Set Loc} {h : EntryIterator} : ReadsSim env (Refers w) (Comes w fp h) := by
  intro l rdr i₁ i₂ w₁ w₂ hl hc entry queries
  obtain ⟨_, _, _, hw, _⟩ := id hc
  exact ⟨_, _, _, (hw.refers hl).read env entry queries, rfl, hc⟩

/-- What becomes of the iterator that `d_currentIter` points to: another one
may take its place. -/
def Current (w : World) (fp : Set Loc) (s : Loc × World) (t : Iter × Unit) : Prop :=
  ∃ h fp', s.2.cells[s.1]? = some (.iter h) ∧ Rep s.2 h t.1 fp' ∧ s.1 ∉ fp' ∧ Within fp w s.2 ∧ insert s.1 fp' ⊆ fp ∪ unused w.cells

theorem Current.within {w : World} {fp : Set Loc} {s : Loc × World} {t : Iter × Unit} (h : Current w fp s t) :
    Within fp w s.2 := by
  obtain ⟨_, _, _, _, _, hw, _⟩ := h
  exact hw

/-- There is none. -/
def Idle (w : World) (fp : Set Loc) (w' : World) (_ : Unit) : Prop := Within fp w w'

variable {env : Env}

theorem starts_reading (henv : env.Steady) (w : World) (fp : Set Loc) :
    MultiIter.Starts env (Current w fp) (Idle w fp) (EntryIterator.start env) (Iter.start env) := by
  intro corpus reader ho order total iters name hasQuery query dialect interrupted w' u hw
  simp only [EntryIterator.start, Iter.start]
  split
  · next h =>
    rw [h]
    exact .error hw
  · next it h =>
    rw [h]
    have hsteady := Corpus.steady henv ho
    have hover : ReadsOver (.corpus reader) it := by
      split at h
      · exact .corpus_query h
      · have hentries : (Reader.corpus reader).getEntries env _ = .ok it := h
        exact .getEntries hentries
    -- the reader that was opened
    have hw₁ : Within fp w' (w'.openReader (.corpus reader)).2 := .openReader hsteady
    have hself : Refers (w'.openReader (.corpus reader)).2 w'.readers.length (.corpus reader) :=
      ⟨alloc_getElem? _ w'.readers, hsteady⟩
    obtain ⟨fp', hc, hr, hnot, hw₂, hfp'⟩ := (build_fresh hover hself).pointed
    have hw' := hw₁.trans hw₂ (Set.empty_subset _)
    refine .ok ⟨_, fp', hc, hr, hnot, hw.trans hw' Set.subset_union_left, ?_⟩
    exact hfp'.trans (hw.unused.trans Set.subset_union_right)

section

variable {fuel : Nat} {b : Body World EntryIterator Loc} (hb : ∀ w fp h, Body.Sim (Refers w) (Comes w fp h) b (Iter.body env fuel))

include hb

theorem pointed_sim (w : World) (fp : Set Loc) : Body.Sim (Refers w) (Current w fp) (EntryIterator.pointed b) (Iter.body env fuel) := by
  have hstep : ∀ {α : Type} {w' w'' : World} {c : Loc} {h h' : EntryIterator} {v : Iter} {fp' : Set Loc} {r : Outcome α}
      {y : Outcome α × (Iter × Unit)}, w'.cells[c]? = some (.iter h) → c ∉ fp' → Within fp w w' → insert c fp' ⊆ fp ∪ unused w.cells →
      Agree (Comes w' fp' h) (r, (h', w'')) y → Agree (Current w fp) (r, (c, w'')) y := by
    intro α w' w'' c h h' v fp' r y hc hnot hw hfp hagree
    obtain ⟨heq, -, fp'', hr, hw', hfp'⟩ := hagree
    have hnot' : c ∉ fp'' := by
      intro hmem
      rcases hfp' hmem with hmem | hmem
      · exact hnot hmem
      · exact absurd (lt_of_getElem? hc) (not_lt.mpr hmem)
    refine ⟨heq, h, fp'', hw'.getElem? hc hnot, hr, hnot', hw.trans hw' ((Set.subset_insert c fp').trans hfp), ?_⟩
    refine Set.insert_subset (hfp (Set.mem_insert _ _)) (hw.footprint ((Set.subset_insert c fp').trans hfp) hfp')
  constructor
  · intro s t hst
    obtain ⟨c, w'⟩ := s
    obtain ⟨h, fp', hc, hr, hnot, hw, hfp⟩ := hst
    have h₁ := (hb w' fp' h).hasNext (s := (h, w')) (t := t) ⟨rfl, fp', hr, .refl _ _, Set.subset_union_left⟩
    simp only [EntryIterator.pointed, hc]
    exact hstep (v := t.1) hc hnot hw hfp h₁
  · intro l rdr hl s t hst
    obtain ⟨c, w'⟩ := s
    obtain ⟨h, fp', hc, hr, hnot, hw, hfp⟩ := hst
    have h₁ := (hb w' fp' h).next (hw.refers hl) (s := (h, w')) (t := t) ⟨rfl, fp', hr, .refl _ _, Set.subset_union_left⟩
    simp only [EntryIterator.pointed, hc]
    exact hstep (v := t.1) hc hnot hw hfp h₁

theorem multi_sim (henv : env.Steady) (w : World) (fp : Set Loc) : Body.Sim (Refers w) (MultiIter.Rel (Current w fp) (Idle w fp))
    (MultiIter.body (EntryIterator.pointed b) (MultiIter.openTip env (EntryIterator.start env)))
    (MultiIter.body (Iter.body env fuel) (MultiIter.openTip env (Iter.start env))) :=
  MultiIter.sim (pointed_sim hb w fp) Current.within (starts_reading henv w fp)

omit hb

/-- What becomes of a body at `l`, once it has been written back. -/
def Written {α : Type} (l : Loc) (w : World) (fp : Set Loc) (x : Outcome α × (IterImpl × World))
    (y : Outcome α × (Iter × Unit)) : Prop :=
  x.1 = y.1 ∧ ∃ fp', Rep (x.2.2.set l (.impl x.2.1)) ⟨some l⟩ y.2.1 fp' ∧ Within fp w (x.2.2.set l (.impl x.2.1)) ∧
    fp' ⊆ fp ∪ unused w.cells

/-- The body around a handle is written back after the call inside. -/
theorem write_back {w w' : World} {l : Loc} {fp fp' : Set Loc} {h : EntryIterator} {v : Iter} (c : Cell) (hl : l < w.cells.length)
    (hnot : l ∉ fp) (hr : Rep w' h v fp') (hw : Within fp w w') (hfp : fp' ⊆ fp ∪ unused w.cells) :
    (w'.set l c).cells[l]? = some c ∧ Rep (w'.set l c) h v fp' ∧ l ∉ fp' ∧ Within (insert l fp) w (w'.set l c) ∧
      insert l fp' ⊆ insert l fp ∪ unused w.cells := by
  have hnot' : l ∉ fp' := by
    intro hmem
    rcases hfp hmem with hmem | hmem
    · exact hnot hmem
    · exact absurd hl (not_lt.mpr hmem)
  have hset : Within {l} w' (w'.set l c) := Within.set (Set.mem_singleton l) c
  refine ⟨getElem?_set c (hl.trans_le hw.grows), hr.within hset fun l' hmem heq => hnot' (heq ▸ hmem), hnot', ?_, ?_⟩
  · refine (hw.mono (Set.subset_insert l fp)).trans hset ?_
    exact Set.singleton_subset_iff.mpr (Or.inl (Set.mem_insert l fp))
  · exact Set.insert_subset (Or.inl (Set.mem_insert l fp)) (hfp.trans (Set.union_subset_union_left _ (Set.subset_insert l fp)))

section

variable {α : Type} {w : World} {l : Loc}

theorem written_index (hl : l < w.cells.length) (call : Outcome α × IndexIter) :
    Written l w {l} (IterImpl.plain .index call w) (Iter.plain .index call ()) := by
  refine ⟨rfl, {l}, .index (getElem?_set _ hl), Within.set (Set.mem_singleton l) _, Set.subset_union_left⟩

theorem written_sortedDir (hl : l < w.cells.length) (call : Outcome α × SortedDirIter) :
    Written l w {l} (IterImpl.plain .sortedDir call w) (Iter.plain .sortedDir call ()) := by
  refine ⟨rfl, {l}, .sortedDir (getElem?_set _ hl), Within.set (Set.mem_singleton l) _, Set.subset_union_left⟩

/-- A body and a cell beside it. -/
theorem written_beside {it : IterImpl} {c : Cell} {s : Loc} (hl : w.cells[l]? = some (.impl it)) (hs : s < w.cells.length) (hne : s ≠ l) :
    ((w.set s c).set l (.impl it)).cells[l]? = some (.impl it) ∧ ((w.set s c).set l (.impl it)).cells[s]? = some c ∧
      Within {l, s} w ((w.set s c).set l (.impl it)) := by
  have hlen : l < (w.set s c).cells.length := by
    rw [World.set_cells, List.length_set]
    exact lt_of_getElem? hl
  refine ⟨getElem?_set _ hlen, ?_, ?_⟩
  · rw [World.set_cells, getElem?_set_ne _ hne, World.set_cells, getElem?_set _ hs]
  · exact (Within.set (by simp) c).trans (Within.set (Set.mem_singleton l) _) (Set.singleton_subset_iff.mpr (.inl (by simp)))

theorem written_dir {call : DirIter → Outcome α × DirIter} (hcall : ∀ it, (call it).2.d_directory = it.d_directory) {d : Str}
    {s : Loc} {paths : List Str} (hl : w.cells[l]? = some (.impl (.dir d s))) (hs : w.cells[s]? = some (.paths paths)) :
    Written l w {l, s} (IterImpl.atPaths call d s w) (Iter.plain .dir (call ⟨d, paths⟩) ()) := by
  have hne : s ≠ l := by
    intro heq
    rw [heq, hl] at hs
    cases hs
  obtain ⟨h₁, h₂, hw⟩ := written_beside (c := .paths (call ⟨d, paths⟩).2.paths) hl (lt_of_getElem? hs) hne
  simp only [IterImpl.atPaths, hs]
  refine ⟨rfl, {l, s}, ?_, hw, Set.subset_union_left⟩
  have heta : (call ⟨d, paths⟩).2 = ⟨d, (call ⟨d, paths⟩).2.paths⟩ :=
    congrArg (DirIter.mk · (call ⟨d, paths⟩).2.paths) (hcall ⟨d, paths⟩)
  have hr := Rep.dir h₁ h₂
  rw [← heta] at hr
  exact hr

theorem written_db (call : DbIter → Outcome α × DbIter) {s : Loc} {r : List Entry} (hl : w.cells[l]? = some (.impl (.db s)))
    (hs : w.cells[s]? = some (.results r)) : Written l w {l, s} (IterImpl.atResults call s w) (Iter.plain .db (call ⟨r⟩) ()) := by
  have hne : s ≠ l := by
    intro heq
    rw [heq, hl] at hs
    cases hs
  obtain ⟨h₁, h₂, hw⟩ := written_beside (c := .results (call ⟨r⟩).2.r) hl (lt_of_getElem? hs) hne
  simp only [IterImpl.atResults, hs]
  exact ⟨rfl, {l, s}, .db h₁ h₂, hw, Set.subset_union_left⟩

theorem written_filter {h : EntryIterator} {fp : Set Loc} (hl : l < w.cells.length) (hnot : l ∉ fp) (hlt : ∀ l' ∈ h.d_impl, l' < l)
    {x : Outcome α × (FilterIter EntryIterator Loc × World)} {y : Outcome α × (FilterIter Iter × Unit)}
    (hxy : Agree (FilterIter.Rel (Refers w) (Comes w fp h)) x y) :
    Written l w (insert l fp) (IterImpl.wrapped .filter x) (Iter.wrapped .filter y) := by
  obtain ⟨r, it, w'⟩ := x
  obtain ⟨r', it', u⟩ := y
  obtain ⟨heq, hrel⟩ := hxy
  cases hrel with
  | mk same inside =>
    obtain ⟨hh, fp', hr, hw, hfp⟩ := inside
    dsimp only at hh
    subst hh
    obtain ⟨h₁, hr, hnot', hw, hfp⟩ := write_back _ hl hnot hr hw hfp
    exact ⟨heq, _, .filter h₁ (hw.refers same) hr hnot' hlt, hw, hfp⟩

theorem written_stylesheet {h : EntryIterator} {fp : Set Loc} (hl : l < w.cells.length) (hnot : l ∉ fp) (hlt : ∀ l' ∈ h.d_impl, l' < l)
    {x : Outcome α × (StylesheetIter EntryIterator × World)} {y : Outcome α × (StylesheetIter Iter × Unit)}
    (hxy : Agree (StylesheetIter.Rel (Comes w fp h)) x y) :
    Written l w (insert l fp) (IterImpl.wrapped .stylesheet x) (Iter.wrapped .stylesheet y) := by
  obtain ⟨r, it, w'⟩ := x
  obtain ⟨r', it', u⟩ := y
  obtain ⟨heq, hrel⟩ := hxy
  cases hrel with
  | mk inside =>
    obtain ⟨hh, fp', hr, hw, hfp⟩ := inside
    dsimp only at hh
    subst hh
    obtain ⟨h₁, hr, hnot', hw, hfp⟩ := write_back _ hl hnot hr hw hfp
    exact ⟨heq, _, .stylesheet h₁ hr hnot' hlt, hw, hfp⟩

theorem written_multi {fp : Set Loc} (hl : l < w.cells.length) (hnot : l ∉ fp) {x : Outcome α × (MultiIter Loc × World)}
    {y : Outcome α × (MultiIter Iter × Unit)} (hxy : Agree (MultiIter.Rel (Current w fp) (Idle w fp)) x y) :
    Written l w (insert l fp) (IterImpl.wrapped .multi x) (Iter.wrapped .multi y) := by
  obtain ⟨r, it, w'⟩ := x
  obtain ⟨r', it', u⟩ := y
  obtain ⟨heq, hrel⟩ := hxy
  cases hrel with
  | closed hw =>
    have hw : Within fp w w' := hw
    have hset : ∀ c, Within (insert l fp) w (w'.set l c) := fun c =>
      (hw.mono (Set.subset_insert l fp)).trans (Within.set (Set.mem_singleton l) c)
        (Set.singleton_subset_iff.mpr (Or.inl (Set.mem_insert l fp)))
    refine ⟨heq, {l}, .multi (getElem?_set _ (hl.trans_le hw.grows)), hset _, ?_⟩
    exact Set.singleton_subset_iff.mpr (Or.inl (Set.mem_insert l fp))
  | @opened _ _ _ _ c _ _ _ _ _ _ _ _ inside =>
    obtain ⟨h, fp', hc, hr, hnotc, hw, hfp⟩ := inside
    have hfp' : fp' ⊆ fp ∪ unused w.cells := (Set.subset_insert _ _).trans hfp
    obtain ⟨h₁, hr, hnot', hw', -⟩ := write_back _ hl hnot hr hw hfp'
    have hne : l ∉ insert c fp' := by
      intro hmem
      rcases hfp hmem with hmem | hmem
      · exact hnot hmem
      · exact absurd hl (not_lt.mpr hmem)
    have hcl : c ≠ l := fun h => hne (h ▸ Set.mem_insert c fp')
    refine ⟨heq, _, .multiCurrent h₁ ?_ hr hnotc hne, hw', ?_⟩
    · exact (getElem?_set_ne _ hcl).trans hc
    · refine Set.insert_subset (Or.inl (Set.mem_insert l fp)) (hfp.trans ?_)
      exact Set.union_subset_union_left _ (Set.subset_insert l fp)

end

include hb

/-- **A call on a body**, whichever it is. -/
theorem impl_sim (henv : env.Steady) {w : World} {l : Loc} {it : IterImpl} {v : Iter} {fp : Set Loc} (hl : w.cells[l]? = some (.impl it))
    (hr : Rep w ⟨some l⟩ v fp) :
    Written l w fp ((IterImpl.body env b fuel).hasNext (it, w)) ((Iter.body env (fuel + 1)).hasNext (v, ())) ∧
      ∀ {i rdr}, Refers w i rdr →
        Written l w fp ((IterImpl.body env b fuel).next i (it, w)) ((Iter.body env (fuel + 1)).next rdr (v, ())) := by
  have hlen := lt_of_getElem? hl
  cases hr with
  | index hl' =>
    cases hl.symm.trans hl'
    exact ⟨written_index hlen _, fun _ => written_index hlen _⟩
  | dir hl' hs =>
    cases hl.symm.trans hl'
    refine ⟨written_dir (fun _ => rfl) hl hs, fun _ => written_dir (fun it => ?_) hl hs⟩
    rw [DirIter.next]
    split <;> rfl
  | sortedDir hl' =>
    cases hl.symm.trans hl'
    exact ⟨written_sortedDir hlen _, fun _ => written_sortedDir hlen _⟩
  | db hl' hs =>
    cases hl.symm.trans hl'
    exact ⟨written_db _ hl hs, fun _ => written_db _ hl hs⟩
  | @filter _ corpus rdr h v file query buffer interrupted fp hl' hrdr hin hnot hlt =>
    cases hl.symm.trans hl'
    have hsim := FilterIter.sim (@Comes.reads env w fp h) (hb w fp h) fuel
    have hrel : FilterIter.Rel (Refers w) (Comes w fp h) (⟨corpus, h, file, query, buffer, interrupted⟩, w)
        (⟨rdr, v, file, query, buffer, interrupted⟩, ()) := .mk hrdr ⟨rfl, fp, hin, .refl _ _, Set.subset_union_left⟩
    exact ⟨written_filter hlen hnot hlt (hsim.hasNext hrel), fun hrdr => written_filter hlen hnot hlt (hsim.next hrdr hrel)⟩
  | @stylesheet _ h v queries sheet fp hl' hin hnot hlt =>
    cases hl.symm.trans hl'
    have hsim := StylesheetIter.sim (@Comes.reads env w fp h) (hb w fp h)
    have hrel : StylesheetIter.Rel (Comes w fp h) (⟨h, queries, sheet⟩, w) (⟨v, queries, sheet⟩, ()) :=
      .mk ⟨rfl, fp, hin, .refl _ _, Set.subset_union_left⟩
    exact ⟨written_stylesheet hlen hnot hlt (hsim.hasNext hrel), fun hrdr => written_stylesheet hlen hnot hlt (hsim.next hrdr hrel)⟩
  | @multi _ order total iters reader name hasQuery query dialect interrupted hl' =>
    cases hl.symm.trans hl'
    have hsim := multi_sim hb henv w ∅
    have hrel : MultiIter.Rel (Current w ∅) (Idle w ∅)
        (⟨order, total, iters, reader, none, name, hasQuery, query, dialect, interrupted⟩, w)
        (⟨order, total, iters, reader, none, name, hasQuery, query, dialect, interrupted⟩, ()) := .closed (.refl _ _)
    have hnot : l ∉ (∅ : Set Loc) := Set.notMem_empty l
    rw [← insert_empty_eq]
    exact ⟨written_multi hlen hnot (hsim.hasNext hrel), fun hrdr => written_multi hlen hnot (hsim.next hrdr hrel)⟩
  | @multiCurrent _ order total iters reader c h v fp name hasQuery query dialect interrupted hl' hc hin hnotc hnot =>
    cases hl.symm.trans hl'
    have hsim := multi_sim hb henv w (insert c fp)
    have hrel : MultiIter.Rel (Current w (insert c fp)) (Idle w (insert c fp))
        (⟨order, total, iters, reader, some c, name, hasQuery, query, dialect, interrupted⟩, w)
        (⟨order, total, iters, reader, some v, name, hasQuery, query, dialect, interrupted⟩, ()) :=
      .opened ⟨h, fp, hc, hin, hnotc, .refl _ _, Set.subset_union_left⟩
    exact ⟨written_multi hlen hnot (hsim.hasNext hrel), fun hrdr => written_multi hlen hnot (hsim.next hrdr hrel)⟩

omit hb

/-- A call through `d_impl`. -/
theorem through_sim {α : Type} {w : World} {l : Loc} {it : IterImpl} {fp : Set Loc}
    {call : IterImpl × World → Outcome α × (IterImpl × World)} {y : Outcome α × (Iter × Unit)} (empty : Outcome α)
    (hl : w.cells[l]? = some (.impl it)) (h : Written l w fp (call (it, w)) y) :
    Agree (Comes w fp ⟨some l⟩) (EntryIterator.through empty call (⟨some l⟩, w)) y := by
  obtain ⟨heq, fp', hr, hw, hfp⟩ := h
  simp only [EntryIterator.through, hl]
  exact ⟨heq, rfl, fp', hr, hw, hfp⟩

end

theorem Rep.impl {w : World} {l : Loc} {v : Iter} {fp : Set Loc} (hr : Rep w ⟨some l⟩ v fp) :
    ∃ it, w.cells[l]? = some (.impl it) := by
  cases hr <;> exact ⟨_, by assumption⟩

/-- **A call on a handle** answers as the call on the iterator that it stands
for. The induction is on the depth of wrapped bodies. -/
theorem body_sim {env : Env} (henv : env.Steady) : ∀ (fuel : Nat) (w : World) (fp : Set Loc) (h : EntryIterator),
    Body.Sim (Refers w) (Comes w fp h) (EntryIterator.body env fuel) (Iter.body env fuel)
  | 0, _, _, _ => ⟨fun hst => ⟨rfl, hst⟩, fun _ _ _ hst => ⟨rfl, hst⟩⟩
  | fuel + 1, w, fp, h => by
    -- what one call does, from where the handle has come to
    have hcall : ∀ {w' fp' v}, Rep w' h v fp' →
        Agree (Comes w' fp' h) ((EntryIterator.body env (fuel + 1)).hasNext (h, w')) ((Iter.body env (fuel + 1)).hasNext (v, ())) ∧
        ∀ {i rdr}, Refers w' i rdr →
          Agree (Comes w' fp' h) ((EntryIterator.body env (fuel + 1)).next i (h, w')) ((Iter.body env (fuel + 1)).next rdr (v, ())) := by
      intro w' fp' v hr
      obtain ⟨_ | l⟩ := h
      · have hstay : Comes w' fp' ⟨none⟩ (⟨none⟩, w') (v, ()) := ⟨rfl, fp', hr, .refl _ _, Set.subset_union_left⟩
        cases hr
        exact ⟨⟨rfl, hstay⟩, fun _ => ⟨rfl, hstay⟩⟩
      · obtain ⟨it, hl⟩ := hr.impl
        obtain ⟨h₁, h₂⟩ := impl_sim (body_sim henv fuel) henv hl hr
        exact ⟨through_sim (.ok false) hl h₁, fun hrdr => through_sim (.error .undefined) hl (h₂ hrdr)⟩
    constructor
    · intro s t hst
      obtain ⟨h', w'⟩ := s
      obtain ⟨rfl, fp', hr, hw, hfp⟩ := hst
      obtain ⟨heq, hc⟩ := (hcall hr).1
      exact ⟨heq, hc.trans hw hfp⟩
    · intro i rdr hrdr s t hst
      obtain ⟨h', w'⟩ := s
      obtain ⟨rfl, fp', hr, hw, hfp⟩ := hst
      obtain ⟨heq, hc⟩ := (hcall hr).2 (hw.refers hrdr)
      exact ⟨heq, hc.trans hw hfp⟩

end AlpinoCorpus
