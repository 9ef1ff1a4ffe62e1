/-
Copies of handles. A copy has a body of its own and stands for the same
iterator, unless what it was made of holds a pointer that copies share: then
the two go through one iterator. The empty handle is not assigned.
-/
import AlpinoCorpus.HandleFacts
import AlpinoCorpus.Pipeline

namespace AlpinoCorpus

open Iteration
open Store (Loc unused)
open World (Within)

/-! ## Copies that share nothing -/

/-- No body below the handle holds a pointer that a copy would share with
it: a `MultiIter` is not in a corpus. -/
inductive Unshared (w : World) : EntryIterator → Prop
  | empty : Unshared w ⟨none⟩
  | index {l it} (hl : w.cells[l]? = some (.impl (.index it))) : Unshared w ⟨some l⟩
  | sortedDir {l it} (hl : w.cells[l]? = some (.impl (.sortedDir it))) : Unshared w ⟨some l⟩
  | filter {l it} (hl : w.cells[l]? = some (.impl (.filter it))) (inside : Unshared w it.d_itr) : Unshared w ⟨some l⟩
  | stylesheet {l it} (hl : w.cells[l]? = some (.impl (.stylesheet it))) (inside : Unshared w it.d_iter) : Unshared w ⟨some l⟩
  | multi {l it} (hl : w.cells[l]? = some (.impl (.multi it))) (hcurrent : it.d_currentIter = none) : Unshared w ⟨some l⟩

/-- The same of the iterator that a handle stands for; at most `n` bodies
are wrapped, one in the other. -/
inductive Iter.Unshared : Nat → Iter → Prop
  | empty {n} : Unshared n .empty
  | index {n it} : Unshared n (.index it)
  | sortedDir {n it} : Unshared n (.sortedDir it)
  | filter {n corpus v file query buffer interrupted} (inside : Unshared n v) :
    Unshared (n + 1) (.filter ⟨corpus, v, file, query, buffer, interrupted⟩)
  | stylesheet {n v queries sheet} (inside : Unshared n v) : Unshared (n + 1) (.stylesheet ⟨v, queries, sheet⟩)
  | multi {n order total iters reader name hasQuery query dialect interrupted} :
    Unshared n (.multi ⟨order, total, iters, reader, none, name, hasQuery, query, dialect, interrupted⟩)

/-- What is wrapped is older, so no body is deeper than there are cells
before it. -/
theorem Rep.unshared {w : World} {h : EntryIterator} {v : Iter} {fp : Set Loc} (hr : Rep w h v fp) (hu : Unshared w h) :
    ∀ n, (∀ l ∈ h.d_impl, l < n) → v.Unshared n := by
  induction hr with
  | empty => exact fun _ _ => .empty
  | index hl => exact fun _ _ => .index
  | sortedDir hl => exact fun _ _ => .sortedDir
  | dir hl hs | db hl hs =>
    cases hu with
    | index hl' | sortedDir hl' | filter hl' _ | stylesheet hl' _ | multi hl' _ => cases hl.symm.trans hl'
  | filter hl _ _ _ hlt ih =>
    intro n hn
    cases hu with
    | index hl' | sortedDir hl' | stylesheet hl' _ | multi hl' _ => cases hl.symm.trans hl'
    | filter hl' hin =>
      cases hl.symm.trans hl'
      cases n with
      | zero => exact absurd (hn _ rfl) (Nat.not_lt_zero _)
      | succ n => exact .filter (ih hin n fun l' hl' => (hlt l' hl').trans_le (Nat.le_of_lt_succ (hn _ rfl)))
  | stylesheet hl _ _ hlt ih =>
    intro n hn
    cases hu with
    | index hl' | sortedDir hl' | filter hl' _ | multi hl' _ => cases hl.symm.trans hl'
    | stylesheet hl' hin =>
      cases hl.symm.trans hl'
      cases n with
      | zero => exact absurd (hn _ rfl) (Nat.not_lt_zero _)
      | succ n => exact .stylesheet (ih hin n fun l' hl' => (hlt l' hl').trans_le (Nat.le_of_lt_succ (hn _ rfl)))
  | multi hl => exact fun _ _ => .multi
  | multiCurrent hl hc _ _ _ _ =>
    cases hu with
    | index hl' | sortedDir hl' | filter hl' _ | stylesheet hl' _ => cases hl.symm.trans hl'
    | multi hl' hcur =>
      cases hl.symm.trans hl'
      cases hcur

theorem Fresh.after {w w' : World} {x : EntryIterator × World} {v : Iter} (hw : Within ∅ w w') (hx : Fresh w' x v) :
    Fresh w x v := by
  obtain ⟨fp, hr, hw', hfp⟩ := hx
  exact ⟨fp, hr, hw.trans hw' (Set.empty_subset _), hfp.trans hw.unused⟩

/-- The copy constructor at a body. -/
theorem copyLoop_impl {n : Nat} {w : World} {l : Loc} {it : IterImpl} (hl : w.cells[l]? = some (.impl it)) :
    EntryIterator.copyLoop (n + 1) ⟨some l⟩ w =
      EntryIterator.new (it.copy (EntryIterator.copyLoop n) w).1 (it.copy (EntryIterator.copyLoop n) w).2 := by
  simp only [EntryIterator.copyLoop, hl]

/-- **A copy has a body of its own**, and stands for the same iterator. The
induction is on the depth; the cases are the virtual functions `copy`. -/
theorem copyLoop_fresh {n : Nat} {v : Iter} (hv : v.Unshared n) : ∀ {w : World} {h : EntryIterator} {fp : Set Loc},
    Rep w h v fp → Fresh w (EntryIterator.copyLoop (n + 1) h w) v := by
  induction hv with
  | empty =>
    intro w h fp hr
    cases hr
    exact .empty w
  | index =>
    intro w h fp hr
    cases hr with
    | index hl =>
      rw [copyLoop_impl hl]
      exact .index w _
  | sortedDir =>
    intro w h fp hr
    cases hr with
    | sortedDir hl =>
      rw [copyLoop_impl hl]
      exact .sortedDir w _
  | multi =>
    intro w h fp hr
    cases hr with
    | multi hl =>
      rw [copyLoop_impl hl]
      exact .multi w _ _ _ _ _ _ _ _ _
  | filter _ ih =>
    intro w h fp hr
    cases hr with
    | filter hl hrdr hin _ _ =>
      rw [copyLoop_impl hl]
      exact (ih hin).filter hrdr _ _ _ _
  | @stylesheet n v queries sheet _ ih =>
    intro w h fp hr
    cases hr with
    | @stylesheet _ h _ _ _ fp hl hin _ _ =>
      rw [copyLoop_impl hl]
      -- the argument of the constructor, and the member
      obtain ⟨fp₁, hr₁, hw₁, -⟩ := ih hin
      exact ((ih hr₁).after hw₁).stylesheet _ _

theorem copy_fresh {w : World} {h : EntryIterator} {v : Iter} {fp : Set Loc} (hr : Rep w h v fp) (hu : Unshared w h) :
    Fresh w (h.copy w) v :=
  copyLoop_fresh (hr.unshared hu w.cells.length fun l hl => hr.lt l (hr.mem l hl)) hr


/-! ## Clients -/

theorem Rep.eq_empty {w : World} {h : EntryIterator} {v : Iter} {fp : Set Loc} (hr : Rep w h v fp) (hnone : h.d_impl = none) :
    v = .empty := by
  cases hr with
  | empty => rfl
  | _ => cases hnone

/-- The reader that `next` is given is open. -/
def Method.Open (w : World) : Method Loc → Prop
  | .hasNext => True
  | .next l => l < w.readers.length

/-- A method with the reader itself. -/
def Method.seen (w : World) : Method Loc → Method Reader
  | .hasNext => .hasNext
  | .next l => .next (w.readers.getD l (.multi .empty))

theorem Method.Open.grow {m : Method Loc} {fp : Set Loc} {w w' : World} (h : m.Open w) (hw : Within fp w w') :
    m.Open w' ∧ m.seen w' = m.seen w := by
  cases m with
  | hasNext => exact ⟨trivial, rfl⟩
  | next l =>
    obtain ⟨opened, heq, -⟩ := hw.readers
    have hlt : l < w.readers.length := h
    refine ⟨?_, ?_⟩
    · rw [Method.Open, heq, List.length_append]
      exact Nat.lt_add_right _ hlt
    · rw [Method.seen, Method.seen, heq, List.getD_append _ _ _ _ hlt]

/-- The condition on copying and assigning: nothing is shared, and no empty
handle is assigned to one with a body. No reader that is opened is changed
by reads, and `next` is given one that is open. -/
def Op.Separate (c : Client) : Op → Prop
  | .copyConstruct _ y => Unshared c.store (c.handles y)
  | .assign x y => x = y ∨ (Unshared c.store (c.handles y) ∧ ((c.handles y).d_impl = none → (c.handles x).d_impl = none))
  | .openReader rdr => rdr.Steady
  | .create _ _ _ => True
  | .call _ m => m.Open c.store

/-- What a client comes to, while the condition is kept. -/
inductive Reached (env : Env) (fuel : Nat) : Client → Prop
  | init : Reached env fuel .init
  | step {c op} (h : Reached env fuel c) (hop : op.Separate c) : Reached env fuel (c.perform env fuel op)

/-- Each handle stands for a value, with cells of its own. -/
structure Client.Stands (c : Client) (vals : Nat → Iter) : Prop where
  steady : ∀ rdr ∈ c.store.readers, rdr.Steady
  owns : ∃ fps : Nat → Set Loc, (∀ x, Rep c.store (c.handles x) (vals x) (fps x)) ∧ ∀ x y, x ≠ y → Disjoint (fps x) (fps y)

namespace Client.Stands

variable {env : Env} {fuel : Nat} {c : Client} {vals : Nat → Iter} {x y : Nat}

theorem init : Client.init.Stands fun _ => .empty :=
  ⟨nofun, fun _ => ∅, fun _ => .empty, fun _ _ _ => Set.disjoint_empty _⟩

theorem refers (hc : c.Stands vals) {l : Loc} {rdr : Reader} (hl : c.store.readers[l]? = some rdr) : Refers c.store l rdr :=
  ⟨hl, hc.steady rdr (List.mem_of_getElem? hl)⟩

theorem steady_within {fp : Set Loc} {w : World} (hc : c.Stands vals) (hw : Within fp c.store w) : ∀ rdr ∈ w.readers, rdr.Steady := by
  obtain ⟨opened, heq, hsteady⟩ := hw.readers
  intro rdr hmem
  rw [heq] at hmem
  exact (List.mem_append.mp hmem).elim (hc.steady rdr) (hsteady rdr)

theorem openReader (hc : c.Stands vals) {rdr : Reader} (h : rdr.Steady) :
    (c.perform env fuel (.openReader rdr)).Stands vals := by
  have hw : Within ∅ c.store (c.store.openReader rdr).2 := .openReader h
  refine ⟨hc.steady_within hw, ?_⟩
  obtain ⟨fps, hreps, hdisj⟩ := hc.owns
  exact ⟨fps, fun x => (hreps x).grow hw, hdisj⟩

/-- A handle changes, with what it has, and what is new. -/
theorem setHandle (hc : c.Stands vals) {fps : Nat → Set Loc} (hreps : ∀ x, Rep c.store (c.handles x) (vals x) (fps x))
    (hdisj : ∀ x y, x ≠ y → Disjoint (fps x) (fps y)) {h : EntryIterator × World} {v : Iter} {fp : Set Loc}
    (hr : Rep h.2 h.1 v fp) (hw : Within (fps x) c.store h.2) (hfp : fp ⊆ fps x ∪ unused c.store.cells) :
    (c.setHandle x h).Stands (Function.update vals x v) := by
  have hother : ∀ y, y ≠ x → Disjoint (fps y) fp := by
    intro y hy
    refine Set.disjoint_of_subset_right hfp (Set.disjoint_union_right.mpr ⟨hdisj y x hy, ?_⟩)
    exact Set.disjoint_left.mpr fun l hl hl' => absurd ((hreps y).lt l hl) (not_lt.mpr hl')
  refine ⟨hc.steady_within hw, Function.update fps x fp, fun y => ?_, fun y z hyz => ?_⟩
  · by_cases hy : y = x
    · subst hy
      simpa [Client.setHandle] using hr
    · simp only [Client.setHandle, Function.update_of_ne hy]
      exact (hreps y).within hw fun l hl hl' => Set.disjoint_left.mp (hdisj y x hy) hl hl'
  · by_cases hy : y = x
    · subst hy
      rw [Function.update_self, Function.update_of_ne (Ne.symm hyz)]
      exact (hother z (Ne.symm hyz)).symm
    · by_cases hz : z = x
      · subst hz
        rw [Function.update_self, Function.update_of_ne hy]
        exact hother y hy
      · rw [Function.update_of_ne hy, Function.update_of_ne hz]
        exact hdisj y z hyz

theorem fresh (hc : c.Stands vals) {h : EntryIterator × World} {v : Iter} (hh : Fresh c.store h v) :
    (c.setHandle x h).Stands (Function.update vals x v) := by
  obtain ⟨fps, hreps, hdisj⟩ := hc.owns
  obtain ⟨fp, hr, hw, hfp⟩ := hh
  exact hc.setHandle hreps hdisj hr (hw.mono (Set.empty_subset _)) (hfp.trans Set.subset_union_right)

/-- A call answers as on the value. -/
theorem call (henv : env.Steady) (hc : c.Stands vals) {m : Method Loc} (hm : m.Open c.store) :
    (c.call env fuel x m).1 = ((Iter.body env fuel).call (m.seen c.store) (vals x, ())).1 ∧
      (c.call env fuel x m).2.Stands
        (Function.update vals x ((Iter.body env fuel).call (m.seen c.store) (vals x, ())).2.1) ∧
      ∃ fp, Within fp c.store (c.call env fuel x m).2.store := by
  obtain ⟨fps, hreps, hdisj⟩ := hc.owns
  have hsim := body_sim henv fuel c.store (fps x) (c.handles x)
  have hstart : Comes c.store (fps x) (c.handles x) (c.handles x, c.store) (vals x, ()) :=
    ⟨rfl, fps x, hreps x, .refl _ _, Set.subset_union_left⟩
  cases m with
  | hasNext =>
    obtain ⟨heq, hh, fp, hr, hw, hfp⟩ := hsim.hasNext hstart
    refine ⟨congrArg (answer Answer.more) heq, hc.setHandle hreps hdisj ?_ hw hfp, fps x, hw⟩
    rw [hh]
    exact hr
  | next l =>
    have hrdr : Refers c.store l (c.store.readers.getD l (.multi .empty)) := by
      refine hc.refers ?_
      rw [List.getD_eq_getElem _ _ hm]
      exact List.getElem?_eq_getElem hm
    obtain ⟨heq, hh, fp, hr, hw, hfp⟩ := hsim.next hrdr hstart
    refine ⟨congrArg (answer Answer.entry) heq, hc.setHandle hreps hdisj ?_ hw hfp, fps x, hw⟩
    rw [hh]
    exact hr

/-- Copying and assigning are those of values, and open no reader. -/
theorem copyConstruct (hc : c.Stands vals) (hop : (Op.copyConstruct x y).Separate c) :
    (c.perform env fuel (.copyConstruct x y)).Stands (Function.update vals x (vals y)) ∧
      Within ∅ c.store (c.perform env fuel (.copyConstruct x y)).store := by
  obtain ⟨fps, hreps, -⟩ := hc.owns
  have hfresh := copy_fresh (hreps y) hop
  obtain ⟨_, _, hw, _⟩ := id hfresh
  exact ⟨hc.fresh hfresh, hw⟩

theorem assign (hc : c.Stands vals) (hop : (Op.assign x y).Separate c) :
    (c.perform env fuel (.assign x y)).Stands (Function.update vals x (vals y)) ∧
      Within ∅ c.store (c.perform env fuel (.assign x y)).store := by
  simp only [Client.perform]
  split
  · next heq =>
    subst heq
    rw [Function.update_eq_self]
    exact ⟨hc, .refl _ _⟩
  · next hne =>
    obtain ⟨hu, hempty⟩ := hop.resolve_left hne
    obtain ⟨fps, hreps, hdisj⟩ := hc.owns
    unfold EntryIterator.assign
    split
    · next hnone =>
      -- both are empty
      rw [(hreps y).eq_empty hnone, ← (hreps x).eq_empty (hempty hnone), Function.update_eq_self]
      exact ⟨by simpa [Client.setHandle] using hc, .refl _ _⟩
    · have hfresh := copy_fresh (hreps y) hu
      obtain ⟨_, _, hw, _⟩ := id hfresh
      exact ⟨hc.fresh hfresh, hw⟩

end Client.Stands

/-- So is what a reader hands out. -/
theorem Client.Stands.create {env : Env} {c : Client} {vals : Nat → Iter} (hc : c.Stands vals) (x : Nat) (l : Loc) (request : Request) :
    ∃ vals', (c.create env x l request).Stands vals' := by
  unfold Client.create
  split
  · exact ⟨vals, hc⟩
  · next rdr hl =>
    split
    · next it hit => exact ⟨_, hc.fresh (build_fresh (.ask hit) (hc.refers hl))⟩
    · exact ⟨vals, hc⟩

theorem Reached.stands {env : Env} (henv : env.Steady) {fuel : Nat} {c : Client} (h : Reached env fuel c) :
    ∃ vals, c.Stands vals := by
  induction h with
  | init => exact ⟨_, .init⟩
  | @step c op _ hop ih =>
    obtain ⟨vals, hc⟩ := ih
    cases op with
    | openReader rdr => exact ⟨vals, hc.openReader hop⟩
    | create x l request => exact hc.create x l request
    | copyConstruct x y => exact ⟨_, (hc.copyConstruct hop).1⟩
    | assign x y => exact ⟨_, (hc.assign hop).1⟩
    | call x m => exact ⟨_, (hc.call henv hop).2.1⟩

/-! ## Answers -/

/-- What calls on a value answer. -/
def Iter.answers (env : Env) (fuel : Nat) : List (Method Reader) → Iter → List (Answer Stop Entry)
  | [], _ => []
  | m :: ms, it => ((body env fuel).call m (it, ())).1 :: answers env fuel ms ((body env fuel).call m (it, ())).2.1

namespace Client.Stands

variable {env : Env} {fuel : Nat}

/-- Each handle answers as its value does, whatever is called in between. -/
theorem answersAt (henv : env.Steady) {x : Nat} : ∀ {ms : List (Nat × Method Loc)} {c : Client} {vals : Nat → Iter}, c.Stands vals →
    (∀ m ∈ ms, m.2.Open c.store) →
    c.answersAt env fuel x ms = (vals x).answers env fuel ((methodsAt x ms).map (Method.seen c.store))
  | [], _, _, _, _ => rfl
  | (y, m) :: ms, c, vals, hc, hopen => by
    obtain ⟨hm, hms⟩ := List.forall_mem_cons.mp hopen
    obtain ⟨hans, hc', fp, hw⟩ := @call env fuel c vals y henv hc m hm
    have ih := @answersAt henv x ms _ _ hc' fun m' hm' => ((hms m' hm').grow hw).1
    have hseen : (methodsAt x ms).map (Method.seen (c.call env fuel y m).2.store) = (methodsAt x ms).map (Method.seen c.store) := by
      refine List.map_congr_left fun m' hm' => ?_
      obtain ⟨p, hp, rfl⟩ := List.mem_map.mp hm'
      exact ((hms p (List.mem_of_mem_filter hp)).grow hw).2
    rw [hseen] at ih
    simp only [Client.answersAt] at ih
    by_cases hy : y = x
    · subst hy
      rw [Function.update_self] at ih
      simp only [Client.answersAt, Client.answers, methodsAt, List.filter_cons, decide_true, if_true, List.map_cons, Iter.answers]
      rw [ih, hans]
      rfl
    · rw [Function.update_of_ne (Ne.symm hy)] at ih
      simp only [Client.answersAt, Client.answers, methodsAt, List.filter_cons, hy, decide_false, Bool.false_eq_true, if_false]
      exact ih

theorem alone (henv : env.Steady) {x : Nat} {ms : List (Method Loc)} {c : Client} {vals : Nat → Iter} (hc : c.Stands vals)
    (hopen : ∀ m ∈ ms, m.Open c.store) : c.alone env fuel x ms = (vals x).answers env fuel (ms.map (Method.seen c.store)) := by
  have hall : ∀ {ms : List (Method Loc)} {c : Client}, (c.answers env fuel (ms.map (Prod.mk x))).filter (·.1 = x) =
      c.answers env fuel (ms.map (Prod.mk x)) := by
    intro ms
    induction ms with
    | nil => intro c; rfl
    | cons m ms ih =>
      intro c
      simp only [List.map_cons, Client.answers, List.filter_cons, decide_true, if_true]
      rw [ih]
  have hmethods : methodsAt x (ms.map (Prod.mk x)) = ms := by
    simp [methodsAt, List.filter_map, Function.comp_def]
  have h : c.answersAt env fuel x (ms.map (Prod.mk x)) = _ := hc.answersAt henv (by simpa using hopen)
  rw [hmethods, Client.answersAt, hall] at h
  exact h

end Client.Stands

/-- **Handles have value semantics**, while nothing that is shared is copied,
no empty handle is assigned to one with a body, and no reader is changed by
reads: a copy answers as the handle it was made of would have answered, and
every other handle as if there were no copy, in whatever order the calls
come. -/
theorem answersAt_copy {env : Env} (henv : env.Steady) {fuel : Nat} {c : Client} (hc : Reached env fuel c) {a b : Nat} {op : Op}
    (hop : op = .copyConstruct b a ∨ op = .assign b a) (hsep : op.Separate c) {ms : List (Nat × Method Loc)}
    (hopen : ∀ m ∈ ms, m.2.Open c.store) :
    (c.perform env fuel op).answersAt env fuel b ms = c.alone env fuel a (methodsAt b ms) ∧
      ∀ x ≠ b, (c.perform env fuel op).answersAt env fuel x ms = c.alone env fuel x (methodsAt x ms) := by
  obtain ⟨vals, hstands⟩ := hc.stands henv
  obtain ⟨hcopy, hw⟩ : (c.perform env fuel op).Stands (Function.update vals b (vals a)) ∧
      Within ∅ c.store (c.perform env fuel op).store := by
    rcases hop with rfl | rfl
    · exact hstands.copyConstruct hsep
    · exact hstands.assign hsep
  have hopen' : ∀ m ∈ ms, m.2.Open (c.perform env fuel op).store := fun m hm => ((hopen m hm).grow hw).1
  -- the calls on one handle, with the readers that they are given
  have hat : ∀ x, (∀ m ∈ methodsAt x ms, m.Open c.store) ∧
      (methodsAt x ms).map (Method.seen (c.perform env fuel op).store) = (methodsAt x ms).map (Method.seen c.store) := by
    intro x
    have hmem : ∀ m ∈ methodsAt x ms, m.Open c.store := by
      intro m hm
      obtain ⟨p, hp, rfl⟩ := List.mem_map.mp hm
      exact hopen p (List.mem_of_mem_filter hp)
    exact ⟨hmem, List.map_congr_left fun m hm => ((hmem m hm).grow hw).2⟩
  refine ⟨?_, fun x hx => ?_⟩
  · rw [hcopy.answersAt henv hopen', hstands.alone henv (hat b).1, Function.update_self, (hat b).2]
  · rw [hcopy.answersAt henv hopen', hstands.alone henv (hat x).1, Function.update_of_ne hx, (hat x).2]

/-- The corpus `c`, with two entries. -/
def twoEntries : Env := sampleEnv [(str "c", [(str "1", []), (str "2", [])])] []

theorem steady_twoEntries : twoEntries.Steady := by
  intro path c hc
  unfold twoEntries sampleEnv at hc
  dsimp only at hc
  split at hc
  · cases hc
    exact fun _ _ => rfl
  · cases hc

/-- A reader of that corpus, among many, that hands out its entries. -/
def overEntries : Client :=
  let reader : Reader := .multi (MultiCorpusReaderPrivate.empty.register (str "c") (str "c") false)
  (Client.init.perform twoEntries 5 (.openReader reader)).perform twoEntries 5 (.create 0 0 (.entries .naturalOrder))

theorem reached_overEntries : Reached twoEntries 5 overEntries := by
  unfold overEntries
  refine .step (.step .init ?_) ?_ <;> trivial

/-- A copy that is made before the first call, with the calls in between. -/
theorem answersAt_copy_multi :
    ((overEntries.perform twoEntries 5 (.copyConstruct 1 0)).answersAt twoEntries 5 1
      [(0, .hasNext), (0, .next 0), (1, .hasNext), (1, .next 0)]) = [.more true, .entry ⟨str "c/1", []⟩] := by
  have hsep : (Op.copyConstruct 1 0).Separate overEntries := .multi rfl rfl
  have hopen : ∀ m ∈ ([(0, .hasNext), (0, .next 0), (1, .hasNext), (1, .next 0)] : List (Nat × Method Loc)),
      m.2.Open overEntries.store := by
    simp only [List.mem_cons, List.not_mem_nil, or_false, forall_eq_or_imp, forall_eq]
    exact ⟨trivial, Nat.one_pos, trivial, Nat.one_pos⟩
  exact (answersAt_copy steady_twoEntries reached_overEntries (.inl rfl) hsep hopen).1.trans rfl

/-- After the first call, the copy goes on where the other one stands. And
an empty handle that is assigned leaves the entries there. -/
theorem answersAt_copy_ne :
    (∃ c, Reached twoEntries 5 c ∧ c.alone twoEntries 5 0 [.hasNext, .next 0] = [.more true, .entry ⟨str "c/1", []⟩] ∧
      (c.perform twoEntries 5 (.copyConstruct 1 0)).answersAt twoEntries 5 1
        [(0, .hasNext), (0, .next 0), (1, .hasNext), (1, .next 0)] = [.more true, .entry ⟨str "c/2", []⟩]) ∧
    (∃ c, Reached twoEntries 5 c ∧ c.alone twoEntries 5 1 [.hasNext] = [.more false] ∧
      (c.perform twoEntries 5 (.assign 0 1)).answersAt twoEntries 5 0 [(0, .hasNext)] = [.more true]) := by
  constructor
  · exact ⟨overEntries.perform twoEntries 5 (.call 0 .hasNext), .step reached_overEntries trivial, rfl, rfl⟩
  · exact ⟨_, reached_overEntries, rfl, rfl⟩

end AlpinoCorpus
