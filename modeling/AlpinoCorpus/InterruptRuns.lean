/-
A client that iterates, and interrupts that come when they come. Every
iterator has rules of its own: a `MultiIter` remembers its flag and looks at
it in every call, a `FilterIter` looks at it in `hasNext` only, and clears it
there first, and the iterators that wrap nothing have no flag.

An interrupt is not lost where it is heeded: where it leaves a flag that the
call in progress or the next one is going to look at.
-/
import AlpinoCorpus.InterruptSteps
import AlpinoCorpus.InterruptedFilter

namespace AlpinoCorpus

open Iteration Stepping

/-! ## On the way to the flag -/

namespace FilterIter

variable {W ι : Type} {env : Env} {inner : Body W ι}

/-- `hasNext` is at the flag: the name of the entry it took is a new one. -/
def AtTest (p : Point) (s : FilterIter ι × W) : Prop := ∃ e, p = .test e ∧ e.name ≠ s.1.d_file

theorem meets_test_iff {it : FilterIter ι} {w : W} (e : Entry) :
    Meets (step env inner) AtTest (.test e) (it, w) ↔ e.name ≠ it.d_file ∨ Meets (step env inner) AtTest .loop (it, w) := by
  by_cases hname : e.name = it.d_file
  · have hstep : step env inner (.test e) (it, w) = (.goes .loop, (it, w)) := by rw [step, if_pos hname]
    rw [Meets.goes_iff (by rintro ⟨e', he, hne⟩; cases he; exact hne hname) hstep]
    simp [hname]
  · exact iff_of_true (.here ⟨e, rfl, hname⟩) (.inl hname)

theorem meets_loop_iff {es : List Entry} : ∀ {it : FilterIter ι} {w : W},
    Delivers (inner.machine it.d_corpus) (it.d_itr, w) es false →
    (Meets (step env inner) AtTest .loop (it, w) ↔ it.d_buffer = [] ∧ ∃ e ∈ es, e.name ≠ it.d_file) := by
  induction es with
  | nil =>
    intro it w hin
    obtain ⟨⟨itr, w'⟩, hhas, -⟩ := hin.done
    have hhas : inner.hasNext (it.d_itr, w) = (.ok false, itr, w') := hhas
    have hend : ∃ r s', step env inner .loop (it, w) = (.ends r, s') := by
      rw [step, hhas]
      split
      · exact ⟨_, _, rfl⟩
      · exact ⟨_, _, rfl⟩
    obtain ⟨r, s', hend⟩ := hend
    rw [Meets.ends_iff hend]
    simp [AtTest]
  | cons e es ih =>
    intro it w hin
    obtain ⟨⟨itr₁, w₁⟩, ⟨itr₂, w₂⟩, hhas, hnext, hin⟩ := hin.take
    have hhas : inner.hasNext (it.d_itr, w) = (.ok true, itr₁, w₁) := hhas
    have hnext : inner.next it.d_corpus (itr₁, w₁) = (.ok e, itr₂, w₂) := hnext
    by_cases hbuf : it.d_buffer = []
    · have hloop : step env inner .loop (it, w) = (.goes .take, ({ it with d_itr := itr₁ }, w₁)) := by
        simp [step, hbuf, hhas]
      have htake : step env inner .take ({ it with d_itr := itr₁ }, w₁) =
          (.goes (.test e), ({ it with d_itr := itr₂ }, w₂)) := by
        simp [step, hnext]
      rw [Meets.goes_iff (by simp [AtTest]) hloop, Meets.goes_iff (by simp [AtTest]) htake, meets_test_iff, ih hin]
      simp [hbuf]
    · have hend : step env inner .loop (it, w) = (.ends (.ok true), (it, w)) := by simp [step, hbuf]
      rw [Meets.ends_iff hend]
      simp [AtTest, hbuf]

/-- **`hasNext` comes to its flag** where the buffer is empty and an entry of
a new name is to come. -/
theorem meets_iff {p : Point} {s : FilterIter ι × W} {es : List Entry} (h : Pending inner p s es) (hp : ∀ e, p ≠ .parse e)
    (hstart : p ≠ .start) :
    Meets (step env inner) AtTest p s ↔ s.1.d_buffer = [] ∧ ∃ e ∈ es, e.name ≠ s.1.d_file := by
  obtain ⟨it, w⟩ := s
  cases p with
  | start => exact absurd rfl hstart
  | loop => exact meets_loop_iff h
  | take =>
    obtain ⟨hbuf, hne, hin⟩ := h
    cases es with
    | nil => exact absurd rfl hne
    | cons e es =>
      obtain ⟨⟨itr, w'⟩, hnext, hin⟩ := Delivers.next hin
      have hnext : inner.next it.d_corpus (it.d_itr, w) = (.ok e, itr, w') := hnext
      have htake : step env inner .take (it, w) = (.goes (.test e), ({ it with d_itr := itr }, w')) := by
        simp [step, hnext]
      have hbuf : it.d_buffer = [] := hbuf
      rw [Meets.goes_iff (by simp [AtTest]) htake, meets_test_iff, meets_loop_iff hin]
      simp [hbuf]
  | test e =>
    obtain ⟨hbuf, es', rfl, hin⟩ := h
    have hbuf : it.d_buffer = [] := hbuf
    rw [meets_test_iff, meets_loop_iff hin]
    simp [hbuf]
  | parse e => exact absurd rfl (hp e)

/-- Past the flag it comes there again where the document is read and has no
result. -/
theorem meets_parse_iff {it : FilterIter ι} {w : W} {e : Entry} {es : List Entry} (hbuf : it.d_buffer = [])
    (hin : Delivers (inner.machine it.d_corpus) (it.d_itr, w) es false) :
    Meets (step env inner) AtTest (.parse e) (it, w) ↔
      parseFile env { it with d_file := e.name } e.name w = (.ok (), ({ it with d_file := e.name }, w)) ∧
        ∃ e' ∈ es, e'.name ≠ e.name := by
  obtain ⟨r, vs, hparse, -⟩ := parseFile_cases env { it with d_file := e.name } e w
  obtain ⟨it', hit'⟩ : ∃ it', it' = { it with d_file := e.name, d_buffer := it.d_buffer ++ vs } := ⟨_, rfl⟩
  have hparse : parseFile env { it with d_file := e.name } e.name w = (r, (it', w)) := by rw [hit', hparse]
  cases r with
  | error stop =>
    have hend : step env inner (.parse e) (it, w) = (.ends (.error stop), (it', w)) := by simp only [step, hparse]
    rw [Meets.ends_iff hend, hparse]
    simp [AtTest]
  | ok _ =>
    have hgo : step env inner (.parse e) (it, w) = (.goes .loop, (it', w)) := by simp only [step, hparse]
    have hin' : Delivers (inner.machine it'.d_corpus) (it'.d_itr, w) es false := by rw [hit']; exact hin
    rw [Meets.goes_iff (by simp [AtTest]) hgo, meets_loop_iff hin', hparse, hit']
    simp [hbuf]

end FilterIter

namespace Iter

/-! ## Runs -/

/-- A call of the client that has begun. -/
inductive Call
  | hasNext (p : Point)
  | next (rdr : Reader) (p : Point)

/-- What is seen of the calls. An `interrupt` has returned when the iterator
and the call in progress were these. -/
inductive Event
  | interrupted (it : Iter) (call : Option Call)
  | more (b : Bool)
  | entry (e : Entry)
  | failed (s : Stop)

def Event.ofHasNext : Outcome Bool → Event
  | .ok b => more b
  | .error s => failed s

def Event.ofNext : Outcome Entry → Event
  | .ok e => entry e
  | .error s => failed s

def Call.step (env : Env) (fuel : Nat) : Call → Iter → Turn Call Event × Iter
  | hasNext p, it =>
    match stepHasNext env fuel p it with
    | (t, it) => (t.inside hasNext fun r => .ends (.ofHasNext r), it)
  | next rdr p, it =>
    match stepNext env rdr p it with
    | (t, it) => (t.inside (next rdr) fun r => .ends (.ofNext r), it)

def Call.Waits : Call → Strike → Prop
  | hasNext p, k => p.Waits k
  | next _ p, k => p.Waits k

/-- An iterator, the call of its client, and the calls of `interrupt` that
have begun. -/
structure Session where
  it : Iter
  call : Option Call
  strikes : List Strike

inductive Move (env : Env) (fuel : Nat) : Session → Option Event → Session → Prop
  | hasNext {it : Iter} {strikes : List Strike} : Move env fuel ⟨it, none, strikes⟩ none ⟨it, some (.hasNext .start), strikes⟩
  | next {it : Iter} {strikes : List Strike} (rdr : Reader) :
    Move env fuel ⟨it, none, strikes⟩ none ⟨it, some (.next rdr .start), strikes⟩
  | goes {it it' : Iter} {c c' : Call} {strikes : List Strike} (h : c.step env fuel it = (.goes c', it'))
    (hwaits : ∀ k ∈ strikes, ¬c.Waits k) : Move env fuel ⟨it, some c, strikes⟩ none ⟨it', some c', strikes⟩
  | ends {it it' : Iter} {c : Call} {ev : Event} {strikes : List Strike} (h : c.step env fuel it = (.ends ev, it'))
    (hwaits : ∀ k ∈ strikes, ¬c.Waits k) : Move env fuel ⟨it, some c, strikes⟩ (some ev) ⟨it', none, strikes⟩
  | interrupt {it : Iter} {call : Option Call} {strikes : List Strike} :
    Move env fuel ⟨it, call, strikes⟩ none ⟨it, call, .enter :: strikes⟩
  | strike {it it' : Iter} {call : Option Call} {k k' : Strike} {ks ks' : List Strike}
    (h : stepInterrupt k it = (some k', it')) (hwaits : ∀ j ∈ ks ++ ks', ¬k.Waits j) :
    Move env fuel ⟨it, call, ks ++ k :: ks'⟩ none ⟨it', call, ks ++ k' :: ks'⟩
  | struck {it it' : Iter} {call : Option Call} {k : Strike} {ks ks' : List Strike}
    (h : stepInterrupt k it = (none, it')) (hwaits : ∀ j ∈ ks ++ ks', ¬k.Waits j) :
    Move env fuel ⟨it, call, ks ++ k :: ks'⟩ (some (.interrupted it' call)) ⟨it', call, ks ++ ks'⟩

/-- Between an `interrupt` that has returned and an entry, a call throws. -/
def NotLost (evs : List Event) : Prop :=
  ∀ a it call b e c, evs = a ++ .interrupted it call :: (b ++ .entry e :: c) →
    .failed (.raised .iterationInterrupted) ∈ b

/-! ## Interrupts that are heeded -/

/-- Between two calls the flag that counts is that of a `MultiIter`. What is
asked of a flag is `needs`: nothing, or that it is set. -/
inductive Kept (needs : Bool → Prop) : Iter → Prop
  | multi (it : MultiIter Iter) (h : needs it.d_interrupted) : Kept needs (multi it)
  | stylesheet (it : StylesheetIter Iter) (h : Kept needs it.d_iter) : Kept needs (stylesheet it)

/-- In `hasNext` it may be that of a `FilterIter` too, when it is cleared
already and is going to be looked at. -/
inductive HeedsHasNext (env : Env) (fuel : Nat) (needs : Bool → Prop) : Point → Iter → Prop
  | start (it : Iter) (h : Kept needs it) : HeedsHasNext env fuel needs .start it
  | multi (p : Point) (it : MultiIter Iter) (h : needs it.d_interrupted) : HeedsHasNext env fuel needs p (multi it)
  | filter (p : FilterIter.Point) (it : FilterIter Iter) (hp : p ≠ .start) (h : needs it.d_interrupted)
    (hm : Meets (FilterIter.step env (body env fuel)) FilterIter.AtTest p (it, ())) : HeedsHasNext env fuel needs (.filter p) (filter it)
  | stylesheet (p : Point) (it : StylesheetIter Iter) (h : HeedsHasNext env fuel needs p it.d_iter) :
    HeedsHasNext env fuel needs (.inside p) (stylesheet it)

/-- In `next` it is that of a `MultiIter` that has not been entered yet. -/
inductive HeedsNext (needs : Bool → Prop) : Point → Iter → Prop
  | start (it : Iter) (h : Kept needs it) : HeedsNext needs .start it
  | stylesheet (p : Point) (it : StylesheetIter Iter) (h : HeedsNext needs p it.d_iter) :
    HeedsNext needs (.inside p) (stylesheet it)
  | multi (p : Point) (it : MultiIter Iter) (iter : Iter) (hcur : it.d_currentIter = some iter) (h : HeedsNext needs p iter) :
    HeedsNext needs (.inside p) (multi it)

def Heeds (env : Env) (fuel : Nat) (needs : Bool → Prop) (it : Iter) : Option Call → Prop
  | none => Kept needs it
  | some (.hasNext p) => HeedsHasNext env fuel needs p it
  | some (.next _ p) => HeedsNext needs p it

/-- An interrupt that returns now is heeded. -/
abbrev Heeded (env : Env) (fuel : Nat) (it : Iter) (call : Option Call) : Prop := Heeds env fuel (fun _ => True) it call

/-- The call in progress, or the next one, is going to throw. -/
abbrev Stopped (env : Env) (fuel : Nat) (it : Iter) (call : Option Call) : Prop := Heeds env fuel (· = true) it call

/-- The flags that an `interrupt` has passed are set. -/
def Passed : Strike → Iter → Prop
  | .enter, _ => True
  | .lock, multi it => it.d_interrupted = true
  | .inside k, stylesheet it => Passed k it.d_iter
  | .inside k, multi it => it.d_interrupted = true ∧ ∃ iter, it.d_currentIter = some iter ∧ Passed k iter
  | _, _ => False

/-! ## What an interrupt does -/

/-- A step of `interrupt` leaves all as it is, or sets a flag. -/
inductive Sets : Iter → Iter → Prop
  | same (it : Iter) : Sets it it
  | filter (it : FilterIter Iter) : Sets (filter it) (filter it.interrupt)
  | multi (it : MultiIter Iter) : Sets (multi it) (multi { it with d_interrupted := true })
  | inStylesheet (it : StylesheetIter Iter) (iter : Iter) (h : Sets it.d_iter iter) :
    Sets (stylesheet it) (stylesheet { it with d_iter := iter })
  | inMulti (it : MultiIter Iter) (iter iter' : Iter) (hcur : it.d_currentIter = some iter) (h : Sets iter iter') :
    Sets (Iter.multi it) (Iter.multi { it with d_currentIter := some iter' })

theorem stepInterrupt_sets : ∀ {k : Strike} {k' : Option Strike} {it it' : Iter}, stepInterrupt k it = (k', it') → Sets it it' := by
  intro k
  induction k with
  | enter =>
    intro k' it it' h
    cases it with
    | filter it => obtain ⟨-, rfl⟩ := Prod.mk.inj h; exact .filter it
    | multi it => obtain ⟨-, rfl⟩ := Prod.mk.inj h; exact .multi it
    | empty | index | dir | sortedDir | db | stylesheet => obtain ⟨-, rfl⟩ := Prod.mk.inj h; exact .same _
  | lock =>
    intro k' it it' h
    cases it <;> (obtain ⟨-, rfl⟩ := Prod.mk.inj h; exact .same _)
  | inside k ih =>
    intro k' it it' h
    cases it with
    | stylesheet it =>
      obtain ⟨-, rfl⟩ := Prod.mk.inj h
      exact .inStylesheet it _ (ih rfl)
    | multi it =>
      cases hcur : it.d_currentIter with
      | none =>
        simp only [stepInterrupt, hcur, Prod.mk.injEq] at h
        obtain ⟨-, rfl⟩ := h
        exact .same _
      | some iter =>
        simp only [stepInterrupt, hcur, Prod.mk.injEq] at h
        obtain ⟨-, rfl⟩ := h
        exact .inMulti it iter _ hcur (ih rfl)
    | empty | index | dir | sortedDir | db | filter => obtain ⟨-, rfl⟩ := Prod.mk.inj h; exact .same _

theorem Sets.passed {it it' : Iter} (h : Sets it it') : ∀ {k : Strike}, Passed k it → Passed k it' := by
  induction h with
  | same it => exact id
  | filter it =>
    intro k hk
    cases k with
    | enter => trivial
    | lock | inside => exact hk.elim
  | multi it =>
    intro k hk
    cases k with
    | enter => trivial
    | lock => exact rfl
    | inside k => exact ⟨rfl, hk.2⟩
  | inStylesheet it iter _ ih =>
    intro k hk
    cases k with
    | enter => trivial
    | lock => exact hk.elim
    | inside k => exact ih hk
  | inMulti it iter iter' hcur _ ih =>
    intro k hk
    cases k with
    | enter => trivial
    | lock => exact hk
    | inside k =>
      obtain ⟨hflag, iter₁, hcur₁, hk⟩ := hk
      rw [hcur] at hcur₁
      cases hcur₁
      exact ⟨hflag, iter', rfl, ih hk⟩

theorem Sets.kept {it it' : Iter} (h : Sets it it') : Kept (· = true) it → Kept (· = true) it' := by
  induction h with
  | same it => exact id
  | filter it => intro hk; cases hk
  | multi it => exact fun _ => .multi _ rfl
  | inStylesheet it iter _ ih =>
    intro hk
    cases hk with
    | stylesheet _ hk => exact .stylesheet _ (ih hk)
  | inMulti it iter iter' hcur _ ih =>
    intro hk
    cases hk with
    | multi _ hflag => exact .multi _ hflag

theorem Sets.heedsHasNext {env : Env} {fuel : Nat} {p : Point} {it it' : Iter} (h : Sets it it')
    (hp : HeedsHasNext env fuel (· = true) p it) : HeedsHasNext env fuel (· = true) p it' := by
  induction hp generalizing it' with
  | start it hk => exact .start it' (h.kept hk)
  | multi p it hflag =>
    cases h with
    | same => exact .multi p it hflag
    | multi => exact .multi p _ rfl
    | inMulti => exact .multi p _ hflag
  | filter p it hp hflag hm =>
    cases h with
    | same => exact .filter p it hp hflag hm
    | filter =>
      have hsame : it.interrupt = it := by rw [FilterIter.interrupt, ← hflag]
      rw [hsame]
      exact .filter p it hp hflag hm
  | stylesheet p it hp ih =>
    cases h with
    | same => exact .stylesheet p it hp
    | inStylesheet _ iter h => exact .stylesheet p _ (ih h)

theorem Sets.heedsNext {p : Point} {it it' : Iter} (h : Sets it it') (hp : HeedsNext (· = true) p it) :
    HeedsNext (· = true) p it' := by
  induction hp generalizing it' with
  | start it hk => exact .start it' (h.kept hk)
  | stylesheet p it hp ih =>
    cases h with
    | same => exact .stylesheet p it hp
    | inStylesheet _ iter h => exact .stylesheet p _ (ih h)
  | multi p it iter hcur hp ih =>
    cases h with
    | same => exact .multi p it iter hcur hp
    | multi => exact .multi p _ iter hcur hp
    | inMulti _ iter₁ iter' hcur₁ h =>
      rw [hcur] at hcur₁
      cases hcur₁
      exact .multi p _ iter' rfl (ih h)

/-- A flag that is set stays so, whoever sets one. -/
theorem Sets.stopped {env : Env} {fuel : Nat} {it it' : Iter} (h : Sets it it') {call : Option Call}
    (hs : Stopped env fuel it call) : Stopped env fuel it' call :=
  match call, hs with
  | none, hs => h.kept hs
  | some (.hasNext _), hs => h.heedsHasNext hs
  | some (.next _ _), hs => h.heedsNext hs

/-- An `interrupt` that goes on has set the flags it has passed. -/
theorem passed_step : ∀ {k k' : Strike} {it it' : Iter}, stepInterrupt k it = (some k', it') → Passed k it → Passed k' it' := by
  intro k
  induction k with
  | enter =>
    intro k' it it' h _
    cases it with
    | stylesheet it => cases h; trivial
    | multi it => cases h; exact rfl
    | empty | index | dir | sortedDir | db | filter => cases h
  | lock =>
    intro k' it it' h hk
    cases it with
    | multi it =>
      cases hcur : it.d_currentIter with
      | none => simp [stepInterrupt, hcur] at h
      | some iter =>
        simp only [stepInterrupt, hcur, Option.isNone_some, Bool.false_eq_true, if_false, Prod.mk.injEq, Option.some.injEq] at h
        obtain ⟨rfl, rfl⟩ := h
        exact ⟨hk, iter, hcur, trivial⟩
    | empty | index | dir | sortedDir | db | filter | stylesheet => exact hk.elim
  | inside k ih =>
    intro k' it it' h hk
    cases it with
    | stylesheet it =>
      rcases hin : stepInterrupt k it.d_iter with ⟨k₁, iter⟩
      simp only [stepInterrupt, hin, Prod.mk.injEq, Option.map_eq_some_iff] at h
      obtain ⟨⟨k₁, rfl, rfl⟩, rfl⟩ := h
      have hpassed : Passed k₁ iter := ih hin hk
      exact hpassed
    | multi it =>
      obtain ⟨hflag, iter, hcur, hk⟩ := hk
      rcases hin : stepInterrupt k iter with ⟨k₁, iter₁⟩
      simp only [stepInterrupt, hcur, hin, Prod.mk.injEq, Option.map_eq_some_iff] at h
      obtain ⟨⟨k₁, rfl, rfl⟩, rfl⟩ := h
      exact ⟨hflag, iter₁, rfl, ih hin hk⟩
    | empty | index | dir | sortedDir | db | filter => exact hk.elim

/-- An `interrupt` has been through all of the iterator. -/
inductive Struck : Iter → Prop
  | empty : Struck empty
  | index (it : IndexIter) : Struck (index it)
  | dir (it : DirIter) : Struck (dir it)
  | sortedDir (it : SortedDirIter) : Struck (sortedDir it)
  | db (it : DbIter) : Struck (db it)
  | filter (it : FilterIter Iter) (h : it.d_interrupted = true) : Struck (filter it)
  | stylesheet (it : StylesheetIter Iter) (h : Struck it.d_iter) : Struck (stylesheet it)
  | multi (it : MultiIter Iter) (h : it.d_interrupted = true) (hcur : ∀ iter, it.d_currentIter = some iter → Struck iter) :
    Struck (multi it)

/-- When `interrupt` returns, it has. -/
theorem struck_of_step : ∀ {k : Strike} {it it' : Iter}, stepInterrupt k it = (none, it') → Passed k it → Struck it' := by
  intro k
  induction k with
  | enter =>
    intro it it' h _
    cases it with
    | empty => obtain ⟨-, rfl⟩ := Prod.mk.inj h; exact .empty
    | index it => obtain ⟨-, rfl⟩ := Prod.mk.inj h; exact .index it
    | dir it => obtain ⟨-, rfl⟩ := Prod.mk.inj h; exact .dir it
    | sortedDir it => obtain ⟨-, rfl⟩ := Prod.mk.inj h; exact .sortedDir it
    | db it => obtain ⟨-, rfl⟩ := Prod.mk.inj h; exact .db it
    | filter it => obtain ⟨-, rfl⟩ := Prod.mk.inj h; exact .filter _ rfl
    | stylesheet | multi => cases h
  | lock =>
    intro it it' h hk
    cases it with
    | multi it =>
      cases hcur : it.d_currentIter with
      | some iter => simp [stepInterrupt, hcur] at h
      | none =>
        obtain ⟨-, rfl⟩ := Prod.mk.inj h
        exact .multi it hk fun iter hsome => by rw [hcur] at hsome; cases hsome
    | empty | index | dir | sortedDir | db | filter | stylesheet => exact hk.elim
  | inside k ih =>
    intro it it' h hk
    cases it with
    | stylesheet it =>
      rcases hin : stepInterrupt k it.d_iter with ⟨k₁, iter⟩
      simp only [stepInterrupt, hin, Prod.mk.injEq, Option.map_eq_none_iff] at h
      obtain ⟨rfl, rfl⟩ := h
      exact .stylesheet _ (ih hin hk)
    | multi it =>
      obtain ⟨hflag, iter, hcur, hk⟩ := hk
      rcases hin : stepInterrupt k iter with ⟨k₁, iter₁⟩
      simp only [stepInterrupt, hcur, hin, Prod.mk.injEq, Option.map_eq_none_iff] at h
      obtain ⟨rfl, rfl⟩ := h
      exact .multi _ hflag fun iter₂ hsome => Option.some.inj hsome ▸ ih hin hk
    | empty | index | dir | sortedDir | db | filter => exact hk.elim

theorem Struck.kept {it : Iter} (h : Struck it) (hk : Kept (fun _ => True) it) : Kept (· = true) it := by
  induction hk with
  | multi it _ =>
    cases h with
    | multi _ hflag => exact .multi it hflag
  | stylesheet it _ ih =>
    cases h with
    | stylesheet _ h => exact .stylesheet it (ih h)

theorem Struck.heedsHasNext {env : Env} {fuel : Nat} {p : Point} {it : Iter} (h : Struck it)
    (hp : HeedsHasNext env fuel (fun _ => True) p it) : HeedsHasNext env fuel (· = true) p it := by
  induction hp with
  | start it hk => exact .start it (h.kept hk)
  | multi p it _ =>
    cases h with
    | multi _ hflag => exact .multi p it hflag
  | filter p it hp _ hm =>
    cases h with
    | filter _ hflag => exact .filter p it hp hflag hm
  | stylesheet p it _ ih =>
    cases h with
    | stylesheet _ h => exact .stylesheet p it (ih h)

theorem Struck.heedsNext {p : Point} {it : Iter} (h : Struck it) (hp : HeedsNext (fun _ => True) p it) :
    HeedsNext (· = true) p it := by
  induction hp with
  | start it hk => exact .start it (h.kept hk)
  | stylesheet p it _ ih =>
    cases h with
    | stylesheet _ h => exact .stylesheet p it (ih h)
  | multi p it iter hcur _ ih =>
    cases h with
    | multi _ _ h => exact .multi p it iter hcur (ih (h iter hcur))

/-- An interrupt that is heeded stops the call in progress, or the next. -/
theorem Struck.stopped {env : Env} {fuel : Nat} {it : Iter} (h : Struck it) {call : Option Call} (hc : Heeded env fuel it call) :
    Stopped env fuel it call :=
  match call, hc with
  | none, hc => h.kept hc
  | some (.hasNext _), hc => h.heedsHasNext hc
  | some (.next _ _), hc => h.heedsNext hc

/-! ## What a call does -/

variable {env : Env} {fuel : Nat} {rdr : Reader} {p : Point} {it' : Iter}

theorem advance_flag {openTip : MultiIter Iter → ReaderIter → Unit → Outcome (Option (Corpus × Iter)) × Unit}
    {s s' : MultiIter Iter × Unit} {r : Outcome Unit} (h : MultiIter.advance openTip s = (r, s')) :
    s'.1.d_interrupted = s.1.d_interrupted := by
  rw [MultiIter.advance] at h
  split at h
  · obtain ⟨-, rfl⟩ := Prod.mk.inj h
    rfl
  · simp only at h
    split at h <;> (obtain ⟨-, rfl⟩ := Prod.mk.inj h; rfl)

/-- What a step of `hasNext` does to a `MultiIter`. -/
theorem stepHasNext_multi {it : MultiIter Iter} {t : Turn Point (Outcome Bool)}
    (h : stepHasNext env fuel p (multi it) = (t, it')) :
    it' = multi it ∨
      (∃ q iter, (p = .current q ∨ p = .inside q) ∧ it.d_currentIter = some iter ∧
        it' = multi { it with d_currentIter := some (stepHasNext env fuel q iter).2 }) ∨
      (p = .advance ∧ ∃ it₁ : MultiIter Iter, it' = multi it₁ ∧ it₁.d_interrupted = it.d_interrupted) := by
  cases p with
  | start | corpora | last | filter p => obtain ⟨-, rfl⟩ := Prod.mk.inj h; exact .inl rfl
  | current q =>
    cases hcur : it.d_currentIter with
    | none =>
      simp only [stepHasNext, hcur, astray, Prod.mk.injEq] at h
      exact .inl h.2.symm
    | some iter =>
      simp only [stepHasNext, hcur, Prod.mk.injEq] at h
      exact .inr (.inl ⟨q, iter, .inl rfl, rfl, h.2.symm⟩)
  | inside q =>
    cases hcur : it.d_currentIter with
    | none =>
      simp only [stepHasNext, hcur, astray, Prod.mk.injEq] at h
      exact .inl h.2.symm
    | some iter =>
      simp only [stepHasNext, hcur, Prod.mk.injEq] at h
      exact .inr (.inl ⟨q, iter, .inr rfl, rfl, h.2.symm⟩)
  | advance =>
    rcases ha : MultiIter.advance (MultiIter.openTip env (start env)) (it, ()) with ⟨e | u, it₁, w⟩
    · simp only [stepHasNext, ha, Prod.mk.injEq] at h
      exact .inr (.inr ⟨rfl, it₁, h.2.symm, advance_flag ha⟩)
    · simp only [stepHasNext, ha, Prod.mk.injEq] at h
      exact .inr (.inr ⟨rfl, it₁, h.2.symm, advance_flag ha⟩)

theorem stepHasNext_stylesheet {it : StylesheetIter Iter} {t : Turn Point (Outcome Bool)}
    (h : stepHasNext env fuel p (stylesheet it) = (t, it')) :
    it' = stylesheet it ∨ ∃ q, p = .inside q ∧ it' = stylesheet { it with d_iter := (stepHasNext env fuel q it.d_iter).2 } := by
  cases p with
  | inside q => obtain ⟨-, rfl⟩ := Prod.mk.inj h; exact .inr ⟨q, rfl, rfl⟩
  | start | corpora | last | filter | current | advance => obtain ⟨-, rfl⟩ := Prod.mk.inj h; exact .inl rfl

/-- It does not touch the flag. -/
theorem stepHasNext_flag {it : MultiIter Iter} {t : Turn Point (Outcome Bool)}
    (h : stepHasNext env fuel p (multi it) = (t, it')) :
    ∃ it₁ : MultiIter Iter, it' = multi it₁ ∧ it₁.d_interrupted = it.d_interrupted := by
  rcases stepHasNext_multi h with rfl | ⟨q, iter, -, -, rfl⟩ | ⟨-, it₁, rfl, hflag⟩
  · exact ⟨it, rfl, rfl⟩
  · exact ⟨_, rfl, rfl⟩
  · exact ⟨it₁, rfl, hflag⟩

/-- A step that does not have to wait leaves the flags passed as they are. -/
theorem passed_hasNext : ∀ {k : Strike} {p : Point} {it it' : Iter} {t : Turn Point (Outcome Bool)},
    stepHasNext env fuel p it = (t, it') → ¬p.Waits k → Passed k it → Passed k it' := by
  intro k
  induction k with
  | enter => exact fun _ _ _ => trivial
  | lock =>
    intro p it it' t h _ hk
    cases it with
    | multi it =>
      obtain ⟨it₁, rfl, hflag⟩ := stepHasNext_flag h
      exact hflag.trans hk
    | empty | index | dir | sortedDir | db | filter | stylesheet => exact hk.elim
  | inside k ih =>
    intro p it it' t h hw hk
    cases it with
    | stylesheet it =>
      rcases stepHasNext_stylesheet h with rfl | ⟨q, rfl, rfl⟩
      · exact hk
      · exact ih (Prod.mk.eta.symm) hw hk
    | multi it =>
      rcases stepHasNext_multi h with rfl | ⟨q, iter, hp, hcur, rfl⟩ | ⟨rfl, -⟩
      · exact hk
      · obtain ⟨hflag, iter₁, hcur₁, hk⟩ := hk
        rw [hcur] at hcur₁
        cases hcur₁
        have hw : ¬q.Waits k := by
          rcases hp with rfl | rfl
          · exact hw
          · exact hw
        exact ⟨hflag, _, rfl, ih (Prod.mk.eta.symm) hw hk⟩
      · exact absurd trivial hw
    | empty | index | dir | sortedDir | db | filter => exact hk.elim

/-- What a step of `next` does to a `MultiIter`. -/
theorem stepNext_multi {it : MultiIter Iter} {t : Turn Point (Outcome Entry)} (h : stepNext env rdr p (multi it) = (t, it')) :
    it' = multi it ∨ ∃ q iter, p = .inside q ∧ it.d_currentIter = some iter ∧
      it' = multi { it with d_currentIter := some (stepNext env rdr q iter).2 } := by
  cases p with
  | inside q =>
    cases hcur : it.d_currentIter with
    | none =>
      simp only [stepNext, hcur, astray, Prod.mk.injEq] at h
      exact .inl h.2.symm
    | some iter =>
      simp only [stepNext, hcur, Prod.mk.injEq] at h
      exact .inr ⟨q, iter, rfl, rfl, h.2.symm⟩
  | start | corpora | last | filter | current | advance => obtain ⟨-, rfl⟩ := Prod.mk.inj h; exact .inl rfl

theorem stepNext_stylesheet {it : StylesheetIter Iter} {t : Turn Point (Outcome Entry)}
    (h : stepNext env rdr p (stylesheet it) = (t, it')) :
    it' = stylesheet it ∨ ∃ q, p = .inside q ∧ it' = stylesheet { it with d_iter := (stepNext env rdr q it.d_iter).2 } := by
  cases p with
  | inside q => obtain ⟨-, rfl⟩ := Prod.mk.inj h; exact .inr ⟨q, rfl, rfl⟩
  | start | corpora | last | filter | current | advance => obtain ⟨-, rfl⟩ := Prod.mk.inj h; exact .inl rfl

theorem passed_next : ∀ {k : Strike} {p : Point} {it it' : Iter} {t : Turn Point (Outcome Entry)},
    stepNext env rdr p it = (t, it') → Passed k it → Passed k it' := by
  intro k
  induction k with
  | enter => exact fun _ _ => trivial
  | lock =>
    intro p it it' t h hk
    cases it with
    | multi it =>
      rcases stepNext_multi h with rfl | ⟨q, iter, -, -, rfl⟩
      · exact hk
      · exact hk
    | empty | index | dir | sortedDir | db | filter | stylesheet => exact hk.elim
  | inside k ih =>
    intro p it it' t h hk
    cases it with
    | stylesheet it =>
      rcases stepNext_stylesheet h with rfl | ⟨q, rfl, rfl⟩
      · exact hk
      · exact ih (Prod.mk.eta.symm) hk
    | multi it =>
      rcases stepNext_multi h with rfl | ⟨q, iter, rfl, hcur, rfl⟩
      · exact hk
      · obtain ⟨hflag, iter₁, hcur₁, hk⟩ := hk
        rw [hcur] at hcur₁
        cases hcur₁
        exact ⟨hflag, _, rfl, ih (Prod.mk.eta.symm) hk⟩
    | empty | index | dir | sortedDir | db | filter => exact hk.elim

/-! ## Steps to the flag -/

/-- A step of a filter that has cleared its flag leaves the flag alone. -/
theorem step_flag {q q' : FilterIter.Point} {s s' : FilterIter Iter × Unit}
    (h : FilterIter.step env (body env fuel) q s = (.goes q', s')) (hq : q ≠ .start) :
    q' ≠ .start ∧ s'.1.d_interrupted = s.1.d_interrupted := by
  obtain ⟨it, w⟩ := s
  cases q with
  | start => exact absurd rfl hq
  | loop =>
    rw [FilterIter.step] at h
    split at h
    · cases h
    · split at h <;> cases h
      exact ⟨by simp, rfl⟩
  | take =>
    rw [FilterIter.step] at h
    split at h <;> cases h
    exact ⟨by simp, rfl⟩
  | test e =>
    rw [FilterIter.step] at h
    split at h
    · cases h
      exact ⟨by simp, rfl⟩
    · split at h <;> cases h
      exact ⟨by simp, rfl⟩
  | parse e =>
    rw [FilterIter.step] at h
    split at h
    · cases h
    · next it₁ hparse =>
      cases h
      obtain ⟨r, vs, hcases, -⟩ := FilterIter.parseFile_cases env { it with d_file := e.name } e w
      cases hcases.symm.trans hparse
      exact ⟨by simp, rfl⟩

/-- A filter on its way to the flag, which is set, throws. -/
theorem filter_stopped {q : FilterIter.Point} {it : FilterIter Iter} (hq : q ≠ .start) (hflag : it.d_interrupted = true)
    (hm : Meets (FilterIter.step env (body env fuel)) FilterIter.AtTest q (it, ())) :
    (stepFilter env fuel q it).1 = .ends (raise .iterationInterrupted) ∨
      ∃ q', (stepFilter env fuel q it).1 = .goes (.filter q') ∧
        HeedsHasNext env fuel (· = true) (.filter q') (stepFilter env fuel q it).2 := by
  rcases hm.cases with ⟨e, rfl, hname⟩ | ⟨q', s', hstep, hm⟩
  · have hthrow : FilterIter.step env (body env fuel) (.test e) (it, ()) = (.ends (raise .iterationInterrupted), (it, ())) := by
      rw [FilterIter.step, if_neg hname, if_pos hflag]
    exact .inl (by rw [stepFilter, hthrow]; rfl)
  · obtain ⟨hq', hsame⟩ := step_flag hstep hq
    refine .inr ⟨q', by rw [stepFilter, hstep]; rfl, ?_⟩
    rw [stepFilter, hstep]
    exact .filter q' s'.1 hq' (hsame.trans hflag) hm

/-- A step of a `hasNext` that is going to be stopped, or the `next` after
it. -/
theorem HeedsHasNext.step {it : Iter} {t : Turn Point (Outcome Bool)} (h : HeedsHasNext env fuel (· = true) p it) :
    ∀ {it' : Iter}, stepHasNext env fuel p it = (t, it') →
    t = .ends (raise .iterationInterrupted) ∨ (∃ p', t = .goes p' ∧ HeedsHasNext env fuel (· = true) p' it') ∨
      ∃ r, t = .ends r ∧ Kept (· = true) it' := by
  have hmulti : ∀ {p : Point} {it : MultiIter Iter} {it' : Iter} {t : Turn Point (Outcome Bool)}, it.d_interrupted = true →
      stepHasNext env fuel p (.multi it) = (t, it') →
      (∃ p', t = .goes p' ∧ HeedsHasNext env fuel (· = true) p' it') ∨ ∃ r, t = .ends r ∧ Kept (· = true) it' := by
    intro p it it' t hflag h
    obtain ⟨it₁, rfl, hsame⟩ := stepHasNext_flag h
    cases t with
    | goes p' => exact .inl ⟨p', rfl, .multi p' it₁ (hsame.trans hflag)⟩
    | ends r => exact .inr ⟨r, rfl, .multi it₁ (hsame.trans hflag)⟩
  induction h generalizing t with
  | start it hk =>
    intro it' hs
    cases hk with
    | multi it hflag => exact .inr (hmulti hflag hs)
    | stylesheet it hk =>
      obtain ⟨rfl, rfl⟩ := Prod.mk.inj hs
      exact .inr (.inl ⟨_, rfl, .stylesheet _ it (.start _ hk)⟩)
  | multi p it hflag =>
    intro it' hs
    exact .inr (hmulti hflag hs)
  | filter q it hq hflag hm =>
    intro it' hs
    have hs : stepFilter env fuel q it = (t, it') := hs
    rcases filter_stopped hq hflag hm with hthrow | ⟨q', hgoes, hh⟩
    · exact .inl (by rw [← hthrow, hs])
    · rw [hs] at hgoes hh
      exact .inr (.inl ⟨_, hgoes, hh⟩)
  | stylesheet p it _ ih =>
    intro it' hs
    rcases hin : stepHasNext env fuel p it.d_iter with ⟨t₁, iter⟩
    simp only [stepHasNext, hin, Prod.mk.injEq] at hs
    obtain ⟨rfl, rfl⟩ := hs
    rcases ih hin with rfl | ⟨p', rfl, hh⟩ | ⟨r, rfl, hk⟩
    · exact .inl rfl
    · exact .inr (.inl ⟨_, rfl, .stylesheet p' _ hh⟩)
    · exact .inr (.inr ⟨r, rfl, .stylesheet _ hk⟩)

theorem HeedsNext.step {it : Iter} {t : Turn Point (Outcome Entry)} (h : HeedsNext (· = true) p it) :
    ∀ {it' : Iter}, stepNext env rdr p it = (t, it') →
    t = .ends (raise .iterationInterrupted) ∨ ∃ p', t = .goes p' ∧ HeedsNext (· = true) p' it' := by
  induction h generalizing t with
  | start it hk =>
    intro it' hs
    cases hk with
    | multi it hflag =>
      simp only [stepNext, hflag, if_true, Prod.mk.injEq] at hs
      exact .inl hs.1.symm
    | stylesheet it hk =>
      obtain ⟨rfl, rfl⟩ := Prod.mk.inj hs
      exact .inr ⟨_, rfl, .stylesheet _ it (.start _ hk)⟩
  | stylesheet p it _ ih =>
    intro it' hs
    rcases hin : stepNext env rdr p it.d_iter with ⟨t₁, iter⟩
    simp only [stepNext, hin, Prod.mk.injEq] at hs
    obtain ⟨rfl, rfl⟩ := hs
    rcases ih hin with rfl | ⟨p', rfl, hh⟩
    · exact .inl rfl
    · exact .inr ⟨_, rfl, .stylesheet p' _ hh⟩
  | multi p it iter hcur _ ih =>
    intro it' hs
    rcases hin : stepNext env rdr p iter with ⟨t₁, iter₁⟩
    simp only [stepNext, hcur, hin, Prod.mk.injEq] at hs
    obtain ⟨rfl, rfl⟩ := hs
    rcases ih hin with rfl | ⟨p', rfl, hh⟩
    · exact .inl rfl
    · exact .inr ⟨_, rfl, .multi p' _ iter₁ rfl hh⟩

/-! ## Runs -/

/-- The flags that the interrupts under way have passed are set. -/
def Session.Passed (s : Session) : Prop := ∀ k ∈ s.strikes, Iter.Passed k s.it

theorem Call.step_ne_interrupted {c : Call} {it it' it₁ : Iter} {call : Option Call} :
    c.step env fuel it ≠ (.ends (.interrupted it₁ call), it') := by
  intro h
  cases c with
  | hasNext p =>
    rcases hs : stepHasNext env fuel p it with ⟨p' | r, it₂⟩
    · simp [Call.step, hs, Turn.inside] at h
    · cases r <;> simp [Call.step, hs, Turn.inside, Event.ofHasNext] at h
  | next rdr p =>
    rcases hs : stepNext env rdr p it with ⟨p' | r, it₂⟩
    · simp [Call.step, hs, Turn.inside] at h
    · cases r <;> simp [Call.step, hs, Turn.inside, Event.ofNext] at h

theorem Call.step_passed {c : Call} {it it' : Iter} {t : Turn Call Event} {k : Strike} (h : c.step env fuel it = (t, it'))
    (hw : ¬c.Waits k) (hk : Iter.Passed k it) : Iter.Passed k it' := by
  cases c with
  | hasNext p =>
    obtain ⟨-, rfl⟩ := Prod.mk.inj h
    exact passed_hasNext (Prod.mk.eta.symm) hw hk
  | next rdr p =>
    obtain ⟨-, rfl⟩ := Prod.mk.inj h
    exact passed_next (Prod.mk.eta.symm) hk

theorem Move.passed {s s' : Session} {ev : Option Event} (h : Move env fuel s ev s') (hs : s.Passed) : s'.Passed := by
  cases h with
  | hasNext => exact hs
  | next => exact hs
  | goes h hw => exact fun k hk => Call.step_passed h (hw k hk) (hs k hk)
  | ends h hw => exact fun k hk => Call.step_passed h (hw k hk) (hs k hk)
  | interrupt =>
    intro k hk
    rcases List.mem_cons.mp hk with rfl | hk
    · trivial
    · exact hs k hk
  | strike h _ =>
    obtain ⟨hks, hk, hks'⟩ := by simpa only [Session.Passed, List.forall_mem_append, List.forall_mem_cons] using hs
    have hsets := stepInterrupt_sets h
    simp only [Session.Passed, List.forall_mem_append, List.forall_mem_cons]
    exact ⟨fun j hj => hsets.passed (hks j hj), passed_step h hk, fun j hj => hsets.passed (hks' j hj)⟩
  | struck h _ =>
    obtain ⟨hks, -, hks'⟩ := by simpa only [Session.Passed, List.forall_mem_append, List.forall_mem_cons] using hs
    have hsets := stepInterrupt_sets h
    simp only [Session.Passed, List.forall_mem_append]
    exact ⟨fun j hj => hsets.passed (hks j hj), fun j hj => hsets.passed (hks' j hj)⟩

/-- A call that is going to be stopped throws, goes on so, or returns to a
client whose next call is. It does not return an entry. -/
theorem Call.step_stopped {c : Call} {it it' : Iter} {t : Turn Call Event} (h : c.step env fuel it = (t, it'))
    (hc : Stopped env fuel it (some c)) :
    t = .ends (.failed (.raised .iterationInterrupted)) ∨ (∃ c', t = .goes c' ∧ Stopped env fuel it' (some c')) ∨
      ∃ ev, t = .ends ev ∧ (∀ e, ev ≠ .entry e) ∧ Stopped env fuel it' none := by
  cases c with
  | hasNext p =>
    rcases hs : stepHasNext env fuel p it with ⟨t₁, it₁⟩
    simp only [Call.step, hs, Prod.mk.injEq] at h
    obtain ⟨rfl, rfl⟩ := h
    rcases HeedsHasNext.step hc hs with rfl | ⟨p', rfl, hp⟩ | ⟨r, rfl, hk⟩
    · exact .inl rfl
    · exact .inr (.inl ⟨.hasNext p', rfl, hp⟩)
    · refine .inr (.inr ⟨.ofHasNext r, rfl, fun e he => ?_, hk⟩)
      cases r <;> cases he
  | next rdr p =>
    rcases hs : stepNext env rdr p it with ⟨t₁, it₁⟩
    simp only [Call.step, hs, Prod.mk.injEq] at h
    obtain ⟨rfl, rfl⟩ := h
    rcases HeedsNext.step hc hs with rfl | ⟨p', rfl, hp⟩
    · exact .inl rfl
    · exact .inr (.inl ⟨.next rdr p', rfl, hp⟩)

theorem Move.stopped {s s' : Session} {ev : Option Event} (h : Move env fuel s ev s') (hs : Stopped env fuel s.it s.call) :
    ev = some (.failed (.raised .iterationInterrupted)) ∨
      (∀ e, ev ≠ some (.entry e)) ∧ Stopped env fuel s'.it s'.call := by
  cases h with
  | hasNext => exact .inr ⟨fun e => by simp, .start _ hs⟩
  | next => exact .inr ⟨fun e => by simp, .start _ hs⟩
  | goes h _ =>
    rcases Call.step_stopped h hs with ht | ⟨c', ht, hc⟩ | ⟨ev, ht, -⟩
    · cases ht
    · cases ht
      exact .inr ⟨fun e => by simp, hc⟩
    · cases ht
  | ends h _ =>
    rcases Call.step_stopped h hs with ht | ⟨c', ht, hc⟩ | ⟨ev, ht, hev, hc⟩
    · cases ht
      exact .inl rfl
    · cases ht
    · cases ht
      exact .inr ⟨fun e he => hev e (Option.some.inj he), hc⟩
  | interrupt => exact .inr ⟨fun e => by simp, hs⟩
  | strike h _ => exact .inr ⟨fun e => by simp, (stepInterrupt_sets h).stopped hs⟩
  | struck h _ => exact .inr ⟨fun e => by simp, (stepInterrupt_sets h).stopped hs⟩

/-- **Interrupts that are heeded are not lost.** -/
theorem interrupts_not_lost {it : Iter} {evs : List Event} {s : Session} (hrun : Runs (Move env fuel) ⟨it, none, []⟩ evs s)
    (hheeded : ∀ a it' call b e c, evs = a ++ .interrupted it' call :: (b ++ .entry e :: c) → Heeded env fuel it' call) :
    NotLost evs := by
  intro a it' call b e c hevs
  have hstart : ∀ {s : Session} {ev : Event} {s' : Session}, s.Passed →
      (∃ it call, ev = .interrupted it call ∧ Heeded env fuel it call) → Move env fuel s (some ev) s' →
      Stopped env fuel s'.it s'.call := by
    intro s ev s' hs hev h
    obtain ⟨it₁, call₁, rfl, hh⟩ := hev
    cases h with
    | ends h _ => exact absurd h Call.step_ne_interrupted
    | struck h _ => exact (struck_of_step h (hs _ (by simp))).stopped hh
  have hkeep : ∀ {s : Session} {ev : Option Event} {s' : Session}, s.Passed → Stopped env fuel s.it s.call →
      Move env fuel s ev s' → (∀ e, ev = some e → ¬e = .failed (.raised .iterationInterrupted)) →
      Stopped env fuel s'.it s'.call := by
    intro s ev s' _ hq h hstop
    rcases h.stopped hq with rfl | ⟨-, hq'⟩
    · exact absurd rfl (hstop _ rfl)
    · exact hq'
  have hbad : ∀ {s : Session} {ev : Event} {s' : Session}, s.Passed → Stopped env fuel s.it s.call →
      Move env fuel s (some ev) s' → ¬∃ e, ev = .entry e := by
    intro s ev s' _ hq h hbad
    obtain ⟨e, rfl⟩ := hbad
    rcases h.stopped hq with he | ⟨hne, -⟩
    · cases he
    · exact hne e rfl
  obtain ⟨-, huntil⟩ := hrun.until Session.Passed (fun s => Stopped env fuel s.it s.call) _
    (fun ev => ev = .failed (.raised .iterationInterrupted)) (fun ev => ∃ e, ev = .entry e) (fun k hk => by cases hk)
    (fun hs h => h.passed hs) hstart hkeep hbad hevs ⟨it', call, rfl, hheeded a it' call b e c hevs⟩
  obtain ⟨ev, hmem, rfl⟩ := huntil b _ c rfl ⟨e, rfl⟩
  exact hmem

/-! ## Clients that are left alone -/

variable {s₀ : Session} {evs : List Event} {it : Iter}

theorem runs_of_yields_hasNext {r : Outcome Bool} (h : Yields (stepHasNext env fuel) p it r it')
    (hr : Runs (Move env fuel) s₀ evs ⟨it, some (.hasNext p), []⟩) :
    Runs (Move env fuel) s₀ (evs ++ [.ofHasNext r]) ⟨it', none, []⟩ := by
  induction h with
  | ends h => exact hr.event (.ends (by rw [Call.step, h]; rfl) fun k hk => (by cases hk))
  | goes h _ ih => exact ih (hr.silent (.goes (by rw [Call.step, h]; rfl) fun k hk => (by cases hk)))

theorem runs_of_yields_next {r : Outcome Entry} (h : Yields (stepNext env rdr) p it r it')
    (hr : Runs (Move env fuel) s₀ evs ⟨it, some (.next rdr p), []⟩) :
    Runs (Move env fuel) s₀ (evs ++ [.ofNext r]) ⟨it', none, []⟩ := by
  induction h with
  | ends h => exact hr.event (.ends (by rw [Call.step, h]; rfl) fun k hk => (by cases hk))
  | goes h _ ih => exact ih (hr.silent (.goes (by rw [Call.step, h]; rfl) fun k hk => (by cases hk)))

/-- What a call of the model in one piece gives is seen of a client whom no
interrupt disturbs. -/
theorem runs_hasNext {r : Outcome Bool} {w : Unit} (h : (body env (fuel + 1)).hasNext (it, ()) = (r, (it', w)))
    (hunf : r ≠ .error .unfinished) (hr : Runs (Move env fuel) s₀ evs ⟨it, none, []⟩) :
    Runs (Move env fuel) s₀ (evs ++ [.ofHasNext r]) ⟨it', none, []⟩ :=
  runs_of_yields_hasNext ((body_steps le_rfl).hasNext h hunf) (hr.silent .hasNext)

theorem runs_next {r : Outcome Entry} {w : Unit} (h : (body env (fuel + 1)).next rdr (it, ()) = (r, (it', w)))
    (hunf : r ≠ .error .unfinished) (hr : Runs (Move env fuel) s₀ evs ⟨it, none, []⟩) :
    Runs (Move env fuel) s₀ (evs ++ [.ofNext r]) ⟨it', none, []⟩ :=
  runs_of_yields_next ((body_steps le_rfl).next h hunf) (hr.silent (.next rdr))

/-- The filter of the samples, when it has parsed an entry. -/
def parsedFilter (names : List Str) (file : Str) (buffer : List Str) : FilterIter Iter :=
  { FilterIter.sampleFilter (str "//a") names false with d_file := file, d_buffer := buffer }

/-- Between two calls, a filter forgets an interrupt: `hasNext` is true, the
interrupt returns, and `next` returns the entry. -/
theorem interrupt_lost :
    ∃ it evs s, Runs (Move (sampleEnv [] sampleValues) 2) ⟨it, none, []⟩ evs s ∧ ¬NotLost evs := by
  have hhas : (body (sampleEnv [] sampleValues) 3).hasNext (filter (FilterIter.sampleFilter (str "//a") [str "1.xml"] false), ()) =
      (.ok true, (filter (parsedFilter [] (str "1.xml") [str "x"]), ())) := rfl
  have hnext : (body (sampleEnv [] sampleValues) 3).next (.multi .empty)
      (filter (parsedFilter [] (str "1.xml") [str "x"]).interrupt, ()) =
        (.ok ⟨str "1.xml", str "x"⟩, (filter (parsedFilter [] (str "1.xml") []).interrupt, ())) := rfl
  have hready : Runs (Move (sampleEnv [] sampleValues) 2)
      ⟨filter (FilterIter.sampleFilter (str "//a") [str "1.xml"] false), none, []⟩ [.more true]
      ⟨filter (parsedFilter [] (str "1.xml") [str "x"]), none, []⟩ := runs_hasNext hhas (by simp) .nil
  have hstruck := (hready.silent .interrupt).event (@Move.struck _ _ _ _ _ _ [] [] rfl fun j hj => (by cases hj))
  refine ⟨_, _, _, runs_next hnext (by simp) hstruck, fun h => ?_⟩
  have hthrown := h [.more true] _ _ [] _ [] rfl
  cases hthrown

/-- A filter interrupted while it takes the first entry, and asked again. -/
theorem sample_interrupts_not_lost :
    NotLost [.interrupted (filter (FilterIter.sampleFilter (str "//a") [str "2.xml"] true))
        (some (.hasNext (.filter (.test ⟨str "1.xml", []⟩)))),
      .failed (.raised .iterationInterrupted), .more true, .entry ⟨str "2.xml", str "y"⟩] := by
  have htaken : Runs (Move (sampleEnv [] sampleValues) 2)
      ⟨filter (FilterIter.sampleFilter (str "//a") [str "1.xml", str "2.xml"] false), none, []⟩ []
      ⟨filter (FilterIter.sampleFilter (str "//a") [str "2.xml"] false),
        some (.hasNext (.filter (.test ⟨str "1.xml", []⟩))), []⟩ := by
    have hgoes : ∀ {c c' : Call} {it it' : Iter}, Call.step (sampleEnv [] sampleValues) 2 c it = (.goes c', it') →
        Move (sampleEnv [] sampleValues) 2 ⟨it, some c, []⟩ none ⟨it', some c', []⟩ :=
      fun h => .goes h fun k hk => (by cases hk)
    exact (((Runs.nil.silent .hasNext).silent (hgoes rfl)).silent (hgoes rfl)).silent (hgoes rfl)
  have hstruck := (htaken.silent .interrupt).event (@Move.struck _ _ _ _ _ _ [] [] rfl fun j hj => (by cases hj))
  have hthrown := hstruck.event (.ends rfl fun k hk => (by cases hk))
  have hhas : (body (sampleEnv [] sampleValues) 3).hasNext (filter (FilterIter.sampleFilter (str "//a") [str "2.xml"] true), ()) =
      (.ok true, (filter (parsedFilter [] (str "2.xml") [str "y", str "z"]), ())) := rfl
  have hnext : (body (sampleEnv [] sampleValues) 3).next (.multi .empty)
      (filter (parsedFilter [] (str "2.xml") [str "y", str "z"]), ()) =
        (.ok ⟨str "2.xml", str "y"⟩, (filter (parsedFilter [] (str "2.xml") [str "z"]), ())) := rfl
  refine interrupts_not_lost (runs_next hnext (by simp) (runs_hasNext hhas (by simp) hthrown)) ?_
  intro a it' call b e c hevs
  have hmem : Event.interrupted it' call ∈ a ++ .interrupted it' call :: (b ++ .entry e :: c) := by simp
  rw [← hevs] at hmem
  simp only [List.mem_cons, Event.interrupted.injEq, reduceCtorEq, List.not_mem_nil, or_false] at hmem
  obtain ⟨rfl, rfl⟩ := hmem
  exact .filter _ _ (by simp) trivial (.here ⟨_, rfl, by decide⟩)

end Iter

end AlpinoCorpus
