/-
Threads that share a state behind one lock.

A call of a thread returns at once, or takes the lock, runs its steps one by
one on the shared state and on a state of its own, and gives the lock back.
Between any two steps any other thread may run. Whatever the interleaving,
the calls can be put in one order in which, run alone one after another,
they return the same and leave the same shared state: `linearizable`.
-/
import Mathlib

namespace Locking

variable {ι Op σ κ : Type*}

/-- What a call does. Its own state, at the end, is what it returns. -/
inductive Call (σ κ : Type*)
  | returns (result : κ)
  | locks (own : κ) (steps : List (σ × κ → σ × κ))

def runSteps (steps : List (σ × κ → σ × κ)) (s : σ × κ) : σ × κ := steps.foldl (fun s f => f s) s

theorem runSteps_append (fs gs : List (σ × κ → σ × κ)) (s : σ × κ) :
    runSteps (fs ++ gs) s = runSteps gs (runSteps fs s) := List.foldl_append

/-- A call with no other thread about. -/
def Call.alone : Call σ κ → σ → σ × κ
  | .returns k, s => (s, k)
  | .locks own steps, s => runSteps steps (s, own)

/-- Calls one after another: the state they leave, and what they return. -/
def serial (call : Op → Call σ κ) : σ → List Op → σ × List κ
  | s, [] => (s, [])
  | s, op :: ops =>
    let (s, k) := (call op).alone s
    let (s, ks) := serial call s ops
    (s, k :: ks)

theorem serial_snoc (call : Op → Call σ κ) (op : Op) : ∀ (s : σ) (ops : List Op), serial call s (ops ++ [op]) =
    (((call op).alone (serial call s ops).1).1, (serial call s ops).2 ++ [((call op).alone (serial call s ops).1).2])
  | s, [] => rfl
  | s, o :: ops => by simp [serial, serial_snoc call op _ ops]

/-- `active` is the call that holds the lock, with its own state and the
steps it has still to run. -/
structure Thread (Op σ κ : Type*) where
  todo : List Op
  active : Option (Op × κ × List (σ × κ → σ × κ))

/-- `history` lists the calls that have returned, with their threads and
what they returned. -/
structure Config (ι Op σ κ : Type*) where
  shared : σ
  holder : Option ι
  thread : ι → Thread Op σ κ
  history : List (ι × Op × κ)

namespace Config

def start (program : ι → List Op) (s : σ) : Config ι Op σ κ := ⟨s, none, fun i => ⟨program i, none⟩, []⟩

/-- The calls that have returned, in that order. -/
def ops (c : Config ι Op σ κ) : List Op := c.history.map fun h => h.2.1

def results (c : Config ι Op σ κ) : List κ := c.history.map fun h => h.2.2

/-- Those of one thread. -/
def opsOf [DecidableEq ι] (c : Config ι Op σ κ) (i : ι) : List Op := (c.history.filter fun h => h.1 = i).map fun h => h.2.1

def Finished (c : Config ι Op σ κ) : Prop := ∀ i, c.thread i = ⟨[], none⟩

end Config

variable [DecidableEq ι]

/-- One step of one thread. -/
inductive Step (call : Op → Call σ κ) : Config ι Op σ κ → Config ι Op σ κ → Prop
  | returns {c : Config ι Op σ κ} {i : ι} {op : Op} {ops : List Op} {k : κ} (hthread : c.thread i = ⟨op :: ops, none⟩)
      (hcall : call op = .returns k) :
      Step call c { c with thread := Function.update c.thread i ⟨ops, none⟩, history := c.history ++ [(i, op, k)] }
  | lock {c : Config ι Op σ κ} {i : ι} {op : Op} {ops : List Op} {own : κ} {steps : List (σ × κ → σ × κ)}
      (hfree : c.holder = none) (hthread : c.thread i = ⟨op :: ops, none⟩) (hcall : call op = .locks own steps) :
      Step call c { c with holder := some i, thread := Function.update c.thread i ⟨ops, some (op, own, steps)⟩ }
  | work {c : Config ι Op σ κ} {i : ι} {op : Op} {ops : List Op} {own : κ} {f : σ × κ → σ × κ}
      {steps : List (σ × κ → σ × κ)} (hthread : c.thread i = ⟨ops, some (op, own, f :: steps)⟩) :
      Step call c { c with shared := (f (c.shared, own)).1,
                           thread := Function.update c.thread i ⟨ops, some (op, (f (c.shared, own)).2, steps)⟩ }
  | unlock {c : Config ι Op σ κ} {i : ι} {op : Op} {ops : List Op} {own : κ}
      (hthread : c.thread i = ⟨ops, some (op, own, [])⟩) :
      Step call c { c with holder := none, thread := Function.update c.thread i ⟨ops, none⟩,
                           history := c.history ++ [(i, op, own)] }

abbrev Steps (call : Op → Call σ κ) : Config ι Op σ κ → Config ι Op σ κ → Prop := Relation.ReflTransGen (Step call)

/-! ## One order of the calls -/

/-- The call of the lock's holder, as far as it has come, from the state `s`
that the calls before it left. -/
def Midway (call : Op → Call σ κ) (s : σ) (c : Config ι Op σ κ) (i : ι) : Prop :=
  ∃ op own steps own₀ ran, (c.thread i).active = some (op, own, steps) ∧ call op = .locks own₀ (ran ++ steps) ∧
    runSteps ran (s, own₀) = (c.shared, own)

/-- The calls that have returned are those of a serial run, and the lock
keeps all threads but its holder from the shared state. -/
structure Serial (call : Op → Call σ κ) (program : ι → List Op) (s : σ) (c : Config ι Op σ κ) : Prop where
  results : (serial call s c.ops).2 = c.results
  order : ∀ i, c.opsOf i ++ ((c.thread i).active.map fun a => a.1).toList ++ (c.thread i).todo = program i
  idle : ∀ i, c.holder ≠ some i → (c.thread i).active = none
  free : c.holder = none → c.shared = (serial call s c.ops).1
  held : ∀ i, c.holder = some i → Midway call (serial call s c.ops).1 c i

variable {call : Op → Call σ κ} {program : ι → List Op} {s : σ} {c c' : Config ι Op σ κ}

theorem Serial.start : Serial call program s (.start program s) :=
  ⟨rfl, fun _ => rfl, fun _ _ => rfl, fun _ => rfl, fun _ h => by cases h⟩

/-- Who is at work holds the lock. -/
theorem Serial.holder (h : Serial call program s c) {i : ι} {a} (ha : (c.thread i).active = some a) :
    c.holder = some i := by
  by_contra hne
  rw [h.idle i hne] at ha
  cases ha

theorem Serial.returns (h : Serial call program s c) {i : ι} {op : Op} {ops : List Op} {k : κ}
    (hthread : c.thread i = ⟨op :: ops, none⟩) (hcall : call op = .returns k) :
    Serial call program s
      { c with thread := Function.update c.thread i ⟨ops, none⟩, history := c.history ++ [(i, op, k)] } := by
  have hops : (serial call s (c.ops ++ [op])) = ((serial call s c.ops).1, (serial call s c.ops).2 ++ [k]) := by
    rw [serial_snoc, hcall, Call.alone]
  refine ⟨?_, fun j => ?_, fun j hj => ?_, fun hfree => ?_, fun j hj => ?_⟩
  · simp only [Config.ops, Config.results, List.map_append, List.map_cons, List.map_nil]
    rw [show c.history.map (fun h => h.2.1) = c.ops from rfl, hops, h.results]
    rfl
  · have ho := h.order j
    by_cases hij : j = i
    · subst hij
      rw [hthread] at ho
      simpa [Config.opsOf, List.filter_append] using ho
    · simpa [Config.opsOf, List.filter_append, Function.update_of_ne hij, Ne.symm hij] using ho
  · by_cases hij : j = i
    · subst hij; simp
    · simp only [Function.update_of_ne hij]; exact h.idle j hj
  · simp only [Config.ops, List.map_append, List.map_cons, List.map_nil]
    rw [show c.history.map (fun h => h.2.1) = c.ops from rfl, hops]
    exact h.free hfree
  · obtain ⟨op', own, steps, own₀, ran, ha, hc, hr⟩ := h.held j hj
    have hij : j ≠ i := by
      rintro rfl
      rw [hthread] at ha
      cases ha
    refine ⟨op', own, steps, own₀, ran, by simp only [Function.update_of_ne hij]; exact ha, hc, ?_⟩
    simp only [Config.ops, List.map_append, List.map_cons, List.map_nil]
    rw [show c.history.map (fun h => h.2.1) = c.ops from rfl, hops]
    exact hr

theorem Serial.lock (h : Serial call program s c) {i : ι} {op : Op} {ops : List Op} {own : κ}
    {steps : List (σ × κ → σ × κ)} (hfree : c.holder = none) (hthread : c.thread i = ⟨op :: ops, none⟩)
    (hcall : call op = .locks own steps) :
    Serial call program s
      { c with holder := some i, thread := Function.update c.thread i ⟨ops, some (op, own, steps)⟩ } := by
  refine ⟨h.results, fun j => ?_, fun j hj => ?_, (fun hf => by cases hf), fun j hj => ?_⟩
  · have ho := h.order j
    by_cases hij : j = i
    · subst hij
      rw [hthread] at ho
      simpa [Config.opsOf] using ho
    · simp only [Function.update_of_ne hij]; exact ho
  · have hij : j ≠ i := fun he => hj (by rw [he])
    simp only [Function.update_of_ne hij]
    exact h.idle j (by rw [hfree]; exact fun h => by cases h)
  · obtain rfl : i = j := Option.some.inj hj
    exact ⟨op, own, steps, own, [], by simp, by rw [hcall, List.nil_append], by rw [h.free hfree]; rfl⟩

theorem Serial.work (h : Serial call program s c) {i : ι} {op : Op} {ops : List Op} {own : κ} {f : σ × κ → σ × κ}
    {steps : List (σ × κ → σ × κ)} (hthread : c.thread i = ⟨ops, some (op, own, f :: steps)⟩) :
    Serial call program s
      { c with shared := (f (c.shared, own)).1,
               thread := Function.update c.thread i ⟨ops, some (op, (f (c.shared, own)).2, steps)⟩ } := by
  have hi : c.holder = some i := h.holder (by rw [hthread])
  refine ⟨h.results, fun j => ?_, fun j hj => ?_, (fun hf => by rw [hi] at hf; cases hf), fun j hj => ?_⟩
  · have ho := h.order j
    by_cases hij : j = i
    · subst hij
      rw [hthread] at ho
      simpa [Config.opsOf] using ho
    · simp only [Function.update_of_ne hij]; exact ho
  · have hij : j ≠ i := fun he => hj (by rw [he]; exact hi)
    simp only [Function.update_of_ne hij]
    exact h.idle j hj
  · obtain rfl : i = j := Option.some.inj (hi.symm.trans hj)
    obtain ⟨op', own', steps', own₀, ran, ha, hc, hr⟩ := h.held i hi
    rw [hthread] at ha
    obtain ⟨rfl, rfl, rfl⟩ : op = op' ∧ own = own' ∧ f :: steps = steps' := by simpa using ha
    refine ⟨op, (f (c.shared, own)).2, steps, own₀, ran ++ [f], by simp, by rw [hc, List.append_assoc]; rfl, ?_⟩
    rw [runSteps_append]
    exact congrArg f hr

theorem Serial.unlock (h : Serial call program s c) {i : ι} {op : Op} {ops : List Op} {own : κ}
    (hthread : c.thread i = ⟨ops, some (op, own, [])⟩) :
    Serial call program s
      { c with holder := none, thread := Function.update c.thread i ⟨ops, none⟩,
               history := c.history ++ [(i, op, own)] } := by
  have hi : c.holder = some i := h.holder (by rw [hthread])
  obtain ⟨op', own', steps', own₀, ran, ha, hc, hr⟩ := h.held i hi
  rw [hthread] at ha
  obtain ⟨rfl, rfl, rfl⟩ : op = op' ∧ own = own' ∧ [] = steps' := by simpa using ha
  have hops : (serial call s (c.ops ++ [op])) = (c.shared, (serial call s c.ops).2 ++ [own]) := by
    rw [serial_snoc, hc, List.append_nil, Call.alone, hr]
  refine ⟨?_, fun j => ?_, fun j _ => ?_, fun _ => ?_, fun j hj => by cases hj⟩
  · simp only [Config.ops, Config.results, List.map_append, List.map_cons, List.map_nil]
    rw [show c.history.map (fun h => h.2.1) = c.ops from rfl, hops, h.results]
    rfl
  · have ho := h.order j
    by_cases hij : j = i
    · subst hij
      rw [hthread] at ho
      simpa [Config.opsOf, List.filter_append] using ho
    · simpa [Config.opsOf, List.filter_append, Function.update_of_ne hij, Ne.symm hij] using ho
  · by_cases hij : j = i
    · subst hij; simp
    · simp only [Function.update_of_ne hij]
      exact h.idle j fun hj => hij (Option.some.inj (hj.symm.trans hi))
  · simp only [Config.ops, List.map_append, List.map_cons, List.map_nil]
    rw [show c.history.map (fun h => h.2.1) = c.ops from rfl, hops]

theorem Serial.step (h : Serial call program s c) (hs : Step call c c') : Serial call program s c' := by
  cases hs with
  | returns hthread hcall => exact h.returns hthread hcall
  | lock hfree hthread hcall => exact h.lock hfree hthread hcall
  | work hthread => exact h.work hthread
  | unlock hthread => exact h.unlock hthread

theorem Serial.steps (h : Serial call program s c) (hs : Steps call c c') : Serial call program s c' := by
  induction hs with
  | refl => exact h
  | tail _ hstep ih => exact ih.step hstep

theorem Serial.mem_program (h : Serial call program s c) {x : ι × Op × κ} (hx : x ∈ c.history) : x.2.1 ∈ program x.1 := by
  rw [← h.order x.1]
  refine List.mem_append_left _ (List.mem_append_left _ (List.mem_map.mpr ⟨x, List.mem_filter.mpr ⟨hx, ?_⟩, rfl⟩))
  exact decide_eq_true rfl

/-- **Every interleaving is a serial run.** -/
theorem linearizable (hs : Steps call (.start program s) c) (hfin : c.Finished) :
    (∀ i, c.opsOf i = program i) ∧ serial call s c.ops = (c.shared, c.results) := by
  have h : Serial call program s c := Serial.start.steps hs
  refine ⟨fun i => ?_, Prod.ext ?_ h.results⟩
  · have ho := h.order i
    rw [hfin i] at ho
    simpa using ho
  · have hfree : c.holder = none := by
      cases hh : c.holder with
      | none => rfl
      | some i =>
        obtain ⟨op, own, steps, -, -, ha, -⟩ := h.held i hh
        rw [hfin i] at ha
        cases ha
    exact (h.free hfree).symm

/-! ## No thread waits for ever -/

/-- While a call is left some thread can go on. -/
theorem Serial.progress (h : Serial call program s c) (hn : ¬c.Finished) : ∃ c', Step call c c' := by
  cases hh : c.holder with
  | some i =>
    obtain ⟨op, own, steps, own₀, ran, ha, -⟩ := h.held i hh
    have hthread : c.thread i = ⟨(c.thread i).todo, some (op, own, steps)⟩ := by rw [← ha]
    cases steps with
    | nil => exact ⟨_, .unlock hthread⟩
    | cons f steps => exact ⟨_, .work hthread⟩
  | none =>
    simp only [Config.Finished, not_forall] at hn
    obtain ⟨i, hi⟩ := hn
    have ha : (c.thread i).active = none := h.idle i (by rw [hh]; exact fun h => by cases h)
    cases htodo : (c.thread i).todo with
    | nil => exact absurd (by rw [← ha, ← htodo]) hi
    | cons op ops =>
      have hthread : c.thread i = ⟨op :: ops, none⟩ := by rw [← ha, ← htodo]
      cases hcall : call op with
      | returns k => exact ⟨_, .returns hthread hcall⟩
      | locks own steps => exact ⟨_, .lock hh hthread hcall⟩

def Call.cost : Call σ κ → Nat
  | .returns _ => 1
  | .locks _ steps => steps.length + 2

/-- The steps a thread has still to take. -/
def Thread.cost (call : Op → Call σ κ) (t : Thread Op σ κ) : Nat :=
  (t.todo.map fun op => (call op).cost).sum + (t.active.map fun a => a.2.2.length + 1).getD 0

def Config.cost [Fintype ι] (call : Op → Call σ κ) (c : Config ι Op σ κ) : Nat := ∑ i, (c.thread i).cost call

theorem sum_update_lt [Fintype ι] {f : ι → Nat} {i : ι} {n : Nat} (hn : n < f i) :
    ∑ j, Function.update f i n j < ∑ j, f j := by
  refine Finset.sum_lt_sum (fun j _ => ?_) ⟨i, Finset.mem_univ i, by rw [Function.update_self]; exact hn⟩
  by_cases hij : j = i
  · subst hij; rw [Function.update_self]; exact hn.le
  · rw [Function.update_of_ne hij]

/-- A step of a thread takes one off its cost. -/
theorem cost_update_lt [Fintype ι] {i : ι} {t : Thread Op σ κ} (ht : t.cost call < (c.thread i).cost call)
    (hthread : c'.thread = Function.update c.thread i t) : c'.cost call < c.cost call := by
  have hcost : (fun j => (c'.thread j).cost call) = Function.update (fun j => (c.thread j).cost call) i (t.cost call) := by
    funext j
    rw [hthread]
    by_cases hij : j = i
    · subst hij; simp
    · simp [Function.update_of_ne hij]
  rw [Config.cost, hcost]
  exact sum_update_lt ht

theorem Step.cost_lt [Fintype ι] (hs : Step call c c') : c'.cost call < c.cost call := by
  cases hs with
  | returns hthread hcall => exact cost_update_lt (by rw [hthread]; simp [Thread.cost, hcall, Call.cost]) rfl
  | lock _ hthread hcall => exact cost_update_lt (by rw [hthread]; simp [Thread.cost, hcall, Call.cost]; omega) rfl
  | work hthread => exact cost_update_lt (by rw [hthread]; simp [Thread.cost]) rfl
  | unlock hthread => exact cost_update_lt (by rw [hthread]; simp [Thread.cost]) rfl

/-- However far the threads have come, they can come to the end. -/
theorem Serial.finishes [Fintype ι] (h : Serial call program s c) : ∃ c', Steps call c c' ∧ c'.Finished := by
  induction hn : c.cost call using Nat.strong_induction_on generalizing c with
  | _ n ih =>
    by_cases hfin : c.Finished
    · exact ⟨c, .refl, hfin⟩
    · obtain ⟨c₁, h₁⟩ := h.progress hfin
      obtain ⟨c₂, h₂, hfin₂⟩ := ih _ (hn ▸ h₁.cost_lt) (h.step h₁) rfl
      exact ⟨c₂, .head h₁ h₂, hfin₂⟩

/-- No interleaving goes on for ever. -/
theorem no_endless_run [Fintype ι] (run : Nat → Config ι Op σ κ) : ¬∀ n, Step call (run n) (run (n + 1)) := by
  intro hrun
  have hle : ∀ n, (run n).cost call + n ≤ (run 0).cost call := by
    intro n
    induction n with
    | zero => simp
    | succ n ih =>
      have := (hrun n).cost_lt
      omega
  have := hle ((run 0).cost call + 1)
  omega

/-! ## The order holds every call once -/

/-- A list is its parts by a key, put together. -/
theorem flatMap_filter_perm {α : Type*} {keys : List ι} (hnodup : keys.Nodup) (hall : ∀ i, i ∈ keys) (xs : List (ι × α)) :
    (keys.flatMap fun i => xs.filter fun x => x.1 = i).Perm xs := by
  induction xs with
  | nil => simp
  | cons x xs ih =>
    obtain ⟨before, after, rfl⟩ := List.append_of_mem (hall x.1)
    have hnot : ∀ i ∈ before ++ after, ¬x.1 = i := by
      rintro i hi rfl
      exact (List.nodup_cons.mp (List.nodup_middle.mp hnodup)).1 hi
    have hother : ∀ {is : List ι}, (∀ i ∈ is, i ∈ before ++ after) →
        (is.flatMap fun i => (x :: xs).filter fun x => x.1 = i) = is.flatMap fun i => xs.filter fun x => x.1 = i := by
      intro is his
      exact List.flatMap_congr fun i hi => by rw [List.filter_cons_of_neg (by simpa using hnot i (his i hi))]
    rw [List.flatMap_append, List.flatMap_cons, hother (fun i hi => List.mem_append_left _ hi),
      hother (fun i hi => List.mem_append_right _ hi), List.filter_cons_of_pos (by simp), List.cons_append]
    rw [List.flatMap_append, List.flatMap_cons] at ih
    exact List.perm_middle.trans (ih.cons x)

/-- The serial order is a merge of the threads' calls. -/
theorem ops_perm {keys : List ι} (hnodup : keys.Nodup) (hall : ∀ i, i ∈ keys) (horder : ∀ i, c.opsOf i = program i) :
    c.ops.Perm (keys.flatMap program) := by
  have h := ((flatMap_filter_perm hnodup hall c.history).map fun h => h.2.1).symm
  rw [List.map_flatMap] at h
  exact h.trans (.of_eq (List.flatMap_congr fun i _ => horder i))

end Locking
