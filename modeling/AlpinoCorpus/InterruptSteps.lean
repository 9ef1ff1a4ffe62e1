/-
A call that nothing interrupts: its steps come to what the call in one piece
gives.
-/
import AlpinoCorpus.Interrupts

namespace AlpinoCorpus

open Stepping

/-! ## Filters -/

namespace FilterIter

variable {W ι : Type} {env : Env} {inner : Body W ι}

/-- Left alone, the steps do what the loop does. -/
theorem hasNextLoop_steps : ∀ {fuel : Nat} {s s' : FilterIter ι × W} {r : Outcome Bool},
    hasNextLoop env inner fuel s = (r, s') → r = .error .unfinished ∨ Yields (step env inner) .loop s r s' := by
  intro fuel
  induction fuel with
  | zero =>
    intro s s' r h
    rw [hasNextLoop, Prod.mk.injEq] at h
    exact .inl h.1.symm
  | succ fuel ih =>
    intro s s' r h
    obtain ⟨it, w⟩ := s
    rw [hasNextLoop] at h
    split at h
    · next hbuf =>
      obtain ⟨rfl, rfl⟩ := Prod.mk.inj h
      exact .inr (.ends (by rw [step, if_pos hbuf]))
    · next hbuf =>
      split at h
      · next e itr w₁ h₁ =>
        obtain ⟨rfl, rfl⟩ := Prod.mk.inj h
        exact .inr (.ends (by rw [step, if_neg hbuf, h₁]))
      · next itr w₁ h₁ =>
        obtain ⟨rfl, rfl⟩ := Prod.mk.inj h
        exact .inr (.ends (by rw [step, if_neg hbuf, h₁]))
      · next itr w₁ h₁ =>
        have hloop : step env inner .loop (it, w) = (.goes .take, ({ it with d_itr := itr }, w₁)) := by
          rw [step, if_neg hbuf, h₁]
        split at h
        · next e itr₂ w₂ h₂ =>
          obtain ⟨rfl, rfl⟩ := Prod.mk.inj h
          exact .inr (.goes hloop (.ends (by simp only [step, h₂])))
        · next e itr₂ w₂ h₂ =>
          have htake : step env inner .take ({ it with d_itr := itr }, w₁) =
              (.goes (.test e), ({ it with d_itr := itr₂ }, w₂)) := by
            simp only [step, h₂]
          split at h
          · next hname =>
            refine (ih h).imp_right fun hc => .goes hloop (.goes htake (.goes ?_ hc))
            rw [step, if_pos hname]
          · next hname =>
            split at h
            · next hint =>
              obtain ⟨rfl, rfl⟩ := Prod.mk.inj h
              exact .inr (.goes hloop (.goes htake (.ends (by rw [step, if_neg hname, if_pos hint]))))
            · next hint =>
              have htest : step env inner (.test e) ({ it with d_itr := itr₂ }, w₂) =
                  (.goes (.parse e), ({ it with d_itr := itr₂ }, w₂)) := by
                rw [step, if_neg hname, if_neg hint]
              split at h
              · next e' hparse =>
                obtain ⟨rfl, rfl⟩ := Prod.mk.inj h
                exact .inr (.goes hloop (.goes htake (.goes htest (.ends (by simp only [step, hparse])))))
              · next it₃ hparse =>
                refine (ih h).imp_right fun hc => .goes hloop (.goes htake (.goes htest (.goes ?_ hc)))
                simp only [step, hparse]

/-- **The steps of `hasNext` are those of the model in one piece**, which
gives up only when it has no fuel. -/
theorem hasNext_steps {fuel : Nat} {s s' : FilterIter ι × W} {r : Outcome Bool}
    (h : hasNext env inner fuel s = (r, s')) : r = .error .unfinished ∨ Yields (step env inner) .start s r s' :=
  (hasNextLoop_steps h).imp_right fun hc => .goes rfl hc

end FilterIter

/-! ## More fuel -/

/-- What a body does with the fuel it has, another does too. -/
structure Body.Within {W ι : Type} (b b' : Body W ι) : Prop where
  hasNext : ∀ {s s' r}, b.hasNext s = (r, s') → r ≠ .error .unfinished → b'.hasNext s = (r, s')
  next : ∀ {rdr s s' r}, b.next rdr s = (r, s') → r ≠ .error .unfinished → b'.next rdr s = (r, s')

section Within

variable {W ι : Type} {env : Env} {inner inner' : Body W ι}

theorem FilterIter.hasNextLoop_within (hin : inner.Within inner') : ∀ {n m : Nat} {s s' : FilterIter ι × W} {r : Outcome Bool},
    n ≤ m → hasNextLoop env inner n s = (r, s') → r ≠ .error .unfinished → hasNextLoop env inner' m s = (r, s') := by
  intro n
  induction n with
  | zero =>
    intro m s s' r _ h hr
    rw [hasNextLoop, Prod.mk.injEq] at h
    exact absurd h.1.symm hr
  | succ n ih =>
    intro m s s' r hm h hr
    obtain ⟨it, w⟩ := s
    obtain ⟨m, rfl⟩ : ∃ k, m = k + 1 := ⟨m - 1, by omega⟩
    have hm : n ≤ m := by omega
    rw [hasNextLoop] at h ⊢
    split at h
    · next hbuf => rwa [if_pos hbuf]
    · next hbuf =>
      rw [if_neg hbuf]
      split at h
      · next e itr w₁ h₁ =>
        rw [hin.hasNext h₁ (by obtain ⟨rfl, -⟩ := Prod.mk.inj h; exact hr)]
        exact h
      · next itr w₁ h₁ =>
        rw [hin.hasNext h₁ (by simp)]
        exact h
      · next itr w₁ h₁ =>
        rw [hin.hasNext h₁ (by simp)]
        split at h
        · next e itr₂ w₂ h₂ =>
          obtain ⟨rfl, rfl⟩ := Prod.mk.inj h
          have he : e ≠ .unfinished := fun he => hr (by rw [he])
          simp only [hin.next h₂ (by simpa using he)]
        · next e itr₂ w₂ h₂ =>
          simp only [hin.next h₂ (by simp)]
          split at h
          · next hname =>
            rw [if_pos hname]
            exact ih hm h hr
          · next hname =>
            rw [if_neg hname]
            split at h
            · next hint => rwa [if_pos hint]
            · next hint =>
              rw [if_neg hint]
              split at h
              · next e' hparse =>
                exact h
              · next it₃ hparse =>
                exact ih hm h hr

theorem FilterIter.body_within (hin : inner.Within inner') {n m : Nat} (hm : n ≤ m) :
    (FilterIter.body env inner n).Within (FilterIter.body env inner' m) :=
  ⟨hasNextLoop_within hin hm, fun h _ => h⟩

theorem StylesheetIter.body_within (env : Env) (hin : inner.Within inner') :
    (StylesheetIter.body env inner).Within (StylesheetIter.body env inner') := by
  constructor
  · intro s s' r h hr
    have h : hasNext inner s = (r, s') := h
    show hasNext inner' s = (r, s')
    unfold hasNext at h ⊢
    split at h
    next r' it w h₁ =>
      obtain ⟨rfl, rfl⟩ := Prod.mk.inj h
      rw [hin.hasNext h₁ hr]
  · intro rdr s s' r h hr
    simp only [body, next] at h ⊢
    split at h
    · next e it w h₁ =>
      obtain ⟨rfl, rfl⟩ := Prod.mk.inj h
      have he : e ≠ .unfinished := fun he => hr (by rw [he])
      rw [hin.next h₁ (by simpa using he)]
    · next e it w h₁ =>
      rw [hin.next h₁ (by simp)]
      exact h

end Within

section Within

variable {W κ : Type} {inner inner' : Body W κ} {openTip : MultiIter κ → ReaderIter → W → Outcome (Option (Corpus × κ)) × W}

namespace MultiIter

theorem currentHasNext_iters {s s' : MultiIter κ × W} {r : Outcome Bool} (h : currentHasNext inner s = (r, s')) :
    s'.1.d_iters = s.1.d_iters := by
  unfold currentHasNext at h
  split at h
  · obtain ⟨-, rfl⟩ := Prod.mk.inj h
    rfl
  · obtain ⟨-, rfl⟩ := Prod.mk.inj h
    rfl

/-- A round of the loop that does not end it runs the body. -/
theorem nextIteratorLoop_cons {tip : ReaderIter} {tips : List ReaderIter} {s : MultiIter κ × W} (h : s.1.d_iters = tip :: tips) :
    nextIteratorLoop inner openTip (tip :: tips) s =
      if s.1.d_interrupted then (.ok (), s)
      else match currentHasNext inner s with
        | (.error e, s) => (.error e, s)
        | (.ok true, s) => (.ok (), s)
        | (.ok false, s) =>
          match advance openTip s with
          | (.error e, s) => (.error e, s)
          | (.ok (), s) => nextIteratorLoop inner openTip tips s := by
  rw [nextIteratorLoop]
  split
  · rfl
  · rcases hcur : currentHasNext inner s with ⟨e | b, it, w⟩
    · rfl
    · cases b with
      | true => rfl
      | false =>
        have hiters : it.d_iters = tip :: tips := (currentHasNext_iters hcur).trans h
        obtain ⟨sortOrder, total, iters, reader, cur, name, hasQuery, query, dialect, interrupted⟩ := it
        obtain rfl : iters = tip :: tips := hiters
        rcases hopen : openTip ⟨sortOrder, total, tip :: tips, none, none, name, hasQuery, query, dialect, interrupted⟩ tip w
          with ⟨e | _ | ⟨reader, iter⟩, w'⟩
        · simp only [advance, hopen]
        · simp only [advance, hopen]
        · simp only [advance, hopen]

theorem advance_iters {tip : ReaderIter} {tips : List ReaderIter} {s s' : MultiIter κ × W} (h : s.1.d_iters = tip :: tips)
    (ha : advance openTip s = (.ok (), s')) : s'.1.d_iters = tips := by
  simp only [advance, h] at ha
  split at ha
  · cases ha
  · obtain ⟨-, rfl⟩ := Prod.mk.inj ha
    rfl
  · obtain ⟨-, rfl⟩ := Prod.mk.inj ha
    rfl

theorem currentHasNext_within (hin : inner.Within inner') {s s' : MultiIter κ × W} {r : Outcome Bool}
    (h : currentHasNext inner s = (r, s')) (hr : r ≠ .error .unfinished) : currentHasNext inner' s = (r, s') := by
  unfold currentHasNext at h ⊢
  split at h
  · exact h
  · next iter hcur =>
    split at h
    next r' iter' w h₁ =>
      obtain ⟨rfl, rfl⟩ := Prod.mk.inj h
      rw [hin.hasNext h₁ hr]

theorem nextIteratorLoop_within (hin : inner.Within inner') : ∀ {tips : List ReaderIter} {s s' : MultiIter κ × W}
    {r : Outcome Unit}, nextIteratorLoop inner openTip tips s = (r, s') → r ≠ .error .unfinished →
    nextIteratorLoop inner' openTip tips s = (r, s') := by
  intro tips
  induction tips with
  | nil => exact fun h _ => h
  | cons tip tips ih =>
    intro s s' r h hr
    rw [nextIteratorLoop] at h ⊢
    split at h
    · next hint => rwa [if_pos hint]
    · next hint =>
      rw [if_neg hint]
      split at h
      · next e s₁ h₁ =>
        obtain ⟨rfl, rfl⟩ := Prod.mk.inj h
        have he : e ≠ .unfinished := fun he => hr (by rw [he])
        rw [currentHasNext_within hin h₁ (by simpa using he)]
      · next s₁ h₁ =>
        rw [currentHasNext_within hin h₁ (by simp)]
        exact h
      · next it w h₁ =>
        rw [currentHasNext_within hin h₁ (by simp)]
        simp only at h ⊢
        split at h
        · exact h
        · exact ih h hr
        · exact ih h hr

theorem body_within (openTip : MultiIter κ → ReaderIter → W → Outcome (Option (Corpus × κ)) × W)
    (hin : inner.Within inner') : (body inner openTip).Within (body inner' openTip) := by
  constructor
  · intro s s' r h hr
    simp only [body, hasNext] at h ⊢
    split at h
    · next hint => rwa [if_pos hint]
    · next hint =>
      rw [if_neg hint]
      split at h
      · next e s₁ h₁ =>
        obtain ⟨rfl, rfl⟩ := Prod.mk.inj h
        have he : e ≠ .unfinished := fun he => hr (by rw [he])
        rw [nextIteratorLoop_within hin h₁ (by simpa using he)]
      · next s₁ h₁ =>
        rw [nextIteratorLoop_within hin h₁ (by simp)]
        exact currentHasNext_within hin h hr
  · intro rdr s s' r h hr
    simp only [body, next] at h ⊢
    split at h
    · next hint => rwa [if_pos hint]
    · next hint =>
      rw [if_neg hint]
      split at h
      · exact h
      · next iter hcur =>
        split at h
        · next e iter' w h₁ =>
          obtain ⟨rfl, rfl⟩ := Prod.mk.inj h
          have he : e ≠ .unfinished := fun he => hr (by rw [he])
          rw [hin.next h₁ (by simpa using he)]
        · next e iter' w h₁ =>
          rw [hin.next h₁ (by simp)]
          exact h

end MultiIter

end Within

namespace Iter

variable {env : Env}

theorem wrapped_within {σ α : Type} {wrap : σ → Iter} {call call' : Outcome α × (σ × Unit)} {r : Outcome α} {s' : Iter × Unit}
    (hcall : ∀ {r s}, call = (r, s) → r ≠ .error .unfinished → call' = (r, s)) (h : wrapped wrap call = (r, s'))
    (hr : r ≠ .error .unfinished) : wrapped wrap call' = (r, s') := by
  rw [← h, hcall rfl (by rw [wrapped] at h; obtain ⟨rfl, -⟩ := Prod.mk.inj h; exact hr)]

/-- **More fuel** changes nothing but that a call may come to its end. -/
theorem body_within : ∀ {n m : Nat}, n ≤ m → (body env n).Within (body env m) := by
  intro n
  induction n with
  | zero =>
    intro m _
    exact ⟨fun h hr => absurd (Prod.mk.inj h).1.symm hr, fun h hr => absurd (Prod.mk.inj h).1.symm hr⟩
  | succ n ih =>
    intro m hm
    obtain ⟨m, rfl⟩ : ∃ k, m = k + 1 := ⟨m - 1, by omega⟩
    have hin : (body env n).Within (body env m) := ih (by omega)
    have hle : n ≤ m := by omega
    constructor
    · intro s s' r h hr
      obtain ⟨it, w⟩ := s
      cases it with
      | empty | index | dir | sortedDir | db => exact h
      | filter it => exact wrapped_within (FilterIter.body_within hin hle).hasNext h hr
      | stylesheet it => exact wrapped_within (StylesheetIter.body_within env hin).hasNext h hr
      | multi it => exact wrapped_within (MultiIter.body_within _ hin).hasNext h hr
    · intro rdr s s' r h hr
      obtain ⟨it, w⟩ := s
      cases it with
      | empty | index | dir | sortedDir | db | filter => exact h
      | stylesheet it => exact wrapped_within (StylesheetIter.body_within env hin).next h hr
      | multi it => exact wrapped_within (MultiIter.body_within (MultiIter.openTip env (start env)) hin).next h hr

/-! ## A call left alone -/

variable {fuel : Nat}

/-- The calls of a body with this fuel, in steps. -/
structure Steps (env : Env) (fuel : Nat) (b : Body Unit Iter) : Prop where
  hasNext : ∀ {it it' w r}, b.hasNext (it, ()) = (r, (it', w)) → r ≠ .error .unfinished →
    Yields (stepHasNext env fuel) .start it r it'
  next : ∀ {rdr it it' w r}, b.next rdr (it, ()) = (r, (it', w)) → r ≠ .error .unfinished →
    Yields (stepNext env rdr) .start it r it'

variable {inner : Body Unit Iter}

/-- A call on the open corpus, between two points of a run over many. -/
theorem currentHasNext_steps (hin : Steps env fuel inner) (wrap : Point → Point)
    (after : Outcome Bool → Turn Point (Outcome Bool))
    (hwrap : ∀ (it : MultiIter Iter) iter p, it.d_currentIter = some iter → stepHasNext env fuel (wrap p) (multi it) =
      ((stepHasNext env fuel p iter).1.inside wrap after, multi { it with d_currentIter := some (stepHasNext env fuel p iter).2 }))
    {it it' : MultiIter Iter} {iter : Iter} {w : Unit} {r r' : Outcome Bool} {t : Iter} (hcur : it.d_currentIter = some iter)
    (h : MultiIter.currentHasNext inner (it, ()) = (r, (it', w))) (hr : r ≠ .error .unfinished)
    (hafter : (∃ p', after r = .goes p' ∧ Yields (stepHasNext env fuel) p' (multi it') r' t) ∨
      (after r = .ends r' ∧ t = multi it')) :
    Yields (stepHasNext env fuel) (wrap .start) (multi it) r' t := by
  rcases hcall : inner.hasNext (iter, ()) with ⟨r₁, iter₁, w₁⟩
  simp only [MultiIter.currentHasNext, hcur, hcall, Prod.mk.injEq] at h
  obtain ⟨rfl, rfl, -⟩ := h
  have hc := hin.hasNext hcall hr
  have hput : multi it = (fun iter => multi { it with d_currentIter := some iter }) iter := by
    simp only [← hcur]
  rw [hput]
  exact hc.inside wrap after (fun iter => multi { it with d_currentIter := some iter })
    (fun p s => hwrap { it with d_currentIter := some s } s p rfl) hafter

/-- The condition of the loop, where the flag is not set. -/
theorem corpora_steps (hin : Steps env fuel inner) {it it' : MultiIter Iter} {w : Unit} {r r' : Outcome Bool} {t : Iter}
    (hiters : it.d_iters ≠ []) (hint : it.d_interrupted = false)
    (h : MultiIter.currentHasNext inner (it, ()) = (r, (it', w))) (hr : r ≠ .error .unfinished)
    (hafter : (∃ p', afterCurrent r = .goes p' ∧ Yields (stepHasNext env fuel) p' (multi it') r' t) ∨
      (afterCurrent r = .ends r' ∧ t = multi it')) :
    Yields (stepHasNext env fuel) .corpora (multi it) r' t := by
  cases hcur : it.d_currentIter with
  | none =>
    simp only [MultiIter.currentHasNext, hcur, Prod.mk.injEq] at h
    obtain ⟨rfl, rfl, -⟩ := h
    rcases hafter with ⟨p', hp, hc⟩ | ⟨hp, -⟩
    · cases hp
      exact .goes (by simp [stepHasNext, hiters, hint, hcur]) hc
    · cases hp
  | some iter =>
    refine .goes (by simp [stepHasNext, hiters, hint, hcur]) (currentHasNext_steps hin .current afterCurrent ?_ hcur h hr hafter)
    intro it iter p hcur
    simp only [stepHasNext, hcur]

/-- The loop of `nextIterator`, and what is left of the call. -/
theorem nextIterator_steps (hin : Steps env fuel inner) : ∀ {tips : List ReaderIter} {it it' : MultiIter Iter} {w : Unit}
    {r : Outcome Unit} {r' : Outcome Bool} {t : Iter}, it.d_iters = tips →
    MultiIter.nextIteratorLoop inner (MultiIter.openTip env (start env)) tips (it, ()) = (r, (it', w)) →
    r ≠ .error .unfinished →
    ((r = .ok () ∧ Yields (stepHasNext env fuel) .last (multi it') r' t) ∨
      ∃ e, r = .error e ∧ r' = .error e ∧ t = multi it') →
    Yields (stepHasNext env fuel) .corpora (multi it) r' t := by
  intro tips
  induction tips with
  | nil =>
    intro it it' w r r' t htips h hr hlast
    rw [MultiIter.nextIteratorLoop, Prod.mk.injEq, Prod.mk.injEq] at h
    obtain ⟨rfl, rfl, -⟩ := h
    have hc : Yields (stepHasNext env fuel) .last (multi it) r' t := by
      rcases hlast with ⟨-, hc⟩ | ⟨e, he, -⟩
      · exact hc
      · cases he
    exact .goes (by simp [stepHasNext, htips]) hc
  | cons tip tips ih =>
    intro it it' w r r' t htips h hr hlast
    rw [MultiIter.nextIteratorLoop_cons htips] at h
    split at h
    · next hint =>
      obtain ⟨rfl, hit⟩ := Prod.mk.inj h
      obtain ⟨rfl, -⟩ := Prod.mk.inj hit
      have hc : Yields (stepHasNext env fuel) .last (multi it) r' t := by
        rcases hlast with ⟨-, hc⟩ | ⟨e, he, -⟩
        · exact hc
        · cases he
      have hint : it.d_interrupted = true := hint
      exact .goes (by simp [stepHasNext, hint]) hc
    · next hint =>
      have hiters : it.d_iters ≠ [] := by rw [htips]; exact List.cons_ne_nil _ _
      have hint : it.d_interrupted = false := by simpa using hint
      split at h
      · next e s₁ h₁ =>
        obtain ⟨rfl, rfl⟩ := Prod.mk.inj h
        have he : e ≠ .unfinished := fun he => hr (by rw [he])
        rcases hlast with ⟨hok, -⟩ | ⟨e', he', rfl, rfl⟩
        · cases hok
        · cases he'
          exact corpora_steps hin hiters hint h₁ (by simpa using he) (.inr ⟨rfl, rfl⟩)
      · next s₁ h₁ =>
        obtain ⟨rfl, rfl⟩ := Prod.mk.inj h
        rcases hlast with ⟨-, hc⟩ | ⟨e', he', -⟩
        · exact corpora_steps hin hiters hint h₁ (by simp) (.inl ⟨_, rfl, hc⟩)
        · cases he'
      · next s₁ h₁ =>
        obtain ⟨it₁, w₁⟩ := s₁
        have hiters₁ : it₁.d_iters = tip :: tips := (MultiIter.currentHasNext_iters h₁).trans htips
        refine corpora_steps hin hiters hint h₁ (by simp) (.inl ⟨_, rfl, ?_⟩)
        split at h
        · next e s₂ h₂ =>
          obtain ⟨rfl, rfl⟩ := Prod.mk.inj h
          rcases hlast with ⟨hok, -⟩ | ⟨e', he', rfl, rfl⟩
          · cases hok
          · cases he'
            exact .ends (by simp only [stepHasNext, h₂])
        · next s₂ h₂ =>
          exact .goes (by simp only [stepHasNext, h₂]) (ih (MultiIter.advance_iters hiters₁ h₂) h hr hlast)

/-- The last call of `hasNext`. -/
theorem last_steps (hin : Steps env fuel inner) {it it' : MultiIter Iter} {w : Unit} {r : Outcome Bool}
    (h : MultiIter.currentHasNext inner (it, ()) = (r, (it', w))) (hr : r ≠ .error .unfinished) :
    Yields (stepHasNext env fuel) .last (multi it) r (multi it') := by
  cases hcur : it.d_currentIter with
  | none =>
    simp only [MultiIter.currentHasNext, hcur, Prod.mk.injEq] at h
    obtain ⟨rfl, rfl, -⟩ := h
    exact .ends (by simp [stepHasNext, hcur])
  | some iter =>
    refine .goes (by simp [stepHasNext, hcur]) (currentHasNext_steps hin .inside .ends ?_ hcur h hr (.inr ⟨rfl, rfl⟩))
    intro it iter p hcur
    simp only [stepHasNext, hcur]

theorem multi_steps (hin : Steps env fuel inner) {it it' : MultiIter Iter} {w : Unit} {r : Outcome Bool}
    (h : MultiIter.hasNext inner (MultiIter.openTip env (start env)) (it, ()) = (r, (it', w))) (hr : r ≠ .error .unfinished) :
    Yields (stepHasNext env fuel) .start (multi it) r (multi it') := by
  unfold MultiIter.hasNext at h
  split at h
  · next hint =>
    have hint : it.d_interrupted = true := hint
    simp only [Prod.mk.injEq] at h
    obtain ⟨rfl, rfl, -⟩ := h
    exact .ends (by simp [stepHasNext, hint])
  · next hint =>
    have hint : it.d_interrupted = false := by simpa using hint
    have hstart : stepHasNext env fuel .start (multi it) = (.goes .corpora, multi it) := by simp [stepHasNext, hint]
    refine .goes hstart ?_
    split at h
    · next e s₁ h₁ =>
      obtain ⟨rfl, rfl⟩ := Prod.mk.inj h
      have he : e ≠ .unfinished := fun he => hr (by rw [he])
      exact nextIterator_steps hin rfl h₁ (by simpa using he) (.inr ⟨e, rfl, rfl, rfl⟩)
    · next s₁ h₁ => exact nextIterator_steps hin rfl h₁ (by simp) (.inl ⟨rfl, last_steps hin h hr⟩)

theorem multi_next_steps (hin : Steps env fuel inner) {rdr : Reader} {it it' : MultiIter Iter} {w : Unit} {r : Outcome Entry}
    (h : MultiIter.next inner rdr (it, ()) = (r, (it', w))) (hr : r ≠ .error .unfinished) :
    Yields (stepNext env rdr) .start (multi it) r (multi it') := by
  rw [MultiIter.next] at h
  split at h
  · next hint =>
    have hint : it.d_interrupted = true := hint
    simp only [Prod.mk.injEq] at h
    obtain ⟨rfl, rfl, -⟩ := h
    exact .ends (by simp [stepNext, hint])
  · next hint =>
    have hint : it.d_interrupted = false := by simpa using hint
    cases hcur : it.d_currentIter with
    | none =>
      simp only [hcur, Prod.mk.injEq] at h
      obtain ⟨rfl, rfl, -⟩ := h
      exact .ends (by simp [stepNext, hint, hcur])
    | some iter =>
      rcases hcall : inner.next rdr (iter, ()) with ⟨r₁, iter₁, w₁⟩
      have hfinish : it.finish r₁ = r ∧ { it with d_currentIter := some iter₁ } = it' := by
        cases r₁ with
        | error e =>
          simp only [hcur, hcall, Prod.mk.injEq] at h
          exact ⟨h.1, h.2.1⟩
        | ok e =>
          simp only [hcur, hcall, Prod.mk.injEq] at h
          exact ⟨h.1, h.2.1⟩
      obtain ⟨rfl, rfl⟩ := hfinish
      have hr₁ : r₁ ≠ .error .unfinished := fun he => hr (by rw [he]; rfl)
      have hput : multi it = (fun iter => multi { it with d_currentIter := some iter }) iter := by
        simp only [← hcur]
      have hstart : stepNext env rdr .start (multi it) = (.goes (.inside .start), multi it) := by
        simp [stepNext, hint, hcur]
      refine .goes hstart ?_
      rw [hput]
      exact (hin.next hcall hr₁).inside Point.inside (fun r => .ends (it.finish r))
        (fun iter => multi { it with d_currentIter := some iter }) (fun p s => rfl)
        (.inr ⟨rfl, rfl⟩)

/-- **The calls in steps are the calls of the model in one piece.** -/
theorem body_steps {n : Nat} : n ≤ fuel + 1 → Steps env fuel (body env n) := by
  induction n with
  | zero =>
    intro _
    exact ⟨fun h hr => absurd (Prod.mk.inj h).1.symm hr, fun h hr => absurd (Prod.mk.inj h).1.symm hr⟩
  | succ n ih =>
    intro hn
    have hin : Steps env fuel (body env n) := ih (by omega)
    constructor
    · intro it it' w r h hr
      cases it with
      | empty | index it | dir it | sortedDir it | db it =>
        obtain ⟨rfl, rfl, -⟩ := by simpa only [body, plain, Prod.mk.injEq] using h
        exact .ends rfl
      | filter it =>
        rcases hcall : FilterIter.hasNext env (body env n) n (it, ()) with ⟨r₁, it₁, w₁⟩
        simp only [body, hcall, wrapped, Prod.mk.injEq] at h
        obtain ⟨rfl, rfl, -⟩ := h
        have hwithin : (body env n).Within (body env fuel) := body_within (by omega)
        have hcall' : FilterIter.hasNext env (body env fuel) n (it, ()) = (r₁, it₁, w₁) :=
          (FilterIter.body_within hwithin le_rfl).hasNext hcall hr
        have hc := (FilterIter.hasNext_steps hcall').resolve_left hr
        have hinside : Yields (stepHasNext env fuel) (.filter .start) (filter it) r₁ (filter it₁) :=
          hc.inside Point.filter .ends (fun s => filter s.1) (fun p s => rfl) (.inr ⟨rfl, rfl⟩)
        exact Yields.of_eq (q := .filter .start) rfl hinside
      | stylesheet it =>
        rcases hcall : (body env n).hasNext (it.d_iter, ()) with ⟨r₁, iter₁, w₁⟩
        simp only [body, StylesheetIter.hasNext, hcall, wrapped, Prod.mk.injEq] at h
        obtain ⟨rfl, rfl, -⟩ := h
        exact .goes rfl ((hin.hasNext hcall hr).inside Point.inside .ends (fun iter => stylesheet { it with d_iter := iter })
          (fun p s => rfl) (.inr ⟨rfl, rfl⟩))
      | multi it =>
        rcases hcall : MultiIter.hasNext (body env n) (MultiIter.openTip env (start env)) (it, ()) with ⟨r₁, it₁, w₁⟩
        simp only [body, hcall, wrapped, Prod.mk.injEq] at h
        obtain ⟨rfl, rfl, -⟩ := h
        exact multi_steps hin hcall hr
    · intro rdr it it' w r h hr
      cases it with
      | empty | index it | dir it | sortedDir it | db it =>
        obtain ⟨rfl, rfl, -⟩ := by simpa only [body, plain, Prod.mk.injEq] using h
        exact .ends rfl
      | filter it =>
        rcases hcall : FilterIter.next (it, ()) with ⟨r₁, it₁, w₁⟩
        simp only [body, hcall, wrapped, Prod.mk.injEq] at h
        obtain ⟨rfl, rfl, -⟩ := h
        exact .ends (by simp only [stepNext, hcall])
      | stylesheet it =>
        rcases hcall : (body env n).next rdr (it.d_iter, ()) with ⟨r₁, iter₁, w₁⟩
        have hnext : StylesheetIter.next env (body env n) rdr (it, ()) =
            (it.finish env rdr r₁, ({ it with d_iter := iter₁ }, w₁)) := StylesheetIter.next_eq hcall
        simp only [body, hnext, wrapped, Prod.mk.injEq] at h
        obtain ⟨rfl, rfl, -⟩ := h
        have hr₁ : r₁ ≠ .error .unfinished := fun he => hr (by rw [he]; rfl)
        exact .goes rfl ((hin.next hcall hr₁).inside Point.inside (fun r => .ends (it.finish env rdr r))
          (fun iter => stylesheet { it with d_iter := iter }) (fun p s => rfl) (.inr ⟨rfl, rfl⟩))
      | multi it =>
        rcases hcall : MultiIter.next (body env n) rdr (it, ()) with ⟨r₁, it₁, w₁⟩
        simp only [body, hcall, wrapped, Prod.mk.injEq] at h
        obtain ⟨rfl, rfl, -⟩ := h
        exact multi_next_steps hin hcall hr

end Iter

end AlpinoCorpus
