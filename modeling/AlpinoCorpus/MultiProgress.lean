/-
`MultiIter::progress`: how far an iteration over many corpora has come.
Whatever the calls, the corpora not yet passed never become more, so the
progress stays within its bounds and never goes back.
-/
import AlpinoCorpus.Pipeline

namespace AlpinoCorpus

/-- Unsigned subtraction of two `size_t`s. -/
def sizeMinus (a b : Nat) : Nat := if b ≤ a then a - b else a + 2 ^ 64 - b

namespace MultiIter

variable {W κ : Type}

/-- `progress`, as an exact number. -/
def progress (it : MultiIter κ) : ℚ :=
  if it.d_currentIter.isSome then
    (sizeMinus (sizeMinus it.d_totalIters it.d_iters.length) 1 : ℚ) / it.d_totalIters * 100
  else (sizeMinus it.d_totalIters it.d_iters.length : ℚ) / it.d_totalIters * 100

/-- The calls of a client. -/
inductive Call
  | hasNext
  | next (rdr : Reader)

/-- What a call leaves behind, whether it returned or threw. -/
def Call.step (body : Body W (MultiIter κ)) (s : MultiIter κ × W) : Call → MultiIter κ × W
  | .hasNext => (body.hasNext s).2
  | .next rdr => (body.next rdr s).2

def run (body : Body W (MultiIter κ)) (calls : List Call) (s : MultiIter κ × W) : MultiIter κ × W :=
  calls.foldl (Call.step body) s

/-! ## What is left -/

/-- The corpora not passed: those in `d_iters`, and the one that is read. -/
def left (it : MultiIter κ) : Nat := it.d_iters.length + if it.d_currentIter.isSome then 1 else 0

/-- Nothing comes back. -/
structure Onward (it it' : MultiIter κ) : Prop where
  total : it'.d_totalIters = it.d_totalIters
  left : it'.left ≤ it.left

theorem Onward.refl (it : MultiIter κ) : Onward it it := ⟨rfl, le_rfl⟩

theorem Onward.trans {it₁ it₂ it₃ : MultiIter κ} (h : Onward it₁ it₂) (h' : Onward it₂ it₃) : Onward it₁ it₃ :=
  ⟨h'.total.trans h.total, h'.left.trans h.left⟩

/-- The current iterator is changed, not taken away. -/
theorem onward_current {it : MultiIter κ} {iter : κ} (h : it.d_currentIter = some iter) (iter' : κ) :
    Onward it { it with d_currentIter := some iter' } :=
  ⟨rfl, by simp [MultiIter.left, h]⟩

theorem currentHasNext_onward (inner : Body W κ) (s : MultiIter κ × W) :
    (currentHasNext inner s).2.1.d_iters = s.1.d_iters ∧ Onward s.1 (currentHasNext inner s).2.1 := by
  rw [currentHasNext]
  split
  · exact ⟨rfl, .refl _⟩
  · next iter h => exact ⟨rfl, onward_current h _⟩

/-- Without a current iterator, and with the tip taken off or not. -/
theorem onward_tip {it it' : MultiIter κ} {tip : ReaderIter} {tips : List ReaderIter} (h : it.d_iters = tip :: tips)
    (htotal : it'.d_totalIters = it.d_totalIters) (hleft : it'.left ≤ tips.length + 1) : Onward it it' :=
  ⟨htotal, hleft.trans (by simp [MultiIter.left, h])⟩

theorem nextIteratorLoop_onward (inner : Body W κ)
    (openTip : MultiIter κ → ReaderIter → W → Outcome (Option (Corpus × κ)) × W) : ∀ (tips : List ReaderIter)
      (s : MultiIter κ × W), s.1.d_iters = tips → Onward s.1 (nextIteratorLoop inner openTip tips s).2.1
  | [], s, _ => .refl _
  | tip :: tips, s, hs => by
    rw [nextIteratorLoop]
    split
    · exact .refl _
    · have hcur := currentHasNext_onward inner s
      split
      · next s' h =>
        rw [h] at hcur
        exact hcur.2
      · next s' h =>
        rw [h] at hcur
        exact hcur.2
      · next it w h =>
        rw [h] at hcur
        obtain ⟨hiters, honward⟩ := hcur
        have htips : it.d_iters = tip :: tips := hiters.trans hs
        refine honward.trans ?_
        simp only
        split
        · exact onward_tip htips rfl (by simp [MultiIter.left, htips])
        · next w' _ =>
          refine .trans (onward_tip htips ?_ ?_) (nextIteratorLoop_onward inner openTip tips
            ({ it with d_currentIter := none, d_currentReader := none, d_iters := tips }, w') rfl)
          · rfl
          · simp [MultiIter.left]
        · next reader iter w' _ =>
          refine .trans (onward_tip htips ?_ ?_) (nextIteratorLoop_onward inner openTip tips
            ({ it with d_currentIter := some iter, d_currentReader := some reader, d_currentName := tip.name,
                       d_iters := tips }, w') rfl)
          · rfl
          · simp [MultiIter.left]

/-- What one call does. -/
theorem Call.step_onward (inner : Body W κ) (openTip : MultiIter κ → ReaderIter → W → Outcome (Option (Corpus × κ)) × W)
    (s : MultiIter κ × W) (call : Call) : Onward s.1 (call.step (body inner openTip) s).1 := by
  cases call with
  | hasNext =>
    simp only [Call.step, body, MultiIter.hasNext]
    split
    · exact .refl _
    · have hloop := nextIteratorLoop_onward inner openTip s.1.d_iters s rfl
      split
      · next h =>
        rw [h] at hloop
        exact hloop
      · next s' h =>
        rw [h] at hloop
        exact hloop.trans (currentHasNext_onward inner s').2
  | next rdr =>
    simp only [Call.step, body, MultiIter.next]
    split
    · exact .refl _
    · split
      · exact .refl _
      · next iter h =>
        split
        · exact onward_current h _
        · exact onward_current h _

theorem run_onward (inner : Body W κ) (openTip : MultiIter κ → ReaderIter → W → Outcome (Option (Corpus × κ)) × W)
    (calls : List Call) (s : MultiIter κ × W) : Onward s.1 (run (body inner openTip) calls s).1 := by
  induction calls generalizing s with
  | nil => exact .refl _
  | cons call calls ih => exact (Call.step_onward inner openTip s call).trans (ih _)

/-! ## The progress -/

/-- As long as no more is left than there was, no subtraction wraps. -/
theorem progress_eq {it : MultiIter κ} (h : it.left ≤ it.d_totalIters) :
    it.progress = ((it.d_totalIters : ℚ) - it.left) / it.d_totalIters * 100 := by
  simp only [MultiIter.left] at h
  rw [progress, MultiIter.left]
  split
  · next hcur =>
    rw [if_pos hcur] at h
    rw [sizeMinus, sizeMinus, if_pos (show it.d_iters.length ≤ it.d_totalIters by omega), if_pos (by omega),
      Nat.sub_sub, Nat.cast_sub h]
  · next hcur =>
    rw [if_neg hcur] at h
    rw [sizeMinus, if_pos (by omega), Nat.add_zero, Nat.cast_sub (by omega)]

theorem progress_mem {it : MultiIter κ} (h : it.left ≤ it.d_totalIters) (htotal : 0 < it.d_totalIters) :
    0 ≤ it.progress ∧ it.progress ≤ 100 := by
  have hleft : (it.left : ℚ) ≤ it.d_totalIters := by exact_mod_cast h
  have hpos : (0 : ℚ) < it.d_totalIters := by exact_mod_cast htotal
  rw [progress_eq h]
  constructor
  · have : 0 ≤ ((it.d_totalIters : ℚ) - it.left) / it.d_totalIters := div_nonneg (by linarith) hpos.le
    linarith
  · have : ((it.d_totalIters : ℚ) - it.left) / it.d_totalIters ≤ 1 := by
      rw [div_le_one hpos]
      have := it.left.cast_nonneg (α := ℚ)
      linarith
    linarith

theorem Onward.progress_le {it it' : MultiIter κ} (h : Onward it it') (hleft : it.left ≤ it.d_totalIters) :
    it.progress ≤ it'.progress := by
  have hleft' : it'.left ≤ it'.d_totalIters := by
    rw [h.total]
    exact h.left.trans hleft
  have hle : (it'.left : ℚ) ≤ it.left := by exact_mod_cast h.left
  rw [progress_eq hleft, progress_eq hleft', h.total]
  gcongr

/-- The iterators over the corpora of a reader. -/
inductive Begun (corpora : Corpora) : MultiIter κ → Prop
  | entries (sortOrder : SortOrder) : Begun corpora (ofEntries corpora sortOrder)
  | query (query : Str) (dialect : QueryDialect) (sortOrder : SortOrder) :
    Begun corpora (ofQuery corpora query dialect sortOrder)

theorem Begun.left {corpora : Corpora} {it : MultiIter κ} (h : Begun corpora it) :
    it.d_totalIters = corpora.entries.length ∧ it.left = corpora.entries.length := by
  cases h <;> simp [ofEntries, ofQuery, readerIters, MultiIter.left]

/-- **Whatever the calls, a corpus that is read has been taken off the list,
and the progress is a percentage that never goes back.** -/
theorem progress_sane {corpora : Corpora} (hne : corpora.entries ≠ []) (inner : Body W κ) (env : Env)
    (start : Corpus → MultiIter κ → W → Outcome κ × W) {it : MultiIter κ} (hit : Begun corpora it) (w : W)
    (calls more : List Call) :
    let s := run (body inner (openTip env start)) calls (it, w)
    let s' := run (body inner (openTip env start)) (calls ++ more) (it, w)
    (s.1.d_currentIter.isSome → s.1.d_iters.length < corpora.entries.length) ∧ s.1.d_totalIters = corpora.entries.length ∧
      s.1.d_iters.length ≤ corpora.entries.length ∧ (0 ≤ s.1.progress ∧ s.1.progress ≤ 100) ∧
      s.1.progress ≤ s'.1.progress := by
  intro s s'
  obtain ⟨htotal, hstart⟩ := hit.left
  have honward : Onward it s.1 := run_onward inner (openTip env start) calls (it, w)
  have hmore : Onward s.1 s'.1 := by
    have h := run_onward inner (openTip env start) more s
    rwa [show run (body inner (openTip env start)) more s = s' from (List.foldl_append ..).symm] at h
  have hstotal : s.1.d_totalIters = corpora.entries.length := honward.total.trans htotal
  have hsleft : s.1.left ≤ s.1.d_totalIters := by
    rw [hstotal, ← hstart]
    exact honward.left
  have hlength : s.1.d_iters.length + (if s.1.d_currentIter.isSome then 1 else 0) ≤ corpora.entries.length := hstotal ▸ hsleft
  refine ⟨fun hcur => ?_, hstotal, (Nat.le_add_right _ _).trans hlength, progress_mem hsleft ?_, hmore.progress_le hsleft⟩
  · rw [if_pos hcur] at hlength
    exact hlength
  · rw [hstotal]
    exact List.length_pos_of_ne_nil hne

/-- Two corpora, of which one opens and is empty. -/
def emptyAndFailing : Corpora :=
  (Corpora.empty.assign [97] ([97], false)).assign [98] ([98], false)

def emptyOpens : Env := sampleEnv [([97], [])] []

theorem progress_sane_sample :
    let body := MultiIter.body (Iter.body emptyOpens 3) (openTip emptyOpens (Iter.start emptyOpens))
    let s := run body [.hasNext] (ofEntries emptyAndFailing .naturalOrder, ())
    let s' := run body ([.hasNext] ++ [.hasNext]) (ofEntries emptyAndFailing .naturalOrder, ())
    (s.1.d_currentIter.isSome → s.1.d_iters.length < emptyAndFailing.entries.length) ∧
      s.1.d_totalIters = emptyAndFailing.entries.length ∧ s.1.d_iters.length ≤ emptyAndFailing.entries.length ∧
      (0 ≤ s.1.progress ∧ s.1.progress ≤ 100) ∧ s.1.progress ≤ s'.1.progress :=
  progress_sane (by decide) (Iter.body emptyOpens 3) emptyOpens (Iter.start emptyOpens) (.entries .naturalOrder) ()
    [.hasNext] [.hasNext]

end MultiIter

end AlpinoCorpus
