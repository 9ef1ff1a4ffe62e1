/-
The constructor of `DzIstreamBuf` on any file: when it ends, and what it
has made of the chunk table when it returns.

The loop of `readExtra` is a run through positions and numbers of chunks,
of which there are finitely many; so it goes on for ever exactly when it
comes back to a field it has been at without having read a chunk on the
way. The loops of `skipOptional` wait for a NUL byte that need not be there.
-/
import AlpinoCorpus.DzLayout

namespace AlpinoCorpus

open Stdio Orbit

/-- A call that ends: it returns or throws. -/
def Ended {α} (r : Outcome α) : Prop := (∃ a, r = .ok a) ∨ ∃ e, r = .error (.raised e)

namespace DzFile

/-! ## The loop over the fields -/

/-- Where the fields start: after the header and the length of the extra
part. -/
def extraPos (bytes : Str) : Nat := past bytes 10 2

/-- Where they end, as `nextField`: the length may be negative. -/
def extraEnd (bytes : Str) : Int := extraPos bytes + word bytes 10

/-- One round of the loop, on the position and the number of chunks. -/
def step (bytes : Str) (nextField : Int) : Nat × Nat → Option (Nat × Nat)
  | (p, n) =>
    if (p : Int) < nextField then
      match fieldAt bytes p with
      | none => none
      | some ⟨next, none⟩ => some (next, n)
      | some ⟨next, some (_, sizes)⟩ => if n + sizes.length > maxChunks then none else some (next, n + sizes.length)
    else none

/-- What the loop goes by. -/
def Extra.state (x : Extra) : Nat × Nat := (x.file.pos, x.chunks.length)

variable {bytes : Str} {nextField : Int}

theorem step_pos {s t : Nat × Nat} (h : step bytes nextField s = some t) : (s.1 : Int) < nextField := by
  obtain ⟨p, n⟩ := s
  by_contra hp
  rw [step, if_neg hp] at h
  cases h

theorem step_of_lt {p n : Nat} (hp : (p : Int) < nextField) : step bytes nextField (p, n) =
    match fieldAt bytes p with
    | none => none
    | some ⟨next, none⟩ => some (next, n)
    | some ⟨next, some (_, sizes)⟩ =>
      if n + sizes.length > maxChunks then none else some (next, n + sizes.length) := by
  rw [step, if_pos hp]

theorem step_chunks {s t : Nat × Nat} (h : step bytes nextField s = some t) (hs : s.2 ≤ maxChunks) :
    t.2 ≤ maxChunks := by
  obtain ⟨p, n⟩ := s
  rw [step_of_lt (step_pos h)] at h
  split at h
  · cases h
  · cases h; exact hs
  · split at h
    · cases h
    · cases h; omega

/-- `readField` takes the step. -/
theorem readField_step {x : Extra} (hx : x.file.bytes = bytes) (hp : (x.file.pos : Int) < nextField) :
    match step bytes nextField x.state with
    | none => ∃ e, readField x = raise e
    | some t => ∃ x', readField x = .ok x' ∧ x'.file.bytes = bytes ∧ x'.state = t := by
  have h := readField_at x
  rw [hx] at h
  rw [Extra.state, step_of_lt hp]
  cases hf : fieldAt bytes x.file.pos with
  | none => simpa only [hf] using h
  | some field =>
    obtain ⟨next, table⟩ := field
    simp only [hf, Extra.add] at h
    cases table with
    | none => exact ⟨_, h, hx, rfl⟩
    | some table =>
      obtain ⟨chunkLen, sizes⟩ := table
      simp only at h ⊢
      by_cases hcap : x.chunks.length + sizes.length > maxChunks
      · rw [if_pos hcap] at h ⊢
        exact ⟨_, h⟩
      · rw [if_neg hcap] at h ⊢
        exact ⟨_, h, hx, by simp [Extra.state, length_tableFrom]⟩

/-- `r`, a function of the fuel, needs some and then gives `a`. -/
def Settles {α} (r : Nat → Outcome α) (a : Outcome α) : Prop :=
  ∃ k, ∀ fuel, r fuel = if k ≤ fuel then a else .error .unfinished

/-- A run of the loop that ends throws in a field, or comes to the end of
the fields. -/
theorem readExtraLoop_ends : ∀ (n : Nat) {x : Extra}, x.file.bytes = bytes →
    after (step bytes nextField) n x.state = none →
    (∃ t e, Reaches (step bytes nextField) x.state t ∧ (t.1 : Int) < nextField ∧ step bytes nextField t = none ∧
      Settles (fun fuel => readExtraLoop fuel nextField x) (raise e)) ∨
    ∃ x', x'.file.bytes = bytes ∧ nextField ≤ x'.file.pos ∧ Reaches (step bytes nextField) x.state x'.state ∧
      Settles (fun fuel => readExtraLoop fuel nextField x) (.ok x')
  | 0, _, _, h => nomatch h
  | n + 1, x, hx, h => by
    by_cases hp : (x.file.pos : Int) < nextField
    swap
    · refine .inr ⟨x, hx, by omega, .refl _, 0, fun fuel => ?_⟩
      simp only
      unfold readExtraLoop
      rw [if_neg hp, if_pos (Nat.zero_le _)]
    have hzero : readExtraLoop 0 nextField x = .error .unfinished := by rw [readExtraLoop, if_pos hp]
    have hsucc : ∀ fuel, readExtraLoop (fuel + 1) nextField x =
        readField x >>= fun x => readExtraLoop fuel nextField x := by
      intro fuel
      rw [readExtraLoop, if_pos hp]
    -- One round more than the rest of the run needs.
    have hmore : ∀ {r : Nat → Outcome Extra} {a : Outcome Extra}, Settles r a →
        (∀ fuel, readExtraLoop (fuel + 1) nextField x = r fuel) →
        Settles (fun fuel => readExtraLoop fuel nextField x) a := by
      intro r a ⟨k, hk⟩ hr
      refine ⟨k + 1, fun fuel => ?_⟩
      cases fuel with
      | zero => simp only [hzero]; rw [if_neg (by omega)]
      | succ fuel => simp only [hr, hk, Nat.add_le_add_iff_right]
    have hstep := readField_step hx hp
    cases hs : step bytes nextField x.state with
    | none =>
      rw [hs] at hstep
      obtain ⟨e, he⟩ := hstep
      refine .inl ⟨x.state, e, .refl _, hp, hs, hmore (r := fun _ => raise e) ⟨0, fun fuel => by simp⟩ fun fuel => ?_⟩
      rw [hsucc, he]
      rfl
    | some t =>
      rw [hs] at hstep
      obtain ⟨x₁, hx₁, hbytes, rfl⟩ := hstep
      rw [after_succ hs] at h
      have hr : ∀ fuel, readExtraLoop (fuel + 1) nextField x = readExtraLoop fuel nextField x₁ := by
        intro fuel
        rw [hsucc, hx₁]
        rfl
      rcases readExtraLoop_ends n hbytes h with ⟨t, e, hreach, hlt, hnone, hset⟩ | ⟨x', hb', hend, hreach, hset⟩
      · exact .inl ⟨t, e, .head hs hreach, hlt, hnone, hmore hset hr⟩
      · exact .inr ⟨x', hb', hend, .head hs hreach, hmore hset hr⟩

/-- A run that does not end runs out of any fuel. -/
theorem readExtraLoop_unfinished : ∀ (fuel : Nat) {x : Extra}, x.file.bytes = bytes →
    ¬ Ends (step bytes nextField) x.state → readExtraLoop fuel nextField x = .error .unfinished := by
  intro fuel x hx h
  obtain ⟨t, ht⟩ : ∃ t, step bytes nextField x.state = some t := by
    cases hs : step bytes nextField x.state with
    | some t => exact ⟨t, rfl⟩
    | none => exact absurd ⟨1, by rw [after, hs]; rfl⟩ h
  have hp : (x.file.pos : Int) < nextField := step_pos ht
  have hstep := readField_step hx hp
  rw [ht] at hstep
  obtain ⟨x₁, hx₁, hbytes, rfl⟩ := hstep
  cases fuel with
  | zero => rw [readExtraLoop, if_pos hp]
  | succ fuel =>
    rw [readExtraLoop, if_pos hp]
    show readField x >>= _ = _
    rw [hx₁]
    exact readExtraLoop_unfinished fuel hbytes fun he => h ((ends_head ht).mpr he)

/-- The positions before `nextField` and the numbers of chunks are finitely
many. -/
theorem ends_iff_not_recurs {s : Nat × Nat} (hs : s.2 ≤ maxChunks) :
    Ends (step bytes nextField) s ↔ ¬ Recurs (step bytes nextField) s := by
  refine ends_iff (Finset.range nextField.toNat ×ˢ Finset.range (maxChunks + 1)) fun t u hreach hstep => ?_
  have hpos := step_pos hstep
  have hle : t.2 ≤ maxChunks := by
    obtain ⟨n, hn⟩ := hreach
    clear hstep hpos
    induction n generalizing s with
    | zero => cases hn; exact hs
    | succ n ih =>
      rw [after] at hn
      cases hsu : step bytes nextField s with
      | none => rw [hsu] at hn; cases hn
      | some v =>
        rw [hsu] at hn
        exact ih (step_chunks hsu hs) hn
  rw [Finset.mem_product, Finset.mem_range, Finset.mem_range]
  omega

/-! ## The optional strings -/

/-- How many of the file name and the comment the header flags. -/
def flagged (flg : UInt8) : Nat := (if flg &&& 8 ≠ 0 then 1 else 0) + if flg &&& 16 ≠ 0 then 1 else 0

theorem skipString_some : ∀ (rest : Str) {f : FileIn}, f.rest = rest → 0 < rest.count 0 →
    ∃ f', f.rest.count 0 = f'.rest.count 0 + 1 ∧ Settles (fun fuel => skipString fuel f) (.ok f')
  | [], _, _, h => absurd h (by simp)
  | c :: rest, f, hf, h => by
    have hget := FileIn.fgetc_cons hf
    have hskip : (f.skip 1).rest = rest := FileIn.rest_skip [c] hf
    by_cases hc : c = 0
    · subst hc
      refine ⟨f.skip 1, by rw [hskip, hf, List.count_cons_self], 1, fun fuel => ?_⟩
      cases fuel with
      | zero => rfl
      | succ fuel =>
        rw [if_pos (by omega)]
        simp only [skipString, hget]
        exact if_pos rfl
    · have hne : ¬ (c.toNat : Int) = 0 := by
        intro h0
        exact hc (UInt8.toNat_inj.mp (by simpa using h0))
      rw [List.count_cons_of_ne hc] at h
      obtain ⟨f', hcount, k, hk⟩ := skipString_some rest hskip h
      refine ⟨f', by rw [← hcount, hf, hskip, List.count_cons_of_ne hc], k + 1, fun fuel => ?_⟩
      cases fuel with
      | zero => rfl
      | succ fuel => simp only [skipString, hget, if_neg hne, hk, Nat.add_le_add_iff_right]

/-- No NUL byte: the loop waits for it at the end of the file. -/
theorem skipString_none : ∀ (fuel : Nat) {f : FileIn}, f.rest.count 0 = 0 → skipString fuel f = .error .unfinished
  | 0, _, _ => rfl
  | fuel + 1, f, h => by
    cases hf : f.rest with
    | nil =>
      have hget : f.bytes[f.pos]? = none := by
        have := List.drop_eq_nil_iff.mp hf
        exact List.getElem?_eq_none this
      simp only [skipString, FileIn.fgetc, hget]
      exact skipString_none fuel h
    | cons c rest =>
      rw [hf] at h
      have hc : c ≠ 0 := by
        rintro rfl
        rw [List.count_cons_self] at h
        omega
      rw [List.count_cons_of_ne hc] at h
      have hskip : (f.skip 1).rest = rest := FileIn.rest_skip [c] hf
      have hne : ¬ (c.toNat : Int) = 0 := by
        intro h0
        exact hc (UInt8.toNat_inj.mp (by simpa using h0))
      simp only [skipString, FileIn.fgetc_cons hf, if_neg hne]
      exact skipString_none fuel (by rw [hskip]; exact h)

/-- A string that is skipped if it is flagged. -/
def skipFlagged (c : Prop) [Decidable c] (fuel : Nat) (f : FileIn) : Outcome FileIn :=
  if c then skipString fuel f else .ok f

theorem skipOptional_eq (fuel : Nat) (header : Str) (f : FileIn) : skipOptional fuel header f =
    (skipFlagged (header.getD 3 0 &&& 8 ≠ 0) fuel f >>= fun f =>
      skipFlagged (header.getD 3 0 &&& 16 ≠ 0) fuel f >>= fun f =>
        .ok (if header.getD 3 0 &&& 2 ≠ 0 then f.seekCur 2 else f)) := by
  have hite : ∀ (c : Prop) [Decidable c] (x y : Outcome FileIn) (k : FileIn → Outcome FileIn),
      (if c then x >>= k else y >>= k) = (if c then x else y) >>= k := by
    intro c _ x y k
    split <;> rfl
  simp only [skipOptional, skipFlagged, hite]

theorem skipFlagged_some {c : Prop} [Decidable c] {f : FileIn} (h : (if c then 1 else 0) ≤ f.rest.count 0) :
    ∃ f', f.rest.count 0 = f'.rest.count 0 + (if c then 1 else 0) ∧
      Settles (fun fuel => skipFlagged c fuel f) (.ok f') := by
  unfold skipFlagged
  by_cases hc : c
  · simp only [if_pos hc] at h ⊢
    exact skipString_some f.rest rfl h
  · simp only [if_neg hc]
    exact ⟨f, rfl, 0, fun fuel => (if_pos (Nat.zero_le fuel)).symm⟩

theorem skipFlagged_none {c : Prop} [Decidable c] {f : FileIn} (h : f.rest.count 0 < if c then 1 else 0) (fuel : Nat) :
    skipFlagged c fuel f = .error .unfinished := by
  unfold skipFlagged
  by_cases hc : c
  · rw [if_pos hc] at h ⊢
    exact skipString_none fuel (by omega)
  · rw [if_neg hc] at h
    omega

/-- The optional parts are there. -/
theorem skipOptional_some {header : Str} {f : FileIn} (h : flagged (header.getD 3 0) ≤ f.rest.count 0) :
    ∃ k f', ∀ fuel, k ≤ fuel → skipOptional fuel header f = .ok f' := by
  unfold flagged at h
  obtain ⟨f₁, hcount, k₁, h₁⟩ := skipFlagged_some (c := header.getD 3 0 &&& 8 ≠ 0) (f := f) (by omega)
  obtain ⟨f₂, -, k₂, h₂⟩ := skipFlagged_some (c := header.getD 3 0 &&& 16 ≠ 0) (f := f₁) (by omega)
  refine ⟨k₁ + k₂, if header.getD 3 0 &&& 2 ≠ 0 then f₂.seekCur 2 else f₂, fun fuel hle => ?_⟩
  have h₁' := (h₁ fuel).trans (if_pos (by omega))
  have h₂' := (h₂ fuel).trans (if_pos (by omega))
  simp only at h₁' h₂'
  rw [skipOptional_eq, h₁']
  show skipFlagged _ fuel f₁ >>= _ = _
  rw [h₂']
  rfl

/-- One of the optional strings does not end. -/
theorem skipOptional_none {header : Str} {f : FileIn} (h : f.rest.count 0 < flagged (header.getD 3 0)) (fuel : Nat) :
    skipOptional fuel header f = .error .unfinished := by
  unfold flagged at h
  rw [skipOptional_eq]
  by_cases hfirst : (if header.getD 3 0 &&& 8 ≠ 0 then 1 else 0) ≤ f.rest.count 0
  · obtain ⟨f₁, hcount, k, hk⟩ := skipFlagged_some hfirst
    have hsecond := skipFlagged_none (c := header.getD 3 0 &&& 16 ≠ 0) (f := f₁) (by omega) fuel
    have hk' := hk fuel
    simp only at hk'
    rw [hk']
    split
    · show skipFlagged _ fuel f₁ >>= _ = _
      rw [hsecond]
      rfl
    · rfl
  · rw [skipFlagged_none (by omega)]
    rfl

/-! ## The constructor -/

theorem readHeader_ok {header : Str} {f : FileIn} (h : readHeader ⟨bytes, 0⟩ = .ok (header, f)) :
    f = ⟨bytes, 10⟩ ∧ header = bytes.take 10 := by
  simp only [readHeader, fread_at, List.drop_zero] at h
  split at h
  · cases h
  next hlen =>
  have hpast : past bytes 0 10 = 10 := by
    rw [not_not, List.length_take] at hlen
    unfold past
    omega
  split at h
  · cases h
  split at h
  · cases h
  split at h
  · cases h
  · cases h
    exact ⟨by rw [hpast], rfl⟩

theorem readHeader_cases (f : FileIn) : (∃ a, readHeader f = .ok a) ∨ ∃ e, readHeader f = raise e := by
  simp only [readHeader]
  split
  · exact .inr ⟨_, rfl⟩
  split
  · exact .inr ⟨_, rfl⟩
  split
  · exact .inr ⟨_, rfl⟩
  split
  · exact .inr ⟨_, rfl⟩
  · exact .inl ⟨_, rfl⟩

/-- What the loop starts from. -/
def Extra.start (bytes : Str) : Extra := ⟨⟨bytes, extraPos bytes⟩, none, []⟩

/-- The constructor after a header that it accepts. -/
theorem openFile_eq {header : Str} {f : FileIn} (h : readHeader ⟨bytes, 0⟩ = .ok (header, f)) (fuel : Nat) :
    openFile fuel bytes = (do
      let x ← readExtraLoop fuel (extraEnd bytes) (.start bytes)
      let f ← skipOptional fuel header x.file
      .ok ⟨bytes, x.chunkLen, f.pos, x.chunks⟩) := by
  obtain ⟨rfl, -⟩ := readHeader_ok h
  simp only [openFile, h, bind, Except.bind, readExtra, get16_at]
  rfl

/-- The walk over the fields comes to an end, and every optional string that
the header flags has its NUL byte after it. -/
def OpeningEnds (bytes : Str) : Prop :=
  ∀ header f, readHeader ⟨bytes, 0⟩ = .ok (header, f) →
    ¬ Recurs (step bytes (extraEnd bytes)) (extraPos bytes, 0) ∧
    ∀ p n, Reaches (step bytes (extraEnd bytes)) (extraPos bytes, 0) (p, n) → extraEnd bytes ≤ p →
      flagged (header.getD 3 0) ≤ (bytes.drop p).count 0

/-- A run of the constructor that ends. -/
theorem openFile_ends (h : OpeningEnds bytes) : ∃ fuel, Ended (openFile fuel bytes) := by
  rcases readHeader_cases ⟨bytes, 0⟩ with ⟨⟨header, f⟩, hh⟩ | ⟨e, he⟩
  swap
  · have hopen : openFile 0 bytes = raise e := by
      simp only [openFile, he]
      rfl
    exact ⟨0, .inr ⟨e, hopen⟩⟩
  obtain ⟨hrec, hstr⟩ := h header f hh
  obtain ⟨n, hn⟩ := (ends_iff_not_recurs (Nat.zero_le _)).mpr hrec
  rcases readExtraLoop_ends n (x := .start bytes) rfl hn with ⟨t, e, -, -, -, k, hk⟩ | ⟨x', hb, hend, hreach, k, hk⟩
  · refine ⟨k, .inr ⟨e, ?_⟩⟩
    have hloop := (hk k).trans (if_pos (Nat.le_refl k))
    simp only at hloop
    rw [openFile_eq hh, hloop]
    rfl
  · obtain ⟨k', f', hopt⟩ := skipOptional_some (f := x'.file)
      (show flagged (header.getD 3 0) ≤ x'.file.rest.count 0 by
        rw [FileIn.rest, hb]; exact hstr _ _ hreach hend)
    refine ⟨k + k', .inl ⟨⟨bytes, x'.chunkLen, f'.pos, x'.chunks⟩, ?_⟩⟩
    have hloop := (hk (k + k')).trans (if_pos (by omega))
    simp only at hloop
    rw [openFile_eq hh, hloop]
    show (skipOptional (k + k') header x'.file >>= _) = _
    rw [hopt _ (by omega)]
    rfl

/-- A run of the constructor that never ends. -/
theorem openFile_unfinished (h : ¬ OpeningEnds bytes) (fuel : Nat) : openFile fuel bytes = .error .unfinished := by
  unfold OpeningEnds at h
  push Not at h
  obtain ⟨header, f, hh, h⟩ := h
  rw [openFile_eq hh]
  by_cases hends : Ends (step bytes (extraEnd bytes)) (extraPos bytes, 0)
  swap
  · rw [readExtraLoop_unfinished fuel (x := .start bytes) rfl hends]
    rfl
  obtain ⟨p, n, hreach, hp, hcount⟩ := h ((ends_iff_not_recurs (Nat.zero_le _)).mp hends)
  have hfinal : step bytes (extraEnd bytes) (p, n) = none := by rw [step, if_neg (by omega)]
  obtain ⟨m, hm⟩ := hends
  rcases readExtraLoop_ends m (x := .start bytes) rfl hm with ⟨t, e, ht, hlt, hnone, -⟩ | ⟨x', hb, hend, hx, k, hk⟩
  · -- The run has one last state, and that is after the fields.
    have := hreach.final_unique ht hfinal hnone
    subst this
    exact absurd hp (by simp only at hlt; omega)
  · have hfinal' : step bytes (extraEnd bytes) x'.state = none := by
      rw [Extra.state, step, if_neg (by omega)]
    have hpos := congrArg Prod.fst (hreach.final_unique hx hfinal hfinal')
    have hk' := hk fuel
    simp only at hk'
    rw [hk']
    split
    · show skipOptional fuel header x'.file >>= _ = _
      rw [skipOptional_none]
      · rfl
      · rw [FileIn.rest, hb, ← show p = x'.file.pos from hpos]
        exact hcount
    · rfl

/-- **When the constructor ends**, whatever is in the file. -/
theorem openFile_ends_iff (bytes : Str) : (∃ fuel, Ended (DzIstreamBuf.openFile fuel bytes)) ↔ OpeningEnds bytes := by
  constructor
  · intro ⟨fuel, he⟩
    by_contra h
    have hopen : DzIstreamBuf.openFile fuel bytes = .error .unfinished := by
      rw [DzIstreamBuf.openFile, openFile_unfinished h]
      rfl
    rw [hopen] at he
    rcases he with ⟨_, h⟩ | ⟨_, h⟩ <;> cases h
  · intro h
    obtain ⟨fuel, ⟨file, hf⟩ | ⟨e, hf⟩⟩ := openFile_ends h
    · exact ⟨fuel, .inl ⟨.ofFile file, by rw [DzIstreamBuf.openFile, hf]; rfl⟩⟩
    · exact ⟨fuel, .inr ⟨e, by rw [DzIstreamBuf.openFile, hf]; rfl⟩⟩

/-- A header that flags a file name, an empty extra part, and no name. -/
def unnamedFile : Str := [0x1f, 0x8b, 8, 0x0c, 0, 0, 0, 0, 2, 3, 0, 0]

theorem unnamedFile_never_opens : ¬ ∃ fuel, Ended (DzIstreamBuf.openFile fuel unnamedFile) := by
  intro ⟨fuel, he⟩
  have hnot : ¬ OpeningEnds unnamedFile := by
    intro h
    have := (h _ _ (show readHeader ⟨unnamedFile, 0⟩ = .ok (unnamedFile.take 10, ⟨unnamedFile, 10⟩) from rfl)).2 12 0
      (.refl _) (by decide)
    exact absurd this (by decide)
  rw [DzIstreamBuf.openFile, openFile_unfinished hnot] at he
  rcases he with ⟨_, h⟩ | ⟨_, h⟩ <;> cases h

end DzFile

end AlpinoCorpus
