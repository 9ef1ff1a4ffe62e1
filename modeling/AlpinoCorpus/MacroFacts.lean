/-
What `parseMacros` stores for a definition at the end of a file, and what
`expandMacros` makes of the same text.
-/
import AlpinoCorpus.Macros

namespace AlpinoCorpus

open OrdMap Replace

/-! ## Runs of the automaton -/

section

variable {data : Str} {p : Nat} {r : Parser}

theorem slice_append {f : Str} (x : Str) {b e : Nat} (he : e ≤ f.length) : slice (f ++ x) b e = slice f b e := by
  rw [slice, slice]
  by_cases hb : b ≤ f.length
  · rw [List.drop_append_of_le_length hb, List.take_append_of_le_length (by rw [List.length_drop]; omega)]
  · rw [show e - b = 0 by omega, List.take_zero, List.take_zero]

/-- An action looks at the text it has passed only. -/
theorem perform_append {f : Str} (x : Str) (hp : p ≤ f.length) (c : UInt8) (r : Parser) (a : Action) :
    perform (f ++ x) p c r a = perform f p c r a := by
  cases a <;> simp only [perform]
  · rw [slice_append x (by omega)]
  · rw [slice_append x hp]

theorem exec_extend {f : Str} (x : Str) : ∀ (cs : Str) (p : Nat) (r : Parser), p + cs.length ≤ f.length →
    exec (f ++ x) cs p r = exec f cs p r
  | [], _, _, _ => rfl
  | c :: cs, p, r, h => by
    rw [List.length_cons] at h
    have hperform : perform (f ++ x) p c = perform f p c := funext fun r => funext fun a =>
      perform_append x (by omega) c r a
    rw [exec, exec, hperform]
    refine congrArg _ (funext fun r' => ?_)
    rw [exec_extend x cs (p + 1) r' (by omega)]

/-- Without an error the whole text is passed. -/
theorem exec_length : ∀ {cs : Str} {p p' : Nat} {r r' : Parser}, exec data cs p r = .ok (r', p') → r'.cs ≠ .error →
    p' = p + cs.length
  | [], p, p', r, r', h, _ => by
    injection h with h
    injection h with _ hp
    exact hp.symm
  | c :: cs, p, p', r, r', h, hr => by
    rw [exec] at h
    obtain ⟨r₁, -, h⟩ := bind_ok_iff.mp h
    split at h
    · next herr =>
      injection h with h
      injection h with h₁ _
      exact absurd (h₁ ▸ herr) hr
    · rw [exec_length h hr, List.length_cons]
      omega

/-- A text in two parts, the first of them passed. -/
theorem exec_passed : ∀ {xs : Str} {p p' : Nat} {r r' : Parser} (ys : Str), exec data xs p r = .ok (r', p') →
    r'.cs ≠ .error → exec data (xs ++ ys) p r = exec data ys p' r'
  | [], p, p', r, r', ys, h, _ => by
    injection h with h
    injection h with h₁ h₂
    rw [h₁, h₂]
    rfl
  | c :: xs, p, p', r, r', ys, h, hr => by
    rw [exec] at h
    obtain ⟨r₁, h₁, h⟩ := bind_ok_iff.mp h
    rw [List.cons_append, exec, h₁]
    split at h
    · next herr =>
      injection h with h
      injection h with h₁ _
      exact absurd (h₁ ▸ herr) hr
    · next hne =>
      simp only [bind, Except.bind, if_neg hne]
      exact exec_passed ys h hr

/-- The automaton stops in the error state. -/
def Fails (data cs : Str) (p : Nat) (r : Parser) : Prop := ∃ r' p', exec data cs p r = .ok (r', p') ∧ r'.cs = .error

theorem Fails.append {xs : Str} (ys : Str) (h : Fails data xs p r) : Fails data (xs ++ ys) p r := by
  obtain ⟨r', p', h, hr⟩ := h
  induction xs generalizing p r with
  | nil =>
    injection h with h
    injection h with h₁ _
    subst h₁
    cases ys with
    | nil => exact ⟨r, p, rfl, hr⟩
    | cons c ys => exact ⟨{ r with cs := .error }, p, by rw [List.nil_append, exec, hr]; rfl, rfl⟩
  | cons c xs ih =>
    rw [exec] at h
    obtain ⟨r₁, h₁, h⟩ := bind_ok_iff.mp h
    split at h
    · next herr =>
      refine ⟨r₁, p, ?_, herr⟩
      rw [List.cons_append, exec, h₁]
      simp only [bind, Except.bind, if_pos herr]
    · next hne =>
      obtain ⟨r₂, p₂, h₂, hr₂⟩ := ih h
      refine ⟨r₂, p₂, ?_, hr₂⟩
      rw [List.cons_append, exec, h₁]
      simp only [bind, Except.bind, if_neg hne]
      exact h₂

end

/-! ### Between definitions -/

/-- The states in which substitutions are kept. -/
def State.inBody : State → Bool
  | query | query1 | query2 | subst0 | subst | subst1 | subst2 | closed | closed1 | closed2 => true
  | _ => false

/-- What is kept from one definition to the next. -/
structure Parser.Tidy (r : Parser) : Prop where
  buf : r.cs ≠ .key → r.cs ≠ .error → r.buf = []
  substitutions : r.cs.inBody = false → r.cs ≠ .error → r.substitutions = []
  chars : ∀ c ∈ r.buf, isKeyChar c = true
  lastKey : ∀ c ∈ r.lastKey, isKeyChar c = true
  keys : ∀ e ∈ r.macros.entries, ∀ c ∈ e.1, isKeyChar c = true

namespace Parser.Tidy

variable {data : Str} {p : Nat} {c : UInt8} {r r' : Parser}

/-- A character that calls for no action. -/
theorem move (h : r.Tidy) {cs : State} (hbuf : r.buf = [] ∨ cs = .error)
    (hsubst : cs.inBody = false → cs ≠ .error → r.substitutions = []) : Parser.Tidy { r with cs } :=
  ⟨fun _ herr => hbuf.resolve_right herr, hsubst, h.chars, h.lastKey, h.keys⟩

/-- The end of a query. -/
theorem queryEnd (h : r.Tidy) (hcs : r.cs ≠ .key) (herr : r.cs ≠ .error) {cs : State}
    (hr : perform data p c { r with cs } .queryEnd = .ok r') :
    r'.cs = cs ∧ r'.buf = [] ∧ r'.substitutions = [] ∧ Parser.Tidy { r' with cs := .blankEnd } := by
  obtain ⟨query, -, hr⟩ := bind_ok_iff.mp hr
  injection hr with hr
  subst hr
  refine ⟨rfl, h.buf hcs herr, rfl, fun _ _ => h.buf hcs herr, fun _ _ => rfl, h.chars, h.lastKey, fun e he => ?_⟩
  rcases mem_insert_key he with hk | ⟨e', he', hk⟩
  · rw [hk]
    exact h.lastKey
  · rw [← hk]
    exact h.keys e' he'

/-- Between two definitions, nothing being left to do. -/
theorem between (h : r.Tidy) (hbuf : r.buf = []) (hsubst : r.substitutions = []) {after : State}
    (hr : (State.between after [] c).2.foldlM (perform data p c) { r with cs := (State.between after [] c).1 } = .ok r') :
    r'.Tidy := by
  unfold State.between at hr
  split at hr
  · injection hr with hr
    subst hr
    exact h.move (.inl hbuf) fun _ _ => hsubst
  · split at hr
    · injection hr with hr
      subst hr
      exact h.move (.inl hbuf) fun _ _ => hsubst
    · split at hr
      · next hc =>
        injection hr with hr
        subst hr
        refine ⟨fun hk => absurd rfl hk, fun _ _ => hsubst, fun d hd => ?_, h.lastKey, h.keys⟩
        rw [show ({ r with cs := .key, buf := r.buf ++ [c] } : Parser).buf = [c] by rw [hbuf]; rfl] at hd
        rw [List.mem_singleton.mp hd]
        exact hc
      · injection hr with hr
        subst hr
        exact h.move (.inr rfl) fun _ herr => absurd rfl herr

/-- Between two definitions, the query of the first being open. -/
theorem between_queryEnd (h : r.Tidy) (hcs : r.cs ≠ .key) (herr : r.cs ≠ .error)
    (hr : (State.between .blankEnd [.queryEnd] c).2.foldlM (perform data p c)
      { r with cs := (State.between .blankEnd [.queryEnd] c).1 } = .ok r') : r'.Tidy := by
  have hsplit : ∀ (acts : List Action) (cs : State), (.queryEnd :: acts).foldlM (perform data p c) { r with cs } = .ok r' →
      ∃ r₁ : Parser, r₁.cs = cs ∧ r₁.buf = [] ∧ r₁.substitutions = [] ∧ Parser.Tidy { r₁ with cs := .blankEnd } ∧
        acts.foldlM (perform data p c) r₁ = .ok r' := by
    intro acts cs hr
    rw [List.foldlM_cons] at hr
    obtain ⟨r₁, h₁, hr⟩ := bind_ok_iff.mp hr
    obtain ⟨hcs, hbuf, hsubst, ht⟩ := h.queryEnd hcs herr h₁
    exact ⟨r₁, hcs, hbuf, hsubst, ht, hr⟩
  -- what comes next is no key
  have hended : ∀ cs : State, [.queryEnd].foldlM (perform data p c) { r with cs } = .ok r' → r'.Tidy := by
    intro cs hr
    obtain ⟨r₁, hcs, hbuf, hsubst, ht, hr⟩ := hsplit [] cs hr
    injection hr with hr
    subst hr
    exact ⟨fun _ _ => hbuf, fun _ _ => hsubst, ht.chars, ht.lastKey, ht.keys⟩
  unfold State.between at hr
  split at hr
  · exact hended _ hr
  · split at hr
    · exact hended _ hr
    · split at hr
      · next hc =>
        obtain ⟨r₁, hcs, hbuf, hsubst, ht, hr⟩ := hsplit [.strChar] _ hr
        injection hr with hr
        subst hr
        refine ⟨fun hk => absurd hcs hk, fun _ _ => hsubst, fun d hd => ?_, ht.lastKey, ht.keys⟩
        rw [show ({ r₁ with buf := r₁.buf ++ [c] } : Parser).buf = [c] by rw [hbuf]; rfl] at hd
        rw [List.mem_singleton.mp hd]
        exact hc
      · injection hr with hr
        subst hr
        exact h.move (.inr rfl) fun _ herr => absurd rfl herr

/-- **One character keeps it tidy.** The cases are the states. -/
theorem step (h : r.Tidy) (hr : (r.cs.next c).2.foldlM (perform data p c) { r with cs := (r.cs.next c).1 } = .ok r') :
    r'.Tidy := by
  -- the state is all that changes
  have hmove : ∀ cs : State, (cs ≠ .error → r.buf = []) → (cs.inBody = false → cs ≠ .error → r.substitutions = []) →
      .ok { r with cs } = (.ok r' : Outcome Parser) → r'.Tidy := by
    intro cs hbuf hsubst hr
    injection hr with hr
    subst hr
    exact ⟨fun _ herr => hbuf herr, hsubst, h.chars, h.lastKey, h.keys⟩
  cases hcs : r.cs with
  | error =>
    rw [hcs] at hr
    exact hmove .error (fun herr => absurd rfl herr) (fun _ herr => absurd rfl herr) hr
  | blank | start | blankEnd =>
    rw [hcs] at hr
    exact h.between (h.buf (by simp [hcs]) (by simp [hcs])) (h.substitutions (by simp [hcs, State.inBody]) (by simp [hcs])) hr
  | comment | keyEnd | equals | open1 | open2 =>
    rw [hcs] at hr
    refine hmove _ (fun _ => h.buf (by simp [hcs]) (by simp [hcs])) (fun _ _ => ?_) hr
    exact h.substitutions (by simp [hcs, State.inBody]) (by simp [hcs])
  | key =>
    have hsubst := h.substitutions (by simp [hcs, State.inBody]) (by simp [hcs])
    rw [hcs] at hr
    simp only [State.next] at hr
    split at hr
    · injection hr with hr
      subst hr
      exact ⟨fun _ _ => rfl, fun _ _ => hsubst, by simp, h.chars, h.keys⟩
    · split at hr
      · injection hr with hr
        subst hr
        exact ⟨fun _ _ => rfl, fun _ _ => hsubst, by simp, h.chars, h.keys⟩
      · split at hr
        · next hc =>
          injection hr with hr
          subst hr
          refine ⟨fun hk => absurd rfl hk, fun _ _ => hsubst, fun d hd => ?_, h.lastKey, h.keys⟩
          rcases List.mem_append.mp hd with hd | hd
          · exact h.chars d hd
          · rw [List.mem_singleton.mp hd]
            exact hc
        · exact hmove .error (fun herr => absurd rfl herr) (fun _ herr => absurd rfl herr) hr
  | opened =>
    have hsubst := h.substitutions (by simp [hcs, State.inBody]) (by simp [hcs])
    have hbuf := h.buf (by simp [hcs]) (by simp [hcs])
    rw [hcs] at hr
    injection hr with hr
    subst hr
    exact ⟨fun _ _ => hbuf, fun _ _ => hsubst, h.chars, h.lastKey, h.keys⟩
  | query | query1 | query2 =>
    have hbuf := h.buf (by simp [hcs]) (by simp [hcs])
    rw [hcs] at hr
    refine hmove _ (fun _ => hbuf) (fun hin _ => ?_) hr
    simp only [State.next, State.inQuery] at hin
    split at hin
    · cases hin
    · split at hin <;> cases hin
  | subst0 =>
    have hbuf := h.buf (by simp [hcs]) (by simp [hcs])
    rw [hcs] at hr
    simp only [State.next] at hr
    split at hr
    · injection hr with hr
      subst hr
      exact ⟨fun _ _ => hbuf, (fun hin => by cases hin), h.chars, h.lastKey, h.keys⟩
    · split at hr
      · exact hmove .error (fun herr => absurd rfl herr) (fun _ herr => absurd rfl herr) hr
      · injection hr with hr
        subst hr
        exact ⟨fun _ _ => hbuf, (fun hin => by cases hin), h.chars, h.lastKey, h.keys⟩
  | subst | subst1 =>
    have hbuf := h.buf (by simp [hcs]) (by simp [hcs])
    rw [hcs] at hr
    simp only [State.next, State.inName] at hr
    split at hr
    · exact hmove _ (fun _ => hbuf) (fun hin => by cases hin) hr
    · split at hr
      · injection hr with hr
        subst hr
        exact ⟨fun _ _ => hbuf, (fun hin => by cases hin), h.chars, h.lastKey, h.keys⟩
      · exact hmove _ (fun _ => hbuf) (fun hin => by cases hin) hr
  | subst2 =>
    have hbuf := h.buf (by simp [hcs]) (by simp [hcs])
    rw [hcs] at hr
    simp only [State.next, State.inName] at hr
    split at hr
    · exact hmove .error (fun herr => absurd rfl herr) (fun _ herr => absurd rfl herr) hr
    · split at hr
      · injection hr with hr
        subst hr
        exact ⟨fun _ _ => hbuf, (fun hin => by cases hin), h.chars, h.lastKey, h.keys⟩
      · exact hmove _ (fun _ => hbuf) (fun hin => by cases hin) hr
  | closed | closed1 =>
    have hbuf := h.buf (by simp [hcs]) (by simp [hcs])
    have hne : r.cs ≠ .key ∧ r.cs ≠ .error := by simp [hcs]
    rw [hcs] at hr
    simp only [State.next] at hr
    split at hr
    · exact hmove _ (fun _ => hbuf) (fun hin => by cases hin) hr
    · exact h.between_queryEnd hne.1 hne.2 hr
  | closed2 =>
    have hne : r.cs ≠ .key ∧ r.cs ≠ .error := by simp [hcs]
    rw [hcs] at hr
    exact h.between_queryEnd hne.1 hne.2 hr

/-- **A run keeps it tidy.** -/
theorem exec : ∀ {cs : Str} {p p' : Nat} {r r' : Parser}, r.Tidy → AlpinoCorpus.exec data cs p r = .ok (r', p') → r'.Tidy
  | [], _, _, _, _, h, hr => by
    injection hr with hr
    injection hr with hr _
    rw [← hr]
    exact h
  | c :: cs, _, _, _, _, h, hr => by
    rw [AlpinoCorpus.exec] at hr
    obtain ⟨r₁, h₁, hr⟩ := bind_ok_iff.mp hr
    split at hr
    · injection hr with hr
      injection hr with hr _
      rw [← hr]
      exact h.step h₁
    · exact exec (h.step h₁) hr

end Parser.Tidy

theorem tidy_init : Parser.init.Tidy := ⟨fun _ _ => rfl, fun _ _ => rfl, by simp [Parser.init], by simp [Parser.init], by simp [Parser.init, Macros.empty]⟩

end AlpinoCorpus
