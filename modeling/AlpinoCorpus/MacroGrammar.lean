/-
Macro files: the grammar of `parseMacros`, what a file of it means, and that
the automaton reads every such file to its end.
-/
import AlpinoCorpus.MacroBodies

namespace AlpinoCorpus

open OrdMap Replace

/-! ## The grammar -/

/-- `whitespace | comment`, one character of white space at a time. -/
inductive Separator
  | blank (c : UInt8) (h : isBlank c = true)
  | comment (t : Str) (h : 10 ∉ t)

def Separator.text : Separator → Str
  | blank c _ => [c]
  | comment t _ => 35 :: t ++ [10]

/-- `whitespace*`. -/
abbrev Blanks := { s : Str // ∀ c ∈ s, isBlank c = true }

/-- What the grammar takes for a key. -/
def IsKey (k : Str) : Prop := k ≠ [] ∧ ∀ c ∈ k, isKeyChar c = true

/-- A definition up to the quotes. -/
structure MacroHead where
  separators : List Separator
  key : Str
  isKey : IsKey key
  beforeEquals : Blanks
  afterEquals : Blanks

def MacroHead.text (h : MacroHead) : Str :=
  h.separators.flatMap Separator.text ++ (h.key ++ (h.beforeEquals.val ++ 61 :: h.afterEquals.val))

/-- A definition. The value is text and references; the quotes after it are
the last three of their run, as no definition begins with a quote. -/
structure MacroDef extends MacroHead where
  pieces : List (Piece UInt8)
  proper : ∀ p ∈ pieces, p.Proper 37
  unquoted : ¬quotes <:+: render 37 pieces
  blanks : Blanks

def MacroDef.text (d : MacroDef) : Str :=
  d.toMacroHead.text ++ (quotes ++ (render 37 d.pieces ++ (quotes ++ d.blanks.val)))

/-- The text of a file. -/
def fileText (ds : List MacroDef) : Str := ds.flatMap MacroDef.text

/-! ### What it means -/

/-- The value, where `find` knows the keys before. -/
def MacroDef.value (d : MacroDef) (find : Str → Option Str) : Str := render 37 (d.pieces.map (Piece.resolve find))

/-- What is bound to the keys, from the first definition to the last. -/
def meaning (ds : List MacroDef) : Str → Option Str :=
  ds.foldl (fun find d => Function.update find d.key (some (d.value find))) fun _ => none

def MacroDef.assign (d : MacroDef) (m : Macros) : Macros := m.assign d.key (d.value m.find)

/-- The map that a file leaves. -/
def macrosOf (ds : List MacroDef) : Macros := ds.foldl (fun m d => d.assign m) .empty

theorem macrosOf_snoc (ds : List MacroDef) (d : MacroDef) : macrosOf (ds ++ [d]) = d.assign (macrosOf ds) := by
  simp [macrosOf]

theorem fileText_snoc (ds : List MacroDef) (d : MacroDef) : fileText (ds ++ [d]) = fileText ds ++ d.text := by
  simp [fileText]

theorem Macros.find_assign (m : Macros) (k v : Str) : (m.assign k v).find = Function.update m.find k (some v) := by
  funext k'
  by_cases h : k' = k
  · subst h
    rw [Function.update_self]
    exact lookup_insert strLess_equiv.mp strictWeak_strLess _ _ _
  · rw [Function.update_of_ne h]
    exact lookup_insert_ne strLess_equiv.mp h _ _

theorem meaning_eq (ds : List MacroDef) : meaning ds = (macrosOf ds).find := by
  have hfold : ∀ m : Macros,
      ds.foldl (fun (find : Str → Option Str) d => Function.update find d.key (some (d.value find))) m.find =
      (ds.foldl (fun m d => d.assign m) m).find := by
    induction ds with
    | nil => exact fun _ => rfl
    | cons d ds ih =>
      intro m
      rw [List.foldl_cons, List.foldl_cons, ← ih, MacroDef.assign, Macros.find_assign]
  exact hfold .empty

/-! ## Between definitions -/

section

variable {data : Str} {p : Nat} {r : Parser} {c : UInt8} {m : Macros}

theorem isKeyChar_ne (hc : isKeyChar c = true) : isBlank c = false ∧ c ≠ 34 ∧ c ≠ 35 ∧ c ≠ 61 := by
  have hne : ∀ d : UInt8, isKeyChar d = false → c ≠ d := by
    intro d hd h
    rw [← h, hc] at hd
    cases hd
  refine ⟨?_, hne 34 rfl, hne 35 rfl, hne 61 rfl⟩
  simp [isBlank, hne 9 rfl, hne 10 rfl, hne 13 rfl, hne 32 rfl]

theorem isBlank_ne (hc : isBlank c = true) : c ≠ 34 ∧ c ≠ 61 := by
  constructor <;> intro h <;> rw [h] at hc <;> cases hc

/-- A definition may begin. -/
def State.waits : State → Bool
  | start | blank | blankEnd | closed | closed1 | closed2 => true
  | _ => false

/-- The state after white space. -/
def State.afterBlank : State → State
  | start | blank => .blank
  | _ => .blankEnd

theorem State.afterBlank_cases (s : State) : s.afterBlank = .blank ∨ s.afterBlank = .blankEnd := by
  cases s <;> simp [State.afterBlank]

/-- What is done at the end of a text is done by the character after it too. -/
theorem next_waits {s : State} (hs : s.waits = true) (hc : c ≠ 34) : s.next c = State.between s.afterBlank s.eofActions c := by
  cases s <;> simp [State.waits] at hs <;> simp [State.next, State.afterBlank, State.eofActions, hc]

theorem eofActions_cases (s : State) : s.eofActions = [] ∨ s.eofActions = [.queryEnd] := by
  cases s <;> simp [State.eofActions]

theorem foldlM_eofActions {s s' : State} {r₁ : Parser} (h : s.eofActions.foldlM (perform data p 0) r = .ok r₁) :
    s.eofActions.foldlM (perform data p c) { r with cs := s' } = .ok { r₁ with cs := s' } := by
  rcases eofActions_cases s with hnil | hend
  · rw [hnil] at h ⊢
    injection h with h
    rw [h]
    rfl
  · rw [hend, List.foldlM_cons] at h
    obtain ⟨r₂, h₂, h⟩ := bind_ok_iff.mp h
    injection h with h
    subst h
    obtain ⟨query, hquery, h₂⟩ := bind_ok_iff.mp h₂
    injection h₂ with h₂
    subst h₂
    rw [hend, List.foldlM_cons, perform, hquery]
    rfl

theorem eofActions_cs {s : State} {r₁ : Parser} (h : s.eofActions.foldlM (perform data p c) r = .ok r₁) : r₁.cs = r.cs := by
  rcases eofActions_cases s with hnil | hend
  · rw [hnil] at h
    injection h with h
    rw [h]
  · rw [hend, List.foldlM_cons] at h
    obtain ⟨r₂, h₂, h⟩ := bind_ok_iff.mp h
    injection h with h
    subst h
    obtain ⟨query, -, h₂⟩ := bind_ok_iff.mp h₂
    injection h₂ with h₂
    rw [← h₂]

/-- Nothing is left open but what is done at the end of a text, and that
leaves the map `m`. -/
structure Parser.Waiting (data : Str) (p : Nat) (r : Parser) (m : Macros) : Prop where
  waits : r.cs.waits = true
  settles : ∃ r₁ : Parser, r.cs.eofActions.foldlM (perform data p 0) r = .ok r₁ ∧ r₁.macros = m ∧
    r₁.substitutions = [] ∧ r₁.buf = []

theorem Parser.Waiting.of_blank (hcs : r.cs = .blank ∨ r.cs = .blankEnd) (hsubst : r.substitutions = []) (hbuf : r.buf = []) :
    r.Waiting data p r.macros := by
  have h : r.cs.waits = true ∧ r.cs.eofActions = [] := by
    rcases hcs with hcs | hcs <;> rw [hcs] <;> exact ⟨rfl, rfl⟩
  exact ⟨h.1, r, by rw [h.2]; rfl, rfl, hsubst, hbuf⟩

theorem Parser.Waiting.init : Parser.init.Waiting data p .empty := ⟨rfl, _, rfl, rfl, rfl, rfl⟩

/-- White space. -/
theorem exec_blank (h : r.Waiting data p m) (hc : isBlank c = true) (cs : Str) : ∃ r' : Parser,
    exec data (c :: cs) p r = exec data cs (p + 1) r' ∧ r'.Waiting data (p + 1) m ∧ r'.cs = r.cs.afterBlank := by
  obtain ⟨r₁, hr₁, rfl, hsubst, hbuf⟩ := h.settles
  have hnext : r.cs.next c = (r.cs.afterBlank, r.cs.eofActions) := by
    rw [next_waits h.waits (isBlank_ne hc).1, State.between, if_pos hc]
  have hne : r.cs.afterBlank ≠ .error := by
    rcases r.cs.afterBlank_cases with h | h <;> rw [h] <;> decide
  exact ⟨{ r₁ with cs := r.cs.afterBlank }, exec_step cs hnext hne (foldlM_eofActions hr₁) rfl,
    .of_blank r.cs.afterBlank_cases hsubst hbuf, rfl⟩

theorem exec_blanks : ∀ {ws : Str} {p : Nat} {r : Parser} (cs : Str), r.Waiting data p m → (∀ c ∈ ws, isBlank c = true) →
    ∃ r' : Parser, exec data (ws ++ cs) p r = exec data cs (p + ws.length) r' ∧ r'.Waiting data (p + ws.length) m ∧
      (r.cs.isFinal = true → r.cs ≠ .start → r'.cs.isFinal = true)
  | [], p, r, cs, h, _ => ⟨r, rfl, h, fun hfinal _ => hfinal⟩
  | c :: ws, p, r, cs, h, hws => by
    obtain ⟨hc, hws⟩ := List.forall_mem_cons.mp hws
    obtain ⟨r₁, hexec₁, h₁, hcs₁⟩ := exec_blank h hc (ws ++ cs)
    obtain ⟨r', hexec, h', hcs'⟩ := exec_blanks cs h₁ hws
    rw [Nat.add_assoc, Nat.add_comm 1] at hexec h'
    refine ⟨r', hexec₁.trans hexec, h', fun hfinal hstart => hcs' ?_ ?_⟩
    all_goals
      rw [hcs₁]
      revert hfinal hstart
      cases r.cs <;> simp [State.isFinal, State.afterBlank]

/-- A comment, its end of line included. -/
theorem exec_comment {t : Str} (h : r.Waiting data p m) (ht : 10 ∉ t) (cs : Str) : ∃ r' : Parser,
    exec data (35 :: t ++ 10 :: cs) p r = exec data cs (p + (t.length + 2)) r' ∧ r'.Waiting data (p + (t.length + 2)) m := by
  obtain ⟨r₁, hr₁, rfl, hsubst, hbuf⟩ := h.settles
  have hnext : r.cs.next 35 = (.comment, r.cs.eofActions) := by
    rw [next_waits h.waits (by decide)]
    rfl
  have hopen : exec data (35 :: (t ++ 10 :: cs)) p r = exec data (t ++ 10 :: cs) (p + 1) { r₁ with cs := .comment } :=
    exec_step _ hnext (by decide) (foldlM_eofActions hr₁) rfl
  -- the line is passed
  have hline : ∀ (t : Str) (p : Nat), 10 ∉ t → exec data (t ++ 10 :: cs) p { r₁ with cs := .comment } =
      exec data cs (p + (t.length + 1)) { r₁ with cs := .blank } := by
    intro t
    induction t with
    | nil => exact fun p _ => rfl
    | cons c t ih =>
      intro p ht
      have hc : c ≠ 10 := fun hc => ht (by simp [hc])
      have hnext : State.comment.next c = (.comment, []) := by simp [State.next, hc]
      have hstep : exec data (c :: (t ++ 10 :: cs)) p { r₁ with cs := .comment } =
          exec data (t ++ 10 :: cs) (p + 1) { r₁ with cs := .comment } :=
        exec_step (t ++ 10 :: cs) hnext (by decide) rfl rfl
      rw [List.cons_append, hstep, ih _ fun h => ht (by simp [h]), List.length_cons,
        show p + 1 + (t.length + 1) = p + (t.length + 1 + 1) by omega]
  refine ⟨{ r₁ with cs := .blank }, ?_, .of_blank (.inl rfl) hsubst hbuf⟩
  rw [List.cons_append, hopen, hline t _ ht, show p + 1 + (t.length + 1) = p + (t.length + 2) by omega]

theorem exec_separators : ∀ {seps : List Separator} {p : Nat} {r : Parser} (cs : Str), r.Waiting data p m → ∃ r' : Parser,
    exec data (seps.flatMap Separator.text ++ cs) p r = exec data cs (p + (seps.flatMap Separator.text).length) r' ∧
      r'.Waiting data (p + (seps.flatMap Separator.text).length) m
  | [], p, r, cs, h => ⟨r, rfl, h⟩
  | sep :: seps, p, r, cs, h => by
    have hsep : ∃ r₁ : Parser, exec data (sep.text ++ (seps.flatMap Separator.text ++ cs)) p r =
        exec data (seps.flatMap Separator.text ++ cs) (p + sep.text.length) r₁ ∧ r₁.Waiting data (p + sep.text.length) m := by
      cases sep with
      | blank c hc =>
        obtain ⟨r₁, hexec, h₁, -⟩ := exec_blank h hc (seps.flatMap Separator.text ++ cs)
        exact ⟨r₁, hexec, h₁⟩
      | comment t ht =>
        obtain ⟨r₁, hexec, h₁⟩ := exec_comment h ht (seps.flatMap Separator.text ++ cs)
        rw [show t.length + 2 = (Separator.comment t ht).text.length by simp [Separator.text]] at hexec h₁
        refine ⟨r₁, ?_, h₁⟩
        rw [← hexec, Separator.text, List.append_assoc]
        rfl
    obtain ⟨r₁, hexec₁, h₁⟩ := hsep
    obtain ⟨r', hexec, h'⟩ := exec_separators cs h₁
    rw [Nat.add_assoc, ← List.length_append] at hexec h'
    refine ⟨r', ?_, ?_⟩
    · rw [List.flatMap_cons, List.append_assoc, hexec₁, hexec]
    · rw [List.flatMap_cons]
      exact h'

/-! ## A definition -/

theorem next_keyChar (hc : isKeyChar c = true) : State.key.next c = (.key, [.strChar]) := by
  obtain ⟨hblank, -, -, h61⟩ := isKeyChar_ne hc
  simp [State.next, hblank, h61, hc]

theorem exec_keyChars : ∀ {k : Str} {p : Nat} {r : Parser} (cs : Str), r.cs = .key → (∀ c ∈ k, isKeyChar c = true) →
    exec data (k ++ cs) p r = exec data cs (p + k.length) { r with buf := r.buf ++ k }
  | [], p, r, cs, _, _ => by rw [List.append_nil]; rfl
  | c :: k, p, r, cs, hr, hk => by
    obtain ⟨hc, hk⟩ := List.forall_mem_cons.mp hk
    have hnext := next_keyChar hc
    rw [← hr] at hnext
    have hstep : exec data (c :: (k ++ cs)) p r = exec data (k ++ cs) (p + 1) { r with buf := r.buf ++ [c] } :=
      exec_step (k ++ cs) hnext (by simp [hr]) rfl rfl
    have ih := exec_keyChars (p := p + 1) (r := { r with buf := r.buf ++ [c] }) cs hr hk
    rw [List.cons_append, hstep, ih, List.length_cons, show p + 1 + k.length = p + (k.length + 1) by omega]
    simp

/-- A key where a definition may begin. -/
theorem exec_key {k : Str} (h : r.Waiting data p m) (hk : IsKey k) (cs : Str) : ∃ r' : Parser,
    exec data (k ++ cs) p r = exec data cs (p + k.length) r' ∧ r'.cs = .key ∧ r'.buf = k ∧ r'.macros = m ∧ r'.substitutions = [] := by
  obtain ⟨hne, hchars⟩ := hk
  obtain ⟨c, k, rfl⟩ := List.exists_cons_of_ne_nil hne
  obtain ⟨hc, hchars⟩ := List.forall_mem_cons.mp hchars
  obtain ⟨r₁, hr₁, rfl, hsubst, hbuf⟩ := h.settles
  obtain ⟨hblank, h34, h35, -⟩ := isKeyChar_ne hc
  have hnext : r.cs.next c = (.key, r.cs.eofActions ++ [.strChar]) := by
    simp [next_waits h.waits h34, State.between, hblank, h35, hc]
  have hfold : (r.cs.eofActions ++ [Action.strChar]).foldlM (perform data p c) { r with cs := .key } =
      .ok { r₁ with cs := .key, buf := [c] } := by
    rw [List.foldlM_append, foldlM_eofActions hr₁]
    show Except.ok { r₁ with cs := .key, buf := r₁.buf ++ [c] } = _
    rw [hbuf]
    rfl
  refine ⟨{ r₁ with cs := .key, buf := c :: k }, ?_, rfl, rfl, rfl, hsubst⟩
  rw [List.cons_append, exec_step (k ++ cs) hnext (by decide) hfold rfl, exec_keyChars cs rfl hchars, List.length_cons,
    Nat.add_assoc, Nat.add_comm 1]
  rfl

/-- White space that changes nothing. -/
theorem exec_stay (hstay : ∀ c, isBlank c = true → r.cs.next c = (r.cs, [])) (hne : r.cs ≠ .error) :
    ∀ {ws : Str} {p : Nat} (cs : Str), (∀ c ∈ ws, isBlank c = true) → exec data (ws ++ cs) p r = exec data cs (p + ws.length) r
  | [], _, _, _ => rfl
  | c :: ws, p, cs, hws => by
    obtain ⟨hc, hws⟩ := List.forall_mem_cons.mp hws
    have hstep : exec data (c :: (ws ++ cs)) p r = exec data (ws ++ cs) (p + 1) r := exec_step _ (hstay c hc) hne rfl rfl
    rw [List.cons_append, hstep, exec_stay hstay hne cs hws, Nat.add_assoc, Nat.add_comm 1]
    rfl

/-- The equals sign, with white space around it, and the quotes. -/
theorem exec_equals (hr : r.cs = .key) (before after : Blanks) (cs : Str) :
    exec data (before.val ++ 61 :: (after.val ++ (quotes ++ cs))) p r =
      exec data cs (p + (before.val.length + (after.val.length + 1)) + 3) { r with cs := .opened, lastKey := r.buf, buf := [] } := by
  have hequals : ∀ p, exec data (after.val ++ (quotes ++ cs)) p { r with cs := .equals, lastKey := r.buf, buf := [] } =
      exec data cs (p + after.val.length + 3) { r with cs := .opened, lastKey := r.buf, buf := [] } := by
    intro p
    rw [exec_stay (fun c hc => by simp [State.next, hc]) State.noConfusion _ after.property]
    rfl
  obtain ⟨before, hbefore⟩ := before
  cases before with
  | nil =>
    have hnext : r.cs.next 61 = (.equals, [.key]) := by rw [hr]; rfl
    rw [List.nil_append, exec_step _ hnext State.noConfusion rfl rfl, hequals]
    congr 2
    simp only [List.length_nil]
    omega
  | cons c ws =>
    obtain ⟨hc, hws⟩ := List.forall_mem_cons.mp hbefore
    have hnext : r.cs.next c = (.keyEnd, [.key]) := by rw [hr]; simp [State.next, hc]
    have hsign : ∀ p, exec data (61 :: (after.val ++ (quotes ++ cs))) p { r with cs := .keyEnd, lastKey := r.buf, buf := [] } =
        exec data (after.val ++ (quotes ++ cs)) (p + 1) { r with cs := .equals, lastKey := r.buf, buf := [] } := fun p => rfl
    rw [List.cons_append, exec_step _ hnext State.noConfusion rfl rfl]
    show exec data _ _ { r with cs := .keyEnd, lastKey := r.buf, buf := [] } = _
    rw [exec_stay (fun c hc => by simp [State.next, hc]) State.noConfusion _ hws, hsign, hequals]
    congr 2
    simp only [List.length_cons]
    omega

/-- **Up to the value.** -/
theorem exec_head (h : r.Waiting data p m) (d : MacroHead) (cs : Str) : ∃ r' : Parser,
    exec data (d.text ++ (quotes ++ cs)) p r = exec data cs (p + d.text.length + 3) r' ∧
      r'.cs = .opened ∧ r'.lastKey = d.key ∧ r'.macros = m ∧ r'.substitutions = [] ∧ r'.buf = [] := by
  obtain ⟨r₁, hexec₁, h₁⟩ := @exec_separators data m d.separators _ _
    (d.key ++ (d.beforeEquals.val ++ 61 :: (d.afterEquals.val ++ (quotes ++ cs)))) h
  obtain ⟨r₂, hexec₂, hcs₂, hbuf₂, hm₂, hsubst₂⟩ :=
    exec_key h₁ d.isKey (d.beforeEquals.val ++ 61 :: (d.afterEquals.val ++ (quotes ++ cs)))
  refine ⟨{ r₂ with cs := .opened, lastKey := r₂.buf, buf := [] }, ?_, rfl, hbuf₂, hm₂, hsubst₂, rfl⟩
  have htext : d.text ++ (quotes ++ cs) = d.separators.flatMap Separator.text ++
      (d.key ++ (d.beforeEquals.val ++ 61 :: (d.afterEquals.val ++ (quotes ++ cs)))) := by
    simp [MacroHead.text]
  rw [htext, hexec₁, hexec₂, exec_equals hcs₂]
  congr 2
  simp only [MacroHead.text, List.length_append, List.length_cons]
  omega

/-- The first character of a value, or of the quotes after it, notes where
the value stands. -/
theorem exec_opened (hr : r.cs = .opened) (b rest : Str) :
    exec data (b ++ (quotes ++ rest)) p r = exec data (b ++ (quotes ++ rest)) p { r with cs := .query, strStart := p } := by
  have hvalue : ∃ d v, b ++ (quotes ++ rest) = d :: v := by
    cases b with
    | nil => exact ⟨34, 34 :: 34 :: rest, rfl⟩
    | cons d v => exact ⟨d, v ++ (quotes ++ rest), rfl⟩
  obtain ⟨d, v, hv⟩ := hvalue
  rw [hv, exec, exec, hr]
  rfl

/-- **The value**: at its end, its references are resolved. -/
theorem exec_value {b : Str} {ps : List (Piece UInt8)} (rest : Str) (hr : r.cs = .opened) (hsubst : r.substitutions = [])
    (hbuf : r.buf = []) (hread : read 37 b = some ps) (hb : ¬quotes <:+: b) (hdata : data.drop p = b ++ (quotes ++ rest)) :
    ∃ r' : Parser, exec data (b ++ (quotes ++ rest)) p r = exec data rest (p + b.length + 3) r' ∧
      r'.Waiting data (p + b.length + 3) (r.macros.assign r.lastKey (render 37 (ps.map (Piece.resolve r.macros.find)))) ∧
      r'.cs.isFinal = true ∧ r'.cs ≠ .start := by
  obtain ⟨n, substStart, hn, hbody⟩ := @exec_body data (quotes ++ rest) b [] false ps 0 p { r with cs := .query, strStart := p }
    hread hb rfl rfl (by simpa [partStart] using hdata) (by simp)
  have hafter : (State.after n).waits = true ∧ (State.after n).eofActions = [.queryEnd] ∧ (State.after n).isFinal = true ∧
      State.after n ≠ .start := by
    rcases n with _ | _ | n <;> exact ⟨rfl, rfl, rfl, State.noConfusion⟩
  have hslice : slice data p (p + b.length + 3 - 3) = b := by
    rw [slice, hdata, Nat.add_sub_cancel, Nat.add_sub_cancel_left, List.take_left]
  have happly : applySubstitutions r.macros (spans 0 ps).reverse b = .ok (render 37 (ps.map (Piece.resolve r.macros.find))) := by
    have h := applySubstitutions_spans r.macros ps []
    rw [(read_some hread).1] at h
    exact h
  refine ⟨_, by rw [exec_opened hr, hbody, exec_quotes rfl hn], ⟨hafter.1, ?_⟩, hafter.2.2⟩
  refine ⟨{ r with cs := .after n, strStart := p, substStart, substitutions := []
                   macros := r.macros.assign r.lastKey (render 37 (ps.map (Piece.resolve r.macros.find))) }, ?_, rfl, rfl, hbuf⟩
  dsimp only
  rw [hafter.2.1]
  simp only [List.foldlM_cons, List.foldlM_nil, perform, hsubst, List.nil_append, hslice, happly]
  rfl

/-- **A definition is read**: it is what the map has more. -/
theorem exec_macroDef (h : r.Waiting data p m) (d : MacroDef) (rest : Str) (hdata : data.drop p = d.text ++ rest) : ∃ r' : Parser,
    exec data (d.text ++ rest) p r = exec data rest (p + d.text.length) r' ∧ r'.Waiting data (p + d.text.length) (d.assign m) ∧
      r'.cs.isFinal = true := by
  obtain ⟨ps, hread, hresolve⟩ := read_render d.proper
  have htext : d.text ++ rest = d.toMacroHead.text ++ (quotes ++ (render 37 d.pieces ++ (quotes ++ (d.blanks.val ++ rest)))) := by
    simp [MacroDef.text]
  have hlen : d.text.length = d.toMacroHead.text.length + 3 + (render 37 d.pieces).length + 3 + d.blanks.val.length := by
    simp only [MacroDef.text, List.length_append, quotes, List.length_cons, List.length_nil]
    omega
  obtain ⟨r₁, hexec₁, hcs₁, hkey₁, rfl, hsubst₁, hbuf₁⟩ :=
    exec_head h d.toMacroHead (render 37 d.pieces ++ (quotes ++ (d.blanks.val ++ rest)))
  have hdrop : data.drop (p + d.toMacroHead.text.length + 3) = render 37 d.pieces ++ (quotes ++ (d.blanks.val ++ rest)) := by
    rw [Nat.add_assoc, ← List.drop_drop, hdata, htext, ← List.append_assoc, List.drop_left' (by rw [List.length_append]; rfl)]
  obtain ⟨r₂, hexec₂, h₂, hfinal₂, hstart₂⟩ := exec_value _ hcs₁ hsubst₁ hbuf₁ hread d.unquoted hdrop
  obtain ⟨r', hexec, h', hfinal'⟩ := exec_blanks rest h₂ d.blanks.property
  have hp : p + d.toMacroHead.text.length + 3 + (render 37 d.pieces).length + 3 + d.blanks.val.length = p + d.text.length := by
    omega
  rw [hp] at hexec h'
  refine ⟨r', ?_, ?_, hfinal' hfinal₂ hstart₂⟩
  · rw [htext, hexec₁, hexec₂, hexec]
  · rw [hresolve, hkey₁] at h'
    exact h'

end

/-! ## Files -/

/-- **A file is read**, from its first definition to its last. -/
theorem exec_fileText {data : Str} : ∀ {ds : List MacroDef} {p : Nat} {r : Parser} {m : Macros}, r.Waiting data p m → r.cs.isFinal = true →
    data.drop p = fileText ds → ∃ r' : Parser, exec data (fileText ds) p r = .ok (r', p + (fileText ds).length) ∧
      r'.Waiting data (p + (fileText ds).length) (ds.foldl (fun m d => d.assign m) m) ∧ r'.cs.isFinal = true
  | [], p, r, m, h, hfinal, _ => ⟨r, rfl, h, hfinal⟩
  | d :: ds, p, r, m, h, hfinal, hdata => by
    rw [fileText, List.flatMap_cons] at hdata ⊢
    obtain ⟨r₁, hexec₁, h₁, hfinal₁⟩ := exec_macroDef h d _ hdata
    have hdrop : data.drop (p + d.text.length) = fileText ds := by
      rw [← List.drop_drop, hdata, List.drop_left]
      rfl
    obtain ⟨r', hexec, h', hfinal'⟩ := exec_fileText h₁ hfinal₁ hdrop
    rw [Nat.add_assoc, ← List.length_append] at hexec h'
    exact ⟨r', hexec₁.trans hexec, h', hfinal'⟩

theorem parseMacros_of_waiting {data : Str} {r : Parser} {m : Macros} (hexec : exec data data 0 .init = .ok (r, data.length))
    (h : r.Waiting data data.length m) (hfinal : r.cs.isFinal = true) : parseMacros data = .ok m := by
  obtain ⟨r₁, hr₁, hm, -, -⟩ := h.settles
  have hne : r.cs ≠ .error := by
    intro herr
    rw [herr] at hfinal
    cases hfinal
  rw [parseMacros, hexec]
  simp only [bind, Except.bind, if_neg hne, hr₁]
  rw [eofActions_cs hr₁, if_pos hfinal, hm]

/-- **A file means what its definitions mean**, one after the other. -/
theorem parseMacros_fileText (ds : List MacroDef) : parseMacros (fileText ds) = .ok (macrosOf ds) := by
  obtain ⟨r, hexec, h, hfinal⟩ := @exec_fileText (fileText ds) ds 0 _ _ .init rfl rfl
  rw [Nat.zero_add] at hexec h
  exact parseMacros_of_waiting hexec h hfinal

end AlpinoCorpus
