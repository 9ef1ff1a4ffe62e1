/-
What the automaton has read: in every state the text is some definitions and
the beginning of one more, and the variables of `parseMacros` hold what they
mean. So a file that is accepted is one of the grammar.
-/
import AlpinoCorpus.MacroGrammar

namespace AlpinoCorpus

open Replace

/-! ## Three quotes -/

theorem quoteCount_replicate (x : Str) : ∀ n : Nat, quoteCount (x ++ List.replicate n 34) = quoteCount x + n
  | 0 => by rw [List.replicate_zero, List.append_nil, Nat.add_zero]
  | n + 1 => by rw [List.replicate_succ', ← List.append_assoc, quoteCount_quote, quoteCount_replicate x n, Nat.add_assoc]

/-- A mark parts the quotes. -/
theorem quoteCount_mark (x part : Str) : quoteCount (x ++ 37 :: part) = quoteCount part := by
  simp only [quoteCount, List.reverse_append, List.reverse_cons, List.append_assoc]
  rw [List.takeWhile_append]
  split
  · next h => simp [h]
  · rfl

theorem le_quoteCount {x : Str} (h : quotes <:+ x) : 3 ≤ quoteCount x := by
  obtain ⟨y, rfl⟩ := h
  rw [show quotes = List.replicate 3 34 from rfl, quoteCount_replicate]
  omega

/-- One character more, and no three quotes yet. -/
theorem not_quotes_snoc {x : Str} {c : UInt8} (h : ¬quotes <:+: x) (hc : quoteCount (x ++ [c]) ≤ 2) : ¬quotes <:+: x ++ [c] := by
  intro hinfix
  rcases List.infix_concat_iff.mp hinfix with hsuffix | hinfix
  · have := le_quoteCount hsuffix
    omega
  · exact h hinfix

theorem not_quotes_replicate {x : Str} (h : ¬quotes <:+: x) (hx : quoteCount x = 0) : ∀ {n : Nat}, n ≤ 2 →
    ¬quotes <:+: x ++ List.replicate n 34
  | 0, _ => by rwa [List.replicate_zero, List.append_nil]
  | n + 1, hn => by
    rw [List.replicate_succ', ← List.append_assoc]
    refine not_quotes_snoc (not_quotes_replicate h hx (by omega)) ?_
    rw [quoteCount_quote, quoteCount_replicate]
    omega

theorem spans_append : ∀ (ps qs : List (Piece UInt8)) (o : Nat), spans o (ps ++ qs) = spans o ps ++ spans (o + (render 37 ps).length) qs
  | [], _, _ => rfl
  | .text t :: ps, qs, o => by
    rw [List.cons_append, spans, spans, spans_append ps, render_cons, List.length_append, Nat.add_assoc]
    rfl
  | .ref n :: ps, qs, o => by
    rw [List.cons_append, spans, spans, spans_append ps, render_cons, List.length_append, List.cons_append]
    congr 3
    simp only [Piece.render, List.length_append, List.length_cons, List.length_nil]
    omega

/-! ## What has been read -/

/-- After the equals sign, and so many quotes. -/
def State.opening : Nat → State
  | 0 => .equals
  | 1 => .open1
  | 2 => .open2
  | _ => .opened

/-- A value before the quotes that it may end in. -/
structure MacroBody where
  pieces : List (Piece UInt8)
  proper : ∀ p ∈ pieces, p.Proper 37
  unquoted : ¬quotes <:+: render 37 pieces
  ends : quoteCount (render 37 pieces) = 0

def MacroBody.text (b : MacroBody) : Str := render 37 b.pieces

/-- Up to the value of a definition. -/
def opened (ds : List MacroDef) (h : MacroHead) : Str := fileText ds ++ (h.text ++ quotes)

/-- **What has been read**: the text, and the variables after it. -/
inductive Reading : Str → Parser → Prop
  | start : Reading [] .init
  | ended (ds : List MacroDef) (d : MacroDef) {s x k} :
      Reading (fileText (ds ++ [d])) ⟨.blankEnd, s, x, macrosOf (ds ++ [d]), [], k, []⟩
  | separated (ds : List MacroDef) (seps : List Separator) {s x k} :
      Reading (fileText ds ++ seps.flatMap Separator.text) ⟨.blank, s, x, macrosOf ds, [], k, []⟩
  | comment (ds : List MacroDef) (seps : List Separator) {t : Str} (ht : 10 ∉ t) {s x k} :
      Reading (fileText ds ++ (seps.flatMap Separator.text ++ 35 :: t)) ⟨.comment, s, x, macrosOf ds, [], k, []⟩
  | key (ds : List MacroDef) (seps : List Separator) {key : Str} (hkey : IsKey key) {s x k} :
      Reading (fileText ds ++ (seps.flatMap Separator.text ++ key)) ⟨.key, s, x, macrosOf ds, [], k, key⟩
  | keyEnd (ds : List MacroDef) (seps : List Separator) {key : Str} (hkey : IsKey key) (ws : Blanks) {s x} :
      Reading (fileText ds ++ (seps.flatMap Separator.text ++ (key ++ ws.val))) ⟨.keyEnd, s, x, macrosOf ds, [], key, []⟩
  | opening (ds : List MacroDef) (h : MacroHead) {n : Nat} (hn : n ≤ 3) {s x} :
      Reading (fileText ds ++ (h.text ++ List.replicate n 34)) ⟨.opening n, s, x, macrosOf ds, [], h.key, []⟩
  | text (ds : List MacroDef) (h : MacroHead) (b : MacroBody) {n : Nat} (hn : n ≤ 2) {x} :
      Reading (opened ds h ++ (b.text ++ List.replicate n 34))
        ⟨.inText n, (opened ds h).length, x, macrosOf ds, spans 0 b.pieces, h.key, []⟩
  | name (ds : List MacroDef) (h : MacroHead) {ps : List (Piece UInt8)} (hps : ∀ p ∈ ps, p.Proper 37) {part : Str} (hpart : 37 ∉ part)
      (hquotes : ¬quotes <:+: render 37 ps ++ 37 :: part) {x} (hx : part ≠ [] → x = (opened ds h).length + ((render 37 ps).length + 1)) :
      Reading (opened ds h ++ (render 37 ps ++ 37 :: part))
        ⟨bodyState true part, (opened ds h).length, x, macrosOf ds, spans 0 ps, h.key, []⟩
  | closed (ds : List MacroDef) (h : MacroHead) (b : MacroBody) {n : Nat} (hn : n ≤ 2) {x} :
      Reading (opened ds h ++ (b.text ++ List.replicate n 34 ++ quotes))
        ⟨.after n, (opened ds h).length, x, macrosOf ds, spans 0 b.pieces, h.key, []⟩

theorem Reading.of_eq {pre pre' : Str} {r : Parser} (h : Reading pre r) (heq : pre = pre') : Reading pre' r := heq ▸ h

/-! ## One character -/

section

variable {pre : Str} {c : UInt8} {r : Parser}

/-- A transition reads the character after `pre`, or stops in the error
state; none of its actions is out of range. -/
def Passes (pre : Str) (c : UInt8) (r : Parser) (move : State × List Action) : Prop :=
  ∃ r', move.2.foldlM (perform pre pre.length c) { r with cs := move.1 } = .ok r' ∧ (r'.cs = .error ∨ Reading (pre ++ [c]) r')

theorem passes_error : Passes pre c r (.error, []) := ⟨_, rfl, .inl rfl⟩

theorem passes_move {s : State} (h : Reading (pre ++ [c]) { r with cs := s }) : Passes pre c r (s, []) := ⟨_, rfl, .inr h⟩

/-- Between two definitions, `acts` being what is left to be done. -/
theorem passes_between (ds : List MacroDef) (seps : List Separator) (hpre : pre = fileText ds ++ seps.flatMap Separator.text)
    {after : State} {acts : List Action} {s x : Nat} {k : Str}
    (hacts : ∀ s', acts.foldlM (perform pre pre.length c) { r with cs := s' } = .ok ⟨s', s, x, macrosOf ds, [], k, []⟩)
    (hblank : isBlank c = true → Reading (pre ++ [c]) ⟨after, s, x, macrosOf ds, [], k, []⟩) :
    Passes pre c r (State.between after acts c) := by
  unfold State.between
  split
  · next hc => exact ⟨_, hacts _, .inr (hblank hc)⟩
  · split
    · next h35 =>
      subst h35
      refine ⟨_, hacts _, .inr ((Reading.comment ds seps (t := []) (by simp)).of_eq ?_)⟩
      rw [hpre, List.append_assoc]
    · split
      · next hc =>
        have hkey : IsKey [c] := ⟨by simp, by simpa using hc⟩
        refine ⟨⟨.key, s, x, macrosOf ds, [], k, [c]⟩, ?_, .inr ((Reading.key ds seps hkey).of_eq ?_)⟩
        · rw [List.foldlM_append, hacts]
          rfl
        · rw [hpre, List.append_assoc]
      · exact passes_error

/-- White space goes on. -/
def Blanks.snoc (ws : Blanks) (hc : isBlank c = true) : Blanks where
  val := ws.val ++ [c]
  property := List.forall_mem_append.mpr ⟨ws.property, List.forall_mem_singleton.mpr hc⟩

theorem passes_blanks (ds : List MacroDef) (d : MacroDef) (hc : isBlank c = true) {s x : Nat} {k : Str} :
    Reading (fileText (ds ++ [d]) ++ [c]) ⟨.blankEnd, s, x, macrosOf (ds ++ [d]), [], k, []⟩ := by
  have hread := Reading.ended ds { d with blanks := d.blanks.snoc hc } (s := s) (x := x) (k := k)
  rw [macrosOf_snoc, fileText_snoc] at hread
  rw [macrosOf_snoc, fileText_snoc]
  refine hread.of_eq ?_
  simp [MacroDef.text, Blanks.snoc]

/-! ### In a value -/

/-- Text and quotes as one piece more. -/
theorem proper_text {ps : List (Piece UInt8)} (hps : ∀ p ∈ ps, p.Proper 37) {t : Str} (ht : 37 ∉ t) :
    ∀ p ∈ ps ++ [.text t], p.Proper 37 :=
  List.forall_mem_append.mpr ⟨hps, List.forall_mem_singleton.mpr ⟨ht, by simp⟩⟩

theorem mark_notMem {c : UInt8} (h37 : c ≠ 37) (n : Nat) : (37 : UInt8) ∉ List.replicate n 34 ++ [c] := by
  simp [Ne.symm h37]

theorem MacroBody.render_resume (b : MacroBody) (n : Nat) (c : UInt8) :
    render 37 (b.pieces ++ [.text (List.replicate n 34 ++ [c])]) = render 37 b.pieces ++ List.replicate n 34 ++ [c] := by
  rw [render_snoc, Piece.render, List.append_assoc]

theorem MacroBody.unquoted_resume (b : MacroBody) {n : Nat} (hn : n ≤ 2) {c : UInt8} (h34 : c ≠ 34) :
    ¬quotes <:+: render 37 (b.pieces ++ [.text (List.replicate n 34 ++ [c])]) := by
  rw [b.render_resume]
  refine not_quotes_snoc (not_quotes_replicate b.unquoted b.ends hn) ?_
  rw [quoteCount_other h34]
  omega

theorem MacroBody.ends_resume (b : MacroBody) (n : Nat) {c : UInt8} (h34 : c ≠ 34) :
    quoteCount (render 37 (b.pieces ++ [.text (List.replicate n 34 ++ [c])])) = 0 := by
  rw [b.render_resume, quoteCount_other h34]

/-- The quotes were not the end: they are text. -/
def MacroBody.resume (b : MacroBody) {n : Nat} (hn : n ≤ 2) {c : UInt8} (h34 : c ≠ 34) (h37 : c ≠ 37) : MacroBody where
  pieces := b.pieces ++ [.text (List.replicate n 34 ++ [c])]
  proper := proper_text b.proper (mark_notMem h37 n)
  unquoted := b.unquoted_resume hn h34
  ends := b.ends_resume n h34

theorem MacroBody.text_resume (b : MacroBody) {n : Nat} (hn : n ≤ 2) (h34 : c ≠ 34) (h37 : c ≠ 37) :
    (b.resume hn h34 h37).text = b.text ++ List.replicate n 34 ++ [c] := by
  rw [MacroBody.text, MacroBody.resume, b.render_resume]
  rfl

theorem MacroBody.spans_text (ps : List (Piece UInt8)) (t : Str) : spans 0 (ps ++ [.text t]) = spans 0 ps := by
  rw [spans_append, spans, spans, List.append_nil]

theorem passes_text (ds : List MacroDef) (h : MacroHead) (b : MacroBody) {n : Nat} (hn : n ≤ 2) {s : State} {x : Nat} :
    Passes (opened ds h ++ (b.text ++ List.replicate n 34)) c
      ⟨s, (opened ds h).length, x, macrosOf ds, spans 0 b.pieces, h.key, []⟩ ((State.inText n).next c) := by
  by_cases h34 : c = 34
  · subst h34
    have hn : n = 0 ∨ n = 1 ∨ n = 2 := by omega
    obtain rfl | rfl | rfl := hn
    · exact passes_move ((Reading.text ds h b (n := 1) (by omega)).of_eq (by simp))
    · exact passes_move ((Reading.text ds h b (n := 2) (by omega)).of_eq (by simp [List.replicate]))
    · exact passes_move ((Reading.closed ds h b (n := 0) (by omega)).of_eq (by simp [List.replicate, quotes]))
  · by_cases h37 : c = 37
    · subst h37
      have hnext : (State.inText n).next 37 = (bodyState true [], []) := by
        rcases n with _ | _ | n <;> rfl
      have hquotes : ¬quotes <:+: render 37 (b.pieces ++ [.text (List.replicate n 34)]) ++ 37 :: [] := by
        rw [render_snoc, Piece.render]
        refine not_quotes_snoc (not_quotes_replicate b.unquoted b.ends hn) ?_
        rw [quoteCount_other (by decide)]
        omega
      have hread := Reading.name ds h (proper_text b.proper (t := List.replicate n 34) (by simp)) List.not_mem_nil hquotes (x := x) (by simp)
      rw [MacroBody.spans_text] at hread
      rw [hnext]
      refine passes_move (hread.of_eq ?_)
      simp [render_snoc, Piece.render, MacroBody.text]
    · have hnext : (State.inText n).next c = (.inText 0, []) := by
        rcases n with _ | _ | n <;> simp [State.inText, State.next, State.inQuery, h34, h37]
      have hread := Reading.text ds h (b.resume hn h34 h37) (n := 0) (by omega) (x := x)
      rw [MacroBody.text_resume, MacroBody.resume, MacroBody.spans_text] at hread
      rw [hnext]
      refine passes_move (hread.of_eq ?_)
      simp

theorem passes_name (ds : List MacroDef) (h : MacroHead) {ps : List (Piece UInt8)} (hps : ∀ p ∈ ps, p.Proper 37) {part : Str}
    (hpart : 37 ∉ part) (hquotes : ¬quotes <:+: render 37 ps ++ 37 :: part) {x : Nat}
    (hx : part ≠ [] → x = (opened ds h).length + ((render 37 ps).length + 1)) :
    Passes (opened ds h ++ (render 37 ps ++ 37 :: part)) c
      ⟨bodyState true part, (opened ds h).length, x, macrosOf ds, spans 0 ps, h.key, []⟩ ((bodyState true part).next c) := by
  have hpre : (opened ds h ++ (render 37 ps ++ 37 :: part)).length = (opened ds h).length + ((render 37 ps).length + 1) + part.length := by
    simp only [List.length_append, List.length_cons]
    omega
  by_cases h37 : c = 37
  · subst h37
    by_cases hempty : part = []
    · subst hempty
      exact passes_error
    · rw [next_close hempty]
      -- the reference is complete
      have hproper : ∀ p ∈ ps ++ [.ref part], p.Proper 37 :=
        List.forall_mem_append.mpr ⟨hps, List.forall_mem_singleton.mpr ⟨hpart, by simpa using hempty⟩⟩
      have hrender : render 37 (ps ++ [.ref part]) = render 37 ps ++ 37 :: part ++ [37] := by
        simp [render_snoc, Piece.render]
      have hcount : quoteCount (render 37 (ps ++ [.ref part])) = 0 := by
        rw [hrender, quoteCount_other (by decide)]
      have hunquoted : ¬quotes <:+: render 37 (ps ++ [.ref part]) := by
        rw [hrender]
        refine not_quotes_snoc hquotes ?_
        rw [quoteCount_other (by decide)]
        omega
      have hslice : slice (opened ds h ++ (render 37 ps ++ 37 :: part)) x (opened ds h ++ (render 37 ps ++ 37 :: part)).length = part := by
        have hsplit : opened ds h ++ (render 37 ps ++ 37 :: part) = opened ds h ++ (render 37 ps ++ [37]) ++ part := by simp
        rw [slice, hx hempty, hpre, Nat.add_sub_cancel_left, hsplit, List.drop_left' (by simp), List.take_length]
      have hspan : spans 0 (ps ++ [.ref part]) = spans 0 ps ++
          [⟨x - (opened ds h).length - 1, (opened ds h ++ (render 37 ps ++ 37 :: part)).length - x + 2,
            slice (opened ds h ++ (render 37 ps ++ 37 :: part)) x (opened ds h ++ (render 37 ps ++ 37 :: part)).length⟩] := by
        rw [spans_append, spans, spans, hslice, hpre, hx hempty]
        congr 3 <;> omega
      have hread := Reading.text ds h ⟨ps ++ [.ref part], hproper, hunquoted, hcount⟩ (n := 0) (by omega) (x := x)
      rw [hspan] at hread
      refine ⟨_, rfl, .inr (hread.of_eq ?_)⟩
      simp [MacroBody.text, hrender]
  · by_cases hlt : quoteCount (part ++ [c]) ≤ 2
    · -- the name goes on
      have hsnoc : render 37 ps ++ 37 :: (part ++ [c]) = render 37 ps ++ 37 :: part ++ [c] := by simp
      have hquotes' : ¬quotes <:+: render 37 ps ++ 37 :: (part ++ [c]) := by
        rw [hsnoc]
        refine not_quotes_snoc hquotes ?_
        rw [← hsnoc, quoteCount_mark]
        exact hlt
      have hpart' : 37 ∉ part ++ [c] := by simp [hpart, Ne.symm h37]
      rw [next_bodyState true h37 hlt]
      by_cases hempty : part = []
      · subst hempty
        refine ⟨_, rfl, .inr ((Reading.name ds h hps hpart' hquotes' fun _ => ?_).of_eq ?_)⟩
        · rw [hpre]
          rfl
        · simp
      · rw [if_neg (by simp [hempty])]
        refine passes_move ((Reading.name ds h hps hpart' hquotes' fun _ => hx hempty).of_eq ?_)
        simp
    · -- three quotes
      have hpart2 : quoteCount part ≤ 2 := by
        rw [← quoteCount_mark (render 37 ps)]
        exact quoteCount_le [] (by rwa [List.append_nil])
      have h34 : c = 34 := by
        by_contra h34
        rw [quoteCount_other h34] at hlt
        omega
      subst h34
      rw [quoteCount_quote] at hlt
      rw [next_three (by omega)]
      exact passes_error

/-- A definition, when the last three quotes of a run have been read. -/
def MacroBody.definition (b : MacroBody) (h : MacroHead) {n : Nat} (hn : n ≤ 2) : MacroDef where
  toMacroHead := h
  pieces := b.pieces ++ [.text (List.replicate n 34)]
  proper := proper_text b.proper (by simp)
  unquoted := by
    rw [render_snoc, Piece.render]
    exact not_quotes_replicate b.unquoted b.ends hn
  blanks := ⟨[], by simp⟩

theorem fileText_definition (ds : List MacroDef) (h : MacroHead) (b : MacroBody) {n : Nat} (hn : n ≤ 2) :
    opened ds h ++ (b.text ++ List.replicate n 34 ++ quotes) = fileText (ds ++ [b.definition h hn]) := by
  simp [fileText_snoc, MacroDef.text, MacroBody.definition, opened, render_snoc, Piece.render, MacroBody.text]

/-- **The end of a value**: its references are resolved, and it is bound to the key. -/
theorem foldlM_queryEnd (ds : List MacroDef) (h : MacroHead) (b : MacroBody) {n : Nat} (hn : n ≤ 2) (s : State) (x : Nat) :
    [.queryEnd].foldlM (perform (opened ds h ++ (b.text ++ List.replicate n 34 ++ quotes))
      (opened ds h ++ (b.text ++ List.replicate n 34 ++ quotes)).length c)
      ⟨s, (opened ds h).length, x, macrosOf ds, spans 0 b.pieces, h.key, []⟩ =
    .ok ⟨s, (opened ds h).length, x, macrosOf (ds ++ [b.definition h hn]), [], h.key, []⟩ := by
  have hslice : slice (opened ds h ++ (b.text ++ List.replicate n 34 ++ quotes)) (opened ds h).length
      ((opened ds h ++ (b.text ++ List.replicate n 34 ++ quotes)).length - 3) = b.text ++ List.replicate n 34 := by
    have hlen : (opened ds h ++ (b.text ++ List.replicate n 34 ++ quotes)).length - 3 - (opened ds h).length =
        (b.text ++ List.replicate n 34).length := by
      simp only [List.length_append, quotes, List.length_cons, List.length_nil]
      omega
    rw [slice, List.drop_left, hlen, List.take_left]
  have happly := applySubstitutions_spans (macrosOf ds) (b.pieces ++ [.text (List.replicate n 34)]) []
  rw [List.length_nil, MacroBody.spans_text, render_snoc, Piece.render, List.nil_append, List.nil_append] at happly
  rw [List.foldlM_cons, perform, hslice, macrosOf_snoc]
  simp only [MacroBody.text, happly, bind, Except.bind]
  rfl

theorem passes_closed (ds : List MacroDef) (h : MacroHead) (b : MacroBody) {n : Nat} (hn : n ≤ 2) {x : Nat} :
    Passes (opened ds h ++ (b.text ++ List.replicate n 34 ++ quotes)) c
      ⟨.after n, (opened ds h).length, x, macrosOf ds, spans 0 b.pieces, h.key, []⟩ ((State.after n).next c) := by
  have hend : Passes (opened ds h ++ (b.text ++ List.replicate n 34 ++ quotes)) c
      ⟨.after n, (opened ds h).length, x, macrosOf ds, spans 0 b.pieces, h.key, []⟩ (State.between .blankEnd [.queryEnd] c) := by
    have hfile := fileText_definition ds h b hn
    refine passes_between (ds ++ [b.definition h hn]) [] (by rw [hfile]; simp) (fun s' => foldlM_queryEnd ds h b hn s' x) fun hc => ?_
    rw [hfile]
    exact passes_blanks ds _ hc
  have hn : n = 0 ∨ n = 1 ∨ n = 2 := by omega
  by_cases h34 : c = 34
  · subst h34
    obtain rfl | rfl | rfl := hn
    · exact passes_move ((Reading.closed ds h b (n := 1) (by omega)).of_eq (by simp [List.replicate, quotes]))
    · exact passes_move ((Reading.closed ds h b (n := 2) (by omega)).of_eq (by simp [List.replicate, quotes]))
    · exact hend
  · have hnext : (State.after n).next c = State.between .blankEnd [.queryEnd] c := by
      obtain rfl | rfl | rfl := hn <;> simp [State.after, State.next, h34]
    rw [hnext]
    exact hend

/-! ### Before a value -/

theorem passes_comment (ds : List MacroDef) (seps : List Separator) {t : Str} (ht : 10 ∉ t) {s x : Nat} {k : Str} :
    Passes (fileText ds ++ (seps.flatMap Separator.text ++ 35 :: t)) c ⟨.comment, s, x, macrosOf ds, [], k, []⟩ (State.comment.next c) := by
  by_cases hc : c = 10
  · subst hc
    refine passes_move ((Reading.separated ds (seps ++ [.comment t ht])).of_eq ?_)
    simp [Separator.text]
  · have hnext : State.comment.next c = (.comment, []) := by simp [State.next, hc]
    have ht' : 10 ∉ t ++ [c] := by simp [ht, Ne.symm hc]
    rw [hnext]
    refine passes_move ((Reading.comment ds seps ht').of_eq ?_)
    simp

theorem passes_key (ds : List MacroDef) (seps : List Separator) {key : Str} (hkey : IsKey key) {s x : Nat} {k : Str} :
    Passes (fileText ds ++ (seps.flatMap Separator.text ++ key)) c ⟨.key, s, x, macrosOf ds, [], k, key⟩ (State.key.next c) := by
  simp only [State.next]
  split
  · next hc =>
    refine ⟨_, rfl, .inr ((Reading.keyEnd ds seps hkey ⟨[c], by simpa using hc⟩).of_eq ?_)⟩
    simp
  · split
    · next h61 =>
      subst h61
      refine ⟨_, rfl, .inr ((Reading.opening ds ⟨seps, key, hkey, ⟨[], by simp⟩, ⟨[], by simp⟩⟩ (n := 0) (by omega)).of_eq ?_)⟩
      simp [MacroHead.text]
    · split
      · next hc =>
        have hkey' : IsKey (key ++ [c]) :=
          ⟨by simp, List.forall_mem_append.mpr ⟨hkey.2, List.forall_mem_singleton.mpr hc⟩⟩
        refine ⟨_, rfl, .inr ((Reading.key ds seps hkey').of_eq ?_)⟩
        simp
      · exact passes_error

theorem passes_keyEnd (ds : List MacroDef) (seps : List Separator) {key : Str} (hkey : IsKey key) (ws : Blanks) {s x : Nat} :
    Passes (fileText ds ++ (seps.flatMap Separator.text ++ (key ++ ws.val))) c ⟨.keyEnd, s, x, macrosOf ds, [], key, []⟩
      (State.keyEnd.next c) := by
  simp only [State.next]
  split
  · next hc =>
    refine passes_move ((Reading.keyEnd ds seps hkey (ws.snoc hc)).of_eq ?_)
    simp [Blanks.snoc]
  · split
    · next h61 =>
      subst h61
      refine passes_move ((Reading.opening ds ⟨seps, key, hkey, ws, ⟨[], by simp⟩⟩ (n := 0) (by omega)).of_eq ?_)
      simp [MacroHead.text]
    · exact passes_error

/-- A value of which nothing has been read. -/
def MacroBody.empty : MacroBody := ⟨[], by simp, by decide, rfl⟩

theorem passes_opening (ds : List MacroDef) (h : MacroHead) {n : Nat} (hn : n ≤ 3) {s x : Nat} :
    Passes (fileText ds ++ (h.text ++ List.replicate n 34)) c ⟨.opening n, s, x, macrosOf ds, [], h.key, []⟩
      ((State.opening n).next c) := by
  have hn : n = 0 ∨ n = 1 ∨ n = 2 ∨ n = 3 := by omega
  obtain rfl | rfl | rfl | rfl := hn
  · simp only [State.opening, State.next]
    split
    · next hc =>
      refine passes_move ((Reading.opening ds { h with afterEquals := h.afterEquals.snoc hc } (n := 0) (by omega)).of_eq ?_)
      simp [MacroHead.text, Blanks.snoc]
    · split
      · next h34 =>
        subst h34
        exact passes_move ((Reading.opening ds h (n := 1) (by omega)).of_eq (by simp))
      · exact passes_error
  · simp only [State.opening, State.next]
    split
    · next h34 =>
      subst h34
      exact passes_move ((Reading.opening ds h (n := 2) (by omega)).of_eq (by simp [List.replicate]))
    · exact passes_error
  · simp only [State.opening, State.next]
    split
    · next h34 =>
      subst h34
      exact passes_move ((Reading.opening ds h (n := 3) (by omega)).of_eq (by simp [List.replicate]))
    · exact passes_error
  · -- the value begins with this character
    have htext : Passes (opened ds h ++ (MacroBody.empty.text ++ List.replicate 0 34)) c
        ⟨.opened, (opened ds h).length, x, macrosOf ds, [], h.key, []⟩ (State.query.next c) := passes_text ds h .empty (by omega)
    rw [show opened ds h ++ (MacroBody.empty.text ++ List.replicate 0 34) = opened ds h from List.append_nil _] at htext
    exact htext

/-- **One character**: the cases are the states. -/
theorem Reading.step (h : Reading pre r) (c : UInt8) : Passes pre c r (r.cs.next c) := by
  cases h with
  | start =>
    refine passes_between [] [] rfl (fun s' => rfl) fun hc => ?_
    exact (Reading.separated [] [.blank c hc]).of_eq rfl
  | ended ds d => exact passes_between (ds ++ [d]) [] (by simp) (fun s' => rfl) fun hc => passes_blanks ds d hc
  | separated ds seps =>
    refine passes_between ds seps rfl (fun s' => rfl) fun hc => ?_
    refine (Reading.separated ds (seps ++ [.blank c hc])).of_eq ?_
    simp [Separator.text]
  | comment ds seps ht => exact passes_comment ds seps ht
  | key ds seps hkey => exact passes_key ds seps hkey
  | keyEnd ds seps hkey ws => exact passes_keyEnd ds seps hkey ws
  | opening ds h hn => exact passes_opening ds h hn
  | text ds h b hn => exact passes_text ds h b hn
  | name ds h hps hpart hquotes hx => exact passes_name ds h hps hpart hquotes hx
  | closed ds h b hn => exact passes_closed ds h b hn

/-- **A run** is never out of range: it stops in the error state, or has read the whole text. -/
theorem Reading.exec : ∀ {cs pre : Str} {r : Parser}, Reading pre r → ∃ r' p',
    AlpinoCorpus.exec (pre ++ cs) cs pre.length r = .ok (r', p') ∧ (r'.cs = .error ∨ Reading (pre ++ cs) r')
  | [], pre, r, h => ⟨r, pre.length, rfl, .inr (h.of_eq (List.append_nil pre).symm)⟩
  | c :: cs, pre, r, h => by
    obtain ⟨r₁, hr₁, hread⟩ := h.step c
    -- the actions look at what has been read only
    have hperform : perform (pre ++ c :: cs) pre.length c = perform pre pre.length c := funext fun r => funext fun a =>
      perform_append _ (le_refl _) c r a
    rw [AlpinoCorpus.exec, hperform, hr₁]
    simp only [bind, Except.bind]
    split
    · next herr => exact ⟨r₁, pre.length, rfl, .inl herr⟩
    · next hne =>
      have h := @Reading.exec cs _ _ (hread.resolve_left hne)
      rw [List.append_assoc, List.length_append] at h
      exact h

/-- Where a text may end, it is a file. -/
theorem Reading.eof (h : Reading pre r) : ∃ r₁, r.cs.eofActions.foldlM (perform pre pre.length 0) r = .ok r₁ ∧
    (r₁.cs.isFinal = true → ∃ ds, pre = fileText ds) := by
  cases h with
  | start => exact ⟨_, rfl, fun _ => ⟨[], rfl⟩⟩
  | ended ds d => exact ⟨_, rfl, fun _ => ⟨ds ++ [d], rfl⟩⟩
  | separated | comment | key | keyEnd => exact ⟨_, rfl, fun hfinal => by cases hfinal⟩
  | @opening _ _ n =>
    rcases n with _ | _ | _ | n
    all_goals exact ⟨_, rfl, fun hfinal => by cases hfinal⟩
  | @text _ _ _ n =>
    rcases n with _ | _ | n
    all_goals exact ⟨_, rfl, fun hfinal => by cases hfinal⟩
  | @name _ _ _ _ part =>
    have hname : (bodyState true part).eofActions = [] ∧ (bodyState true part).isFinal = false := by
      rw [bodyState, if_pos rfl]
      split
      · exact ⟨rfl, rfl⟩
      · rcases quoteCount part with _ | _ | n <;> exact ⟨rfl, rfl⟩
    refine ⟨_, by rw [hname.1]; rfl, fun hfinal => ?_⟩
    rw [hname.2] at hfinal
    cases hfinal
  | @closed ds h b n hn x =>
    have hclosed : (State.after n).eofActions = [.queryEnd] := by
      rcases n with _ | _ | n <;> rfl
    have hend := foldlM_queryEnd ds h b hn (State.after n) x (c := 0)
    rw [← hclosed] at hend
    exact ⟨_, hend, fun _ => ⟨ds ++ [b.definition h hn], fileText_definition ds h b hn⟩⟩

end

/-! ## The whole text -/

/-- What is read is a file, or there is an error about it. -/
theorem fileText_or_error (data : Str) : (∃ ds, data = fileText ds) ∨ ∃ msg, parseMacros data = raise (.error msg) := by
  obtain ⟨r, p, hexec, hread⟩ := @Reading.exec data _ _ .start
  rw [parseMacros]
  rw [List.nil_append, List.length_nil] at hexec
  rw [hexec]
  simp only [bind, Except.bind]
  split
  · exact .inr ⟨_, rfl⟩
  · next hne =>
    have h := hread.resolve_left hne
    rw [List.nil_append] at h
    have hp : p = data.length := by
      rw [exec_length hexec hne, Nat.zero_add]
    obtain ⟨r₁, hr₁, hfile⟩ := h.eof
    rw [hp, hr₁]
    dsimp only
    split
    · next hfinal => exact .inl (hfile hfinal)
    · exact .inr ⟨_, rfl⟩

theorem parseMacros_ok_iff (data : Str) (m : Macros) : parseMacros data = .ok m ↔ ∃ ds, data = fileText ds ∧ m = macrosOf ds := by
  constructor
  · intro h
    rcases fileText_or_error data with ⟨ds, rfl⟩ | ⟨msg, herr⟩
    · rw [parseMacros_fileText] at h
      injection h with h
      exact ⟨ds, rfl, h.symm⟩
    · rw [herr] at h
      cases h
  · intro h
    obtain ⟨ds, rfl, rfl⟩ := h
    exact parseMacros_fileText ds

/-- A macro file ends where it has a NUL. -/
theorem loadMacros_ok_iff (filename contents : Str) (m : Macros) :
    loadMacros filename (some contents) = .ok m ↔ ∃ ds, contents.takeWhile (· ≠ 0) = fileText ds ∧ m = macrosOf ds :=
  parseMacros_ok_iff _ m

/-- **Macro files parse to their meaning**: a text is read if and only if it
is a file of the grammar, to what its definitions bind from the first to the
last; for every other text there is an error. -/
theorem parseMacros_iff (data : Str) :
    (∀ m, parseMacros data = .ok m ↔ ∃ ds, data = fileText ds ∧ m = macrosOf ds) ∧
    ((∃ ds, data = fileText ds) ∨ ∃ msg, parseMacros data = raise (.error msg)) ∧
    ∀ ds, (macrosOf ds).find = meaning ds :=
  ⟨parseMacros_ok_iff data, fileText_or_error data, fun ds => (meaning_eq ds).symm⟩

/-- A value that ends in a quote, a reference that is known and one that is
not, and a key that is bound again. -/
example : (parseMacros (str "# x\na=\"\"\"x\"\"\"\"b = \"\"\"%a%%c%\"\"\" a=\"\"\"\"\"\"\n")).toOption.map Macros.entries =
    some [(str "a", []), (str "b", str "x\"%c%")] := rfl

end AlpinoCorpus
