/-
The automaton on the body of a definition: its state is what `read` of
templates has come to, and the substitutions it notes are the references.
-/
import AlpinoCorpus.MacroFacts

namespace AlpinoCorpus

open OrdMap Replace

/-- Three quotes. -/
def quotes : Str := [34, 34, 34]

/-- How many quotes a text ends in. -/
def quoteCount (part : Str) : Nat := (part.reverse.takeWhile (· = 34)).length

theorem quoteCount_quote (part : Str) : quoteCount (part ++ [34]) = quoteCount part + 1 := by
  simp [quoteCount]

theorem quoteCount_other {c : UInt8} (hc : c ≠ 34) (part : Str) : quoteCount (part ++ [c]) = 0 := by
  simp [quoteCount, hc]

theorem quotes_suffix_of_le {part : Str} (h : 3 ≤ quoteCount part) : quotes <:+ part := by
  have hall : ∀ c ∈ part.reverse.takeWhile (· = 34), c = 34 := by
    intro c hc
    simpa using List.mem_takeWhile_imp hc
  have hthree : quotes.reverse <+: part.reverse.takeWhile (· = 34) := by
    rw [List.eq_replicate_of_mem hall]
    refine ⟨List.replicate (quoteCount part - 3) 34, ?_⟩
    rw [show quotes.reverse = List.replicate 3 34 from rfl, List.replicate_append_replicate, Nat.add_sub_cancel' h]
    rfl
  exact List.reverse_prefix.mp (hthree.trans (List.takeWhile_prefix _))

/-- A text that has no three quotes in it does not end in three. -/
theorem quoteCount_le {part : Str} (rest : Str) (h : ¬quotes <:+: part ++ rest) : quoteCount part ≤ 2 := by
  by_contra hlt
  exact h ((quotes_suffix_of_le (by omega)).isInfix.trans (List.prefix_append part rest).isInfix)

/-! ## States -/

/-- In a query, after so many quotes. -/
def State.inText : Nat → State
  | 0 => .query
  | 1 => .query1
  | _ => .query2

/-- In a name, after so many quotes. -/
def State.inRef : Nat → State
  | 0 => .subst
  | 1 => .subst1
  | _ => .subst2

/-- After a query, after so many quotes too many. -/
def State.after : Nat → State
  | 0 => .closed
  | 1 => .closed1
  | _ => .closed2

/-- The state after `part` of a text or of a name. -/
def bodyState (inName : Bool) (part : Str) : State :=
  if inName then (if part = [] then .subst0 else .inRef (quoteCount part)) else .inText (quoteCount part)

theorem bodyState_ne_error (inName : Bool) (part : Str) : bodyState inName part ≠ .error := by
  have htext : ∀ n, State.inText n ≠ .error := fun n => by
    rcases n with _ | _ | n <;> simp [State.inText]
  have href : ∀ n, State.inRef n ≠ .error := fun n => by
    rcases n with _ | _ | n <;> simp [State.inRef]
  unfold bodyState
  split
  · split
    · simp
    · exact href _
  · exact htext _

/-- A character that is not the mark goes on with the part. -/
theorem next_bodyState (inName : Bool) {part : Str} {c : UInt8} (hc : c ≠ 37) (hlt : quoteCount (part ++ [c]) ≤ 2) :
    (bodyState inName part).next c =
      (bodyState inName (part ++ [c]), if inName = true ∧ part = [] then [.substBegin] else []) := by
  have hne : part ++ [c] ≠ [] := by simp
  by_cases h34 : c = 34
  · subst h34
    have hcount : quoteCount part = 0 ∨ quoteCount part = 1 := by
      rw [quoteCount_quote] at hlt
      omega
    cases inName with
    | false =>
      simp only [bodyState, Bool.false_eq_true, if_false, quoteCount_quote, false_and]
      rcases hcount with h | h <;> rw [h] <;> rfl
    | true =>
      by_cases hpart : part = []
      · subst hpart
        rfl
      · simp only [bodyState, if_true, if_neg hne, quoteCount_quote, hpart, and_false]
        rcases hcount with h | h <;> rw [h] <;> rfl
  · cases inName with
    | false =>
      simp only [bodyState, Bool.false_eq_true, if_false, quoteCount_other h34, false_and]
      rcases quoteCount part with _ | _ | n <;> simp [State.inText, State.next, State.inQuery, h34, hc]
    | true =>
      by_cases hpart : part = []
      · subst hpart
        simp [bodyState, State.next, h34, hc, State.inRef, quoteCount]
      · simp only [bodyState, if_true, if_neg hne, quoteCount_other h34, hpart, and_false]
        rcases quoteCount part with _ | _ | n <;> simp [State.inRef, State.next, State.inName, h34, hc]

/-- The mark opens a name. -/
theorem next_open (part : Str) : (bodyState false part).next 37 = (bodyState true [], []) := by
  simp only [bodyState, Bool.false_eq_true, if_false]
  rcases quoteCount part with _ | _ | n <;> rfl

/-- The mark closes a name that is not empty. -/
theorem next_close {part : Str} (hpart : part ≠ []) : (bodyState true part).next 37 = (bodyState false [], [.substEnd]) := by
  simp only [bodyState, if_true, if_neg hpart]
  rcases quoteCount part with _ | _ | n <;> rfl

/-- A name has no three quotes in it. -/
theorem next_three {part : Str} (hpart : quoteCount part = 2) : (bodyState true part).next 34 = (.error, []) := by
  have hne : part ≠ [] := by
    intro h
    rw [h] at hpart
    cases hpart
  simp only [bodyState, if_true, if_neg hne, hpart]
  rfl

/-! ## Steps -/

section

variable {data : Str} {p : Nat} {r r' : Parser} {c : UInt8}

theorem exec_step (cs : Str) {s : State} {acts : List Action} (h : r.cs.next c = (s, acts)) (hs : s ≠ .error)
    (hr : acts.foldlM (perform data p c) { r with cs := s } = .ok r') (hcs : r'.cs = s) :
    exec data (c :: cs) p r = exec data cs (p + 1) r' := by
  rw [exec, h]
  simp only [hr, bind, Except.bind]
  rw [if_neg (hcs ▸ hs)]

theorem fails_step (cs : Str) (h : r.cs.next c = (.error, [])) : Fails data (c :: cs) p r := by
  refine ⟨{ r with cs := .error }, p, ?_, rfl⟩
  rw [exec, h]
  rfl

theorem Fails.step {cs : Str} (h : exec data (c :: cs) p r = exec data cs (p + 1) r') (hf : Fails data cs (p + 1) r') :
    Fails data (c :: cs) p r := by
  obtain ⟨r₁, p₁, h₁, hr₁⟩ := hf
  exact ⟨r₁, p₁, h.trans h₁, hr₁⟩

/-- A step inside a part. -/
theorem exec_part {inName : Bool} {part : Str} (cs : Str) (hr : r.cs = bodyState inName part) (hc : c ≠ 37)
    (hlt : quoteCount (part ++ [c]) ≤ 2) :
    exec data (c :: cs) p r = exec data cs (p + 1)
      { r with cs := bodyState inName (part ++ [c])
               substStart := if inName = true ∧ part = [] then p else r.substStart } := by
  have hnext := next_bodyState inName hc hlt
  rw [← hr] at hnext
  refine exec_step cs hnext (bodyState_ne_error _ _) ?_ rfl
  split
  · rfl
  · rfl

theorem exec_open {part : Str} (cs : Str) (hr : r.cs = bodyState false part) :
    exec data (37 :: cs) p r = exec data cs (p + 1) { r with cs := bodyState true [] } := by
  have hnext := next_open part
  rw [← hr] at hnext
  exact exec_step cs hnext (bodyState_ne_error _ _) rfl rfl

theorem exec_close {part : Str} (cs : Str) (hr : r.cs = bodyState true part) (hpart : part ≠ []) :
    exec data (37 :: cs) p r = exec data cs (p + 1)
      { r with cs := bodyState false []
               substitutions := r.substitutions ++
                 [⟨r.substStart - r.strStart - 1, p - r.substStart + 2, slice data r.substStart p⟩] } := by
  have hnext := next_close hpart
  rw [← hr] at hnext
  exact exec_step cs hnext (bodyState_ne_error _ _) rfl rfl

/-- Three quotes in a name are an error. -/
theorem fails_name : ∀ (n : Nat) {p : Nat} {r : Parser} {part : Str}, r.cs = bodyState true part → quoteCount part + n = 2 →
    Fails data (List.replicate (n + 1) 34) p r
  | 0, p, r, part, hr, h => fails_step [] (hr ▸ next_three h)
  | n + 1, p, r, part, hr, h => by
    have hlt : quoteCount (part ++ [34]) ≤ 2 := by
      rw [quoteCount_quote]
      omega
    refine Fails.step (exec_part _ hr (by decide) hlt) (fails_name n rfl ?_)
    rw [quoteCount_quote]
    omega

theorem fails_quotes {part : Str} (hr : r.cs = bodyState true part) (h : quoteCount part ≤ 2) : Fails data quotes p r := by
  have hsplit : quotes = List.replicate (2 - quoteCount part + 1) 34 ++ List.replicate (quoteCount part) 34 := by
    rw [List.replicate_append_replicate, show 2 - quoteCount part + 1 + quoteCount part = 3 by omega]
    rfl
  rw [hsplit]
  exact (fails_name _ hr (by omega)).append _

/-- Three quotes end a text. -/
theorem exec_quotes {n : Nat} (hr : r.cs = .inText n) (hn : n ≤ 2) (cs : Str) :
    exec data (quotes ++ cs) p r = exec data cs (p + 3) { r with cs := .after n } := by
  have hn : n = 0 ∨ n = 1 ∨ n = 2 := by omega
  obtain rfl | rfl | rfl := hn
  · rw [show r = { r with cs := .query } by rw [← show r.cs = .query from hr]]
    rfl
  · rw [show r = { r with cs := .query1 } by rw [← show r.cs = .query1 from hr]]
    rfl
  · rw [show r = { r with cs := .query2 } by rw [← show r.cs = .query2 from hr]]
    rfl

end

/-! ## The body -/

/-- Where the references of a template stand, from an offset on. -/
def spans : Nat → List (Piece UInt8) → List Substitution
  | _, [] => []
  | o, .text t :: ps => spans (o + t.length) ps
  | o, .ref n :: ps => ⟨o, n.length + 2, n⟩ :: spans (o + n.length + 2) ps

/-- Where a part begins, at an offset from the beginning of the query. -/
def partStart (strStart o : Nat) (inName : Bool) : Nat := if inName then strStart + o + 1 else strStart + o

/-- **A template is passed**, and its references are noted. -/
theorem exec_body {data : Str} (rest : Str) : ∀ {cs part : Str} {inName : Bool} {ps : List (Piece UInt8)} {o p : Nat} {r : Parser},
    readLoop 37 inName part cs = some ps → ¬quotes <:+: part ++ cs → r.cs = bodyState inName part →
    p = partStart r.strStart o inName + part.length →
    data.drop (partStart r.strStart o inName) = part ++ cs ++ rest →
    (inName = true → part ≠ [] → r.substStart = partStart r.strStart o inName) →
    ∃ n substStart, n ≤ 2 ∧ exec data (cs ++ rest) p r = exec data rest (p + cs.length)
      { r with cs := .inText n, substStart, substitutions := r.substitutions ++ spans o ps } := by
  intro cs
  induction cs with
  | nil =>
    intro part inName ps o p r hread hquotes hr hp hdata hsubst
    rw [readLoop] at hread
    cases inName with
    | true => cases hread
    | false =>
      obtain rfl := Option.some.inj hread
      refine ⟨quoteCount part, r.substStart, quoteCount_le [] hquotes, ?_⟩
      have hcs : r = { r with cs := .inText (quoteCount part) } := by
        rw [show State.inText (quoteCount part) = r.cs from hr.symm]
      rw [spans, spans, List.append_nil, ← hcs]
      rfl
  | cons c cs ih =>
    intro part inName ps o p r hread hquotes hr hp hdata hsubst
    rw [readLoop] at hread
    have hsuffix : ¬quotes <:+: [] ++ cs := fun h => by
      refine hquotes (h.trans (List.IsSuffix.isInfix ?_))
      exact ⟨part ++ [c], by simp⟩
    -- what comes after the character
    have htail : data.drop (partStart r.strStart o inName + part.length + 1) = cs ++ rest := by
      rw [Nat.add_assoc, ← List.drop_drop, hdata, List.append_assoc]
      simp
    by_cases hc : c = 37
    · rw [if_pos hc] at hread
      subst hc
      cases inName with
      | true =>
        rw [if_pos rfl] at hread
        split at hread
        · cases hread
        · next hempty =>
          have hpart : part ≠ [] := by simpa using hempty
          obtain ⟨qs, hqs, rfl⟩ := Option.map_eq_some_iff.mp hread
          have hstart := hsubst rfl hpart
          simp only [partStart, if_true] at hp hdata htail hstart
          obtain ⟨n, s, hn, hexec⟩ := ih (o := o + part.length + 2) (p := p + 1)
            (r := { r with cs := bodyState false []
                           substitutions := r.substitutions ++
                             [⟨r.substStart - r.strStart - 1, p - r.substStart + 2, slice data r.substStart p⟩] })
            hqs hsuffix rfl (by simp only [partStart, Bool.false_eq_true, if_false, List.length_nil]; omega)
            (by
              simp only [partStart, Bool.false_eq_true, if_false]
              rw [← Nat.add_assoc, ← Nat.add_assoc, show r.strStart + o + part.length + 2 = r.strStart + o + 1 + part.length + 1 by omega]
              exact htail) (by simp)
          refine ⟨n, s, hn, ?_⟩
          have hname : slice data r.substStart p = part := by
            rw [slice, hstart, hdata, hp, Nat.add_sub_cancel_left, List.append_assoc, List.take_left]
          rw [List.cons_append, exec_close _ hr hpart, hexec, List.length_cons]
          simp only [hname, spans, List.append_assoc, List.cons_append, List.nil_append]
          rw [show r.substStart - r.strStart - 1 = o by omega, show p - r.substStart + 2 = part.length + 2 by omega,
            show p + 1 + cs.length = p + (cs.length + 1) by omega]
      | false =>
        rw [if_neg (by simp)] at hread
        obtain ⟨qs, hqs, rfl⟩ := Option.map_eq_some_iff.mp hread
        simp only [partStart, Bool.false_eq_true, if_false] at hp hdata htail
        obtain ⟨n, s, hn, hexec⟩ := ih (o := o + part.length) (p := p + 1) (r := { r with cs := bodyState true [] })
          hqs hsuffix rfl (by simp only [partStart, if_true, List.length_nil]; omega)
          (by
            simp only [partStart, if_true]
            rw [← Nat.add_assoc]
            exact htail) (by simp)
        refine ⟨n, s, hn, ?_⟩
        rw [List.cons_append, exec_open _ hr, hexec, List.length_cons, spans, show p + 1 + cs.length = p + (cs.length + 1) by omega]
    · rw [if_neg hc] at hread
      have happend : part ++ [c] ++ cs = part ++ c :: cs := by simp
      have hquotes' : ¬quotes <:+: part ++ [c] ++ cs := happend ▸ hquotes
      obtain ⟨n, s, hn, hexec⟩ := ih (o := o) (p := p + 1)
        (r := { r with cs := bodyState inName (part ++ [c])
                       substStart := if inName = true ∧ part = [] then p else r.substStart })
        hread hquotes' rfl (by simp only [List.length_append, List.length_singleton]; omega)
        (by rw [happend]; exact hdata)
        (by
          intro hin _
          show (if inName = true ∧ part = [] then p else r.substStart) = _
          split
          · next h =>
            rw [hp, h.2]
            rfl
          · next h => exact hsubst hin fun hpart => h ⟨hin, hpart⟩)
      refine ⟨n, s, hn, ?_⟩
      rw [List.cons_append, exec_part _ hr hc (quoteCount_le cs hquotes'), hexec, List.length_cons,
        show p + 1 + cs.length = p + (cs.length + 1) by omega]

/-- **What is not a template is an error.** -/
theorem fails_body {data : Str} : ∀ {cs part : Str} {inName : Bool} {p : Nat} {r : Parser},
    readLoop 37 inName part cs = none → ¬quotes <:+: part ++ cs → r.cs = bodyState inName part →
    Fails data (cs ++ quotes) p r := by
  intro cs
  induction cs with
  | nil =>
    intro part inName p r hread hquotes hr
    rw [readLoop] at hread
    cases inName with
    | true => exact fails_quotes hr (quoteCount_le [] hquotes)
    | false => cases hread
  | cons c cs ih =>
    intro part inName p r hread hquotes hr
    rw [readLoop] at hread
    have hsuffix : ¬quotes <:+: [] ++ cs := fun h => by
      refine hquotes (h.trans (List.IsSuffix.isInfix ?_))
      exact ⟨part ++ [c], by simp⟩
    by_cases hc : c = 37
    · rw [if_pos hc] at hread
      subst hc
      cases inName with
      | true =>
        rw [if_pos rfl] at hread
        split at hread
        · next hempty =>
          have hpart : part = [] := List.isEmpty_iff.mp hempty
          rw [hpart] at hr
          exact fails_step _ (hr ▸ rfl)
        · next hempty =>
          refine Fails.step (exec_close _ hr (by simpa using hempty)) ?_
          exact ih (Option.map_eq_none_iff.mp hread) hsuffix rfl
      | false =>
        rw [if_neg (by simp)] at hread
        exact Fails.step (exec_open _ hr) (ih (Option.map_eq_none_iff.mp hread) hsuffix rfl)
    · rw [if_neg hc] at hread
      have hquotes' : ¬quotes <:+: part ++ [c] ++ cs := by simpa using hquotes
      exact Fails.step (exec_part _ hr hc (quoteCount_le cs hquotes')) (ih hread hquotes' rfl)

/-! ## Applying the substitutions -/

theorem applySubstitutions_append {macros : Macros} : ∀ (xs ys : List Substitution) (query : Str),
    applySubstitutions macros (xs ++ ys) query = applySubstitutions macros xs query >>= applySubstitutions macros ys
  | [], _, _ => rfl
  | s :: xs, ys, query => by
    rw [List.cons_append, applySubstitutions, applySubstitutions]
    split
    · exact applySubstitutions_append xs ys query
    · next value _ =>
      cases replaceAt query s.begin s.n value with
      | error e => rfl
      | ok query' => exact applySubstitutions_append xs ys query'

/-- **From the last reference to the first**, each gives way to its value. -/
theorem applySubstitutions_spans (macros : Macros) : ∀ (ps : List (Piece UInt8)) (before : Str),
    applySubstitutions macros (spans before.length ps).reverse (before ++ render 37 ps) =
      .ok (before ++ render 37 (ps.map (Piece.resolve macros.find)))
  | [], before => rfl
  | .text t :: ps, before => by
    have ih := applySubstitutions_spans macros ps (before ++ t)
    rw [List.length_append, List.append_assoc, List.append_assoc] at ih
    rw [spans, List.map_cons, render_cons, render_cons]
    exact ih
  | .ref n :: ps, before => by
    have ih := applySubstitutions_spans macros ps (before ++ (37 :: n ++ [37]))
    have hlen : (before ++ (37 :: n ++ [37])).length = before.length + n.length + 2 := by
      simp only [List.length_append, List.length_cons, List.length_nil]
      omega
    rw [hlen, List.append_assoc before, List.append_assoc before] at ih
    rw [spans, List.reverse_cons, applySubstitutions_append, List.map_cons, render_cons, render_cons, Piece.render, ih]
    show applySubstitutions macros [⟨before.length, n.length + 2, n⟩] _ = _
    rw [applySubstitutions, Piece.resolve]
    cases hfind : macros.find n with
    | none => rfl
    | some value =>
      have hdrop : (before ++ (37 :: n ++ [37] ++ render 37 (ps.map (Piece.resolve macros.find)))).drop
          (before.length + (n.length + 2)) = render 37 (ps.map (Piece.resolve macros.find)) := by
        rw [← Nat.add_assoc, ← hlen, ← List.append_assoc before (37 :: n ++ [37]), List.drop_left]
      simp only [replaceAt]
      rw [if_neg (by simp), List.take_left, hdrop]
      simp only [bind, Except.bind, applySubstitutions, Piece.render, List.append_assoc]

end AlpinoCorpus
