/-
Templates: text with references, each a name between two marks, and what
replacing text knows of them.

Replacing every `mark name mark` in a rendered template, left to right and
without overlaps, is the substitution of the name when no two references
that stand around other text have the name between them.
-/
import Mathlib

namespace Replace

variable {α : Type*}

section

variable [DecidableEq α]

/-- Replacing all occurrences of `search`, left to right; `skip` is how much
of one is still to be passed. -/
def replaceLoop (search format : List α) : Nat → List α → List α
  | _, [] => []
  | skip + 1, _ :: cs => replaceLoop search format skip cs
  | 0, c :: cs =>
    if search.isPrefixOf (c :: cs) then format ++ replaceLoop search format (search.length - 1) cs
    else c :: replaceLoop search format 0 cs

/-- The empty text is found nowhere. -/
def replaceAll (search format input : List α) : List α :=
  if search.isEmpty then input else replaceLoop search format 0 input

theorem replaceLoop_skip {search format : List α} : ∀ (xs ys : List α),
    replaceLoop search format xs.length (xs ++ ys) = replaceLoop search format 0 ys
  | [], [] => rfl
  | [], _ :: _ => rfl
  | _ :: xs, ys => replaceLoop_skip xs ys

end

/-! ## Templates -/

inductive Piece (α : Type*)
  | text (t : List α)
  | ref (name : List α)
  deriving DecidableEq, Repr

def Piece.render (mark : α) : Piece α → List α
  | text t => t
  | ref name => mark :: name ++ [mark]

def render (mark : α) (ps : List (Piece α)) : List α := ps.flatMap (Piece.render mark)

theorem render_cons (mark : α) (p : Piece α) (ps : List (Piece α)) :
    render mark (p :: ps) = p.render mark ++ render mark ps :=
  List.flatMap_cons

theorem render_snoc (mark : α) (ps : List (Piece α)) (p : Piece α) : render mark (ps ++ [p]) = render mark ps ++ p.render mark := by
  rw [render, List.flatMap_append, List.flatMap_singleton]
  rfl

/-- Nothing in a piece is taken for a mark. -/
def Piece.Plain (mark : α) : Piece α → Prop
  | text t => mark ∉ t
  | ref name => mark ∉ name

/-- References to `name` give way to `value`. -/
def Piece.assign [DecidableEq α] (name value : List α) : Piece α → Piece α
  | text t => .text t
  | ref n => if n = name then .text value else .ref n

def assign [DecidableEq α] (name value : List α) (ps : List (Piece α)) : List (Piece α) := ps.map (Piece.assign name value)

/-- The text before the first reference, if there is one. -/
def lead : List (Piece α) → Option (List α)
  | [] => none
  | .text t :: ps => (t ++ ·) <$> lead ps
  | .ref _ :: _ => some []

/-- Only a reference to `name` has `name` between it and the next one. -/
def Clear (name : List α) : List (Piece α) → Prop
  | [] => True
  | .text _ :: ps => Clear name ps
  | .ref n :: ps => (n = name ∨ lead ps ≠ some name) ∧ Clear name ps

instance instDecidableClear [DecidableEq α] (name : List α) : ∀ ps, Decidable (Clear name ps)
  | [] => .isTrue trivial
  | .text _ :: ps => instDecidableClear name ps
  | .ref n :: ps =>
    have := instDecidableClear name ps
    inferInstanceAs (Decidable ((n = name ∨ lead ps ≠ some name) ∧ Clear name ps))

variable {mark : α} {name : List α}

/-- A name and a mark begin a rendered template as its first text and its
first reference. -/
theorem lead_unique (hname : mark ∉ name) : ∀ {ps : List (Piece α)}, (∀ p ∈ ps, p.Plain mark) →
    name ++ [mark] <+: render mark ps → lead ps = some name := by
  intro ps
  induction ps generalizing name with
  | nil => intro _ h; simp [render] at h
  | cons p ps ih =>
    intro hplain h
    obtain ⟨hp, hps⟩ := List.forall_mem_cons.mp hplain
    rw [render_cons] at h
    cases p with
    | ref n =>
      cases name with
      | nil => rfl
      | cons c cs =>
        obtain ⟨hc, -⟩ := List.cons_prefix_cons.mp h
        exact absurd (by simp [hc]) hname
    | text t =>
      -- the text is read through; the mark comes after it
      have hle : t <+: name := by
        have ht : t <+: Piece.render mark (.text t) ++ render mark ps := List.prefix_append _ _
        rcases List.prefix_or_prefix_of_prefix ht h with hpre | hpre
        · rcases List.prefix_concat_iff.mp hpre with heq | hpre
          · exact absurd (by rw [heq]; simp) hp
          · exact hpre
        · exact absurd (hpre.subset (by simp)) hp
      obtain ⟨rest, rfl⟩ := hle
      have hrest : rest ++ [mark] <+: render mark ps := by
        rw [List.append_assoc] at h
        exact (List.prefix_append_right_inj t).mp h
      rw [lead, ih (fun h => hname (by simp [h])) hps hrest]
      rfl

variable [DecidableEq α]

/-- Before a reference, the search finds its name only. -/
theorem isPrefixOf_mark {n : List α} (hname : mark ∉ name) (hn : mark ∉ n) (rest : List α) :
    (mark :: name ++ [mark]).isPrefixOf (mark :: n ++ mark :: rest) = decide (n = name) := by
  rw [Bool.eq_iff_iff, List.isPrefixOf_iff_prefix, decide_eq_true_eq]
  constructor
  · intro h
    rw [List.cons_append, List.cons_append, List.cons_prefix_cons] at h
    have hmark : n ++ [mark] <+: n ++ mark :: rest := by simp
    rcases List.prefix_or_prefix_of_prefix h.2 hmark with h' | h'
    · rcases List.prefix_concat_iff.mp h' with heq | h'
      · exact (List.append_cancel_right heq).symm
      · exact absurd (h'.subset (by simp)) hn
    · rcases List.prefix_concat_iff.mp h' with heq | h'
      · exact List.append_cancel_right heq
      · exact absurd (h'.subset (by simp)) hname
  · rintro rfl
    simp

/-- Text without marks is copied. -/
theorem replaceLoop_text {search : List α} (value : List α) (rest : List α) : ∀ {t : List α}, mark ∉ t →
    replaceLoop (mark :: search) value 0 (t ++ rest) = t ++ replaceLoop (mark :: search) value 0 rest
  | [], _ => rfl
  | c :: cs, h => by
    have hc : mark ≠ c := fun hc => h (by simp [hc])
    rw [List.cons_append, replaceLoop, if_neg (by simp [List.isPrefixOf, hc]),
      replaceLoop_text value rest (fun h' => h (by simp [h']))]
    rfl

/-- **Replacing is substitution**, where the template is clear. -/
theorem replaceAll_render (value : List α) (hname : mark ∉ name) : ∀ {ps : List (Piece α)}, (∀ p ∈ ps, p.Plain mark) →
    Clear name ps → replaceAll (mark :: name ++ [mark]) value (render mark ps) = render mark (assign name value ps) := by
  intro ps
  rw [replaceAll, if_neg (by simp), List.cons_append]
  induction ps with
  | nil => intro _ _; rfl
  | cons p ps ih =>
    intro hplain hclear
    obtain ⟨hp, hps⟩ := List.forall_mem_cons.mp hplain
    rw [render_cons, assign, List.map_cons, render_cons]
    cases p with
    | text t =>
      rw [Piece.render, replaceLoop_text value _ hp, ih hps hclear]
      rfl
    | ref n =>
      obtain ⟨hn, hclear⟩ := hclear
      have hrest := ih hps hclear
      have hopen := isPrefixOf_mark hname hp (render mark ps)
      simp only [Piece.render, List.append_assoc, List.cons_append, List.nil_append] at hopen ⊢
      rw [replaceLoop, hopen]
      by_cases heq : n = name
      · subst heq
        have hskip : n ++ mark :: render mark ps = (n ++ [mark]) ++ render mark ps := by simp
        have hlen : (mark :: (n ++ [mark])).length - 1 = (n ++ [mark]).length := by simp
        rw [if_pos (by simp), hlen, hskip, replaceLoop_skip, hrest]
        simp [Piece.assign, assign]
      · -- the second mark does not open the name: no reference follows it
        have hlead : ¬name ++ [mark] <+: render mark ps := fun h =>
          (hn.resolve_left heq) (lead_unique hname hps h)
        have hclose : replaceLoop (mark :: (name ++ [mark])) value 0 (mark :: render mark ps) =
            mark :: render mark (assign name value ps) := by
          rw [replaceLoop, if_neg, hrest]
          rw [List.isPrefixOf_iff_prefix, List.cons_prefix_cons]
          exact fun h => hlead h.2
        rw [if_neg (by simpa using heq), replaceLoop_text value _ hp, hclose]
        simp [Piece.assign, heq, assign]

/-! ## Reading templates -/

/-- The rest of a template, after `part` of a text or of a name. -/
def readLoop (mark : α) (inName : Bool) (part : List α) : List α → Option (List (Piece α))
  | [] => if inName then none else some [.text part]
  | c :: cs =>
    if c = mark then
      if inName then
        if part.isEmpty then none else (.ref part :: ·) <$> readLoop mark false [] cs
      else (.text part :: ·) <$> readLoop mark true [] cs
    else readLoop mark inName (part ++ [c]) cs

/-- Marks come in pairs, from the left, with a name between them. -/
def read (mark : α) (s : List α) : Option (List (Piece α)) := readLoop mark false [] s

/-- A piece as the reader gives it. -/
def Piece.Proper (mark : α) (p : Piece α) : Prop := p.Plain mark ∧ p ≠ .ref []

/-- What has been read, in front of the rest. -/
def unread (mark : α) (inName : Bool) (part s : List α) : List α := (if inName then mark :: part else part) ++ s

omit [DecidableEq α] in
theorem unread_snoc (mark : α) (inName : Bool) (part : List α) (c : α) (cs : List α) :
    unread mark inName (part ++ [c]) cs = unread mark inName part (c :: cs) := by
  cases inName <;> simp [unread]

theorem readLoop_some : ∀ {s part : List α} {inName : Bool} {ps : List (Piece α)}, mark ∉ part →
    readLoop mark inName part s = some ps →
    render mark ps = unread mark inName part s ∧ ∀ p ∈ ps, p.Proper mark
  | [], part, inName, ps, hpart, h => by
    rw [readLoop] at h
    split at h
    · cases h
    · next hin =>
      obtain rfl := Option.some.inj h
      refine ⟨by simp [render, Piece.render, unread, hin], ?_⟩
      simp [Piece.Proper, Piece.Plain, hpart]
  | c :: cs, part, inName, ps, hpart, h => by
    rw [readLoop] at h
    by_cases hc : c = mark
    · rw [if_pos hc] at h
      cases inName with
      | true =>
        rw [if_pos rfl] at h
        split at h
        · cases h
        · next hempty =>
          obtain ⟨qs, hqs, rfl⟩ := Option.map_eq_some_iff.mp h
          obtain ⟨hr, hp⟩ := readLoop_some List.not_mem_nil hqs
          refine ⟨by rw [render_cons, hr]; simp [Piece.render, unread, hc], List.forall_mem_cons.mpr ⟨⟨hpart, ?_⟩, hp⟩⟩
          rw [ne_eq, Piece.ref.injEq]
          simpa using hempty
      | false =>
        rw [if_neg (by simp)] at h
        obtain ⟨qs, hqs, rfl⟩ := Option.map_eq_some_iff.mp h
        obtain ⟨hr, hp⟩ := readLoop_some List.not_mem_nil hqs
        refine ⟨by rw [render_cons, hr]; simp [Piece.render, unread, hc], List.forall_mem_cons.mpr ⟨⟨hpart, ?_⟩, hp⟩⟩
        simp
    · rw [if_neg hc] at h
      rw [← unread_snoc]
      exact readLoop_some (by simp [hpart, Ne.symm hc]) h

theorem read_some {s : List α} {ps : List (Piece α)} (h : read mark s = some ps) :
    render mark ps = s ∧ ∀ p ∈ ps, p.Proper mark := by
  simpa [unread] using readLoop_some List.not_mem_nil h

/-! ## One name after the other -/

/-- Every name is replaced, in the order of the list. -/
def replaceEach (mark : α) (values : List (List α × List α)) (input : List α) : List α :=
  values.foldl (fun input e => replaceAll (mark :: e.1 ++ [mark]) e.2 input) input

/-- A reference as its value, where it has one. -/
def Piece.resolve (find : List α → Option (List α)) : Piece α → Piece α
  | text t => .text t
  | ref n =>
    match find n with
    | some value => .text value
    | none => .ref n

theorem readLoop_text {s : List α} : ∀ {t part : List α} {inName : Bool}, mark ∉ t →
    readLoop mark inName part (t ++ s) = readLoop mark inName (part ++ t) s
  | [], part, _, _ => by rw [List.append_nil, List.nil_append]
  | c :: t, part, inName, h => by
    have hc : c ≠ mark := fun hc => h (by simp [hc])
    rw [List.cons_append, readLoop, if_neg hc, readLoop_text fun h' => h (by simp [h']), List.append_assoc]
    rfl

/-- What is rendered can be read, though texts that stand together are read
as one. -/
theorem readLoop_render : ∀ {ps : List (Piece α)} {part : List α}, (∀ p ∈ ps, p.Proper mark) →
    ∃ qs, readLoop mark false part (render mark ps) = some qs ∧
      ∀ find, render mark (qs.map (Piece.resolve find)) = part ++ render mark (ps.map (Piece.resolve find))
  | [], part, _ => ⟨[.text part], rfl, fun find => by simp [render, Piece.resolve, Piece.render]⟩
  | .text t :: ps, part, h => by
    obtain ⟨hp, hps⟩ := List.forall_mem_cons.mp h
    obtain ⟨qs, hqs, hresolve⟩ := @readLoop_render _ (part ++ t) hps
    refine ⟨qs, ?_, fun find => ?_⟩
    · rw [render_cons, Piece.render, readLoop_text hp.1, hqs]
    · rw [hresolve, List.append_assoc]
      rfl
  | .ref n :: ps, part, h => by
    obtain ⟨hp, hps⟩ := List.forall_mem_cons.mp h
    obtain ⟨qs, hqs, hresolve⟩ := @readLoop_render _ [] hps
    have hn : n ≠ [] := fun h => hp.2 (by rw [h])
    refine ⟨.text part :: .ref n :: qs, ?_, fun find => ?_⟩
    · rw [render_cons, Piece.render, List.append_assoc, List.cons_append, readLoop, if_pos rfl, if_neg (by simp),
        readLoop_text hp.1, List.nil_append, List.singleton_append, readLoop, if_pos rfl, if_pos rfl, if_neg (by simpa using hn), hqs]
      rfl
    · rw [List.map_cons, List.map_cons, List.map_cons, render_cons, render_cons, hresolve, List.nil_append, render_cons]
      rfl

theorem read_render {ps : List (Piece α)} (h : ∀ p ∈ ps, p.Proper mark) : ∃ qs, read mark (render mark ps) = some qs ∧
    ∀ find, render mark (qs.map (Piece.resolve find)) = render mark (ps.map (Piece.resolve find)) :=
  readLoop_render h

/-- References to `name` give way to the template that `value` is. -/
def Piece.splice (mark : α) (name value : List α) : Piece α → List (Piece α)
  | text t => [.text t]
  | ref n => if n = name then (read mark value).getD [.text value] else [.ref n]

def splice (mark : α) (name value : List α) (ps : List (Piece α)) : List (Piece α) := ps.flatMap (Piece.splice mark name value)

/-- A value is a template that refers to none of the names. -/
def Settled (mark : α) (values : List (List α × List α)) (value : List α) : Prop :=
  ∃ qs ∈ read mark value, ∀ e ∈ values, .ref e.1 ∉ qs

instance (mark : α) (values : List (List α × List α)) (value : List α) : Decidable (Settled mark values value) :=
  decidable_of_iff ((read mark value).any fun qs => decide (∀ e ∈ values, .ref e.1 ∉ qs)) (by
    rw [Settled, Option.any_eq_true]
    exact exists_congr fun qs => and_congr_right fun _ => decide_eq_true_iff)

/-- When a name comes to be replaced, the template is clear, and the value
brings in no name that is still to come. -/
def Untangled (mark : α) : List (List α × List α) → List (Piece α) → Prop
  | [], _ => True
  | (name, value) :: values, ps =>
    Clear name ps ∧ (.ref name ∈ ps → Settled mark values value) ∧ Untangled mark values (splice mark name value ps)

instance instDecidableUntangled (mark : α) : ∀ values ps, Decidable (Untangled mark values ps)
  | [], _ => .isTrue trivial
  | (name, value) :: values, ps =>
    have := instDecidableUntangled mark values (splice mark name value ps)
    inferInstanceAs (Decidable (Clear name ps ∧ (.ref name ∈ ps → Settled mark values value) ∧
      Untangled mark values (splice mark name value ps)))

theorem render_splice (name value : List α) : ∀ ps : List (Piece α),
    render mark (splice mark name value ps) = render mark (assign name value ps)
  | [] => rfl
  | p :: ps => by
    have hp : render mark (p.splice mark name value) = (p.assign name value).render mark := by
      cases p with
      | text t => simp [Piece.splice, Piece.assign, render]
      | ref n =>
        rw [Piece.splice, Piece.assign]
        split
        · cases hread : read mark value with
          | none => simp [render]
          | some qs => exact (read_some hread).1
        · simp [render]
    have ih := render_splice name value ps
    rw [splice, List.flatMap_cons, render, List.flatMap_append, assign, List.map_cons, render_cons]
    exact congrArg₂ _ hp ih

theorem plain_splice {name value : List α} {values : List (List α × List α)} {ps : List (Piece α)}
    (hvalue : .ref name ∈ ps → Settled mark values value) (hps : ∀ p ∈ ps, p.Plain mark) :
    ∀ p ∈ splice mark name value ps, p.Plain mark := by
  intro p hp
  obtain ⟨q, hq, hp⟩ := List.mem_flatMap.mp hp
  cases q with
  | text t =>
    rw [Piece.splice, List.mem_singleton] at hp
    rw [hp]
    exact hps _ hq
  | ref n =>
    rw [Piece.splice] at hp
    split at hp
    · next heq =>
      obtain ⟨qs, hread, -⟩ := hvalue (heq ▸ hq)
      rw [Option.mem_def.mp hread] at hp
      exact ((read_some hread).2 p hp).1
    · rw [List.mem_singleton] at hp
      rw [hp]
      exact hps _ hq

/-- A value that refers to none of the names stays as it is. -/
theorem Settled.resolve {values : List (List α × List α)} {value : List α} (h : Settled mark values value) :
    render mark (((read mark value).getD [.text value]).map (Piece.resolve fun n => values.lookup n)) = value := by
  obtain ⟨qs, hread, hqs⟩ := h
  have hid : ∀ q ∈ qs, Piece.resolve (fun n => values.lookup n) q = q := by
    intro q hq
    cases q with
    | text t => rfl
    | ref n =>
      have hnone : values.lookup n = none := by
        refine List.lookup_eq_none_iff.mpr fun e he => ?_
        refine bne_iff_ne.mpr fun heq => ?_
        exact hqs e he (heq ▸ hq)
      rw [Piece.resolve, hnone]
  rw [Option.mem_def.mp hread, Option.getD_some, List.map_congr_left hid, List.map_id']
  exact (read_some hread).1

theorem resolve_splice {name value : List α} {values : List (List α × List α)} : ∀ {ps : List (Piece α)},
    (.ref name ∈ ps → Settled mark values value) →
    render mark ((splice mark name value ps).map (Piece.resolve fun n => values.lookup n)) =
      render mark (ps.map (Piece.resolve fun n => ((name, value) :: values).lookup n))
  | [], _ => rfl
  | p :: ps, hvalue => by
    have hp : render mark ((p.splice mark name value).map (Piece.resolve fun n => values.lookup n)) =
        (p.resolve fun n => ((name, value) :: values).lookup n).render mark := by
      cases p with
      | text t => simp [Piece.splice, Piece.resolve, render]
      | ref n =>
        rw [Piece.splice]
        by_cases heq : n = name
        · subst heq
          rw [if_pos rfl, (hvalue (by simp)).resolve]
          simp [Piece.resolve, Piece.render]
        · have hb : (n == name) = false := by simpa using heq
          rw [if_neg heq]
          simp [Piece.resolve, render, List.lookup, hb]
    have ih := resolve_splice fun h : .ref name ∈ ps => hvalue (List.mem_cons_of_mem _ h)
    rw [splice, List.flatMap_cons, List.map_append, render, List.flatMap_append, List.map_cons, render_cons]
    exact congrArg₂ _ hp ih

/-- **Replacing name after name** gives every reference its value, as long as
the references are those of the template. -/
theorem replaceEach_render : ∀ {values : List (List α × List α)} {ps : List (Piece α)}, (∀ e ∈ values, mark ∉ e.1) →
    (∀ p ∈ ps, p.Plain mark) → Untangled mark values ps →
    replaceEach mark values (render mark ps) = render mark (ps.map (Piece.resolve fun n => values.lookup n))
  | [], ps, _, _, _ => by
    have hid : ∀ p ∈ ps, Piece.resolve (fun n => ([] : List (List α × List α)).lookup n) p = p := by
      intro p _
      cases p <;> rfl
    rw [List.map_congr_left hid, List.map_id']
    rfl
  | (name, value) :: values, ps, hnames, hplain, huntangled => by
    obtain ⟨hname, hnames⟩ := List.forall_mem_cons.mp hnames
    obtain ⟨hclear, hvalue, huntangled⟩ := huntangled
    have hstep := replaceAll_render value hname hplain hclear
    rw [← render_splice] at hstep
    rw [← resolve_splice hvalue, ← replaceEach_render hnames (plain_splice hvalue hplain) huntangled, ← hstep]
    rfl

end Replace
