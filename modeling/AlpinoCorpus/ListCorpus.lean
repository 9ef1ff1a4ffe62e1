/-
`listCorpus` of the XPath utility: the line of an entry, with brackets around
the matches or in colours for them. The brackets that it prints are balanced;
the colours are right under a condition on neighbouring words only.
-/
import AlpinoCorpus.Sentence
import AlpinoCorpus.Lib.Nesting

namespace AlpinoCorpus

open Nesting

/-- `std::set_difference`. -/
def uniqueToFirst (a b : Finset ℕ) : Finset ℕ := a \ b

/-- The colour of what is no match. -/
def defaultColour : Str := 27 :: str "[0;22m"

def outputDepthColor : ℕ → Str
  | 0 => defaultColour
  | 1 => 27 :: str "[38;5;99m"
  | 2 => 27 :: str "[38;5;111m"
  | 3 => 27 :: str "[38;5;123m"
  | 4 => 27 :: str "[38;5;121m"
  | _ => 27 :: str "[38;5;119m"

/-- What goes to the terminal: what `listCorpus` is given to print, the marks
that it adds, and the sequences that change the colour. -/
inductive Printed
  | name (s : Str)
  | word (s : Str)
  | mark (s : Str)
  | colour (s : Str)

/-- A number in decimals. -/
def decimal (i : ℕ) : Str := if i = 0 then [48] else (Nat.digits 10 i).reverse.map fun d => UInt8.ofNat (48 + d)

/-- What is printed around a word, and the word. -/
def printWord (colorBrackets : Bool) (prevMatches : Finset ℕ) (item : LexItem) (next : Option LexItem) : List Printed :=
  let startAtCurrent := uniqueToFirst item.matched prevMatches
  let endAtCurrent :=
    match next with
    | some next => uniqueToFirst item.matched next.matched
    | none => item.matched
  let starts : List Printed :=
    if colorBrackets then
      if startAtCurrent.card ≠ 0 then [.colour (outputDepthColor item.matched.card)] else []
    else (startAtCurrent.sort (· ≤ ·)).map fun i => .mark (decimal i ++ str ":[ ")
  let ends : List Printed :=
    if colorBrackets then
      if next.isSome ∧ endAtCurrent.card ≠ 0 then [.colour defaultColour] else []
    else (endAtCurrent.sort (· ≤ ·)).map fun _ => .mark (str " ]")
  starts ++ [.word item.word] ++ ends ++ [.mark (str " ")]

/-- The loop over the items: what is printed for each. -/
def wordLoop (colorBrackets : Bool) : Finset ℕ → List LexItem → List (List Printed)
  | _, [] => []
  | prevMatches, item :: items =>
    printWord colorBrackets prevMatches item items.head? :: wordLoop colorBrackets item.matched items

/-- What stands in front of the words. -/
def heading (name : Str) : List Printed := [.name name, .mark (str " ")]

/-- The line of an entry. -/
def listLine (colorBrackets : Bool) (name : Str) (items : List LexItem) : List Printed :=
  heading name ++ (wordLoop colorBrackets ∅ items).flatten ++ [.mark (str "\n")]

/-! ## Brackets -/

/-- Whether a byte is of what `listCorpus` adds. -/
abbrev Shown := UInt8 × Bool

def Printed.text : Printed → List Shown
  | name s => s.map fun c => (c, false)
  | word s => s.map fun c => (c, false)
  | mark s => s.map fun c => (c, true)
  | colour s => s.map fun c => (c, true)

def text (ps : List Printed) : List Shown := ps.flatMap Printed.text

/-- The bracket `c`, where it counts. -/
def isBracket (c : UInt8) (counts : Bool → Bool) (b : Shown) : Bool := b.1 = c && counts b.2

/-- The brackets of a line are balanced: none is closed that has not been
opened, between two words those are open that are around both, and at the end
none is. -/
structure Balanced (counts : Bool → Bool) (name : Str) (items : List LexItem) : Prop where
  above : ∀ pre, pre <+: text (listLine false name items) →
    pre.countP (isBracket 93 counts) ≤ pre.countP (isBracket 91 counts)
  between : ∀ k a b, items[k]? = some a → items[k + 1]? = some b →
    (text (heading name ++ ((wordLoop false ∅ items).take (k + 1)).flatten)).countP (isBracket 91 counts) =
      (text (heading name ++ ((wordLoop false ∅ items).take (k + 1)).flatten)).countP (isBracket 93 counts) +
        (a.matched ∩ b.matched).card
  closed : (text (heading name ++ (wordLoop false ∅ items).flatten)).countP (isBracket 91 counts) =
    (text (heading name ++ (wordLoop false ∅ items).flatten)).countP (isBracket 93 counts)

section Brackets

variable {counts : Bool → Bool}

theorem text_append (ps qs : List Printed) : text (ps ++ qs) = text ps ++ text qs := List.flatMap_append

theorem text_map_mark {γ : Type} (f : γ → Str) (xs : List γ) :
    text (xs.map fun x => .mark (f x)) = xs.flatMap fun x => (Printed.mark (f x)).text := by
  rw [text, List.flatMap_map]

/-- No digit is a bracket. -/
theorem decimal_bracket {i : ℕ} {c : UInt8} (h : c ∈ decimal i) : c ≠ 91 ∧ c ≠ 93 := by
  rw [decimal] at h
  split at h
  · rw [List.mem_singleton.mp h]
    decide
  · obtain ⟨d, hd, rfl⟩ := List.mem_map.mp h
    have hlt : d < 10 := Nat.digits_lt_base (by norm_num) (List.mem_reverse.mp hd)
    have hall : ∀ d < 10, UInt8.ofNat (48 + d) ≠ 91 ∧ UInt8.ofNat (48 + d) ≠ 93 := by decide
    exact hall d hlt

/-- A text without brackets that count stays at its depth. -/
theorem stays_plain {s : Str} {own : Bool} (h : counts own = true → ∀ c ∈ s, c ≠ 91 ∧ c ≠ 93) (d : ℕ) :
    Stays (isBracket 91 counts) (isBracket 93 counts) d (s.map fun c => (c, own)) d := by
  refine .of_neither (fun b hb => ?_) d
  obtain ⟨c, hc, rfl⟩ := List.mem_map.mp hb
  cases hcounts : counts own with
  | false => simp [isBracket, hcounts]
  | true => simp [isBracket, (h hcounts c hc).1, (h hcounts c hc).2]

/-- What opens a match, and what closes one. -/
theorem stays_start (hcounts : counts true = true) (i d : ℕ) :
    Stays (isBracket 91 counts) (isBracket 93 counts) d (Printed.mark (decimal i ++ str ":[ ")).text (d + 1) := by
  have htext : (Printed.mark (decimal i ++ str ":[ ")).text =
      (decimal i ++ [58]).map (fun c => (c, true)) ++ ([(91, true)] ++ [32].map fun c => (c, true)) := by
    simp [Printed.text, show str ":[ " = [58, 91, 32] by decide]
  rw [htext]
  refine (stays_plain (fun _ c hc => ?_) d).append ((Stays.opening ?_ ?_ d).append (stays_plain (fun _ c hc => ?_) _))
  · rcases List.mem_append.mp hc with hc | hc
    · exact decimal_bracket hc
    · rw [List.mem_singleton.mp hc]
      decide
  · simp [isBracket, hcounts]
  · simp [isBracket]
  · rw [List.mem_singleton.mp hc]
    decide

theorem stays_end (hcounts : counts true = true) (d : ℕ) :
    Stays (isBracket 91 counts) (isBracket 93 counts) (d + 1) (Printed.mark (str " ]")).text d := by
  have htext : (Printed.mark (str " ]")).text = [32].map (fun c => (c, true)) ++ [(93, true)] := by
    simp [Printed.text, show str " ]" = [32, 93] by decide]
  rw [htext]
  refine (stays_plain (fun _ c hc => ?_) _).append (Stays.closing ?_ ?_ d)
  · rw [List.mem_singleton.mp hc]
    decide
  · simp [isBracket]
  · simp [isBracket, hcounts]

theorem stays_blank (s : Str) (hs : ∀ c ∈ s, c ≠ 91 ∧ c ≠ 93) (d : ℕ) :
    Stays (isBracket 91 counts) (isBracket 93 counts) d (text [.mark s]) d := by
  rw [text, List.flatMap_singleton]
  exact stays_plain (fun _ => hs) d

/-- The matches that a word shares with the one after it, if there is one. -/
def common (matched : Finset ℕ) : Option LexItem → ℕ
  | some next => (matched ∩ next.matched).card
  | none => 0

/-- A word is printed at the depth of its matches. -/
theorem stays_printWord (hcounts : counts true = true) (prev : Finset ℕ) (item : LexItem) (next : Option LexItem)
    (hword : counts false = true → ∀ c ∈ item.word, c ≠ 91 ∧ c ≠ 93) :
    Stays (isBracket 91 counts) (isBracket 93 counts) (common prev (some item)) (text (printWord false prev item next))
      (common item.matched next) := by
  have hstart : common prev (some item) + ((uniqueToFirst item.matched prev).sort (· ≤ ·)).length = item.matched.card := by
    rw [Finset.length_sort, common, uniqueToFirst, Finset.inter_comm, Finset.card_inter_add_card_sdiff]
  have hopen := Stays.opening_flatMap (stays_start hcounts) ((uniqueToFirst item.matched prev).sort (· ≤ ·))
    (common prev (some item))
  rw [hstart, ← text_map_mark] at hopen
  have hshown : Stays (isBracket 91 counts) (isBracket 93 counts) item.matched.card (text [.word item.word])
      item.matched.card := by
    rw [text, List.flatMap_singleton]
    exact stays_plain hword _
  have hclose : ∀ ended : Finset ℕ, common item.matched next + ended.card = item.matched.card →
      Stays (isBracket 91 counts) (isBracket 93 counts) item.matched.card
        (text ((ended.sort (· ≤ ·)).map fun _ => .mark (str " ]"))) (common item.matched next) := by
    intro ended hended
    rw [text_map_mark, ← hended, ← Finset.length_sort (· ≤ ·)]
    exact .closing_flatMap (fun _ => stays_end hcounts) _ _
  have hblank := @stays_blank counts (str " ") (by decide +kernel) (common item.matched next)
  simp only [printWord, Bool.false_eq_true, if_false, text_append]
  refine ((hopen.append hshown).append (hclose _ ?_)).append hblank
  cases next with
  | none => simp [common]
  | some next => exact Finset.card_inter_add_card_sdiff _ _

/-- The words that are left are printed from the depth of the matches that go
on, and at their end no match does. -/
theorem stays_wordLoop (hcounts : counts true = true) {items : List LexItem} (prev : Finset ℕ)
    (hwords : counts false = true → ∀ item ∈ items, ∀ c ∈ item.word, c ≠ 91 ∧ c ≠ 93) :
    Stays (isBracket 91 counts) (isBracket 93 counts) (common prev items.head?)
      (text (wordLoop false prev items).flatten) 0 := by
  induction items generalizing prev with
  | nil => exact .nil 0
  | cons item items ih =>
    rw [wordLoop, List.flatten_cons, text_append]
    exact (stays_printWord hcounts prev item items.head? fun h => hwords h item (by simp)).append
      (ih item.matched fun h i hi => hwords h i (by simp [hi]))

/-- Up to a word that another follows. -/
theorem stays_take (hcounts : counts true = true) {items : List LexItem} {k : ℕ} {a b : LexItem} (prev : Finset ℕ)
    (hwords : counts false = true → ∀ item ∈ items, ∀ c ∈ item.word, c ≠ 91 ∧ c ≠ 93) (ha : items[k]? = some a)
    (hb : items[k + 1]? = some b) :
    Stays (isBracket 91 counts) (isBracket 93 counts) (common prev items.head?)
      (text ((wordLoop false prev items).take (k + 1)).flatten) (a.matched ∩ b.matched).card := by
  induction k generalizing items prev with
  | zero =>
    cases items with
    | nil => cases ha
    | cons item items =>
      obtain rfl : item = a := by simpa using ha
      have hnext : items.head? = some b := by rw [List.head?_eq_getElem?]; simpa using hb
      have hstays := stays_printWord hcounts prev item items.head? fun h => hwords h item (by simp)
      rw [wordLoop, List.take_succ_cons, List.take_zero, List.flatten_singleton]
      rwa [hnext] at hstays ⊢
  | succ k ih =>
    cases items with
    | nil => cases ha
    | cons item items =>
      rw [wordLoop, List.take_succ_cons, List.flatten_cons, text_append]
      exact (stays_printWord hcounts prev item items.head? fun h => hwords h item (by simp)).append
        (ih item.matched (fun h i hi => hwords h i (by simp [hi])) ha hb)

theorem stays_heading {name : Str} (hname : counts false = true → ∀ c ∈ name, c ≠ 91 ∧ c ≠ 93) :
    Stays (isBracket 91 counts) (isBracket 93 counts) 0 (text (heading name)) 0 := by
  have happend : heading name = [.name name] ++ [.mark (str " ")] := rfl
  rw [happend, text_append, text, List.flatMap_singleton]
  exact (stays_plain hname 0).append (stays_blank _ (by decide +kernel) 0)

theorem common_first (items : List LexItem) : common ∅ items.head? = 0 := by
  cases items with
  | nil => rfl
  | cons item items => simp [common]

/-- The words of a line, up to its end. -/
theorem stays_words (hcounts : counts true = true) {name : Str} {items : List LexItem}
    (hname : counts false = true → ∀ c ∈ name, c ≠ 91 ∧ c ≠ 93)
    (hwords : counts false = true → ∀ item ∈ items, ∀ c ∈ item.word, c ≠ 91 ∧ c ≠ 93) :
    Stays (isBracket 91 counts) (isBracket 93 counts) 0 (text (heading name ++ (wordLoop false ∅ items).flatten)) 0 := by
  have hloop := stays_wordLoop hcounts ∅ hwords
  rw [common_first] at hloop
  rw [text_append]
  exact (stays_heading hname).append hloop

theorem stays_listLine (hcounts : counts true = true) {name : Str} {items : List LexItem}
    (hname : counts false = true → ∀ c ∈ name, c ≠ 91 ∧ c ≠ 93)
    (hwords : counts false = true → ∀ item ∈ items, ∀ c ∈ item.word, c ≠ 91 ∧ c ≠ 93) :
    Stays (isBracket 91 counts) (isBracket 93 counts) 0 (text (listLine false name items)) 0 := by
  rw [listLine, text_append]
  exact (stays_words hcounts hname hwords).append (stays_blank _ (by decide +kernel) 0)

theorem balanced_of_plain (hcounts : counts true = true) {name : Str} {items : List LexItem}
    (hname : counts false = true → ∀ c ∈ name, c ≠ 91 ∧ c ≠ 93)
    (hwords : counts false = true → ∀ item ∈ items, ∀ c ∈ item.word, c ≠ 91 ∧ c ≠ 93) : Balanced counts name items := by
  refine ⟨fun pre hpre => ?_, fun k a b ha hb => ?_, ?_⟩
  · simpa using (stays_listLine hcounts hname hwords).above pre hpre
  · have htake := stays_take hcounts ∅ hwords ha hb
    rw [common_first] at htake
    have hdepth := ((stays_heading hname).append htake).depth
    rw [text_append]
    omega
  · have hdepth := (stays_words hcounts hname hwords).depth
    omega

end Brackets

/-- **The brackets that `listCorpus` prints around the words are balanced**,
and so are all brackets of the line if the name and the words have none. -/
theorem listLine_balanced (name : Str) (items : List LexItem) :
    Balanced id name items ∧ ((∀ c ∈ name, c ≠ 91 ∧ c ≠ 93) → (∀ item ∈ items, ∀ c ∈ item.word, c ≠ 91 ∧ c ≠ 93) →
      Balanced (fun _ => true) name items) :=
  ⟨balanced_of_plain rfl nofun nofun, fun hname hwords => balanced_of_plain rfl (fun _ => hname) fun _ => hwords⟩

/-- A word may be a bracket. -/
theorem word_unbalanced : ¬∀ name items, Balanced (fun _ => true) name items := by
  intro h
  have habove := (h [115] [⟨[93], 0, ∅⟩]).above [(115, false), (32, true), (93, false)] (by decide +kernel)
  revert habove
  decide

/-! ## Colours -/

/-- The words, each with the colour that the terminal has when it is printed. -/
def shown : Str → List Printed → List (Str × Str)
  | _, [] => []
  | _, .colour s :: ps => shown s ps
  | now, .word s :: ps => (s, now) :: shown now ps
  | now, _ :: ps => shown now ps

/-- The colour that is left. -/
def colourAfter : Str → List Printed → Str
  | now, [] => now
  | _, .colour s :: ps => colourAfter s ps
  | now, _ :: ps => colourAfter now ps

/-- Every word has the colour of its depth, and the terminal that of none at
the end. -/
def Coloured (name : Str) (items : List LexItem) : Prop :=
  shown defaultColour (listLine true name items) =
      items.map (fun item => (item.word, outputDepthColor item.matched.card)) ∧
    colourAfter defaultColour (listLine true name items) = defaultColour

/-- The word is in some of the matches of the one before, and in no others. -/
def Within (prev matched : Finset ℕ) : Prop := matched.Nonempty ∧ matched ⊂ prev

theorem outputDepthColor_default {d : ℕ} : outputDepthColor d = defaultColour ↔ d = 0 := by
  rcases d with _ | _ | _ | _ | _ | d
  · exact iff_of_true rfl rfl
  · exact iff_of_false (by decide) (by omega)
  · exact iff_of_false (by decide) (by omega)
  · exact iff_of_false (by decide) (by omega)
  · exact iff_of_false (by decide) (by omega)
  · have hdeep : 27 :: str "[38;5;119m" ≠ defaultColour := by decide
    exact iff_of_false hdeep (by omega)

/-- The colour before a word, if the one before it had its own. -/
def colourBefore (prev : Finset ℕ) (item : LexItem) : Str :=
  if prev \ item.matched = ∅ then outputDepthColor prev.card else defaultColour

/-- The colour a word is shown in. -/
def colourAt (prev : Finset ℕ) (item : LexItem) (now : Str) : Str :=
  if item.matched \ prev = ∅ then now else outputDepthColor item.matched.card

/-- The colour after it. -/
def colourBehind (item : LexItem) (now : Str) : Option LexItem → Str
  | some next => if item.matched \ next.matched = ∅ then now else defaultColour
  | none => now

theorem shown_printWord (prev : Finset ℕ) (item : LexItem) (next : Option LexItem) (now : Str) (ps : List Printed) :
    shown now (printWord true prev item next ++ ps) =
        (item.word, colourAt prev item now) :: shown (colourBehind item (colourAt prev item now) next) ps ∧
      colourAfter now (printWord true prev item next ++ ps) =
        colourAfter (colourBehind item (colourAt prev item now) next) ps := by
  cases next with
  | none =>
    by_cases hstart : item.matched \ prev = ∅ <;>
      simp [printWord, uniqueToFirst, colourAt, colourBehind, hstart, shown, colourAfter]
  | some next =>
    by_cases hstart : item.matched \ prev = ∅ <;> by_cases hend : item.matched \ next.matched = ∅ <;>
      simp [printWord, uniqueToFirst, colourAt, colourBehind, hstart, hend, shown, colourAfter]

/-- A word after one that had its colour has its own, unless it is within the
matches of that one. -/
theorem colourAt_eq_iff (prev : Finset ℕ) (item : LexItem) :
    colourAt prev item (colourBefore prev item) = outputDepthColor item.matched.card ↔ ¬Within prev item.matched := by
  rw [colourAt, colourBefore]
  split
  · next hstart =>
    have hsub : item.matched ⊆ prev := Finset.sdiff_eq_empty_iff_subset.mp hstart
    split
    · next hend =>
      have heq : item.matched = prev := hsub.antisymm (Finset.sdiff_eq_empty_iff_subset.mp hend)
      rw [heq]
      exact iff_of_true rfl fun h => (ssubset_irrefl _ h.2).elim
    · next hend =>
      have hssub : item.matched ⊂ prev := ⟨hsub, fun h => hend (Finset.sdiff_eq_empty_iff_subset.mpr h)⟩
      rw [eq_comm, outputDepthColor_default, Finset.card_eq_zero, Within, Finset.nonempty_iff_ne_empty]
      simp [hssub]
  · next hstart =>
    exact iff_of_true rfl fun h => hstart (Finset.sdiff_eq_empty_iff_subset.mpr h.2.subset)

/-- The words that are left are coloured well if and only if none of them is
within the matches of the one before it and the last has none. -/
theorem wordLoop_coloured_iff (prev : Finset ℕ) (item : LexItem) (items : List LexItem) :
    (shown (colourBefore prev item) ((wordLoop true prev (item :: items)).flatten ++ [.mark (str "\n")]) =
        (item :: items).map (fun item => (item.word, outputDepthColor item.matched.card)) ∧
      colourAfter (colourBefore prev item) ((wordLoop true prev (item :: items)).flatten ++ [.mark (str "\n")]) =
        defaultColour) ↔
    ¬Within prev item.matched ∧ ((item :: items).IsChain fun a b => ¬Within a.matched b.matched) ∧
      ∀ last ∈ (item :: items).getLast?, last.matched = ∅ := by
  induction items generalizing prev item with
  | nil =>
    obtain ⟨hshown, hafter⟩ := shown_printWord prev item none (colourBefore prev item) [.mark (str "\n")]
    rw [wordLoop, List.head?_nil, wordLoop, List.flatten_singleton, hshown, hafter, List.map_singleton]
    simp only [shown, colourAfter, colourBehind, List.cons.injEq, Prod.mk.injEq, true_and, and_true, List.IsChain.singleton,
      List.getLast?_singleton, Option.mem_some_iff, forall_eq']
    rw [← colourAt_eq_iff]
    refine and_congr_right fun h => ?_
    rw [h, outputDepthColor_default, Finset.card_eq_zero]
  | cons next items ih =>
    obtain ⟨hshown, hafter⟩ := shown_printWord prev item (some next) (colourBefore prev item)
      ((wordLoop true item.matched (next :: items)).flatten ++ [.mark (str "\n")])
    rw [wordLoop, List.head?_cons, List.flatten_cons, List.append_assoc, hshown, hafter, List.map_cons,
      List.isChain_cons_cons, List.getLast?_cons_cons, ← colourAt_eq_iff]
    simp only [List.cons.injEq, Prod.mk.injEq, true_and, and_assoc]
    refine and_congr_right fun h => ?_
    rw [h]
    exact ih item.matched next

/-- **The colours of a line are right if and only if no word is in some, but
not all, of the matches of the word before it and in no others, and the last
word is in no match.** -/
theorem coloured_iff (name : Str) (items : List LexItem) :
    Coloured name items ↔
      (items.IsChain fun a b => ¬(b.matched.Nonempty ∧ b.matched ⊂ a.matched)) ∧
        ∀ last ∈ items.getLast?, last.matched = ∅ := by
  cases items with
  | nil =>
    refine iff_of_true ⟨rfl, rfl⟩ ⟨.nil, by simp⟩
  | cons item items =>
    have hloop := wordLoop_coloured_iff ∅ item items
    have hbefore : colourBefore ∅ item = defaultColour := by simp [colourBefore, outputDepthColor]
    have hfirst : ¬Within ∅ item.matched := fun h => by simpa using h.2
    rw [hbefore] at hloop
    rw [Coloured, listLine, heading]
    simp only [List.cons_append, List.nil_append, shown, colourAfter]
    rw [hloop, and_iff_right hfirst]
    rfl

/-- A match that lasts to the end of the sentence, and one that goes on where a
match inside it ends. -/
theorem not_coloured : ¬Coloured [115] [⟨[97], 0, {0}⟩] ∧
    ¬Coloured [115] [⟨[97], 0, {0, 1}⟩, ⟨[98], 1, {0}⟩, ⟨[99], 2, ∅⟩] := by
  refine ⟨fun h => ?_, fun h => ?_⟩
  · have hafter := h.2
    revert hafter
    decide +kernel
  · have hshown := h.1
    revert hshown
    decide +kernel

end AlpinoCorpus
