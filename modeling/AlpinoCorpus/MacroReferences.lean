/-
References in a macro file and in a query: what `parseMacros` stores for a
definition at the end of a file is its text with every known reference as
its value, all at once; `expandMacros` takes one name after the other.
-/
import AlpinoCorpus.MacroGrammar

namespace AlpinoCorpus

open OrdMap Replace

/-- `k = """b"""`. -/
def definition (k b : Str) : Str := k ++ (str " = " ++ quotes) ++ (b ++ quotes)

/-! ## The definition -/

section

variable {data : Str} {p : Nat} {r : Parser}

/-- Where a file may end, nothing is left open. -/
theorem Parser.Tidy.eof {r₁ : Parser} (htidy : r.Tidy) (h : r.cs.eofActions.foldlM (perform data p 0) r = .ok r₁)
    (hfinal : r₁.cs.isFinal = true) : r.cs.isFinal = true ∧ r₁.substitutions = [] ∧ r₁.buf = [] ∧
      ∀ e ∈ r₁.macros.entries, ∀ c ∈ e.1, isKeyChar c = true := by
  have hne : r.cs.isFinal = true → r.cs ≠ .key ∧ r.cs ≠ .error := by
    intro hcs
    constructor <;> intro h <;> rw [h] at hcs <;> cases hcs
  rcases eofActions_cases r.cs with hnil | hend
  · rw [hnil] at h
    injection h with h
    subst h
    obtain ⟨hkey, herr⟩ := hne hfinal
    refine ⟨hfinal, htidy.substitutions ?_ herr, htidy.buf hkey herr, htidy.keys⟩
    revert hnil hfinal
    cases r.cs <;> simp [State.eofActions, State.isFinal, State.inBody]
  · have hcs : r.cs.isFinal = true := by
      revert hend
      cases r.cs <;> simp [State.eofActions, State.isFinal]
    rw [hend, List.foldlM_cons] at h
    obtain ⟨r₂, h₂, h⟩ := bind_ok_iff.mp h
    injection h with h
    subst h
    obtain ⟨-, hbuf, hsubst, ht⟩ := htidy.queryEnd (hne hcs).1 (hne hcs).2 h₂
    exact ⟨hcs, hsubst, hbuf, ht.keys⟩

end

variable {file k b : Str} {m : Macros}

/-- What a file that is accepted leaves to its end. -/
theorem parseMacros_ok (h : parseMacros file = .ok m) : ∃ r r₁ : Parser, exec file file 0 .init = .ok (r, file.length) ∧
    r.cs.isFinal = true ∧ r.cs.eofActions.foldlM (perform file file.length 0) r = .ok r₁ ∧
    r₁.macros = m ∧ r₁.substitutions = [] ∧ r₁.buf = [] ∧ ∀ e ∈ m.entries, ∀ c ∈ e.1, isKeyChar c = true := by
  obtain ⟨⟨r, p⟩, hexec, h⟩ := bind_ok_iff.mp h
  dsimp only at h
  split at h
  · cases h
  · next hne =>
    have hp := exec_length hexec hne
    rw [Nat.zero_add] at hp
    subst hp
    obtain ⟨r₁, heof, h⟩ := bind_ok_iff.mp h
    split at h
    · next hfinal =>
      injection h with h
      obtain ⟨hcs, hsubst, hbuf, hkeys⟩ := (tidy_init.exec hexec).eof heof hfinal
      exact ⟨r, r₁, hexec, hcs, heof, h, hsubst, hbuf, h ▸ hkeys⟩
    · cases h

/-- The end of a file, where more text follows. -/
theorem exec_file (hfile : parseMacros file = .ok m) (x : Str) : ∃ r : Parser, r.Waiting (file ++ x) file.length m ∧
    exec (file ++ x) (file ++ x) 0 .init = exec (file ++ x) x file.length r := by
  obtain ⟨r, r₁, hexec, hfinal, heof, hm, hsubst, hbuf, -⟩ := parseMacros_ok hfile
  have hwaits : r.cs.waits = true ∧ r.cs ≠ .error := by
    revert hfinal
    cases r.cs <;> simp [State.isFinal, State.waits]
  have hperform : perform (file ++ x) file.length 0 = perform file file.length 0 := funext fun r => funext fun a =>
    perform_append _ (le_refl _) 0 r a
  refine ⟨r, ⟨hwaits.1, r₁, by rw [hperform, heof], hm, hsubst, hbuf⟩, exec_passed x ?_ hwaits.2⟩
  rw [exec_extend _ _ _ _ (by omega), hexec]

/-- A space. -/
def Blanks.space : Blanks := ⟨[32], by simp [isBlank]⟩

def definitionHead (hk : IsKey k) : MacroHead := ⟨[], k, hk, .space, .space⟩

theorem definition_eq (hk : IsKey k) (b : Str) : definition k b = (definitionHead hk).text ++ (quotes ++ (b ++ quotes)) := by
  have hsign : str " = " = [32, 61, 32] := by decide +kernel
  simp [definition, definitionHead, MacroHead.text, Blanks.space, hsign]

/-- **What is stored for a definition** at the end of a file. -/
theorem parseMacros_definition (hfile : parseMacros file = .ok m) (hk : IsKey k) (hb : ¬quotes <:+: b) {ps : List (Piece UInt8)}
    (hps : read 37 b = some ps) :
    parseMacros (file ++ definition k b) = .ok (m.assign k (render 37 (ps.map (Piece.resolve m.find)))) := by
  obtain ⟨rfl, hproper⟩ := read_some hps
  let d : MacroDef := ⟨definitionHead hk, ps, hproper, hb, ⟨[], by simp⟩⟩
  have htext : definition k (render 37 ps) = d.text := by
    rw [definition_eq hk]
    rfl
  rw [htext]
  obtain ⟨r, h, hexec⟩ := exec_file hfile d.text
  obtain ⟨r', hexec', h', hfinal⟩ := exec_macroDef h d [] (by rw [List.drop_left, List.append_nil])
  rw [List.append_nil] at hexec'
  rw [← List.length_append] at hexec' h'
  exact parseMacros_of_waiting (hexec.trans hexec') h' hfinal

/-- What `parseMacros` takes for the text of a macro. -/
def IsBody (b : Str) : Prop := ¬quotes <:+: b ∧ ∃ k m, IsKey k ∧ parseMacros (definition k b) = .ok m

/-- **The texts of macros are the templates** with no three quotes in them. -/
theorem isBody_iff : IsBody b ↔ ¬quotes <:+: b ∧ ∃ ps, read 37 b = some ps := by
  refine and_congr_right fun hb => ⟨fun h => ?_, fun h => ?_⟩
  · obtain ⟨k, m, hk, h⟩ := h
    cases hread : read 37 b with
    | some ps => exact ⟨ps, rfl⟩
    | none =>
      obtain ⟨r, hexec, hcs, -⟩ := @exec_head (definition k b) 0 _ _ .init (definitionHead hk) (b ++ (quotes ++ []))
      obtain ⟨r', p', hfail, herr⟩ := @fails_body (definition k b) b [] false (0 + (definitionHead hk).text.length + 3)
        { r with cs := .query, strStart := 0 + (definitionHead hk).text.length + 3 } hread hb rfl
      rw [exec_opened hcs, List.append_nil, hfail, ← definition_eq hk] at hexec
      rw [parseMacros, hexec] at h
      simp only [bind, Except.bind, if_pos herr] at h
      cases h
  · obtain ⟨ps, hps⟩ := h
    have hk : IsKey [107] := ⟨by simp, by decide +kernel⟩
    have hempty : parseMacros [] = .ok .empty := rfl
    exact ⟨_, _, hk, parseMacros_definition hempty hk hb hps⟩

/-! ## Both -/

/-- While `expandMacros` goes through the macros, what it replaces are
references of the text itself. -/
def ReplacesReferences (m : Macros) (b : Str) : Prop := ∀ ps ∈ read 37 b, Untangled 37 m.entries ps

theorem expandMacros_eq (m : Macros) (b : Str) : expandMacros m b = replaceEach 37 m.entries b := rfl

theorem keys_of_parseMacros (h : parseMacros file = .ok m) : ∀ e ∈ m.entries, 37 ∉ e.1 := by
  obtain ⟨-, -, -, -, -, -, -, -, hkeys⟩ := parseMacros_ok h
  intro e he hmem
  cases hkeys e he 37 hmem

/-- **References mean the same** in a macro file and in a query, where
`expandMacros` replaces references only. -/
theorem find_parseMacros_definition (hfile : parseMacros file = .ok m) (hk : IsKey k) (hb : IsBody b) (hrefs : ReplacesReferences m b) :
    ∃ m', parseMacros (file ++ definition k b) = .ok m' ∧ m'.find k = some (expandMacros m b) := by
  obtain ⟨hquotes, ps, hps⟩ := isBody_iff.mp hb
  obtain ⟨hrender, hproper⟩ := read_some hps
  have hexpand := replaceEach_render (keys_of_parseMacros hfile) (fun p hp => (hproper p hp).1) (hrefs ps hps)
  rw [hrender] at hexpand
  refine ⟨_, parseMacros_definition hfile hk hquotes hps, ?_⟩
  rw [expandMacros_eq, hexpand]
  exact lookup_insert strLess_equiv.mp strictWeak_strLess _ _ _

/-- A known reference and one that is not known. -/
theorem find_parseMacros_definition_known : ∃ m', parseMacros (str "b=\"\"\"X\"\"\"" ++ definition (str "q") (str "//%b%[%c%]")) = .ok m' ∧
    m'.find (str "q") = some (str "//X[%c%]") := by
  have hread : read 37 (str "//%b%[%c%]") =
      some [.text (str "//"), .ref (str "b"), .text (str "["), .ref (str "c"), .text (str "]")] := rfl
  have hfile : parseMacros (str "b=\"\"\"X\"\"\"") = .ok ⟨[(str "b", str "X")], by simp [Sorted]⟩ := rfl
  have hkey : IsKey (str "q") := ⟨by decide, by decide +kernel⟩
  obtain ⟨m', hparse, hfind⟩ := find_parseMacros_definition hfile hkey (isBody_iff.mpr ⟨by decide, _, hread⟩) (by
    intro ps hps
    obtain rfl := Option.some.inj (hread.symm.trans hps)
    decide)
  exact ⟨m', hparse, hfind.trans (by decide)⟩

/-- Two references with a key between them, and a value with a reference to a
key that comes later: they are replaced in a query only. -/
theorem expandMacros_ne_parseMacros :
    (∃ m m', parseMacros (str "b=\"\"\"X\"\"\"") = .ok m ∧ IsKey (str "q") ∧ IsBody (str "%a%b%c%") ∧
      parseMacros (str "b=\"\"\"X\"\"\"" ++ definition (str "q") (str "%a%b%c%")) = .ok m' ∧
      m'.find (str "q") = some (str "%a%b%c%") ∧ expandMacros m (str "%a%b%c%") = str "%aXc%") ∧
    (∃ m m', parseMacros (str "a=\"\"\"%b%\"\"\" b=\"\"\"Y\"\"\"") = .ok m ∧ IsKey (str "q") ∧ IsBody (str "%a%") ∧
      parseMacros (str "a=\"\"\"%b%\"\"\" b=\"\"\"Y\"\"\"" ++ definition (str "q") (str "%a%")) = .ok m' ∧
      m'.find (str "q") = some (str "%b%") ∧ expandMacros m (str "%a%") = str "Y") := by
  have hkey : IsKey (str "q") := ⟨by decide, by decide +kernel⟩
  constructor
  · have hread : read 37 (str "%a%b%c%") = some [.text [], .ref (str "a"), .text (str "b"), .ref (str "c"), .text []] := rfl
    have hfile : parseMacros (str "b=\"\"\"X\"\"\"") = .ok ⟨[(str "b", str "X")], by simp [Sorted]⟩ := rfl
    exact ⟨_, _, hfile, hkey, isBody_iff.mpr ⟨by decide, _, hread⟩, parseMacros_definition hfile hkey (by decide) hread,
      by decide, by decide⟩
  · have hread : read 37 (str "%a%") = some [.text [], .ref (str "a"), .text []] := rfl
    have hfile : parseMacros (str "a=\"\"\"%b%\"\"\" b=\"\"\"Y\"\"\"") =
        .ok ⟨[(str "a", str "%b%"), (str "b", str "Y")], by unfold Sorted; decide⟩ := rfl
    exact ⟨_, _, hfile, hkey, isBody_iff.mpr ⟨by decide, _, hread⟩, parseMacros_definition hfile hkey (by decide) hread,
      by decide, by decide⟩

end AlpinoCorpus
