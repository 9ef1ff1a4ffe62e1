/-
`split_string` at `+|+`: the stages of a query.
-/
import AlpinoCorpus.Basic

namespace AlpinoCorpus

/-- The regular expression `\+\|\+`, which matches itself only. -/
def separator : Str := str "+|+"

/-- The tokens between the matches, `part` being read already. A token that
would end the string empty is not delivered. -/
def splitLoop (part : Str) : Str → List Str
  | 43 :: 124 :: 43 :: rest => part :: splitLoop [] rest
  | c :: cs => splitLoop (part ++ [c]) cs
  | [] => if part.isEmpty then [] else [part]

/-- `split_string(s, "\\+\\|\\+")`. A string without a match is its only
token, also when it is empty. -/
def splitString (s : Str) : List Str := if s.isEmpty then [[]] else splitLoop [] s

example : splitString (str "+|+a+|++|++|") = [str "", str "a", str "", str "+|"] := by decide

/-- No match in the string. -/
def Unsplit (s : Str) : Prop := ¬separator <:+: s

theorem splitLoop_sep {part rest s : Str} (h : s = separator ++ rest) : splitLoop part s = part :: splitLoop [] rest := by
  subst h
  rfl

theorem splitLoop_cons {part cs : Str} {c : UInt8} (h : ¬separator <+: c :: cs) :
    splitLoop part (c :: cs) = splitLoop (part ++ [c]) cs := by
  rw [splitLoop]
  rintro rest heq hcs
  exact h ⟨rest, by rw [heq, hcs]; rfl⟩

theorem length_separator : separator.length = 3 := by decide

/-- A string without a match is read to its end. -/
theorem splitLoop_unsplit : ∀ {part s : Str}, Unsplit s → part ++ s ≠ [] → splitLoop part s = [part ++ s]
  | part, [], _, hne => by
    rw [splitLoop, if_neg (by simpa using hne), List.append_nil]
  | part, c :: cs, h, _ => by
    rw [splitLoop_cons fun hp => h hp.isInfix,
      splitLoop_unsplit (fun hi => h (hi.trans (List.suffix_cons c cs).isInfix)) (by simp), List.append_assoc,
      List.singleton_append]

theorem splitString_unsplit {s : Str} (h : Unsplit s) : splitString s = [s] := by
  unfold splitString
  split
  · next hs => rw [List.isEmpty_iff.mp hs]
  · next hs => exact splitLoop_unsplit h (by simpa using hs)

/-- The tokens hold no match. The induction is on what is left to read:
no match starts inside the part read already. -/
theorem splitLoop_tokens : ∀ {part s : Str}, (∀ k < part.length, ¬separator <+: (part ++ s).drop k) →
    ∀ p ∈ splitLoop part s, Unsplit p := by
  intro part s hpart p hp
  have hread : ∀ {part s : Str}, (∀ k < part.length, ¬separator <+: (part ++ s).drop k) → Unsplit part := by
    rintro part s h ⟨before, after, heq⟩
    refine h before.length ?_ ⟨after ++ s, ?_⟩
    · have := congrArg List.length heq
      simp only [List.length_append, length_separator] at this
      omega
    · rw [← heq]
      simp [List.append_assoc]
  induction hn : s.length using Nat.strongRecOn generalizing part s with
  | ind n ih =>
    cases s with
    | nil =>
      rw [splitLoop] at hp
      split at hp
      · cases hp
      · obtain rfl := List.mem_singleton.mp hp
        exact hread hpart
    | cons c cs =>
      by_cases hsep : separator <+: c :: cs
      · obtain ⟨rest, hrest⟩ := hsep
        rw [splitLoop_sep hrest.symm] at hp
        rcases List.mem_cons.mp hp with rfl | hp
        · exact hread hpart
        · have hlen := congrArg List.length hrest
          simp only [List.length_append, length_separator, List.length_cons] at hlen hn
          exact ih rest.length (by omega) (by simp) hp rfl
      · rw [splitLoop_cons hsep] at hp
        refine ih cs.length (by rw [← hn]; simp) (fun k hk => ?_) hp rfl
        rw [List.append_assoc, List.singleton_append]
        rw [List.length_append, List.length_singleton] at hk
        rcases Nat.lt_succ_iff_lt_or_eq.mp hk with hk | rfl
        · exact hpart k hk
        · simpa using hsep

/-- **The stages of a query are not split again.** -/
theorem splitString_stage {q stage : Str} (h : stage ∈ splitString q) : splitString stage = [stage] := by
  refine splitString_unsplit ?_
  unfold splitString at h
  split at h
  · obtain rfl := List.mem_singleton.mp h
    unfold Unsplit
    decide
  · exact splitLoop_tokens (by simp) stage h

theorem splitLoop_ne_nil : ∀ {part s : Str}, part ++ s ≠ [] → splitLoop part s ≠ []
  | part, [], h => by
    rw [splitLoop, if_neg (by simpa using h)]
    simp
  | part, c :: cs, _ => by
    by_cases hsep : separator <+: c :: cs
    · obtain ⟨rest, hrest⟩ := hsep
      rw [splitLoop_sep hrest.symm]
      simp
    · rw [splitLoop_cons hsep]
      exact splitLoop_ne_nil (by simp)

/-- `assert(queries.size() > 0)`. -/
theorem splitString_ne_nil (s : Str) : splitString s ≠ [] := by
  unfold splitString
  split
  · simp
  · next hs => exact splitLoop_ne_nil (by simpa using hs)

end AlpinoCorpus
