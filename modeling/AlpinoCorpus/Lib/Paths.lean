/-
Paths as lists, and the directories above them. A directory is written
without a separator at its end; it is above a path if the path goes on behind
it with a separator.
-/
import Mathlib

namespace Paths

variable {α : Type*} {sep : α} {q p n d t base : List α}

/-- The directory `q` is above the path `p`. -/
def Above (sep : α) (q p : List α) : Prop := q ≠ [] ∧ q.getLast? ≠ some sep ∧ q ++ [sep] <+: p

instance [DecidableEq α] (sep : α) (q p : List α) : Decidable (Above sep q p) :=
  inferInstanceAs (Decidable (_ ∧ _ ∧ _))

/-- The path and the directories above it, from the top. -/
def pathsTo [DecidableEq α] (sep : α) (p : List α) : List (List α) :=
  p.inits.filter fun q => Above sep q p ∨ q = p ∧ q ≠ [] ∧ q.getLast? ≠ some sep

theorem Above.length_lt (h : Above sep q p) : q.length < p.length := by
  have hle := h.2.2.length_le
  rw [List.length_append, List.length_singleton] at hle
  omega

theorem Above.mem (h : Above sep q p) : sep ∈ p := h.2.2.subset (by simp)

theorem Above.ne (h : Above sep q p) : q ≠ p := fun he => by
  have hlt := h.length_lt
  rw [he] at hlt
  exact hlt.false

theorem not_above_self : ¬Above sep p p := fun h => h.ne rfl

theorem Above.trans (h : Above sep q p) (h' : Above sep p n) : Above sep q n :=
  ⟨h.1, h.2.1, h.2.2.trans ((List.prefix_append p [sep]).trans h'.2.2)⟩

/-- Below a directory, a path is above what it is above from there. -/
theorem above_append : Above sep (t ++ sep :: p) (t ++ sep :: n) ↔ Above sep p n := by
  have hprefix : t ++ sep :: p ++ [sep] <+: t ++ sep :: n ↔ p ++ [sep] <+: n := by
    rw [List.append_assoc, List.prefix_append_right_inj, List.cons_append, List.prefix_cons_inj]
  rw [Above, Above, hprefix]
  refine ⟨fun ⟨_, hlast, h⟩ => ?_, fun ⟨hne, hlast, h⟩ => ?_⟩
  · have hne : p ≠ [] := by
      rintro rfl
      exact hlast List.getLast?_concat
    rw [List.getLast?_append_of_ne_nil _ (List.cons_ne_nil sep p), List.getLast?_cons_of_ne_nil hne] at hlast
    exact ⟨hne, hlast, h⟩
  · rw [List.getLast?_append_of_ne_nil _ (List.cons_ne_nil sep p), List.getLast?_cons_of_ne_nil hne]
    exact ⟨by simp, hlast, h⟩

/-- What is above a path below a directory: the directory, what is above it,
and what is above the path from there. -/
theorem above_below_cases (h : Above sep q (t ++ sep :: n)) : Above sep q t ∨ q = t ∨ ∃ p, q = t ++ sep :: p ∧ Above sep p n := by
  have ht : t ++ [sep] <+: t ++ sep :: n := ⟨n, by simp⟩
  rcases List.prefix_or_prefix_of_prefix h.2.2 ht with hq | ⟨r, hr⟩
  · rcases List.prefix_concat_iff.mp hq with hq | hq
    · exact .inr (.inl (List.append_cancel_right hq))
    · exact .inl ⟨h.1, h.2.1, hq⟩
  · obtain rfl | ⟨p, last, rfl⟩ := r.eq_nil_or_concat'
    · rw [List.append_nil] at hr
      exact .inr (.inl (List.append_cancel_right hr.symm))
    · rw [← List.append_assoc] at hr
      obtain ⟨rfl, -⟩ := List.append_inj' hr rfl
      have hq : t ++ [sep] ++ p = t ++ sep :: p := by simp
      exact .inr (.inr ⟨p, hq, above_append.mp (hq ▸ h)⟩)

/-- The last directory above a path, and those above it. -/
theorem above_concat_iff (hbase : sep ∉ base) (hne : d ≠ []) (hlast : d.getLast? ≠ some sep) :
    Above sep q (d ++ sep :: base) ↔ q = d ∨ Above sep q d := by
  constructor
  · rintro ⟨hq, hql, hprefix⟩
    have hbehind : q ++ [sep] <+: d ++ [sep] ++ base := by rwa [List.append_assoc, List.singleton_append]
    have hd : q ++ [sep] <+: d ++ [sep] := by
      rcases List.prefix_or_prefix_of_prefix hbehind (List.prefix_append _ _) with h | ⟨r, hr⟩
      · exact h
      · -- there is no separator after the last
        obtain rfl | ⟨r', last, rfl⟩ := r.eq_nil_or_concat'
        · rw [← hr, List.append_nil]
        · rw [← hr, List.prefix_append_right_inj] at hbehind
          rw [← List.append_assoc] at hr
          obtain ⟨-, hsep⟩ := List.append_inj' hr rfl
          have hmem : last ∈ base := hbehind.subset (by simp)
          rw [List.singleton_inj.mp hsep] at hmem
          exact absurd hmem hbase
    rcases List.prefix_concat_iff.mp hd with h | h
    · exact .inl (List.append_cancel_right h)
    · exact .inr ⟨hq, hql, h⟩
  · rintro (rfl | h)
    · exact ⟨hne, hlast, ⟨base, by simp⟩⟩
    · exact ⟨h.1, h.2.1, h.2.2.trans (List.prefix_append _ _)⟩

theorem mem_pathsTo [DecidableEq α] : q ∈ pathsTo sep p ↔ Above sep q p ∨ q = p ∧ q ≠ [] ∧ q.getLast? ≠ some sep := by
  rw [pathsTo, List.mem_filter, List.mem_inits, decide_eq_true_eq, and_iff_right_iff_imp]
  rintro (h | ⟨rfl, -⟩)
  · exact (List.prefix_append q [sep]).trans h.2.2
  · exact List.prefix_refl q

/-- The path to the last directory is what is above. -/
theorem mem_pathsTo_iff [DecidableEq α] (hbase : sep ∉ base) (hne : d ≠ []) (hlast : d.getLast? ≠ some sep) :
    q ∈ pathsTo sep d ↔ Above sep q (d ++ sep :: base) := by
  rw [mem_pathsTo, above_concat_iff hbase hne hlast]
  constructor
  · rintro (h | ⟨rfl, -⟩)
    · exact .inr h
    · exact .inl rfl
  · rintro (rfl | h)
    · exact .inr ⟨rfl, hne, hlast⟩
    · exact .inl h

/-- A path is split at its last separator. -/
theorem exists_last_sep (h : sep ∈ p) : ∃ d base, p = d ++ sep :: base ∧ sep ∉ base := by
  obtain ⟨base, d, hp, hbase⟩ := List.eq_append_cons_of_mem (List.mem_reverse.mpr h)
  refine ⟨d.reverse, base.reverse, ?_, by simpa using hbase⟩
  have hrev := congrArg List.reverse hp
  simpa using hrev

/-! ## Names without empty parts -/

section Clean

variable [DecidableEq α]

/-- No part of the path is empty. -/
def Clean (sep : α) (p : List α) : Prop := [] ∉ p.splitOn sep

instance (sep : α) (p : List α) : Decidable (Clean sep p) := inferInstanceAs (Decidable (_ ∉ _))

theorem Clean.ne_nil (h : Clean sep p) : p ≠ [] := by
  rintro rfl
  exact h (by rw [List.splitOn_nil]; exact List.mem_singleton_self [])

theorem clean_join : Clean sep (d ++ sep :: base) ↔ Clean sep d ∧ Clean sep base := by
  simp only [Clean, List.splitOn_append_cons_self, List.mem_append, not_or]

theorem Clean.head?_ne (h : Clean sep p) : p.head? ≠ some sep := by
  intro hhead
  obtain ⟨rest, rfl⟩ := List.head?_eq_some_iff.mp hhead
  exact (clean_join.mp h : Clean sep [] ∧ Clean sep rest).1.ne_nil rfl

theorem Clean.getLast?_ne (h : Clean sep p) : p.getLast? ≠ some sep := by
  intro hlast
  obtain ⟨init, rfl⟩ := List.getLast?_eq_some_iff.mp hlast
  exact (clean_join.mp h).2.ne_nil rfl

/-- The last directory above a name in the directory `t`: `t`, or one in it. -/
theorem Clean.split_below (hn : Clean sep n) (ht : t ≠ []) (hlast : t.getLast? ≠ some sep) :
    ∃ d base, t ++ sep :: n = d ++ sep :: base ∧ sep ∉ base ∧ d ≠ [] ∧ d.getLast? ≠ some sep ∧
      (d = t ∨ ∃ d', d = t ++ sep :: d' ∧ Above sep d' n) := by
  by_cases hsep : sep ∈ n
  · obtain ⟨d', base, rfl, hbase⟩ := exists_last_sep hsep
    obtain ⟨hd, -⟩ := clean_join.mp hn
    refine ⟨t ++ sep :: d', base, by simp, hbase, by simp, ?_, .inr ⟨d', rfl, hd.ne_nil, hd.getLast?_ne, base, by simp⟩⟩
    rw [List.getLast?_append_of_ne_nil _ (List.cons_ne_nil sep d'), List.getLast?_cons_of_ne_nil hd.ne_nil]
    exact hd.getLast?_ne
  · exact ⟨t, n, rfl, hsep, ht, hlast, .inl rfl⟩

end Clean

end Paths
