/-
A store of cells: what is allocated stays, and a write changes one cell.
`Within` bounds what a part of a program has done to the store by the
locations that were its own.
-/
import Mathlib

namespace Store

variable {γ : Type*}

abbrev Loc := Nat

/-- A new cell, and where it is. -/
def alloc (c : γ) (w : List γ) : Loc × List γ := (w.length, w ++ [c])

/-- The locations that are not in use yet. -/
def unused (w : List γ) : Set Loc := {l | w.length ≤ l}

/-- `w'` comes of `w` by writing in `fp` and by allocating. -/
structure Within (fp : Set Loc) (w w' : List γ) : Prop where
  grows : w.length ≤ w'.length
  keeps : ∀ l < w.length, l ∉ fp → w'[l]? = w[l]?

theorem lt_of_getElem? {w : List γ} {l : Loc} {c : γ} (h : w[l]? = some c) : l < w.length :=
  (List.getElem?_eq_some_iff.mp h).1

theorem getElem?_set_ne {w : List γ} {l l' : Loc} (c : γ) (h : l' ≠ l) : (w.set l c)[l']? = w[l']? :=
  List.getElem?_set_ne h.symm

theorem getElem?_set {w : List γ} {l : Loc} (c : γ) (h : l < w.length) : (w.set l c)[l]? = some c :=
  List.getElem?_set_self h

theorem alloc_getElem? (c : γ) (w : List γ) : (alloc c w).2[(alloc c w).1]? = some c := by
  simp [alloc]

namespace Within

variable {fp fp' : Set Loc} {w w' w'' : List γ}

theorem refl (fp : Set Loc) (w : List γ) : Within fp w w := ⟨le_refl _, fun _ _ _ => rfl⟩

theorem mono (h : Within fp w w') (hfp : fp ⊆ fp') : Within fp' w w' :=
  ⟨h.grows, fun l hl hl' => h.keeps l hl fun hmem => hl' (hfp hmem)⟩

/-- What comes second may also write where the first has allocated. -/
theorem trans (h : Within fp w w') (h' : Within fp' w' w'') (hfp : fp' ⊆ fp ∪ unused w) : Within fp w w'' := by
  refine ⟨h.grows.trans h'.grows, fun l hl hl' => ?_⟩
  have hnot : l ∉ fp' := by
    intro hmem
    rcases hfp hmem with hmem | hmem
    · exact hl' hmem
    · exact absurd hl (not_lt.mpr hmem)
  rw [h'.keeps l (hl.trans_le h.grows) hnot, h.keeps l hl hl']

theorem unused (h : Within fp w w') : Store.unused w' ⊆ Store.unused w := fun _ hl => h.grows.trans hl

/-- What is used afterwards, when two parts run one after the other. -/
theorem footprint {fp'' : Set Loc} (h : Within fp w w') (hfp' : fp' ⊆ fp ∪ Store.unused w)
    (hfp'' : fp'' ⊆ fp' ∪ Store.unused w') : fp'' ⊆ fp ∪ Store.unused w := by
  refine hfp''.trans (Set.union_subset hfp' ?_)
  exact h.unused.trans Set.subset_union_right

theorem set {l : Loc} (hl : l ∈ fp) (c : γ) : Within fp w (w.set l c) := by
  refine ⟨by rw [List.length_set], fun l' _ hl' => getElem?_set_ne c fun h => hl' (h ▸ hl)⟩

theorem alloc (c : γ) : Within fp w (Store.alloc c w).2 := by
  refine ⟨by simp [Store.alloc], fun l hl _ => ?_⟩
  rw [Store.alloc, List.getElem?_append_left hl]

/-- A cell outside stays. -/
theorem getElem? {l : Loc} {c : γ} (h : Within fp w w') (hl : w[l]? = some c) (hfp : l ∉ fp) : w'[l]? = some c := by
  rw [h.keeps l (lt_of_getElem? hl) hfp, hl]

end Within

end Store
