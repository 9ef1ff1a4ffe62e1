/-
A list that is read from a place in it. A read goes on from there, a seek
moves the place; a seek out of the list fails.
-/
import Mathlib

structure Cursor (α : Type*) where
  items : List α
  pos : Nat
  le : pos ≤ items.length

namespace Cursor

variable {α : Type*}

def start (items : List α) : Cursor α := ⟨items, 0, Nat.zero_le _⟩

/-- What is left to read. -/
def rest (c : Cursor α) : List α := c.items.drop c.pos

theorem length_rest (c : Cursor α) : c.rest.length = c.items.length - c.pos := List.length_drop

/-- As many as there are, up to `n`. -/
def read (c : Cursor α) (n : Nat) : List α × Cursor α :=
  (c.rest.take n, ⟨c.items, c.pos + min n c.rest.length, by have := c.le; have := c.length_rest; omega⟩)

def seek (c : Cursor α) (target : Int) : Option (Cursor α) :=
  if h : 0 ≤ target ∧ target ≤ c.items.length then some ⟨c.items, target.toNat, by omega⟩ else none

theorem seek_inside {c : Cursor α} {n : Nat} (h : n ≤ c.items.length) : c.seek n = some ⟨c.items, n, h⟩ :=
  dif_pos ⟨Int.natCast_nonneg n, Int.ofNat_le.mpr h⟩

theorem seek_before {c : Cursor α} {target : Int} (h : target < 0) : c.seek target = none := dif_neg (by omega)

theorem seek_past {c : Cursor α} {target : Int} (h : c.items.length < target) : c.seek target = none := dif_neg (by omega)

end Cursor
