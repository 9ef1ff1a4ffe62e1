/-
`DirectoryCorpusReaderPrivate`: the two orders in which it lists its entries,
and their number, which it counts once and keeps.
-/
import AlpinoCorpus.ReaderFacts

namespace AlpinoCorpus

open Iteration

/-- `d_nEntries` is the greatest `size_t` until the entries are counted. -/
structure DirectoryCorpusReaderPrivate where
  d_directory : Str
  d_nEntries : Nat

namespace DirectoryCorpusReaderPrivate

def sizeMax : Nat := 2 ^ 64 - 1

def create (d_directory : Str) : DirectoryCorpusReaderPrivate := ⟨d_directory, sizeMax⟩

def getEntries (env : Env) (r : DirectoryCorpusReaderPrivate) (sortOrder : SortOrder) : Outcome Iter :=
  (Leaf.directory r.d_directory).getEntries env sortOrder

def getSize (env : Env) (r : DirectoryCorpusReaderPrivate) : Outcome Nat × DirectoryCorpusReaderPrivate :=
  if r.d_nEntries = sizeMax then
    match (Leaf.directory r.d_directory).getSize env with
    | .error s => (.error s, r)
    | .ok nEntries => (.ok nEntries, { r with d_nEntries := nEntries })
  else (.ok r.d_nEntries, r)

/-- What `n` calls of `getSize` return. -/
def sizes (env : Env) : Nat → DirectoryCorpusReaderPrivate → List (Outcome Nat)
  | 0, _ => []
  | n + 1, r => (r.getSize env).1 :: sizes env n (r.getSize env).2

variable {env : Env}

/-- What is kept is the number of entries. -/
def Counted (env : Env) (r : DirectoryCorpusReaderPrivate) : Prop :=
  r.d_nEntries = sizeMax ∨ r.d_nEntries = ((Leaf.directory r.d_directory).entries env .naturalOrder).length

theorem Counted.getSize {r : DirectoryCorpusReaderPrivate} (h : r.Counted env) :
    (r.getSize env).1 = .ok ((Leaf.directory r.d_directory).entries env .naturalOrder).length ∧
      (r.getSize env).2.Counted env ∧ (r.getSize env).2.d_directory = r.d_directory := by
  have hcount := (Leaf.directory r.d_directory).getSize_eq env .naturalOrder
  rw [DirectoryCorpusReaderPrivate.getSize]
  split
  · rw [hcount]
    exact ⟨rfl, .inr rfl, rfl⟩
  · next hne =>
    refine ⟨?_, h, rfl⟩
    rw [h.resolve_left hne]

theorem Counted.sizes {r : DirectoryCorpusReaderPrivate} (h : r.Counted env) (n : Nat) :
    r.sizes env n = List.replicate n (.ok ((Leaf.directory r.d_directory).entries env .naturalOrder).length) := by
  induction n generalizing r with
  | zero => rfl
  | succ n ih =>
    obtain ⟨hsize, hcounted, hdir⟩ := h.getSize
    rw [DirectoryCorpusReaderPrivate.sizes, hsize, ih hcounted, hdir, List.replicate_succ]

/-- In the numerical order no entry comes after one that it is less than. -/
theorem entries_sorted (env : Env) (d : Str) :
    ((Leaf.directory d).entries env .numericalOrder).Pairwise fun a b => nameCompare b.name a.name = false := by
  simp only [Leaf.entries, SortedDirIter.rest, SortedDirIter.create, List.drop_zero]
  rw [List.pairwise_map]
  exact (env.sort_sorted _).filter _

/-- **Both orders list the same entries, the numerical one sorted, and their
number is the size, whenever it is asked for.** -/
theorem lists_both_orders (env : Env) (d : Str) : ∃ natural numerical xs ys,
    (create d).getEntries env .naturalOrder = .ok natural ∧ natural.Deliver env xs ∧
    (create d).getEntries env .numericalOrder = .ok numerical ∧ numerical.Deliver env ys ∧
    ys.Perm xs ∧ (ys.Pairwise fun a b => nameCompare b.name a.name = false) ∧
    ∀ n, (create d).sizes env n = List.replicate n (.ok xs.length) := by
  obtain ⟨natural, hnat, hdeliver⟩ := (Leaf.directory d).deliver_entries env .naturalOrder
  obtain ⟨numerical, hnum, hdeliver'⟩ := (Leaf.directory d).deliver_entries env .numericalOrder
  exact ⟨natural, numerical, _, _, hnat, hdeliver, hnum, hdeliver', (Leaf.directory d).entries_perm env .numericalOrder,
    entries_sorted env d, Counted.sizes (.inl rfl)⟩

end DirectoryCorpusReaderPrivate

end AlpinoCorpus
