/-
The uncompressed contents of a dictzip file, and where its buffer stands in
them.

`DzFile.contents` are the chunks up to the first that cannot be loaded,
`DzFile.text` is their concatenation. `Seated` places a buffer at a position
of the text; in a file whose chunks have the length the header says
(`Dictzip`) that is the position the buffer itself computes.
-/
import AlpinoCorpus.DzIstreamFacts
import AlpinoCorpus.DzTables

namespace AlpinoCorpus

namespace DzFile

variable (Z : Zlib)

/-- `m` chunks from `n` on, up to the first that cannot be loaded. -/
def contentsFrom (f : DzFile) : Nat → Nat → List Str
  | 0, _ => []
  | m + 1, n =>
    match f.load Z n with
    | none => []
    | some out => out :: contentsFrom f m (n + 1)

/-- What the chunks inflate to, up to the first that cannot be loaded. -/
def contents (f : DzFile) : List Str := f.contentsFrom Z f.chunks.length 0

def text (f : DzFile) : Str := (f.contents Z).flatten

/-- A dictzip file as `dictzip` writes it: every chunk can be loaded, and
all but the last are of the length in the header. -/
structure Dictzip (f : DzFile) (L : Nat) : Prop where
  opened : ∃ fuel bytes, openFile fuel bytes = .ok f
  chunkLen : f.chunkLen = some L
  pos : 1 ≤ L
  chunks : 1 ≤ f.chunks.length
  inflated : (f.contents Z).length = f.chunks.length
  full : ∀ out ∈ (f.contents Z).dropLast, out.length = L

variable {Z} {f : DzFile} {L : Nat}

theorem getElem?_contentsFrom : ∀ (m n i : Nat), i ≤ (f.contentsFrom Z m n).length →
    (f.contentsFrom Z m n)[i]? = if i < m then f.load Z (n + i) else none
  | 0, _, _, _ => by simp [contentsFrom]
  | m + 1, n, i, h => by
    rw [contentsFrom] at h ⊢
    cases hload : f.load Z n with
    | none =>
      simp only [hload, List.length_nil, Nat.le_zero] at h
      simp [h, hload]
    | some out =>
      simp only [hload] at h
      cases i with
      | zero => simp [hload]
      | succ i =>
        rw [List.length_cons] at h
        simp only [List.getElem?_cons_succ, getElem?_contentsFrom m (n + 1) i (by omega),
          Nat.add_lt_add_iff_right, Nat.add_right_comm n 1 i, Nat.add_assoc]

/-- The contents say what can be loaded, up to their end. -/
theorem getElem?_contents {i : Nat} (h : i ≤ (f.contents Z).length) : (f.contents Z)[i]? = f.load Z i := by
  rw [contents, getElem?_contentsFrom _ _ _ h, Nat.zero_add]
  split
  · rfl
  · next hi => rw [load, List.getElem?_eq_none (by omega)]

theorem length_contents_le (f : DzFile) : (f.contents Z).length ≤ f.chunks.length := by
  by_contra h
  have hget := getElem?_contents (Nat.le_of_lt (Nat.lt_of_not_le h))
  rw [List.getElem?_eq_getElem (Nat.lt_of_not_le h)] at hget
  exact Nat.lt_irrefl _ (load_lt Z hget.symm)

theorem length_le_of_mem_contents {out : Str} (h : out ∈ f.contents Z) : out.length ≤ f.bufferLen := by
  obtain ⟨i, hi, rfl⟩ := List.getElem_of_mem h
  have hget := getElem?_contents (Nat.le_of_lt hi)
  rw [List.getElem?_eq_getElem hi] at hget
  exact load_le Z hget.symm

theorem mem_dropLast_of_mem_drop {outs : List Str} {k : Nat} {out : Str} (h : out ∈ (outs.drop k).dropLast) :
    out ∈ outs.dropLast := by
  rw [List.dropLast_eq_take, List.length_drop, Nat.sub_right_comm, ← List.drop_take, ← List.dropLast_eq_take] at h
  exact List.mem_of_mem_drop h

theorem length_flatten_le {outs : List Str} (h : ∀ out ∈ outs, out.length ≤ L) : outs.flatten.length ≤ outs.length * L := by
  rw [List.length_flatten]
  simpa using List.sum_le_card_nsmul (outs.map List.length) L (List.forall_mem_map.mpr h)

theorem length_flatten_eq {outs : List Str} (h : ∀ out ∈ outs, out.length = L) : outs.flatten.length = outs.length * L := by
  rw [List.length_flatten]
  simpa using List.sum_eq_card_nsmul (outs.map List.length) L (List.forall_mem_map.mpr h)

/-- Chunks are no longer than the buffer. -/
theorem length_take_contents_le (f : DzFile) (c : Nat) : ((f.contents Z).take c).flatten.length ≤ c * f.bufferLen := by
  have hle : ((f.contents Z).take c).flatten.length ≤ ((f.contents Z).take c).length * f.bufferLen :=
    length_flatten_le fun out hout => length_le_of_mem_contents (List.mem_of_mem_take hout)
  exact Nat.le_trans hle (Nat.mul_le_mul_right _ (List.length_take_le _ _))

theorem length_text_le (f : DzFile) : (f.text Z).length ≤ (f.contents Z).length * f.bufferLen :=
  length_flatten_le fun _ hout => length_le_of_mem_contents hout

theorem length_text_lt_of_opened (h : ∃ fuel bytes, openFile fuel bytes = .ok f) : (f.text Z).length < 2 ^ 47 := by
  obtain ⟨fuel, bytes, hopen⟩ := h
  obtain ⟨hfew, hL⟩ := openFile_few hopen
  have hbuffer : f.bufferLen ≤ 65535 := by
    unfold bufferLen
    cases hlen : f.chunkLen with
    | none => exact Nat.zero_le _
    | some L => exact hL L hlen
  have hcount : (f.contents Z).length ≤ 2 ^ 31 := by
    have := f.length_contents_le (Z := Z)
    omega
  have hmul : (f.contents Z).length * f.bufferLen ≤ 2 ^ 31 * 65535 := Nat.mul_le_mul hcount hbuffer
  have := f.length_text_le (Z := Z)
  omega

/-- The number of chunks fits in an `int`. -/
theorem chunkCount_of_opened (h : ∃ fuel bytes, openFile fuel bytes = .ok f) : f.chunkCount = f.chunks.length := by
  obtain ⟨fuel, bytes, h⟩ := h
  obtain ⟨hfew, -⟩ := openFile_few h
  rw [chunkCount, int32_of_lt (Int.natCast_nonneg _) (by exact_mod_cast hfew), Int.toNat_natCast]

/-- The chunks that are left: the contents that are left, and then the end
or a chunk that cannot be loaded. -/
theorem rest_contents (hcount : f.chunkCount = f.chunks.length) {m k : Nat} (hk : k + m = (f.contents Z).length) :
    ∃ tail, f.rest Z k = ((f.contents Z).drop k).map some ++ tail ∧ (tail = [] ∨ ∃ later, tail = none :: later) := by
  induction m generalizing k with
  | zero =>
    rw [List.drop_eq_nil_of_le (by omega)]
    refine ⟨f.rest Z k, by rw [List.map_nil, List.nil_append], ?_⟩
    by_cases hlt : k < f.chunkCount
    · have hget := getElem?_contents (Z := Z) (f := f) (i := k) (by omega)
      rw [List.getElem?_eq_none (by omega)] at hget
      rw [rest_cons Z hlt, ← hget]
      exact .inr ⟨_, rfl⟩
    · exact .inl (rest_nil Z (Nat.le_of_not_lt hlt))
  | succ m ih =>
    have hlt : k < (f.contents Z).length := by omega
    have hle := f.length_contents_le (Z := Z)
    obtain ⟨tail, hrest, htail⟩ := ih (k := k + 1) (by omega)
    have hget := getElem?_contents (Nat.le_of_lt hlt)
    rw [List.getElem?_eq_getElem hlt] at hget
    refine ⟨tail, ?_, htail⟩
    rw [rest_cons Z (by rw [hcount]; omega), ← hget, hrest, List.drop_eq_getElem_cons hlt, List.map_cons, List.cons_append]

/-- A read sees nothing past the contents. -/
theorem entered_append {tail : List (Option Str)} (htail : tail = [] ∨ ∃ later, tail = none :: later) :
    ∀ (outs : List Str) (first : UInt8), entered first (outs.map some ++ tail) = entered first (outs.map some)
  | [], first => by
    rcases htail with rfl | ⟨later, rfl⟩
    · rfl
    · simp [entered]
  | out :: outs, first => by
    simp only [List.map_cons, List.cons_append, entered, entered_append htail outs]

theorem entered_rest (hcount : f.chunkCount = f.chunks.length) {k : Nat} (hk : k ≤ (f.contents Z).length)
    (first : UInt8) : entered first (f.rest Z k) = entered first (((f.contents Z).drop k).map some) := by
  obtain ⟨tail, hrest, htail⟩ := rest_contents (Z := Z) hcount (k := k) (Nat.add_sub_cancel' hk)
  rw [hrest, entered_append htail]

theorem mem_dropLast_cons {out o : Str} {outs : List Str} (h : o ∈ outs.dropLast) : o ∈ (out :: outs).dropLast := by
  cases outs with
  | nil => cases h
  | cons o' outs => exact List.mem_cons_of_mem _ h

/-- Chunks of which only the last may be empty: a read sees those before
the first that starts with 0xFF. -/
theorem entered_nonempty : ∀ (outs : List Str) (first : UInt8), (∀ out ∈ outs.dropLast, out ≠ []) →
    entered first (outs.map some) = (outs.takeWhile fun out => out.head? ≠ some 0xFF).flatten
  | [], _, _ => rfl
  | [[]], _, _ => by simp [entered]
  | [] :: _ :: _, _, h => absurd rfl (h [] List.mem_cons_self)
  | (x :: xs) :: outs, first, h => by
    have ih := entered_nonempty outs x fun out hout => h out (mem_dropLast_cons hout)
    by_cases hx : x = 0xFF
    · simp [entered, hx]
    · simp [entered, hx, ih]

/-- Without 0xFF there is no chunk that a read does not enter. -/
theorem entered_clean : ∀ (outs : List Str) (first : UInt8), first ≠ 0xFF → 0xFF ∉ outs.flatten →
    entered first (outs.map some) = outs.flatten
  | [], _, _, _ => rfl
  | out :: outs, first, hfirst, hff => by
    rw [List.flatten_cons, List.mem_append, not_or] at hff
    have hhead : out.headD first ≠ 0xFF := by
      cases out with
      | nil => exact hfirst
      | cons x xs =>
        intro hx
        exact hff.1 (hx ▸ List.mem_cons_self)
    rw [List.map_cons, entered, if_neg hhead, entered_clean outs _ hhead hff.2, List.flatten_cons]

/-- Passing chunks passes their contents. -/
theorem Passes.flatten {k k' : Nat} {text : Str} (h : f.Passes Z k text k') (hk : k ≤ (f.contents Z).length) :
    k' ≤ (f.contents Z).length ∧
      ((f.contents Z).take k').flatten = ((f.contents Z).take k).flatten ++ text := by
  induction h with
  | refl k => exact ⟨hk, by simp⟩
  | @chunk k k' out text hload hpass ih =>
    have hget := getElem?_contents hk
    rw [hload] at hget
    obtain ⟨hlt, hout⟩ := List.getElem?_eq_some_iff.mp hget
    obtain ⟨hk', htext⟩ := ih hlt
    refine ⟨hk', ?_⟩
    rw [htext, List.take_succ_eq_append_getElem hlt, hout, List.flatten_append]
    simp

end DzFile

end AlpinoCorpus
