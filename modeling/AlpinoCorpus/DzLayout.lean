/-
The extra part of a data file, as bytes: which fields it has, where each
ends, and the chunk tables in them. `fieldAt` says what the loop of
`readExtra` makes of the field at a position, from the bytes alone.

A field moves the loop forward, except one whose two length bytes are cut
off by the end of the file: there `fgetc` gives -1, the length is negative
and `fseek` goes back.
-/
import AlpinoCorpus.DzIstream
import AlpinoCorpus.Lib.Orbit

namespace AlpinoCorpus

open Stdio Orbit

namespace DzFile

/-! ## Bytes at a position -/

/-- `fgetc` at position `p`. -/
def byteAt (bytes : Str) (p : Nat) : Int :=
  match bytes[p]? with
  | some b => b.toNat
  | none => -1

/-- `fgetc() + fgetc() * 256` at position `p`. -/
def word (bytes : Str) (p : Nat) : Int := byteAt bytes p + byteAt bytes (p + 1) * 256

/-- Where `n` calls of `fgetc` leave position `p`. -/
def past (bytes : Str) (p n : Nat) : Nat := max p (min (p + n) bytes.length)

theorem byteAt_bounds (bytes : Str) (p : Nat) :
    -1 ≤ byteAt bytes p ∧ byteAt bytes p ≤ 255 ∧ (bytes.length ≤ p ↔ byteAt bytes p = -1) := by
  unfold byteAt
  split
  · next b hb =>
    have hlt := b.toNat_lt
    have hp := (List.getElem?_eq_some_iff.mp hb).1
    omega
  · next hb =>
    have := List.getElem?_eq_none_iff.mp hb
    omega

theorem word_le (bytes : Str) (p : Nat) : -257 ≤ word bytes p ∧ word bytes p ≤ 65535 := by
  have h₁ := byteAt_bounds bytes p
  have h₂ := byteAt_bounds bytes (p + 1)
  unfold word
  omega

/-- Two bytes are there exactly when the number is not negative. -/
theorem word_nonneg (bytes : Str) (p : Nat) : 0 ≤ word bytes p ↔ p + 2 ≤ bytes.length := by
  have h₁ := byteAt_bounds bytes p
  have h₂ := byteAt_bounds bytes (p + 1)
  unfold word
  omega

theorem word_end {bytes : Str} {p : Nat} (h : bytes.length ≤ p) : word bytes p = -257 := by
  have h₁ := byteAt_bounds bytes p
  have h₂ := byteAt_bounds bytes (p + 1)
  unfold word
  omega

/-- Two bytes on, or at the end of the file, whichever comes first. -/
theorem word_past (bytes : Str) (p i : Nat) : word bytes (past bytes p 2 + i) = word bytes (p + 2 + i) := by
  by_cases hp : p + 2 ≤ bytes.length
  · rw [show past bytes p 2 = p + 2 by unfold past; omega]
  · have hpast : bytes.length ≤ past bytes p 2 := by unfold past; omega
    rw [word_end (by omega), word_end (by omega)]

theorem fgetc_at (bytes : Str) (p : Nat) : FileIn.fgetc ⟨bytes, p⟩ = (byteAt bytes p, ⟨bytes, past bytes p 1⟩) := by
  unfold FileIn.fgetc byteAt past
  cases hb : bytes[p]? with
  | some b =>
    have hp := (List.getElem?_eq_some_iff.mp hb).1
    simp only [FileIn.mk.injEq, Prod.mk.injEq, true_and]
    omega
  | none =>
    have := List.getElem?_eq_none_iff.mp hb
    simp only [FileIn.mk.injEq, Prod.mk.injEq, true_and]
    omega

theorem get16_at (bytes : Str) (p : Nat) : get16 ⟨bytes, p⟩ = (word bytes p, ⟨bytes, past bytes p 2⟩) := by
  have hbyte : byteAt bytes (past bytes p 1) = byteAt bytes (p + 1) := by
    by_cases hp : p < bytes.length
    · congr 1
      unfold past
      omega
    · have h₁ := byteAt_bounds bytes (past bytes p 1)
      have h₂ := byteAt_bounds bytes (p + 1)
      unfold past at *
      omega
  simp only [get16, fgetc_at, word, hbyte]
  congr 2
  unfold past
  omega

theorem fread_at (bytes : Str) (p n : Nat) :
    FileIn.fread n ⟨bytes, p⟩ = ((bytes.drop p).take n, ⟨bytes, past bytes p n⟩) := by
  simp only [FileIn.fread, FileIn.rest, List.length_take, List.length_drop]
  congr 2
  unfold past
  omega

/-! ## Fields -/

/-- The sizes of a chunk table of `n` entries at position `p`. Where the file
has ended an entry is -257 as `size_t`. -/
def sizesAt (bytes : Str) (p n : Nat) : List Nat := (List.range n).map fun i => sizeT (word bytes (p + 2 * i))

/-- Chunks of the given sizes, one after another from `chunkPos`, which is a
`size_t`. -/
def tableFrom : Nat → List Nat → List DzChunk
  | _, [] => []
  | chunkPos, size :: sizes => ⟨chunkPos, size⟩ :: tableFrom ((chunkPos + size) % 2 ^ 64) sizes

/-- A field of the extra part: where the next one starts and, of an `RA`
field, the chunk length and the chunk sizes. -/
structure Field where
  next : Nat
  table : Option (Nat × List Nat)

/-- The field at `p`; none if the constructor throws in it. -/
def fieldAt (bytes : Str) (p : Nat) : Option Field :=
  if bytes.length < p + 2 then none
  else if (bytes.drop p).take 2 = str "RA" then
    if word bytes (p + 4) = 1 ∧ 0 ≤ word bytes (p + 6) ∧ 0 ≤ word bytes (p + 8) then
      let count := (word bytes (p + 8)).toNat
      some ⟨min (p + 10 + 2 * count) bytes.length, some ((word bytes (p + 6)).toNat, sizesAt bytes (p + 10) count)⟩
    else none
  else
    let after := min (p + 4) bytes.length
    some ⟨if 0 ≤ after + word bytes (p + 2) then (after + word bytes (p + 2)).toNat else after, none⟩

theorem length_sizesAt (bytes : Str) (p n : Nat) : (sizesAt bytes p n).length = n := by simp [sizesAt]

theorem length_tableFrom (chunkPos : Nat) (sizes : List Nat) : (tableFrom chunkPos sizes).length = sizes.length := by
  induction sizes generalizing chunkPos with
  | nil => rfl
  | cons size sizes ih => rw [tableFrom, List.length_cons, ih, List.length_cons]

theorem sizesAt_succ (bytes : Str) (p n : Nat) :
    sizesAt bytes p (n + 1) = sizeT (word bytes p) :: sizesAt bytes (past bytes p 2) n := by
  rw [sizesAt, List.range_succ_eq_map, List.map_cons, List.map_map, sizesAt]
  congr 1
  apply List.map_congr_left
  intro i _
  simp only [Function.comp_def, word_past, Nat.mul_succ]
  congr 2
  omega

theorem readChunks_at (bytes : Str) : ∀ (n p chunkPos : Nat), readChunks n ⟨bytes, p⟩ chunkPos =
    (tableFrom chunkPos (sizesAt bytes p n), ⟨bytes, past bytes p (2 * n)⟩)
  | 0, p, chunkPos => by
    simp only [readChunks, sizesAt, List.range_zero, List.map_nil, tableFrom]
    congr 2
    unfold past
    omega
  | n + 1, p, chunkPos => by
    simp only [readChunks, get16_at, readChunks_at bytes n, sizesAt_succ, tableFrom]
    congr 2
    unfold past
    omega

theorem sizeT_of_nonneg {i : Int} (h₀ : 0 ≤ i) (h : i ≤ 65535) : sizeT i = i.toNat := by
  unfold sizeT; omega

theorem sizeT_of_neg {i : Int} (h₀ : -257 ≤ i) (h : i < 0) : ptrdiffMax < sizeT i := by
  unfold sizeT ptrdiffMax; omega

/-- What a field adds to what the loop has read. -/
def Extra.add (x : Extra) (field : Field) : Outcome Extra :=
  match field.table with
  | none => .ok { x with file := { x.file with pos := field.next } }
  | some (chunkLen, sizes) =>
    if x.chunks.length + sizes.length > maxChunks then raise .badAlloc
    else .ok ⟨{ x.file with pos := field.next }, some chunkLen, x.chunks ++ tableFrom 0 sizes⟩

/-- The `RA` field of which the constructor can make sense. -/
theorem readRA_some (x : Extra) {bytes : Str} {p : Nat} (hver : word bytes (p + 4) = 1) (hlen : 0 ≤ word bytes (p + 6))
    (hcount : 0 ≤ word bytes (p + 8)) :
    readRA x ⟨bytes, p + 4⟩ =
      if x.chunks.length + (word bytes (p + 8)).toNat > maxChunks then raise .badAlloc
      else .ok ⟨⟨bytes, min (p + 10 + 2 * (word bytes (p + 8)).toNat) bytes.length⟩, some (word bytes (p + 6)).toNat,
        x.chunks ++ tableFrom 0 (sizesAt bytes (p + 10) (word bytes (p + 8)).toNat)⟩ := by
  have hp := (word_nonneg bytes (p + 8)).mp hcount
  have h6 : past bytes (p + 4) 2 = p + 6 := by unfold past; omega
  have h8 : past bytes (p + 6) 2 = p + 8 := by unfold past; omega
  have h10 : past bytes (p + 8) 2 = p + 10 := by unfold past; omega
  have hb₁ := word_le bytes (p + 6)
  have hb₂ := word_le bytes (p + 8)
  simp only [readRA, get16_at, h6, h8, h10, hver, readChunks_at, sizeT_of_nonneg hlen hb₁.2,
    sizeT_of_nonneg hcount hb₂.2]
  rw [if_neg (by simp), if_neg (by unfold ptrdiffMax; omega)]
  split
  · rfl
  · congr 3
    unfold past
    omega

/-- The `RA` field of another version, or cut off by the end of the file. -/
theorem readRA_none (x : Extra) {bytes : Str} {q : Nat}
    (h : ¬ (word bytes q = 1 ∧ 0 ≤ word bytes (q + 2) ∧ 0 ≤ word bytes (q + 4))) :
    ∃ e, readRA x ⟨bytes, q⟩ = raise e := by
  have h2 : word bytes (past bytes q 2) = word bytes (q + 2) := word_past bytes q 0
  have h4 : word bytes (past bytes (past bytes q 2) 2) = word bytes (q + 4) :=
    (word_past bytes (past bytes q 2) 0).trans (word_past bytes q 2)
  have hb₁ := word_le bytes (q + 2)
  have hb₂ := word_le bytes (q + 4)
  simp only [readRA, get16_at, h2, h4]
  split
  · exact ⟨_, rfl⟩
  next hver =>
  split
  · exact ⟨_, rfl⟩
  next hlen =>
  have hcount : word bytes (q + 4) < 0 := by
    by_contra hcount
    refine h ⟨not_not.mp hver, ?_, by omega⟩
    by_contra hneg
    exact hlen (sizeT_of_neg hb₁.1 (by omega))
  have hbig := sizeT_of_neg hb₂.1 hcount
  rw [if_pos (by unfold maxChunks ptrdiffMax at *; omega)]
  exact ⟨_, rfl⟩

/-- **One round of the loop**, by the field at its position. -/
theorem readField_at (x : Extra) : match fieldAt x.file.bytes x.file.pos with
    | none => ∃ e, readField x = raise e
    | some field => readField x = x.add field := by
  obtain ⟨⟨bytes, p⟩, chunkLen, chunks⟩ := x
  have hlen : ((bytes.drop p).take 2).length = min 2 (bytes.length - p) := by
    rw [List.length_take, List.length_drop]
  by_cases hp : bytes.length < p + 2
  · have hread : readField ⟨⟨bytes, p⟩, chunkLen, chunks⟩ =
        raise (.charPtr (str "DzIstreamBuf::readExtra: could not read extra field header!")) := by
      simp only [readField, fread_at]
      rw [if_pos (by omega)]
    rw [fieldAt, if_pos hp]
    exact ⟨_, hread⟩
  have hpos : past bytes p 2 = p + 2 := by unfold past; omega
  have hafter : past bytes (p + 2) 2 = min (p + 4) bytes.length := by unfold past; omega
  have hread : readField ⟨⟨bytes, p⟩, chunkLen, chunks⟩ = if (bytes.drop p).take 2 = str "RA" then
        readRA ⟨⟨bytes, p⟩, chunkLen, chunks⟩ ⟨bytes, past bytes (p + 2) 2⟩
      else .ok ⟨FileIn.seekCur (word bytes (p + 2)) ⟨bytes, past bytes (p + 2) 2⟩, chunkLen, chunks⟩ := by
    simp only [readField, fread_at, hpos, get16_at]
    rw [if_neg (by omega)]
  by_cases hra : (bytes.drop p).take 2 = str "RA"
  · rw [if_pos hra] at hread
    simp only [fieldAt, if_neg hp, if_pos hra, hread]
    have hword : ∀ i, word bytes (past bytes (p + 2) 2 + i) = word bytes (p + 4 + i) := word_past bytes (p + 2)
    by_cases hok : word bytes (p + 4) = 1 ∧ 0 ≤ word bytes (p + 6) ∧ 0 ≤ word bytes (p + 8)
    · rw [if_pos hok]
      have hp8 := (word_nonneg bytes (p + 8)).mp hok.2.2
      rw [hafter, show min (p + 4) bytes.length = p + 4 by omega, readRA_some _ hok.1 hok.2.1 hok.2.2]
      simp only [Extra.add, length_sizesAt]
    · rw [if_neg hok]
      refine readRA_none _ fun h => hok ?_
      rw [← hword 0, ← hword 2, ← hword 4]
      exact h
  · rw [if_neg hra] at hread
    simp only [fieldAt, if_neg hp, if_neg hra, hread, Extra.add, FileIn.seekCur, hafter]
    split <;> rfl

end DzFile

end AlpinoCorpus
