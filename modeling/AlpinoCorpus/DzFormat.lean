/-
The dictzip header: what the writer puts before the data, the reader's
constructor gets back (`openFile_written`).
-/
import AlpinoCorpus.DzOstream
import AlpinoCorpus.DzIstream
import AlpinoCorpus.Lib.Pieces

namespace AlpinoCorpus

open Stdio Pieces

/-- Chunks of the given sizes, one after another. -/
def chunkTable (chunkPos : Nat) (sizes : List Nat) : List DzChunk :=
  List.zipWith DzChunk.mk (starts chunkPos sizes) sizes

namespace DzFile

open DzOstreamBuf

theorem length_put16 (n : Nat) : (put16 n).length = 2 := rfl

/-- A field of two bytes holds a number modulo 65536. -/
theorem get16_put16_mod {f : FileIn} {n : Nat} {ys : Str} (h : f.rest = put16 n ++ ys) :
    get16 f = (((n % 65536 : Nat) : Int), f.skip 2) := by
  have h₁ : f.rest = UInt8.ofNat (n % 256) :: (UInt8.ofNat (n / 256) :: ys) := h
  have h₂ : (f.skip 1).rest = UInt8.ofNat (n / 256) :: ys :=
    FileIn.rest_skip [UInt8.ofNat (n % 256)] h₁
  have hlo : (UInt8.ofNat (n % 256)).toNat = n % 256 := UInt8.toNat_ofNat_of_lt' (by simp [UInt8.size]; omega)
  have hhi : (UInt8.ofNat (n / 256)).toNat = n / 256 % 256 := UInt8.toNat_ofNat'
  simp only [get16, FileIn.fgetc_cons h₁, FileIn.fgetc_cons h₂, hlo, hhi, FileIn.skip_skip]
  congr 1
  omega

theorem get16_put16 {f : FileIn} {n : Nat} {ys : Str} (h : f.rest = put16 n ++ ys) (hn : n < 65536) :
    get16 f = ((n : Int), f.skip 2) := by
  rw [get16_put16_mod h, Nat.mod_eq_of_lt hn]

theorem put16_mod (n : Nat) : put16 (n % 65536) = put16 n := by
  have hhi : UInt8.ofNat (n % 65536 / 256) = UInt8.ofNat (n / 256) := by
    apply UInt8.toNat_inj.mp
    simp only [UInt8.toNat_ofNat']
    omega
  rw [put16, put16, hhi, Nat.mod_mod_of_dvd _ (by decide)]

theorem rest_put16 {f : FileIn} {n : Nat} {ys : Str} (h : f.rest = put16 n ++ ys) : (f.skip 2).rest = ys :=
  FileIn.rest_skip (put16 n) h

/-- The table of chunk sizes that `writeChunkInfo` writes. -/
theorem readChunks_written : ∀ (sizes : List Nat) (f : FileIn) (chunkPos : Nat) (ys : Str),
    f.rest = (sizes.map put16).flatten ++ ys → (∀ s ∈ sizes, s < 65536) → chunkPos + sizes.sum < 2 ^ 64 →
    readChunks sizes.length f chunkPos = (chunkTable chunkPos sizes, f.skip (2 * sizes.length))
  | [], f, chunkPos, ys, _, _, _ => rfl
  | s :: sizes, f, chunkPos, ys, h, hlt, hsum => by
    rw [List.map_cons, List.flatten_cons, List.append_assoc] at h
    rw [List.sum_cons] at hsum
    have hs : s < 65536 := hlt s (by simp)
    have ih := readChunks_written sizes (f.skip 2) (chunkPos + s) ys (rest_put16 h) (fun x hx => hlt x (by simp [hx]))
      (by omega)
    simp only [List.length_cons, readChunks, get16_put16 h hs, sizeT_of_lt (i := s) (by omega),
      Nat.mod_eq_of_lt (show chunkPos + s < 2 ^ 64 by omega), ih, FileIn.skip_skip, chunkTable, starts,
      List.zipWith_cons_cons]
    congr 2
    omega

/-- The `RA` field, from its version number on. -/
theorem readRA_written {x : Extra} {f : FileIn} {sizes : List Nat} (ys : Str) (hx : x.chunks = [])
    (h : f.rest = [1, 0] ++ put16 dzPrefUncompressedSize ++ put16 sizes.length ++ (sizes.map put16).flatten ++ ys)
    (hlt : ∀ s ∈ sizes, s < 65536) (hn : sizes.length < 65536) :
    readRA x f = .ok ⟨f.skip (6 + 2 * sizes.length), some dzPrefUncompressedSize, chunkTable 0 sizes⟩ := by
  simp only [List.append_assoc] at h
  have hsum : sizes.sum ≤ sizes.length * 65536 := by
    have := List.sum_le_card_nsmul sizes 65536 (fun s hs => Nat.le_of_lt (hlt s hs))
    simpa using this
  have h₁ : f.rest = put16 1 ++ _ := h
  have h₂ := rest_put16 h₁
  have h₃ := rest_put16 h₂
  have h₄ := rest_put16 h₃
  have hread := readChunks_written sizes _ 0 ys h₄ hlt (by omega)
  simp only [readRA, get16_put16 h₁ (by omega), get16_put16 h₂ (by decide), get16_put16 h₃ hn,
    sizeT_of_lt (i := dzPrefUncompressedSize) (by decide), sizeT_of_lt (i := sizes.length) (by omega), hread]
  rw [hx, if_neg (by simp), if_neg (by decide),
    if_neg (by simp only [maxChunks, ptrdiffMax, List.length_nil]; omega)]
  simp only [FileIn.skip_skip, List.nil_append, show 2 + 2 + 2 + 2 * sizes.length = 6 + 2 * sizes.length by omega]

/-- The header bytes that the reader looks at. -/
theorem readHeader_written {secs : Nat} {ys : Str} :
    readHeader ⟨writeHeader secs ++ ys, 0⟩ = .ok (writeHeader secs, ⟨writeHeader secs ++ ys, 10⟩) := by
  have h : FileIn.rest ⟨writeHeader secs ++ ys, 0⟩ = writeHeader secs ++ ys := rfl
  have hlen : (writeHeader secs).length = 10 := by simp [writeHeader, put32]
  have hread := FileIn.fread_append h
  rw [hlen] at hread
  simp only [readHeader, hread]
  rw [if_neg (by simp [hlen]), if_neg (by simp [writeHeader]), if_neg (by simp [writeHeader]),
    if_neg (by simp [writeHeader])]
  rfl

/-- The extra part for `n` chunks: one field, which the reader takes to be
of `n % 65536` chunks, and after which the loop is done; but no field at
all when the length of the part is written as 0. -/
theorem readExtra_written {f : FileIn} {sizes : List Nat} {ys : Str} (fuel : Nat)
    (h : f.rest = writeChunkInfo sizes ++ ys) (hlt : ∀ s ∈ sizes, s < 65536) :
    readExtra (fuel + 1) f = .ok (if (10 + 2 * sizes.length) % 65536 = 0 then ⟨f.skip 2, none, []⟩
      else ⟨f.skip (12 + 2 * (sizes.length % 65536)), some dzPrefUncompressedSize,
        chunkTable 0 (sizes.take (sizes.length % 65536))⟩) := by
  set r := sizes.length % 65536 with hr
  simp only [writeChunkInfo, List.append_assoc] at h
  have h₁ := rest_put16 h
  simp only [readExtra, get16_put16_mod h, FileIn.skip_pos]
  rw [readExtraLoop]
  by_cases h0 : (10 + 2 * sizes.length) % 65536 = 0
  · rw [if_pos h0, h0, if_neg (by simp)]
  rw [if_neg h0, if_pos (by simp only [FileIn.skip_pos]; omega)]
  have h₂ : ((f.skip 2).skip 2).rest = put16 (6 + 2 * sizes.length) ++ _ := FileIn.rest_skip (str "RA") h₁
  have h₃ := rest_put16 h₂
  have htake : (sizes.take r).length = r := by rw [List.length_take]; omega
  have h₄ : (((f.skip 2).skip 2).skip 2).rest = [1, 0] ++ put16 dzPrefUncompressedSize ++ put16 (sizes.take r).length ++
      ((sizes.take r).map put16).flatten ++ (((sizes.drop r).map put16).flatten ++ ys) := by
    rw [htake, h₃, hr, put16_mod, ← hr, List.append_assoc _ (List.flatten _), ← List.append_assoc (List.flatten _),
      ← List.flatten_append, ← List.map_append, List.take_append_drop]
    simp only [List.append_assoc]
  have hra : readRA ⟨f.skip 2, none, []⟩ _ = _ :=
    readRA_written _ rfl h₄ (fun s hs => hlt s (List.mem_of_mem_take hs)) (by omega)
  have hfread : (f.skip 2).fread 2 = (str "RA", (f.skip 2).skip 2) := FileIn.fread_append h₁
  have hfield : readField ⟨f.skip 2, none, []⟩ =
      .ok ⟨f.skip (12 + 2 * r), some dzPrefUncompressedSize, chunkTable 0 (sizes.take r)⟩ := by
    simp only [readField, hfread, get16_put16_mod h₂]
    rw [if_neg (by decide), if_pos trivial, hra, htake]
    simp only [FileIn.skip_skip, show 2 + 2 + 2 + (6 + 2 * r) = 12 + 2 * r by omega]
  rw [hfield]
  show readExtraLoop fuel _ _ = _
  unfold readExtraLoop
  rw [if_neg (by simp only [FileIn.skip_pos]; omega)]

theorem length_writeHeader (secs : Nat) : (writeHeader secs).length = 10 := by simp [writeHeader, put32]

theorem length_writeChunkInfo (sizes : List Nat) : (writeChunkInfo sizes).length = 12 + 2 * sizes.length := by
  have hsum : ((sizes.map put16).map List.length).sum = 2 * sizes.length := by
    simp [length_put16, Function.comp_def, Nat.mul_comm]
  simp only [writeChunkInfo, List.length_append, List.length_flatten, length_put16, hsum]
  simp [str]

/-- A written header flags no optional part. -/
theorem skipOptional_written (fuel secs : Nat) (f : FileIn) : skipOptional fuel (writeHeader secs) f = .ok f := by
  have hflags : (writeHeader secs).getD 3 0 = 4 := rfl
  simp only [skipOptional, hflags]
  rfl

/-- What the constructor reads of a written header. -/
theorem openFile_header (secs : Nat) {sizes : List Nat} (body : Str) (fuel : Nat) (hlt : ∀ s ∈ sizes, s < 65536) :
    openFile (fuel + 1) (writeHeader secs ++ writeChunkInfo sizes ++ body) =
      .ok (if (10 + 2 * sizes.length) % 65536 = 0 then
          ⟨writeHeader secs ++ writeChunkInfo sizes ++ body, none, 12, []⟩
        else ⟨writeHeader secs ++ writeChunkInfo sizes ++ body, some dzPrefUncompressedSize,
          22 + 2 * (sizes.length % 65536), chunkTable 0 (sizes.take (sizes.length % 65536))⟩) := by
  have hrest : FileIn.rest ⟨writeHeader secs ++ (writeChunkInfo sizes ++ body), 10⟩ = writeChunkInfo sizes ++ body := by
    rw [FileIn.rest, ← length_writeHeader secs, List.drop_left]
  rw [List.append_assoc]
  simp only [openFile, readHeader_written, readExtra_written fuel hrest hlt, bind, Except.bind, skipOptional_written]
  by_cases h0 : (10 + 2 * sizes.length) % 65536 = 0
  · simp only [if_pos h0, FileIn.skip_pos]
  · simp only [if_neg h0, FileIn.skip_pos]
    congr 2
    omega

/-- **What the writer writes, the constructor reads.** The chunk table has
the sizes of the deflated chunks, and the data start after the header. -/
theorem openFile_written (secs : Nat) {sizes : List Nat} (body : Str) {fuel : Nat} (hfuel : 0 < fuel)
    (hlt : ∀ s ∈ sizes, s < 65536) (hn : sizes.length ≤ 32762) :
    openFile fuel (writeHeader secs ++ writeChunkInfo sizes ++ body) =
      .ok ⟨writeHeader secs ++ writeChunkInfo sizes ++ body, some dzPrefUncompressedSize,
        (writeHeader secs ++ writeChunkInfo sizes).length, chunkTable 0 sizes⟩ := by
  obtain ⟨fuel, rfl⟩ : ∃ k, fuel = k + 1 := ⟨fuel - 1, by omega⟩
  rw [openFile_header secs body fuel hlt, if_neg (by omega), Nat.mod_eq_of_lt (by omega), List.take_length,
    List.length_append, length_writeHeader, length_writeChunkInfo]
  congr 2
  omega

/-- The constructor gets back, from a header with a chunk table, the table
and the place where it ends. -/
def Recovered (secs : Nat) (sizes : List Nat) (body : Str) : Prop :=
  ∀ fuel, openFile (fuel + 1) (writeHeader secs ++ writeChunkInfo sizes ++ body) =
    .ok ⟨writeHeader secs ++ writeChunkInfo sizes ++ body, some dzPrefUncompressedSize,
      (writeHeader secs ++ writeChunkInfo sizes).length, List.zipWith DzChunk.mk (starts 0 sizes) sizes⟩

theorem length_chunkTable (chunkPos : Nat) : ∀ sizes : List Nat, (chunkTable chunkPos sizes).length = sizes.length := by
  intro sizes
  simp [chunkTable, length_starts]

/-- The numbers of chunks for which the length of the extra part is not
written as 0, and the number of chunks fits in its field. -/
theorem recovered_of_length {sizes : List Nat} (hlt : ∀ s ∈ sizes, s < 65536) (hn : sizes.length < 65536)
    (h0 : (10 + 2 * sizes.length) % 65536 ≠ 0) (secs : Nat) (body : Str) : Recovered secs sizes body := by
  intro fuel
  rw [openFile_header secs body fuel hlt, if_neg h0, Nat.mod_eq_of_lt hn, List.take_length, List.length_append,
    length_writeHeader, length_writeChunkInfo]
  congr 2
  omega

theorem Recovered.length {sizes : List Nat} {secs : Nat} {body : Str} (h : Recovered secs sizes body)
    (hlt : ∀ s ∈ sizes, s < 65536) : sizes.length < 65536 ∧ (10 + 2 * sizes.length) % 65536 ≠ 0 := by
  have hr := h 0
  rw [openFile_header secs body 0 hlt] at hr
  split at hr
  · cases hr
  · next h0 =>
    simp only [Except.ok.injEq, DzFile.mk.injEq, true_and] at hr
    have hl := congrArg List.length hr.2
    rw [← chunkTable, length_chunkTable, length_chunkTable, List.length_take] at hl
    exact ⟨by omega, h0⟩

/-- **The chunk table is recovered** for every number of chunks below 65536
but the two for which the length of the extra part is a multiple of 65536. -/
theorem recovered_iff (secs : Nat) (sizes : List Nat) (hsizes : ∀ s ∈ sizes, s ≤ dzPrefUncompressedSize) (body : Str) :
    Recovered secs sizes body ↔ sizes.length < 65536 ∧ sizes.length ≠ 32763 ∧ sizes.length ≠ 65531 := by
  have hlt : ∀ s ∈ sizes, s < 65536 := fun s hs => Nat.lt_of_le_of_lt (hsizes s hs) (by decide)
  constructor
  · intro h
    obtain ⟨hn, h0⟩ := h.length hlt
    omega
  · intro h
    exact recovered_of_length hlt h.1 (by omega) secs body

theorem three_chunks_recovered : Recovered 0 [3, 0, 58315] [7] ↔ (3 < 65536 ∧ 3 ≠ 32763 ∧ 3 ≠ 65531) :=
  recovered_iff 0 [3, 0, 58315] (by decide) [7]

/-- 32763 chunks: the extra part is 65536 bytes long, which two bytes do
not hold. -/
theorem full_table_not_recovered :
    (∀ s ∈ List.replicate 32763 58315, s ≤ dzPrefUncompressedSize) ∧
      ¬ Recovered 0 (List.replicate 32763 58315) [] := by
  constructor
  · intro s hs
    exact Nat.le_of_eq (List.eq_of_mem_replicate hs)
  · intro h
    have hlt : ∀ s ∈ List.replicate 32763 58315, s < 65536 := by
      intro s hs
      rw [List.eq_of_mem_replicate hs]; decide
    have := (h.length hlt).2
    rw [List.length_replicate] at this
    exact this (by decide)

end DzFile

end AlpinoCorpus
