/-
The smallest zlib there is: `deflate` stores its input in blocks as it is,
and `inflate` knows stored blocks only. Like the real one it hands over as
much as fits and keeps the rest for the next call.

It stands for zlib where a concrete one is needed. With empty blocks in
front of the data (`pads`), which the format allows, a flush can be made as
long as one likes.
-/
import AlpinoCorpus.DzOstreamFacts

namespace AlpinoCorpus

namespace Stored

open DzOstreamBuf (put16)

/-- A stored block: the length, its complement and the bytes. -/
def block (xs : Str) : Str := 0 :: put16 xs.length ++ put16 (65535 - xs.length) ++ xs

/-- The blocks one after another. The last may be cut, in its header or in
its data: the rest is still to come. -/
def inflateBlocks : Nat → Str → ZRet × Str
  | fuel + 1, h :: l₀ :: l₁ :: n₀ :: n₁ :: z =>
    let len := l₀.toNat + 256 * l₁.toNat
    if 1 < h.toNat ∨ n₀.toNat + 256 * n₁.toNat ≠ 65535 - len then (.error, [])
    else if h = 1 ∧ len ≤ z.length then (.streamEnd, z.take len)
    else
      let (ret, out) := inflateBlocks fuel (z.drop len)
      (ret, z.take len ++ out)
  | _, _ => (.ok, [])

/-- One byte of CRC-32, the polynomial reversed. -/
def crcByte (c : UInt32) (x : UInt8) : UInt32 :=
  (List.range 8).foldl (fun c _ => if c &&& 1 = 1 then (c >>> 1) ^^^ 0xedb88320 else c >>> 1) (c ^^^ x.toUInt32)

def crc32 (c : UInt32) (xs : Str) : UInt32 := ~~~ xs.foldl crcByte (~~~ c)

/-- What a full flush of `xs` has to hand over, what an earlier one left
first. -/
def flushed (pads : Nat) (pending xs : Str) : Str :=
  pending ++ ((List.replicate pads [] ++ [xs, []]).map block).flatten

def zlib (pads : Nat) : Zlib where
  Stream := Str
  init := []
  deflate pending xs n
    | .fullFlush =>
      ⟨.ok, (flushed pads pending xs).take n, xs.length, none, (flushed pads pending xs).drop n⟩
    | .finish =>
      let last := pending ++ [1, 0, 0, 0xff, 0xff]
      ⟨if last.length ≤ n then .streamEnd else .ok, last.take n, 0, none, last.drop n⟩
  deflate_le _ _ n f := by cases f <;> exact List.length_take_le n _
  inflate z n :=
    if z = [] then ⟨true, .error, [], true, none⟩
    else ⟨true, (inflateBlocks z.length z).1, (inflateBlocks z.length z).2.take n, true,
      if (inflateBlocks z.length z).1 = .error then some (str "invalid block type") else none⟩
  inflate_le z n := by
    split
    · exact Nat.zero_le n
    · exact List.length_take_le n _
  crc32 := crc32

/-- A dictzip file of these chunks, without a trailer. -/
def file (chunkLen : Nat) (chunks : List Str) : Str :=
  [0x1f, 0x8b, 8, 4, 0, 0, 0, 0, 2, 3] ++ put16 (10 + 2 * chunks.length) ++ str "RA" ++
    put16 (6 + 2 * chunks.length) ++ put16 1 ++ put16 chunkLen ++ put16 chunks.length ++
    (chunks.map fun chunk => put16 chunk.length).flatten ++ chunks.flatten

theorem length_block (xs : Str) : (block xs).length = xs.length + 5 := by
  simp [block, put16]

/-- A block header, read back. -/
theorem inflateBlocks_header {fuel len : Nat} (h : len < 65536) (z : Str) :
    inflateBlocks (fuel + 1) (0 :: put16 len ++ put16 (65535 - len) ++ z) =
      ((inflateBlocks fuel (z.drop len)).1, z.take len ++ (inflateBlocks fuel (z.drop len)).2) := by
  have hlo : ∀ n, n < 65536 → (UInt8.ofNat (n % 256)).toNat + 256 * (UInt8.ofNat (n / 256)).toNat = n := by
    intro n hn
    rw [UInt8.toNat_ofNat', UInt8.toNat_ofNat']
    omega
  simp only [put16, List.cons_append, List.nil_append, inflateBlocks, hlo len h, hlo (65535 - len) (by omega)]
  rw [if_neg (by simp), if_neg (by simp)]

theorem inflateBlocks_block {fuel : Nat} {xs : Str} (h : xs.length < 65536) (z : Str) :
    inflateBlocks (fuel + 1) (block xs ++ z) = ((inflateBlocks fuel z).1, xs ++ (inflateBlocks fuel z).2) := by
  have hheader : inflateBlocks (fuel + 1) (0 :: put16 xs.length ++ put16 (65535 - xs.length) ++ (xs ++ z)) = _ :=
    inflateBlocks_header h (xs ++ z)
  rw [List.drop_left, List.take_left, ← List.append_assoc] at hheader
  exact hheader

/-- Whole blocks, and whatever comes after them. -/
theorem inflateBlocks_blocks : ∀ (bs : List Str) (fuel : Nat) (z : Str), (∀ xs ∈ bs, xs.length < 65536) →
    inflateBlocks (bs.length + fuel) ((bs.map block).flatten ++ z) =
      ((inflateBlocks fuel z).1, bs.flatten ++ (inflateBlocks fuel z).2)
  | [], fuel, z, _ => by simp
  | xs :: bs, fuel, z, h => by
    rw [List.map_cons, List.flatten_cons, List.append_assoc, List.length_cons, Nat.add_right_comm,
      inflateBlocks_block (h xs (by simp)), inflateBlocks_blocks bs fuel z fun ys hy => h ys (List.mem_cons_of_mem _ hy),
      List.flatten_cons, List.append_assoc]

theorem inflateBlocks_nil (fuel : Nat) : inflateBlocks fuel [] = (.ok, []) := by cases fuel <;> rfl

/-- The header of a block takes five bytes. -/
theorem length_inflateBlocks : ∀ (fuel : Nat) (z : Str),
    (inflateBlocks fuel z).2 = [] ∨ (inflateBlocks fuel z).2.length + 5 ≤ z.length
  | fuel + 1, h :: l₀ :: l₁ :: n₀ :: n₁ :: z => by
    simp only [inflateBlocks]
    split
    · exact .inl rfl
    · right
      split
      · simp only [List.length_take, List.length_cons]
        omega
      · have ih := length_inflateBlocks fuel (z.drop (l₀.toNat + 256 * l₁.toNat))
        rw [List.length_drop] at ih
        simp only [List.length_append, List.length_take, List.length_cons]
        rcases ih with ih | ih
        · rw [ih, List.length_nil]
          omega
        · omega
  | 0, _ => .inl rfl
  | _ + 1, [] | _ + 1, [_] | _ + 1, [_, _] | _ + 1, [_, _, _] | _ + 1, [_, _, _, _] => .inl rfl

/-- There are no more blocks than bytes. -/
theorem length_blocks_le (bs : List Str) : bs.length ≤ ((bs.map block).flatten).length := by
  induction bs with
  | nil => exact Nat.zero_le _
  | cons xs bs ih =>
    rw [List.map_cons, List.flatten_cons, List.length_append, length_block, List.length_cons]
    omega

theorem length_flushed (pads : Nat) (pending xs : Str) :
    (flushed pads pending xs).length = pending.length + 5 * pads + xs.length + 10 := by
  have hpads : ((List.replicate pads ([] : Str)).map block).flatten.length = 5 * pads := by
    induction pads with
    | zero => rfl
    | succ pads ih =>
      rw [List.replicate_succ, List.map_cons, List.flatten_cons, List.length_append, ih, length_block, List.length_nil]
      omega
  rw [flushed, List.map_append, List.flatten_append, List.length_append, List.length_append, hpads]
  simp only [List.map_cons, List.map_nil, List.flatten_cons, List.flatten_nil, List.length_append, length_block,
    List.length_nil]
  omega

/-- Blocks inflate to what they hold. -/
theorem inflate_blocks (pads : Nat) {bs : List Str} (hne : bs ≠ []) (h : ∀ xs ∈ bs, xs.length < 65536) {n : Nat}
    (hn : bs.flatten.length ≤ n) :
    (zlib pads).inflate (bs.map block).flatten n = ⟨true, .ok, bs.flatten, true, none⟩ := by
  have hz : (bs.map block).flatten ≠ [] := by
    intro hnil
    have := length_blocks_le bs
    rw [hnil, List.length_nil] at this
    exact hne (List.length_eq_zero_iff.mp (by omega))
  obtain ⟨fuel, hfuel⟩ := Nat.exists_eq_add_of_le (length_blocks_le bs)
  have hb := inflateBlocks_blocks bs fuel [] h
  rw [List.append_nil, ← hfuel, inflateBlocks_nil, List.append_nil] at hb
  simp only [zlib, if_neg hz, hb, List.take_of_length_le hn, reduceCtorEq, if_false]

/-- A text that fits in one chunk with the headers of its two blocks. -/
theorem putAreas {text : Str} (h : text.length + 10 ≤ dzPrefUncompressedSize) : PutAreas (zlib 0) text := by
  refine ⟨fun _ _ _ => rfl, fun areas a hpre => ?_⟩
  rw [Pieces.pieces_of_le (by omega)] at hpre
  obtain ⟨rfl, rfl⟩ : areas = [] ∧ a = text := by
    have hlen := hpre.length_le
    rw [List.length_append, List.length_singleton, List.length_singleton] at hlen
    obtain rfl := List.length_eq_zero_iff.mp (show areas.length = 0 by omega)
    simpa using hpre
  have hfit : ((zlib 0).deflate [] a dzPrefUncompressedSize .fullFlush).out = ([a, []].map block).flatten :=
    List.take_of_length_le (by rw [length_flushed, List.length_nil]; omega)
  have hlt : ∀ xs ∈ [a, []], xs.length < 65536 := by
    have hmax : dzPrefUncompressedSize < 65536 := by decide
    rw [List.forall_mem_cons, List.forall_mem_singleton]
    exact ⟨by omega, by decide⟩
  have hinf := inflate_blocks 0 (List.cons_ne_nil a [[]]) hlt (n := dzPrefUncompressedSize) (by simp; omega)
  have hz : (zlib 0).inflate ((zlib 0).deflate [] a dzPrefUncompressedSize .fullFlush).out dzPrefUncompressedSize =
      ⟨true, .ok, a, true, none⟩ := by
    rw [hfit, hinf]
    simp
  rw [show (DzOstreamBuf.fed (zlib 0) []).zStream = ([] : Str) from rfl]
  constructor <;> rw [hz]
  exact .inl rfl

/-- What is no longer than the room for it does not fill the room. -/
theorem length_inflate_lt {pads n : Nat} {z : Str} (hz : z.length ≤ n + 1) :
    ((zlib pads).inflate z (n + 1)).out.length < n + 1 := by
  simp only [zlib]
  split
  · exact Nat.succ_pos n
  · have := length_inflateBlocks z.length z
    rw [List.length_take]
    rcases this with h | h
    · rw [h, List.length_nil]; omega
    · omega

end Stored

end AlpinoCorpus
