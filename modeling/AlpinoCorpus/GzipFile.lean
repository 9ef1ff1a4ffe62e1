/-
A dictzip file is a gzip file: any program that reads the gzip format gets
the text back that was written, and finds the chunk table in an extra field.

What zlib promises of a whole stream is `Zlib.Streams`: however the input was
cut into calls, the output of all calls is one deflate stream.
-/
import AlpinoCorpus.DzWrites
import AlpinoCorpus.Lib.Gzip

namespace AlpinoCorpus

open Pieces

namespace Zlib

/-- The streams after some full flushes that took all their input, with the
input and the output of all of them. -/
inductive Deflating (Z : Zlib) (room : Nat) : Z.Stream → Str → Str → Prop
  | init : Deflating Z room Z.init [] []
  | flush {s : Z.Stream} {xs zs a : Str} (hs : Deflating Z room s xs zs) (ha : a.length ≤ room)
      (hret : (Z.deflate s a room .fullFlush).ret = .ok) (hall : (Z.deflate s a room .fullFlush).consumed = a.length) :
      Deflating Z room (Z.deflate s a room .fullFlush).stream (xs ++ a) (zs ++ (Z.deflate s a room .fullFlush).out)

/-- The output up to the end of a stream inflates to the input. `inflate`
gives what the stream at the beginning of some bytes inflates to, and what
follows the stream. -/
def Streams (Z : Zlib) (room : Nat) (inflate : Str → Option (Str × Str)) : Prop :=
  ∀ s xs zs, Z.Deflating room s xs zs → (Z.deflate s [] room .finish).ret = .streamEnd →
    ∀ rest, inflate (zs ++ (Z.deflate s [] room .finish).out ++ rest) = some (xs, rest)

end Zlib

namespace DzOstreamBuf

variable {Z : Zlib}

/-- The put areas of the text are deflated one after another, each with all
it has, and after the last the stream is brought to its end. -/
structure Finishes (Z : Zlib) (text : Str) : Prop where
  deflates : Deflates Z text
  all : ∀ areas a, areas ++ [a] <+: pieces dzPrefUncompressedSize text →
    (Z.deflate (fed Z areas).zStream a dzPrefUncompressedSize .fullFlush).consumed = a.length
  ends : (Z.deflate (fed Z (pieces dzPrefUncompressedSize text)).zStream [] dzPrefUncompressedSize .finish).ret = .streamEnd

/-- How long the output of each of these flushes is. -/
def flushLengths (Z : Zlib) (text : Str) : List Nat :=
  (deflated Z Z.init (pieces dzPrefUncompressedSize text)).map List.length

theorem chunks_fed (text : Str) : (fed Z (pieces dzPrefUncompressedSize text)).chunks = flushLengths Z text := by
  rw [fed, (foldl_feed _ _).2]
  rfl

/-- The `RA` field, as `writeChunkInfo` writes it. -/
def chunkField (chunks : List Nat) : Gzip.Subfield :=
  ⟨(82, 65), [1, 0] ++ put16 dzPrefUncompressedSize ++ put16 chunks.length ++ (chunks.map put16).flatten⟩

theorem littleEndian_put16 {n : Nat} (h : n < 2 ^ 16) : Gzip.littleEndian (put16 n) = n := by
  simp only [Gzip.littleEndian, put16, List.map_cons, List.map_nil, Nat.ofDigits_cons, Nat.ofDigits_nil, UInt8.toNat_ofNat']
  omega

theorem littleEndian_put32 (n : Nat) : Gzip.littleEndian (put32 n) = n % 2 ^ 32 := by
  simp only [Gzip.littleEndian, put32, List.map_cons, List.map_nil, Nat.ofDigits_cons, Nat.ofDigits_nil, UInt8.toNat_ofNat']
  omega

theorem length_put16s (chunks : List Nat) : (chunks.map put16).flatten.length = 2 * chunks.length := by
  induction chunks with
  | nil => rfl
  | cons n chunks ih =>
    rw [List.map_cons, List.flatten_cons, List.length_append, ih, List.length_cons, Nat.mul_succ, Nat.add_comm]
    rfl

/-- As long as its length can be written, the table is read back. -/
theorem extraField_writeChunkInfo {chunks : List Nat} (h : chunks.length ≤ 32762) (rest : Str) :
    Gzip.extraField (writeChunkInfo chunks ++ rest) = some ([chunkField chunks], rest) := by
  have hdata : (chunkField chunks).data.length = 6 + 2 * chunks.length := by
    simp only [chunkField, List.length_append, length_put16s]
    simp only [List.length_cons, List.length_nil, put16]
  have hlen : Gzip.littleEndian (put16 (6 + 2 * chunks.length)) = (chunkField chunks).data.length := by
    rw [littleEndian_put16 (by omega), hdata]
  have hxlen : Gzip.littleEndian (put16 (10 + 2 * chunks.length)) = (chunkField chunks).data.length + 4 := by
    rw [littleEndian_put16 (by omega), hdata]
    omega
  have hwrite : writeChunkInfo chunks ++ rest = put16 (10 + 2 * chunks.length) ++ [82, 65] ++ put16 (6 + 2 * chunks.length) ++
      ((chunkField chunks).data ++ rest) := by
    simp only [writeChunkInfo, chunkField, List.append_assoc]
    rfl
  rw [hwrite]
  exact Gzip.extraField_single hlen hxlen

/-- The areas that have been fed are one stream. -/
theorem deflating_fed {areas : List Str} (hle : ∀ a ∈ areas, a.length ≤ dzPrefUncompressedSize) (hd : FlushesAll Z areas)
    (hall : ∀ before a, before ++ [a] <+: areas →
      (Z.deflate (fed Z before).zStream a dzPrefUncompressedSize .fullFlush).consumed = a.length) :
    Z.Deflating dzPrefUncompressedSize (fed Z areas).zStream areas.flatten (fed Z areas).zData := by
  induction areas using List.reverseRecOn with
  | nil => exact .init
  | append_singleton areas a ih =>
    have hpre := fun {before : List Str} (h : before <+: areas) => h.trans (List.prefix_append areas [a])
    have hs := ih (fun x hx => hle x (List.mem_append_left _ hx)) (fun before x h => hd before x (hpre h))
      fun before x h => hall before x (hpre h)
    rw [fed_append, List.flatten_append, List.flatten_singleton]
    exact hs.flush (hle a (by simp)) (hd areas a List.prefix_rfl) (hall areas a List.prefix_rfl)

/-- **The file is a gzip file** of what has been written, however it was
split into writes: a header, the table of the chunks as they were flushed in
a field of its own, one deflate stream, and the checksum and the length of
the text. -/
theorem close_gzip {inflate : Str → Option (Str × Str)} (hstream : Z.Streams dzPrefUncompressedSize inflate)
    (hcrc : CrcComposes Z) (ws : List Write) (hfew : (bytesOf ws).length ≤ 32762 * dzPrefUncompressedSize)
    (hfin : Finishes Z (bytesOf ws)) :
    (flushLengths Z (bytesOf ws)).length = (pieces dzPrefUncompressedSize (bytesOf ws)).length ∧
      ∃ b, (openFile Z).writes ws = (.ok (), b) ∧ ∀ secs,
        Gzip.decode inflate (Z.crc32 0) (b.close secs) = some ⟨[chunkField (flushLengths Z (bytesOf ws))], bytesOf ws⟩ := by
  have hlt : (bytesOf ws).length < 2 ^ 31 := by
    unfold dzPrefUncompressedSize at hfew
    omega
  obtain ⟨b, areas, hrun, hw, ht⟩ := writes_wrote ws wrote_openFile hfin.deflates hlt
  have ht : b.text areas = bytesOf ws := ht
  have hlengths : (flushLengths Z (bytesOf ws)).length = (pieces dzPrefUncompressedSize (bytesOf ws)).length := by
    rw [← chunks_fed]
    exact length_fed_chunks _
  refine ⟨hlengths, b, hrun, fun secs => ?_⟩
  have hclose := close_wrote hw (ht.symm ▸ hfin.deflates) secs
  simp only [ht] at hclose
  set b' := fed Z (pieces dzPrefUncompressedSize (bytesOf ws)) with hb'
  have hchunks : b'.chunks = flushLengths Z (bytesOf ws) := chunks_fed _
  have hfit : (flushLengths Z (bytesOf ws)).length ≤ 32762 := by
    rw [hlengths]
    exact length_pieces_le (by decide) 32761 _ hfew
  have hdeflating := deflating_fed (fun a => length_le_of_mem_pieces (by decide)) hfin.deflates hfin.all
  rw [pieces_flatten, ← hb'] at hdeflating
  have hinflate := hstream _ _ _ hdeflating hfin.ends b'.writeTrailer
  have hsum : Gzip.littleEndian (put32 b'.crc32.toNat) = (Z.crc32 0 (bytesOf ws)).toNat := by
    rw [littleEndian_put32, hb', fed_crc hcrc, pieces_flatten]
    exact Nat.mod_eq_of_lt (UInt32.toNat_lt _)
  have hsize : Gzip.littleEndian (put32 b'.size) = (bytesOf ws).length % 2 ^ 32 := by
    rw [littleEndian_put32, hb', fed_size, pieces_flatten]
  rw [hclose, hchunks, List.append_assoc, List.append_assoc]
  refine Gzip.decode_extra rfl (extraField_writeChunkInfo hfit _) ?_
  exact Gzip.body_trailer hinflate rfl rfl hsum hsize

end DzOstreamBuf

namespace Stored

open DzOstreamBuf (put16 littleEndian_put16)

/-- The blocks up to the last one, and what follows it. -/
def inflateStream : Nat → Str → Option (Str × Str)
  | fuel + 1, h :: l₀ :: l₁ :: n₀ :: n₁ :: z =>
    let len := Gzip.littleEndian [l₀, l₁]
    if 1 < h.toNat ∨ Gzip.littleEndian [n₀, n₁] ≠ 65535 - len ∨ z.length < len then none
    else if h = 1 then some (z.take len, z.drop len)
    else (inflateStream fuel (z.drop len)).map fun (out, rest) => (z.take len ++ out, rest)
  | _, _ => none

theorem inflateStream_block {fuel : Nat} {xs : Str} (h : xs.length < 65536) (z : Str) :
    inflateStream (fuel + 1) (block xs ++ z) = (inflateStream fuel z).map fun (out, rest) => (xs ++ out, rest) := by
  have hlen : Gzip.littleEndian [UInt8.ofNat (xs.length % 256), UInt8.ofNat (xs.length / 256)] = xs.length :=
    littleEndian_put16 h
  have hinv : Gzip.littleEndian [UInt8.ofNat ((65535 - xs.length) % 256), UInt8.ofNat ((65535 - xs.length) / 256)] =
      65535 - xs.length := littleEndian_put16 (by omega)
  simp only [block, put16, List.cons_append, List.nil_append, inflateStream, hlen, hinv]
  rw [if_neg (by simp), if_neg (by decide), List.take_left, List.drop_left]

theorem inflateStream_blocks {bs : List Str} (h : ∀ xs ∈ bs, xs.length < 65536) (fuel : Nat) (rest : Str) :
    inflateStream (bs.length + (fuel + 1)) ((bs.map block).flatten ++ ([1, 0, 0, 0xff, 0xff] ++ rest)) =
      some (bs.flatten, rest) := by
  induction bs with
  | nil => simp [inflateStream, Gzip.littleEndian, Nat.ofDigits]
  | cons xs bs ih =>
    rw [List.map_cons, List.flatten_cons, List.append_assoc, List.length_cons, Nat.add_right_comm,
      inflateStream_block (h xs (by simp)), ih fun ys hy => h ys (List.mem_cons_of_mem _ hy)]
    rfl

/-- What is kept for the next call. -/
def pending {pads : Nat} (s : (zlib pads).Stream) : Str := s

/-- What has been handed over and what is pending are blocks of the input. -/
theorem deflating_blocks {pads room : Nat} (hroom : room < 65536) {s : (zlib pads).Stream} {xs zs : Str}
    (h : (zlib pads).Deflating room s xs zs) :
    ∃ bs : List Str, (∀ ys ∈ bs, ys.length < 65536) ∧ zs ++ pending s = (bs.map block).flatten ∧ bs.flatten = xs := by
  induction h with
  | init => exact ⟨[], by simp, rfl, rfl⟩
  | @flush s xs zs a _ ha _ _ ih =>
    obtain ⟨bs, hlens, hout, rfl⟩ := ih
    refine ⟨bs ++ (List.replicate pads [] ++ [a, []]), ?_, ?_, by simp⟩
    · intro ys hys
      simp only [List.mem_append, List.mem_replicate, List.mem_cons, List.not_mem_nil, or_false] at hys
      rcases hys with hys | ⟨-, rfl⟩ | rfl | rfl
      · exact hlens ys hys
      · decide
      · omega
      · decide
    · have htake : (flushed pads (pending s) a).take room ++ (flushed pads (pending s) a).drop room =
          flushed pads (pending s) a := List.take_append_drop room _
      rw [List.map_append, List.flatten_append, ← hout, List.append_assoc, List.append_assoc]
      exact congrArg (zs ++ ·) htake

/-- Stored blocks, up to the last one, are a stream. -/
theorem streams {pads room : Nat} (hroom : room < 65536) :
    (zlib pads).Streams room fun z => inflateStream z.length z := by
  intro s xs zs h hend rest
  obtain ⟨bs, hlens, hout, rfl⟩ := deflating_blocks hroom h
  have hfit : (pending s ++ [1, 0, 0, 0xff, 0xff]).length ≤ room := by
    by_contra hlong
    exact absurd ((if_neg hlong).symm.trans hend) (by decide : ZRet.ok ≠ .streamEnd)
  have hz : zs ++ ((zlib pads).deflate s [] room .finish).out ++ rest =
      (bs.map block).flatten ++ ([1, 0, 0, 0xff, 0xff] ++ rest) := by
    have hlast : ((zlib pads).deflate s [] room .finish).out = pending s ++ [1, 0, 0, 0xff, 0xff] :=
      List.take_of_length_le hfit
    rw [hlast, ← List.append_assoc, hout, List.append_assoc]
  obtain ⟨fuel, hfuel⟩ := Nat.exists_eq_add_of_le (length_blocks_le bs)
  have hlength : ((bs.map block).flatten ++ ([1, 0, 0, 0xff, 0xff] ++ rest)).length =
      bs.length + ((fuel + rest.length + 4) + 1) := by
    rw [List.length_append, hfuel]
    simp only [List.length_append, List.length_cons, List.length_nil]
    omega
  simp only [hz, hlength]
  exact inflateStream_blocks hlens _ rest

end Stored

namespace DzOstreamBuf

theorem sample_finishes : Finishes (Stored.zlib 0) (bytesOf sampleWrites) where
  deflates := fun _ _ _ => rfl
  all := fun _ _ _ => rfl
  ends := by
    rw [pieces_of_le (by decide)]
    decide +kernel

theorem sample_close_gzip :
    (flushLengths (Stored.zlib 0) (bytesOf sampleWrites)).length = (pieces dzPrefUncompressedSize (bytesOf sampleWrites)).length ∧
      ∃ b, (openFile (Stored.zlib 0)).writes sampleWrites = (.ok (), b) ∧ ∀ secs,
        Gzip.decode (fun z => Stored.inflateStream z.length z) ((Stored.zlib 0).crc32 0) (b.close secs) =
          some ⟨[chunkField (flushLengths (Stored.zlib 0) (bytesOf sampleWrites))], bytesOf sampleWrites⟩ :=
  close_gzip (Stored.streams (by decide)) (crcComposes_stored 0) sampleWrites (by decide) sample_finishes

end DzOstreamBuf

end AlpinoCorpus
