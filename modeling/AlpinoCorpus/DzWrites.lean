/-
A dictzip stream depends on the bytes written to it alone, not on how they
were split into writes.

`Wrote` of the facts about single writes determines the whole state from
the text, so one step lemma and one run lemma over a list of writes is all
there is to do here.
-/
import AlpinoCorpus.DzOstreamFacts
import AlpinoCorpus.StoredZlib

namespace AlpinoCorpus

open Pieces

/-- A call on the stream buffer: `sputn` of a block or `sputc`. -/
inductive Write
  | block (s : Str)
  | char (c : UInt8)

def Write.bytes : Write → Str
  | block s => s
  | char c => [c]

/-- The concatenation of the writes. -/
def bytesOf (ws : List Write) : Str := (ws.map Write.bytes).flatten

/-- The number that bytes stand for, the least significant byte first. -/
def leValue : Str → Nat
  | [] => 0
  | c :: s => c.toNat + 256 * leValue s

namespace DzOstreamBuf

variable {Z : Zlib}

def write (b : DzOstreamBuf Z) : Write → Outcome Unit × DzOstreamBuf Z
  | .block s => match b.xsputn s with
    | (.ok _, b) => (.ok (), b)
    | (.error e, b) => (.error e, b)
  | .char c => b.sputc c

def writes (b : DzOstreamBuf Z) : List Write → Outcome Unit × DzOstreamBuf Z
  | [] => (.ok (), b)
  | w :: ws => match b.write w with
    | (.ok (), b) => b.writes ws
    | (.error e, b) => (.error e, b)

/-- A single character: the put area is flushed first exactly when it is
full, as it is before a block. -/
theorem sputc_wrote {b : DzOstreamBuf Z} {areas} {c : UInt8} {tail : Str} (h : Wrote b areas)
    (ha : Deflates Z (b.text areas ++ ([c] ++ tail))) :
    ∃ b' areas', b.sputc c = (.ok (), b') ∧ Wrote b' areas' ∧ b'.text areas' = b.text areas ++ [c] := by
  obtain ⟨b₁, areas₁, hroom, hf₁, ht₁⟩ := h.toFlushed.makeRoom (s := [c] ++ tail) (by simp) ha
  have hav := makeRoom_avail hroom
  obtain ⟨hw, ht⟩ := hf₁.push (s := [c]) (by simp) hav
  refine ⟨_, areas₁, ?_, hw, by rw [ht, ht₁]⟩
  unfold makeRoom at hroom
  unfold sputc
  by_cases hb : b.putArea.avail = 0
  · rw [if_pos hb] at hroom
    rw [dif_neg (by omega), overflow, hroom]
    simp only [dif_pos (show 1 ≤ b₁.putArea.avail from hav)]
  · rw [if_neg hb] at hroom
    cases hroom
    rw [dif_pos (show 1 ≤ b.putArea.avail from hav)]

/-- One write of a text. -/
theorem write_wrote {b : DzOstreamBuf Z} {areas} {w : Write} {tail : Str} (h : Wrote b areas)
    (ha : Deflates Z (b.text areas ++ (w.bytes ++ tail))) (hs : w.bytes.length < 2 ^ 31) :
    ∃ b' areas', b.write w = (.ok (), b') ∧ Wrote b' areas' ∧ b'.text areas' = b.text areas ++ w.bytes := by
  cases w with
  | block s =>
    obtain ⟨b', areas', hx, hw, ht⟩ := xsputn_wrote (s := s) h ha hs
    exact ⟨b', areas', by rw [write, hx], hw, ht⟩
  | char c => exact sputc_wrote h ha

/-- A list of writes. -/
theorem writes_wrote : ∀ (ws : List Write) {b : DzOstreamBuf Z} {areas}, Wrote b areas →
    Deflates Z (b.text areas ++ bytesOf ws) → (bytesOf ws).length < 2 ^ 31 →
    ∃ b' areas', b.writes ws = (.ok (), b') ∧ Wrote b' areas' ∧ b'.text areas' = b.text areas ++ bytesOf ws
  | [], b, areas, h, _, _ => ⟨b, areas, rfl, h, by simp [bytesOf]⟩
  | w :: ws, b, areas, h, ha, hs => by
    have hcons : bytesOf (w :: ws) = w.bytes ++ bytesOf ws := by simp [bytesOf]
    rw [hcons] at ha hs ⊢
    rw [List.length_append] at hs
    obtain ⟨b₁, areas₁, h₁, hw₁, ht₁⟩ := write_wrote h ha (by omega)
    obtain ⟨b', areas', h', hw', ht'⟩ := writes_wrote ws hw₁ (by rw [ht₁, List.append_assoc]; exact ha) (by omega)
    exact ⟨b', areas', by rw [writes, h₁]; exact h', hw', by rw [ht', ht₁, List.append_assoc]⟩

/-! ## The state, by the text alone -/

/-- The flushed areas are determined by the text, and the state by them. -/
theorem Wrote.unique {b b' : DzOstreamBuf Z} {areas areas'} (h : Wrote b areas) (h' : Wrote b' areas')
    (ht : b.text areas = b'.text areas') : b = b' := by
  have hp := h.pieces_text.symm.trans ((congrArg _ ht).trans h'.pieces_text)
  obtain ⟨harea, hput⟩ := List.append_inj' hp rfl
  have hput' : b.putArea = b'.putArea := by
    rw [List.singleton_inj] at hput
    cases hb : b.putArea
    cases hb' : b'.putArea
    simpa [hb, hb'] using hput
  rw [h.state, h'.state, harea, hput']

theorem length_flatten_full {areas : List Str} (h : ∀ a ∈ areas, a.length = dzPrefUncompressedSize) :
    areas.flatten.length = dzPrefUncompressedSize * areas.length := by
  induction areas with
  | nil => rfl
  | cons a areas ih =>
    rw [List.flatten_cons, List.length_append, h a (by simp), ih fun x hx => h x (List.mem_cons_of_mem _ hx),
      List.length_cons, Nat.mul_succ, Nat.add_comm]

namespace Wrote

variable {b : DzOstreamBuf Z} {areas : List Str}

/-- The put area holds what is left of the text. -/
theorem putArea_eq (h : Wrote b areas) :
    b.putArea.bytes = (b.text areas).drop (dzPrefUncompressedSize * areas.length) := by
  rw [text, List.drop_left' (length_flatten_full h.full)]

theorem length_areas (h : Wrote b areas) :
    areas.length = ((b.text areas).length - 1) / dzPrefUncompressedSize := by
  have hlen : (b.text areas).length = dzPrefUncompressedSize * areas.length + b.putArea.bytes.length := by
    rw [text, List.length_append, length_flatten_full h.full]
  have hle := b.putArea.le
  by_cases hnil : areas = []
  · subst hnil
    rw [hlen, List.length_nil]
    unfold dzPrefUncompressedSize at *
    omega
  · have hpos := List.length_pos_iff.mpr (h.lazy hnil)
    rw [hlen]
    unfold dzPrefUncompressedSize at *
    omega

/-- The `i`-th flushed area. -/
theorem getElem?_areas (h : Wrote b areas) {i : Nat} (hi : i < areas.length) :
    areas[i]? = some (((b.text areas).drop (dzPrefUncompressedSize * i)).take dzPrefUncompressedSize) := by
  have hlen : dzPrefUncompressedSize * areas.length ≤ (b.text areas).length := by
    rw [text, List.length_append, length_flatten_full h.full]; omega
  have hlt : i * dzPrefUncompressedSize < (b.text areas).length ∨ i = 0 := by
    left
    rw [Nat.mul_comm]
    exact Nat.lt_of_lt_of_le (Nat.mul_lt_mul_of_pos_left hi (by decide)) hlen
  have hp := getElem?_pieces (by decide) i (b.text areas) hlt
  rw [h.pieces_text, List.getElem?_append_left hi] at hp
  rw [hp, Nat.mul_comm]

end Wrote

/-- CRC-32 composes over concatenation. -/
def CrcComposes (Z : Zlib) : Prop := ∀ c xs ys, Z.crc32 (Z.crc32 c xs) ys = Z.crc32 c (xs ++ ys)

theorem fed_crc (hcrc : CrcComposes Z) (areas : List Str) : (fed Z areas).crc32 = Z.crc32 0 areas.flatten := by
  induction areas using List.reverseRecOn with
  | nil => rfl
  | append_singleton areas a ih =>
    rw [fed_append, List.flatten_append, List.flatten_singleton, ← hcrc, ← ih]
    rfl

theorem fed_size (areas : List Str) : (fed Z areas).size = areas.flatten.length := by
  induction areas using List.reverseRecOn with
  | nil => rfl
  | append_singleton areas a ih =>
    rw [fed_append, List.flatten_append, List.flatten_singleton, List.length_append, ← ih]
    rfl

theorem length_fed_chunks (areas : List Str) : (fed Z areas).chunks.length = areas.length := by
  induction areas using List.reverseRecOn with
  | nil => rfl
  | append_singleton areas a ih =>
    rw [fed_append, feed, List.length_append, List.length_append, ih]
    rfl

theorem leValue_put32 (n : Nat) : leValue (put32 n) = n % 2 ^ 32 := by
  simp only [put32, leValue, UInt8.toNat_ofNat']
  omega

/-- What the writes of a text leave: the full areas flushed in order, the
rest in the put area, and the length and the CRC-32 of what was flushed. -/
structure Holds (b : DzOstreamBuf Z) (areas : List Str) (text : Str) : Prop where
  state : b = { fed Z areas with putArea := b.putArea }
  length : areas.length = if text.length = 0 then 0 else (text.length - 1) / 58315
  area : ∀ i < areas.length, areas[i]? = some ((text.drop (58315 * i)).take 58315)
  putArea : b.putArea.bytes = text.drop (58315 * areas.length)
  avail : text ≠ [] → 1 ≤ b.putArea.bytes.length ∧ b.putArea.bytes.length ≤ 58315
  chunks : b.chunks.length = areas.length
  size : b.size = (text.take (58315 * areas.length)).length
  crc32 : b.crc32 = Z.crc32 0 (text.take (58315 * areas.length))

theorem Wrote.holds (hcrc : CrcComposes Z) {b : DzOstreamBuf Z} {areas}
    (h : Wrote b areas) : b.Holds areas (b.text areas) := by
  have hflat : (b.text areas).take (dzPrefUncompressedSize * areas.length) = areas.flatten := by
    rw [text, List.take_left' (length_flatten_full h.full)]
  refine ⟨h.state, ?_, fun i hi => h.getElem?_areas hi, h.putArea_eq, fun hne => ⟨?_, b.putArea.le⟩, ?_, ?_, ?_⟩
  · rw [h.length_areas]
    split
    · next h0 => rw [h0]; rfl
    · rfl
  · refine List.length_pos_iff.mpr fun hnil => hne ?_
    have ha : areas = [] := by
      by_contra ha
      exact h.lazy ha hnil
    rw [text, ha, hnil]
    rfl
  · rw [congrArg DzOstreamBuf.chunks h.state]
    exact length_fed_chunks areas
  · rw [congrArg DzOstreamBuf.size h.state]
    exact (fed_size areas).trans (congrArg List.length hflat.symm)
  · rw [congrArg DzOstreamBuf.crc32 h.state]
    exact (fed_crc hcrc areas).trans (congrArg _ hflat.symm)

/-- The trailer of the finished file. -/
theorem Wrote.close_trailer (hcrc : CrcComposes Z) {b : DzOstreamBuf Z}
    {areas} (h : Wrote b areas) (ha : Deflates Z (b.text areas)) (secs : Nat) :
    ∃ front crc size : Str, b.close secs = front ++ crc ++ size ∧ crc.length = 4 ∧ size.length = 4 ∧
      leValue crc = (Z.crc32 0 (b.text areas)).toNat ∧ leValue size = (b.text areas).length % 2 ^ 32 := by
  have hclose := close_wrote h ha secs
  simp only at hclose
  set b' := fed Z (pieces dzPrefUncompressedSize (b.text areas)) with hb'
  have hsize : b'.size = (b.text areas).length := by
    rw [hb', fed_size, pieces_flatten]
  have hcrc' : b'.crc32 = Z.crc32 0 (b.text areas) := by
    rw [hb', fed_crc hcrc, pieces_flatten]
  refine ⟨writeHeader secs ++ writeChunkInfo b'.chunks ++
    (b'.zData ++ (Z.deflate b'.zStream [] dzPrefUncompressedSize .finish).out),
    put32 b'.crc32.toNat, put32 b'.size, ?_, rfl, rfl, ?_, ?_⟩
  · rw [hclose, writeTrailer, ← List.append_assoc]
  · rw [leValue_put32, hcrc']
    exact Nat.mod_eq_of_lt (UInt32.toNat_lt _)
  · rw [leValue_put32, hsize]

/-- **The archive depends only on the bytes**, not on how they were split
into writes. -/
theorem writes_by_bytes (ws : List Write) (hZ : Deflates Z (bytesOf ws)) (hcrc : CrcComposes Z)
    (hlen : (bytesOf ws).length < 2 ^ 31) :
    ∃ b areas, (openFile Z).writes ws = (.ok (), b) ∧ b.Holds areas (bytesOf ws) ∧
      (∀ ws', bytesOf ws' = bytesOf ws → (openFile Z).writes ws' = (.ok (), b)) ∧
      ∀ secs, ∃ front crc size : Str, b.close secs = front ++ crc ++ size ∧ crc.length = 4 ∧ size.length = 4 ∧
        leValue crc = (Z.crc32 0 (bytesOf ws)).toNat ∧ leValue size = (bytesOf ws).length % 2 ^ 32 := by
  obtain ⟨b, areas, hrun, hw, ht⟩ := writes_wrote ws wrote_openFile hZ hlen
  have ht' : b.text areas = bytesOf ws := ht
  refine ⟨b, areas, hrun, ht' ▸ hw.holds hcrc, fun ws' hws => ?_,
    fun secs => ht' ▸ hw.close_trailer hcrc (ht'.symm ▸ hZ) secs⟩
  obtain ⟨b', areas', hrun', hw', htext⟩ := writes_wrote ws' wrote_openFile (hws.symm ▸ hZ) (hws ▸ hlen)
  have htext' : b'.text areas' = bytesOf ws' := htext
  rw [hrun', hw'.unique hw (by rw [ht', htext', hws])]

theorem crcComposes_stored (pads : Nat) : CrcComposes (Stored.zlib pads) := by
  intro c xs ys
  simp [Stored.zlib, Stored.crc32, List.foldl_append]

def sampleWrites : List Write := [.block (str "<a"), .char 47, .block [], .block (str "><b/>"), .char 10]

theorem sample_writes_by_bytes :
    ∃ b areas, (openFile (Stored.zlib 0)).writes sampleWrites = (.ok (), b) ∧ b.Holds areas (bytesOf sampleWrites) ∧
      (∀ ws', bytesOf ws' = bytesOf sampleWrites → (openFile (Stored.zlib 0)).writes ws' = (.ok (), b)) ∧
      ∀ secs, ∃ front crc size : Str, b.close secs = front ++ crc ++ size ∧ crc.length = 4 ∧ size.length = 4 ∧
        leValue crc = ((Stored.zlib 0).crc32 0 (bytesOf sampleWrites)).toNat ∧
        leValue size = (bytesOf sampleWrites).length % 2 ^ 32 :=
  writes_by_bytes sampleWrites (fun _ _ _ => rfl) (crcComposes_stored 0) (by decide)

end DzOstreamBuf

end AlpinoCorpus
