/-
A chunk that cannot be loaded, and the chunk that was in the buffer.

`inflate` writes into the buffer that is being read, and `d_curChunk` keeps
its number when it fails: `failed_load_intact_iff` says when the current
chunk survives that.
-/
import AlpinoCorpus.DzSeeking

namespace AlpinoCorpus

namespace DzFile

/-- What `readChunk(n)` has put at the start of the buffer when it fails:
nothing, where it fails before it comes to `inflate`. -/
def partialOutput (Z : Zlib) (f : DzFile) (n : Int) : Str :=
  match (if 0 ≤ n then f.chunks[n.toNat]? else none) with
  | none => []
  | some chunkN =>
    let zBuf := (f.stream.drop (f.dataOffset + chunkN.offset)).take chunkN.size
    let r := Z.inflate zBuf f.bufferLen
    if chunkN.size ≤ ptrdiffMax ∧ zBuf.length = chunkN.size ∧ r.init = true then r.out else []

end DzFile

namespace DzIstreamBuf

variable {Z : Zlib} {b b' : DzIstreamBuf}

/-- The current chunk `c`, which inflates to `out`, is as it was in `b`:
its number, the get area and the bytes under it, so that reading it again
yields the same. -/
structure Intact (Z : Zlib) (b : DzIstreamBuf) (c : Nat) (out : Str) (b' : DzIstreamBuf) : Prop where
  curChunk : b'.curChunk = b.curChunk
  gptr : b'.gptr = b.gptr
  egptr : b'.egptr = b.egptr
  bytes : b'.buffer.take b'.egptr = b.buffer.take b.egptr
  reload : b'.readChunk Z c = (.ok (), b') ∧ b'.buffer.take b'.egptr = out

/-- A load that fails changes the buffer and nothing else. -/
theorem readChunk_raised {n : Int} {e : Exn} (h : b.readChunk Z n = (.error (.raised e), b')) :
    b' = { b with buffer := overwrite b.buffer (b.file.partialOutput Z n) } := by
  have hnil : b = { b with buffer := overwrite b.buffer [] } := rfl
  simp only [readChunk] at h
  split at h
  · cases h
  next hcur =>
  unfold DzFile.partialOutput
  cases hchunk : (if 0 ≤ n then b.file.chunks[n.toNat]? else none) with
  | none => rw [hchunk] at h; cases h
  | some chunkN =>
  simp only [hchunk] at h ⊢
  set zBuf := (b.file.stream.drop (b.file.dataOffset + chunkN.offset)).take chunkN.size with hzBuf
  split at h
  · next hsize =>
    rw [if_neg (fun hall => Nat.not_lt.mpr hall.1 hsize), ← (Prod.mk.inj h).2]
    exact hnil
  next hsize =>
  split at h
  · next hz =>
    rw [if_neg (fun hall => hz hall.2.1), ← (Prod.mk.inj h).2]
    exact hnil
  next hz =>
  split at h
  · next hi =>
    rw [if_neg (fun hall => by rw [hi] at hall; exact Bool.noConfusion hall.2.2), ← (Prod.mk.inj h).2]
    exact hnil
  next hi =>
  rw [if_pos ⟨Nat.le_of_not_lt hsize, not_ne_iff.mp hz, Bool.eq_true_of_not_eq_false hi⟩]
  split at h
  · exact (Prod.mk.inj h).2.symm
  split at h
  · exact (Prod.mk.inj h).2.symm
  · cases h

/-- Bytes written over the start of a buffer leave what it held exactly
when they are the same, as far as they go. -/
theorem overwrite_take_iff {buffer out : Str} (h : buffer.take out.length = out) (xs : Str) :
    (overwrite buffer xs).take out.length = out ↔ xs.take out.length <+: out := by
  by_cases hlen : out.length ≤ xs.length
  · rw [overwrite, List.take_append_of_le_length hlen]
    constructor
    · intro heq
      rw [heq]
    · intro hpre
      exact hpre.eq_of_length (by rw [List.length_take, Nat.min_eq_left hlen])
  · have hle := Nat.le_of_not_le hlen
    have hrest : (overwrite buffer xs).take out.length = xs ++ out.drop xs.length := by
      have hdrop : (buffer.drop xs.length).take (out.length - xs.length) = out.drop xs.length := by
        rw [← List.drop_take, h]
      rw [overwrite, List.take_append, List.take_of_length_le hle, hdrop]
    rw [hrest, List.take_of_length_le hle]
    constructor
    · intro heq
      exact ⟨_, heq⟩
    · intro h
      obtain ⟨ys, hys⟩ := h
      rw [← hys, List.drop_left]

/-- **When a failed load leaves the current chunk intact**: when what
`inflate` had put out by then is, where the get area lies, what was there. -/
theorem failed_load_intact_iff {c : Nat} {out : Str} (hl : Loaded Z b c out) {n : Int} {e : Exn}
    (hr : b.readChunk Z n = (.error (.raised e), b')) :
    Intact Z b c out b' ↔ (b.file.partialOutput Z n).take out.length <+: out := by
  obtain rfl := readChunk_raised hr
  rw [← overwrite_take_iff hl.buffer]
  constructor
  · intro h
    have hbytes := h.reload.2
    rwa [hl.egptr] at hbytes
  · intro h
    refine ⟨rfl, rfl, rfl, ?_, ?_, ?_⟩
    · rw [hl.egptr, hl.buffer]
      exact h
    · rw [readChunk, if_pos hl.curChunk.symm]
    · rw [hl.egptr]
      exact h

/-! ## A chunk that breaks off -/

/-- A chunk `abcd`, and one with an `X` before a block of no known type. -/
def brokenFile : DzFile :=
  ⟨Stored.file 4 [Stored.block (str "abcd"), Stored.block (str "X") ++ [6, 0, 0, 0, 0]], some 4, 26, [⟨0, 9⟩, ⟨9, 11⟩]⟩

/-- The buffer with the first chunk in it. -/
def brokenBuf : DzIstreamBuf := ((ofFile brokenFile).call (Stored.zlib 0) (.seekoff 0 .beg)).2.2

theorem openFile_broken : DzFile.openFile 1 brokenFile.stream = .ok brokenFile := by decide +kernel

theorem brokenBuf_loaded : Loaded (Stored.zlib 0) brokenBuf 0 (str "abcd") :=
  ⟨by decide +kernel, by decide +kernel, by decide +kernel, by decide +kernel⟩

theorem brokenBuf_raised : (brokenBuf.readChunk (Stored.zlib 0) 1).1 =
    .error (.raised (.runtimeError (str "invalid block type"))) := by decide +kernel

theorem sample_failed_load :
    Intact (Stored.zlib 0) brokenBuf 0 (str "abcd") (brokenBuf.readChunk (Stored.zlib 0) 1).2 ↔
      (brokenBuf.file.partialOutput (Stored.zlib 0) 1).take (str "abcd").length <+: str "abcd" :=
  failed_load_intact_iff brokenBuf_loaded (Prod.ext brokenBuf_raised rfl)

/-- The chunk that broke off has left its `X` in the one that was loaded. -/
theorem broken_chunk_overwrites :
    DzFile.openFile 1 brokenFile.stream = .ok brokenFile ∧
      brokenBuf = ((ofFile brokenFile).call (Stored.zlib 0) (.seekoff 0 .beg)).2.2 ∧
      Loaded (Stored.zlib 0) brokenBuf 0 (str "abcd") ∧
      (∃ e, (brokenBuf.readChunk (Stored.zlib 0) 1).1 = .error (.raised e)) ∧
      ¬ Intact (Stored.zlib 0) brokenBuf 0 (str "abcd") (brokenBuf.readChunk (Stored.zlib 0) 1).2 := by
  refine ⟨openFile_broken, rfl, brokenBuf_loaded, ⟨_, brokenBuf_raised⟩, fun h => ?_⟩
  have hbytes : (brokenBuf.readChunk (Stored.zlib 0) 1).2.buffer = str "Xbcd" := by decide +kernel
  have hgot := h.reload.2
  rw [hbytes, h.egptr, brokenBuf_loaded.egptr] at hgot
  exact absurd hgot (by decide)

end DzIstreamBuf

end AlpinoCorpus
