/-
What a read of a dictzip stream delivers, in terms of the chunks alone:
`DzFile.slice`.

A read that comes out whole leaves the stream as good as it was, any other
fails it for ever. Of a good stream a read can tell what is left in the
buffer of an earlier chunk, by one character (`Standing`): where an empty
chunk has been loaded, `underflow` looks at the older character at the
start of the buffer.
-/
import AlpinoCorpus.DzIstream

namespace AlpinoCorpus

/-- What a read finds in the buffer of a good stream: nothing has been
loaded yet, or the first character is this one. -/
inductive Standing
  | fresh
  | loaded (first : UInt8)
  deriving DecidableEq

/-- The character at the start of the buffer, which is filled with zeros at
first. -/
def Standing.first : Standing → UInt8
  | fresh => 0
  | loaded first => first

/-- The outcome of a read. -/
inductive Slice
  /-- All that was asked for, and how the buffer is left. -/
  | whole (data : Str) (st : Standing)
  /-- The data end, or a chunk cannot be loaded, after `data`. -/
  | cut (data : Str)
  /-- The language leaves it undefined. -/
  | undefined
  deriving DecidableEq

namespace Slice

def prepend (xs : Str) : Slice → Slice
  | whole data st => whole (xs ++ data) st
  | cut data => cut (xs ++ data)
  | undefined => undefined

@[simp] theorem prepend_nil (s : Slice) : s.prepend [] = s := by cases s <;> rfl

/-- As long as was asked for, or shorter when cut. -/
def Fits (n : Nat) : Slice → Prop
  | whole data _ => data.length = n
  | cut data => data.length < n
  | undefined => True

/-- The same, where nothing may be all that was asked for. -/
def Within (n : Nat) : Slice → Prop
  | whole data _ => data.length = n
  | cut data => data.length ≤ n
  | undefined => True

theorem Fits.within {s : Slice} {n : Nat} (h : s.Fits n) : s.Within n := by
  cases s with
  | whole data st => exact h
  | cut data => exact Nat.le_of_lt h
  | undefined => trivial

end Slice

namespace DzFile

variable (Z : Zlib)

/-- What chunk `n` inflates to, where it can be loaded. -/
def load (f : DzFile) (n : Nat) : Option Str :=
  match f.chunks[n]? with
  | none => none
  | some chunkN =>
    let zBuf := (f.stream.drop (f.dataOffset + chunkN.offset)).take chunkN.size
    let r := Z.inflate zBuf f.bufferLen
    if chunkN.size ≤ ptrdiffMax ∧ zBuf.length = chunkN.size ∧ r.init = true ∧ r.ret ≠ .error ∧ r.ended = true then
      some r.out
    else none

/-- `static_cast<int>(d_chunks.size())`, where it is not negative. -/
def chunkCount (f : DzFile) : Nat := (int32 f.chunks.length).toNat

/-- The chunks that `underflow` finds after chunk `n`. -/
def later (f : DzFile) (n : Nat) : List (Option Str) :=
  (List.range' (n + 1) (f.chunkCount - (n + 1))).map (f.load Z)

/-- Chunk `k` and those that `underflow` finds after it. -/
def rest (f : DzFile) (k : Nat) : List (Option Str) :=
  (List.range' k (f.chunkCount - k)).map (f.load Z)

/-- `n` characters from what is left of a chunk and the chunks after it. A
chunk that starts with 0xFF is taken for the end of the file, and so is an
empty one where an older 0xFF is found. -/
def fetch : List (Option Str) → Standing → Str → Nat → Slice
  | later, st, cur, n =>
    if n ≤ cur.length then .whole (cur.take n) st
    else match later with
      | [] | none :: _ => .cut cur
      | some out :: later =>
        if out.headD st.first = 0xFF then .cut cur
        else (fetch later (.loaded (out.headD st.first)) out (n - cur.length)).prepend cur

/-- The number of characters read is an `int`. -/
def bounded : Slice → Slice
  | .whole data st => if data.length < 2 ^ 31 then .whole data st else .undefined
  | .cut data => if data.length < 2 ^ 31 then .cut data else .undefined
  | .undefined => .undefined

/-- `n` characters from `off`. -/
def slice (f : DzFile) (st : Standing) (off : Int) (n : Nat) : Slice :=
  match f.chunkLen with
  | none | some 0 => .undefined
  | some chunkLen =>
    if off < 0 then .cut []
    else
      let targetChunk := int32 (sizeT off / chunkLen : Nat)
      let chunkPos := (int32 (sizeT off % chunkLen : Nat)).toNat
      -- Of a fresh buffer chunk -1 is the current one.
      if targetChunk = -1 ∧ st = .fresh then
        bounded (fetch (f.rest Z 0) .fresh (List.replicate (chunkLen - chunkPos) 0) n)
      else if targetChunk < 0 ∨ f.chunks.length ≤ targetChunk then .undefined
      else match f.load Z targetChunk.toNat with
        | none => .cut []
        | some out =>
          if out.length < chunkPos then (if n = 0 then .whole [] (.loaded (out.headD st.first)) else .undefined)
          else bounded (fetch (f.later Z targetChunk.toNat) (.loaded (out.headD st.first)) (out.drop chunkPos) n)

/-- What `underflow` lets a read see of these chunks, with `first` the
character at the start of the buffer: a chunk that starts with 0xFF is
taken for the end of the file, and so is an empty one where an older 0xFF
is found. -/
def entered : UInt8 → List (Option Str) → Str
  | first, some out :: later =>
    if out.headD first = 0xFF then [] else out ++ entered (out.headD first) later
  | _, _ => []

/-- The chunks from `k` up to `k'` hold `text`. -/
inductive Passes (f : DzFile) : Nat → Str → Nat → Prop
  | refl (k : Nat) : Passes f k [] k
  | chunk {k k' : Nat} {out text : Str} : f.load Z k = some out → Passes f (k + 1) text k' →
    Passes f k (out ++ text) k'

theorem chunkCount_le (f : DzFile) : f.chunkCount ≤ f.chunks.length := by
  unfold chunkCount int32; omega

theorem rest_succ (f : DzFile) (n : Nat) : f.rest Z (n + 1) = f.later Z n := rfl

theorem rest_cons {f : DzFile} {k : Nat} (h : k < f.chunkCount) : f.rest Z k = f.load Z k :: f.rest Z (k + 1) := by
  rw [rest, rest, show f.chunkCount - k = f.chunkCount - (k + 1) + 1 by omega, List.range'_succ, List.map_cons]

theorem rest_nil {f : DzFile} {k : Nat} (h : f.chunkCount ≤ k) : f.rest Z k = [] := by
  rw [rest, Nat.sub_eq_zero_of_le h]; rfl

theorem length_rest (f : DzFile) (k : Nat) : (f.rest Z k).length = f.chunkCount - k := by
  simp [rest]

theorem Passes.le {f : DzFile} {k k' : Nat} {text : Str} (h : f.Passes Z k text k') : k ≤ k' := by
  induction h with
  | refl k => exact Nat.le_refl k
  | chunk _ _ ih => omega

theorem load_lt {f : DzFile} {n : Nat} {out : Str} (h : f.load Z n = some out) : n < f.chunks.length := by
  by_contra hn
  simp [load, List.getElem?_eq_none (Nat.le_of_not_lt hn)] at h

theorem load_le {f : DzFile} {n : Nat} {out : Str} (h : f.load Z n = some out) : out.length ≤ f.bufferLen := by
  simp only [load] at h
  split at h
  · cases h
  · split at h
    · cases h; exact Z.inflate_le _ _
    · cases h

/-- The slice from inside a chunk that can be loaded. -/
theorem slice_inside {f : DzFile} {chunkLen : Nat} (hL : f.chunkLen = some chunkLen) (h0 : chunkLen ≠ 0) {off : Int}
    (hoff : 0 ≤ off) {c pos : Nat} (hc : int32 (sizeT off / chunkLen : Nat) = c)
    (hpos : int32 (sizeT off % chunkLen : Nat) = pos) {out : Str} (hload : f.load Z c = some out)
    (hle : pos ≤ out.length) (st : Standing) (n : Nat) :
    f.slice Z st off n = bounded (fetch (f.later Z c) (.loaded (out.headD st.first)) (out.drop pos) n) := by
  have hlt := load_lt Z hload
  simp only [slice, hL]
  rw [if_neg (by omega), hc, hpos, if_neg (by omega), if_neg (by omega), Int.toNat_natCast, hload]
  simp only [Int.toNat_natCast, if_neg (Nat.not_lt.mpr hle)]

section Fetch

variable {later : List (Option Str)} {st : Standing} {cur : Str} {n : Nat}

theorem fetch_of_le (h : n ≤ cur.length) : fetch later st cur n = .whole (cur.take n) st := by
  unfold fetch
  rw [if_pos h]

theorem fetch_nil (h : cur.length < n) : fetch [] st cur n = .cut cur := by
  unfold fetch
  rw [if_neg (Nat.not_le.mpr h)]

theorem fetch_none (h : cur.length < n) : fetch (none :: later) st cur n = .cut cur := by
  unfold fetch
  rw [if_neg (Nat.not_le.mpr h)]

theorem fetch_some (h : cur.length < n) (out : Str) :
    fetch (some out :: later) st cur n =
      if out.headD st.first = 0xFF then .cut cur
      else (fetch later (.loaded (out.headD st.first)) out (n - cur.length)).prepend cur := by
  conv_lhs => unfold fetch
  rw [if_neg (Nat.not_le.mpr h)]

/-- After the characters that were left. -/
theorem fetch_prepend (hn : cur.length < n) :
    fetch later st cur n = (fetch later st [] (n - cur.length)).prepend cur := by
  have hpos : ([] : Str).length < n - cur.length := by simp only [List.length_nil]; omega
  rcases later with _ | ⟨_ | out, later⟩
  · rw [fetch_nil hn, fetch_nil hpos, Slice.prepend, List.append_nil]
  · rw [fetch_none hn, fetch_none hpos, Slice.prepend, List.append_nil]
  · rw [fetch_some hn, fetch_some hpos, List.length_nil, Nat.sub_zero, Slice.prepend_nil]
    split
    · rw [Slice.prepend, List.append_nil]
    · rfl

end Fetch

theorem fetch_fits : ∀ (later : List (Option Str)) (st : Standing) (cur : Str) (n : Nat), (fetch later st cur n).Fits n
  | later, st, cur, n => by
    unfold fetch
    split
    · simp only [Slice.Fits, List.length_take]; omega
    · next hn =>
      have hcut : (Slice.cut cur).Fits n := Nat.lt_of_not_le hn
      split
      · exact hcut
      · exact hcut
      · next out later =>
        split
        · exact hcut
        · have ih := fetch_fits later (.loaded (out.headD st.first)) out (n - cur.length)
          revert ih
          cases fetch later (.loaded (out.headD st.first)) out (n - cur.length) <;> intro ih <;>
            simp only [Slice.prepend, Slice.Fits, List.length_append] at ih ⊢ <;> omega

theorem bounded_within {s : Slice} {n : Nat} (h : s.Within n) : (bounded s).Within n := by
  cases s with
  | whole data st | cut data => simp only [bounded]; split <;> first | exact h | trivial
  | undefined => trivial

theorem slice_within (f : DzFile) (st : Standing) (off : Int) (n : Nat) : (f.slice Z st off n).Within n := by
  have hcut : (Slice.cut []).Within n := Nat.zero_le n
  simp only [slice]
  split
  · trivial
  · trivial
  split
  · exact hcut
  split
  · exact bounded_within (fetch_fits _ _ _ _).within
  split
  · trivial
  split
  · exact hcut
  split
  · split
    · next hn => exact hn.symm
    · trivial
  · exact bounded_within (fetch_fits _ _ _ _).within

end DzFile

namespace DzIstreamBuf

variable {Z : Zlib}

/-- Chunk `c`, which inflates to `out`, is in the buffer. -/
structure Loaded (Z : Zlib) (b : DzIstreamBuf) (c : Nat) (out : Str) : Prop where
  curChunk : b.curChunk = c
  load : b.file.load Z c = some out
  buffer : b.buffer.take out.length = out
  egptr : b.egptr = out.length

/-- The invariant of the buffer: the current chunk is in it. -/
structure Sound (Z : Zlib) (b : DzIstreamBuf) : Prop where
  length : b.buffer.length = b.file.bufferLen
  current : b.curChunk = -1 ∨ ∃ c out, Loaded Z b c out

theorem sound_ofFile (file : DzFile) : Sound Z (ofFile file) := ⟨by simp [ofFile], .inl rfl⟩

/-- `readChunk` of a chunk that can be loaded. -/
theorem readChunk_some {b : DzIstreamBuf} (hb : Sound Z b) {n : Nat} {out : Str} (hload : b.file.load Z n = some out) :
    ∃ b', b.readChunk Z n = (.ok (), b') ∧ b'.file = b.file ∧ Sound Z b' ∧ Loaded Z b' n out ∧
      (b.curChunk ≠ n → b'.gptr = 0 ∧ b'.buffer = overwrite b.buffer out) := by
  by_cases hcur : (n : Int) = b.curChunk
  · rcases hb.current with h | ⟨c, out', hl⟩
    · omega
    · obtain rfl : c = n := by have := hl.curChunk; omega
      obtain rfl : out' = out := Option.some.inj (hl.load.symm.trans hload)
      exact ⟨b, by simp [readChunk, hcur], rfl, hb, hl, fun h => absurd hcur.symm h⟩
  · have hn := DzFile.load_lt Z hload
    have hget := List.getElem?_eq_getElem hn
    have hload' := hload
    simp only [DzFile.load, hget] at hload'
    simp only [readChunk, if_neg hcur, if_pos (Int.natCast_nonneg n), Int.toNat_natCast, hget]
    split at hload'
    · next h =>
      obtain ⟨hsize, hz, hi, hret, hend⟩ := h
      cases hload'
      set r := Z.inflate _ b.file.bufferLen with hr
      have hle : r.out.length ≤ b.buffer.length := by rw [hb.length]; exact Z.inflate_le _ _
      have hlen : (overwrite b.buffer r.out).length = b.file.bufferLen := by
        rw [← hb.length, overwrite, List.length_append, List.length_drop]; omega
      let b' : DzIstreamBuf :=
        { b with buffer := overwrite b.buffer r.out, curChunk := n, gptr := 0, egptr := r.out.length }
      have hl : Loaded Z b' n r.out := ⟨rfl, hload, by simp [b', overwrite], rfl⟩
      refine ⟨b', ?_, rfl, ⟨hlen, .inr ⟨n, r.out, hl⟩⟩, hl, fun _ => ⟨rfl, rfl⟩⟩
      rw [if_neg (Nat.not_lt.mpr hsize), if_neg (fun hne => hne hz), if_neg (by simp [hi]), if_neg hret,
        if_neg (by simp [hend])]
    · cases hload'

/-- `readChunk` of a chunk that cannot be loaded throws. -/
theorem readChunk_none {b : DzIstreamBuf} (hb : Sound Z b) {n : Nat} (hn : n < b.file.chunks.length)
    (hload : b.file.load Z n = none) :
    ∃ e b', b.readChunk Z n = (.error (.raised e), b') ∧ b'.file = b.file := by
  have hcur : (n : Int) ≠ b.curChunk := by
    intro hcur
    rcases hb.current with h | ⟨c, out, hl⟩
    · omega
    · obtain rfl : c = n := by have := hl.curChunk; omega
      rw [hl.load] at hload; cases hload
  have hget := List.getElem?_eq_getElem hn
  simp only [DzFile.load, hget] at hload
  simp only [readChunk, if_neg hcur, if_pos (Int.natCast_nonneg n), Int.toNat_natCast, hget]
  split at hload
  · cases hload
  · next h =>
    split
    · exact ⟨_, _, rfl, rfl⟩
    split
    · exact ⟨_, _, rfl, rfl⟩
    split
    · exact ⟨_, _, rfl, rfl⟩
    split
    · exact ⟨_, _, rfl, rfl⟩
    split
    · exact ⟨_, _, rfl, rfl⟩
    · next h₁ h₂ h₃ h₄ h₅ =>
      exact absurd ⟨Nat.le_of_not_lt h₁, by simpa using h₂, by simpa using h₃, h₄, by simpa using h₅⟩ h

/-! ## Reading -/

/-- In chunk `c`, with `cur` of it left. -/
structure At (Z : Zlib) (b : DzIstreamBuf) (c : Nat) (cur : Str) : Prop where
  sound : Sound Z b
  loaded : ∃ out, Loaded Z b c out ∧ out.drop b.gptr = cur ∧ b.gptr ≤ out.length

/-- `cur` is left of the get area, and chunk `k` comes after it. -/
structure Left (Z : Zlib) (b : DzIstreamBuf) (k : Nat) (cur : Str) : Prop where
  sound : Sound Z b
  next : b.curChunk + 1 = k
  avail : b.egptr = b.gptr + cur.length
  room : b.egptr ≤ b.buffer.length
  bytes : (b.buffer.drop b.gptr).take cur.length = cur

theorem At.left {b : DzIstreamBuf} {c : Nat} {cur : Str} (h : At Z b c cur) : Left Z b (c + 1) cur := by
  obtain ⟨out, hl, rfl, hg⟩ := h.loaded
  refine ⟨h.sound, by rw [hl.curChunk]; rfl, ?_, ?_, ?_⟩
  · rw [hl.egptr, List.length_drop]; omega
  · rw [hl.egptr, h.sound.length]; exact DzFile.load_le Z hl.load
  · rw [List.length_drop, ← List.drop_take, hl.buffer]

/-- Nothing has been read yet. -/
theorem left_ofFile (file : DzFile) : Left Z (ofFile file) 0 [] :=
  ⟨sound_ofFile file, by simp [ofFile], rfl, by simp [ofFile], rfl⟩

theorem Sound.moveTo {b : DzIstreamBuf} (h : Sound Z b) (gptr : Nat) : Sound Z { b with gptr } :=
  ⟨h.length, h.current.imp_right fun ⟨c, out, hl⟩ => ⟨c, out, hl.curChunk, hl.load, hl.buffer, hl.egptr⟩⟩

/-- There is a character at the start of the buffer, if it has any length. -/
theorem Sound.first {b : DzIstreamBuf} (h : Sound Z b) (hlen : 0 < b.file.bufferLen) :
    ∃ first, b.buffer.head? = some first := by
  rw [← h.length] at hlen
  exact ⟨b.buffer[0], by rw [List.head?_eq_getElem?, List.getElem?_eq_getElem hlen]⟩

/-- After `m` characters more. -/
theorem Left.bump {b : DzIstreamBuf} {k : Nat} {cur : Str} (h : Left Z b k cur) {m : Nat} (hm : m ≤ cur.length) :
    Left Z { b with gptr := b.gptr + m } k (cur.drop m) := by
  refine ⟨h.sound.moveTo _, h.next, ?_, h.room, ?_⟩
  · simp only [List.length_drop, h.avail]; omega
  · have := congrArg (List.drop m) h.bytes
    rwa [List.drop_take, List.drop_drop, ← List.length_drop] at this

theorem charInt_eq_neg_one (c : UInt8) : charInt c = -1 ↔ c = 0xFF := by
  have hlt := c.toNat_lt
  have hff : c = 0xFF ↔ c.toNat = 255 := by rw [← UInt8.toNat_inj]; rfl
  have hneg : c < 128 ↔ c.toNat < 128 := UInt8.lt_iff_toNat_lt
  unfold charInt
  rw [hff]
  by_cases h : c < 128
  · rw [if_pos h]
    rw [hneg] at h
    omega
  · rw [if_neg h]
    rw [hneg] at h
    omega

/-- `fill` with characters left does nothing. -/
theorem fill_left {b : DzIstreamBuf} {k : Nat} {cur : Str} (h : Left Z b k cur) (hne : cur ≠ []) :
    b.fill Z = (.ok true, b) := by
  have := List.length_pos_iff.mpr hne
  rw [fill, if_neg (by rw [h.avail]; omega)]

section Fill

variable {b : DzIstreamBuf} {k : Nat}

/-- At the end of the get area, `underflow` takes the current chunk for the last. -/
theorem Left.last_iff (h : Left Z b k []) : b.curChunk + 1 ≥ int32 b.file.chunks.length ↔ b.file.chunkCount ≤ k := by
  rw [h.next, DzFile.chunkCount]; omega

/-- `fill` after the last chunk. -/
theorem fill_last (h : Left Z b k []) (hk : b.file.chunkCount ≤ k) : b.fill Z = (.ok false, b) := by
  have hg : b.gptr = b.egptr := h.avail.symm
  rw [fill, if_pos hg, underflow, if_neg (by omega), if_pos (h.last_iff.mpr hk)]
  simp

/-- `fill` before a chunk that cannot be loaded. -/
theorem fill_none (h : Left Z b k []) (hk : k < b.file.chunkCount) (hload : b.file.load Z k = none) :
    ∃ e b', b.fill Z = (.error (.raised e), b') ∧ b'.file = b.file := by
  have hg : b.gptr = b.egptr := h.avail.symm
  obtain ⟨e, b', hr, hf⟩ := readChunk_none h.sound (Nat.lt_of_lt_of_le hk b.file.chunkCount_le) hload
  refine ⟨e, b', ?_, hf⟩
  rw [fill, if_pos hg, underflow, if_neg (by omega), if_neg (by rw [h.last_iff]; omega), h.next, hr]

/-- `fill` before a chunk that can be loaded: it goes on unless the
character now at the start of the buffer, an older one where the chunk is
empty, is 0xFF. -/
theorem fill_some (h : Left Z b k []) (hk : k < b.file.chunkCount) {out : Str} (hload : b.file.load Z k = some out)
    {first : UInt8} (hfirst : b.buffer.head? = some first) :
    ∃ b', b.fill Z = (.ok (decide (out.headD first ≠ 0xFF)), b') ∧ b'.file = b.file ∧ Left Z b' (k + 1) out ∧
      b'.buffer.head? = some (out.headD first) := by
  have hg : b.gptr = b.egptr := h.avail.symm
  obtain ⟨b', hr, hf, hs, hl, hnew⟩ := readChunk_some h.sound hload
  obtain ⟨hg₀, hbuf⟩ := hnew (by have := h.next; omega)
  have hhead : b'.buffer.head? = some (out.headD first) := by
    rw [hbuf, overwrite]
    cases out with
    | nil => exact hfirst
    | cons x xs => rfl
  have hat : At Z b' k out := ⟨hs, out, hl, by rw [hg₀]; rfl, by omega⟩
  refine ⟨b', ?_, hf, hat.left, hhead⟩
  rw [fill, if_pos hg, underflow, if_neg (by omega), if_neg (by rw [h.last_iff]; omega), h.next]
  rw [List.head?_eq_getElem?] at hhead
  simp only [hr, peek, hg₀, hhead, ne_eq, charInt_eq_neg_one]

end Fill

/-- The buffer after `data` was read, from `gptr` on, where `cur` was left
before chunk `k`. -/
structure Moved (Z : Zlib) (file : DzFile) (k gptr : Nat) (cur data : Str) (b : DzIstreamBuf) : Prop where
  file_eq : b.file = file
  moved : ∃ k' cur' text, Left Z b k' cur' ∧ file.Passes Z k text k' ∧ cur ++ text = data ++ cur' ∧
    (k' = k → b.gptr = gptr + data.length)

/-- What a read of `n` characters after `dest` did, where `cur` was left
before chunk `k`, and `text` is what `underflow` lets it see. -/
def Scans (Z : Zlib) (file : DzFile) (k gptr : Nat) (cur text dest : Str) (n : Nat)
    (r : Outcome Unit × Str × DzIstreamBuf) : Prop :=
  if (dest ++ text.take n).length < 2 ^ 31 then
    (∃ b', r = (.ok (), dest ++ text.take n, b') ∧ Moved Z file k gptr cur (text.take n) b') ∨
    (∃ e b', r = (.error (.raised e), dest ++ text.take n, b') ∧ b'.file = file ∧ text.length < n ∧
      none ∈ file.rest Z k)
  else ∃ dest' b', r = (.error .undefined, dest', b')

/-- After the characters that were left. -/
theorem Scans.prepend {file : DzFile} {k gptr n : Nat} {cur text dest : Str} {r : Outcome Unit × Str × DzIstreamBuf}
    (h : Scans Z file k (gptr + cur.length) [] text (dest ++ cur) (n - cur.length) r) (hn : cur.length ≤ n) :
    Scans Z file k gptr cur (cur ++ text) dest n r := by
  have htake : (cur ++ text).take n = cur ++ text.take (n - cur.length) := by
    rw [List.take_append, List.take_of_length_le hn]
  simp only [Scans, htake, ← List.append_assoc]
  simp only [Scans] at h
  split
  · next hlt =>
    rw [if_pos hlt] at h
    rcases h with ⟨b', hr, hf, k', cur', t, hl, hp, ht, hk⟩ | ⟨e, b', hr, hf, hshort, hnone⟩
    · refine .inl ⟨b', hr, hf, k', cur', t, hl, hp, ?_, fun he => ?_⟩
      · rw [List.nil_append] at ht
        rw [ht, List.append_assoc]
      · rw [hk he, List.length_append, Nat.add_assoc]
    · exact .inr ⟨e, b', hr, hf, by rw [List.length_append]; omega, hnone⟩
  · next hlt =>
    rwa [if_neg hlt] at h

/-- After a chunk that `underflow` loads. -/
theorem Scans.chunk {file : DzFile} {k gptr gptr' n : Nat} {out text dest : Str}
    {r : Outcome Unit × Str × DzIstreamBuf} (h : Scans Z file (k + 1) gptr' out text dest n r)
    (hk : k < file.chunkCount) (hload : file.load Z k = some out) : Scans Z file k gptr [] text dest n r := by
  simp only [Scans] at h ⊢
  split
  · next hlt =>
    rw [if_pos hlt] at h
    rcases h with ⟨b', hr, hf, k', cur', t, hl, hp, ht, -⟩ | ⟨e, b', hr, hf, hshort, hnone⟩
    · refine .inl ⟨b', hr, hf, k', cur', out ++ t, hl, .chunk hload hp, ht, fun he => ?_⟩
      have := hp.le
      omega
    · exact .inr ⟨e, b', hr, hf, hshort, by rw [DzFile.rest_cons Z hk]; exact List.mem_cons_of_mem _ hnone⟩
  · next hlt =>
    rwa [if_neg hlt] at h

/-- A round of the loop that first has to load a chunk is the round that
finds it loaded. -/
theorem xsgetnLoop_fill {fuel n : Nat} {b b' : DzIstreamBuf} {dest : Str} (hn : n ≠ 0)
    (h : b.fill Z = (.ok true, b')) (h' : b'.fill Z = (.ok true, b')) :
    xsgetnLoop Z (fuel + 1) b n dest = xsgetnLoop Z (fuel + 1) b' n dest := by
  simp only [xsgetnLoop, if_neg hn, h, h']

/-- A round of the loop with `cur` left. -/
theorem xsgetnLoop_copy {fuel n k : Nat} {b b' : DzIstreamBuf} {cur dest : Str} (hb : Left Z b' k cur)
    (hn : n ≠ 0) (hfill : b.fill Z = (.ok true, b')) :
    xsgetnLoop Z (fuel + 1) b n dest =
      if (dest ++ cur.take n).length < 2 ^ 31 then
        xsgetnLoop Z fuel { b' with gptr := b'.gptr + min cur.length n } (n - min cur.length n) (dest ++ cur.take n)
      else (.error .undefined, dest, b') := by
  have hav : b'.egptr - b'.gptr = cur.length := by rw [hb.avail]; omega
  have hcopy : (b'.buffer.drop b'.gptr).take (min cur.length n) = cur.take n := by
    have := congrArg (List.take n) hb.bytes
    rwa [List.take_take, Nat.min_comm] at this
  simp only [xsgetnLoop, if_neg hn, hfill, hav, hcopy]
  rw [if_neg (by rw [hb.avail]; omega), List.length_append, List.length_take, Nat.min_comm n]
  by_cases hlt : dest.length + min cur.length n < 2 ^ 31
  · rw [if_pos hlt, if_neg (by omega)]
  · rw [if_neg hlt, if_pos (by omega)]

section Loop

variable {file : DzFile}

/-- The loop with `cur` left, given the loop from where nothing is left. -/
theorem xsgetnLoop_rest {k m : Nat} {text : Str} {first : UInt8}
    (hend : ∀ (fuel n : Nat) (b : DzIstreamBuf) (dest : Str), b.file = file → Left Z b k [] →
      b.buffer.head? = some first → n ≠ 0 → dest.length < 2 ^ 31 → n + m < fuel →
      Scans Z file k b.gptr [] text dest n (xsgetnLoop Z fuel b n dest))
    {fuel n : Nat} {b : DzIstreamBuf} {cur dest : Str} (hf : b.file = file) (hb : Left Z b k cur)
    (hfirst : b.buffer.head? = some first) (hd : dest.length < 2 ^ 31) (hfuel : n + m < fuel) :
    Scans Z file k b.gptr cur (cur ++ text) dest n (xsgetnLoop Z fuel b n dest) := by
  obtain ⟨fuel, rfl⟩ : ∃ i, fuel = i + 1 := ⟨fuel - 1, by omega⟩
  by_cases hn : n = 0
  · subst hn
    simp only [Scans, List.take_zero, List.append_nil, if_pos hd]
    exact .inl ⟨b, by simp [xsgetnLoop], hf, k, cur, [], hb, .refl k, by simp, fun _ => rfl⟩
  by_cases hc : cur = []
  · subst hc; exact hend _ _ _ _ hf hb hfirst hn hd hfuel
  have hfill := fill_left hb hc
  have hpos := List.length_pos_iff.mpr hc
  rw [xsgetnLoop_copy hb hn hfill]
  by_cases hle : n ≤ cur.length
  · -- This round is the last.
    simp only [Scans, List.take_append_of_le_length hle]
    split
    · rw [Nat.min_eq_right hle, Nat.sub_self]
      obtain ⟨fuel, rfl⟩ : ∃ i, fuel = i + 1 := ⟨fuel - 1, by omega⟩
      refine .inl ⟨{ b with gptr := b.gptr + n }, by simp [xsgetnLoop], hf, k, cur.drop n, [], hb.bump hle, .refl k,
        by simp, fun _ => ?_⟩
      simp only [List.length_take, Nat.min_eq_left hle]
    · exact ⟨dest, b, rfl⟩
  · have hlt := Nat.lt_of_not_le hle
    rw [List.take_of_length_le (Nat.le_of_lt hlt), Nat.min_eq_left (Nat.le_of_lt hlt)]
    split
    · next hd' =>
      have hb' := hb.bump (Nat.le_refl _)
      rw [List.drop_length] at hb'
      exact (hend fuel _ { b with gptr := b.gptr + cur.length } _ hf hb' hfirst (by omega) hd' (by omega)).prepend
        (Nat.le_of_lt hlt)
    · next hd' =>
      have hlong : ¬ (dest ++ (cur ++ text).take n).length < 2 ^ 31 := by
        simp only [List.length_append, List.length_take] at hd' ⊢; omega
      rw [Scans, if_neg hlong]
      exact ⟨dest, b, rfl⟩

/-- **The loop** reads what is left of the get area and what `underflow`
lets it see of the chunks after it. -/
theorem xsgetnLoop_scans : ∀ (later : List (Option Str)) (fuel n : Nat) (b : DzIstreamBuf) (k : Nat) (cur dest : Str)
    (first : UInt8), b.file = file → Left Z b k cur → b.buffer.head? = some first → file.rest Z k = later →
    dest.length < 2 ^ 31 → n + later.length < fuel →
    Scans Z file k b.gptr cur (cur ++ DzFile.entered first later) dest n (xsgetnLoop Z fuel b n dest) := by
  intro later
  induction later with
  | nil =>
    intro fuel n b k cur dest first hf hb hfirst hl hd hfuel
    have hk : file.chunkCount ≤ k := by
      by_contra hk
      rw [DzFile.rest_cons Z (Nat.lt_of_not_le hk)] at hl
      cases hl
    refine xsgetnLoop_rest (fun fuel n b dest hf hb _ hn hd hfuel => ?_) hf hb hfirst hd hfuel
    obtain ⟨fuel, rfl⟩ : ∃ i, fuel = i + 1 := ⟨fuel - 1, by omega⟩
    simp only [Scans, DzFile.entered, List.take_nil, List.append_nil, if_pos hd]
    refine .inl ⟨b, ?_, hf, k, [], [], hb, .refl k, rfl, fun _ => rfl⟩
    simp only [xsgetnLoop, if_neg hn, fill_last hb (by rw [hf]; exact hk)]
  | cons o later ih =>
    intro fuel n b k cur dest first hf hb hfirst hl hd hfuel
    have hk : k < file.chunkCount := by
      by_contra hk
      rw [DzFile.rest_nil Z (Nat.le_of_not_lt hk)] at hl
      cases hl
    have hl' := hl
    rw [DzFile.rest_cons Z hk, List.cons.injEq] at hl'
    obtain ⟨hload, hl'⟩ := hl'
    refine xsgetnLoop_rest (fun fuel n b dest hf hb hfirst hn hd hfuel => ?_) hf hb hfirst hd hfuel
    rw [List.length_cons] at hfuel
    obtain ⟨fuel, rfl⟩ : ∃ i, fuel = i + 1 := ⟨fuel - 1, by omega⟩
    cases o with
    | none =>
      obtain ⟨e, b', hfill, hf'⟩ := fill_none hb (by rw [hf]; exact hk) (by rw [hf]; exact hload)
      simp only [Scans, DzFile.entered, List.take_nil, List.append_nil, if_pos hd]
      refine .inr ⟨e, b', ?_, hf'.trans hf, Nat.pos_of_ne_zero hn, by rw [hl]; simp⟩
      simp only [xsgetnLoop, if_neg hn, hfill]
    | some out =>
      obtain ⟨b', hfill, hf', hb', hfirst'⟩ :=
        fill_some hb (by rw [hf]; exact hk) (by rw [hf]; exact hload) hfirst
      rw [hf] at hf'
      by_cases hff : out.headD first = 0xFF
      · -- The chunk is taken for the end of the file.
        simp only [Scans, DzFile.entered, if_pos hff, List.take_nil, List.append_nil, if_pos hd]
        refine .inl ⟨b', ?_, hf', k + 1, out, out ++ [], hb', .chunk hload (.refl _), by simp, fun he => ?_⟩
        · simp only [xsgetnLoop, if_neg hn, hfill, hff, ne_eq, not_true_eq_false, decide_false]
        · omega
      · rw [decide_eq_true hff] at hfill
        simp only [DzFile.entered, if_neg hff]
        suffices h : Scans Z file (k + 1) b'.gptr out (out ++ DzFile.entered (out.headD first) later) dest n
            (xsgetnLoop Z (fuel + 1) b n dest) from h.chunk hk hload
        by_cases hout : out = []
        · -- A round that copies nothing.
          subst hout
          rw [xsgetnLoop_copy hb' hn hfill, List.take_nil, List.append_nil, if_pos hd, List.length_nil, Nat.zero_min]
          exact ih fuel n b' (k + 1) [] dest _ hf' hb' hfirst' hl' hd (by omega)
        · rw [xsgetnLoop_fill hn hfill (fill_left hb' hout)]
          exact ih (fuel + 1) n b' (k + 1) out dest _ hf' hb' hfirst' hl' hd (by omega)

/-- **`xsgetn`** from any place in the chunks. -/
theorem xsgetn_scans {b : DzIstreamBuf} {k : Nat} {cur : Str} (hb : Left Z b k cur) {first : UInt8}
    (hfirst : b.buffer.head? = some first) (n : Nat) :
    Scans Z b.file k b.gptr cur (cur ++ DzFile.entered first (b.file.rest Z k)) [] n (b.xsgetn Z n) := by
  refine xsgetnLoop_scans _ _ n b k cur [] first rfl hb hfirst rfl (by simp) ?_
  rw [DzFile.length_rest]
  have := b.file.chunkCount_le
  omega

end Loop

/-! ## The slice -/

/-- The buffer is as the standing says. -/
def Stands (b : DzIstreamBuf) : Standing → Prop
  | .fresh => b.curChunk = -1 ∧ b.egptr = b.file.bufferLen ∧ b.buffer = List.replicate b.file.bufferLen 0
  | .loaded first => b.curChunk ≠ -1 ∧ b.buffer.head? = some first

theorem stands_ofFile (file : DzFile) : (ofFile file).Stands .fresh := ⟨rfl, rfl, rfl⟩

theorem Stands.moveTo {b : DzIstreamBuf} {st : Standing} (h : b.Stands st) (gptr : Nat) :
    ({ b with gptr } : DzIstreamBuf).Stands st := by
  cases st <;> exact h

theorem Stands.head {b : DzIstreamBuf} {st : Standing} (h : b.Stands st) (hlen : 0 < b.file.bufferLen) :
    b.buffer.head? = some st.first := by
  cases st with
  | fresh => rw [h.2.2, List.head?_replicate, if_neg (Nat.ne_of_gt hlen)]; rfl
  | loaded first => exact h.2

/-- What a read did, against what the chunks hold. -/
def Reads (Z : Zlib) (file : DzFile) (dest : Str) (r : Outcome Unit × Str × DzIstreamBuf) : Slice → Prop
  | .whole data st =>
    if (dest ++ data).length < 2 ^ 31 then
      ∃ b', r = (.ok (), dest ++ data, b') ∧ b'.file = file ∧ Sound Z b' ∧ b'.Stands st
    else r.1 = .error .undefined
  | .cut data =>
    if (dest ++ data).length < 2 ^ 31 then
      ∃ out b', r = (out, dest ++ data, b') ∧ (out = .ok () ∨ ∃ e, out = .error (.raised e))
    else r.1 = .error .undefined
  | .undefined => r.1 = .error .undefined

theorem Reads.prepend {file : DzFile} {dest cur : Str} {r : Outcome Unit × Str × DzIstreamBuf} {s : Slice}
    (h : Reads Z file (dest ++ cur) r s) : Reads Z file dest r (s.prepend cur) := by
  cases s <;> simp only [Reads, Slice.prepend, List.append_assoc] at h ⊢ <;> exact h

section Fetch

variable {file : DzFile}

/-- The loop with `cur` left, given the loop from where nothing is left. -/
theorem xsgetnLoop_left {k m : Nat} {later : List (Option Str)} {st : Standing}
    (hend : ∀ (fuel n : Nat) (b : DzIstreamBuf) (dest : Str), b.file = file → Left Z b k [] → b.Stands st → n ≠ 0 →
      dest.length < 2 ^ 31 → n + m < fuel → Reads Z file dest (xsgetnLoop Z fuel b n dest) (DzFile.fetch later st [] n))
    {fuel n : Nat} {b : DzIstreamBuf} {cur dest : Str} (hf : b.file = file) (hb : Left Z b k cur) (hst : b.Stands st)
    (hd : dest.length < 2 ^ 31) (hfuel : n + m < fuel) :
    Reads Z file dest (xsgetnLoop Z fuel b n dest) (DzFile.fetch later st cur n) := by
  obtain ⟨fuel, rfl⟩ : ∃ i, fuel = i + 1 := ⟨fuel - 1, by omega⟩
  by_cases hn : n = 0
  · subst hn
    rw [DzFile.fetch_of_le (Nat.zero_le _), List.take_zero, Reads, List.append_nil, if_pos hd]
    exact ⟨b, by simp [xsgetnLoop], hf, hb.sound, hst⟩
  by_cases hc : cur = []
  · subst hc
    exact hend _ _ _ _ hf hb hst hn hd hfuel
  have hpos := List.length_pos_iff.mpr hc
  rw [xsgetnLoop_copy hb hn (fill_left hb hc)]
  by_cases hle : n ≤ cur.length
  · -- This round is the last.
    rw [DzFile.fetch_of_le hle, Reads, Nat.min_eq_right hle, Nat.sub_self]
    split
    · obtain ⟨fuel, rfl⟩ : ∃ i, fuel = i + 1 := ⟨fuel - 1, by omega⟩
      exact ⟨{ b with gptr := b.gptr + n }, by simp [xsgetnLoop], hf, hb.sound.moveTo _, hst.moveTo _⟩
    · rfl
  · have hlt := Nat.lt_of_not_le hle
    rw [DzFile.fetch_prepend hlt, List.take_of_length_le (Nat.le_of_lt hlt), Nat.min_eq_left (Nat.le_of_lt hlt)]
    refine Reads.prepend ?_
    split
    · next hd' =>
      have hb' := hb.bump (Nat.le_refl _)
      rw [List.drop_length] at hb'
      exact hend fuel _ { b with gptr := b.gptr + cur.length } _ hf hb' (hst.moveTo _) (by omega) hd' (by omega)
    · next hd' =>
      have hlong : ∀ data : Str, ¬ (dest ++ cur ++ data).length < 2 ^ 31 := by
        intro data
        simp only [List.length_append] at hd' ⊢
        omega
      generalize DzFile.fetch later st [] (n - cur.length) = s
      cases s <;> simp only [Reads, if_neg (hlong _)]

/-- **The loop** delivers what is fetched from the chunks. -/
theorem xsgetnLoop_reads : ∀ (later : List (Option Str)) (fuel n : Nat) (b : DzIstreamBuf) (k : Nat) (cur dest : Str)
    (st : Standing), 0 < file.bufferLen → b.file = file → Left Z b k cur → b.Stands st → file.rest Z k = later →
    dest.length < 2 ^ 31 → n + later.length < fuel →
    Reads Z file dest (xsgetnLoop Z fuel b n dest) (DzFile.fetch later st cur n) := by
  intro later
  induction later with
  | nil =>
    intro fuel n b k cur dest st hlen hf hb hst hl hd hfuel
    have hk : file.chunkCount ≤ k := by
      by_contra hk
      rw [DzFile.rest_cons Z (Nat.lt_of_not_le hk)] at hl
      cases hl
    refine xsgetnLoop_left (fun fuel n b dest hf hb _ hn hd hfuel => ?_) hf hb hst hd hfuel
    obtain ⟨fuel, rfl⟩ : ∃ i, fuel = i + 1 := ⟨fuel - 1, by omega⟩
    rw [DzFile.fetch_nil (Nat.pos_of_ne_zero hn), Reads, List.append_nil, if_pos hd]
    refine ⟨.ok (), b, ?_, .inl rfl⟩
    simp only [xsgetnLoop, if_neg hn, fill_last hb (by rw [hf]; exact hk)]
  | cons o later ih =>
    intro fuel n b k cur dest st hlen hf hb hst hl hd hfuel
    have hk : k < file.chunkCount := by
      by_contra hk
      rw [DzFile.rest_nil Z (Nat.le_of_not_lt hk)] at hl
      cases hl
    rw [DzFile.rest_cons Z hk, List.cons.injEq] at hl
    obtain ⟨hload, hl⟩ := hl
    refine xsgetnLoop_left (fun fuel n b dest hf hb hst hn hd hfuel => ?_) hf hb hst hd hfuel
    rw [List.length_cons] at hfuel
    obtain ⟨fuel, rfl⟩ : ∃ i, fuel = i + 1 := ⟨fuel - 1, by omega⟩
    cases o with
    | none =>
      obtain ⟨e, b', hfill, -⟩ := fill_none hb (by rw [hf]; exact hk) (by rw [hf]; exact hload)
      rw [DzFile.fetch_none (Nat.pos_of_ne_zero hn), Reads, List.append_nil, if_pos hd]
      exact ⟨.error (.raised e), b', by simp only [xsgetnLoop, if_neg hn, hfill], .inr ⟨e, rfl⟩⟩
    | some out =>
      obtain ⟨b', hfill, hf', hb', hfirst⟩ :=
        fill_some hb (by rw [hf]; exact hk) (by rw [hf]; exact hload) (hst.head (hf ▸ hlen))
      rw [hf] at hf'
      rw [DzFile.fetch_some (Nat.pos_of_ne_zero hn)]
      by_cases hff : out.headD st.first = 0xFF
      · -- The chunk is taken for the end of the file.
        simp only [if_pos hff, Reads, List.append_nil, if_pos hd]
        exact ⟨.ok (), b', by simp only [xsgetnLoop, if_neg hn, hfill, hff, ne_eq, not_true_eq_false, decide_false],
          .inl rfl⟩
      · rw [decide_eq_true hff] at hfill
        have hst' : b'.Stands (.loaded (out.headD st.first)) := ⟨by have := hb'.next; omega, hfirst⟩
        simp only [if_neg hff, List.length_nil, Nat.sub_zero, Slice.prepend_nil]
        by_cases hout : out = []
        · -- A round that copies nothing.
          subst hout
          rw [xsgetnLoop_copy hb' hn hfill, List.take_nil, List.append_nil, if_pos hd, List.length_nil, Nat.zero_min]
          exact ih fuel n b' (k + 1) [] dest _ hlen hf' hb' hst' hl hd (by omega)
        · rw [xsgetnLoop_fill hn hfill (fill_left hb' hout)]
          exact ih (fuel + 1) n b' (k + 1) out dest _ hlen hf' hb' hst' hl hd (by omega)

end Fetch

/-- `xsgetn` from any place in the chunks. -/
theorem xsgetn_reads {b : DzIstreamBuf} {k : Nat} {cur : Str} {st : Standing} (hlen : 0 < b.file.bufferLen)
    (hb : Left Z b k cur) (hst : b.Stands st) (n : Nat) :
    Reads Z b.file [] (b.xsgetn Z n) (DzFile.fetch (b.file.rest Z k) st cur n) := by
  refine xsgetnLoop_reads _ _ n b k cur [] st hlen rfl hb hst rfl (by simp) ?_
  rw [DzFile.length_rest]
  have := b.file.chunkCount_le
  omega

/-- A read with the get pointer past the get area. -/
theorem xsgetn_past {b : DzIstreamBuf} (hg : b.egptr < b.gptr) {n : Nat} (hn : n ≠ 0) :
    b.xsgetn Z n = (.error .undefined, [], b) := by
  simp only [xsgetn, xsgetnLoop, if_neg hn, fill, if_neg (Nat.ne_of_gt hg), if_pos hg]

theorem xsgetn_zero {b : DzIstreamBuf} : b.xsgetn Z 0 = (.ok (), [], b) := by
  simp only [xsgetn, xsgetnLoop, if_true]

section Seek

variable {b : DzIstreamBuf} {chunkLen : Nat} {off : Int}

/-- `seekoff` from the beginning ends as loading the chunk does. -/
theorem seekoff_ok (hL : b.file.chunkLen = some chunkLen) (h0 : chunkLen ≠ 0) (hoff : 0 ≤ off) {b' : DzIstreamBuf}
    (hr : b.readChunk Z (int32 (sizeT off / chunkLen : Nat)) = (.ok (), b')) :
    b.seekoff Z off .beg = (.ok off, { b' with gptr := (int32 (sizeT off % chunkLen : Nat)).toNat }) := by
  simp only [seekoff, reduceCtorEq, if_false, hL, targetPos, if_neg h0, if_neg (Int.not_lt.mpr hoff), hr]

theorem seekoff_error (hL : b.file.chunkLen = some chunkLen) (h0 : chunkLen ≠ 0) (hoff : 0 ≤ off) {b' : DzIstreamBuf}
    {e : Stop} (hr : b.readChunk Z (int32 (sizeT off / chunkLen : Nat)) = (.error e, b')) :
    b.seekoff Z off .beg = (.error e, b') := by
  simp only [seekoff, reduceCtorEq, if_false, hL, targetPos, if_neg h0, if_neg (Int.not_lt.mpr hoff), hr]

/-- `seekoff` to a chunk that can be loaded. -/
theorem seekoff_some (hb : Sound Z b) (hL : b.file.chunkLen = some chunkLen) (h0 : chunkLen ≠ 0) (hoff : 0 ≤ off)
    {c : Nat} (hc : int32 (sizeT off / chunkLen : Nat) = c) {out : Str} (hload : b.file.load Z c = some out) :
    ∃ b', b.seekoff Z off .beg = (.ok off, b') ∧ b'.file = b.file ∧ Sound Z b' ∧ Loaded Z b' c out ∧
      b'.gptr = (int32 (sizeT off % chunkLen : Nat)).toNat ∧ (b.curChunk = c → b'.buffer = b.buffer) ∧
      (b.curChunk ≠ c → b'.buffer = overwrite b.buffer out) := by
  obtain ⟨b', hr, hf, hs, hl, hnew⟩ := readChunk_some hb hload
  have hsame : b.curChunk = c → b'.buffer = b.buffer := by
    intro hcur
    rw [readChunk, if_pos hcur.symm] at hr
    cases hr
    rfl
  refine ⟨_, seekoff_ok hL h0 hoff (hc ▸ hr), hf, hs.moveTo _, ?_, rfl, hsame, fun h => (hnew h).2⟩
  exact ⟨hl.curChunk, hl.load, hl.buffer, hl.egptr⟩

/-- `seekoff` to a chunk that cannot be loaded. -/
theorem seekoff_none (hb : Sound Z b) (hL : b.file.chunkLen = some chunkLen) (h0 : chunkLen ≠ 0) (hoff : 0 ≤ off)
    {c : Nat} (hc : int32 (sizeT off / chunkLen : Nat) = c) (hlt : c < b.file.chunks.length)
    (hload : b.file.load Z c = none) :
    ∃ e b', b.seekoff Z off .beg = (.error (.raised e), b') ∧ b'.file = b.file := by
  obtain ⟨e, b', hr, hf⟩ := readChunk_none hb hlt hload
  exact ⟨e, b', seekoff_error hL h0 hoff (hc ▸ hr), hf⟩

end Seek

end DzIstreamBuf

namespace DzIstream

variable {Z : Zlib}

/-- A stream on `file` that has not failed. -/
structure Live (Z : Zlib) (file : DzFile) (st : Standing) (s : DzIstream) : Prop where
  good : s.good = true
  file_eq : s.buf.file = file
  sound : s.buf.Sound Z
  stands : s.buf.Stands st

/-- A stream that has failed: it stays so, as nothing clears these bits. -/
def Dead (s : DzIstream) : Prop := s.failbit = true ∨ s.badbit = true

/-- What a seek and a read did, against what the chunks hold. -/
def Reads (Z : Zlib) (file : DzFile) (r : Outcome Unit × Str × DzIstream) : Slice → Prop
  | .whole data st => ∃ s', r = (.ok (), data, s') ∧ Live Z file st s'
  | .cut data => ∃ s', r = (.ok (), data, s') ∧ Dead s'
  | .undefined => r.1 = .error .undefined

theorem Dead.not_good {s : DzIstream} (h : s.Dead) : s.good = false := by
  rcases h with h | h <;> simp [good, h]

theorem Dead.read {s : DzIstream} (h : s.Dead) (n : Nat) : ∃ s', s.read Z n = (.ok (), [], s') ∧ s'.Dead :=
  ⟨_, by rw [DzIstream.read, if_pos h.not_good], .inl rfl⟩

theorem Dead.readAt {s : DzIstream} (h : s.Dead) (off : Int) (n : Nat) :
    ∃ s', s.readAt Z off n = (.ok (), [], s') ∧ s'.Dead := by
  have h' : ({ s with eofbit := false } : DzIstream).Dead := h
  have hs : s.seekg Z off = (.ok (), { s with eofbit := false, failbit := true }) := by
    simp only [seekg, if_pos h'.not_good]
  rw [DzIstream.readAt, hs]
  exact Dead.read (.inl rfl) n

section Live

variable {file : DzFile} {st : Standing} {s : DzIstream}

/-- What a good stream reads. -/
theorem Live.read_ok (h : Live Z file st s) {n : Nat} {dest : Str} {b : DzIstreamBuf}
    (hx : s.buf.xsgetn Z n = (.ok (), dest, b)) : ∃ s', s.read Z n = (.ok (), dest, s') := by
  simp only [DzIstream.read, h.good, Bool.true_eq_false, if_false, hx]
  exact ⟨_, rfl⟩

theorem Live.read_undefined (h : Live Z file st s) {n : Nat} (hx : (s.buf.xsgetn Z n).1 = .error .undefined) :
    (s.read Z n).1 = .error .undefined := by
  rcases hr : s.buf.xsgetn Z n with ⟨out, dest, b⟩
  rw [hr] at hx
  obtain rfl : out = .error .undefined := hx
  simp only [DzIstream.read, h.good, Bool.true_eq_false, if_false, hr]

/-- A read from a live stream whose buffer is at its place. -/
theorem Live.read (h : Live Z file st s) {n : Nat} {sl : Slice}
    (hr : DzIstreamBuf.Reads Z file [] (s.buf.xsgetn Z n) sl) (hfits : sl.Fits n) :
    Reads Z file (s.read Z n) (DzFile.bounded sl) := by
  have hgood := h.good
  simp only [DzIstream.good, Bool.and_eq_true, Bool.not_eq_eq_eq_not, Bool.not_true] at hgood
  obtain ⟨⟨heof, hfail⟩, hbad⟩ := hgood
  cases sl with
  | whole data st' =>
    by_cases hd : data.length < 2 ^ 31
    · rw [DzIstreamBuf.Reads, List.nil_append, if_pos hd] at hr
      obtain ⟨b', hx, hf, hs, hst⟩ := hr
      simp only [DzFile.bounded, if_pos hd]
      refine ⟨⟨b', false, false, false⟩, ?_, rfl, hf, hs, hst⟩
      have hn : data.length = n := hfits
      simp only [DzIstream.read, h.good, Bool.true_eq_false, if_false, hx, hn, ne_eq, not_true_eq_false, decide_false,
        hbad]
    · rw [DzIstreamBuf.Reads, List.nil_append, if_neg hd] at hr
      simp only [DzFile.bounded, if_neg hd]
      exact h.read_undefined hr
  | cut data =>
    by_cases hd : data.length < 2 ^ 31
    · rw [DzIstreamBuf.Reads, List.nil_append, if_pos hd] at hr
      obtain ⟨out, b', hx, ho⟩ := hr
      simp only [DzFile.bounded, if_pos hd]
      have hn : data.length ≠ n := Nat.ne_of_lt hfits
      rcases ho with rfl | ⟨e, rfl⟩
      · refine ⟨⟨b', true, true, false⟩, ?_, .inl rfl⟩
        simp only [DzIstream.read, h.good, Bool.true_eq_false, if_false, hx, ne_eq, hn, not_false_eq_true, decide_true,
          hbad]
      · refine ⟨⟨b', false, false, true⟩, ?_, .inr rfl⟩
        simp only [DzIstream.read, h.good, Bool.true_eq_false, if_false, hx, heof, hfail]
    · rw [DzIstreamBuf.Reads, List.nil_append, if_neg hd] at hr
      simp only [DzFile.bounded, if_neg hd]
      exact h.read_undefined hr
  | undefined => exact h.read_undefined hr

/-- The sentry of a seek on a good stream lets it through. -/
theorem Live.seekable (h : Live Z file st s) : ({ s with eofbit := false } : DzIstream).good = true := by
  have hgood := h.good
  simp only [DzIstream.good, Bool.and_eq_true, Bool.not_eq_eq_eq_not, Bool.not_true] at hgood
  simp [DzIstream.good, hgood.1.2, hgood.2]

/-- A seek that the buffer refuses, or that throws, fails the stream. -/
theorem Live.seekg_fails (h : Live Z file st s) {off : Int}
    (hs : (∃ b, s.buf.seekoff Z off .beg = (.ok (-1), b)) ∨ ∃ e b, s.buf.seekoff Z off .beg = (.error (.raised e), b)) :
    ∃ s', s.seekg Z off = (.ok (), s') ∧ s'.Dead := by
  have hgood := h.seekable
  rcases hs with ⟨b, hb⟩ | ⟨e, b, hb⟩
  · exact ⟨_, by simp only [seekg, hgood, Bool.true_eq_false, if_false, hb]; rfl, .inl rfl⟩
  · exact ⟨⟨b, false, s.failbit, true⟩, by simp only [seekg, hgood, Bool.true_eq_false, if_false, hb], .inr rfl⟩

/-- A seek that is undefined leaves the read undefined. -/
theorem Live.readAt_undefined (h : Live Z file st s) {off : Int} {b : DzIstreamBuf}
    (hb : s.buf.seekoff Z off .beg = (.error .undefined, b)) (n : Nat) :
    (s.readAt Z off n).1 = .error .undefined := by
  have hseek : s.seekg Z off = (.error .undefined, { s with eofbit := false, buf := b }) := by
    simp only [seekg, h.seekable, Bool.true_eq_false, if_false, hb]
  rw [DzIstream.readAt, hseek]

theorem Live.seekg_ok (h : Live Z file st s) {off p : Int} {b : DzIstreamBuf} {st' : Standing}
    (hb : s.buf.seekoff Z off .beg = (.ok p, b)) (hp : 0 ≤ p) (hf : b.file = file) (hs : b.Sound Z)
    (hst : b.Stands st') : ∃ s', s.seekg Z off = (.ok (), s') ∧ Live Z file st' s' ∧ s'.buf = b := by
  have hgood := h.good
  simp only [DzIstream.good, Bool.and_eq_true, Bool.not_eq_eq_eq_not, Bool.not_true] at hgood
  refine ⟨⟨b, false, false, false⟩, ?_, ⟨rfl, hf, hs, hst⟩, rfl⟩
  have hne : p ≠ -1 := by omega
  simp only [seekg, h.seekable, Bool.true_eq_false, if_false, hb, hne, decide_false]
  rw [hgood.2]

/-- No chunk has the number -1, but a fresh buffer takes it for the one it
holds. -/
theorem Live.readChunk_outside (h : Live Z file st s) {targetChunk : Int} (hfresh : ¬ (targetChunk = -1 ∧ st = .fresh))
    (hc : targetChunk < 0 ∨ (file.chunks.length : Int) ≤ targetChunk) :
    s.buf.readChunk Z targetChunk = (.error .undefined, s.buf) := by
  have hcur : targetChunk ≠ s.buf.curChunk := by
    rintro rfl
    rcases h.sound.current with hcur | ⟨c, out, hl⟩
    · cases st with
      | fresh => exact hfresh ⟨hcur, rfl⟩
      | loaded first => exact h.stands.1 hcur
    · have hlt := DzFile.load_lt Z hl.load
      have hcur := hl.curChunk
      rw [h.file_eq] at hlt
      omega
  rw [DzIstreamBuf.readChunk, if_neg hcur]
  by_cases h0 : 0 ≤ targetChunk
  · rw [if_pos h0, h.file_eq, List.getElem?_eq_none (by omega)]
  · rw [if_neg h0]

/-- The buffer after a seek to a chunk that can be loaded. -/
theorem Live.stands_loaded (h : Live Z file st s) (hlen : 0 < file.bufferLen) {b : DzIstreamBuf} {c : Nat} {out : Str}
    (hl : DzIstreamBuf.Loaded Z b c out)
    (hsame : s.buf.curChunk = c → b.buffer = s.buf.buffer)
    (hnew : s.buf.curChunk ≠ c → b.buffer = DzIstreamBuf.overwrite s.buf.buffer out) :
    b.Stands (.loaded (out.headD st.first)) := by
  have hhead := h.stands.head (h.file_eq ▸ hlen)
  refine ⟨by rw [hl.curChunk]; omega, ?_⟩
  by_cases hcur : s.buf.curChunk = c
  · rw [hsame hcur]
    cases out with
    | nil => exact hhead
    | cons x xs =>
      have hbuf := hl.buffer
      rw [hsame hcur] at hbuf
      cases hb : s.buf.buffer with
      | nil => rw [hb] at hhead; cases hhead
      | cons y ys =>
        rw [hb, List.length_cons, List.take_succ_cons, List.cons.injEq] at hbuf
        rw [hbuf.1]
        rfl
  · rw [hnew hcur, DzIstreamBuf.overwrite]
    cases out with
    | nil => exact hhead
    | cons x xs => rfl

/-- While nothing is loaded, chunk -1 is the current one: the zeros of the
buffer are read. -/
theorem Live.readAt_fresh (h : Live Z file .fresh s) {chunkLen : Nat} (hL : file.chunkLen = some chunkLen)
    (h0 : chunkLen ≠ 0) {off : Int} (hoff : 0 ≤ off) (hc : int32 (sizeT off / chunkLen : Nat) = -1) (n : Nat) :
    Reads Z file (s.readAt Z off n) (DzFile.bounded (DzFile.fetch (file.rest Z 0) .fresh
      (List.replicate (chunkLen - (int32 (sizeT off % chunkLen : Nat)).toNat) 0) n)) := by
  have hf := h.file_eq
  have hbuffer : file.bufferLen = chunkLen := by rw [DzFile.bufferLen, hL]; rfl
  obtain ⟨hcur, hegptr, hbuf⟩ := h.stands
  have hread : s.buf.readChunk Z (int32 (sizeT off / chunkLen : Nat)) = (.ok (), s.buf) := by
    rw [DzIstreamBuf.readChunk, if_pos (hc.trans hcur.symm)]
  have hseek := DzIstreamBuf.seekoff_ok (hf ▸ hL) h0 hoff hread
  set chunkPos := (int32 (sizeT off % chunkLen : Nat)).toNat with hpos
  have hle : chunkPos ≤ chunkLen := by
    have hmod := Nat.mod_lt (sizeT off) (Nat.pos_of_ne_zero h0)
    have hint := int32_toNat_le (sizeT off % chunkLen)
    omega
  obtain ⟨s', hsg, hlive, hb⟩ := h.seekg_ok hseek hoff hf (h.sound.moveTo _) (h.stands.moveTo _)
  have hleft : DzIstreamBuf.Left Z s'.buf 0 (List.replicate (chunkLen - chunkPos) 0) := by
    rw [hb]
    refine ⟨h.sound.moveTo _, by rw [hcur]; rfl, ?_, ?_, ?_⟩
    · rw [hegptr, hf, hbuffer, List.length_replicate]
      show chunkLen = chunkPos + (chunkLen - chunkPos)
      omega
    · rw [hegptr, hbuf, List.length_replicate]
    · rw [hbuf, hf, hbuffer, List.drop_replicate, List.length_replicate, List.take_replicate, Nat.min_self]
  have hlen : 0 < file.bufferLen := by rw [hbuffer]; exact Nat.pos_of_ne_zero h0
  have hr := DzIstreamBuf.xsgetn_reads (hlive.file_eq.symm ▸ hlen) hleft hlive.stands n
  rw [hlive.file_eq] at hr
  rw [DzIstream.readAt, hsg]
  exact hlive.read hr (DzFile.fetch_fits _ _ _ _)

/-- A read in a chunk that has been loaded, from where the seek has put the
stream. -/
theorem Live.read_loaded (h : Live Z file st s) (hlen : 0 < file.bufferLen) {c : Nat} {out : Str}
    (hl : DzIstreamBuf.Loaded Z s.buf c out) (n : Nat) :
    Reads Z file (s.read Z n) (if out.length < s.buf.gptr then (if n = 0 then .whole [] st else .undefined)
      else DzFile.bounded (DzFile.fetch (file.later Z c) st (out.drop s.buf.gptr) n)) := by
  split
  · next hpast =>
    split
    · next hn =>
      -- No character is looked at.
      subst hn
      have hx : DzIstreamBuf.Reads Z file [] (s.buf.xsgetn Z 0) (.whole [] st) := by
        rw [DzIstreamBuf.xsgetn_zero]
        exact ⟨s.buf, rfl, h.file_eq, h.sound, h.stands⟩
      exact h.read hx rfl
    · next hn => exact h.read_undefined (by rw [DzIstreamBuf.xsgetn_past (by rw [hl.egptr]; exact hpast) hn])
  · next hinside =>
    have hat : DzIstreamBuf.At Z s.buf c (out.drop s.buf.gptr) := ⟨h.sound, out, hl, rfl, Nat.le_of_not_lt hinside⟩
    have hr := DzIstreamBuf.xsgetn_reads (h.file_eq.symm ▸ hlen) hat.left h.stands n
    rw [h.file_eq] at hr
    exact h.read hr (DzFile.fetch_fits _ _ _ _)

/-- A seek that fails leaves nothing to be read. -/
theorem Live.readAt_cut (h : Live Z file st s) {off : Int}
    (hs : (∃ b, s.buf.seekoff Z off .beg = (.ok (-1), b)) ∨ ∃ e b, s.buf.seekoff Z off .beg = (.error (.raised e), b))
    (n : Nat) : Reads Z file (s.readAt Z off n) (.cut []) := by
  obtain ⟨s', hseek, hdead⟩ := h.seekg_fails hs
  rw [DzIstream.readAt, hseek]
  exact hdead.read n

end Live

/-- **A read of a live stream** delivers the slice, and leaves the stream
live exactly when the slice is whole. -/
theorem Live.readAt {file : DzFile} {st : Standing} {s : DzIstream} (h : Live Z file st s) (off : Int) (n : Nat) :
    Reads Z file (s.readAt Z off n) (file.slice Z st off n) := by
  have hf := h.file_eq
  simp only [DzFile.slice]
  split
  · next hL =>
    rw [← hf] at hL
    exact h.readAt_undefined (b := s.buf)
      (by simp only [DzIstreamBuf.seekoff, reduceCtorEq, if_false, hL]) n
  · next hL =>
    rw [← hf] at hL
    exact h.readAt_undefined (b := s.buf)
      (by simp only [DzIstreamBuf.seekoff, reduceCtorEq, if_false, hL, DzIstreamBuf.targetPos, if_true]) n
  next chunkLen h0 hfileL =>
  have hL : s.buf.file.chunkLen = some chunkLen := hf ▸ hfileL
  have hlen : 0 < file.bufferLen := by rw [DzFile.bufferLen, hfileL]; exact Nat.pos_of_ne_zero h0
  split
  · next hoff =>
    refine h.readAt_cut (.inl ⟨s.buf, ?_⟩) n
    simp only [DzIstreamBuf.seekoff, reduceCtorEq, if_false, hL, DzIstreamBuf.targetPos, if_neg h0, if_pos hoff]
  next hoff =>
  have hoff : 0 ≤ off := Int.not_lt.mp hoff
  split
  · next hfresh =>
    obtain ⟨hc, rfl⟩ := hfresh
    exact h.readAt_fresh hfileL h0 hoff hc n
  next hfresh =>
  split
  · next hc => exact h.readAt_undefined (DzIstreamBuf.seekoff_error hL h0 hoff (h.readChunk_outside hfresh hc)) n
  next hc =>
  obtain ⟨c, hc'⟩ : ∃ c : Nat, int32 (sizeT off / chunkLen : Nat) = c :=
    ⟨(int32 (sizeT off / chunkLen : Nat)).toNat, by omega⟩
  have hlt : c < file.chunks.length := by omega
  rw [hc', Int.toNat_natCast]
  split
  · next hload =>
    rw [← hf] at hload hlt
    obtain ⟨e, b', hs, -⟩ := DzIstreamBuf.seekoff_none h.sound hL h0 hoff hc' hlt hload
    exact h.readAt_cut (.inr ⟨e, b', hs⟩) n
  · next out hload =>
    rw [← hf] at hload
    obtain ⟨b', hseek, hf', hs', hl', hg, hsame, hnew⟩ := DzIstreamBuf.seekoff_some h.sound hL h0 hoff hc' hload
    obtain ⟨s', hsg, hlive, rfl⟩ := h.seekg_ok hseek hoff (hf'.trans hf) hs' (h.stands_loaded hlen hl' hsame hnew)
    have hread : s.readAt Z off n = s'.read Z n := by rw [DzIstream.readAt, hsg]
    rw [hread, ← hg]
    exact hlive.read_loaded hlen hl' n

end DzIstream

end AlpinoCorpus
