/-
Runs of seeks and reads on the buffer of a dictzip file.

Wherever a run has brought the buffer, it stands at a position of the text
(`Seated`), as long as no seek has put it past the end. `xsgetn_stored_iff`
says when a read returns the stored bytes, `behaved_iff` when a run keeps
the buffer well formed.
-/
import AlpinoCorpus.DzContents
import AlpinoCorpus.StoredZlib

namespace AlpinoCorpus

namespace DzFile

variable {Z : Zlib} {f : DzFile} {L : Nat}

namespace Dictzip

theorem bufferLen (h : f.Dictzip Z L) : f.bufferLen = L := by rw [DzFile.bufferLen, h.chunkLen]; rfl

theorem chunkCount (h : f.Dictzip Z L) : f.chunkCount = f.chunks.length := chunkCount_of_opened h.opened

theorem load (h : f.Dictzip Z L) {i : Nat} (hi : i < f.chunks.length) :
    ∃ out, f.load Z i = some out ∧ (f.contents Z)[i]? = some out := by
  rw [← h.inflated] at hi
  have hget := getElem?_contents (Nat.le_of_lt hi)
  exact ⟨_, by rw [← hget, List.getElem?_eq_getElem hi], List.getElem?_eq_getElem hi⟩

theorem none_not_mem_rest (h : f.Dictzip Z L) (k : Nat) : none ∉ f.rest Z k := by
  intro hmem
  obtain ⟨i, hi, hload⟩ := List.mem_map.mp hmem
  rw [List.mem_range'_1, h.chunkCount] at hi
  obtain ⟨out, hsome, -⟩ := h.load (i := i) (by omega)
  rw [hsome] at hload
  cases hload

/-- Where chunk `c` starts. -/
theorem length_take (h : f.Dictzip Z L) {c : Nat} (hc : c < f.chunks.length) :
    ((f.contents Z).take c).flatten.length = c * L := by
  rw [← h.inflated] at hc
  have htake : (f.contents Z).take c = (f.contents Z).dropLast.take c := by
    rw [List.dropLast_eq_take, List.take_take, Nat.min_eq_left (by omega)]
  rw [htake, length_flatten_eq (L := L) fun out hout => h.full out (List.mem_of_mem_take hout), List.length_take,
    List.length_dropLast, Nat.min_eq_left (by omega)]

/-- Where chunk `c` ends. -/
theorem length_take_succ (h : f.Dictzip Z L) {c : Nat} {out : Str} (hout : (f.contents Z)[c]? = some out) :
    ((f.contents Z).take (c + 1)).flatten = ((f.contents Z).take c).flatten ++ out ∧
      ((f.contents Z).take (c + 1)).flatten.length = c * L + out.length := by
  obtain ⟨hc, rfl⟩ := List.getElem?_eq_some_iff.mp hout
  have happ : ((f.contents Z).take (c + 1)).flatten = ((f.contents Z).take c).flatten ++ (f.contents Z)[c] := by
    rw [List.take_succ_eq_append_getElem hc, List.flatten_append]
    simp
  exact ⟨happ, by rw [happ, List.length_append, h.length_take (by rw [← h.inflated]; exact hc)]⟩

theorem length_text_le (h : f.Dictzip Z L) : (f.text Z).length ≤ f.chunks.length * L := by
  rw [← h.inflated, ← h.bufferLen]
  exact DzFile.length_text_le f

theorem length_text_lt (h : f.Dictzip Z L) : (f.text Z).length < 2 ^ 47 :=
  length_text_lt_of_opened h.opened

/-- What a read sees after the chunks that were passed. -/
theorem entered (h : f.Dictzip Z L) {k : Nat} (hk : k ≤ (f.contents Z).length) (first : UInt8) :
    entered first (f.rest Z k) = (((f.contents Z).drop k).takeWhile fun out => out.head? ≠ some 0xFF).flatten := by
  rw [entered_rest h.chunkCount hk, entered_nonempty]
  intro out hout hnil
  have hlen := h.full out (mem_dropLast_of_mem_drop hout)
  rw [hnil, List.length_nil] at hlen
  have := h.pos
  omega

end Dictzip

end DzFile

namespace DzIstreamBuf

open DzFile

variable {Z : Zlib}

/-- The calls that reach the buffer, with the off_type they hand on. -/
inductive Call
  | seekoff (off : Int64) (dir : SeekDir)
  | xsgetn (n : Nat)

/-- What a call returns, what it copies, and the buffer after it. -/
def call (Z : Zlib) (b : DzIstreamBuf) : Call → Outcome Int × Str × DzIstreamBuf
  | .seekoff off dir => ((b.seekoff Z off.toInt dir).1, [], (b.seekoff Z off.toInt dir).2)
  | .xsgetn n =>
    let (r, dest, b) := b.xsgetn Z n
    (r.map fun () => (dest.length : Int), dest, b)

/-- The logical position, as `seekoff` computes it. -/
def position (b : DzIstreamBuf) : Int := b.curChunk * b.file.bufferLen + b.gptr

/-- The states that runs of defined calls reach. -/
inductive Reached (Z : Zlib) (file : DzFile) : DzIstreamBuf → Prop
  | start : Reached Z file (ofFile file)
  | call {b b' : DzIstreamBuf} {c : Call} {r : Outcome Int} {dest : Str} : Reached Z file b →
    b.call Z c = (r, dest, b') → r ≠ .error .undefined → Reached Z file b'

/-! ## What every call keeps -/

structure Kept (Z : Zlib) (file : DzFile) (b : DzIstreamBuf) : Prop where
  file_eq : b.file = file
  sound : Sound Z b
  room : b.egptr ≤ b.buffer.length

theorem Left.kept {b : DzIstreamBuf} {k : Nat} {cur : Str} (h : Left Z b k cur) : Kept Z b.file b :=
  ⟨rfl, h.sound, h.room⟩

theorem Kept.moveTo {file : DzFile} {b : DzIstreamBuf} (h : Kept Z file b) (gptr : Nat) : Kept Z file { b with gptr } :=
  ⟨h.file_eq, h.sound.moveTo gptr, h.room⟩

/-- With the get pointer inside the get area, something or nothing is left. -/
theorem Kept.left {file : DzFile} {b : DzIstreamBuf} (h : Kept Z file b) (hg : b.gptr ≤ b.egptr) :
    ∃ k cur, Left Z b k cur := by
  have hroom := h.room
  have hnext : ∃ k : Nat, b.curChunk + 1 = k := by
    rcases h.sound.current with hc | ⟨c, out, hl⟩
    · exact ⟨0, by rw [hc]; rfl⟩
    · exact ⟨c + 1, by rw [hl.curChunk]; rfl⟩
  obtain ⟨k, hk⟩ := hnext
  have hlen : ((b.buffer.drop b.gptr).take (b.egptr - b.gptr)).length = b.egptr - b.gptr := by
    rw [List.length_take, List.length_drop]; omega
  refine ⟨k, (b.buffer.drop b.gptr).take (b.egptr - b.gptr), h.sound, hk, ?_, hroom, ?_⟩
  · rw [hlen]; omega
  · rw [hlen]

section Dictzip

variable {file : DzFile} {L : Nat} {b : DzIstreamBuf}

theorem readChunk_kept (hd : file.Dictzip Z L) (hb : Kept Z file b) (n : Int) :
    (b.readChunk Z n = (.error .undefined, b) ∧ (n < 0 ∨ file.chunks.length ≤ n)) ∨
      ∃ b', b.readChunk Z n = (.ok (), b') ∧ Kept Z file b' ∧ b'.curChunk = n := by
  obtain rfl := hb.file_eq
  by_cases hcur : n = b.curChunk
  · exact .inr ⟨b, by rw [readChunk, if_pos hcur], hb, hcur.symm⟩
  by_cases hn : n < 0 ∨ b.file.chunks.length ≤ n
  · refine .inl ⟨?_, hn⟩
    have hnone : (if 0 ≤ n then b.file.chunks[n.toNat]? else none) = none := by
      split
      · exact List.getElem?_eq_none (by omega)
      · rfl
    rw [readChunk, if_neg hcur, hnone]
  · obtain ⟨i, rfl⟩ : ∃ i : Nat, n = i := ⟨n.toNat, by omega⟩
    obtain ⟨out, hload, -⟩ := hd.load (i := i) (by omega)
    obtain ⟨b', hr, hf, hs, hl, -⟩ := readChunk_some hb.sound hload
    refine .inr ⟨b', hr, ⟨hf, hs, ?_⟩, hl.curChunk⟩
    rw [hl.egptr, hs.length]
    exact load_le Z hl.load

/-- Every outcome of a seek in a dictzip file. -/
theorem seekoff_cases (hd : file.Dictzip Z L) (hb : Kept Z file b) (off : Int) (dir : SeekDir) :
    (∃ b', b.seekoff Z off dir = (.error .undefined, b')) ∨
    (b.seekoff Z off dir = (.ok (-1), b) ∧ (dir = .end_ ∨ ∃ t, b.targetPos L off dir = .ok t ∧ t < 0)) ∨
    ∃ t b', b.seekoff Z off dir = (.ok t, b') ∧ b.targetPos L off dir = .ok t ∧ 0 ≤ t ∧ Kept Z file b' := by
  have hL : b.file.chunkLen = some L := by rw [hb.file_eq]; exact hd.chunkLen
  have h0 : L ≠ 0 := Nat.ne_of_gt hd.pos
  by_cases hdir : dir = .end_
  · exact .inr (.inl ⟨by rw [seekoff, if_pos hdir], .inl hdir⟩)
  simp only [seekoff, if_neg hdir, hL]
  cases ht : b.targetPos L off dir with
  | error e =>
    left
    cases dir with
    | beg => cases ht
    | cur =>
      simp only [targetPos] at ht
      split at ht
      · cases ht
      · cases ht; exact ⟨b, rfl⟩
    | end_ => exact absurd rfl hdir
  | ok t =>
    simp only [if_neg h0]
    by_cases hneg : t < 0
    · rw [if_pos hneg]
      exact .inr (.inl ⟨rfl, .inr ⟨t, rfl, hneg⟩⟩)
    · rw [if_neg hneg]
      rcases readChunk_kept hd hb (int32 (sizeT t / L : Nat)) with ⟨hr, -⟩ | ⟨b', hr, hk, -⟩
      · rw [hr]; exact .inl ⟨b, rfl⟩
      · rw [hr]
        exact .inr (.inr ⟨t, _, rfl, rfl, Int.not_lt.mp hneg, hk.moveTo _⟩)

/-- Every outcome of a read in a dictzip file. -/
theorem xsgetn_cases (hd : file.Dictzip Z L) (hb : Kept Z file b) (n : Nat) :
    (∃ dest b', b.xsgetn Z n = (.error .undefined, dest, b')) ∨
      ∃ dest b', b.xsgetn Z n = (.ok (), dest, b') ∧ Kept Z file b' := by
  by_cases hn : n = 0
  · subst hn; exact .inr ⟨[], b, xsgetn_zero, hb⟩
  by_cases hg : b.egptr < b.gptr
  · exact .inl ⟨[], b, xsgetn_past hg hn⟩
  obtain ⟨k, cur, hl⟩ := hb.left (Nat.le_of_not_lt hg)
  have hlen : 0 < b.file.bufferLen := by rw [hb.file_eq, hd.bufferLen]; exact hd.pos
  obtain ⟨first, hfirst⟩ := hb.sound.first hlen
  have hscan := xsgetn_scans hl hfirst n
  rw [Scans, hb.file_eq] at hscan
  split at hscan
  · rcases hscan with ⟨b', hr, hf, k', cur', t, hl', -⟩ | ⟨e, b', -, -, -, hnone⟩
    · exact .inr ⟨_, b', hr, hf ▸ hl'.kept⟩
    · exact absurd hnone (hd.none_not_mem_rest k)
  · exact .inl hscan

/-- **Every reached state** has its current chunk in the buffer. -/
theorem Reached.kept (hd : file.Dictzip Z L) (h : Reached Z file b) : Kept Z file b := by
  induction h with
  | start => exact (left_ofFile file).kept
  | @call b b' c r dest _ hcall hr ih =>
    cases c with
    | seekoff off dir =>
      rcases seekoff_cases hd ih off.toInt dir with ⟨b₁, h⟩ | ⟨h, -⟩ | ⟨t, b₁, h, -, -, hk⟩
      · simp only [DzIstreamBuf.call, h, Prod.mk.injEq] at hcall
        exact absurd hcall.1.symm hr
      · simp only [DzIstreamBuf.call, h, Prod.mk.injEq] at hcall
        exact hcall.2.2 ▸ ih
      · simp only [DzIstreamBuf.call, h, Prod.mk.injEq] at hcall
        exact hcall.2.2 ▸ hk
    | xsgetn n =>
      rcases xsgetn_cases hd ih n with ⟨d, b₁, h⟩ | ⟨d, b₁, h, hk⟩
      · simp only [DzIstreamBuf.call, h, Prod.mk.injEq] at hcall
        exact absurd hcall.1.symm hr
      · simp only [DzIstreamBuf.call, h, Prod.mk.injEq] at hcall
        exact hcall.2.2 ▸ hk

/-! ## Positions -/

/-- The buffer stands at position `p` of the text. -/
structure Seated (Z : Zlib) (b : DzIstreamBuf) (p : Nat) : Prop where
  place : ∃ k cur pre, Left Z b k cur ∧ k ≤ (b.file.contents Z).length ∧
    ((b.file.contents Z).take k).flatten = pre ++ cur ∧ pre.length = p
  /-- Before the first chunk, the get area is as `readExtra` set it. -/
  fresh : b.curChunk = -1 → b.gptr = b.file.bufferLen

theorem seated_ofFile (file : DzFile) : Seated Z (ofFile file) 0 :=
  ⟨⟨0, [], [], left_ofFile file, Nat.zero_le _, rfl, rfl⟩, fun _ => rfl⟩

theorem Seated.gptr_le {p : Nat} (h : Seated Z b p) : b.gptr ≤ b.egptr := by
  obtain ⟨k, cur, pre, hl, -⟩ := h.place
  rw [hl.avail]; omega

theorem Seated.kept {p : Nat} (h : Seated Z b p) : Kept Z b.file b := by
  obtain ⟨k, cur, pre, hl, -⟩ := h.place
  exact hl.kept

/-- What is left of the text. -/
theorem Seated.text {p k : Nat} {cur pre : Str} (ht : ((file.contents Z).take k).flatten = pre ++ cur)
    (hp : pre.length = p) : (file.text Z).drop p = cur ++ ((file.contents Z).drop k).flatten := by
  have hall : file.text Z = pre ++ (cur ++ ((file.contents Z).drop k).flatten) := by
    rw [← List.append_assoc, ← ht, ← List.flatten_append, List.take_append_drop, DzFile.text]
  rw [hall, List.drop_left' hp]

theorem Seated.le {p : Nat} (h : Seated Z b p) : p ≤ (b.file.text Z).length := by
  obtain ⟨k, cur, pre, -, -, ht, hp⟩ := h.place
  have hall : b.file.text Z = pre ++ (cur ++ ((b.file.contents Z).drop k).flatten) := by
    rw [← List.append_assoc, ← ht, ← List.flatten_append, List.take_append_drop, DzFile.text]
  rw [hall, List.length_append, hp]
  omega

/-- In chunk `c`, the text position is computed from the get pointer. -/
theorem Kept.seated (hd : file.Dictzip Z L) (hb : Kept Z file b) {c : Nat} (hc : b.curChunk = c)
    (hg : b.gptr ≤ b.egptr) : Seated Z b (c * L + b.gptr) := by
  obtain rfl := hb.file_eq
  obtain ⟨k, cur, hl⟩ := hb.left hg
  obtain rfl : k = c + 1 := by have := hl.next; omega
  rcases hb.sound.current with h | ⟨c', out, hload⟩
  · omega
  obtain rfl : c' = c := by have := hload.curChunk; omega
  have hclt := load_lt Z hload.load
  obtain ⟨out', hload', hout⟩ := hd.load hclt
  obtain rfl : out' = out := Option.some.inj (hload'.symm.trans hload.load)
  obtain ⟨happ, -⟩ := hd.length_take_succ hout
  have hav := hl.avail
  have hcur : cur = out'.drop b.gptr := by
    have hbytes := hl.bytes
    have hlen : cur.length = out'.length - b.gptr := by rw [← hload.egptr]; omega
    rw [hlen, ← List.drop_take, hload.buffer] at hbytes
    exact hbytes.symm
  refine ⟨⟨c' + 1, cur, ((b.file.contents Z).take c').flatten ++ out'.take b.gptr, hl, ?_, ?_, ?_⟩, fun h => by omega⟩
  · rw [hd.inflated]; omega
  · rw [happ, hcur, List.append_assoc, List.take_append_drop]
  · rw [List.length_append, hd.length_take hclt, List.length_take, ← hload.egptr]; omega

/-- The position the buffer computes is its place in the text. -/
theorem Seated.position (hd : file.Dictzip Z L) {p : Nat} (h : Seated Z b p) (hf : b.file = file) : b.position = p := by
  obtain rfl := hf
  obtain ⟨k, cur, pre, hl, hk, ht, hp⟩ := h.place
  cases k with
  | zero =>
    have hpre : pre = [] := by
      have : pre ++ cur = [] := by rw [← ht, List.take_zero, List.flatten_nil]
      exact (List.append_eq_nil_iff.mp this).1
    have hcur : b.curChunk = -1 := by have := hl.next; omega
    rw [DzIstreamBuf.position, h.fresh hcur, hcur, ← hp, hpre, List.length_nil]
    omega
  | succ c =>
    have hc : b.curChunk = c := by have := hl.next; omega
    rcases h.kept.sound.current with hfresh | ⟨c', out, hload⟩
    · omega
    obtain rfl : c' = c := by have := hload.curChunk; omega
    obtain ⟨out', hload', hout⟩ := hd.load (load_lt Z hload.load)
    obtain rfl : out' = out := Option.some.inj (hload'.symm.trans hload.load)
    have hlen := (hd.length_take_succ hout).2
    have hav := hl.avail
    rw [ht, List.length_append, hp] at hlen
    rw [hload.egptr] at hav
    rw [DzIstreamBuf.position, hc, hd.bufferLen]
    have : p = c' * L + b.gptr := by omega
    rw [this]
    push_cast
    rfl

/-- What a read sees from here: the rest of the current chunk and the
chunks after it, up to the first that starts with 0xFF. -/
def readable (Z : Zlib) (b : DzIstreamBuf) : Str :=
  (b.buffer.drop b.gptr).take (b.egptr - b.gptr) ++
    (((b.file.contents Z).drop (b.curChunk + 1).toNat).takeWhile fun out => out.head? ≠ some 0xFF).flatten

theorem Left.readable {k : Nat} {cur : Str} (hl : Left Z b k cur) : b.readable Z =
    cur ++ (((b.file.contents Z).drop k).takeWhile fun out => out.head? ≠ some 0xFF).flatten := by
  rw [DzIstreamBuf.readable, hl.next, Int.toNat_natCast, hl.avail, Nat.add_sub_cancel_left, hl.bytes]

/-- **`xsgetn`** returns what is readable, and moves the position by it. -/
theorem Seated.xsgetn (hd : file.Dictzip Z L) {p : Nat} (h : Seated Z b p) (hf : b.file = file) (n : Nat) :
    if min n (b.readable Z).length < 2 ^ 31 then
      ∃ b', b.xsgetn Z n = (.ok (), (b.readable Z).take n, b') ∧ b'.file = file ∧
        Seated Z b' (p + min n (b.readable Z).length)
    else ∃ dest b', b.xsgetn Z n = (.error .undefined, dest, b') := by
  obtain rfl := hf
  obtain ⟨k, cur, pre, hl, hk, ht, hp⟩ := h.place
  have hlen : 0 < b.file.bufferLen := by rw [hd.bufferLen]; exact hd.pos
  obtain ⟨first, hfirst⟩ := h.kept.sound.first hlen
  have hscan := xsgetn_scans hl hfirst n
  rw [hd.entered hk, ← hl.readable, Scans] at hscan
  rw [← List.length_take]
  rw [List.nil_append] at hscan
  split at hscan
  · next hlt =>
    rw [if_pos hlt]
    rcases hscan with ⟨b', hr, hf, k', cur', t, hl', hpass, htext, hsame⟩ | ⟨e, b', -, -, -, hnone⟩
    · obtain ⟨hk', hflat⟩ := hpass.flatten hk
      refine ⟨b', hr, hf, ⟨k', cur', pre ++ (b.readable Z).take n, hl', hf ▸ hk', ?_, ?_⟩, fun hcur => ?_⟩
      · rw [hf, hflat, ht, List.append_assoc, htext, List.append_assoc]
      · rw [List.length_append, hp]
      · -- No chunk has been passed, so nothing has been read.
        obtain rfl : k' = 0 := by have := hl'.next; omega
        obtain rfl : k = 0 := by have := hpass.le; omega
        have hdata : (b.readable Z).take n = [] := by
          rw [List.take_zero, List.flatten_nil] at ht hflat
          have hcur' : cur = [] := (List.append_eq_nil_iff.mp ht.symm).2
          have htnil : t = [] := by rw [List.nil_append] at hflat; exact hflat.symm
          rw [hcur', htnil] at htext
          exact (List.append_eq_nil_iff.mp htext.symm).1
        rw [hsame rfl, hdata, List.length_nil, Nat.add_zero, hf]
        exact h.fresh (by have := hl.next; omega)
    · exact absurd hnone (hd.none_not_mem_rest k)
  · next hlt =>
    rw [if_neg hlt]
    exact hscan

/-! ## Sequential reads -/

/-- Up to the first chunk that starts with 0xFF, and through all of them. -/
theorem take_takeWhile_iff : ∀ (outs : List Str) (n : Nat), (∀ out ∈ outs.dropLast, out.length = L) →
    (((outs.takeWhile fun out => out.head? ≠ some 0xFF).flatten).take n = outs.flatten.take n ↔
      ∀ j out, outs[j]? = some out → j * L < n → out.head? ≠ some 0xFF)
  | [], n, _ => by simp
  | out :: outs, n, hfull => by
    by_cases hff : out.head? = some 0xFF
    · rw [List.takeWhile_cons_of_neg (by simp [hff]), List.flatten_nil, List.take_nil, List.flatten_cons]
      constructor
      · intro h j out' hj hlt
        have hlen := congrArg List.length h
        have hpos : 0 < out.length := List.length_pos_iff.mpr (by rintro rfl; cases hff)
        simp only [List.length_nil, List.length_take, List.length_append] at hlen
        omega
      · intro h
        have hn : n = 0 := by
          by_contra hn
          exact h 0 out rfl (by omega) hff
        rw [hn, List.take_zero]
    · have ih := take_takeWhile_iff outs (n - out.length) fun o ho => hfull o (mem_dropLast_cons ho)
      rw [List.takeWhile_cons_of_pos (by simp [hff]), List.flatten_cons, List.flatten_cons, List.take_append,
        List.take_append, List.append_cancel_left_eq, ih]
      have hlen : outs ≠ [] → out.length = L := by
        intro h
        refine hfull out ?_
        obtain ⟨o', outs', rfl⟩ := List.exists_cons_of_ne_nil h
        exact List.mem_cons_self
      constructor
      · intro h j out' hj hlt
        cases j with
        | zero => rw [List.getElem?_cons_zero, Option.some.injEq] at hj; exact hj ▸ hff
        | succ j =>
          rw [List.getElem?_cons_succ] at hj
          have := hlen (by intro h; rw [h] at hj; cases hj)
          refine h j out' hj ?_
          rw [Nat.add_mul] at hlt
          omega
      · intro h j out' hj hlt
        have := hlen (by intro h; rw [h] at hj; cases hj)
        refine h (j + 1) out' (by rw [List.getElem?_cons_succ]; exact hj) ?_
        rw [Nat.add_mul]
        omega

/-- A read of `n` characters at `p` returns as many as the text has there,
and it returns those. -/
def ReadsStored (Z : Zlib) (b : DzIstreamBuf) (p n : Nat) : Prop :=
  ∃ dest b', b.xsgetn Z n = (.ok (), dest, b') ∧ dest.length = min n ((b.file.text Z).length - p) ∧
    dest = ((b.file.text Z).drop p).take n

/-- **When a read returns the stored bytes**: exactly when no later chunk
that it has to enter starts with 0xFF. -/
theorem xsgetn_stored_iff (hd : file.Dictzip Z L) (hb : Reached Z file b) {c : Nat} (hc : b.curChunk = c)
    (hg : b.gptr ≤ b.egptr) {n : Nat} (hn : n < 2 ^ 31) :
    b.ReadsStored Z (c * L + b.gptr) n ↔
      ∀ i out, c < i → i * L < c * L + b.gptr + n → (file.contents Z)[i]? = some out → out.head? ≠ some 0xFF := by
  have hkept := hb.kept hd
  obtain rfl := hkept.file_eq
  have hseat := hkept.seated hd hc hg
  set p := c * L + b.gptr with hpdef
  obtain ⟨k, cur, pre, hl, hk, ht, hp⟩ := hseat.place
  obtain rfl : k = c + 1 := by have := hl.next; omega
  have hread := hseat.xsgetn hd rfl n
  rw [if_pos (by omega)] at hread
  obtain ⟨b', hr, -, -⟩ := hread
  have hiff : b.ReadsStored Z p n ↔ (b.readable Z).take n = ((b.file.text Z).drop p).take n := by
    constructor
    · intro ⟨dest, b'', hr', _, hdest⟩
      rw [hr, Prod.mk.injEq, Prod.mk.injEq] at hr'
      rw [hr'.2.1, hdest]
    · intro h
      exact ⟨_, b', hr, by rw [h, List.length_take, List.length_drop], h⟩
  rw [hiff, hl.readable, Seated.text ht hp, List.take_append, List.take_append, List.append_cancel_left_eq,
    take_takeWhile_iff (L := L) _ _ fun out hout => hd.full out (mem_dropLast_of_mem_drop hout)]
  -- Where a later chunk starts, seen from here.
  have hstart : ∀ j out, (b.file.contents Z)[c + 1 + j]? = some out → (c + 1) * L = p + cur.length := by
    intro j out hj
    have hlt := (List.getElem?_eq_some_iff.mp hj).1
    rw [hd.inflated] at hlt
    rw [← hd.length_take (c := c + 1) (by omega), ht, List.length_append, hp]
  constructor
  · intro h i out hci hlt hi
    obtain ⟨j, rfl⟩ : ∃ j, i = c + 1 + j := ⟨i - (c + 1), by omega⟩
    have := hstart j out hi
    refine h j out (by rw [List.getElem?_drop]; exact hi) ?_
    rw [Nat.add_mul] at hlt
    omega
  · intro h j out hj hlt
    rw [List.getElem?_drop] at hj
    have := hstart j out hj
    refine h (c + 1 + j) out (by omega) ?_ hj
    rw [Nat.add_mul]
    omega

end Dictzip

/-! ## A chunk that starts with 0xFF -/

/-- The characters of `abcd`, and a second chunk of 0xFF and `z`. -/
def ffFile : DzFile :=
  ⟨Stored.file 4 [Stored.block (str "abcd"), Stored.block [0xFF, 0x7A]], some 4, 26, [⟨0, 9⟩, ⟨9, 7⟩]⟩

theorem ffFile_dictzip : ffFile.Dictzip (Stored.zlib 0) 4 where
  opened := ⟨1, ffFile.stream, by decide +kernel⟩
  chunkLen := rfl
  pos := by decide
  chunks := by decide
  inflated := by decide +kernel
  full := by decide +kernel

/-- After a seek to the start. -/
def ffBuf : DzIstreamBuf := ((ofFile ffFile).call (Stored.zlib 0) (.seekoff 0 .beg)).2.2

theorem ffBuf_defined : ((ofFile ffFile).call (Stored.zlib 0) (.seekoff 0 .beg)).1 ≠ .error .undefined := by
  decide +kernel

theorem ffBuf_reached : Reached (Stored.zlib 0) ffFile ffBuf := by
  have hcall : (ofFile ffFile).call (Stored.zlib 0) (.seekoff 0 .beg) =
      (((ofFile ffFile).call (Stored.zlib 0) (.seekoff 0 .beg)).1, [], ffBuf) := Prod.ext rfl (Prod.ext rfl rfl)
  exact .call .start hcall ffBuf_defined

theorem ffBuf_curChunk : ffBuf.curChunk = (0 : Nat) := by decide +kernel

theorem ffBuf_gptr : ffBuf.gptr = 0 ∧ ffBuf.gptr ≤ ffBuf.egptr := by decide +kernel

theorem sample_stored_iff :
    ffBuf.ReadsStored (Stored.zlib 0) (0 * 4 + ffBuf.gptr) 4 ↔
      ∀ i out, 0 < i → i * 4 < 0 * 4 + ffBuf.gptr + 4 → (ffFile.contents (Stored.zlib 0))[i]? = some out →
        out.head? ≠ some 0xFF :=
  xsgetn_stored_iff ffFile_dictzip ffBuf_reached ffBuf_curChunk ffBuf_gptr.2 (by decide)

/-- Of six characters, a read of five at the start returns four. -/
theorem second_chunk_taken_for_end :
    ffFile.Dictzip (Stored.zlib 0) 4 ∧ Reached (Stored.zlib 0) ffFile ffBuf ∧ ffBuf.curChunk = (0 : Nat) ∧
      ffBuf.gptr = 0 ∧ ffBuf.gptr ≤ ffBuf.egptr ∧ ¬ ffBuf.ReadsStored (Stored.zlib 0) 0 5 := by
  refine ⟨ffFile_dictzip, ffBuf_reached, ffBuf_curChunk, ffBuf_gptr.1, ffBuf_gptr.2, ?_⟩
  intro ⟨dest, b', hr, hlen, _⟩
  have hread : (ffBuf.xsgetn (Stored.zlib 0) 5).2.1 = str "abcd" := by decide +kernel
  have htext : (ffBuf.file.text (Stored.zlib 0)).length = 6 := by decide +kernel
  rw [hr] at hread
  rw [show dest = str "abcd" from hread, htext] at hlen
  exact absurd hlen (by decide)

/-! ## Runs -/

/-- Where a seek is to go. -/
def target (b : DzIstreamBuf) (off : Int) : SeekDir → Int
  | .beg => off
  | .cur => b.position + off
  | .end_ => -1

/-- What is asked of a call: that it is defined (no chunk at or past the end
of the table is used, for one), that it keeps the get pointers in order, and
that a seek either fails and leaves the position, or goes where it says,
inside the text. -/
def CallOk (Z : Zlib) (b : DzIstreamBuf) (c : Call) : Prop :=
  ∃ r dest b', b.call Z c = (.ok r, dest, b') ∧ b'.gptr ≤ b'.egptr ∧
    match c with
    | .seekoff off dir =>
      (r = -1 ∧ b'.position = b.position ∨ 0 ≤ r ∧ r ≤ (b.file.text Z).length ∧ b'.position = r) ∧
        (off = 0 → dir = .cur → b'.position = b.position)
    | .xsgetn _ => True

/-- A seek to before the start, or to where the text is and a chunk with
it; a read of fewer than `2 ^ 31` characters. -/
def CallSafe (Z : Zlib) (b : DzIstreamBuf) : Call → Prop
  | .seekoff off dir =>
    b.target off.toInt dir < 0 ∨
      b.target off.toInt dir ≤ (b.file.text Z).length ∧
        (b.target off.toInt dir).toNat / b.file.bufferLen < b.file.chunks.length
  | .xsgetn n => min n (b.readable Z).length < 2 ^ 31

/-- Of every call of a run, in the state it finds. -/
def Along (Z : Zlib) (P : DzIstreamBuf → Call → Prop) : DzIstreamBuf → List Call → Prop
  | _, [] => True
  | b, c :: cs => P b c ∧ Along Z P (b.call Z c).2.2 cs

section Runs

variable {file : DzFile} {L p : Nat} {b : DzIstreamBuf}

/-- The position fits the types it is computed in. -/
theorem Seated.targetPos (hd : file.Dictzip Z L) (h : Seated Z b p) (hf : b.file = file) (off : Int64) (dir : SeekDir)
    (ht : b.target off.toInt dir < 2 ^ 63) : b.targetPos L off.toInt dir = .ok (b.target off.toInt dir) := by
  have hp := h.position hd hf
  have hle := h.le
  have hlt := hd.length_text_lt
  rw [hf] at hle
  cases dir with
  | beg => rfl
  | cur =>
    have hpos : b.curChunk * L + b.gptr = (p : Int) := by
      rw [← hd.bufferLen, ← hf]; exact hp
    have hmin := off.le_toInt
    simp only [target, hp] at ht ⊢
    simp only [DzIstreamBuf.targetPos, hpos]
    rw [sizeT_of_lt (by omega), int64_of_lt (by omega) (by omega), if_pos (by omega)]
  | end_ => rfl

/-- A seek into the text. -/
theorem Seated.seekoff_inside (hd : file.Dictzip Z L) (h : Seated Z b p) (hf : b.file = file) {off : Int64}
    {dir : SeekDir} {t : Nat} (ht : b.target off.toInt dir = t) (hle : t ≤ (file.text Z).length)
    (hlt : t / L < file.chunks.length) :
    ∃ b', b.seekoff Z off.toInt dir = (.ok t, b') ∧ b'.file = file ∧ Seated Z b' t := by
  obtain rfl := hf
  obtain ⟨fuel, bytes, hopen⟩ := hd.opened
  obtain ⟨hfew, hL⟩ := openFile_few hopen
  have hLle := hL L hd.chunkLen
  have hLpos := hd.pos
  have htext := hd.length_text_lt
  have hpos := h.targetPos hd rfl off dir (by omega)
  rw [ht] at hpos
  have hdir : dir ≠ .end_ := by
    intro hdir
    rw [hdir] at ht
    simp only [target] at ht
    omega
  obtain ⟨out, hload, hout⟩ := hd.load hlt
  obtain ⟨b', hr, hf', hs', hl', -⟩ := readChunk_some h.kept.sound hload
  have hmod : t % L < L := Nat.mod_lt _ hLpos
  have hchunk : int32 (sizeT (t : Int) / L : Nat) = (t / L : Nat) := by
    rw [sizeT_of_lt (by omega)]
    exact int32_of_lt (Int.natCast_nonneg _) (by exact_mod_cast Nat.lt_trans hlt hfew)
  have hchunkPos : (int32 (sizeT (t : Int) % L : Nat)).toNat = t % L := by
    have hsmall : t % L < 2 ^ 31 := by omega
    rw [sizeT_of_lt (by omega), int32_of_lt (Int.natCast_nonneg _) (by exact_mod_cast hsmall), Int.toNat_natCast]
  -- The offset in the chunk is in what the chunk inflates to.
  have hin : t % L ≤ out.length := by
    have hend := (hd.length_take_succ hout).2
    have hdm : t / L * L + t % L = t := Nat.div_add_mod' t L
    by_cases hlast : t / L + 1 < b.file.chunks.length
    · rw [hd.length_take hlast, Nat.add_mul, Nat.one_mul] at hend
      exact Nat.le_of_lt (Nat.add_left_cancel hend ▸ hmod)
    · have hall : (b.file.contents Z).length ≤ t / L + 1 := hd.inflated ▸ Nat.le_of_not_lt hlast
      rw [List.take_of_length_le hall] at hend
      rw [DzFile.text, hend] at hle
      exact Nat.le_of_add_le_add_left (hdm.symm ▸ hle : t / L * L + t % L ≤ t / L * L + out.length)
  have hroom : b'.egptr ≤ b'.buffer.length := by
    rw [hl'.egptr, hs'.length, hf']; exact load_le Z hload
  have hkept : Kept Z b.file { b' with gptr := t % L } := ⟨hf', hs'.moveTo _, hroom⟩
  have hseat := hkept.seated hd hl'.curChunk (by rw [hl'.egptr]; exact hin)
  refine ⟨{ b' with gptr := t % L }, ?_, hf', ?_⟩
  · simp only [seekoff, if_neg hdir, hd.chunkLen, hpos, if_neg (Nat.ne_of_gt hLpos), hchunk, hr, hchunkPos]
    rw [if_neg (by omega)]
  · rwa [Nat.mul_comm, Nat.div_add_mod] at hseat

/-- A seek to the end of a text whose last chunk is full: there is no chunk
for it. -/
theorem Seated.seekoff_past (hd : file.Dictzip Z L) (h : Seated Z b p) (hf : b.file = file) {off : Int}
    {dir : SeekDir} (hdir : dir ≠ .end_) {t : Nat} (hpos : b.targetPos L off dir = .ok t)
    (hle : t ≤ (file.text Z).length) (hge : file.chunks.length ≤ t / L) :
    b.seekoff Z off dir = (.error .undefined, b) := by
  obtain rfl := hf
  obtain ⟨fuel, bytes, hopen⟩ := hd.opened
  obtain ⟨hfew, -⟩ := openFile_few hopen
  have htext := hd.length_text_lt
  have hq : t / L ≤ b.file.chunks.length :=
    Nat.le_trans (Nat.div_le_div_right (Nat.le_trans hle hd.length_text_le)) (Nat.le_of_eq (Nat.mul_div_cancel _ hd.pos))
  have hchunk : int32 (sizeT (t : Int) / L : Nat) = (b.file.chunks.length : Nat) := by
    rw [sizeT_of_lt (by omega), Nat.le_antisymm hq hge]
    exact int32_of_lt (Int.natCast_nonneg _) (by exact_mod_cast hfew)
  have hcur : (b.file.chunks.length : Int) ≠ b.curChunk := by
    obtain ⟨k, cur, pre, hl, hk, -⟩ := h.place
    have := hl.next
    rw [hd.inflated] at hk
    omega
  have hread : b.readChunk Z b.file.chunks.length = (.error .undefined, b) := by
    rw [readChunk, if_neg hcur, if_pos (Int.natCast_nonneg _), Int.toNat_natCast,
      List.getElem?_eq_none (Nat.le_refl _)]
  simp only [seekoff, if_neg hdir, hd.chunkLen, hpos, if_neg (Nat.ne_of_gt hd.pos), hchunk, hread]
  rw [if_neg (by omega)]

/-- A call that is safe does what is asked of it, and leaves the buffer at
a position of the text. -/
theorem Seated.call_safe (hd : file.Dictzip Z L) (h : Seated Z b p) (hf : b.file = file) {c : Call}
    (hc : CallSafe Z b c) :
    CallOk Z b c ∧ (b.call Z c).2.2.file = file ∧ ∃ p', Seated Z (b.call Z c).2.2 p' := by
  have hp := h.position hd hf
  cases c with
  | seekoff off dir =>
    by_cases hneg : b.target off.toInt dir < 0
    · have hseek : b.seekoff Z off.toInt dir = (.ok (-1), b) := by
        by_cases hdir : dir = .end_
        · rw [seekoff, if_pos hdir]
        · have hpos := h.targetPos hd hf off dir (by omega)
          have hL : b.file.chunkLen = some L := by rw [hf]; exact hd.chunkLen
          simp only [seekoff, if_neg hdir, hL, hpos, if_neg (Nat.ne_of_gt hd.pos), if_pos hneg]
      have hcall : b.call Z (.seekoff off dir) = (.ok (-1), [], b) := by simp only [DzIstreamBuf.call, hseek]
      rw [hcall]
      exact ⟨⟨-1, [], b, hcall, h.gptr_le, .inl ⟨rfl, rfl⟩, fun _ _ => rfl⟩, hf, p, h⟩
    · obtain ⟨t, ht⟩ : ∃ t : Nat, b.target off.toInt dir = t := ⟨(b.target off.toInt dir).toNat, by omega⟩
      obtain ⟨hle, hlt⟩ := hc.resolve_left hneg
      rw [ht, Int.toNat_natCast, hf, hd.bufferLen] at hlt
      rw [ht, hf] at hle
      obtain ⟨b', hseek, hf', hseat⟩ := h.seekoff_inside hd hf ht (by exact_mod_cast hle) hlt
      have hcall : b.call Z (.seekoff off dir) = (.ok (t : Int), [], b') := by simp only [DzIstreamBuf.call, hseek]
      have hp' := hseat.position hd hf'
      rw [hcall]
      refine ⟨⟨t, [], b', hcall, hseat.gptr_le, .inr ⟨Int.natCast_nonneg t, hf ▸ hle, hp'⟩, fun h0 hcur => ?_⟩,
        hf', t, hseat⟩
      rw [h0, hcur, target, Int64.toInt_zero, Int.add_zero] at ht
      rw [hp', ← ht]
  | xsgetn n =>
    have hlt : min n (b.readable Z).length < 2 ^ 31 := hc
    have hread := h.xsgetn hd hf n
    rw [if_pos hlt] at hread
    obtain ⟨b', hr, hf', hseat⟩ := hread
    have hcall : b.call Z (.xsgetn n) = (.ok (((b.readable Z).take n).length : Int), (b.readable Z).take n, b') := by
      simp only [DzIstreamBuf.call, hr]; rfl
    rw [hcall]
    exact ⟨⟨_, _, b', hcall, hseat.gptr_le, trivial⟩, hf', _, hseat⟩

/-- A call that does what is asked of it is safe. -/
theorem Seated.safe_of_callOk (hd : file.Dictzip Z L) (h : Seated Z b p) (hf : b.file = file) {c : Call}
    (hc : CallOk Z b c) : CallSafe Z b c := by
  obtain ⟨r, dest, b', hcall, -, hok⟩ := hc
  cases c with
  | seekoff off dir =>
    by_cases hneg : b.target off.toInt dir < 0
    · exact .inl hneg
    have hdir : dir ≠ .end_ := by
      intro hdir
      rw [hdir, target] at hneg
      exact hneg (by decide)
    obtain ⟨t, ht⟩ : ∃ t : Nat, b.target off.toInt dir = t := ⟨(b.target off.toInt dir).toNat, by omega⟩
    simp only [DzIstreamBuf.call, Prod.mk.injEq] at hcall
    have htarget : ∀ t' : Int, b.targetPos L off.toInt dir = .ok t' → t' = t := by
      intro t' ht'
      rw [← ht]
      cases dir with
      | beg => cases ht'; rfl
      | cur =>
        have hle := h.le
        have hlt := hd.length_text_lt
        have hp := h.position hd hf
        have hpos : b.curChunk * L + b.gptr = (p : Int) := by
          rw [← hd.bufferLen, ← hf]; exact hp
        rw [hf] at hle
        simp only [DzIstreamBuf.targetPos, hpos, sizeT_of_lt (show p < 2 ^ 64 by omega),
          int64_of_lt (Int.natCast_nonneg p) (by omega)] at ht'
        split at ht'
        · cases ht'; rw [target, hp]
        · cases ht'
      | end_ => exact absurd rfl hdir
    obtain ⟨hr, -, -⟩ := hcall
    rcases seekoff_cases hd (hf ▸ h.kept) off.toInt dir with ⟨b₁, hs⟩ | ⟨hs, hend | ⟨t', ht', hlt⟩⟩ | ⟨t', b₁, hs, ht', h0, -⟩
    · rw [hs] at hr; cases hr
    · exact absurd hend hdir
    · rw [htarget t' ht'] at hlt
      omega
    · -- The seek went to its target, so that is in the text; were there no chunk, it would be undefined.
      rw [hs] at hr
      obtain rfl : t' = r := Except.ok.inj hr
      have heq := htarget t' ht'
      have hle : (t : Int) ≤ (b.file.text Z).length := by
        rcases hok.1 with ⟨hneg1, -⟩ | ⟨-, hle, -⟩
        · omega
        · omega
      refine .inr ⟨by rw [ht]; exact hle, ?_⟩
      rw [ht, Int.toNat_natCast, hf, hd.bufferLen]
      by_contra hge
      rw [h.seekoff_past hd hf hdir (heq ▸ ht') (hf ▸ (by exact_mod_cast hle)) (Nat.le_of_not_lt hge)] at hs
      cases hs
  | xsgetn n =>
    have hread := h.xsgetn hd hf n
    by_contra hlong
    have hlt : ¬ min n (b.readable Z).length < 2 ^ 31 := hlong
    rw [if_neg hlt] at hread
    obtain ⟨dest', b₁, hr⟩ := hread
    simp only [DzIstreamBuf.call, hr, Prod.mk.injEq] at hcall
    cases hcall.1

/-- Along a run, calls that do what is asked of them are those that are safe. -/
theorem Seated.along_iff (hd : file.Dictzip Z L) : ∀ (cs : List Call) {b : DzIstreamBuf} {p : Nat}, Seated Z b p →
    b.file = file → (Along Z (CallOk Z) b cs ↔ Along Z (CallSafe Z) b cs)
  | [], _, _, _, _ => Iff.rfl
  | c :: cs, b, p, h, hf => by
    have hrest : CallSafe Z b c →
        (Along Z (CallOk Z) (b.call Z c).2.2 cs ↔ Along Z (CallSafe Z) (b.call Z c).2.2 cs) := by
      intro hsafe
      obtain ⟨-, hf', p', h'⟩ := h.call_safe hd hf hsafe
      exact along_iff hd cs h' hf'
    constructor
    · intro ⟨hok, hoks⟩
      have hsafe := h.safe_of_callOk hd hf hok
      exact ⟨hsafe, (hrest hsafe).mp hoks⟩
    · intro ⟨hsafe, hsafes⟩
      exact ⟨(h.call_safe hd hf hsafe).1, (hrest hsafe).mpr hsafes⟩

/-- **Which runs keep the buffer well formed**: from a fresh buffer, those
whose calls are all safe. -/
theorem behaved_iff (hd : file.Dictzip Z L) (cs : List Call) :
    Along Z (CallOk Z) (ofFile file) cs ↔ Along Z (CallSafe Z) (ofFile file) cs :=
  (seated_ofFile file).along_iff hd cs rfl

end Runs

/-! ## A last chunk that is full -/

def fullFile : DzFile := ⟨Stored.file 4 [Stored.block (str "abcd")], some 4, 24, [⟨0, 9⟩]⟩

theorem fullFile_dictzip : fullFile.Dictzip (Stored.zlib 0) 4 where
  opened := ⟨1, fullFile.stream, by decide +kernel⟩
  chunkLen := rfl
  pos := by decide
  chunks := by decide
  inflated := by decide +kernel
  full := by decide +kernel

theorem sample_behaved_iff :
    Along (Stored.zlib 0) (CallOk (Stored.zlib 0)) (ofFile fullFile) [.xsgetn 3, .seekoff 0 .cur] ↔
      Along (Stored.zlib 0) (CallSafe (Stored.zlib 0)) (ofFile fullFile) [.xsgetn 3, .seekoff 0 .cur] :=
  behaved_iff fullFile_dictzip _

/-- All four characters are read; then the position is asked for. -/
theorem tell_at_end_undefined :
    fullFile.Dictzip (Stored.zlib 0) 4 ∧
      ¬ Along (Stored.zlib 0) (CallOk (Stored.zlib 0)) (ofFile fullFile) [.xsgetn 4, .seekoff 0 .cur] := by
  refine ⟨fullFile_dictzip, fun ⟨_, ⟨r, dest, b', hcall, _⟩, _⟩ => ?_⟩
  have hundef : (((ofFile fullFile).call (Stored.zlib 0) (.xsgetn 4)).2.2.call (Stored.zlib 0) (.seekoff 0 .cur)).1 =
      .error .undefined := by decide +kernel
  rw [hcall] at hundef
  cases hundef

end DzIstreamBuf

end AlpinoCorpus
