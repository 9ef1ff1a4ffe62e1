/-
What has been written to a `DzOstreamBuf`, whatever the sizes of the
writes: the put areas flushed so far are the first pieces of the text, and
the put area is the rest.

The invariant is `Wrote`: the state is the one that flushing these areas
one after another leaves (`fed`). A full put area is flushed only when more
characters come, so the put area is empty only before the first write; that
is what makes the flushed areas the pieces of the whole text, the text
still to come included.
-/
import AlpinoCorpus.DzOstream
import AlpinoCorpus.Lib.Pieces

namespace AlpinoCorpus

open Pieces

namespace DzOstreamBuf

variable {Z : Zlib}

/-! ## Flushing one area after another -/

/-- What a flush of `area` makes of the buffer when `deflate` succeeds. -/
def feed (b : DzOstreamBuf Z) (area : Str) : DzOstreamBuf Z :=
  let r := Z.deflate b.zStream area dzPrefUncompressedSize .fullFlush
  { zData := b.zData ++ r.out
    zStream := r.stream
    putArea := .empty
    size := b.size + area.length
    crc32 := Z.crc32 b.crc32 area
    chunks := b.chunks ++ [r.out.length] }

/-- A new buffer after these areas were flushed. -/
def fed (Z : Zlib) (areas : List Str) : DzOstreamBuf Z := areas.foldl feed (.openFile Z)

theorem fed_append (areas : List Str) (a : Str) : fed Z (areas ++ [a]) = (fed Z areas).feed a := by
  simp [fed]

theorem flushBuffer_feed {b : DzOstreamBuf Z}
    (h : (Z.deflate b.zStream b.putArea.bytes dzPrefUncompressedSize .fullFlush).ret = .ok) :
    b.flushBuffer = (.ok (), b.feed b.putArea.bytes) := by
  simp only [flushBuffer, feed, if_pos h]

/-- `deflate` succeeds on the put areas of the text, in order. -/
def Deflates (Z : Zlib) (text : Str) : Prop :=
  ∀ areas a, areas ++ [a] <+: pieces dzPrefUncompressedSize text →
    (Z.deflate (fed Z areas).zStream a dzPrefUncompressedSize .fullFlush).ret = .ok

/-- The areas can be deflated one after another by a new stream. -/
def FlushesAll (Z : Zlib) (areas : List Str) : Prop :=
  ∀ before a, before ++ [a] <+: areas → (Z.deflate (fed Z before).zStream a dzPrefUncompressedSize .fullFlush).ret = .ok

/-- `deflate` succeeds on the put areas that are full before the text ends.
The last one is left to the destructor. -/
def Flushes (Z : Zlib) (text : Str) : Prop := FlushesAll Z (pieces dzPrefUncompressedSize text).dropLast

theorem FlushesAll.append {areas : List Str} {a : Str} (h : FlushesAll Z areas)
    (ha : (Z.deflate (fed Z areas).zStream a dzPrefUncompressedSize .fullFlush).ret = .ok) : FlushesAll Z (areas ++ [a]) := by
  intro before x hpre
  rcases List.prefix_concat_iff.mp hpre with heq | hpre
  · obtain ⟨rfl, hx⟩ := List.append_inj' heq rfl
    rwa [List.singleton_inj.mp hx]
  · exact h before x hpre

theorem Deflates.flushes {text : Str} (h : Deflates Z text) : Flushes Z text :=
  fun before a hpre => h before a (hpre.trans (List.dropLast_prefix _))

/-- Every area but the one in the put area has been flushed. -/
structure Flushed (b : DzOstreamBuf Z) (areas : List Str) : Prop where
  state : b = { fed Z areas with putArea := b.putArea }
  full : ∀ a ∈ areas, a.length = dzPrefUncompressedSize

/-- The text written so far. -/
def text (b : DzOstreamBuf Z) (areas : List Str) : Str := areas.flatten ++ b.putArea.bytes

/-- The invariant of a buffer between two writes. -/
structure Wrote (b : DzOstreamBuf Z) (areas : List Str) : Prop extends Flushed b areas where
  lazy : areas ≠ [] → b.putArea.bytes ≠ []

theorem wrote_openFile : Wrote (.openFile Z) [] := ⟨⟨rfl, by simp⟩, by simp⟩

/-- The characters taken so far: `d_size` and what is in the put area. -/
def accepted (b : DzOstreamBuf Z) : Nat := b.size + b.putArea.bytes.length

theorem size_fed (areas : List Str) : (fed Z areas).size = areas.flatten.length := by
  induction areas using List.reverseRecOn with
  | nil => rfl
  | append_singleton areas a ih =>
    rw [fed_append, List.flatten_append, List.length_append, List.flatten_singleton, ← ih]
    rfl

theorem Wrote.accepted_eq {b : DzOstreamBuf Z} {areas} (h : Wrote b areas) : b.accepted = (b.text areas).length := by
  rw [accepted, text, List.length_append, ← size_fed (Z := Z)]
  congr 1
  rw [h.state]

namespace Flushed

variable {b : DzOstreamBuf Z} {areas : List Str}

theorem zStream (h : Flushed b areas) : b.zStream = (fed Z areas).zStream := by rw [h.state]

/-- Flushing the put area feeds it. -/
theorem flushBuffer (h : Flushed b areas)
    (hret : (Z.deflate (fed Z areas).zStream b.putArea.bytes dzPrefUncompressedSize .fullFlush).ret = .ok) :
    b.flushBuffer = (.ok (), fed Z (areas ++ [b.putArea.bytes])) := by
  rw [flushBuffer_feed (h.zStream.symm ▸ hret), fed_append]
  congr 1
  rw [h.state]
  rfl

/-- The areas of a text that can be deflated have been flushed well. -/
theorem flushesAll (h : Flushed b areas) {s : Str} (hne : areas ≠ [] → b.putArea.bytes ++ s ≠ [])
    (ha : Deflates Z (b.text areas ++ s)) : FlushesAll Z areas := by
  have hsplit := pieces_append (n := dzPrefUncompressedSize) (by decide) (b.putArea.bytes ++ s) areas h.full hne
  rw [text, List.append_assoc, Deflates, hsplit] at ha
  exact fun before a hpre => ha before a (hpre.trans (List.prefix_append _ _))

/-- A full put area before more text is not the last piece of the whole. -/
theorem full_piece (h : Flushed b areas) (hfull : b.putArea.bytes.length = dzPrefUncompressedSize) {s : Str}
    (hs : s ≠ []) : areas ++ [b.putArea.bytes] <+: (pieces dzPrefUncompressedSize (b.text areas ++ s)).dropLast := by
  have hsplit := pieces_append (n := dzPrefUncompressedSize) (by decide) s (areas ++ [b.putArea.bytes]) (by
    intro p hp
    rcases List.mem_append.mp hp with hp | hp
    · exact h.full p hp
    · rw [List.mem_singleton.mp hp]; exact hfull) (fun _ => hs)
  rw [List.flatten_append, List.flatten_singleton] at hsplit
  have hne : pieces dzPrefUncompressedSize s ≠ [] := by
    intro hnil
    exact hs (by rw [← pieces_flatten dzPrefUncompressedSize s, hnil]; rfl)
  rw [text, hsplit, List.dropLast_append_of_ne_nil hne]
  exact List.prefix_append _ _

/-- `makeRoom` before a nonempty rest of the text: room is made, or a full
put area of the text is not deflated. -/
theorem makeRoom_outcome (h : Flushed b areas) (hd : FlushesAll Z areas) :
    (∃ b' areas', b.makeRoom = (.ok (), b') ∧ Flushed b' areas' ∧ FlushesAll Z areas' ∧ b'.text areas' = b.text areas) ∨
      ∃ e b', b.makeRoom = (raise e, b') ∧ b'.accepted = b.accepted ∧
        ∀ s, s ≠ [] → ¬Flushes Z (b.text areas ++ s) := by
  unfold DzOstreamBuf.makeRoom
  by_cases hav : b.putArea.avail = 0
  · have hfull : b.putArea.bytes.length = dzPrefUncompressedSize := by
      have := b.putArea.le; unfold PutArea.avail at hav; omega
    rw [if_pos hav]
    by_cases hret : (Z.deflate (fed Z areas).zStream b.putArea.bytes dzPrefUncompressedSize .fullFlush).ret = .ok
    · refine .inl ⟨fed Z (areas ++ [b.putArea.bytes]), areas ++ [b.putArea.bytes], h.flushBuffer hret, ⟨rfl, ?_⟩,
        hd.append hret, ?_⟩
      · intro a ha
        rcases List.mem_append.mp ha with ha | ha
        · exact h.full a ha
        · rw [List.mem_singleton.mp ha]; exact hfull
      · rw [text, text, fed_append, List.flatten_append, List.flatten_singleton]
        exact List.append_nil _
    · rw [← h.zStream] at hret
      have hfail : b.flushBuffer =
          (raise (zError (Z.deflate b.zStream b.putArea.bytes dzPrefUncompressedSize .fullFlush).msg),
            { b with zStream := (Z.deflate b.zStream b.putArea.bytes dzPrefUncompressedSize .fullFlush).stream }) := by
        simp only [DzOstreamBuf.flushBuffer, if_neg hret]
      rw [h.zStream] at hret
      exact .inr ⟨_, _, hfail, rfl, fun s hs hf => hret (hf _ _ (h.full_piece hfull hs))⟩
  · exact .inl ⟨b, areas, by rw [if_neg hav], h, hd, rfl⟩

/-- In a text that can be deflated there is room for at least one more
character. -/
theorem makeRoom (h : Flushed b areas) {s : Str} (hs : s ≠ []) (ha : Deflates Z (b.text areas ++ s)) :
    ∃ b' areas', b.makeRoom = (.ok (), b') ∧ Flushed b' areas' ∧ b'.text areas' = b.text areas := by
  rcases h.makeRoom_outcome (h.flushesAll (fun _ => by simp [hs]) ha) with ⟨b', areas', hroom, hf, -, ht⟩ | ⟨e, b', -, -, hnot⟩
  · exact ⟨b', areas', hroom, hf, ht⟩
  · exact absurd ha.flushes (hnot s hs)

/-- Characters that fit go into the put area. -/
theorem push (h : Flushed b areas) {s : Str} (hs : s ≠ []) (hle : s.length ≤ b.putArea.avail) :
    Wrote { b with putArea := b.putArea.push s hle } areas ∧
      ({ b with putArea := b.putArea.push s hle } : DzOstreamBuf Z).text areas = b.text areas ++ s := by
  refine ⟨⟨⟨?_, h.full⟩, fun _ => ?_⟩, ?_⟩
  · exact congrArg (fun c : DzOstreamBuf Z => { c with putArea := b.putArea.push s hle }) h.state
  · simp [PutArea.push, hs]
  · simp [text, PutArea.push]

end Flushed

/-! ## Writing -/

/-- What a write does: it takes all of `s`, or counts past an `int`, or
throws at a full put area that is not deflated. -/
theorem xsputnLoop_outcome : ∀ (s : Str) (n : Nat) (b : DzOstreamBuf Z) (areas : List Str), Wrote b areas →
    FlushesAll Z areas →
    (∃ b' areas', b.xsputnLoop s n = (.ok (n + s.length), b') ∧ Wrote b' areas' ∧ FlushesAll Z areas' ∧
        b'.text areas' = b.text areas ++ s) ∨
      (2 ^ 31 ≤ n + s.length ∧ (b.xsputnLoop s n).1 = .error .undefined) ∨
      ∃ e b', b.xsputnLoop s n = (raise e, b') ∧ b'.accepted < b.accepted + s.length ∧
        ∀ tail, ¬Flushes Z (b.text areas ++ (s ++ tail)) := by
  intro s
  induction hk : s.length using Nat.strongRecOn generalizing s with
  | ind k ih =>
  intro n b areas hw hd
  by_cases hs : s = []
  · subst hs; subst hk
    exact .inl ⟨b, areas, by rw [xsputnLoop]; simp, hw, hd, by simp⟩
  have hpos : 0 < s.length := List.length_pos_iff.mpr hs
  rcases hw.toFlushed.makeRoom_outcome hd with ⟨b₁, areas₁, hroom, hf₁, hd₁, ht₁⟩ | ⟨e, b', hroom, hacc, hnot⟩
  · have hav := makeRoom_avail hroom
    -- One round copies `m` characters.
    set m := min b₁.putArea.avail s.length with hm
    have hlen : (s.take m).length ≤ b₁.putArea.avail := by rw [List.length_take]; omega
    have hne : s.take m ≠ [] := by rw [Ne, ← List.length_eq_zero_iff, List.length_take]; omega
    obtain ⟨hw₂, ht₂⟩ := hf₁.push hne hlen
    rw [ht₁] at ht₂
    set b₂ : DzOstreamBuf Z := { b₁ with putArea := b₁.putArea.push (s.take m) hlen } with hb₂
    have hloop : b.xsputnLoop s n = if n + m ≥ 2 ^ 31 then (.error .undefined, b₁) else b₂.xsputnLoop (s.drop m) (n + m) := by
      rw [xsputnLoop, dif_neg hs]
      split
      · next e b₃ he => rw [hroom] at he; simp at he
      · next b₃ he =>
        rw [hroom] at he
        simp only [Prod.mk.injEq, true_and] at he
        subst he
        rfl
    have hrest : (s.drop m).length = k - m := by rw [List.length_drop, hk]
    have hsum : n + m + (s.drop m).length = n + k := by rw [hrest]; omega
    have htext : ∀ tail, b₂.text areas₁ ++ (s.drop m ++ tail) = b.text areas ++ (s ++ tail) := by
      intro tail
      rw [ht₂, List.append_assoc, ← List.append_assoc (s.take m), List.take_append_drop]
    rw [hloop]
    by_cases hint : n + m ≥ 2 ^ 31
    · rw [if_pos hint]
      exact .inr (.inl ⟨by omega, rfl⟩)
    · rw [if_neg hint]
      rcases ih (s.drop m).length (by omega) (s.drop m) rfl (n + m) b₂ areas₁ hw₂ hd₁ with
        ⟨b', areas', hrun, hw', hd', ht'⟩ | ⟨hge, hundef⟩ | ⟨e, b', hrun, hacc, hnot⟩
      · refine .inl ⟨b', areas', by rw [hrun, hsum], hw', hd', ?_⟩
        have h := htext []
        rw [List.append_nil, List.append_nil] at h
        rw [ht', h]
      · exact .inr (.inl ⟨by omega, hundef⟩)
      · refine .inr (.inr ⟨e, b', hrun, ?_, fun tail hf => hnot tail (by rw [htext]; exact hf)⟩)
        have h₁ : b₂.accepted = b.accepted + m := by
          rw [hw₂.accepted_eq, hw.accepted_eq, ht₂, List.length_append, List.length_take]
          omega
        omega
  · refine .inr (.inr ⟨e, b', ?_, by omega, fun tail => ?_⟩)
    · rw [xsputnLoop, dif_neg hs]
      split
      · next e₃ b₃ he =>
        rw [hroom] at he
        cases he
        rfl
      · next b₃ he => rw [hroom] at he; cases he
    · exact hnot (s ++ tail) (by simp [hs])

/-- A write of `s` before a rest `tail` of the text. -/
theorem xsputn_wrote {b : DzOstreamBuf Z} {areas} {s tail : Str} (h : Wrote b areas)
    (ha : Deflates Z (b.text areas ++ (s ++ tail))) (hs : s.length < 2 ^ 31) :
    ∃ b' areas', b.xsputn s = (.ok s.length, b') ∧ Wrote b' areas' ∧ b'.text areas' = b.text areas ++ s := by
  have hd : FlushesAll Z areas := h.toFlushed.flushesAll (fun hne hnil => h.lazy hne (List.append_eq_nil_iff.mp hnil).1) ha
  rcases xsputnLoop_outcome s 0 b areas h hd with ⟨b', areas', hrun, hw, -, ht⟩ | ⟨hge, -⟩ | ⟨e, b', -, -, hnot⟩
  · exact ⟨b', areas', by rw [xsputn, hrun, Nat.zero_add], hw, ht⟩
  · omega
  · exact absurd ha.flushes (hnot tail)

/-- The areas of a buffer between two writes are the pieces of its text. -/
theorem Wrote.pieces_text {b : DzOstreamBuf Z} {areas} (h : Wrote b areas) :
    pieces dzPrefUncompressedSize (b.text areas) = areas ++ [b.putArea.bytes] := by
  rw [text, pieces_append (by decide) _ _ h.full h.lazy, pieces_of_le b.putArea.le]

/-- The finished file, by the state after the last flush. -/
theorem close_wrote {b : DzOstreamBuf Z} {areas} (h : Wrote b areas) (ha : Deflates Z (b.text areas)) (secs : Nat) :
    let b' := fed Z (pieces dzPrefUncompressedSize (b.text areas))
    b.close secs = writeHeader secs ++ writeChunkInfo b'.chunks ++
      (b'.zData ++ (Z.deflate b'.zStream [] dzPrefUncompressedSize .finish).out) ++ b'.writeTrailer := by
  have hret := ha areas b.putArea.bytes (h.pieces_text ▸ List.prefix_rfl)
  simp only [close, h.toFlushed.flushBuffer hret, h.pieces_text]

/-! ## Chunks that inflate -/

/-- What the areas are deflated to, from a stream on. -/
def deflated (Z : Zlib) : Z.Stream → List Str → List Str
  | _, [] => []
  | s, a :: areas =>
    let r := Z.deflate s a dzPrefUncompressedSize .fullFlush
    r.out :: deflated Z r.stream areas

theorem foldl_feed (areas : List Str) : ∀ b : DzOstreamBuf Z,
    (areas.foldl feed b).zData = b.zData ++ (deflated Z b.zStream areas).flatten ∧
      (areas.foldl feed b).chunks = b.chunks ++ (deflated Z b.zStream areas).map List.length := by
  induction areas with
  | nil => intro b; simp [deflated]
  | cons a areas ih =>
    intro b
    obtain ⟨hz, hc⟩ := ih (b.feed a)
    rw [List.foldl_cons, hz, hc]
    simp [feed, deflated]

end DzOstreamBuf

/-- Inflating `z` alone gives `xs`. -/
structure Inflates (Z : Zlib) (room : Nat) (z xs : Str) : Prop where
  init : (Z.inflate z room).init = true
  ret : (Z.inflate z room).ret = .ok ∨ (Z.inflate z room).ret = .streamEnd
  out : (Z.inflate z room).out = xs
  ended : (Z.inflate z room).ended = true

/-- What is asked of zlib for a text. A new stream deflates its put areas
one after another, each with a full flush into the room there is, and what
it wrote for one of them inflates, alone, to that one. -/
structure PutAreas (Z : Zlib) (text : Str) : Prop where
  deflates : DzOstreamBuf.Deflates Z text
  inflates : ∀ areas a, areas ++ [a] <+: pieces dzPrefUncompressedSize text →
    Inflates Z dzPrefUncompressedSize
      (Z.deflate (DzOstreamBuf.fed Z areas).zStream a dzPrefUncompressedSize .fullFlush).out a

namespace DzOstreamBuf

variable {Z : Zlib}

/-- Every area inflates, if each does behind those before it. -/
theorem deflated_inflates : ∀ {areas before : List Str},
    (∀ mid a, mid ++ [a] <+: areas → Inflates Z dzPrefUncompressedSize
      (Z.deflate (fed Z (before ++ mid)).zStream a dzPrefUncompressedSize .fullFlush).out a) →
    List.Forall₂ (Inflates Z dzPrefUncompressedSize) (deflated Z (fed Z before).zStream areas) areas
  | [], _, _ => .nil
  | a :: areas, before, h => by
    have ha := h [] a (by simp)
    rw [List.append_nil] at ha
    have htail := @deflated_inflates areas (before ++ [a]) fun mid x hpre => by
      rw [List.append_assoc, List.singleton_append]
      exact h (a :: mid) x (List.cons_prefix_cons.mpr ⟨rfl, hpre⟩)
    rw [fed_append] at htail
    exact .cons ha htail

theorem deflated_le : ∀ (areas : List Str) (s : Z.Stream), ∀ z ∈ deflated Z s areas, z.length ≤ dzPrefUncompressedSize
  | [], _, z, h => nomatch h
  | a :: areas, s, z, h => by
    rcases List.mem_cons.mp h with h | h
    · exact h ▸ Z.deflate_le _ _ _ _
    · exact deflated_le areas _ z h

/-- The finished file of a text that zlib can make chunks of: the header, a
table of the deflated pieces of the text, these pieces, and something after
them. -/
theorem close_chunks {b : DzOstreamBuf Z} {areas} (h : Wrote b areas) (ha : PutAreas Z (b.text areas)) (secs : Nat) :
    ∃ (zs : List Str) (rest : Str),
      b.close secs = writeHeader secs ++ writeChunkInfo (zs.map List.length) ++ (zs.flatten ++ rest) ∧
      List.Forall₂ (Inflates Z dzPrefUncompressedSize) zs (pieces dzPrefUncompressedSize (b.text areas)) ∧
      ∀ z ∈ zs, z.length ≤ dzPrefUncompressedSize := by
  set b' := fed Z (pieces dzPrefUncompressedSize (b.text areas)) with hb'
  obtain ⟨hz, hc⟩ := foldl_feed (pieces dzPrefUncompressedSize (b.text areas)) (.openFile Z)
  refine ⟨deflated Z Z.init (pieces dzPrefUncompressedSize (b.text areas)),
    (Z.deflate b'.zStream [] dzPrefUncompressedSize .finish).out ++ b'.writeTrailer, ?_,
    @deflated_inflates Z _ [] ha.inflates, deflated_le _ _⟩
  rw [close_wrote h ha.deflates, ← hb', show b'.chunks = _ from hc, show b'.zData = _ from hz]
  simp only [openFile, List.nil_append, List.append_assoc]

end DzOstreamBuf

end AlpinoCorpus
