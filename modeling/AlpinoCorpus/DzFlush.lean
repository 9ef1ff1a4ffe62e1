/-
One flush of the put area, under what the manual of zlib promises of
`deflate`: a full flush is complete only when it returns with output space
left. `flushBuffer` calls `deflate` once and does not look at the space
left, so a flush that fills the output buffer loses its tail.
-/
import AlpinoCorpus.DzOstreamFacts
import AlpinoCorpus.StoredZlib

namespace AlpinoCorpus

namespace Zlib

/-- The streams with nothing pending: fresh, or after full flushes that all
returned with output space left. -/
inductive Border (Z : Zlib) (room : Nat) : Z.Stream → Prop
  | init : Border Z room Z.init
  | flushed {s : Z.Stream} {xs : Str} : Border Z room s → (Z.deflate s xs room .fullFlush).ret = .ok →
      (Z.deflate s xs room .fullFlush).out.length < room → Border Z room (Z.deflate s xs room .fullFlush).stream

/-- The promise: a full flush on a stream with nothing pending that returns
with output space left has taken all the input, and what it handed over
inflates, alone, to that. Nothing is promised of one that returns without. -/
def Obeys (Z : Zlib) (room : Nat) : Prop :=
  ∀ s xs, Z.Border room s → (Z.deflate s xs room .fullFlush).ret = .ok →
    (Z.deflate s xs room .fullFlush).out.length < room →
    (Z.deflate s xs room .fullFlush).consumed = xs.length ∧
      Inflates Z room (Z.deflate s xs room .fullFlush).out xs

end Zlib

namespace Stored

variable {pads room : Nat}

theorem pending_of_lt {pending xs : Str}
    (h : ((zlib pads).deflate pending xs room .fullFlush).out.length < room) :
    (flushed pads pending xs).length < room := by
  simp only [zlib, List.length_take] at h
  omega

theorem border_pending {s : (zlib pads).Stream} (h : (zlib pads).Border room s) : s = ([] : Str) := by
  cases h with
  | init => rfl
  | flushed hb hret hlt => exact List.drop_eq_nil_of_le (Nat.le_of_lt (pending_of_lt hlt))

/-- Stored blocks keep the promise. -/
theorem obeys (hroom : room ≤ 65536) : (zlib pads).Obeys room := by
  intro s xs hs _ hlt
  obtain rfl := border_pending hs
  have hlen := pending_of_lt hlt
  have hout : ((zlib pads).deflate [] xs room .fullFlush).out =
      ((List.replicate pads [] ++ [xs, []]).map block).flatten := List.take_of_length_le (Nat.le_of_lt hlen)
  have hflat : (List.replicate pads ([] : Str) ++ [xs, []]).flatten = xs := by simp
  have hxs : xs.length < room := by rw [length_flushed] at hlen; omega
  have hlens : ∀ ys ∈ List.replicate pads ([] : Str) ++ [xs, []], ys.length < 65536 := by
    intro ys hys
    simp only [List.mem_append, List.mem_replicate, List.mem_cons, List.not_mem_nil, or_false] at hys
    rcases hys with ⟨-, rfl⟩ | rfl | rfl
    · decide
    · omega
    · decide
  have hinf := inflate_blocks pads (by simp) hlens (n := room) (by rw [hflat]; omega)
  rw [hflat] at hinf
  rw [hout]
  exact ⟨rfl, by rw [hinf], by rw [hinf]; exact .inl rfl, by rw [hinf], by rw [hinf]⟩

end Stored

namespace DzOstreamBuf

variable {Z : Zlib}

/-- `avail_out` after the call of `deflate` in `flushBuffer`. -/
def availOut (b : DzOstreamBuf Z) : Nat :=
  dzPrefUncompressedSize - (Z.deflate b.zStream b.putArea.bytes dzPrefUncompressedSize .fullFlush).out.length

/-- The flush of `b` that left `b'` appended bytes that inflate, alone, to
the put area, and recorded their number. -/
def StoresPutArea (b b' : DzOstreamBuf Z) : Prop :=
  ∃ z, b'.zData = b.zData ++ z ∧ Inflates Z dzPrefUncompressedSize z b.putArea.bytes ∧
    b'.chunks = b.chunks ++ [z.length]

/-- What a flush that returns appends. -/
theorem flushBuffer_ok {b b' : DzOstreamBuf Z} (h : b.flushBuffer = (.ok (), b')) :
    (Z.deflate b.zStream b.putArea.bytes dzPrefUncompressedSize .fullFlush).ret = .ok ∧ b' = b.feed b.putArea.bytes := by
  by_cases hret : (Z.deflate b.zStream b.putArea.bytes dzPrefUncompressedSize .fullFlush).ret = .ok
  · rw [flushBuffer_feed hret] at h
    cases h
    exact ⟨hret, rfl⟩
  · rw [flushBuffer, if_neg hret] at h
    cases h

theorem storesPutArea_of_availOut {b b' : DzOstreamBuf Z} (hZ : Z.Obeys dzPrefUncompressedSize)
    (hb : Z.Border dzPrefUncompressedSize b.zStream) (h : b.flushBuffer = (.ok (), b')) (hav : 0 < b.availOut) :
    b.StoresPutArea b' := by
  obtain ⟨hret, rfl⟩ := flushBuffer_ok h
  obtain ⟨-, hinf⟩ := hZ _ _ hb hret (by unfold availOut at hav; omega)
  exact ⟨_, rfl, hinf, rfl⟩

/-- A flush stores the put area only if what `deflate` handed over inflates
to it. -/
theorem StoresPutArea.inflates {b b' : DzOstreamBuf Z} (h : b.flushBuffer = (.ok (), b')) (hs : b.StoresPutArea b') :
    Inflates Z dzPrefUncompressedSize
      (Z.deflate b.zStream b.putArea.bytes dzPrefUncompressedSize .fullFlush).out b.putArea.bytes := by
  obtain ⟨-, rfl⟩ := flushBuffer_ok h
  obtain ⟨z, hz, hinf, -⟩ := hs
  rw [feed, List.append_cancel_left_eq] at hz
  exact hz ▸ hinf

/-- A new buffer with this put area. -/
def ofArea (Z : Zlib) (area : PutArea) : DzOstreamBuf Z := { openFile Z with putArea := area }

/-- Empty blocks that fill the output buffer leave no room for the data. -/
theorem pads_not_stored {pads : Nat} (hp : 5 * pads = dzPrefUncompressedSize) (area : PutArea) (hne : area.bytes ≠ []) :
    (ofArea (Stored.zlib pads) area).availOut = 0 ∧ ∃ b', (ofArea (Stored.zlib pads) area).flushBuffer = (.ok (), b') ∧
      ¬ (ofArea (Stored.zlib pads) area).StoresPutArea b' := by
  have hsplit : Stored.flushed pads [] area.bytes =
      ((List.replicate pads []).map Stored.block).flatten ++ (Stored.block area.bytes ++ Stored.block []) := by
    simp [Stored.flushed]
  have hpads : (((List.replicate pads ([] : Str)).map Stored.block).flatten).length = dzPrefUncompressedSize := by
    have hl := congrArg List.length hsplit
    rw [Stored.length_flushed, List.length_append, List.length_append, Stored.length_block, Stored.length_block,
      List.length_nil] at hl
    omega
  have hout : ((Stored.zlib pads).deflate [] area.bytes dzPrefUncompressedSize .fullFlush).out =
      ((List.replicate pads []).map Stored.block).flatten := by
    show (Stored.flushed pads [] area.bytes).take _ = _
    rw [hsplit, List.take_left' hpads]
  have hflush : (ofArea (Stored.zlib pads) area).flushBuffer = (.ok (), _) := flushBuffer_feed rfl
  refine ⟨?_, _, hflush, fun hs => hne ?_⟩
  · show dzPrefUncompressedSize - ((Stored.zlib pads).deflate [] area.bytes dzPrefUncompressedSize .fullFlush).out.length = 0
    rw [hout, hpads, Nat.sub_self]
  · have hpos : pads ≠ 0 := by
      intro h0
      rw [h0] at hp
      exact absurd hp (by decide)
    have h0 := (hs.inflates hflush).out
    rw [show (ofArea (Stored.zlib pads) area).zStream = ([] : Str) from rfl,
      show (ofArea (Stored.zlib pads) area).putArea = area from rfl, hout,
      Stored.inflate_blocks pads (by simpa using hpos) (by simp) (by simp)] at h0
    simpa using h0.symm

/-- **A flush stores the whole put area**, whatever `deflate` that keeps its
promise is used, exactly when it returned with output space left. -/
theorem flush_stores_iff (area : PutArea) (hne : area.bytes ≠ []) (availOut : Nat) :
    (∀ (Z : Zlib), Z.Obeys dzPrefUncompressedSize → ∀ b b' : DzOstreamBuf Z,
      Z.Border dzPrefUncompressedSize b.zStream → b.putArea = area → b.flushBuffer = (.ok (), b') →
      b.availOut = availOut → b.StoresPutArea b') ↔ 0 < availOut := by
  constructor
  · intro h
    have hpads : 5 * 11663 = dzPrefUncompressedSize := rfl
    obtain ⟨hav, b', hflush, hnot⟩ := pads_not_stored hpads area hne
    by_contra h0
    exact hnot (h _ (Stored.obeys (by decide)) _ b' .init rfl hflush (hav.trans (by omega)))
  · intro hpos Z hZ b b' hb _ hflush hav
    exact storesPutArea_of_availOut hZ hb hflush (hav ▸ hpos)

/-- A full put area, of one character over and over. -/
def fullArea : PutArea := ⟨List.replicate dzPrefUncompressedSize 0x5a, by simp⟩

theorem length_fullArea : fullArea.bytes.length = dzPrefUncompressedSize := List.length_replicate

theorem flush_stores_full_area :
    (∀ (Z : Zlib), Z.Obeys dzPrefUncompressedSize → ∀ b b' : DzOstreamBuf Z,
      Z.Border dzPrefUncompressedSize b.zStream → b.putArea = fullArea → b.flushBuffer = (.ok (), b') →
      b.availOut = 40000 → b.StoresPutArea b') ↔ 0 < 40000 :=
  flush_stores_iff fullArea (List.length_pos_iff.mp (by rw [length_fullArea]; decide)) 40000

/-- Stored as it is, it does not fit. The header of the block takes the place of the last five bytes, and the
end of the flush is still pending. -/
theorem full_area_not_stored :
    (Stored.zlib 0).Obeys dzPrefUncompressedSize ∧
      (Stored.zlib 0).Border dzPrefUncompressedSize (ofArea (Stored.zlib 0) fullArea).zStream ∧
      ∃ b', (ofArea (Stored.zlib 0) fullArea).flushBuffer = (.ok (), b') ∧
        ¬ (ofArea (Stored.zlib 0) fullArea).StoresPutArea b' := by
  have hflush : (ofArea (Stored.zlib 0) fullArea).flushBuffer = (.ok (), _) := flushBuffer_feed rfl
  refine ⟨Stored.obeys (by decide), .init, _, hflush, fun hs => ?_⟩
  have hinf := congrArg List.length (hs.inflates hflush).out
  have hle := (Stored.zlib 0).deflate_le ([] : Str) fullArea.bytes dzPrefUncompressedSize .fullFlush
  rw [show (ofArea (Stored.zlib 0) fullArea).putArea = fullArea from rfl] at hinf
  rw [show (ofArea (Stored.zlib 0) fullArea).zStream = ([] : Str) from rfl] at hinf
  generalize ((Stored.zlib 0).deflate ([] : Str) fullArea.bytes dzPrefUncompressedSize .fullFlush).out = z at hinf hle
  rw [length_fullArea] at hinf
  exact absurd hinf (Nat.ne_of_lt (Stored.length_inflate_lt hle))

end DzOstreamBuf

end AlpinoCorpus
