/-
Whether what a compact corpus returns depends on what was read before.

It does. Nothing clears the state of the shared stream, so a read that
reaches past the end of the data, into a chunk that cannot be loaded or
into one that begins with 0xFF, makes every later read return zeros. And
where two chunks in a row are empty, `underflow` looks at a character that
an earlier read left in the buffer. `readEntry_history_iff` says exactly
which histories an entry can tell apart.
-/
import AlpinoCorpus.CompactRoundTrip

namespace AlpinoCorpus

/-! ## What a read can tell of the buffer -/

namespace Slice

/-- The characters that were read. -/
def data : Slice → Str
  | whole data _ | cut data => data
  | undefined => []

/-- The outcome without how the buffer is left. -/
def forget : Slice → Slice
  | whole data _ => whole data .fresh
  | cut data => cut data
  | undefined => undefined

theorem forget_prepend (s : Slice) (xs : Str) : (s.prepend xs).forget = s.forget.prepend xs := by cases s <;> rfl

end Slice

namespace DzFile

variable (Z : Zlib)

/-- The chunk of `off` is empty, and so is the one after it: there an older
character decides whether `underflow` goes on. -/
def Exposed (f : DzFile) (off : Int) : Prop :=
  ∃ chunkLen c : Nat, f.chunkLen = some chunkLen ∧ int32 (sizeT off / chunkLen : Nat) = c ∧
    f.load Z c = some [] ∧ c + 1 < f.chunkCount ∧ f.load Z (c + 1) = some []

variable {Z} {f : DzFile} {a b : Standing} {off : Int} {n : Nat}

theorem forget_bounded (s : Slice) : (bounded s).forget = bounded s.forget := by
  cases s with
  | whole data st | cut data =>
    by_cases h : data.length < 2 ^ 31
    · simp only [bounded, Slice.forget, if_pos h]
    · simp only [bounded, Slice.forget, if_neg h]
  | undefined => rfl

theorem headD_eq_iff {x y c : UInt8} (h : x = c ↔ y = c) (out : Str) : out.headD x = c ↔ out.headD y = c := by
  cases out with
  | nil => exact h
  | cons z zs => rfl

/-- All that a fetch can tell is whether the older character is 0xFF. -/
theorem fetch_forget : ∀ (later : List (Option Str)) {a b : Standing} (cur : Str) (n : Nat),
    (a.first = 0xFF ↔ b.first = 0xFF) → (fetch later a cur n).forget = (fetch later b cur n).forget
  | later, a, b, cur, n, h => by
    by_cases hn : n ≤ cur.length
    · rw [fetch_of_le hn, fetch_of_le hn]
      rfl
    have hlt := Nat.lt_of_not_le hn
    rcases later with _ | ⟨_ | out, later⟩
    · rw [fetch_nil hlt, fetch_nil hlt]
    · rw [fetch_none hlt, fetch_none hlt]
    · have hhead := headD_eq_iff h out
      rw [fetch_some hlt, fetch_some hlt]
      by_cases hff : out.headD a.first = 0xFF
      · rw [if_pos hff, if_pos (hhead.mp hff)]
      · have ih := @fetch_forget later (.loaded (out.headD a.first)) (.loaded (out.headD b.first)) out (n - cur.length) hhead
        rw [if_neg hff, if_neg (mt hhead.mpr hff), Slice.forget_prepend, ih, Slice.forget_prepend]

/-- Of a chunk with characters nothing older is seen, and where the next
chunk has some, or there is none, nothing older counts. -/
theorem fetch_unexposed {later : List (Option Str)} (out : Str) {pos : Nat}
    (h : out = [] → ∀ later', later ≠ some [] :: later') (a b : Standing) (n : Nat) :
    (fetch later (.loaded (out.headD a.first)) (out.drop pos) n).forget =
      (fetch later (.loaded (out.headD b.first)) (out.drop pos) n).forget := by
  cases out with
  | cons x xs => rfl
  | nil =>
    rw [List.drop_nil]
    by_cases hn : n ≤ ([] : Str).length
    · rw [fetch_of_le hn, fetch_of_le hn]
      rfl
    have hlt := Nat.lt_of_not_le hn
    rcases later with _ | ⟨_ | (_ | ⟨x, xs⟩), later⟩
    · rw [fetch_nil hlt, fetch_nil hlt]
    · rw [fetch_none hlt, fetch_none hlt]
    · exact absurd rfl (h rfl later)
    · rw [fetch_some hlt, fetch_some hlt]
      rfl

/-- **What a slice depends on**, wherever it is defined: whether the older
character is 0xFF, and that only at an exposed place. -/
theorem slice_forget (ha : f.slice Z a off n ≠ .undefined) (hb : f.slice Z b off n ≠ .undefined)
    (h : (a.first = 0xFF ↔ b.first = 0xFF) ∨ ¬ f.Exposed Z off) :
    (f.slice Z a off n).forget = (f.slice Z b off n).forget := by
  rcases hL : f.chunkLen with _ | _ | L
  · simp only [slice, hL]
  · simp only [slice, hL]
  simp only [slice, hL] at ha hb ⊢
  generalize hc : int32 (sizeT off / (L + 1) : Nat) = targetChunk at ha hb ⊢
  by_cases hoff : off < 0
  · simp only [if_pos hoff]
  simp only [if_neg hoff] at ha hb ⊢
  by_cases hcur : targetChunk = -1
  · -- Only a fresh buffer has a chunk -1.
    have hneg : targetChunk < 0 ∨ (f.chunks.length : Int) ≤ targetChunk := .inl (by omega)
    simp only [hcur, true_and] at ha hb ⊢ hneg
    by_cases hfa : a = .fresh
    · by_cases hfb : b = .fresh
      · rw [hfa, hfb]
      · rw [if_neg hfb, if_pos hneg] at hb
        exact absurd rfl hb
    · rw [if_neg hfa, if_pos hneg] at ha
      exact absurd rfl ha
  simp only [hcur, false_and, if_false] at ha hb ⊢
  by_cases hout : targetChunk < 0 ∨ (f.chunks.length : Int) ≤ targetChunk
  · simp only [if_pos hout]
  simp only [if_neg hout] at ha hb ⊢
  obtain ⟨c, rfl⟩ : ∃ c : Nat, targetChunk = c := ⟨targetChunk.toNat, by omega⟩
  simp only [Int.toNat_natCast] at ha hb ⊢
  rcases hload : f.load Z c with _ | out
  · rfl
  simp only [hload] at ha hb
  by_cases hpos : out.length < (int32 (sizeT off % (L + 1) : Nat)).toNat
  · simp only [if_pos hpos] at ha ⊢
    by_cases hn : n = 0
    · simp only [if_pos hn, Slice.forget]
    · simp only [if_neg hn]
  · simp only [if_neg hpos, forget_bounded]
    congr 1
    rcases h with h | h
    · exact fetch_forget _ _ _ (headD_eq_iff h out)
    · refine fetch_unexposed out ?_ a b n
      rintro rfl later' hlater
      rw [← rest_succ] at hlater
      have hk : c + 1 < f.chunkCount := by
        by_contra hk
        rw [rest_nil Z (Nat.le_of_not_lt hk)] at hlater
        cases hlater
      rw [rest_cons Z hk, List.cons.injEq] at hlater
      exact h ⟨L + 1, c, hL, hc, hload, hk, hlater.1⟩

/-- At an exposed place behind a 0xFF nothing is read. -/
theorem slice_exposed (ha : a.first = 0xFF) (h : f.Exposed Z off) : (f.slice Z a off n).data = [] := by
  obtain ⟨chunkLen, c, hL, hc, hload, hk, hnext⟩ := h
  have hlater : f.later Z c = some [] :: f.rest Z (c + 1 + 1) := by
    rw [← rest_succ, rest_cons Z hk, hnext]
  have hlt := load_lt Z hload
  rcases chunkLen with _ | L
  · simp only [slice, hL, Slice.data]
  simp only [slice, hL, hc, Int.toNat_natCast, hload, hlater]
  split
  · rfl
  rw [if_neg (by omega), if_neg (by omega)]
  split
  · split <;> rfl
  · by_cases hn : n ≤ ([] : Str).length
    · rw [List.drop_nil, fetch_of_le hn, List.take_nil]
      rfl
    · rw [List.drop_nil, fetch_some (Nat.lt_of_not_le hn), List.headD_nil, List.headD_nil,
        if_pos (show (Standing.loaded a.first).first = 0xFF from ha)]
      rfl

end DzFile

namespace CompactCorpusReaderPrivate

/-- The reader after `readEntry` on the names in order, whatever they
returned or threw. -/
def readAll (Z : Zlib) (r : CompactCorpusReaderPrivate) : List Str → CompactCorpusReaderPrivate
  | [] => r
  | n :: ns => (r.readEntry Z n).2.readAll Z ns

section History

variable (Z : Zlib) (r : CompactCorpusReaderPrivate)

/-- Whatever was read before, as long as the stream is good, the data hold
all of the entry; or the read is refused before it comes to them. -/
def Intact (filename : Str) : Prop :=
  ∀ item, r.find filename = some item → item.size.toNat ≤ ptrdiffMax →
    ∃ data, ∀ st, ∃ st', r.itemSlice Z st item = .whole data st'

/-- The entry starts at an exposed place. -/
def Exposed (filename : Str) : Prop :=
  ∃ item, r.find filename = some item ∧ r.file.Exposed Z (int64 item.offset.toNat)

/-- The stream after a read, none for one that has failed. -/
def after (st : Option Standing) (filename : Str) : Option Standing :=
  match st, r.find filename with
  | none, _ => none
  | some st, none => some st
  | some st, some item =>
    if item.size.toNat > ptrdiffMax then some st
    else match r.itemSlice Z st item with
      | .whole _ st' => some st'
      | .cut _ | .undefined => none

/-- The stream after a history of reads. -/
def standing (ns : List Str) : Option Standing := ns.foldl (r.after Z) (some .fresh)

/-- Both histories failed the stream, or neither did, and the character they
left at the start of the buffer is 0xFF after both or after neither. -/
def Alike : Option Standing → Option Standing → Prop
  | none, none => True
  | some a, some b => a.first = 0xFF ↔ b.first = 0xFF
  | _, _ => False

/-- The read is refused, or shows nothing that differs from an unfilled
vector. -/
def Blank (st : Option Standing) (filename : Str) : Prop :=
  ∀ item, r.find filename = some item → item.size.toNat ≤ ptrdiffMax → ∀ a, st = some a →
    ∀ c ∈ (r.itemSlice Z a item).data, c = 0

/-- The language defines what every one of these reads does. -/
def Defined (ns : List Str) : Prop := ∀ out ∈ r.readEntries Z ns, out ≠ .error .undefined

end History

variable {Z : Zlib} {r r' r₁ r₂ : CompactCorpusReaderPrivate}

/-! ## The outcome by the state of the stream -/

/-- Either a read is refused, or it comes to the stream for an item. -/
theorem refused_or_item (r : CompactCorpusReaderPrivate) (n : Str) :
    Refused r n ∨ ∃ item, r.find n = some item ∧ item.size.toNat ≤ ptrdiffMax := by
  by_cases h : ∃ item, r.find n = some item ∧ item.size.toNat ≤ ptrdiffMax
  · exact .inr h
  · refine .inl fun item hi => ?_
    by_contra hle
    exact h ⟨item, hi, Nat.le_of_not_lt hle⟩

/-- The reader `r` after some reads. -/
def From (Z : Zlib) : Option Standing → CompactCorpusReaderPrivate → CompactCorpusReaderPrivate → Prop
  | some st, r, r' => LiveFrom Z st r r'
  | none, r, r' => DeadFrom r r'

theorem From.find {st : Option Standing} (h : From Z st r r') (n : Str) : r'.find n = r.find n := by
  cases st with
  | none => exact DeadFrom.find h
  | some st => exact LiveFrom.find h

/-- One read takes the stream where `after` says. -/
theorem From.step {st : Option Standing} (h : From Z st r r') {n : Str}
    (hdef : (r'.readEntry Z n).1 ≠ .error .undefined) : From Z (r.after Z st n) r (r'.readEntry Z n).2 := by
  rcases refused_or_item r n with hr | ⟨item, hi, hs⟩
  · rw [readEntry_refused hr (h.find n)]
    cases st with
    | none => exact h
    | some st =>
      cases hfind : r.find n with
      | none => simpa only [after, hfind] using h
      | some item => simpa only [after, hfind, gt_iff_lt, if_pos (hr item hfind)] using h
  · cases st with
    | none =>
      obtain ⟨r'', hread, hd⟩ := readEntry_dead (Z := Z) h hi hs
      rw [hread]
      exact hd
    | some st =>
      simp only [after, hi, if_neg (Nat.not_lt.mpr hs)]
      cases hsl : r.itemSlice Z st item with
      | whole data st' =>
        obtain ⟨r'', hread, hl⟩ := readEntry_whole h hi hs hsl
        rw [hread]
        exact hl
      | cut data =>
        obtain ⟨r'', hread, hd⟩ := readEntry_cut h hi hs hsl
        rw [hread]
        exact hd
      | undefined => exact absurd (readEntry_undefined h hi hs hsl) hdef

/-- A history takes the stream where `standing` says. -/
theorem From.readAll : ∀ (ns : List Str) {st : Option Standing} {r' : CompactCorpusReaderPrivate} {e : Str},
    From Z st r r' → Defined Z r' (ns ++ [e]) →
    From Z (ns.foldl (r.after Z) st) r (r'.readAll Z ns) ∧ ((r'.readAll Z ns).readEntry Z e).1 ≠ .error .undefined
  | [], _, _, _, h, hd =>
    ⟨h, hd _ (by simp [CompactCorpusReaderPrivate.readEntries, CompactCorpusReaderPrivate.readAll])⟩
  | n :: ns, _, _, _, h, hd => by
    simp only [List.cons_append, Defined, CompactCorpusReaderPrivate.readEntries, List.forall_mem_cons] at hd
    exact From.readAll ns (h.step hd.1) hd.2

/-- The outcome of a read that comes to a good stream. -/
theorem outcome_live {st : Standing} (h : LiveFrom Z st r r') {item : IndexItem} {e : Str} (hi : r.find e = some item)
    (hs : item.size.toNat ≤ ptrdiffMax) (hdef : (r'.readEntry Z e).1 ≠ .error .undefined) :
    r.itemSlice Z st item ≠ .undefined ∧ (r.itemSlice Z st item).data.length ≤ item.size.toNat ∧
      (r'.readEntry Z e).1 = .ok ((r.itemSlice Z st item).data ++
        List.replicate (item.size.toNat - (r.itemSlice Z st item).data.length) 0) := by
  have hwithin := r.file.slice_within Z st (int64 item.offset.toNat) item.size.toNat
  cases hsl : r.itemSlice Z st item with
  | whole data st' =>
    obtain ⟨_, hread, -⟩ := readEntry_whole h hi hs hsl
    rw [show r.file.slice Z st _ _ = .whole data st' from hsl] at hwithin
    have hlen : data.length = item.size.toNat := hwithin
    rw [hread]
    simp [Slice.data, hlen]
  | cut data =>
    obtain ⟨_, hread, -⟩ := readEntry_cut h hi hs hsl
    rw [show r.file.slice Z st _ _ = .cut data from hsl] at hwithin
    rw [hread]
    exact ⟨nofun, hwithin, rfl⟩
  | undefined => exact absurd (readEntry_undefined h hi hs hsl) hdef

/-- Bytes padded with zeros are zeros exactly when they were. -/
theorem padded_eq_zeros {data : Str} {n : Nat} (h : data.length ≤ n) :
    data ++ List.replicate (n - data.length) 0 = List.replicate n 0 ↔ ∀ c ∈ data, c = 0 := by
  rw [List.eq_replicate_iff]
  constructor
  · rintro ⟨-, hall⟩ c hc
    exact hall c (List.mem_append_left _ hc)
  · intro hall
    refine ⟨by rw [List.length_append, List.length_replicate]; omega, fun c hc => ?_⟩
    rcases List.mem_append.mp hc with hc | hc
    · exact hall c hc
    · exact List.eq_of_mem_replicate hc

/-- A read that comes to the stream returns zeros exactly when it is blank. -/
theorem outcome_blank {st : Option Standing} (h : From Z st r r') {item : IndexItem} {e : Str} (hi : r.find e = some item)
    (hs : item.size.toNat ≤ ptrdiffMax) (hdef : (r'.readEntry Z e).1 ≠ .error .undefined) :
    (r'.readEntry Z e).1 = .ok (List.replicate item.size.toNat 0) ↔ Blank Z r st e := by
  cases st with
  | none =>
    obtain ⟨_, hread, -⟩ := readEntry_dead (Z := Z) h hi hs
    exact iff_of_true (by rw [hread]) fun _ _ _ _ ha => nomatch ha
  | some st =>
    obtain ⟨-, hlen, hread⟩ := outcome_live h hi hs hdef
    rw [hread, Except.ok.injEq, padded_eq_zeros hlen]
    constructor
    · intro hz item' hi' _ a ha
      rw [← Option.some.inj ha, ← Option.some.inj (hi.symm.trans hi')]
      exact hz
    · intro hb
      exact hb item hi hs st rfl

/-- After two histories that leave the stream good, an entry that cannot
tell them apart is read alike. -/
theorem outcome_congr {a b : Standing} (h₁ : LiveFrom Z a r r₁) (h₂ : LiveFrom Z b r r₂) {item : IndexItem} {e : Str}
    (hi : r.find e = some item) (hs : item.size.toNat ≤ ptrdiffMax)
    (hd₁ : (r₁.readEntry Z e).1 ≠ .error .undefined) (hd₂ : (r₂.readEntry Z e).1 ≠ .error .undefined)
    (h : (a.first = 0xFF ↔ b.first = 0xFF) ∨ ¬ Exposed Z r e) :
    (r₁.readEntry Z e).1 = (r₂.readEntry Z e).1 := by
  obtain ⟨hdef₁, -, hr₁⟩ := outcome_live h₁ hi hs hd₁
  obtain ⟨hdef₂, -, hr₂⟩ := outcome_live h₂ hi hs hd₂
  have hforget : (r.itemSlice Z a item).forget = (r.itemSlice Z b item).forget :=
    DzFile.slice_forget hdef₁ hdef₂ (h.imp_right fun hexp hplace => hexp ⟨item, hi, hplace⟩)
  have hdata : ∀ s : Slice, s.data = s.forget.data := by rintro (_ | _ | _) <;> rfl
  rw [hr₁, hr₂, hdata, hdata (r.itemSlice Z b item), hforget]

/-- Behind a 0xFF at the start of the buffer nothing is seen of an entry that
starts at an exposed place. -/
theorem Exposed.blank {e : Str} (h : Exposed Z r e) {st : Standing} (hst : st.first = 0xFF) : Blank Z r (some st) e := by
  obtain ⟨item, hi, hplace⟩ := h
  intro item' hi' _ st' hst' c hc
  rw [← Option.some.inj hst', ← Option.some.inj (hi.symm.trans hi'), itemSlice, DzFile.slice_exposed hst hplace] at hc
  cases hc

/-- **Which histories an entry can tell apart.** After two histories a read
has the same outcome exactly when they leave the stream alike, or they leave
it good and the entry does not start at an exposed place, or the read is
blank after both. -/
theorem readEntry_history_iff (Z : Zlib) {fuel : Nat} {data index : Str} {r : CompactCorpusReaderPrivate}
    (hopen : openFile fuel data index = .ok r) {ns₁ ns₂ : List Str} {e : Str} (h₁ : Defined Z r (ns₁ ++ [e]))
    (h₂ : Defined Z r (ns₂ ++ [e])) :
    ((r.readAll Z ns₁).readEntry Z e).1 = ((r.readAll Z ns₂).readEntry Z e).1 ↔
      Alike (r.standing Z ns₁) (r.standing Z ns₂) ∨
      (r.standing Z ns₁).isSome ∧ (r.standing Z ns₂).isSome ∧ ¬ Exposed Z r e ∨
      Blank Z r (r.standing Z ns₁) e ∧ Blank Z r (r.standing Z ns₂) e := by
  have hl : From Z (some .fresh) r r := openFile_live hopen
  obtain ⟨hf₁, hd₁⟩ := From.readAll ns₁ hl h₁
  obtain ⟨hf₂, hd₂⟩ := From.readAll ns₂ hl h₂
  rw [← standing] at hf₁ hf₂
  generalize r.standing Z ns₁ = a at hf₁ ⊢
  generalize r.standing Z ns₂ = b at hf₂ ⊢
  rcases refused_or_item r e with hr | ⟨item, hi, hs⟩
  · have hblank : ∀ st, Blank Z r st e := fun st item hi hs => absurd (hr item hi) (Nat.not_lt.mpr hs)
    rw [readEntry_refused hr (hf₁.find e), readEntry_refused hr (hf₂.find e)]
    exact iff_of_true rfl (.inr (.inr ⟨hblank a, hblank b⟩))
  have hz₁ := outcome_blank hf₁ hi hs hd₁
  have hz₂ := outcome_blank hf₂ hi hs hd₂
  -- Read alike are two blank reads.
  have hboth : Blank Z r a e ∧ Blank Z r b e →
      ((r.readAll Z ns₁).readEntry Z e).1 = ((r.readAll Z ns₂).readEntry Z e).1 :=
    fun ⟨hb₁, hb₂⟩ => (hz₁.mpr hb₁).trans (hz₂.mpr hb₂).symm
  have hdead : Blank Z r none e := fun _ _ _ _ ha => nomatch ha
  cases a with
  | none =>
    cases b with
    | none => exact iff_of_true (hboth ⟨hdead, hdead⟩) (.inl trivial)
    | some b =>
      refine ⟨fun heq => .inr (.inr ⟨hdead, hz₂.mp (heq.symm.trans (hz₁.mpr hdead))⟩), ?_⟩
      rintro (h | ⟨h, -⟩ | h)
      · exact h.elim
      · cases h
      · exact hboth h
  | some a =>
    cases b with
    | none =>
      refine ⟨fun heq => .inr (.inr ⟨hz₁.mp (heq.trans (hz₂.mpr hdead)), hdead⟩), ?_⟩
      rintro (h | ⟨-, h, -⟩ | h)
      · exact h.elim
      · cases h
      · exact hboth h
    | some b =>
      constructor
      · intro heq
        by_cases hexp : Exposed Z r e
        swap
        · exact .inr (.inl ⟨rfl, rfl, hexp⟩)
        by_cases hff : a.first = 0xFF ↔ b.first = 0xFF
        · exact .inl hff
        -- The read behind the 0xFF is blank, and so is the other.
        by_cases ha : a.first = 0xFF
        · exact .inr (.inr ⟨hexp.blank ha, hz₂.mp (heq.symm.trans (hz₁.mpr (hexp.blank ha)))⟩)
        · have hb : b.first = 0xFF := by
            by_contra hb
            exact hff (iff_of_false ha hb)
          exact .inr (.inr ⟨hz₁.mp (heq.trans (hz₂.mpr (hexp.blank hb))), hexp.blank hb⟩)
      · rintro (h | ⟨-, -, h⟩ | h)
        · exact outcome_congr hf₁ hf₂ hi hs hd₁ hd₂ (.inl h)
        · exact outcome_congr hf₁ hf₂ hi hs hd₁ hd₂ (.inr h)
        · exact hboth h

/-- A read of the 0xFF in the first chunk hides what is after the two empty
ones. -/
example :
    (do let r ← openFile 1 (Stored.file 4 ([[0xFF, 97], [], [], [98]].map Stored.block)) (str "x\tA\tB\ny\tE\tB\n")
        .ok (r.readEntries (Stored.zlib 0) [str "y"], r.readEntries (Stored.zlib 0) [str "x", str "y"]) : Outcome _) =
      .ok ([.ok [98]], [.ok [0xFF], .ok [0]]) := by
  decide +kernel

/-! ## Intact entries -/

/-- An intact read returns what it would as the first one, and leaves the
stream good. -/
theorem Intact.readEntry {st st' : Standing} {n : Str} (hn : Intact Z r n) (hl : LiveFrom Z st r r)
    (hl' : LiveFrom Z st' r r') :
    (r'.readEntry Z n).1 = (r.readEntry Z n).1 ∧ ∃ st'', LiveFrom Z st'' r (r'.readEntry Z n).2 := by
  rcases refused_or_item r n with hr | ⟨item, hi, hs⟩
  · rw [readEntry_refused hr hl'.find]
    exact ⟨rfl, st', hl'⟩
  · obtain ⟨data, hdata⟩ := hn item hi hs
    obtain ⟨st₁, hst₁⟩ := hdata st
    obtain ⟨st₂, hst₂⟩ := hdata st'
    obtain ⟨r₁, hread₁, -⟩ := readEntry_whole hl hi hs hst₁
    obtain ⟨r₂, hread₂, hl₂⟩ := readEntry_whole hl' hi hs hst₂
    rw [hread₁, hread₂]
    exact ⟨rfl, st₂, hl₂⟩

/-- So does one after intact reads. -/
theorem Intact.readAll {st : Standing} {n : Str} (hn : Intact Z r n) (hl : LiveFrom Z st r r) :
    ∀ {before : List Str} {st' : Standing} {r' : CompactCorpusReaderPrivate}, (∀ m ∈ before, Intact Z r m) → LiveFrom Z st' r r' →
      ((r'.readAll Z before).readEntry Z n).1 = (r.readEntry Z n).1
  | [], _, _, _, hl' => (hn.readEntry hl hl').1
  | m :: before, _, _, hin, hl' => by
    obtain ⟨hm, hin⟩ := List.forall_mem_cons.mp hin
    obtain ⟨-, _, hl''⟩ := hm.readEntry hl hl'
    rw [CompactCorpusReaderPrivate.readAll]
    exact hn.readAll hl hin hl''

/-! ## Two entries, the second reaching past the end -/

/-- A dictzip file of one chunk, with chunks of eight characters. -/
def sampleDz : Str :=
  [0x1f, 0x8b, 8, 4, 0, 0, 0, 0, 2, 3, 12, 0] ++ str "RA" ++ [8, 0, 1, 0, 8, 0, 1, 0, 14, 0] ++ sampleChunk ++
    [3, 0, 0x9f, 0x12, 0xb9, 0x50, 8, 0, 0, 0]

def sampleIndex : Str := str "1.xml\tA\tE\n2.xml\tE\tF\n"

/-- `1.xml` as the first read, and after a read of `2.xml`. -/
theorem sample_reads :
    (do let r ← openFile 1 sampleDz sampleIndex
        .ok ((r.readEntry sampleZlib (str "1.xml")).1,
          ((r.readAll sampleZlib [str "2.xml"]).readEntry sampleZlib (str "1.xml")).1) : Outcome _) =
      .ok (.ok (str "<a/>"), .ok [0, 0, 0, 0]) := by
  decide +kernel

/-- The same entry, the same files, two outcomes. -/
theorem reads_depend_on_history :
    ¬∀ (fuel : Nat) (data index : Str) (r : CompactCorpusReaderPrivate), openFile fuel data index = .ok r →
      ∀ (ns₁ ns₂ : List Str) (e : Str), ((r.readAll sampleZlib ns₁).readEntry sampleZlib e).1 =
        ((r.readAll sampleZlib ns₂).readEntry sampleZlib e).1 := by
  intro h
  obtain ⟨r, hopen, hr⟩ := bind_ok_iff.mp sample_reads
  simp only [Except.ok.injEq, Prod.mk.injEq] at hr
  have heq := h 1 sampleDz sampleIndex r hopen [] [str "2.xml"] (str "1.xml")
  rw [readAll, hr.1, hr.2] at heq
  exact absurd heq (by decide)

/-- What the data hold for `1.xml`. -/
theorem sample_item :
    (do let r ← openFile 1 sampleDz sampleIndex
        .ok (r.find (str "1.xml"), r.file.chunkLen, r.file.load sampleZlib 0) : Outcome _) =
      .ok (some ⟨str "1.xml", 0, 4⟩, some 8, some sampleText) := by
  decide +kernel

theorem sample_intact {r : CompactCorpusReaderPrivate} (hopen : openFile 1 sampleDz sampleIndex = .ok r) :
    Intact sampleZlib r (str "1.xml") := by
  obtain ⟨r', hopen', hr⟩ := bind_ok_iff.mp sample_item
  obtain rfl : r = r' := Except.ok.inj (hopen.symm.trans hopen')
  simp only [Except.ok.injEq, Prod.mk.injEq] at hr
  obtain ⟨hitem, hlen, hload⟩ := hr
  intro item hi _
  obtain rfl : item = ⟨str "1.xml", 0, 4⟩ := Option.some.inj (hi.symm.trans hitem)
  refine ⟨str "<a/>", fun st => ⟨.loaded (sampleText.headD st.first), ?_⟩⟩
  have hslice := @DzFile.slice_inside sampleZlib r.file 8 hlen (by decide) 0 (by decide) 0 0 (by decide +kernel)
    (by decide +kernel) sampleText hload (by decide) st 4
  rw [DzFile.fetch_of_le (by decide), DzFile.bounded, if_pos (by decide)] at hslice
  rw [itemSlice, show int64 ((0 : UInt64).toNat : Int) = 0 by decide +kernel]
  exact hslice

/-- `1.xml` alone, and after `2.xml`. -/
theorem sample_defined :
    (do let r ← openFile 1 sampleDz sampleIndex
        .ok (r.readEntries sampleZlib [str "1.xml"], r.readEntries sampleZlib [str "2.xml", str "1.xml"]) : Outcome _) =
      .ok ([.ok (str "<a/>")], [.ok (str "<b/>" ++ [0]), .ok [0, 0, 0, 0]]) := by
  decide +kernel

theorem sample_history_iff :
    ∃ r, openFile 1 sampleDz sampleIndex = .ok r ∧
      (((r.readAll sampleZlib []).readEntry sampleZlib (str "1.xml")).1 =
          ((r.readAll sampleZlib [str "2.xml"]).readEntry sampleZlib (str "1.xml")).1 ↔
        Alike (r.standing sampleZlib []) (r.standing sampleZlib [str "2.xml"]) ∨
        (r.standing sampleZlib []).isSome ∧ (r.standing sampleZlib [str "2.xml"]).isSome ∧
          ¬ Exposed sampleZlib r (str "1.xml") ∨
        Blank sampleZlib r (r.standing sampleZlib []) (str "1.xml") ∧
          Blank sampleZlib r (r.standing sampleZlib [str "2.xml"]) (str "1.xml")) := by
  obtain ⟨r, hopen, hr⟩ := bind_ok_iff.mp sample_defined
  simp only [Except.ok.injEq, Prod.mk.injEq] at hr
  have h₁ : Defined sampleZlib r ([] ++ [str "1.xml"]) := by
    rw [List.nil_append, Defined, hr.1]
    simp
  have h₂ : Defined sampleZlib r ([str "2.xml"] ++ [str "1.xml"]) := by
    rw [List.singleton_append, Defined, hr.2]
    simp
  exact ⟨r, hopen, readEntry_history_iff sampleZlib hopen h₁ h₂⟩

end CompactCorpusReaderPrivate

end AlpinoCorpus
