/-
The index as a format: what a line of it says, and which texts
`CompactCorpusReaderPrivate::open` takes for an index.

The loop looks at no stream state, so a field that is missing is an empty
numeral, which is zero. `openFile_index_iff` says for which texts the lines
are nevertheless accepted exactly when they are of the format.
-/
import AlpinoCorpus.Base64Numeral
import AlpinoCorpus.CompactRoundTrip
import AlpinoCorpus.CompactHistory

namespace AlpinoCorpus

namespace CompactCorpusReaderPrivate

/-- A line of the format, and the item it is for. -/
def IsLine (line : Str) (item : IndexItem) : Prop :=
  item.name ≠ [] ∧ 9 ∉ item.name ∧ ∃ offset size, line = item.name ++ 9 :: (offset ++ 9 :: size) ∧
    (offset ≠ [] ∧ IsNumber offset item.offset) ∧ size ≠ [] ∧ IsNumber size item.size

theorem tab_not_mem_number {s : Str} {v : UInt64} (h : IsNumber s v) : (9 : UInt8) ∉ s := by
  intro h9
  exact absurd (h.1 9 h9) (by decide)

theorem newline_not_mem_number {s : Str} {v : UInt64} (h : IsNumber s v) : (10 : UInt8) ∉ s := by
  intro h10
  exact absurd (h.1 10 h10) (by decide)

/-! ## The three `getline` calls on a line -/

/-- `name`, `offset64` and `size64`. -/
def fields (line : Str) : Str × Str × Str :=
  let (name, iss) := getline 9 line
  let (offset64, iss) := getline 9 iss
  (name, offset64, (getline 10 iss).1)

theorem indexItem_eq (line : Str) : indexItem line = (do
    let offset ← b64Decode (fields line).2.1
    let size ← b64Decode (fields line).2.2
    .ok ⟨(fields line).1, offset, size⟩) := rfl

theorem not_mem_getline (delim : UInt8) (iss : Str) : delim ∉ (getline delim iss).1 := by
  intro h
  simpa using List.mem_takeWhile_imp h

/-- The delimiter was there if anything follows it. -/
theorem getline_split {delim : UInt8} {iss : Str} (h : (getline delim iss).2 ≠ []) :
    iss = (getline delim iss).1 ++ delim :: (getline delim iss).2 := by
  have hsplit := List.takeWhile_append_dropWhile (p := (· ≠ delim)) (l := iss)
  simp only [getline] at h ⊢
  cases hrest : iss.dropWhile (· ≠ delim) with
  | nil => rw [hrest] at h; exact absurd rfl h
  | cons c cs =>
    have hc : c = delim := by
      have := List.head_dropWhile_not (· ≠ delim) (by rw [hrest]; exact List.cons_ne_nil c cs)
      simpa only [hrest, List.head_cons, decide_eq_false_iff_not, not_not] using this
    rw [List.drop_one, List.tail_cons]
    conv_lhs => rw [← hsplit, hrest, hc]

/-- All three fields of a line that has them. -/
theorem fields_line {name offset size : Str} (hname : 9 ∉ name) (hoffset : 9 ∉ offset) (hsize : 10 ∉ size) :
    fields (name ++ 9 :: (offset ++ 9 :: size)) = (name, offset, size) := by
  simp only [fields, getline_append hname, getline_append hoffset, getline_all hsize]

/-- A line with a third field has a first and a second. -/
theorem eq_of_fields {line : Str} (h10 : 10 ∉ line) (h : (fields line).2.2 ≠ []) :
    9 ∉ (fields line).1 ∧ line = (fields line).1 ++ 9 :: ((fields line).2.1 ++ 9 :: (fields line).2.2) := by
  simp only [fields] at h ⊢
  generalize hname : getline 9 line = first at h ⊢
  generalize hoffset : getline 9 first.2 = second at h ⊢
  have hsecond : second.2 ≠ [] := by
    intro hnil
    rw [hnil] at h
    exact h rfl
  have hfirst : first.2 ≠ [] := by
    intro hnil
    rw [hnil] at hoffset
    exact hsecond (hoffset ▸ rfl)
  have h₁ := getline_split (hname ▸ hfirst)
  have h₂ := getline_split (hoffset ▸ hsecond)
  rw [hname] at h₁
  rw [hoffset] at h₂
  have hrest : (10 : UInt8) ∉ second.2 := by
    intro hmem
    exact h10 (h₁ ▸ h₂ ▸ by simp [hmem])
  refine ⟨hname ▸ not_mem_getline 9 line, ?_⟩
  rw [getline_all hrest, ← h₂, ← h₁]

theorem newline_not_mem_lines : ∀ (text : Str), ∀ l ∈ lines text, (10 : UInt8) ∉ l
  | [], l, h => absurd h (by simp [lines])
  | c :: cs, l, h => by
    have ih := newline_not_mem_lines cs
    rw [lines] at h
    split at h
    · rcases List.mem_cons.mp h with rfl | h
      · simp
      · exact ih l h
    · next hc =>
      have hne : (10 : UInt8) ≠ c := fun heq => hc heq.symm
      split at h
      · rw [List.mem_singleton.mp h]
        simpa using hne
      · next l' ls hls =>
        rcases List.mem_cons.mp h with rfl | h
        · exact List.not_mem_cons_of_ne_of_not_mem hne (ih l' (hls ▸ by simp))
        · exact ih l (hls ▸ by simp [h])

/-! ## One line -/

/-- A line without an empty field. -/
def Complete (line : Str) : Prop := (fields line).1 ≠ [] ∧ (fields line).2.1 ≠ [] ∧ (fields line).2.2 ≠ []

/-- A numeral of the line is too long for the decoder. -/
def OverlongLine (line : Str) : Prop := Overlong (fields line).2.1 ∨ Overlong (fields line).2.2

/-- A character that is no digit, or a value of `2 ^ 64` or more, and no
twelfth digit before it. -/
def RefusedField (s : Str) : Prop := ¬Overlong s ∧ ∀ v, ¬IsNumber s v

def RefusedLine (line : Str) : Prop :=
  RefusedField (fields line).2.1 ∨ ¬Overlong (fields line).2.1 ∧ RefusedField (fields line).2.2

/-- The fields of a line, read as they are. -/
def Reads (line : Str) (item : IndexItem) : Prop :=
  (fields line).1 = item.name ∧ IsNumber (fields line).2.1 item.offset ∧ IsNumber (fields line).2.2 item.size

theorem Reads.not_refused {line : Str} {item : IndexItem} (h : Reads line item) : ¬RefusedLine line := by
  intro hr
  rcases hr with hr | hr
  · exact hr.2 _ h.2.1
  · exact hr.2.2 _ h.2.2

/-- The format asks of a line that it can be read and that no field is
empty. -/
theorem isLine_iff {line : Str} (h10 : 10 ∉ line) (item : IndexItem) :
    IsLine line item ↔ Reads line item ∧ Complete line := by
  constructor
  · intro h
    obtain ⟨hname, h9, offset, size, rfl, ⟨hoffset, hnum⟩, hsize, hnum'⟩ := h
    have hf := fields_line h9 (tab_not_mem_number hnum) (newline_not_mem_number hnum')
    exact ⟨⟨by rw [hf], by rw [hf]; exact hnum, by rw [hf]; exact hnum'⟩, by rw [Complete, hf]; exact ⟨hname, hoffset, hsize⟩⟩
  · intro h
    obtain ⟨⟨hname, hoffset, hsize⟩, hn, ho, hs⟩ := h
    obtain ⟨h9, hline⟩ := eq_of_fields h10 hs
    exact ⟨hname ▸ hn, hname ▸ h9, _, _, hname ▸ hline, ⟨ho, hoffset⟩, hs, hsize⟩

/-- What a round of the loop makes of any line. -/
theorem indexItem_cases (line : Str) :
    (OverlongLine line ∧ ¬RefusedLine line ∧ indexItem line = .error .undefined) ∨
      (¬OverlongLine line ∧ ∃ item, Reads line item ∧ indexItem line = .ok item) ∨
      (RefusedLine line ∧ ∃ e, indexItem line = raise e) := by
  rw [indexItem_eq]
  rcases b64Decode_cases (fields line).2.1 with ⟨ho, h⟩ | ⟨ho, offset, hoffset, h⟩ | ⟨ho, hno, e, h⟩
  · rw [h]
    exact .inl ⟨.inl ho, fun hr => hr.elim (fun hr => hr.1 ho) fun hr => hr.1 ho, rfl⟩
  · simp only [h, bind, Except.bind]
    rcases b64Decode_cases (fields line).2.2 with ⟨hs, h'⟩ | ⟨hs, size, hsize, h'⟩ | ⟨hs, hno, e, h'⟩
    · rw [h']
      exact .inl ⟨.inr hs, fun hr => hr.elim (fun hr => hr.2 _ hoffset) fun hr => hr.2.1 hs, rfl⟩
    · rw [h']
      exact .inr (.inl ⟨fun hl => hl.elim ho hs, _, ⟨rfl, hoffset, hsize⟩, rfl⟩)
    · rw [h']
      exact .inr (.inr ⟨.inr ⟨ho, hs, hno⟩, e, rfl⟩)
  · rw [h]
    exact .inr (.inr ⟨.inl ⟨ho, hno⟩, e, rfl⟩)

theorem indexItem_ok_iff (line : Str) (item : IndexItem) :
    indexItem line = .ok item ↔ ¬OverlongLine line ∧ Reads line item := by
  rcases indexItem_cases line with ⟨ho, -, h⟩ | ⟨ho, item', hr, h⟩ | ⟨hr, e, h⟩
  · rw [h]
    exact iff_of_false (fun h => by cases h) fun h => h.1 ho
  · rw [h, Except.ok.injEq]
    refine ⟨fun heq => heq ▸ ⟨ho, hr⟩, fun h => ?_⟩
    obtain ⟨-, hn, hoff, hs⟩ := h
    obtain ⟨name, offset, size⟩ := item
    obtain ⟨name', offset', size'⟩ := item'
    obtain rfl : name' = name := hr.1.symm.trans hn
    obtain rfl := hr.2.1.unique hoff
    obtain rfl := hr.2.2.unique hs
    rfl
  · rw [h]
    exact iff_of_false (fun h => by cases h) fun h => h.2.not_refused hr

theorem indexItem_raises_iff (line : Str) : (∃ e, indexItem line = raise e) ↔ RefusedLine line := by
  rcases indexItem_cases line with ⟨-, hr, h⟩ | ⟨-, item, hr, h⟩ | ⟨hr, he⟩
  · rw [h]
    exact iff_of_false (fun h => by obtain ⟨e, he⟩ := h; cases he) hr
  · rw [h]
    exact iff_of_false (fun h => by obtain ⟨e, he⟩ := h; cases he) hr.not_refused
  · exact iff_of_true he hr

/-! ## The loop -/

theorem readIndices_ok : ∀ (ls : List Str) {r r' : CompactCorpusReaderPrivate}, r.readIndices ls = .ok r' →
    ∃ items, r'.indices = r.indices ++ items ∧ List.Forall₂ (fun line item => indexItem line = .ok item) ls items
  | [], _, _, h => by
    cases h
    exact ⟨[], by simp, .nil⟩
  | line :: ls, r, r', h => by
    simp only [readIndices, bind_ok_iff] at h
    obtain ⟨item, hitem, h⟩ := h
    obtain ⟨items, hi, hall⟩ := readIndices_ok ls h
    exact ⟨item :: items, by rw [hi]; simp, .cons hitem hall⟩

theorem readIndices_of_items (r : CompactCorpusReaderPrivate) {ls : List Str} {items : List IndexItem}
    (h : List.Forall₂ (fun line item => indexItem line = .ok item) ls items) :
    ∃ r', r.readIndices ls = .ok r' ∧ r'.indices = r.indices ++ items := by
  induction h generalizing r with
  | nil => exact ⟨r, rfl, by simp⟩
  | @cons line item ls items hitem _ ih =>
    obtain ⟨r', h, hi⟩ := ih { r with indices := r.indices ++ [item]
                                      namedIndices := (item.name, item) :: r.namedIndices }
    refine ⟨r', ?_, by rw [hi]; simp⟩
    rw [readIndices, hitem]
    exact h

/-- The loop throws at a line that is refused, if it comes to it. -/
theorem readIndices_raises_iff : ∀ (ls : List Str) (r : CompactCorpusReaderPrivate),
    (∃ e, r.readIndices ls = raise e) ↔
      ∃ before line after, ls = before ++ line :: after ∧ (∀ l ∈ before, ¬OverlongLine l) ∧ RefusedLine line
  | [], r => by
    refine iff_of_false (fun h => ?_) fun h => ?_
    · obtain ⟨e, he⟩ := h
      cases he
    · obtain ⟨before, line, after, h, -⟩ := h
      cases before <;> cases h
  | line :: ls, r => by
    have first : ∀ P : List Str → Str → Prop, (∃ before l after, line :: ls = before ++ l :: after ∧ P before l) ↔
        P [] line ∨ ∃ before l after, ls = before ++ l :: after ∧ P (line :: before) l := by
      intro P
      constructor
      · intro h
        obtain ⟨before, l, after, h, hP⟩ := h
        cases before with
        | nil =>
          cases h
          exact .inl hP
        | cons b before =>
          cases h
          exact .inr ⟨before, l, after, rfl, hP⟩
      · intro h
        rcases h with hP | ⟨before, l, after, rfl, hP⟩
        · exact ⟨[], line, ls, rfl, hP⟩
        · exact ⟨line :: before, l, after, rfl, hP⟩
    rw [first, readIndices]
    simp only [List.not_mem_nil, false_imp_iff, implies_true, true_and, List.forall_mem_cons]
    rcases indexItem_cases line with ⟨ho, hr, h⟩ | ⟨ho, item, hr, h⟩ | ⟨hr, e, h⟩
    · rw [h]
      refine iff_of_false (fun h => ?_) fun h => ?_
      · obtain ⟨e, he⟩ := h
        cases he
      · rcases h with h | ⟨-, -, -, -, ⟨h, -⟩, -⟩
        · exact hr h
        · exact h ho
    · rw [h]
      simp only [hr.not_refused, ho, not_false_eq_true, true_and, false_or]
      exact readIndices_raises_iff ls _
    · rw [h]
      exact iff_of_true ⟨e, rfl⟩ (.inl hr)

theorem forall₂_isLine_iff {ls : List Str} (h10 : ∀ l ∈ ls, (10 : UInt8) ∉ l) (items : List IndexItem) :
    List.Forall₂ IsLine ls items ↔ (∀ l ∈ ls, Complete l) ∧ List.Forall₂ Reads ls items := by
  rw [← List.forall₂_and_left]
  induction ls generalizing items with
  | nil => simp
  | cons l ls ih =>
    obtain ⟨hl, hls⟩ := List.forall_mem_cons.mp h10
    simp only [List.forall₂_cons_left_iff, ih hls, isLine_iff hl, and_comm]

theorem forall₂_ok_iff (ls : List Str) (items : List IndexItem) :
    List.Forall₂ (fun line item => indexItem line = .ok item) ls items ↔
      (∀ l ∈ ls, ¬OverlongLine l) ∧ List.Forall₂ Reads ls items := by
  simp only [indexItem_ok_iff, List.forall₂_and_left]

/-- The loop comes to an end on lines that are not too long. -/
theorem readIndices_ends (r : CompactCorpusReaderPrivate) {ls : List Str} (h : ∀ l ∈ ls, ¬OverlongLine l) :
    (∃ items, List.Forall₂ Reads ls items) ∨ ∃ e, r.readIndices ls = raise e := by
  by_cases hrefused : ∃ l ∈ ls, RefusedLine l
  · obtain ⟨l, hl, hr⟩ := hrefused
    obtain ⟨before, after, rfl⟩ := List.append_of_mem hl
    exact .inr ((readIndices_raises_iff _ r).mpr ⟨before, l, after, rfl, fun b hb => h b (by simp [hb]), hr⟩)
  · have hreads : ∀ l ∈ ls, ∃ item, Reads l item := by
      intro l hl
      rcases indexItem_cases l with ⟨ho, -⟩ | ⟨-, item, hitem, -⟩ | ⟨hr, -⟩
      · exact absurd ho (h l hl)
      · exact ⟨item, hitem⟩
      · exact absurd ⟨l, hl, hr⟩ hrefused
    have : Nonempty IndexItem := ⟨⟨[], 0, 0⟩⟩
    choose! item hitem using hreads
    exact .inl ⟨ls.map item, List.forall₂_map_right_iff.mpr (List.forall₂_same.mpr hitem)⟩

/-- **Exactly the format.** Short of a numeral that is too long, the lines
are accepted if they can be read; that no field is empty is not looked at. -/
theorem openFile_index_iff {fuel : Nat} {data : Str} {d : DzIstream} (hdata : DzIstream.openFile fuel data = .ok d)
    (index : Str) :
    ((∀ items, (∃ r, openFile fuel data index = .ok r ∧ r.indices = items) ↔ List.Forall₂ IsLine (lines index) items) ∧
        ((∀ items, ¬List.Forall₂ IsLine (lines index) items) → ∃ e, openFile fuel data index = raise e)) ↔
      (∃ before line after, lines index = before ++ line :: after ∧ (∀ l ∈ before, ¬OverlongLine l) ∧ RefusedLine line) ∨
        ∀ l ∈ lines index, Complete l ∧ ¬OverlongLine l := by
  have hopen : openFile fuel data index = readIndices ⟨d, [], []⟩ (lines index) := by
    rw [openFile, hdata]
    rfl
  have hformat := forall₂_isLine_iff (newline_not_mem_lines index)
  rw [hopen]
  generalize lines index = ls at hformat ⊢
  have haccepted : ∀ items, (∃ r, readIndices ⟨d, [], []⟩ ls = .ok r ∧ r.indices = items) ↔
      (∀ l ∈ ls, ¬OverlongLine l) ∧ List.Forall₂ Reads ls items := by
    intro items
    rw [← forall₂_ok_iff]
    constructor
    · intro h
      obtain ⟨r, h, rfl⟩ := h
      obtain ⟨items, hi, hall⟩ := readIndices_ok ls h
      rw [hi]
      exact hall
    · intro h
      exact readIndices_of_items _ h
  simp only [haccepted, hformat]
  constructor
  · intro h
    obtain ⟨hiff, hthrow⟩ := h
    by_cases hex : ∃ items, (∀ l ∈ ls, Complete l) ∧ List.Forall₂ Reads ls items
    · obtain ⟨items, hc, hr⟩ := hex
      exact .inr fun l hl => ⟨hc l hl, ((hiff items).mpr ⟨hc, hr⟩).1 l hl⟩
    · exact .inl ((readIndices_raises_iff ls _).mp (hthrow fun items hi => hex ⟨items, hi⟩))
  · intro h
    rcases h with hrefused | hall
    · have hnot : ∀ items, ¬List.Forall₂ Reads ls items := by
        intro items hi
        obtain ⟨before, line, after, hls, -, hr⟩ := hrefused
        have hnone := ((List.forall₂_and_left ls items).mp (hi.imp fun _ _ hl => ⟨hl.not_refused, hl⟩)).1
        exact hnone line (by simp [hls]) hr
      exact ⟨fun items => iff_of_false (fun h => hnot items h.2) fun h => hnot items h.2,
        fun _ => (readIndices_raises_iff ls _).mpr hrefused⟩
    · have hc : ∀ l ∈ ls, Complete l := fun l hl => (hall l hl).1
      have ho : ∀ l ∈ ls, ¬OverlongLine l := fun l hl => (hall l hl).2
      refine ⟨fun items => ⟨fun h => ⟨hc, h.2⟩, fun h => ⟨ho, h.2⟩⟩, fun hnone => ?_⟩
      rcases readIndices_ends ⟨d, [], []⟩ ho with ⟨items, hi⟩ | he
      · exact absurd ⟨hc, hi⟩ (hnone items)
      · exact he

theorem sampleDz_opens : ∃ d, DzIstream.openFile 1 sampleDz = .ok d := by
  obtain ⟨r, h, -⟩ := bind_ok_iff.mp sample_reads
  obtain ⟨d, hd, -⟩ := bind_ok_iff.mp h
  exact ⟨d, hd⟩

theorem openFile_index_sample :
    ∃ d, DzIstream.openFile 1 sampleDz = .ok d ∧
      (((∀ items, (∃ r, openFile 1 sampleDz sampleIndex = .ok r ∧ r.indices = items) ↔
            List.Forall₂ IsLine (lines sampleIndex) items) ∧
          ((∀ items, ¬List.Forall₂ IsLine (lines sampleIndex) items) → ∃ e, openFile 1 sampleDz sampleIndex = raise e)) ↔
        (∃ before line after, lines sampleIndex = before ++ line :: after ∧ (∀ l ∈ before, ¬OverlongLine l) ∧
            RefusedLine line) ∨
          ∀ l ∈ lines sampleIndex, Complete l ∧ ¬OverlongLine l) := by
  obtain ⟨d, hd⟩ := sampleDz_opens
  exact ⟨d, hd, openFile_index_iff hd sampleIndex⟩

/-- A line without a TAB is an entry, with an offset and a size that are
nowhere in the file. -/
theorem openFile_missing_fields :
    (do let r ← openFile 1 sampleDz (str "a\n")
        .ok r.indices : Outcome _) = .ok [⟨str "a", 0, 0⟩] ∧
      ∀ items, ¬List.Forall₂ IsLine (lines (str "a\n")) items := by
  refine ⟨by decide +kernel, fun items h => ?_⟩
  have hlines : lines (str "a\n") = [str "a"] := by decide
  rw [hlines, List.forall₂_cons_left_iff] at h
  obtain ⟨item, _, ⟨-, -, offset, size, hline, -⟩, -⟩ := h
  have h9 : (9 : UInt8) ∈ str "a" := hline ▸ by simp
  exact absurd h9 (by decide)

/-! ## The index of a writer -/

open CompactCorpusWriterPrivate

/-- Name, offset and size of each entry, the first at `offset`: an entry is
where the sizes before it add up to. -/
def extents : Nat → List (Str × Str) → List (Str × Nat × Nat)
  | _, [] => []
  | offset, e :: es => (e.1, offset, e.2.length) :: extents (offset + e.2.length) es

theorem writeEntries_indexStream {Z : Zlib} : ∀ (entries : List (Str × Str)) {w w' : CompactCorpusWriterPrivate Z} {n : Nat},
    w.offset = UInt64.ofNat n → w.writeEntries entries = (.ok (), w') →
    w'.indexStream = w.indexStream ++ indexOf n entries
  | [], _, _, _, _, h => by
    cases h
    simp [indexOf]
  | e :: es, w, w', n, hn, h => by
    rw [writeEntries, writeEntry] at h
    cases hwrite : w.dataStream.write e.2 with
    | mk out o =>
      cases out with
      | error x => simp only [hwrite] at h; cases h
      | ok u =>
        simp only [hwrite] at h
        have ih := writeEntries_indexStream es (n := n + e.2.length) (by simp only [hn, UInt64.ofNat_add]) h
        rw [ih, indexOf, hn]
        simp

/-- A name that is read holds neither separator. -/
theorem Reads.name_clean {line : Str} {item : IndexItem} (h : Reads line item) (h10 : 10 ∉ line) :
    9 ∉ item.name ∧ 10 ∉ item.name := by
  rw [← h.1]
  exact ⟨not_mem_getline 9 line, fun hmem => h10 ((List.takeWhile_sublist _).mem hmem)⟩

theorem readIndices_names_clean {d : DzIstream} {text : Str} {r : CompactCorpusReaderPrivate}
    (h : readIndices ⟨d, [], []⟩ (lines text) = .ok r) : ∀ item ∈ r.indices, 9 ∉ item.name ∧ 10 ∉ item.name := by
  obtain ⟨items, hitems, hall⟩ := readIndices_ok _ h
  obtain rfl : r.indices = items := hitems
  have hclean := (List.forall₂_and_left _ _).mpr ⟨newline_not_mem_lines text, ((forall₂_ok_iff _ _).mp hall).2⟩
  have hnames := hclean.imp fun _ _ hl => hl.2.name_clean hl.1
  intro item hi
  obtain ⟨i, hlt, rfl⟩ := List.mem_iff_getElem.mp hi
  have hlines : i < (lines text).length := hnames.length_eq ▸ hlt
  exact hnames.get hlines hlt

theorem map_fst_extents : ∀ (entries : List (Str × Str)) (offset : Nat),
    (extents offset entries).map (·.1) = entries.map (·.1)
  | [], _ => rfl
  | e :: es, offset => by rw [extents, List.map_cons, map_fst_extents es, List.map_cons]

theorem map_itemsOf : ∀ (entries : List (Str × Str)) (offset : Nat),
    (∀ x ∈ extents offset entries, x.2.1 < 2 ^ 64 ∧ x.2.2 < 2 ^ 64) →
    (itemsOf offset entries).map (fun i => (i.name, i.offset.toNat, i.size.toNat)) = extents offset entries
  | [], _, _ => rfl
  | e :: es, offset, h => by
    obtain ⟨⟨ho, hs⟩, hes⟩ := List.forall_mem_cons.mp h
    rw [itemsOf, List.map_cons, map_itemsOf es _ hes, extents, UInt64.toNat_ofNat_of_lt' ho, UInt64.toNat_ofNat_of_lt' hs]

/-- **Any name can be read back**, but one with a TAB or a newline. -/
theorem openFile_written_iff {Z : Zlib} {entries : List (Str × Str)} {w : CompactCorpusWriterPrivate Z}
    (hw : (openFiles Z).writeEntries entries = (.ok (), w)) {fuel : Nat} {data : Str} {d : DzIstream}
    (hdata : DzIstream.openFile fuel data = .ok d) :
    (∃ r, openFile fuel data w.indexStream = .ok r ∧
        r.indices.map (fun i => (i.name, i.offset.toNat, i.size.toNat)) = extents 0 entries) ↔
      (∀ e ∈ entries, 9 ∉ e.1 ∧ 10 ∉ e.1) ∧ ∀ x ∈ extents 0 entries, x.2.1 < 2 ^ 64 ∧ x.2.2 < 2 ^ 64 := by
  have hindex : w.indexStream = indexOf 0 entries := writeEntries_indexStream entries (n := 0) rfl hw
  rw [openFile, hdata, hindex]
  change (∃ r, readIndices ⟨d, [], []⟩ (lines (indexOf 0 entries)) = .ok r ∧ _) ↔ _
  constructor
  · intro h
    obtain ⟨r, hr, hextents⟩ := h
    have hclean := readIndices_names_clean hr
    constructor
    · intro e he
      have hmem := List.mem_map_of_mem (f := (·.1)) he
      rw [← map_fst_extents entries 0, ← hextents, List.map_map] at hmem
      obtain ⟨item, hi, hname⟩ := List.mem_map.mp hmem
      exact hname ▸ hclean item hi
    · intro x hx
      rw [← hextents] at hx
      obtain ⟨item, -, rfl⟩ := List.mem_map.mp hx
      exact ⟨item.offset.toNat_lt, item.size.toNat_lt⟩
  · intro h
    refine ⟨_, readIndices_written entries 0 _ h.1, ?_⟩
    exact map_itemsOf entries 0 h.2

theorem openFile_written_sample :
    ∃ w, (openFiles sampleZlib).writeEntries sampleEntries = (.ok (), w) ∧
      ((∃ r, openFile 1 sampleDz w.indexStream = .ok r ∧
          r.indices.map (fun i => (i.name, i.offset.toNat, i.size.toNat)) = extents 0 sampleEntries) ↔
        (∀ e ∈ sampleEntries, 9 ∉ e.1 ∧ 10 ∉ e.1) ∧ ∀ x ∈ extents 0 sampleEntries, x.2.1 < 2 ^ 64 ∧ x.2.2 < 2 ^ 64) := by
  obtain ⟨w, zs, rest, hw, -⟩ := writeAll_archive sampleEntries 0 sample_putAreas (by decide)
  obtain ⟨d, hd⟩ := sampleDz_opens
  exact ⟨w, hw, openFile_written_iff hw hd⟩

/-- An entry whose name has a newline comes back as two. -/
theorem openFile_newline_in_name :
    ∃ w, (openFiles sampleZlib).writeEntries [(str "1\n2.xml", str "<a/>")] = (.ok (), w) ∧
      (do let r ← openFile 1 sampleDz w.indexStream
          .ok r.indices : Outcome _) = .ok [⟨str "1", 0, 0⟩, ⟨str "2.xml", 0, 4⟩] :=
  ⟨((openFiles sampleZlib).writeEntries [(str "1\n2.xml", str "<a/>")]).2, Prod.ext (by decide +kernel) rfl,
    by decide +kernel⟩

end CompactCorpusReaderPrivate

end AlpinoCorpus
