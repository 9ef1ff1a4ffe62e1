/-
What the constructor of `DzIstreamBuf` leaves when it returns, by the `RA`
fields that the loop over the extra part has met: the chunk length of the
last one, and their chunk tables one after another, each of which starts at
offset 0 again.
-/
import AlpinoCorpus.DzFormat
import AlpinoCorpus.DzOpening

namespace AlpinoCorpus

open Stdio Orbit

/-- One region ends where the other starts or before it. -/
def DzChunk.Before (a b : DzChunk) : Prop := a.offset + a.size ≤ b.offset

namespace DzFile

variable {bytes : Str} {nextField : Int}

/-- The chunk tables that the loop meets from position `p` on. -/
def tables (bytes : Str) (nextField : Int) : Nat → Nat → List (Nat × List Nat)
  | 0, _ => []
  | fuel + 1, p =>
    if (p : Int) < nextField then
      match fieldAt bytes p with
      | none => []
      | some field => field.table.toList ++ tables bytes nextField fuel field.next
    else []

/-- What the loop has read when it is done. -/
theorem readExtraLoop_tables : ∀ (fuel : Nat) {x x' : Extra}, x.file.bytes = bytes →
    readExtraLoop fuel nextField x = .ok x' →
    x'.chunkLen = ((tables bytes nextField fuel x.file.pos).getLast?.map (·.1)).or x.chunkLen ∧
      x'.chunks = x.chunks ++ ((tables bytes nextField fuel x.file.pos).map fun t => tableFrom 0 t.2).flatten := by
  intro fuel
  induction fuel with
  | zero =>
    intro x x' _ h
    rw [readExtraLoop] at h
    split at h
    · cases h
    · cases h
      simp [tables]
  | succ fuel ih =>
    intro x x' hx h
    rw [readExtraLoop] at h
    split at h
    swap
    · next hp =>
      cases h
      simp [tables, if_neg hp]
    next hp =>
    have hfield := readField_at x
    rw [hx] at hfield
    obtain ⟨x₁, h₁, h⟩ := bind_ok_iff.mp h
    rw [tables, if_pos hp]
    cases hf : fieldAt bytes x.file.pos with
    | none =>
      rw [hf] at hfield
      obtain ⟨e, he⟩ := hfield
      rw [he] at h₁
      cases h₁
    | some field =>
      obtain ⟨next, table⟩ := field
      rw [hf] at hfield
      simp only at hfield ⊢
      rw [hfield, Extra.add] at h₁
      cases table with
      | none =>
        cases h₁
        simpa using ih (x := ⟨{ x.file with pos := next }, x.chunkLen, x.chunks⟩) hx h
      | some table =>
        obtain ⟨chunkLen, sizes⟩ := table
        simp only at h₁
        split at h₁
        · cases h₁
        · cases h₁
          obtain ⟨hlen, hchunks⟩ :=
            ih (x := ⟨{ x.file with pos := next }, some chunkLen, x.chunks ++ tableFrom 0 sizes⟩) hx h
          refine ⟨?_, by rw [hchunks]; simp⟩
          rw [hlen]
          simp only [Option.toList_some, List.singleton_append, List.getLast?_cons]
          cases (tables bytes nextField fuel next).getLast? with
          | none => rfl
          | some t => rfl

/-- A chunk length has two bytes. -/
theorem tables_chunkLen_le : ∀ (fuel p : Nat), ∀ t ∈ tables bytes nextField fuel p, t.1 ≤ 65535
  | 0, _, _, h => by cases h
  | fuel + 1, p, t, h => by
    rw [tables] at h
    split at h
    swap
    · cases h
    split at h
    · cases h
    next field hf =>
    rcases List.mem_append.mp h with h | h
    swap
    · exact tables_chunkLen_le fuel _ t h
    have hb := word_le bytes (p + 6)
    simp only [fieldAt] at hf
    split at hf
    · cases hf
    split at hf
    · split at hf
      · cases hf
        simp only [Option.toList_some, List.mem_singleton] at h
        rw [h]
        simp only
        omega
      · cases hf
    · cases hf
      cases h

/-- What the constructor returns. -/
theorem openFile_tables {fuel : Nat} {file : DzFile} (h : openFile fuel bytes = .ok file) :
    file.stream = bytes ∧
      file.chunkLen = (tables bytes (extraEnd bytes) fuel (extraPos bytes)).getLast?.map (·.1) ∧
      file.chunks = ((tables bytes (extraEnd bytes) fuel (extraPos bytes)).map fun t => tableFrom 0 t.2).flatten := by
  have hh := h
  rw [openFile, bind_ok_iff] at hh
  obtain ⟨⟨header, f⟩, hh, -⟩ := hh
  rw [openFile_eq hh, bind_ok_iff] at h
  obtain ⟨x, hx, h⟩ := h
  obtain ⟨f', -, h⟩ := bind_ok_iff.mp h
  cases h
  obtain ⟨hlen, hchunks⟩ := readExtraLoop_tables fuel rfl hx
  exact ⟨rfl, by simpa [Extra.start] using hlen, by simpa [Extra.start] using hchunks⟩

/-! ## Regions in order -/

theorem exists_mem_tableFrom {sizes : List Nat} : ∀ {chunkPos size : Nat}, size ∈ sizes →
    ∃ c ∈ tableFrom chunkPos sizes, c.size = size := by
  induction sizes with
  | nil => intro chunkPos size h; exact nomatch h
  | cons s sizes ih =>
    intro chunkPos size h
    rcases List.mem_cons.mp h with rfl | h
    · exact ⟨_, List.mem_cons_self, rfl⟩
    · obtain ⟨c, hc, hs⟩ : ∃ c ∈ tableFrom ((chunkPos + s) % 2 ^ 64) sizes, c.size = size := ih h
      exact ⟨c, List.mem_cons_of_mem _ hc, hs⟩

/-- The regions of one table are in order exactly when the sum that gives
the last offset does not wrap. -/
theorem inOrder_tableFrom : ∀ (sizes : List Nat) {chunkPos : Nat}, chunkPos < 2 ^ 64 →
    ((tableFrom chunkPos sizes).Pairwise DzChunk.Before ↔ chunkPos + sizes.dropLast.sum < 2 ^ 64)
  | [], chunkPos, h => by simpa [tableFrom] using h
  | [s], chunkPos, h => by simpa [tableFrom] using h
  | s :: s' :: sizes, chunkPos, h => by
    have hmodlt : (chunkPos + s) % 2 ^ 64 < 2 ^ 64 := Nat.mod_lt _ (by decide)
    have ih := inOrder_tableFrom (s' :: sizes) hmodlt
    rw [tableFrom, List.pairwise_cons, ih, List.dropLast_cons_cons, List.sum_cons]
    constructor
    · intro h
      obtain ⟨hfirst, hsum⟩ := h
      have hle : chunkPos + s ≤ (chunkPos + s) % 2 ^ 64 := hfirst ⟨_, s'⟩ List.mem_cons_self
      omega
    · intro hsum
      have hmod : (chunkPos + s) % 2 ^ 64 = chunkPos + s := Nat.mod_eq_of_lt (by omega)
      refine ⟨fun c hc => ?_, by omega⟩
      have hpair := ih.mpr (by omega)
      rw [hmod] at hc hpair
      rw [tableFrom, List.pairwise_cons] at hpair
      show chunkPos + s ≤ c.offset
      rw [tableFrom] at hc
      rcases List.mem_cons.mp hc with rfl | hc
      · exact Nat.le_refl _
      · have : chunkPos + s + s' ≤ c.offset := hpair.1 c hc
        omega

/-- Nothing is before the start of a table but empty regions at 0. -/
theorem empty_of_before {sizes sizes' : List Nat} (hne : sizes' ≠ [])
    (h : ∀ a ∈ tableFrom 0 sizes, ∀ b ∈ tableFrom 0 sizes', a.Before b) : ∀ s ∈ sizes, s = 0 := by
  intro s hs
  obtain ⟨a, ha, rfl⟩ : ∃ a ∈ tableFrom 0 sizes, a.size = s := exists_mem_tableFrom hs
  cases sizes' with
  | nil => exact absurd rfl hne
  | cons s' sizes' =>
    have hle : a.offset + a.size ≤ 0 := h a ha ⟨0, s'⟩ List.mem_cons_self
    omega

theorem tableFrom_empty {sizes : List Nat} (h : ∀ s ∈ sizes, s = 0) : ∀ c ∈ tableFrom 0 sizes, c = ⟨0, 0⟩ := by
  induction sizes with
  | nil => intro c hc; exact nomatch hc
  | cons s sizes ih =>
    intro c hc
    have hs : s = 0 := h s List.mem_cons_self
    subst hs
    rcases List.mem_cons.mp hc with hc | hc
    · exact hc
    · exact ih (fun s hs => h s (List.mem_cons_of_mem _ hs)) c hc

/-- Tables whose regions, taken together, are in order: all but the last
that is not empty have empty chunks only, and the offsets of that one do
not wrap. -/
def InOrder (tables : List (List Nat)) : Prop :=
  ∃ init last, tables.filter (· ≠ []) = init ++ [last] ∧ (∀ sizes ∈ init, ∀ s ∈ sizes, s = 0) ∧
    last.dropLast.sum < 2 ^ 64

theorem flatten_filter (tables : List (List Nat)) :
    ((tables.filter (· ≠ [])).map (tableFrom 0)).flatten = (tables.map (tableFrom 0)).flatten := by
  induction tables with
  | nil => rfl
  | cons sizes tables ih =>
    by_cases h : sizes = []
    · subst h
      rw [List.filter_cons_of_neg (by simp), ih]
      rfl
    · rw [List.filter_cons_of_pos (by simpa using h), List.map_cons, List.flatten_cons, ih, List.map_cons,
        List.flatten_cons]

theorem inOrder_iff (tables : List (List Nat)) :
    ((tables.map (tableFrom 0)).flatten ≠ [] ∧ (tables.map (tableFrom 0)).flatten.Pairwise DzChunk.Before) ↔
      InOrder tables := by
  rw [← flatten_filter, InOrder]
  have hne : ∀ sizes ∈ tables.filter (· ≠ []), sizes ≠ [] := by
    intro sizes hs
    simpa using (List.mem_filter.mp hs).2
  generalize tables.filter (· ≠ []) = full at hne
  rcases full.eq_nil_or_concat with rfl | ⟨init, last, rfl⟩
  · simp
  have hlast : last ≠ [] := hne last (by simp)
  rw [List.concat_eq_append, List.map_append, List.flatten_append, List.pairwise_append]
  simp only [List.map_cons, List.map_nil, List.flatten_cons, List.flatten_nil, List.append_nil]
  rw [inOrder_tableFrom last (by decide), Nat.zero_add]
  constructor
  · intro ⟨_, _, hsum, hcross⟩
    refine ⟨init, last, rfl, fun sizes hs => empty_of_before hlast fun a ha b hb => hcross a ?_ b hb, hsum⟩
    exact List.mem_flatten.mpr ⟨_, List.mem_map_of_mem hs, ha⟩
  · intro ⟨init', last', heq, hzero, hsum⟩
    obtain ⟨rfl, hl⟩ := List.append_inj' heq rfl
    obtain rfl := List.singleton_inj.mp hl
    have hempty : ∀ c ∈ (init.map (tableFrom 0)).flatten, c = ⟨0, 0⟩ := by
      intro c hc
      obtain ⟨l, hl, hc⟩ := List.mem_flatten.mp hc
      obtain ⟨sizes, hs, rfl⟩ := List.mem_map.mp hl
      exact tableFrom_empty (hzero sizes hs) c hc
    refine ⟨?_, ?_, hsum, fun a ha b _ => ?_⟩
    · intro hnil
      obtain ⟨-, hnil⟩ := List.append_eq_nil_iff.mp hnil
      have := congrArg List.length hnil
      rw [length_tableFrom] at this
      exact hlast (List.length_eq_zero_iff.mp this)
    · refine List.pairwise_of_forall_mem_list fun a ha b _ => ?_
      rw [hempty a ha]
      exact Nat.zero_le _
    · rw [hempty a ha]
      exact Nat.zero_le _

/-! ## A usable chunk table -/

/-- A chunk length that seeks can divide by, at least one chunk, and the
regions of the chunks one after another. -/
structure Usable (file : DzFile) : Prop where
  chunkLen : ∃ L, file.chunkLen = some L ∧ 1 ≤ L ∧ L ≤ 65535
  chunks : file.chunks ≠ []
  inOrder : file.chunks.Pairwise DzChunk.Before

/-- **When an accepted file has a usable chunk table.** -/
theorem usable_iff {fuel : Nat} {file : DzFile} (h : openFile fuel bytes = .ok file) :
    Usable file ↔
      (∃ t, (tables bytes (extraEnd bytes) fuel (extraPos bytes)).getLast? = some t ∧ t.1 ≠ 0) ∧
      InOrder ((tables bytes (extraEnd bytes) fuel (extraPos bytes)).map (·.2)) := by
  obtain ⟨-, hlen, hchunks⟩ := openFile_tables h
  set ts := tables bytes (extraEnd bytes) fuel (extraPos bytes) with hts
  have hle : ∀ t ∈ ts, t.1 ≤ 65535 := tables_chunkLen_le fuel (extraPos bytes)
  have hmap : (ts.map fun t => tableFrom 0 t.2) = (ts.map (·.2)).map (tableFrom 0) := by
    rw [List.map_map]
    rfl
  rw [hmap] at hchunks
  rw [← inOrder_iff, ← hchunks]
  constructor
  · intro hu
    obtain ⟨L, hL, hpos, -⟩ := hu.chunkLen
    rw [hlen, Option.map_eq_some_iff] at hL
    obtain ⟨t, ht, rfl⟩ := hL
    exact ⟨⟨t, ht, by omega⟩, hu.chunks, hu.inOrder⟩
  · intro ⟨⟨t, ht, hpos⟩, hne, hord⟩
    refine ⟨⟨t.1, by rw [hlen, ht]; rfl, by omega, hle t (List.mem_of_getLast? ht)⟩, hne, hord⟩

/-- The header of an archive with two chunks. -/
def sampleFile : Str := DzOstreamBuf.writeHeader 0 ++ DzOstreamBuf.writeChunkInfo [8, 3] ++ []

theorem openFile_sample : openFile 1 sampleFile =
    .ok ⟨sampleFile, some dzPrefUncompressedSize, 26, [⟨0, 8⟩, ⟨8, 3⟩]⟩ :=
  openFile_written 0 [] (by decide) (by decide) (by decide)

theorem sample_usable :
    Usable ⟨sampleFile, some dzPrefUncompressedSize, 26, [⟨0, 8⟩, ⟨8, 3⟩]⟩ ↔
      (∃ t, (tables sampleFile (extraEnd sampleFile) 1 (extraPos sampleFile)).getLast? = some t ∧ t.1 ≠ 0) ∧
      InOrder ((tables sampleFile (extraEnd sampleFile) 1 (extraPos sampleFile)).map (·.2)) :=
  usable_iff openFile_sample

/-- A header that flags an extra part, which is empty: the constructor
accepts it and leaves `d_chunkLen` as it was. -/
def tablelessFile : Str := [0x1f, 0x8b, 8, 4, 0, 0, 0, 0, 2, 3, 0, 0]

theorem tablelessFile_not_usable :
    openFile 0 tablelessFile = .ok ⟨tablelessFile, none, 12, []⟩ ∧ ¬ Usable ⟨tablelessFile, none, 12, []⟩ := by
  refine ⟨?_, fun h => h.chunks rfl⟩
  have hheader : readHeader ⟨tablelessFile, 0⟩ = .ok (tablelessFile.take 10, ⟨tablelessFile, 10⟩) := rfl
  have hstart : Extra.start tablelessFile = ⟨⟨tablelessFile, 12⟩, none, []⟩ := by
    rw [Extra.start, show extraPos tablelessFile = 12 by decide]
  have hloop : readExtraLoop 0 (extraEnd tablelessFile) (.start tablelessFile) = .ok ⟨⟨tablelessFile, 12⟩, none, []⟩ := by
    rw [hstart, readExtraLoop, if_neg (by decide)]
  have hopt : skipOptional 0 (tablelessFile.take 10) ⟨tablelessFile, 12⟩ = .ok ⟨tablelessFile, 12⟩ := by
    rw [skipOptional_eq]
    rfl
  rw [openFile_eq hheader, hloop]
  simp only [bind, Except.bind, hopt]

/-! ## The number of chunks

The field that is read last may be cut off by the end of the file; every
other chunk takes two bytes of the part of the file before `nextField`, and
going back gains no more than 257 bytes each time. -/

/-- The walk over the fields, by position alone. -/
def nextPos (bytes : Str) (nextField : Int) (p : Nat) : Option Nat :=
  if (p : Int) < nextField then (fieldAt bytes p).map (·.next) else none

theorem nextPos_lt {p q : Nat} (h : nextPos bytes nextField p = some q) : (p : Int) < nextField := by
  by_contra hp
  rw [nextPos, if_neg hp] at h
  cases h

theorem readExtraLoop_nextPos : ∀ (fuel : Nat) {x x' : Extra}, x.file.bytes = bytes →
    readExtraLoop fuel nextField x = .ok x' → after (nextPos bytes nextField) (fuel + 1) x.file.pos = none := by
  intro fuel
  induction fuel with
  | zero =>
    intro x x' _ h
    rw [readExtraLoop] at h
    split at h
    · cases h
    · next hp => simp [after, nextPos, hp]
  | succ fuel ih =>
    intro x x' hx h
    rw [readExtraLoop] at h
    split at h
    swap
    · next hp => simp [after, nextPos, hp]
    next hp =>
    have hfield := readField_at x
    rw [hx] at hfield
    obtain ⟨x₁, h₁, h⟩ := bind_ok_iff.mp h
    cases hf : fieldAt bytes x.file.pos with
    | none => simp [after, nextPos, hf]
    | some field =>
      rw [hf] at hfield
      simp only [hfield] at h₁
      have hnext : nextPos bytes nextField x.file.pos = some field.next := by rw [nextPos, if_pos hp, hf]; rfl
      rw [after_succ hnext]
      have hadd : x₁.file = ⟨x.file.bytes, field.next⟩ := by
        unfold Extra.add at h₁
        split at h₁
        · cases h₁; rfl
        · split at h₁
          · cases h₁
          · cases h₁; rfl
      have := ih (x := x₁) (by rw [hadd]; exact hx) h
      rwa [hadd] at this

def chunkTotal (ts : List (Nat × List Nat)) : Nat := (ts.map (·.2.length)).sum

theorem tables_done {fuel p : Nat} (h : nextField ≤ p ∨ fieldAt bytes p = none) : tables bytes nextField fuel p = [] := by
  cases fuel with
  | zero => rfl
  | succ fuel =>
    rw [tables]
    split
    · next hp =>
      rcases h with h | h
      · omega
      · rw [h]
    · rfl

/-- A field and what it adds to the position. -/
theorem fieldAt_bounds {p : Nat} {field : Field} (h : fieldAt bytes p = some field) : match field.table with
    | none => (p : Int) - 257 ≤ field.next
    | some (_, sizes) => sizes.length ≤ 65535 ∧
        (field.next = p + 10 + 2 * sizes.length ∨ fieldAt bytes field.next = none) := by
  simp only [fieldAt] at h
  split at h
  · cases h
  next hp =>
  split at h
  · split at h
    swap
    · cases h
    next hok =>
    cases h
    simp only [length_sizesAt]
    have hb := word_le bytes (p + 8)
    refine ⟨by omega, ?_⟩
    by_cases hfit : p + 10 + 2 * (word bytes (p + 8)).toNat ≤ bytes.length
    · exact .inl (by omega)
    · right
      rw [fieldAt, if_pos (by omega)]
  · cases h
    have hb := word_le bytes (p + 2)
    simp only
    split <;> omega

theorem chunkTotal_tables : ∀ (fuel n p : Nat), after (nextPos bytes nextField) n p = none →
    2 * chunkTotal (tables bytes nextField fuel p) ≤ (nextField - p).toNat + 257 * n + 131070 := by
  intro fuel
  induction fuel with
  | zero => intro n p _; simp [tables, chunkTotal]
  | succ fuel ih =>
    intro n p hn
    by_cases hp : (p : Int) < nextField
    swap
    · rw [tables_done (.inl (by omega))]
      simp [chunkTotal]
    cases hf : fieldAt bytes p with
    | none =>
      rw [tables_done (.inr hf)]
      simp [chunkTotal]
    | some field =>
      obtain ⟨next, table⟩ := field
      obtain ⟨n, rfl⟩ : ∃ k, n = k + 1 := by
        cases n with
        | zero => cases hn
        | succ n => exact ⟨n, rfl⟩
      have hnext : nextPos bytes nextField p = some next := by rw [nextPos, if_pos hp, hf]; rfl
      rw [after_succ hnext] at hn
      have hrest := ih n next hn
      have hb := fieldAt_bounds hf
      rw [tables, if_pos hp, hf]
      cases table with
      | none =>
        simp only at hb
        simp only [Option.toList_none, List.nil_append]
        omega
      | some table =>
        obtain ⟨chunkLen, sizes⟩ := table
        simp only at hb
        simp only [Option.toList_some, List.singleton_append, chunkTotal, List.map_cons, List.sum_cons]
        rw [← chunkTotal]
        by_cases hdone : nextField ≤ next ∨ fieldAt bytes next = none
        · rw [tables_done hdone]
          simp only [chunkTotal, List.map_nil, List.sum_nil]
          omega
        · rcases hb.2 with hb' | hb'
          · omega
          · exact absurd (.inr hb') hdone

/-- **Few chunks.** The number of chunks of an accepted file fits in an
`int`, and its chunk length in two bytes. -/
theorem openFile_few {fuel : Nat} {file : DzFile} (h : openFile fuel bytes = .ok file) :
    file.chunks.length < 2 ^ 31 ∧ ∀ L, file.chunkLen = some L → L ≤ 65535 := by
  obtain ⟨-, hlen, hchunks⟩ := openFile_tables h
  refine ⟨?_, fun L hL => ?_⟩
  · rw [openFile, bind_ok_iff] at h
    obtain ⟨⟨header, f⟩, hh, h⟩ := h
    obtain ⟨x, hx, -⟩ := bind_ok_iff.mp h
    obtain ⟨rfl, -⟩ := readHeader_ok hh
    simp only [readExtra, get16_at] at hx
    have hstart : (Extra.start bytes).file.pos = extraPos bytes := rfl
    have hends : after (nextPos bytes (extraEnd bytes)) (fuel + 1) (Extra.start bytes).file.pos = none :=
      readExtraLoop_nextPos fuel rfl hx
    rw [hstart] at hends
    have hcard := after_card (s := extraPos bytes)
      (Finset.range (extraEnd bytes).toNat) (fun t u _ hstep => by
        have := nextPos_lt hstep
        rw [Finset.mem_range]
        omega) fun hr => not_ends_of_recurs hr ⟨_, hends⟩
    rw [Finset.card_range] at hcard
    have htotal := chunkTotal_tables fuel _ _ hcard
    have hsum : file.chunks.length = chunkTotal (tables bytes (extraEnd bytes) fuel (extraPos bytes)) := by
      rw [hchunks, List.length_flatten, chunkTotal, List.map_map]
      congr 1
      apply List.map_congr_left
      intro t _
      exact length_tableFrom 0 t.2
    have hend : extraEnd bytes ≤ 65547 := by
      have := word_le bytes 10
      unfold extraEnd extraPos past
      omega
    omega
  · rw [hlen, Option.map_eq_some_iff] at hL
    obtain ⟨t, ht, rfl⟩ := hL
    exact tables_chunkLen_le fuel _ t (List.mem_of_getLast? ht)

end DzFile

end AlpinoCorpus
