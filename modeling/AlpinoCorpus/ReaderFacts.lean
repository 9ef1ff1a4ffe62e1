/-
What a reader of many corpora lists, and how many entries the readers count.
-/
import AlpinoCorpus.IterFacts

namespace AlpinoCorpus

open Iteration OrdMap

/-! ## Directories -/

theorem filename_below (d p : Str) : filename (d ++ 47 :: p) = filename p := by
  unfold filename
  rw [List.reverse_append, List.reverse_cons, List.append_assoc, List.takeWhile_append]
  split
  · next h =>
    have hall : p.reverse.takeWhile (· ≠ 47) = p.reverse := (List.takeWhile_prefix _).eq_of_length h
    rw [hall]
    simp
  · rfl

theorem extension_below (d p : Str) : extension (d ++ 47 :: p) = extension p := by
  unfold extension
  rw [filename_below]

theorem filename_suffix (p : Str) : filename p <:+ p := by
  have h := List.takeWhile_prefix (fun c : UInt8 => decide (c ≠ 47)) (l := p.reverse)
  have := List.reverse_suffix.mpr h
  rwa [List.reverse_reverse] at this

/-- A name ends with its extension. -/
theorem extension_suffix (p : Str) : extension p <:+ p := by
  refine List.IsSuffix.trans ?_ (filename_suffix p)
  simp only [extension]
  split
  · exact List.nil_suffix
  · next h =>
    have hdot : 46 ∈ (filename p).reverse := by
      rw [List.mem_reverse]
      by_contra hmem
      exact h (.inr (.inr hmem))
    have hnot : (fun c : UInt8 => decide (c ≠ 46)) = fun c => !decide (c = 46) := by
      funext c
      simp
    have hsplit := List.takeWhile_append_dropWhile (p := fun c : UInt8 => !decide (c = 46)) (l := (filename p).reverse)
    rw [hnot]
    rcases skip_cases (fun c : UInt8 => decide (c = 46)) (filename p).reverse with ⟨-, hnone⟩ | ⟨c, cs, hdrop, hc, -⟩
    · have := List.filter_eq_nil_iff.mp hnone 46 hdot
      simp at this
    · obtain rfl : c = 46 := by simpa using hc
      rw [hdrop] at hsplit
      have := congrArg List.reverse hsplit
      exact ⟨cs.reverse, by simpa using this⟩

theorem extension_xml (q : Str) : extension (q ++ str ".xml") = str ".xml" := by
  have hxml : str ".xml" = [46, 120, 109, 108] := by decide
  have hname : filename (q ++ str ".xml") = filename q ++ str ".xml" := by
    rw [filename, filename, hxml, List.reverse_append]
    simp
  have hdots : ¬(filename q ++ str ".xml" = str "." ∨ filename q ++ str ".xml" = str ".." ∨
      46 ∉ filename q ++ str ".xml") := by
    rintro (h | h | h)
    · have := congrArg List.length h
      simp [hxml, show str "." = [46] by decide] at this
    · have := congrArg List.length h
      simp [hxml, show str ".." = [46, 46] by decide] at this
    · exact h (by simp [hxml])
  simp only [extension, hname, if_neg hdots]
  simp [hxml]

/-- The extension that `DirIter` looks for is the ending that `SortedDirIter`
looks for. -/
theorem isValid_eq (p : Str) : DirIter.isValid p = SortedDirIter.isValid p := by
  rw [Bool.eq_iff_iff]
  simp only [DirIter.isValid, SortedDirIter.isValid, endsWith, decide_eq_true_eq, List.isSuffixOf_iff_suffix]
  constructor
  · intro h
    rw [← h]
    exact extension_suffix p
  · rintro ⟨q, rfl⟩
    exact extension_xml q

theorem entryName_below (d p : Str) : DirIter.entryName d (d ++ 47 :: p) = p := by
  rw [DirIter.entryName, List.drop_left]
  rfl

/-- What a directory lists, in either order. -/
theorem Leaf.entries_directory (env : Env) (d : Str) :
    (Leaf.directory d).entries env .naturalOrder =
      ((env.below d).filter SortedDirIter.isValid).map fun p => ⟨p, []⟩ := by
  have hvalid : ∀ p, DirIter.isValid (d ++ 47 :: p) = SortedDirIter.isValid p := fun p => by
    rw [← isValid_eq]
    simp only [DirIter.isValid, extension_below]
  simp only [entries, DirIter.rest, Env.listing, List.filter_map, List.map_map]
  refine congrArg₂ _ (funext fun p => ?_) (List.filter_congr fun p _ => hvalid p)
  simp [entryName_below]

/-- **Both orders list the same entries.** -/
theorem Leaf.entries_perm (env : Env) (l : Leaf) (sortOrder : SortOrder) :
    (l.entries env sortOrder).Perm (l.entries env .naturalOrder) := by
  cases sortOrder with
  | naturalOrder => exact .refl _
  | numericalOrder =>
    cases l with
    | directory d =>
      rw [Leaf.entries_directory]
      have hnames : (env.listing d).map (DirIter.entryName d) = env.below d := by
        rw [Env.listing, List.map_map]
        exact (List.map_congr_left fun p _ => entryName_below d p).trans (List.map_id _)
      simp only [entries, SortedDirIter.rest, SortedDirIter.create, List.drop_zero, hnames]
      exact ((env.sort_perm _).filter _).map _
    | compact corpus => exact .refl _
    | db corpus => exact .refl _

/-- `getSize` counts the entries. -/
theorem Leaf.getSize_eq (env : Env) (l : Leaf) (sortOrder : SortOrder) :
    l.getSize env = .ok (l.entries env sortOrder).length := by
  rw [(l.entries_perm env sortOrder).length_eq]
  cases l with
  | directory d =>
    have hlen : (DirIter.rest ⟨d, env.listing d⟩).length < (env.listing d).length + 1 := by
      rw [DirIter.rest, List.length_map, Nat.lt_succ_iff]
      exact List.length_filter_le _ _
    obtain ⟨s, hs, -⟩ := (DirIter.delivers ⟨d, env.listing d⟩).exhaust .unfinished hlen
    simp only [getSize, hs, entries]
    rfl
  | compact corpus => simp [getSize, entries]
  | db corpus => rfl

/-! ## Reading -/

theorem CompactCorpus.Steady.after {corpus : CompactCorpus} (h : corpus.Steady) (entry : Str) : corpus.after entry = corpus := by
  have hread : (fun before => corpus.readEntry (entry :: before)) = corpus.readEntry := by
    funext before name
    rw [h, h before]
  rw [CompactCorpus.after, hread]

namespace Reader

variable {env : Env} {rdr : Reader} {entry : Str} {content : Outcome Str}

theorem Steady.after (h : rdr.Steady) (entry : Str) : rdr.after entry = rdr := by
  cases rdr with
  | multi m => rfl
  | corpus c =>
    cases c with
    | recursive r => rfl
    | leaf l =>
      cases l with
      | compact c => rw [Reader.after, CompactCorpus.Steady.after h]
      | directory d => rfl
      | db c => rfl

theorem Gives.read (h : rdr.Gives env entry content) : rdr.read env entry [] = content := h []

theorem Gives.after (h : rdr.Gives env entry content) (e : Str) : (rdr.after e).Gives env entry content :=
  fun before => h (e :: before)

/-- Of a steady reader, the first read says what all give. -/
theorem Steady.gives_iff (h : rdr.Steady) : rdr.Gives env entry content ↔ rdr.read env entry [] = content := by
  refine ⟨Gives.read, fun hread before => ?_⟩
  have hsame : before.foldl Reader.after rdr = rdr := by
    induction before with
    | nil => rfl
    | cons e before ih => rw [List.foldl_cons, h.after, ih]
  rw [hsame, hread]

/-- Of an open compact corpus, the names read before say what a read gives. -/
theorem gives_compact_iff {c : CompactCorpus} : (Reader.corpus (.leaf (.compact c))).Gives env entry content ↔
    ∀ before, c.readEntry before entry = content := by
  refine forall_congr' fun before => ?_
  have hafter : before.foldl Reader.after (Reader.corpus (.leaf (.compact c))) =
      .corpus (.leaf (.compact { c with readEntry := fun later => c.readEntry (before ++ later) })) := by
    induction before generalizing c with
    | nil => rfl
    | cons e before ih => exact ih
  rw [hafter]
  show c.readEntry (before ++ []) entry = content ↔ _
  rw [List.append_nil]

end Reader

/-! ## Opening -/

/-- Opened, or refused with an `OpenError`. -/
def Opened {α : Type} (x : Outcome α) : Prop := (∃ a, x = .ok a) ∨ ∃ e, x = .error (.raised e) ∧ e.isOpenError = true

/-- The entries of the corpora that open, each corpus under its name. -/
def Corpora.listing {ρ : Type} (opener : Str × Bool → Outcome ρ) (entries : ρ → List Entry) (corpora : Corpora) : List Entry :=
  corpora.entries.flatMap fun c =>
    match opener c.2 with
    | .ok reader => under c.1 (entries reader)
    | .error _ => []

namespace Corpus

def entries (env : Env) (c : Corpus) (sortOrder : SortOrder) : List Entry :=
  match c with
  | leaf l => l.entries env sortOrder
  | recursive r => r.multiReader.corporaMap.listing (fun c => factoryOpen env c.1) fun l => l.entries env sortOrder

/-- Opening the corpora inside fails with `OpenError` only. -/
def Settled (env : Env) : Corpus → Prop
  | leaf _ => True
  | recursive r => ∀ c ∈ r.multiReader.corporaMap.entries, Opened (factoryOpen env c.2.1)

end Corpus

theorem orElse_ok {α : Type} {first rest : Outcome α} {a : α} (h : orElse first rest = .ok a) : first = .ok a ∨ rest = .ok a := by
  unfold orElse at h
  split at h
  · split at h
    · exact .inr h
    · exact .inl h
  · exact .inl h

/-- The reader is one of those that the factory tries. -/
theorem factoryOpen_ok {env : Env} {path : Str} {l : Leaf} (h : factoryOpen env path = .ok l) :
    (∃ d, l = .directory d) ∨ (∃ c, env.openCompact path = .ok c ∧ .compact c = l) ∨ ∃ c, env.openDb path = .ok c ∧ .db c = l := by
  rcases orElse_ok h with hd | h
  · obtain ⟨d, -, hd⟩ := bind_ok_iff.mp hd
    obtain ⟨b, -, hd⟩ := bind_ok_iff.mp hd
    split at hd
    · cases hd
    · exact .inl ⟨d, (Except.ok.inj hd).symm⟩
  rcases orElse_ok h with hc | h
  · exact .inr (.inl (map_ok_iff.mp hc))
  rcases orElse_ok h with hdb | h
  · exact .inr (.inr (map_ok_iff.mp hdb))
  · cases h

/-- Each corpus is opened as it is registered. -/
theorem openCorpus_ok {env : Env} {c : Str × Bool} {reader : Corpus} (h : openCorpus env c = .ok reader) :
    (c.2 = false ∧ ∃ l, factoryOpen env c.1 = .ok l ∧ .leaf l = reader) ∨
      (c.2 = true ∧ ∃ r, factoryOpenRecursive env c.1 true = .ok r ∧ .recursive r = reader) := by
  unfold openCorpus at h
  split at h
  · next hc => exact .inr ⟨hc, map_ok_iff.mp h⟩
  · next hc => exact .inl ⟨by simpa using hc, map_ok_iff.mp h⟩

theorem openCorpus_leaf {env : Env} {c : Str × Bool} {l : Leaf} (h : openCorpus env c = .ok (.leaf l)) :
    factoryOpen env c.1 = .ok l := by
  rcases openCorpus_ok h with ⟨-, l', hl, heq⟩ | ⟨-, r, -, heq⟩
  · cases heq
    exact hl
  · cases heq

/-- A corpus of a recursive reader. -/
theorem openCorpus_plain {env : Env} {c : Str × Bool} (hc : c.2 = false) :
    openCorpus env c = Corpus.leaf <$> factoryOpen env c.1 := by
  rw [openCorpus, hc]
  rfl

theorem Opened.openCorpus_plain {env : Env} {c : Str × Bool} (hc : c.2 = false) :
    Opened (openCorpus env c) ↔ Opened (factoryOpen env c.1) := by
  rw [AlpinoCorpus.openCorpus_plain hc]
  cases factoryOpen env c.1 with
  | error s => simp [Opened]
  | ok l => simp [Opened]

/-- The entries of a recursive reader, its corpora opened as registered. -/
theorem Corpus.entries_recursive (env : Env) (r : RecursiveCorpusReaderPrivate) (sortOrder : SortOrder) :
    (Corpus.recursive r).entries env sortOrder =
      r.multiReader.corporaMap.listing (openCorpus env) fun c => c.entries env sortOrder := by
  rw [Corpus.entries, Corpora.listing, Corpora.listing]
  refine List.flatMap_congr fun c hc => ?_
  rw [openCorpus_plain (r.plainMap c hc)]
  cases factoryOpen env c.2.1 with
  | error s => rfl
  | ok l => rfl

/-- **Skip and concatenate.** An iterator over many corpora delivers those
that open, if starting one that opens gives its entries or fails with a
runtime error. -/
theorem fresh_listing {env : Env} {it : MultiIter Iter} {corpora : Corpora} (hiters : it.d_iters = MultiIter.readerIters corpora)
    (hcur : it.d_currentIter = none) (hint : it.d_interrupted = false) (entries : Corpus → List Entry)
    (hopen : ∀ c ∈ corpora.entries, Opened (openCorpus env c.2))
    (hstart : ∀ c ∈ corpora.entries, ∀ reader, openCorpus env c.2 = .ok reader →
      (∃ iter, (Iter.start env reader it ()).1 = .ok iter ∧ iter.Deliver env (entries reader)) ∨
      (∃ e, (Iter.start env reader it ()).1 = .error (.raised e) ∧ e.isRuntimeError = true ∧ entries reader = [])) :
    Iter.Fresh env it (corpora.listing (openCorpus env) entries) := by
  let gives (tip : ReaderIter) : List Entry :=
    match openCorpus env (tip.filename, tip.recursive) with
    | .ok reader => entries reader
    | .error _ => []
  have hlist : (it.d_iters.flatMap fun tip => under tip.name (gives tip)) = corpora.listing (openCorpus env) entries := by
    rw [hiters, MultiIter.readerIters, List.flatMap_map, Corpora.listing]
    refine List.flatMap_congr fun c _ => ?_
    simp only [gives]
    cases openCorpus env (c.2.1, c.2.2) with
    | error s => rfl
    | ok reader => rfl
  rw [← hlist]
  refine Iter.fresh_multi gives hcur hint fun tip htip => ?_
  rw [hiters] at htip
  obtain ⟨c, hc, rfl⟩ := List.mem_map.mp htip
  rcases hopen c hc with ⟨reader, ho⟩ | ⟨e, ho, he⟩
  · have ho' : openCorpus env (c.2.1, c.2.2) = .ok reader := ho
    rcases hstart c hc reader ho with ⟨iter, hs, hd⟩ | ⟨e, hs, he, hnil⟩
    · exact ⟨some (entries reader), Iter.opens_started ho' hs hd, by simp [gives, ho']⟩
    · exact ⟨none, Iter.opens_not_started ho' hs he, by simp [gives, ho', hnil]⟩
  · have ho' : openCorpus env (c.2.1, c.2.2) = .error (.raised e) := ho
    exact ⟨none, Iter.opens_refused ho' he, by simp [gives, ho']⟩

/-- What the factory opens delivers its entries. -/
theorem Corpus.deliver_entries {env : Env} {c : Corpus} (h : c.Settled env) (sortOrder : SortOrder) :
    ∃ it, c.getEntries env sortOrder = .ok it ∧ it.Deliver env (c.entries env sortOrder) := by
  cases c with
  | leaf l => exact l.deliver_entries env sortOrder
  | recursive r =>
    refine ⟨_, rfl, ?_⟩
    rw [Corpus.entries_recursive]
    refine (fresh_listing rfl rfl rfl _ (fun c hc => (Opened.openCorpus_plain (r.plainMap c hc)).mpr (h c hc)) ?_).deliver
    intro c hc reader ho
    rw [openCorpus_plain (r.plainMap c hc)] at ho
    cases hl : factoryOpen env c.2.1 with
    | error s => rw [hl] at ho; cases ho
    | ok l =>
      rw [hl] at ho
      obtain rfl : Corpus.leaf l = reader := by injection ho
      exact .inl (l.deliver_entries env sortOrder)

namespace MultiCorpusReaderPrivate

/-- Opening a corpus, or one inside it, fails with `OpenError` only. -/
def Settled (env : Env) (m : MultiCorpusReaderPrivate) : Prop :=
  ∀ c ∈ m.corporaMap.entries, Opened (openCorpus env c.2) ∧ ∀ reader, openCorpus env c.2 = .ok reader → reader.Settled env

theorem Settled.of_plain {env : Env} {m : MultiCorpusReaderPrivate}
    (h : ∀ c ∈ m.corporaMap.entries, c.2.2 = false ∧ Opened (factoryOpen env c.2.1)) : m.Settled env := by
  refine fun c hc => ⟨(Opened.openCorpus_plain (h c hc).1).mpr (h c hc).2, fun reader ho => ?_⟩
  rw [openCorpus_plain (h c hc).1] at ho
  cases hl : factoryOpen env c.2.1 with
  | error s => rw [hl] at ho; cases ho
  | ok l =>
    rw [hl] at ho
    obtain rfl : Corpus.leaf l = reader := by injection ho
    trivial

def entries (env : Env) (m : MultiCorpusReaderPrivate) (sortOrder : SortOrder) : List Entry :=
  m.corporaMap.listing (openCorpus env) fun c => c.entries env sortOrder

theorem fresh_entries {env : Env} {m : MultiCorpusReaderPrivate} (h : m.Settled env) (sortOrder : SortOrder) :
    Iter.Fresh env (.ofEntries m.corporaMap sortOrder) (m.entries env sortOrder) :=
  fresh_listing rfl rfl rfl _ (fun c hc => (h c hc).1) fun c hc reader ho =>
    .inl (Corpus.deliver_entries ((h c hc).2 reader ho) sortOrder)

theorem deliver_entries {env : Env} {m : MultiCorpusReaderPrivate} (h : m.Settled env) (sortOrder : SortOrder) :
    ∃ it, m.getEntries sortOrder = .ok it ∧ it.Deliver env (m.entries env sortOrder) :=
  ⟨_, rfl, (fresh_entries h sortOrder).deliver⟩

end MultiCorpusReaderPrivate

/-! ## Sizes -/

namespace MultiCorpusReaderPrivate

/-- What a corpus adds to the size: nothing when it does not open. -/
def sizeOfCorpus {ρ : Type} (opener : Str × Bool → Outcome ρ) (count : ρ → Nat) (corpus : Str × Bool) : Nat :=
  match opener corpus with
  | .ok reader => count reader
  | .error _ => 0

/-- The loop of `getSize` returns when every corpus opens, and gives its
size, or is refused. -/
theorem getSizeLoop_ok {ρ : Type} {opener : Str × Bool → Outcome ρ} {getSize : ρ → Outcome Nat} (count : ρ → Nat)
    {size : Nat} : ∀ {cs : List (Str × Bool)} {acc : Nat},
    (∀ c ∈ cs, ∀ reader, opener c = .ok reader → ∀ n, getSize reader = .ok n → n = count reader) →
    (getSizeLoop opener getSize cs acc = .ok size ↔
      (∀ c ∈ cs, Opened (opener c) ∧ ∀ reader, opener c = .ok reader → ∃ n, getSize reader = .ok n) ∧
        size = acc + (cs.map (sizeOfCorpus opener count)).sum)
  | [], acc, _ => by simp [getSizeLoop, eq_comm]
  | c :: cs, acc, hcount => by
    obtain ⟨hc, hcs⟩ := List.forall_mem_cons.mp hcount
    rw [getSizeLoop]
    cases ho : opener c with
    | error s =>
      cases s with
      | raised e =>
        cases he : e.isOpenError with
        | true =>
          simp only [he, if_true]
          rw [getSizeLoop_ok count hcs]
          simp [ho, he, Opened, sizeOfCorpus]
        | false => simp [raise, ho, he, Opened]
      | undefined => simp [ho, Opened]
      | unfinished => simp [ho, Opened]
    | ok reader =>
      cases hn : getSize reader with
      | error s =>
        simp only [bind, Except.bind]
        simp [ho, hn, Opened]
      | ok n =>
        obtain rfl := hc reader ho n hn
        simp only [bind, Except.bind, hn]
        rw [getSizeLoop_ok count hcs]
        simp [ho, hn, Opened, sizeOfCorpus, Nat.add_assoc]

end MultiCorpusReaderPrivate

end AlpinoCorpus
