/-
Paths into a reader of many corpora: the iterator puts a name, a slash and
an entry together, `corpusFromPath` and `entryFromPath` take them apart.
Both look for the longest registered name that begins the path, whether or
not a slash follows it.
-/
import AlpinoCorpus.Pipeline
import AlpinoCorpus.ReaderFacts

namespace AlpinoCorpus

open OrdMap

namespace MultiCorpusReaderPrivate

variable {path : Str}

/-! ## The two searches -/

/-- Both loops end with one name `l`: the one they had, or the name of a
corpus, at least as long as every name that begins the path. -/
theorem loops_longest (path : Str) : ∀ (cs : List (Str × (Str × Bool))) (found : Bool) (longest : Str) (corpus : Str × Bool),
    ∃ l c, corpusLoop path cs found longest corpus = (found || cs.any (·.1.isPrefixOf path), c) ∧
      entryLoop path cs found longest = (found || cs.any (·.1.isPrefixOf path), l) ∧
      ((l = longest ∧ c = corpus) ∨ ((l, c) ∈ cs ∧ l <+: path ∧ longest.length < l.length)) ∧
      ∀ c ∈ cs, c.1 <+: path → c.1.length ≤ l.length := by
  intro cs
  induction cs with
  | nil => intro found longest corpus; exact ⟨longest, corpus, by simp [corpusLoop], by simp [entryLoop], .inl ⟨rfl, rfl⟩, nofun⟩
  | cons c cs ih =>
    intro found longest corpus
    obtain ⟨name, c⟩ := c
    simp only [corpusLoop, entryLoop]
    cases hp : name.isPrefixOf path with
    | false =>
      obtain ⟨l, c', hc, he, hl, hmax⟩ := ih found longest corpus
      refine ⟨l, c', by simpa [hp] using hc, by simpa [hp] using he, ?_, List.forall_mem_cons.mpr ⟨fun h => ?_, hmax⟩⟩
      · rcases hl with hl | ⟨hmem, hl⟩
        · exact .inl hl
        · exact .inr ⟨by simp [hmem], hl⟩
      · rw [List.isPrefixOf_iff_prefix.mpr h] at hp
        cases hp
    | true =>
      by_cases hlen : name.length > longest.length
      · obtain ⟨l, c', hc, he, hl, hmax⟩ := ih true name c
        refine ⟨l, c', by simpa [hp, hlen] using hc, by simpa [hp, hlen] using he, .inr ?_,
          List.forall_mem_cons.mpr ⟨fun _ => ?_, hmax⟩⟩
        · rcases hl with ⟨rfl, rfl⟩ | ⟨hmem, hl, hlt⟩
          · exact ⟨by simp, List.isPrefixOf_iff_prefix.mp hp, hlen⟩
          · exact ⟨by simp [hmem], hl, by omega⟩
        · rcases hl with ⟨rfl, rfl⟩ | ⟨-, -, hlt⟩
          · exact le_rfl
          · exact hlt.le
      · obtain ⟨l, c', hc, he, hl, hmax⟩ := ih true longest corpus
        refine ⟨l, c', by simpa [hp, hlen] using hc, by simpa [hp, hlen] using he, ?_,
          List.forall_mem_cons.mpr ⟨fun _ => ?_, hmax⟩⟩
        · rcases hl with hl | ⟨hmem, hl⟩
          · exact .inl hl
          · exact .inr ⟨by simp [hmem], hl⟩
        · rcases hl with ⟨rfl, -⟩ | ⟨-, -, hlt⟩ <;> simp only <;> omega

/-- **The two searches agree.** A path that begins with a registered name is
taken apart at the longest one. -/
theorem lookup_longest {m : MultiCorpusReaderPrivate} {c : Str × (Str × Bool)} (hmem : c ∈ m.corporaMap.entries)
    (hpath : c.1 <+: path) (hne : c.1 ≠ []) :
    ∃ l corpus, (l, corpus) ∈ m.corporaMap.entries ∧ l <+: path ∧ (∀ c ∈ m.corporaMap.entries, c.1 <+: path → c.1.length ≤ l.length) ∧
      m.corpusFromPath path = .ok corpus ∧
      m.entryFromPath path = (if l.length + 1 > path.length then raise .outOfRange else .ok (path.drop (l.length + 1))) := by
  obtain ⟨l, corpus, hc, he, hl, hmax⟩ := loops_longest path m.corporaMap.entries false [] ([], false)
  have hany : (m.corporaMap.entries.any fun c => c.1.isPrefixOf path) = true :=
    List.any_eq_true.mpr ⟨c, hmem, List.isPrefixOf_iff_prefix.mpr hpath⟩
  have hpos := hmax c hmem hpath
  have hcpos := List.length_pos_iff.mpr hne
  rcases hl with ⟨rfl, -⟩ | ⟨hl, hlp, -⟩
  · simp only [List.length_nil] at hpos; omega
  · exact ⟨l, corpus, hl, hlp, hmax, by rw [corpusFromPath, hc, hany]; rfl, by rw [entryFromPath, he, hany]; rfl⟩

/-- Reading an entry of a corpus whose name is the longest that begins the
path. -/
theorem readEntry_longest {ρ : Type} {m : MultiCorpusReaderPrivate} {n e : Str} {corpus : Str × Bool}
    (opener : Str × Bool → Outcome ρ) (read : ρ → Str → Outcome Str) (hn : n ≠ []) (hmem : (n, corpus) ∈ m.corporaMap.entries)
    (h : ∀ c ∈ m.corporaMap.entries, c.1 <+: n ++ 47 :: e → c.1.length ≤ n.length) :
    m.readEntry opener read (n ++ 47 :: e) = (do let reader ← opener corpus; read reader e) := by
  have hp : n <+: n ++ 47 :: e := List.prefix_append _ _
  obtain ⟨l, corpus', hl, hlp, hmax, hc, he⟩ := lookup_longest hmem hp hn
  obtain rfl : l = n := (List.prefix_of_prefix_length_le hlp hp (h _ hl hlp)).eq_of_length
    (le_antisymm (h _ hl hlp) (hmax _ hmem hp))
  have heq : (l, corpus') = (l, corpus) :=
    m.corporaMap.sorted.unique hl hmem (strictWeak_nameCompare.equiv_refl l)
  obtain rfl : corpus' = corpus := congrArg Prod.snd heq
  have hentry : m.entryFromPath (l ++ 47 :: e) = .ok e := by
    rw [he, if_neg (by simp), List.drop_append, List.drop_of_length_le (by omega)]
    simp
  rw [readEntry, hc, hentry]
  rfl

/-! ## Listing and reading -/

/-- **Listing and reading agree** on a path that the iterator gives, `n`
being the name it was given under, exactly when the reader still has the
corpus of that name and no longer name begins the path. -/
theorem readEntry_listed_iff {m : MultiCorpusReaderPrivate} {n e : Str} (corpus : Str × Bool) (hn : n ≠ [])
    (hkey : n ∈ m.corporaMap.entries.map Prod.fst) :
    (∀ (ρ : Type) (opener : Str × Bool → Outcome ρ) (read : ρ → Str → Outcome Str),
      m.readEntry opener read (n ++ 47 :: e) = (do let reader ← opener corpus; read reader e)) ↔
    (n, corpus) ∈ m.corporaMap.entries ∧
      ∀ name ∈ m.corporaMap.entries.map Prod.fst, name <+: n ++ 47 :: e → name.length ≤ n.length := by
  constructor
  · intro h
    obtain ⟨⟨n, c⟩, hmem, rfl⟩ := List.mem_map.mp hkey
    have hp : n <+: n ++ 47 :: e := List.prefix_append _ _
    obtain ⟨l, corpus', hl, hlp, hmax, hc, he⟩ := lookup_longest hmem hp hn
    -- a reading that shows which corpus was opened and which entry was read
    have hshow := h (Str × Bool) Except.ok fun c e' =>
      if c = corpus ∧ e' = e then .ok [] else raise .logicError
    rw [readEntry, hc] at hshow
    have hread : (do let entry ← m.entryFromPath (n ++ 47 :: e)
                     (if corpus' = corpus ∧ entry = e then .ok [] else raise .logicError : Outcome Str)) = .ok [] := by
      refine hshow.trans ?_
      simp [bind, Except.bind]
    obtain ⟨entry, hentry, hread⟩ := bind_ok_iff.mp hread
    split at hread
    · next hboth =>
      obtain ⟨rfl, rfl⟩ := hboth
      rw [he] at hentry
      split at hentry
      · cases hentry
      · next hin =>
        have hlen := congrArg List.length (Except.ok.inj hentry)
        rw [List.length_drop, List.length_append, List.length_cons] at hlen
        rw [List.length_append, List.length_cons] at hin
        have hle := hmax (n, c) hmem hp
        simp only at hle
        have hll : l.length ≤ n.length := by omega
        obtain rfl : l = n := (List.prefix_of_prefix_length_le hlp hp hll).eq_of_length (le_antisymm hll hle)
        exact ⟨hl, fun name hname hnp => by
          obtain ⟨c, hc, rfl⟩ := List.mem_map.mp hname
          exact hmax c hc hnp⟩
    · cases hread
  · rintro ⟨hmem, h⟩ ρ opener read
    exact readEntry_longest opener read hn hmem fun c hc hp => h c.1 (List.mem_map_of_mem hc) hp

/-- Two corpora as a directory with `x.index` and `x/1.index` gives them. -/
def overlapping : MultiCorpusReaderPrivate :=
  (empty.register (str "x") (str "x.index") false).register (str "x/1") (str "x/1.index") false

def overlappingEnv : Env :=
  sampleEnv [(str "x.index", [(str "10.xml", str "<a/>"), (str "2.xml", str "<b/>")]),
    (str "x/1.index", [(str "3.xml", str "<c/>")])] []

theorem sample_readEntry_listed_iff :
    (∀ (ρ : Type) (opener : Str × Bool → Outcome ρ) (read : ρ → Str → Outcome Str),
      overlapping.readEntry opener read (str "x" ++ 47 :: str "2.xml") =
        (do let reader ← opener (str "x.index", false); read reader (str "2.xml"))) ↔
      (str "x", (str "x.index", false)) ∈ overlapping.corporaMap.entries ∧
        ∀ k ∈ overlapping.corporaMap.entries.map (·.1), k <+: str "x" ++ 47 :: str "2.xml" →
          k.length ≤ (str "x").length :=
  readEntry_listed_iff (str "x.index", false) (by decide) (by decide)

/-- The ways to write a path as a registered name, a slash, and an entry of
the corpus of that name. -/
def decompositions (env : Env) (m : MultiCorpusReaderPrivate) (path : Str) : List (Str × Str) :=
  (m.corporaMap.entries.flatMap fun c =>
    match openCorpus env c.2 with
    | .ok reader => (reader.entries env .naturalOrder).map fun e => (c.1, e.name)
    | .error _ => []).filter fun d => d.1 ++ 47 :: d.2 = path

theorem overlapping_settled : overlapping.Settled overlappingEnv := by
  refine Settled.of_plain fun c hc => ?_
  have hentries : overlapping.corporaMap.entries =
      [(str "x", (str "x.index", false)), (str "x/1", (str "x/1.index", false))] := by decide
  simp only [hentries, List.mem_cons, List.not_mem_nil, or_false] at hc
  rcases hc with rfl | rfl
  · exact ⟨rfl, .inl ⟨_, rfl⟩⟩
  · exact ⟨rfl, .inl ⟨_, rfl⟩⟩

/-- The entry `x/10.xml` is listed, and can be taken apart in one way only,
but is looked for in the corpus `x/1`. -/
theorem listed_entry_not_read :
    (∃ it, overlapping.getEntries .naturalOrder = .ok it ∧
      it.Deliver overlappingEnv [⟨str "x/10.xml", []⟩, ⟨str "x/2.xml", []⟩, ⟨str "x/1/3.xml", []⟩]) ∧
    decompositions overlappingEnv overlapping (str "x/10.xml") = [(str "x", str "10.xml")] ∧
    (do let reader ← openCorpus overlappingEnv (str "x.index", false); reader.readEntry overlappingEnv (str "10.xml")) =
      .ok (str "<a/>") ∧
    (Reader.multi overlapping).readEntry overlappingEnv (str "x/10.xml") =
      raise (.error (str "CompactCorpusReaderPrivate::read: requesting unknown data!")) := by
  refine ⟨?_, by decide, by decide, by decide⟩
  obtain ⟨it, hit, hd⟩ := deliver_entries overlapping_settled .naturalOrder
  have hlist : overlapping.entries overlappingEnv .naturalOrder =
      [⟨str "x/10.xml", []⟩, ⟨str "x/2.xml", []⟩, ⟨str "x/1/3.xml", []⟩] := by decide
  exact ⟨it, hit, hlist ▸ hd⟩

/-! ## Any path -/

/-- The longest registered name that can be split off the path, and what is
left of it. -/
def LongestSplit (m : MultiCorpusReaderPrivate) (path n e : Str) : Prop :=
  path = n ++ 47 :: e ∧ ∀ c ∈ m.corporaMap.entries, ∀ e', path = c.1 ++ 47 :: e' → c.1.length ≤ n.length

/-- `readEntry` comes to `read(e)` on the corpus, whatever the readers are. -/
def Reaches (m : MultiCorpusReaderPrivate) (path : Str) (corpus : Str × Bool) (e : Str) : Prop :=
  ∀ (ρ : Type) (opener : Str × Bool → Outcome ρ) (read : ρ → Str → Outcome Str),
    m.readEntry opener read path = (do let reader ← opener corpus; read reader e)

/-- The path is taken apart as names and entries are put together. -/
structure Resolves (m : MultiCorpusReaderPrivate) (path : Str) : Prop where
  reaches : ∀ corpus e, m.Reaches path corpus e ↔ ∃ n, (n, corpus) ∈ m.corporaMap.entries ∧ m.LongestSplit path n e
  unknown : (∀ c ∈ m.corporaMap.entries, ∀ e, path ≠ c.1 ++ 47 :: e) →
    ∀ (ρ : Type) (opener : Str × Bool → Outcome ρ) (read : ρ → Str → Outcome Str),
      ∃ x, x.isRuntimeError = true ∧ m.readEntry opener read path = raise x
  agree : (∃ s, m.corpusFromPath path = .error s) ↔ ∃ s, m.entryFromPath path = .error s

/-- What the two searches find: no name, or the longest one that begins the
path. The corpus of an empty name is never assigned. -/
theorem search_cases (m : MultiCorpusReaderPrivate) (path : Str) :
    ((∀ c ∈ m.corporaMap.entries, ¬c.1 <+: path) ∧
        m.corpusFromPath path = raise (.runtimeError (str "Unknown corpus: " ++ path)) ∧
        m.entryFromPath path = raise (.runtimeError (str "Could not find entry: " ++ path))) ∨
      ∃ l corpus, (l, corpus) ∈ m.corporaMap.entries ∧ l <+: path ∧
        (∀ c ∈ m.corporaMap.entries, c.1 <+: path → c.1.length ≤ l.length) ∧
        m.corpusFromPath path = .ok (if l = [] then ([], false) else corpus) ∧
        m.entryFromPath path = if l.length + 1 > path.length then raise .outOfRange else .ok (path.drop (l.length + 1)) := by
  obtain ⟨l, corpus, hc, he, hl, hmax⟩ := loops_longest path m.corporaMap.entries false [] ([], false)
  by_cases hnone : ∀ c ∈ m.corporaMap.entries, ¬c.1 <+: path
  · have hany : (m.corporaMap.entries.any fun c => c.1.isPrefixOf path) = false := by
      rw [List.any_eq_false]
      exact fun c hc hp => hnone c hc (List.isPrefixOf_iff_prefix.mp hp)
    exact .inl ⟨hnone, by rw [corpusFromPath, hc, hany]; rfl, by rw [entryFromPath, he, hany]; rfl⟩
  · simp only [not_forall, not_not] at hnone
    obtain ⟨c, hmem, hp⟩ := hnone
    have hany : (m.corporaMap.entries.any fun c => c.1.isPrefixOf path) = true :=
      List.any_eq_true.mpr ⟨c, hmem, List.isPrefixOf_iff_prefix.mpr hp⟩
    have hcorpus : m.corpusFromPath path = .ok corpus := by rw [corpusFromPath, hc, hany]; rfl
    have hentry : m.entryFromPath path =
        if l.length + 1 > path.length then raise .outOfRange else .ok (path.drop (l.length + 1)) := by
      rw [entryFromPath, he, hany]; rfl
    rcases hl with ⟨rfl, rfl⟩ | ⟨hlmem, hlp, hpos⟩
    · -- only the empty name begins the path
      obtain ⟨name, corpus⟩ := c
      obtain rfl : name = [] := List.length_eq_zero_iff.mp (Nat.le_zero.mp (hmax _ hmem hp))
      exact .inr ⟨[], corpus, hmem, hp, hmax, hcorpus, hentry⟩
    · have hne : l ≠ [] := List.ne_nil_of_length_pos (by simpa using hpos)
      exact .inr ⟨l, corpus, hlmem, hlp, hmax, by rw [if_neg hne]; exact hcorpus, hentry⟩

/-- A reading that shows which corpus was opened and which entry was read. -/
theorem Reaches.eq {m : MultiCorpusReaderPrivate} {corpus corpus' : Str × Bool} {e e' : Str} (h : m.Reaches path corpus e)
    (h' : m.Reaches path corpus' e') : corpus = corpus' ∧ e = e' := by
  have hshow := h (Str × Bool) Except.ok fun c x => if c = corpus ∧ x = e then .ok [] else raise .logicError
  rw [h'] at hshow
  simp only [bind, Except.bind, and_self, if_true] at hshow
  split at hshow
  · next heq => exact ⟨heq.1.symm, heq.2.symm⟩
  · cases hshow

theorem reaches_of_ok {m : MultiCorpusReaderPrivate} {corpus : Str × Bool} {e : Str} (hc : m.corpusFromPath path = .ok corpus)
    (he : m.entryFromPath path = .ok e) : m.Reaches path corpus e := by
  intro ρ opener read
  rw [readEntry, hc, he]
  rfl

theorem prefix_eq_of_length {n n' : Str} (hn : n <+: path) (hn' : n' <+: path) (hlen : n.length = n'.length) : n = n' :=
  (List.prefix_of_prefix_length_le hn hn' hlen.le).eq_of_length hlen

theorem corpus_unique {m : MultiCorpusReaderPrivate} {n : Str} {c c' : Str × Bool} (hc : (n, c) ∈ m.corporaMap.entries)
    (hc' : (n, c') ∈ m.corporaMap.entries) : c = c' :=
  congrArg Prod.snd (m.corporaMap.sorted.unique hc hc' (strictWeak_nameCompare.equiv_refl n))

/-- Where the path is taken apart so, a slash follows the longest name that
begins it. -/
theorem Resolves.slash {m : MultiCorpusReaderPrivate} {n : Str} {corpus : Str × Bool} (h : m.Resolves path)
    (hmem : (n, corpus) ∈ m.corporaMap.entries) (hp : n <+: path)
    (hmax : ∀ c ∈ m.corporaMap.entries, c.1 <+: path → c.1.length ≤ n.length) :
    (∃ e, path = n ++ 47 :: e) ∧ (n = [] → corpus = ([], false)) := by
  rcases m.search_cases path with ⟨hnone, -⟩ | ⟨l, corpus', hl, hlp, hlmax, hc, he⟩
  · exact absurd hp (hnone _ hmem)
  · obtain rfl : l = n := prefix_eq_of_length hlp hp (le_antisymm (hmax _ hl hlp) (hlmax _ hmem hp))
    obtain rfl : corpus' = corpus := corpus_unique hl hmem
    by_cases hlen : l.length + 1 > path.length
    · rw [if_pos hlen] at he
      obtain ⟨s, hs⟩ := h.agree.mpr ⟨_, he⟩
      rw [hc] at hs
      cases hs
    · rw [if_neg hlen] at he
      obtain ⟨n, hn, hsplit⟩ := (h.reaches _ _).mp (reaches_of_ok hc he)
      have hnl : n.length = l.length := by
        have := congrArg List.length hsplit.1
        rw [List.length_append, List.length_cons, List.length_drop] at this
        omega
      obtain rfl : n = l := prefix_eq_of_length ⟨_, hsplit.1.symm⟩ hlp hnl
      refine ⟨⟨_, hsplit.1⟩, fun hnil => ?_⟩
      rw [if_pos hnil] at hn
      exact corpus_unique hmem hn

/-- A path that no name begins. -/
theorem resolves_of_unknown {m : MultiCorpusReaderPrivate} (hnone : ∀ c ∈ m.corporaMap.entries, ¬c.1 <+: path)
    (hc : m.corpusFromPath path = raise (.runtimeError (str "Unknown corpus: " ++ path)))
    (he : m.entryFromPath path = raise (.runtimeError (str "Could not find entry: " ++ path))) : m.Resolves path := by
  refine ⟨fun corpus e => iff_of_false (fun hr => ?_) fun hsplit => ?_, fun _ ρ opener read => ?_,
    iff_of_true ⟨_, hc⟩ ⟨_, he⟩⟩
  · have hok := hr Unit (fun _ => .ok ()) fun _ _ => .ok []
    rw [readEntry, hc] at hok
    cases hok
  · obtain ⟨n, hn, hpath, -⟩ := hsplit
    exact hnone _ hn ⟨_, hpath.symm⟩
  · exact ⟨_, rfl, by rw [readEntry, hc]; rfl⟩

/-- A path whose longest name is followed by a slash. -/
theorem resolves_of_slash {m : MultiCorpusReaderPrivate} {l e₀ : Str} {corpus : Str × Bool}
    (hl : (l, corpus) ∈ m.corporaMap.entries) (hpath : path = l ++ 47 :: e₀)
    (hlmax : ∀ c ∈ m.corporaMap.entries, c.1 <+: path → c.1.length ≤ l.length) (hc : m.corpusFromPath path = .ok corpus)
    (he : m.entryFromPath path = .ok e₀) : m.Resolves path := by
  refine ⟨fun corpus' e => ⟨fun hr => ?_, fun hsplit => ?_⟩, fun hnone => absurd hpath (hnone _ hl e₀),
    iff_of_false (fun hs => ?_) fun hs => ?_⟩
  · obtain ⟨rfl, rfl⟩ := hr.eq (reaches_of_ok hc he)
    exact ⟨l, hl, hpath, fun c hc e' heq => hlmax c hc ⟨_, heq.symm⟩⟩
  · obtain ⟨n, hn, heq, hlong⟩ := hsplit
    obtain rfl : n = l :=
      prefix_eq_of_length ⟨_, heq.symm⟩ ⟨_, hpath.symm⟩ (le_antisymm (hlmax _ hn ⟨_, heq.symm⟩) (hlong _ hl e₀ hpath))
    obtain rfl : corpus' = corpus := corpus_unique hn hl
    obtain rfl : e = e₀ := by
      rw [heq] at hpath
      simpa using hpath
    exact reaches_of_ok hc he
  · obtain ⟨s, hs⟩ := hs
    rw [hc] at hs
    cases hs
  · obtain ⟨s, hs⟩ := hs
    rw [he] at hs
    cases hs

/-- **Path resolution is the inverse of name composition** exactly when a
slash follows the longest name that begins the path. -/
theorem readEntry_resolves_iff (m : MultiCorpusReaderPrivate) (path : Str) :
    m.Resolves path ↔ ∀ n corpus, (n, corpus) ∈ m.corporaMap.entries → n <+: path →
      (∀ c ∈ m.corporaMap.entries, c.1 <+: path → c.1.length ≤ n.length) →
        (∃ e, path = n ++ 47 :: e) ∧ (n = [] → corpus = ([], false)) := by
  constructor
  · intro h n corpus hmem hp hmax
    exact h.slash hmem hp hmax
  · intro h
    rcases m.search_cases path with ⟨hnone, hc, he⟩ | ⟨l, corpus, hl, hlp, hlmax, hc, he⟩
    · exact resolves_of_unknown hnone hc he
    · obtain ⟨⟨e₀, hpath⟩, hempty⟩ := h l corpus hl hlp hlmax
      have hc' : m.corpusFromPath path = .ok corpus := by
        rw [hc]
        split
        · next hnil => rw [hempty hnil]
        · rfl
      have he' : m.entryFromPath path = .ok e₀ := by
        have hdrop : path.drop (l.length + 1) = e₀ := by rw [hpath, ← List.drop_drop, List.drop_left]; rfl
        rw [he, if_neg, hdrop]
        rw [hpath, List.length_append, List.length_cons]
        omega
      exact resolves_of_slash hl hpath hlmax hc' he'

/-- The path is the name of a corpus: one search finds it, the other is past
the end. -/
theorem name_not_resolved :
    overlapping.corpusFromPath (str "x") = .ok (str "x.index", false) ∧ overlapping.entryFromPath (str "x") = raise .outOfRange ∧
      ¬overlapping.Resolves (str "x") := by
  have hc : overlapping.corpusFromPath (str "x") = .ok (str "x.index", false) := by decide
  have he : overlapping.entryFromPath (str "x") = raise .outOfRange := by decide
  refine ⟨hc, he, fun h => ?_⟩
  obtain ⟨s, hs⟩ := h.agree.mpr ⟨_, he⟩
  rw [hc] at hs
  cases hs

end MultiCorpusReaderPrivate

end AlpinoCorpus
