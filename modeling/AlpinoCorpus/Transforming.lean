/-
Entries through a stylesheet: `StylesheetIter`, over an iterator that may
fail, and `alpinocorpus-xslt`, which prints the transformed entries of a
corpus, each of them once. What it prints for a corpus is what it prints for
single entries, in the order of the listing (`transformCorpus_entries`).
-/
import AlpinoCorpus.ResumingCorpora
import AlpinoCorpus.Serving

namespace AlpinoCorpus

open Iteration

/-! ## What a reader keeps -/

/-- The reader lists `names`; `doc n` is the document of an entry, or what
reading it throws, whatever was read before, and queries go on after entries
that throw. -/
structure Keeps (env : Env) (sortOrder : SortOrder) (rdr : Reader) (names : List Str) (doc : Str → Except Exn Str) : Prop where
  nodup : names.Nodup
  lists : rdr.Lists env sortOrder names
  reads : ∀ n ∈ names, rdr.Gives env n ((doc n).mapError .raised)
  answers : ∀ q, Accepted env (splitString q) → Evaluates env doc (splitString q) names →
    ∃ it, rdr.query env .xpath q sortOrder = .ok it ∧
    it.Follow env (names.flatMap fun n => groupItems n (answerTo env doc (splitString q) n))

variable {env : Env} {sortOrder : SortOrder} {rdr : Reader} {names : List Str} {doc : Str → Except Exn Str}

theorem Stocks.keeps (h : Stocks env sortOrder rdr names doc) : Keeps env sortOrder rdr names doc :=
  ⟨h.nodup, h.lists, h.reads, fun _ => h.answers⟩

theorem AllStock.keeps {m : MultiCorpusReaderPrivate} {names : Str → List Str} (h : AllStock env sortOrder m names doc) :
    Keeps env sortOrder (.multi m) (m.paths names) doc := by
  obtain ⟨es, hd, hes⟩ := h.lists
  have hsteady : (Reader.multi m).Steady := trivial
  exact ⟨h.nodup, ⟨_, es, rfl, hd, hes⟩, fun p hp => hsteady.gives_iff.mpr (h.read p hp), fun _ => h.answers⟩

/-! ## The iterator -/

/-- The transformed document of an entry. -/
def StylesheetIter.text (env : Env) (rdr : Reader) (stylesheet : Str) (markers : List MarkerQuery) (n : Str) : Outcome Str := do
  let xml ← rdr.read env n markers
  env.transform stylesheet xml

/-- What is left of an item when its entry has been transformed. -/
def transformItem (text : Str → Outcome Str) : Item Stop Entry → Item Stop Entry :=
  .bind fun e => (text e.name).map fun contents => { e with contents }

/-- Each entry that is in store inside is transformed; one that cannot be
read or transformed throws from `next`, and is behind the iterator then. -/
theorem Iter.follow_stylesheet {it : Iter} {items : List (Item Stop Entry)} (h : it.Follow env items) (stylesheet : Str)
    (markers : List MarkerQuery) (rdr : Reader) :
    ∃ n, ∀ fuel ≥ n, Follows ((Iter.body env fuel).machine rdr) (.stylesheet ⟨it, markers, stylesheet⟩, ())
      (items.map (transformItem (StylesheetIter.text env rdr stylesheet markers))) false := by
  obtain ⟨n, hn⟩ := h
  refine ⟨n + 1, fun fuel hfuel => ?_⟩
  obtain ⟨k, rfl⟩ : ∃ k, fuel = k + 1 := ⟨fuel - 1, by omega⟩
  let wrap (s : Iter × Unit) : Iter × Unit := (.stylesheet ⟨s.1, markers, stylesheet⟩, s.2)
  have hnext : ∀ s, ((Iter.body env (k + 1)).machine rdr).next (wrap s) =
      ((((Iter.body env k).machine rdr).next s).1.bind fun e =>
        (StylesheetIter.text env rdr stylesheet markers e.name).map fun contents => { e with contents },
        wrap (((Iter.body env k).machine rdr).next s).2) := by
    intro s
    show Iter.wrapped Iter.stylesheet (StylesheetIter.next env (Iter.body env k) rdr (⟨s.1, markers, stylesheet⟩, s.2)) = _
    simp only [Body.machine]
    rcases hcall : (Iter.body env k).next rdr s with ⟨e | e, s'⟩
    · rw [StylesheetIter.next_eq hcall]
      rfl
    · rw [StylesheetIter.next_eq hcall]
      simp only [Except.bind, Iter.wrapped, StylesheetIter.text, bind, Except.map]
      rcases rdr.read env e.name markers with e' | xml
      · rfl
      · rcases env.transform stylesheet xml with e' | contents <;> rfl
  exact Follows.bind wrap (fun _ => rfl) hnext (hn k (by omega) rdr)

/-! ## The program -/

namespace Transform

/-- The loop of `transformCorpus`, with its set `seen`, and what it prints. -/
def transformLoop {σ : Type} (m : Machine σ Stop Entry) : Nat → List Str → σ → Outcome Unit × Str
  | 0, _, _ => (.error .unfinished, [])
  | fuel + 1, seen, i =>
    match m.hasNext i with
    | (.error e, _) => (.error e, [])
    | (.ok false, _) => (.ok (), [])
    | (.ok true, i) =>
      match m.next i with
      | (.error e, _) => (.error e, [])
      | (.ok e, i) =>
        if seen.contains e.name then transformLoop m fuel seen i
        else
          let (r, cout) := transformLoop m fuel (e.name :: seen) i
          (r, e.contents ++ cout)

/-- `markerQueries`. -/
def markerQueries (query : Str) : List MarkerQuery :=
  if query.isEmpty then [] else [⟨query, str "active", str "1"⟩]

/-- What `transformCorpus` iterates over. -/
def transformed (env : Env) (rdr : Reader) (query parsedStylesheet : Str) : Outcome Iter :=
  if query.isEmpty then rdr.entriesWithStylesheet env parsedStylesheet [] .naturalOrder
  else rdr.queryWithStylesheet env .xpath query parsedStylesheet (markerQueries query) .naturalOrder

/-- `transformCorpus`; `readFile` is `Stylesheet::readFile`. -/
def transformCorpus (env : Env) (fuel : Nat) (readFile : Str → Outcome Str) (rdr : Reader) (query stylesheetFilename : Str) :
    Outcome Unit × Str :=
  match readFile stylesheetFilename with
  | .error e => (.error e, [])
  | .ok parsedStylesheet =>
    match transformed env rdr query parsedStylesheet with
    | .error e => (.error e, [])
    | .ok i => transformLoop ((Iter.body env fuel).machine rdr) fuel [] (i, ())

/-- `transformEntry`: what it prints. -/
def transformEntry (env : Env) (readFile : Str → Outcome Str) (rdr : Reader) (query stylesheetFilename entry : Str) :
    Outcome Str := do
  let parsedStylesheet ← readFile stylesheetFilename
  let xml ← rdr.read env entry (markerQueries query)
  env.transform parsedStylesheet xml

/-! ## What is printed -/

/-- What the loop prints of a script. -/
def printed : List Str → List (Item Stop Entry) → Outcome Unit × Str
  | _, [] => (.ok (), [])
  | _, .raises e :: _ => (.error e, [])
  | _, .gives (.error e) :: _ => (.error e, [])
  | seen, .gives (.ok e) :: items =>
    if seen.contains e.name then printed seen items
    else ((printed (e.name :: seen) items).1, e.contents ++ (printed (e.name :: seen) items).2)

theorem transformLoop_eq {σ : Type} {m : Machine σ Stop Entry} : ∀ (items : List (Item Stop Entry)) (fuel : Nat)
    (seen : List Str) (i : σ), Follows m i items false → items.length < fuel →
    transformLoop m fuel seen i = printed seen items
  | [], fuel, seen, i, hi, hf => by
    obtain ⟨fuel, rfl⟩ : ∃ k, fuel = k + 1 := ⟨fuel - 1, by omega⟩
    obtain ⟨i', hn, -⟩ := hi.done
    simp only [transformLoop, hn]
    rfl
  | .raises e :: items, fuel, seen, i, hi, hf => by
    obtain ⟨fuel, rfl⟩ : ∃ k, fuel = k + 1 := ⟨fuel - 1, by omega⟩
    obtain ⟨i', hn, -⟩ := hi.raises
    simp only [transformLoop, hn]
    rfl
  | .gives x :: items, fuel, seen, i, hi, hf => by
    obtain ⟨fuel, rfl⟩ : ∃ k, fuel = k + 1 := ⟨fuel - 1, by omega⟩
    rw [List.length_cons] at hf
    obtain ⟨i₁, hn, hi₁⟩ := hi.hasNext
    obtain ⟨i₂, hx, hi₂⟩ := hi₁.next
    cases x with
    | error e =>
      simp only [transformLoop, hn, hx]
      rfl
    | ok e =>
      simp only [transformLoop, hn, hx, printed]
      rw [transformLoop_eq items fuel seen i₂ hi₂ (by omega), transformLoop_eq items fuel (e.name :: seen) i₂ hi₂ (by omega)]

/-- Texts one after the other, up to the first failure. -/
def concatUntil : List (Outcome Str) → Outcome Unit × Str
  | [] => (.ok (), [])
  | .error e :: _ => (.error e, [])
  | .ok text :: texts => ((concatUntil texts).1, text ++ (concatUntil texts).2)

/-- The text of an entry that has values. -/
def textOf (text : Outcome Str) : Outcome (List Str) → Outcome Str
  | .ok [] => .ok []
  | .ok (_ :: _) => text
  | .error e => .error e

/-- The values of an entry, each of them transformed into the one text. -/
def texts (text : Str → Outcome Str) (n : Str) (group : Outcome (List Str)) : List (Item Stop Entry) :=
  (groupItems n group).map (transformItem text)

theorem printed_seen {text : Str → Outcome Str} {n contents : Str} {seen : List Str} (hn : n ∈ seen) (h : text n = .ok contents)
    (vs : List Str) (items : List (Item Stop Entry)) : printed seen (texts text n (.ok vs) ++ items) = printed seen items := by
  induction vs with
  | nil => rfl
  | cons v vs ih =>
    have hcons : texts text n (.ok (v :: vs)) = .gives (.ok ⟨n, contents⟩) :: texts text n (.ok vs) := by
      simp [texts, groupItems, transformItem, given, Item.bind, Except.bind, h, Except.map]
    rw [hcons, List.cons_append, printed, if_pos (List.contains_iff_mem.mpr hn), ih]

/-- Of each entry, its text is printed once. -/
theorem printed_texts {text : Str → Outcome Str} {group : Str → Outcome (List Str)} {names seen : List Str}
    (hnodup : names.Nodup) (hseen : ∀ n ∈ names, n ∉ seen) :
    printed seen (names.flatMap fun n => texts text n (group n)) = concatUntil (names.map fun n => textOf (text n) (group n)) := by
  induction names generalizing seen with
  | nil => rfl
  | cons n names ih =>
    obtain ⟨hn, hnames⟩ := List.nodup_cons.mp hnodup
    obtain ⟨hseen₁, hseens⟩ := List.forall_mem_cons.mp hseen
    have hrest : ∀ n' ∈ names, n' ∉ n :: seen := fun n' hn' hmem =>
      (List.mem_cons.mp hmem).elim (fun h => hn (h ▸ hn')) (hseens n' hn')
    rw [List.flatMap_cons, List.map_cons]
    cases group n with
    | error e => rfl
    | ok vs =>
      cases vs with
      | nil =>
        show printed seen (names.flatMap fun n => texts text n (group n)) = _
        rw [ih hnames hseens]
        rfl
      | cons v vs =>
        cases htext : text n with
        | error e =>
          have hcons : texts text n (.ok (v :: vs)) = .gives (.error e) :: texts text n (.ok vs) := by
            simp [texts, groupItems, transformItem, given, Item.bind, Except.bind, htext, Except.map]
          rw [hcons]
          rfl
        | ok contents =>
          have hcons : texts text n (.ok (v :: vs)) = .gives (.ok ⟨n, contents⟩) :: texts text n (.ok vs) := by
            simp [texts, groupItems, transformItem, given, Item.bind, Except.bind, htext, Except.map]
          rw [hcons, List.cons_append, printed, if_neg (by simpa using hseen₁),
            printed_seen List.mem_cons_self htext, ih hnames hrest]
          rfl

/-- What is printed for an entry: its transformed document, if there is no
query or every stage of it has a value there. -/
def entryText (env : Env) (readFile : Str → Outcome Str) (rdr : Reader) (doc : Str → Except Exn Str)
    (query stylesheetFilename n : Str) : Outcome Str :=
  match doc n with
  | .error e => raise e
  | .ok d =>
    if query = [] ∨ ∀ q ∈ splitString query, stageValues env q d ≠ [] then transformEntry env readFile rdr query stylesheetFilename n
    else .ok []

/-- An entry of a listing is transformed as one with a value. -/
theorem texts_listing (text : Str → Outcome Str) (es : List Entry) :
    (es.map fun e => (.gives (.ok e) : Item Stop Entry)).map (transformItem text) =
      (es.map Entry.name).flatMap fun n => texts text n (.ok [[]]) := by
  induction es with
  | nil => rfl
  | cons e es ih => exact congrArg _ ih

/-- What the loop prints of an iterator that follows the values of a query, as
far as transforming them goes. -/
theorem transformLoop_groups {group : Str → Outcome (List Str)} {it : Iter} {items : List (Item Stop Entry)} {sheet : Str}
    {markers : List MarkerQuery} (hnodup : names.Nodup) (h : it.Follow env items)
    (hitems : items.map (transformItem (StylesheetIter.text env rdr sheet markers)) =
      (names.flatMap fun n => texts (StylesheetIter.text env rdr sheet markers) n (group n))) :
    ∃ n, ∀ fuel ≥ n,
      transformLoop ((Iter.body env fuel).machine rdr) fuel [] (.stylesheet ⟨it, markers, sheet⟩, ()) =
        concatUntil (names.map fun n => textOf (StylesheetIter.text env rdr sheet markers n) (group n)) := by
  obtain ⟨n, hn⟩ := Iter.follow_stylesheet h sheet markers rdr
  refine ⟨max n (items.length + 1), fun fuel hfuel => ?_⟩
  have hlen : (items.map (transformItem (StylesheetIter.text env rdr sheet markers))).length < fuel := by
    rw [List.length_map]
    omega
  rw [transformLoop_eq _ _ _ _ (hn fuel (by omega)) hlen, hitems, printed_texts hnodup (by simp)]

theorem entryText_ok {readFile : Str → Outcome Str} {query stylesheetFilename n d : Str} (h : doc n = .ok d) :
    entryText env readFile rdr doc query stylesheetFilename n =
      if query = [] ∨ ∀ q ∈ splitString query, stageValues env q d ≠ [] then
        transformEntry env readFile rdr query stylesheetFilename n
      else .ok [] := by
  rw [entryText, h]

theorem transformEntry_eq {readFile : Str → Outcome Str} {stylesheetFilename sheet : Str}
    (hfile : readFile stylesheetFilename = .ok sheet) (query n : Str) :
    transformEntry env readFile rdr query stylesheetFilename n = StylesheetIter.text env rdr sheet (markerQueries query) n := by
  rw [transformEntry, hfile]
  rfl

/-- Without a query each entry is printed. -/
theorem textOf_listing {readFile : Str → Outcome Str} {stylesheetFilename sheet n : Str}
    (hfile : readFile stylesheetFilename = .ok sheet) (hreads : rdr.read env n [] = (doc n).mapError .raised) :
    textOf (StylesheetIter.text env rdr sheet [] n) (.ok [[]]) = entryText env readFile rdr doc [] stylesheetFilename n := by
  cases hdoc : doc n with
  | error e =>
    rw [hdoc] at hreads
    rw [entryText, hdoc]
    simp only [textOf, StylesheetIter.text, hreads]
    rfl
  | ok d => exact ((entryText_ok hdoc).trans ((if_pos (.inl rfl)).trans (transformEntry_eq hfile [] n))).symm

/-- With a query, each entry that every stage of it has a value on. -/
theorem textOf_answerTo {readFile : Str → Outcome Str} {query stylesheetFilename sheet : Str}
    (hfile : readFile stylesheetFilename = .ok sheet) (hne : query ≠ []) (n : Str) :
    textOf (StylesheetIter.text env rdr sheet (markerQueries query) n) (answerTo env doc (splitString query) n) =
      entryText env readFile rdr doc query stylesheetFilename n := by
  cases hdoc : doc n with
  | error e =>
    rw [entryText, answerTo, hdoc]
    rfl
  | ok d =>
    rw [entryText_ok hdoc, transformEntry_eq hfile, answerTo, hdoc]
    have hmatches := @matches_iff env (fun _ => d) _ (splitString_ne_nil query) n
    by_cases hm : Matches env (fun _ => d) (splitString query) n
    · rw [if_pos (.inr hm)]
      obtain ⟨hinit, hlast⟩ := hmatches.mp hm
      obtain ⟨v, vs, hvs⟩ := List.exists_cons_of_ne_nil hlast
      simp only [if_pos hinit, hvs]
      rfl
    · rw [if_neg fun h => h.elim hne hm]
      by_cases hinit : ∀ q ∈ (splitString query).dropLast, stageValues env q d ≠ []
      · have hlast : stageValues env ((splitString query).getLastD []) d = [] := by
          by_contra hvalues
          exact hm (hmatches.mpr ⟨hinit, hvalues⟩)
        simp only [if_pos hinit, hlast]
        rfl
      · simp only [if_neg hinit]
        rfl

/-- **Printing a corpus.** `alpinocorpus-xslt` prints, in the order of the
listing and each once, what it prints for single entries: for all of them, or
for those that every stage of the query has a value on; it ends at the first
that cannot be read, marked or transformed. No stage may end with an error. -/
theorem transformCorpus_entries (h : Keeps env .naturalOrder rdr names doc) {readFile : Str → Outcome Str}
    {query stylesheetFilename sheet : Str} (hfile : readFile stylesheetFilename = .ok sheet)
    (hq : query = [] ∨ Accepted env (splitString query) ∧ Evaluates env doc (splitString query) names) :
    ∃ n, ∀ fuel ≥ n, transformCorpus env fuel readFile rdr query stylesheetFilename =
      concatUntil (names.map (entryText env readFile rdr doc query stylesheetFilename)) := by
  have hrun : ∀ {it : Iter}, transformed env rdr query sheet = .ok (.stylesheet ⟨it, markerQueries query, sheet⟩) →
      ∀ fuel, transformCorpus env fuel readFile rdr query stylesheetFilename =
        transformLoop ((Iter.body env fuel).machine rdr) fuel [] (.stylesheet ⟨it, markerQueries query, sheet⟩, ()) := by
    intro it hit fuel
    simp only [transformCorpus, hfile, hit]
  by_cases hempty : query = []
  · subst hempty
    obtain ⟨it, es, hit, hd, rfl⟩ := h.lists
    obtain ⟨n, hn⟩ := transformLoop_groups h.nodup hd.follow (texts_listing (StylesheetIter.text env rdr sheet []) es)
    have hiter : transformed env rdr [] sheet = .ok (.stylesheet ⟨it, [], sheet⟩) := by
      simp only [transformed, Reader.entriesWithStylesheet, hit]
      rfl
    refine ⟨n, fun fuel hfuel => ?_⟩
    rw [hrun hiter, show markerQueries [] = [] from rfl, hn fuel hfuel]
    exact congrArg concatUntil (List.map_congr_left fun n hn => textOf_listing hfile (h.reads n hn).read)
  · obtain ⟨haccepted, heval⟩ := hq.resolve_left hempty
    obtain ⟨it, hit, hf⟩ := h.answers query haccepted heval
    obtain ⟨n, hn⟩ := @transformLoop_groups env rdr names _ it _ sheet (markerQueries query) h.nodup hf (by rw [List.map_flatMap]; rfl)
    have hiter : transformed env rdr query sheet = .ok (.stylesheet ⟨it, markerQueries query, sheet⟩) := by
      rw [transformed, if_neg (by simpa using hempty)]
      simp only [Reader.queryWithStylesheet, hit]
      rfl
    refine ⟨n, fun fuel hfuel => ?_⟩
    rw [hrun hiter, hn fuel hfuel]
    exact congrArg concatUntil (List.map_congr_left fun n _ => textOf_answerTo hfile hempty n)

/-- Of three corpora, up to the entry of the first that cannot be read. -/
theorem sample_transformCorpus : ∃ n, ∀ fuel ≥ n,
    transformCorpus brokenEnv fuel (fun _ => .ok []) (.multi brokenBanks) (str "//a") (str "s.xsl") =
      (.error (.raised .lengthError), str "<s><a>x</a></s>") := by
  have hq : Accepted brokenEnv (splitString (str "//a")) := by decide
  have hfile : (fun _ => .ok [] : Str → Outcome Str) (str "s.xsl") = .ok [] := rfl
  obtain ⟨n, hn⟩ := transformCorpus_entries allStock_broken.keeps hfile (.inr ⟨hq, fun _ _ _ _ _ _ => rfl⟩)
  refine ⟨n, fun fuel hfuel => (hn fuel hfuel).trans ?_⟩
  decide

end Transform

end AlpinoCorpus
