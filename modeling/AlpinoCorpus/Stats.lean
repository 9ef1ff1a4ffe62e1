/-
`alpinocorpus-stats`: how often each value of a query occurs in a corpus.
The counts do not depend on how the corpus is stored, or in which order it
lists its entries (`same_counts`).
-/
import AlpinoCorpus.Lib.Counting
import AlpinoCorpus.Transforming

namespace AlpinoCorpus

open Iteration Counting

namespace Stats

/-- `std::unordered_map<std::string, size_t>`, in some order. -/
abbrev ValueCounts := List (Str × ℕ)

/-- The loop of `countQuery`. -/
def countLoop {σ : Type} (m : Machine σ Stop Entry) : Nat → σ → ValueCounts → Outcome ValueCounts
  | 0, _, _ => .error .unfinished
  | fuel + 1, iter, counts =>
    match m.hasNext iter with
    | (.error e, _) => .error e
    | (.ok false, _) => .ok counts
    | (.ok true, iter) =>
      match m.next iter with
      | (.error e, _) => .error e
      | (.ok e, iter) => countLoop m fuel iter (increment counts e.contents)

def countQuery (env : Env) (fuel : Nat) (reader : Reader) (query : Str) : Outcome ValueCounts := do
  let iter ← reader.query env .xpath query .naturalOrder
  countLoop ((Iter.body env fuel).machine reader) fuel (iter, ()) []

/-- The lines of `printFrequencies`: a value and what stands behind it. An
exact rational stands for the `double` of the source and the digits that it
is printed with. -/
def frequencies (counts : ValueCounts) (relative : Bool) : List (Str × ℚ) :=
  if relative then
    let count := (counts.map (·.2)).sum
    counts.map fun c => (c.1, c.2 / count)
  else counts.map fun c => (c.1, c.2)

/-! ## What is counted -/

/-- What the loop makes of a script. -/
def counted : ValueCounts → List (Item Stop Entry) → Outcome ValueCounts
  | counts, [] => .ok counts
  | _, .raises e :: _ => .error e
  | _, .gives (.error e) :: _ => .error e
  | counts, .gives (.ok e) :: items => counted (increment counts e.contents) items

theorem countLoop_eq {σ : Type} {m : Machine σ Stop Entry} : ∀ (items : List (Item Stop Entry)) (fuel : Nat) (iter : σ)
    (counts : ValueCounts), Follows m iter items false → items.length < fuel →
    countLoop m fuel iter counts = counted counts items
  | [], fuel, iter, counts, hi, hf => by
    obtain ⟨fuel, rfl⟩ : ∃ k, fuel = k + 1 := ⟨fuel - 1, by omega⟩
    obtain ⟨iter', hn, -⟩ := hi.done
    simp only [countLoop, hn]
    rfl
  | .raises e :: items, fuel, iter, counts, hi, hf => by
    obtain ⟨fuel, rfl⟩ : ∃ k, fuel = k + 1 := ⟨fuel - 1, by omega⟩
    obtain ⟨iter', hn, -⟩ := hi.raises
    simp only [countLoop, hn]
    rfl
  | .gives x :: items, fuel, iter, counts, hi, hf => by
    obtain ⟨fuel, rfl⟩ : ∃ k, fuel = k + 1 := ⟨fuel - 1, by omega⟩
    rw [List.length_cons] at hf
    obtain ⟨i₁, hn, hi₁⟩ := hi.hasNext
    obtain ⟨i₂, hx, hi₂⟩ := hi₁.next
    cases x with
    | error e =>
      simp only [countLoop, hn, hx]
      rfl
    | ok e =>
      simp only [countLoop, hn, hx, counted]
      exact countLoop_eq items fuel i₂ _ hi₂ (by omega)

variable {env env' : Env} {reader reader' : Reader} {names names' : List Str} {doc doc' : Str → Except Exn Str}

theorem counted_values {n : Str} (vs : List Str) (items : List (Item Stop Entry)) {counts : ValueCounts} {xs : List Str}
    (h : Counts counts xs) : ∃ counts', counted counts (vs.map (given n) ++ items) = counted counts' items ∧
      Counts counts' (xs ++ vs) := by
  induction vs generalizing counts xs with
  | nil => exact ⟨counts, rfl, by rwa [List.append_nil]⟩
  | cons v vs ih =>
    obtain ⟨counts', hcounted, h'⟩ := ih (h.increment v)
    exact ⟨counts', hcounted, by rwa [List.append_cons]⟩

/-- Every value is counted, or the first entry that cannot be read ends the
count. The induction is on the entries. -/
theorem counted_groups (queries : List Str) {names : List Str} {counts : ValueCounts} {xs : List Str} (h : Counts counts xs) :
    (∃ n ∈ names, ∃ e, doc n = .error e ∧
      counted counts (names.flatMap fun n => groupItems n (answerTo env doc queries n)) = raise e) ∨
    (∀ n ∈ names, (doc n).isOk = true) ∧ ∃ counts',
      counted counts (names.flatMap fun n => groupItems n (answerTo env doc queries n)) = .ok counts' ∧
        Counts counts' (xs ++ names.flatMap (valuesIn env doc queries)) := by
  induction names generalizing counts xs with
  | nil => exact .inr ⟨by simp, counts, rfl, by simpa using h⟩
  | cons n names ih =>
    rw [List.flatMap_cons]
    cases hdoc : doc n with
    | error e =>
      refine .inl ⟨n, List.mem_cons_self, e, hdoc, ?_⟩
      rw [answerTo, hdoc]
      rfl
    | ok d =>
      have hvalues : groupItems n (answerTo env doc queries n) = (valuesIn env doc queries n).map (given n) := by
        rw [valuesIn, answerTo, hdoc]
        rfl
      obtain ⟨counts₁, hcounted, h₁⟩ := @counted_values n (valuesIn env doc queries n)
        (names.flatMap fun n => groupItems n (answerTo env doc queries n)) counts xs h
      rw [hvalues, hcounted]
      rcases ih h₁ with ⟨n', hn', e, he, hraise⟩ | ⟨hall, counts', hok, h'⟩
      · exact .inl ⟨n', List.mem_cons_of_mem n hn', e, he, hraise⟩
      · refine .inr ⟨List.forall_mem_cons.mpr ⟨by rw [hdoc]; rfl, hall⟩, counts', hok, ?_⟩
        rwa [List.flatMap_cons, ← List.append_assoc]

theorem countQuery_eq (h : Keeps env .naturalOrder reader names doc) {query : Str} (hq : Accepted env (splitString query))
    (heval : Evaluates env doc (splitString query) names) : ∃ n, ∀ fuel ≥ n,
      (∃ n ∈ names, ∃ e, doc n = .error e ∧ countQuery env fuel reader query = raise e) ∨
      (∀ n ∈ names, (doc n).isOk = true) ∧ ∃ counts, countQuery env fuel reader query = .ok counts ∧
        Counts counts (names.flatMap (valuesIn env doc (splitString query))) := by
  obtain ⟨it, hit, n, hn⟩ := h.answers query hq heval
  refine ⟨max n ((names.flatMap fun n => groupItems n (answerTo env doc (splitString query) n)).length + 1),
    fun fuel hfuel => ?_⟩
  have hloop := countLoop_eq _ fuel (it, ()) [] (hn fuel (by omega) reader) (by omega)
  have hcount : countQuery env fuel reader query = countLoop ((Iter.body env fuel).machine reader) fuel (it, ()) [] := by
    rw [countQuery, hit]
    rfl
  rw [hcount, hloop]
  exact counted_groups (splitString query) Counts.nil

theorem valuesIn_congr (henv : env'.evaluate = env.evaluate) {n : Str} (hdoc : doc' n = doc n) (queries : List Str) :
    valuesIn env' doc' queries n = valuesIn env doc queries n := by
  have hvalues : stageValues env' = stageValues env := by
    funext q d
    simp only [stageValues, FilterIter.values, henv]
  rw [valuesIn, valuesIn, answerTo, answerTo, hvalues, hdoc]

theorem countQuery_ok (h : Keeps env .naturalOrder reader names doc) {query : Str} (hq : Accepted env (splitString query))
    (heval : Evaluates env doc (splitString query) names) (hall : ∀ n ∈ names, (doc n).isOk = true) : ∃ n, ∀ fuel ≥ n, ∃ counts,
      countQuery env fuel reader query = .ok counts ∧ Counts counts (names.flatMap (valuesIn env doc (splitString query))) := by
  obtain ⟨n, hn⟩ := countQuery_eq h hq heval
  refine ⟨n, fun fuel hfuel => ?_⟩
  rcases hn fuel hfuel with ⟨n', hn', e, he, -⟩ | ⟨-, counts, hok, hcounts⟩
  · have hok := hall n' hn'
    rw [he] at hok
    cases hok
  · exact ⟨counts, hok, hcounts⟩

/-- Relative frequencies add up to one. -/
theorem sum_frequencies {counts : ValueCounts} {xs : List Str} (h : Counts counts xs) (hne : xs ≠ []) :
    ((frequencies counts true).map (·.2)).sum = 1 := by
  have hpos : (xs.length : ℚ) ≠ 0 := by simpa using hne
  have hcast : (counts.map fun c => (c.2 : ℚ)).sum = xs.length := by
    rw [← h.sum_eq, Nat.cast_list_sum, List.map_map]
    rfl
  have hlines : (frequencies counts true).map (·.2) = counts.map fun c => (c.2 : ℚ) * (xs.length : ℚ)⁻¹ := by
    simp only [frequencies, if_true, h.sum_eq, List.map_map, Function.comp_def, div_eq_mul_inv]
  rw [hlines, List.sum_map_mul_right, hcast, mul_inv_cancel₀ hpos]

/-- The same engine ends with the same errors. -/
theorem evaluates_congr (henv : env'.evaluate = env.evaluate) (hraises : env'.raises = env.raises) {queries : List Str}
    (hnames : ∀ n ∈ names', n ∈ names) (hdoc : ∀ n ∈ names, doc' n = doc n) (h : Evaluates env doc queries names) :
    Evaluates env' doc' queries names' := by
  intro n hn d hd q hq
  have hd' : doc n = .ok d := by rw [← hdoc n (hnames n hn), hd]
  have hfails : FilterIter.fails env' = FilterIter.fails env := by
    funext q d
    rw [FilterIter.fails, FilterIter.fails, henv, hraises]
  rw [hfails]
  exact h n (hnames n hn) d hd' q hq

/-- **One count for one corpus.** Two readers of the same entries, listed in
any order, have the same counts: for each value that occurs the number of its
occurrences on the entries. -/
theorem same_counts (h : Keeps env .naturalOrder reader names doc) (h' : Keeps env' .naturalOrder reader' names' doc')
    (hnames : names'.Perm names) (hdoc : ∀ n ∈ names, doc' n = doc n) (henv : env'.evaluate = env.evaluate)
    (hraises : env'.raises = env.raises) {query : Str} (hq : Accepted env (splitString query))
    (hq' : Accepted env' (splitString query)) (heval : Evaluates env doc (splitString query) names)
    (hall : ∀ n ∈ names, (doc n).isOk = true) :
    ∃ n, ∀ fuel ≥ n, ∀ fuel' ≥ n, ∃ counts counts', countQuery env fuel reader query = .ok counts ∧
      countQuery env' fuel' reader' query = .ok counts' ∧
      Counts counts (names.flatMap (valuesIn env doc (splitString query))) ∧
      (∀ relative, (frequencies counts' relative).Perm (frequencies counts relative)) ∧
      (names.flatMap (valuesIn env doc (splitString query)) ≠ [] → ((frequencies counts true).map (·.2)).sum = 1) := by
  have hall' : ∀ n ∈ names', (doc' n).isOk = true := fun n hn => by
    have hn := hnames.mem_iff.mp hn
    rw [hdoc n hn, hall n hn]
  have heval' := evaluates_congr henv hraises (fun n hn => hnames.mem_iff.mp hn) hdoc heval
  obtain ⟨k, hk⟩ := countQuery_ok h hq heval hall
  obtain ⟨k', hk'⟩ := countQuery_ok h' hq' heval' hall'
  refine ⟨max k k', fun fuel hfuel fuel' hfuel' => ?_⟩
  obtain ⟨counts, hok, hcounts⟩ := hk fuel (by omega)
  obtain ⟨counts', hok', hcounts'⟩ := hk' fuel' (by omega)
  have hvalues : (names'.flatMap (valuesIn env' doc' (splitString query))).Perm
      (names.flatMap (valuesIn env doc (splitString query))) := by
    refine (hnames.flatMap_right _).trans (.of_eq (List.flatMap_congr fun n hn => ?_))
    exact valuesIn_congr henv (hdoc n hn) _
  have hperm := hcounts'.perm hcounts hvalues
  refine ⟨counts, counts', hok, hok', hcounts, fun relative => ?_, sum_frequencies hcounts⟩
  cases relative with
  | false => exact hperm.map _
  | true =>
    simp only [frequencies, if_true, (hperm.map (·.2)).sum_eq]
    exact hperm.map _

/-- A corpus and its entries the other way round. -/
theorem stocks_sample (docs : List (Str × Str)) (hdocs : docs = sampleDocs ∨ docs = sampleDocs.reverse) :
    Stocks (sampleEnv [] sampleValues) .naturalOrder (.corpus (.leaf (.compact (sampleCorpus docs)))) (docs.map (·.1))
      fun n => .ok (sampleDoc n) := by
  rcases hdocs with rfl | rfl <;>
    · refine ⟨usesRunXPath_compact _ _, ⟨_, _, rfl, Iter.deliver_index _, by decide⟩, by decide, by decide, ?_⟩
      simp only [(sampleCorpus_steady _).gives_iff]
      decide

theorem sample_same_counts : ∃ n, ∀ fuel ≥ n, ∀ fuel' ≥ n, ∃ counts counts',
    countQuery (sampleEnv [] sampleValues) fuel (.corpus (.leaf (.compact (sampleCorpus sampleDocs)))) (str "//a") = .ok counts ∧
      countQuery (sampleEnv [] sampleValues) fuel' (.corpus (.leaf (.compact (sampleCorpus sampleDocs.reverse)))) (str "//a") =
        .ok counts' ∧
      Counts counts [str "x", str "y", str "z"] ∧
      (∀ relative, (frequencies counts' relative).Perm (frequencies counts relative)) ∧
      ([str "x", str "y", str "z"] ≠ [] → ((frequencies counts true).map (·.2)).sum = 1) :=
  same_counts (stocks_sample _ (.inl rfl)).keeps (stocks_sample _ (.inr rfl)).keeps (by decide) (fun _ _ => rfl) rfl rfl (by decide)
    (by decide) (fun _ _ _ _ _ _ => Bool.and_false _) fun _ _ => rfl

end Stats

end AlpinoCorpus
