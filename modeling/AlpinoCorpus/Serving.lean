/-
What a corpus is for, whichever reader it is behind: a list of named
documents, and queries that deliver the values on them (`Serves`). The
readers that run queries with `CorpusReader::runXPath` serve what they list.
-/
import AlpinoCorpus.Concatenation
import AlpinoCorpus.Lib.Firsts

namespace AlpinoCorpus

open Iteration Firsts

/-- Every stage has a value on the document. -/
def Matches (env : Env) (doc : Str → Str) (queries : List Str) (n : Str) : Prop :=
  ∀ q ∈ queries, stageValues env q (doc n) ≠ []

instance (env : Env) (doc : Str → Str) (queries : List Str) : DecidablePred (Matches env doc queries) :=
  fun n => inferInstanceAs (Decidable (∀ q ∈ queries, stageValues env q (doc n) ≠ []))

/-- The reader lists `names`, reads `doc n` under the name `n`, whatever was
read before, and answers a query with the values of its last stage where every
stage has one, if none ends with an error. -/
structure Serves (env : Env) (rdr : Reader) (sortOrder : SortOrder) (names : List Str) (doc : Str → Str) : Prop where
  nodup : names.Nodup
  nonempty : [] ∉ names
  lists : rdr.Lists env sortOrder names
  reads : ∀ n ∈ names, rdr.Gives env n (.ok (doc n))
  answers : ∀ q, Accepted env (splitString q) → (∀ n ∈ names, ErrorFree env (splitString q) (doc n)) →
    ∃ it, rdr.query env .xpath q sortOrder = .ok it ∧ it.Deliver env (pipeline env doc (splitString q) names)

variable {env : Env} {rdr : Reader} {sortOrder : SortOrder} {names : List Str} {doc : Str → Str}

/-! ## Pipelines -/

theorem stages_pipeline {es : List Entry} (hnodup : (es.map Entry.name).Nodup) (hempty : [] ∉ es.map Entry.name)
    {queries : List Str} (hne : queries ≠ []) :
    FilterIter.stages (fun q n => stageValues env q (doc n)) es queries = pipeline env doc queries (es.map Entry.name) := by
  have hgroup : FilterIter.Grouped (es.map Entry.name) (fun _ => 1) es := by
    simp [FilterIter.Grouped, List.flatMap_singleton']
  rw [FilterIter.stages_grouped _ hnodup hempty hgroup hne]
  simp [pipeline]

theorem mem_pipeline {queries : List Str} {e : Entry} (he : e ∈ pipeline env doc queries names) : e.name ∈ names := by
  obtain ⟨n, hn, he⟩ := List.mem_flatMap.mp he
  split at he
  · obtain ⟨v, -, rfl⟩ := List.mem_map.mp he
    exact hn
  · cases he

theorem flatMap_filter {α β : Type} (p : α → Prop) [DecidablePred p] (f : α → List β) (xs : List α) :
    (xs.filter p).flatMap f = xs.flatMap fun x => if p x then f x else [] := by
  induction xs with
  | nil => rfl
  | cons x xs ih =>
    rw [List.flatMap_cons]
    by_cases h : p x
    · rw [List.filter_cons_of_pos (by simpa using h), List.flatMap_cons, ih, if_pos h]
    · rw [List.filter_cons_of_neg (by simpa using h), ih, if_neg h, List.nil_append]

/-- The stages of one query, and then those of another on what it matched. -/
theorem pipeline_filter (queries₀ : List Str) {queries : List Str} (hne : queries ≠ []) :
    pipeline env doc queries (names.filter (Matches env doc queries₀)) = pipeline env doc (queries₀ ++ queries) names := by
  have hlast : (queries₀ ++ queries).getLastD [] = queries.getLastD [] := by
    rw [List.getLastD_eq_getLast?, List.getLastD_eq_getLast?, List.getLast?_append_of_ne_nil _ hne]
  rw [pipeline, pipeline, flatMap_filter, hlast, List.dropLast_append_of_ne_nil hne]
  refine List.flatMap_congr fun n _ => ?_
  by_cases hn : Matches env doc queries₀ n
  · rw [if_pos hn]
    exact if_congr (by rw [List.forall_mem_append]; exact (and_iff_right hn).symm) rfl rfl
  · rw [if_neg hn, if_neg]
    exact fun h => hn (List.forall_mem_append.mp h).1

theorem matches_iff {queries : List Str} (hne : queries ≠ []) (n : Str) : Matches env doc queries n ↔
    (∀ q ∈ queries.dropLast, stageValues env q (doc n) ≠ []) ∧ stageValues env (queries.getLastD []) (doc n) ≠ [] := by
  obtain rfl | ⟨init, last, rfl⟩ := queries.eq_nil_or_concat
  · exact absurd rfl hne
  · simp [Matches, or_imp, forall_and]

/-- The names among the answers to a query, each once. -/
theorem firsts_pipeline (hnodup : names.Nodup) {queries : List Str} (hne : queries ≠ []) :
    firstsBy id [] ((pipeline env doc queries names).map Entry.name) = names.filter (Matches env doc queries) := by
  have hgroups : (pipeline env doc queries names).map Entry.name = names.flatMap fun n =>
      if ∀ q ∈ queries.dropLast, stageValues env q (doc n) ≠ [] then
        List.replicate (stageValues env (queries.getLastD []) (doc n)).length n
      else [] := by
    rw [pipeline, List.map_flatMap]
    refine List.flatMap_congr fun n _ => ?_
    split
    · rw [List.map_map]
      exact List.map_const'
    · rfl
  have hsingle : names.filter (Matches env doc queries) = names.flatMap fun n => if Matches env doc queries n then [n] else [] := by
    rw [← flatMap_filter, List.flatMap_singleton']
  rw [hgroups, firstsBy_flatMap hnodup (by simp) fun n _ x hx => ?_, hsingle]
  · refine List.flatMap_congr fun n _ => ?_
    simp only [matches_iff hne n]
    split
    · next h =>
      cases hv : stageValues env (queries.getLastD []) (doc n) with
      | nil => simp
      | cons v vs => simpa [List.replicate_succ] using h
    · next h => rw [if_neg fun h' => h h'.1]; rfl
  · split at hx
    · exact List.eq_of_mem_replicate hx
    · cases hx

/-! ## Readers serve what they list -/

/-- A reader that runs its queries with `CorpusReader::runXPath`. -/
theorem serves_runXPath (hrdr : rdr.UsesRunXPath env) (hlists : rdr.Lists env sortOrder names) (hnodup : names.Nodup)
    (hempty : [] ∉ names) (hreads : ∀ n ∈ names, rdr.Gives env n (.ok (doc n))) :
    Serves env rdr sortOrder names doc := by
  refine ⟨hnodup, hempty, hlists, hreads, fun q hq heval => ?_⟩
  obtain ⟨itr, es, hentries, hd, rfl⟩ := hlists
  obtain ⟨it, hit, hdeliver⟩ := deliver_stages hd (fun e he => (hreads _ (List.mem_map_of_mem he)).read) hq
    fun e he => heval _ (List.mem_map_of_mem he)
  rw [stages_pipeline hnodup hempty (splitString_ne_nil q)] at hdeliver
  refine ⟨it, ?_, hdeliver⟩
  cases hs : splitString q with
  | nil => exact absurd hs (splitString_ne_nil q)
  | cons q₁ queries =>
    rw [hs, List.foldlM_cons] at hit
    rw [Reader.query, CorpusReader.query, hs, show rdr.runXPath env = _ from hrdr]
    simp only [CorpusReader.runXPath, hentries]
    exact hit

end AlpinoCorpus
