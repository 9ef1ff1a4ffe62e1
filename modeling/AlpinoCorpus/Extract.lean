/-
`alpinocorpus-extract`: the entries of a corpus become files of a directory,
and the parts of their names the directories that these are in. A directory
reader lists and reads what was extracted (`extracted_read_back`).
-/
import AlpinoCorpus.Opening
import AlpinoCorpus.Transforming
import AlpinoCorpus.Lib.Paths

namespace AlpinoCorpus

open Iteration Paths

namespace Extract

/-- What is at each path of a disk; a path is written without needless
slashes. -/
abbrev Disk := Str → Node

/-! ## The file system -/

/-- `parent_path()`. -/
def parentPath (p : Str) : Str :=
  let d := (p.reverse.dropWhile (· ≠ 47)).reverse
  if dropSlashes d = [] then d.take 1 else dropSlashes d

/-- The directories of a list that are not there yet are made, one by one. -/
def makeDirectories : List Str → Disk → Outcome Unit × Disk
  | [], disk => (.ok (), disk)
  | p :: ps, disk =>
    match disk p with
    | .directory => makeDirectories ps disk
    | .missing => makeDirectories ps (Function.update disk p .directory)
    | _ => (raise .filesystemError, disk)

def createDirectories (disk : Disk) (p : Str) : Outcome Unit × Disk := makeDirectories (pathsTo 47 p) disk

/-- `std::ofstream out(p)`, and a write to it; none if `p` cannot be opened. -/
def writeFile (disk : Disk) (p content : Str) : Option Disk :=
  match disk p with
  | .undetermined | .directory => none
  | .special => some disk
  | .regular _ => some (Function.update disk p (.regular content))
  | .missing =>
    match disk (parentPath p) with
    | .directory => some (Function.update disk p (.regular content))
    -- the working directory has no name
    | _ => if parentPath p = [] then some (Function.update disk p (.regular content)) else none

/-! ## The program -/

/-- The directories of an entry. -/
def makeParent (disk : Disk) (filePath : Str) : Outcome Unit × Disk :=
  match disk (parentPath filePath) with
  | .undetermined => (raise .filesystemError, disk)
  | .missing => createDirectories disk (parentPath filePath)
  | _ => (.ok (), disk)

theorem parentPath_eq {d base : Str} (hbase : 47 ∉ base) (hne : d ≠ []) (hlast : d.getLast? ≠ some 47) :
    parentPath (d ++ 47 :: base) = d := by
  have hdir : ((d ++ 47 :: base).reverse.dropWhile (· ≠ 47)).reverse = d ++ [47] := by
    have hskip : ∀ c ∈ base.reverse, decide (c ≠ 47) = true := by
      intro c hc
      have hne : c ≠ 47 := fun h => hbase (h ▸ List.mem_reverse.mp hc)
      simpa using hne
    rw [List.reverse_append, List.reverse_cons, List.append_assoc, List.dropWhile_append_of_pos hskip]
    simp
  have hslash : dropSlashes (d ++ [47]) = d := by
    obtain rfl | ⟨init, last, rfl⟩ := d.eq_nil_or_concat'
    · exact absurd rfl hne
    · have hl : last ≠ 47 := by simpa using hlast
      simp [dropSlashes, hl]
  rw [parentPath]
  simp only [hdir, hslash, if_neg hne]

/-- Directories are made where nothing is in the way. -/
theorem makeDirectories_ok {ps : List Str} {disk : Disk} (h : ∀ p ∈ ps, disk p = .directory ∨ disk p = .missing) :
    makeDirectories ps disk = (.ok (), fun p => if p ∈ ps then .directory else disk p) := by
  induction ps generalizing disk with
  | nil => simp [makeDirectories]
  | cons p ps ih =>
    obtain ⟨hp, hps⟩ := List.forall_mem_cons.mp h
    rcases hp with hp | hp
    · rw [makeDirectories, hp]
      simp only
      rw [ih hps]
      refine Prod.ext rfl (funext fun q => ?_)
      by_cases hq : q = p
      · simp [hq, hp]
      · simp [hq]
    · rw [makeDirectories, hp]
      simp only
      rw [ih fun q hq => ?_]
      · refine Prod.ext rfl (funext fun q => ?_)
        by_cases hq : q = p
        · simp [hq]
        · simp [hq]
      · by_cases hqp : q = p
        · simp [hqp]
        · rw [Function.update_of_ne hqp]
          exact hps q hq

theorem pathAppend_name {t n : Str} (ht : t ≠ []) (hlast : t.getLast? ≠ some 47) (hn : Clean 47 n) :
    pathAppend t n = t ++ 47 :: n := by
  rw [pathAppend, if_neg hn.ne_nil, if_neg (by simp [ht, hlast, hn.head?_ne])]

/-! ## Extracted entries -/

/-- Names of different files: each part of a name is the name of something in
the directory before it, and a path ends at a NUL byte. -/
structure FileNames (names : List Str) : Prop where
  nodup : names.Nodup
  clean : ∀ n ∈ names, Clean 47 n ∧ 0 ∉ n ∧ ∀ part ∈ n.splitOn 47, part ≠ str "." ∧ part ≠ str ".."

/-- No name is a directory of another. -/
def Apart (names : List Str) : Prop := ∀ n ∈ names, ∀ n' ∈ names, ¬Above 47 n n'

/-- Names of files that can be below one directory. -/
structure Extractable (names : List Str) : Prop extends FileNames names where
  apart : Apart names

/-- What is at a path below the target, with the entries that are done. -/
def stored (before : Disk) (target : Str) (doc : Str → Str) (done : List Str) (p : Str) : Node :=
  if done.contains p then .regular (doc p) else if done.any fun n => Above 47 p n then .directory else before (target ++ 47 :: p)

theorem stored_eq {before : Disk} {target : Str} {doc : Str → Str} {done : List Str} {p : Str} :
    stored before target doc done p = if p ∈ done then .regular (doc p)
      else if ∃ n ∈ done, Above 47 p n then .directory else before (target ++ 47 :: p) := by
  simp only [stored, List.contains_iff_mem, List.any_eq_true, decide_eq_true_eq]

/-- The target is an empty directory, or can be made, and has room for files
of these names: there is nothing below it, but for paths that nothing can be
at. -/
structure Vacant (before : Disk) (target : Str) (names : List Str) : Prop where
  above : ∀ q, Above 47 q target → before q = .directory ∨ before q = .missing
  top : before target = .directory ∨ before target = .missing
  free : ∀ n ∈ names, ∀ p, p = n ∨ Above 47 p n → before (target ++ 47 :: p) = .missing
  empty : ∀ p, before (target ++ 47 :: p) = .missing ∨ before (target ++ 47 :: p) = .undetermined

/-- A path that is not the target, and neither above nor below it. -/
def Elsewhere (target q : Str) : Prop := q ≠ target ∧ ¬Above 47 q target ∧ ∀ p, q ≠ target ++ 47 :: p

/-- The entries that are done are below the target, nothing else is new
there, the directories above it stay, and nothing has changed elsewhere. -/
structure Extracted (before : Disk) (target : Str) (doc : Str → Str) (done : List Str) (disk : Disk) : Prop where
  above : ∀ q, Above 47 q target → disk q = .directory ∨ disk q = .missing
  stays : ∀ q, Above 47 q target → before q = .directory → disk q = .directory
  top : disk target = .directory ∨ disk target = .missing ∧ done = []
  below : ∀ p, disk (target ++ 47 :: p) = stored before target doc done p
  elsewhere : ∀ q, Elsewhere target q → disk q = before q

variable {names done : List Str} {doc : Str → Str} {target n : Str} {before disk : Disk}

theorem Vacant.mono {names' : List Str} (h : Vacant before target names) (hsub : names' ⊆ names) : Vacant before target names' :=
  { h with free := fun n hn => h.free n (hsub hn) }

theorem stored_dir (hnames : Extractable names) (hdone : done ⊆ names) {p m : Str} (hm : m ∈ done) (hp : Above 47 p m) :
    stored before target doc done p = .directory := by
  have hnot : p ∉ done := fun hmem => hnames.apart p (hdone hmem) m (hdone hm) hp
  rw [stored_eq, if_neg hnot, if_pos ⟨m, hm, hp⟩]

/-- Each directory of an entry that is to be done is there, or can be made. -/
theorem Extracted.free (h : Extracted before target doc done disk) (hvacant : Vacant before target names)
    (hnames : Extractable names) (hdone : done ⊆ names) (hn : n ∈ names) {q : Str} (hq : Above 47 q (target ++ 47 :: n)) :
    disk q = .directory ∨ disk q = .missing := by
  rcases above_below_cases hq with hq | rfl | ⟨p, rfl, hp⟩
  · exact h.above q hq
  · exact h.top.imp_right And.left
  · have hnot : p ∉ done := fun hp' => hnames.apart p (hdone hp') n hn hp
    rw [h.below, stored_eq, if_neg hnot]
    split
    · exact .inl rfl
    · exact .inr (hvacant.free n hn p (.inr hp))

/-- The directories of an entry are there afterwards, and nothing else is
new. -/
theorem Extracted.makeParent (h : Extracted before target doc done disk) (hvacant : Vacant before target names)
    (hnames : Extractable names) (hdone : done ⊆ names) (hn : n ∈ names) (ht : target ≠ []) (hlast : target.getLast? ≠ some 47) :
    ∃ disk', Extract.makeParent disk (target ++ 47 :: n) = (.ok (), disk') ∧ disk' target = .directory ∧
      disk' (parentPath (target ++ 47 :: n)) = .directory ∧
      (∀ q, Above 47 q target → disk' q = .directory ∨ disk' q = .missing ∧ disk q = .missing) ∧
      (∀ p, disk' (target ++ 47 :: p) = if Above 47 p n then .directory else stored before target doc done p) ∧
      ∀ q, Elsewhere target q → disk' q = before q := by
  obtain ⟨d, base, hpath, hbase, hd, hdl, hwhere⟩ := (hnames.clean n hn).1.split_below ht hlast
  have hparent : parentPath (target ++ 47 :: n) = d := by rw [hpath, parentPath_eq hbase hd hdl]
  have hmem : ∀ q, q ∈ pathsTo 47 d ↔ Above 47 q (target ++ 47 :: n) := fun q => by rw [hpath, mem_pathsTo_iff hbase hd hdl]
  rw [Extract.makeParent, hparent]
  by_cases hmissing : disk d = .missing
  · -- all directories of the entry are made, or were there
    have hfree : ∀ q ∈ pathsTo 47 d, disk q = .directory ∨ disk q = .missing :=
      fun q hq => h.free hvacant hnames hdone hn ((hmem q).mp hq)
    rw [hmissing]
    refine ⟨_, makeDirectories_ok hfree, ?_, ?_, fun q hq => ?_, fun p => ?_, fun q hq => ?_⟩
    · exact if_pos ((hmem target).mpr ⟨ht, hlast, n, by simp⟩)
    · exact if_pos (mem_pathsTo.mpr (.inr ⟨rfl, hd, hdl⟩))
    · split
      · exact .inl rfl
      · exact (h.above q hq).imp_right fun hm => ⟨hm, hm⟩
    · simp only [hmem, above_append, h.below]
    · have hnot : q ∉ pathsTo 47 d := fun hq' => by
        rcases above_below_cases ((hmem q).mp hq') with hq' | hq' | ⟨p, hq', -⟩
        · exact hq.2.1 hq'
        · exact hq.1 hq'
        · exact hq.2.2 p hq'
      simp only [if_neg hnot, h.elsewhere q hq]
  · have habove : ∀ q, Above 47 q target → disk q = .directory ∨ disk q = .missing ∧ disk q = .missing :=
      fun q hq => (h.above q hq).imp_right fun hm => ⟨hm, hm⟩
    rcases hwhere with rfl | ⟨d', rfl, hd'⟩
    · obtain rfl : n = base := by simpa using hpath
      have htop := h.top.resolve_right fun hm => hmissing hm.1
      exact ⟨disk, by rw [htop], htop, htop, habove, fun p => by rw [if_neg fun hp => hbase hp.mem, h.below], h.elsewhere⟩
    · have hnot : d' ∉ done := fun hmem => hnames.apart d' (hdone hmem) n hn hd'
      rw [h.below, stored_eq, if_neg hnot] at hmissing
      obtain ⟨m, hm, hd'm⟩ : ∃ m ∈ done, Above 47 d' m := by
        by_contra hno
        exact hmissing ((if_neg hno).trans (hvacant.free n hn d' (.inr hd')))
      have hdir : disk (target ++ 47 :: d') = .directory := by rw [h.below, stored_dir hnames hdone hm hd'm]
      refine ⟨disk, by rw [hdir], h.top.resolve_right fun hnil => ?_, hdir, habove, fun p => ?_, h.elsewhere⟩
      · rw [hnil.2] at hm
        cases hm
      · rw [h.below]
        split
        · next hp =>
          -- a directory of `d'` is one of the entry that `d'` is of
          have hp' : Above 47 (target ++ 47 :: p) (target ++ 47 :: n) := above_append.mpr hp
          rw [hpath, above_concat_iff hbase hd hdl, above_append] at hp'
          rcases hp' with hp' | hp'
          · obtain rfl : p = d' := by simpa using hp'
            exact stored_dir hnames hdone hm hd'm
          · exact stored_dir hnames hdone hm (hp'.trans hd'm)
        · rfl

/-- One entry: its directories are made, its file is written, and it is done. -/
theorem Extracted.entry (h : Extracted before target doc done disk) (hvacant : Vacant before target names)
    (hnames : Extractable names) (hdone : done ⊆ names) (hn : n ∈ names) (hnew : n ∉ done) (ht : target ≠ [])
    (hlast : target.getLast? ≠ some 47) :
    ∃ disk₁ disk₂, Extract.makeParent disk (pathAppend target n) = (.ok (), disk₁) ∧
      writeFile disk₁ (pathAppend target n) (doc n) = some disk₂ ∧ Extracted before target doc (done ++ [n]) disk₂ := by
  rw [pathAppend_name ht hlast (hnames.clean n hn).1]
  obtain ⟨disk₁, hmake, htop, hparent, habove, hbelow, helsewhere⟩ := h.makeParent hvacant hnames hdone hn ht hlast
  have hno : ¬∃ m ∈ done, Above 47 n m := fun ⟨m, hm, hnm⟩ => hnames.apart n hn m (hdone hm) hnm
  have hfile : disk₁ (target ++ 47 :: n) = .missing := by
    rw [hbelow, if_neg not_above_self, stored_eq, if_neg hnew, if_neg hno, hvacant.free n hn n (.inl rfl)]
  have hwrite : writeFile disk₁ (target ++ 47 :: n) (doc n) =
      some (Function.update disk₁ (target ++ 47 :: n) (.regular (doc n))) := by
    rw [writeFile, hfile]
    simp only [hparent]
  have hlen : target.length < (target ++ 47 :: n).length := by simp
  have hnot : ∀ q, Above 47 q target → q ≠ target ++ 47 :: n := fun q hq he => by
    have hlt := hq.length_lt
    rw [he] at hlt
    omega
  refine ⟨disk₁, _, hmake, hwrite, fun q hq => ?_, fun q hq hbefore => ?_, .inl ?_, fun p => ?_, fun q hq => ?_⟩
  · rw [Function.update_of_ne (hnot q hq)]
    exact (habove q hq).imp_right And.left
  · rw [Function.update_of_ne (hnot q hq)]
    refine (habove q hq).resolve_right fun hm => ?_
    rw [h.stays q hq hbefore] at hm
    cases hm.2
  · have hne : target ≠ target ++ 47 :: n := fun he => hlen.ne (congrArg List.length he)
    rw [Function.update_of_ne hne, htop]
  · by_cases hp : p = n
    · subst hp
      rw [Function.update_self, stored_eq, if_pos (by simp)]
    · have hne : target ++ 47 :: p ≠ target ++ 47 :: n := by simpa using hp
      rw [Function.update_of_ne hne, hbelow]
      by_cases hdir : Above 47 p n
      · have hdone' : done ++ [n] ⊆ names := by simp [hdone, hn]
        rw [if_pos hdir, stored_dir hnames hdone' (by simp) hdir]
      · simp [stored_eq, hp, hdir, or_and_right, exists_or]
  · rw [Function.update_of_ne (hq.2.2 n), helsewhere q hq]

theorem FileNames.mono {names' : List Str} (h : FileNames names) (hsub : names'.Sublist names) : FileNames names' :=
  ⟨h.nodup.sublist hsub, fun n hn => h.clean n (hsub.subset hn)⟩

/-- What a reader sees of a disk: all that is below a directory, each once, in
some order. -/
structure Shows (env : Env) (disk : Disk) : Prop where
  present : ∀ d, disk d = .directory → env.isPresentDirectory d = .ok true
  readFile : ∀ p bytes, disk p = .regular bytes → env.readFile p = .ok bytes
  nodup : ∀ d, disk d = .directory → (env.below d).Nodup
  below : ∀ d, disk d = .directory → ∀ p, p ∈ env.below d ↔
    disk (d ++ 47 :: p) ≠ .missing ∧ disk (d ++ 47 :: p) ≠ .undetermined

/-- What a directory reader finds below the target. -/
theorem Extracted.lists {env : Env} (h : Extracted before target doc names disk) (hvacant : Vacant before target names) (hnames : Extractable names)
    (htop : disk target = .directory) (hdirs : ∀ n ∈ names, ∀ p, Above 47 p n → endsWith p (str ".xml") = false)
    (hshows : Shows env disk) :
    ((env.below target).filter SortedDirIter.isValid).Perm (names.filter SortedDirIter.isValid) := by
  refine (List.perm_ext_iff_of_nodup ((hshows.nodup target htop).filter _) (hnames.nodup.filter _)).mpr fun p => ?_
  rw [List.mem_filter, List.mem_filter, hshows.below target htop, h.below, and_congr_left_iff]
  intro hvalid
  by_cases hp : p ∈ names
  · simp [stored_eq, hp]
  · have hno : ¬∃ n ∈ names, Above 47 p n := fun ⟨n, hn, hpn⟩ => by
      have hdir := hdirs n hn p hpn
      rw [SortedDirIter.isValid, hdir] at hvalid
      cases hvalid
    have hempty := hvacant.empty p
    rw [stored_eq, if_neg hp, if_neg hno]
    exact iff_of_false (fun h => hempty.elim h.1 h.2) hp

theorem directoryPath_eq (ht : target ≠ []) (hlast : target.getLast? ≠ some 47) : directoryPath target = .ok target := by
  obtain rfl | ⟨init, last, rfl⟩ := target.eq_nil_or_concat'
  · exact absurd rfl ht
  · have hl : last ≠ 47 := by simpa using hlast
    rw [directoryPath, List.getLast?_concat]
    simp only [if_neg hl]

theorem Extracted.keeps {env : Env} (h : Extracted before target doc names disk) (hvacant : Vacant before target names)
    (hnames : Extractable names) (hne : names ≠ [])
    (ht : target ≠ []) (hlast : target.getLast? ≠ some 47)
    (hdirs : ∀ n ∈ names, ∀ p, Above 47 p n → endsWith p (str ".xml") = false) (hshows : Shows env disk) :
    factoryOpen env target = .ok (.directory target) ∧ ∀ sortOrder, ∃ names',
      names'.Perm (names.filter SortedDirIter.isValid) ∧
        Keeps env sortOrder (.corpus (.leaf (.directory target))) names' fun n => .ok (doc n) := by
  have htop : disk target = .directory := h.top.resolve_right fun hnil => hne hnil.2
  refine ⟨?_, fun sortOrder => ?_⟩
  · rw [factoryOpen, openDirectory, directoryPath_eq ht hlast]
    simp only [bind, Except.bind, hshows.present target htop]
    rfl
  · obtain ⟨it, hit, hd⟩ := (Leaf.directory target).deliver_entries env sortOrder
    have hperm : (((Leaf.directory target).entries env sortOrder).map Entry.name).Perm
        (names.filter SortedDirIter.isValid) := by
      refine (((Leaf.directory target).entries_perm env sortOrder).map _).trans ?_
      rw [Leaf.entries_directory, List.map_map]
      exact (List.map_id _).symm ▸ h.lists hvacant hnames htop hdirs hshows
    have hmem : ∀ n ∈ ((Leaf.directory target).entries env sortOrder).map Entry.name, n ∈ names := fun n hn =>
      (List.mem_filter.mp (hperm.mem_iff.mp hn)).1
    refine ⟨_, hperm, Stocks.keeps ⟨usesRunXPath_directory env target, ⟨it, _, hit, hd, rfl⟩, ?_, fun hnil => ?_, fun n hn => ?_⟩⟩
    · exact hperm.nodup_iff.mpr (hnames.nodup.filter _)
    · exact (hnames.clean [] (hmem [] hnil)).1.ne_nil rfl
    · have hn := hmem n hn
      have hfile : disk (target ++ 47 :: n) = .regular (doc n) := by rw [h.below, stored_eq, if_pos hn]
      have hsteady : (Reader.corpus (.leaf (.directory target))).Steady := trivial
      refine hsteady.gives_iff.mpr ?_
      show env.readFile (pathAppend target n) = _
      rw [pathAppend_name ht hlast (hnames.clean n hn).1, hshows.readFile _ _ hfile]
      rfl

end Extract

end AlpinoCorpus
