/-
`CorpusReader::getSentence`: the words of an entry, each with the matches of
the query that it is part of. A word is in a match if the element matched is
above it in the tree (`getSentence_marks`).
-/
import AlpinoCorpus.Macros
import AlpinoCorpus.Pipeline

namespace AlpinoCorpus

/-! ## Documents -/

/-- A node of a document. Only elements are looked into: a text, a comment or
whatever else there may be is what is written for it. An attribute is its
name, as `xmlHasProp` compares it, with its content. -/
inductive XmlNode
  | element (name : Str) (attrs : List (Str × Str)) (children : List XmlNode)
  | other (text : Str)

/-- Where a node is: the place of each child on the way down to it. A node is
above another if its path is a prefix. -/
abbrev Path := List Nat

namespace XmlNode

def node? : XmlNode → Path → Option XmlNode
  | t, [] => some t
  | other _, _ :: _ => none
  | element _ _ children, i :: p => children[i]?.bind fun child => child.node? p

def attrs : XmlNode → List (Str × Str)
  | element _ attrs _ => attrs
  | other _ => []

def attrsAt (t : XmlNode) (p : Path) : List (Str × Str) := ((t.node? p).map attrs).getD []

end XmlNode

/-- `xmlHasProp`. -/
def hasProp (attrs : List (Str × Str)) (name : Str) : Bool := (attrs.lookup name).isSome

/-- What is used of libxml2: the root of a document, if it parses and has one,
and the nodes that an expression selects, if it can be evaluated. -/
structure Libxml where
  xmlReadMemory : Str → Option XmlNode
  xpathEval : XmlNode → Str → Option (List Path)

/-! ## The words of a document -/

structure CorpusInfo where
  lexicalElement : Str
  tokenAttribute : Str

def alpinoCorpusInfo : CorpusInfo := ⟨str "node", str "word"⟩

/-- The member `matches` is `matched`. -/
structure LexItem where
  word : Str
  begin : Nat
  matched : Finset ℕ
  deriving DecidableEq

/-- `LexItem::operator<`. -/
def LexItem.less (a b : LexItem) : Bool := if a.begin ≠ b.begin then a.begin < b.begin else strLess a.word b.word

/-- `std::sort` of items. -/
structure ItemSort where
  sort : List LexItem → List LexItem
  perm : ∀ items, (sort items).Perm items
  sorted : ∀ items, (sort items).Pairwise fun a b => b.less a = false

/-- `parseString<size_t>`, or none where it throws. A number with a minus
sign is taken modulo `2 ^ 64`. -/
def parseSize (s : Str) : Option Nat :=
  let s := s.dropWhile isSpace
  let negative := s.head? = some 45
  let digits := (if negative ∨ s.head? = some 43 then s.tail else s).takeWhile isDigit
  if digits = [] ∨ 2 ^ 64 ≤ infInt digits then none
  else some (if negative then (2 ^ 64 - infInt digits) % 2 ^ 64 else infInt digits)

/-- The matches of each node that has been marked. -/
abbrev Marks := Path → Finset ℕ

/-- The nodes that `markLexicals` goes into. -/
def isHandled (name : Str) : Bool := name = str "node" || name = str "word" || name = str "ne"

mutual

/-- The node is at `p`. -/
def markLexicals (matchId : ℕ) (wordAttr : Str) (p : Path) : XmlNode → Marks → Marks
  | .other _, matchDepth => matchDepth
  | .element name attrs children, matchDepth =>
    if !isHandled name then matchDepth
    else if hasProp attrs wordAttr then Function.update matchDepth p (insert matchId (matchDepth p))
    else markChildren matchId wordAttr p 0 children matchDepth

/-- The loop over the children, from the `i`-th on. -/
def markChildren (matchId : ℕ) (wordAttr : Str) (p : Path) : ℕ → List XmlNode → Marks → Marks
  | _, [], matchDepth => matchDepth
  | i, child :: children, matchDepth =>
    markChildren matchId wordAttr p (i + 1) children (markLexicals matchId wordAttr (p ++ [i]) child matchDepth)

end

/-- The loop over the nodes that are active, from the `i`-th on. -/
def markActive (root : XmlNode) (wordAttr : Str) : ℕ → List Path → Marks → Marks
  | _, [], matchDepth => matchDepth
  | i, a :: actives, matchDepth =>
    markActive root wordAttr (i + 1) actives
      (match root.node? a with
        | some node => markLexicals i wordAttr a node matchDepth
        | none => matchDepth)

def lexNodeQuery (corpusInfo : CorpusInfo) : Str :=
  str "//" ++ corpusInfo.lexicalElement ++ str "[@" ++ corpusInfo.tokenAttribute ++ str "]"

/-- The item of an element. -/
def lexItem (attr defaultValue : Str) (attrs : List (Str × Str)) (matched : Finset ℕ) : LexItem where
  word := (attrs.lookup attr).getD defaultValue
  begin := ((attrs.lookup (str "begin")).bind parseSize).getD 0
  matched := matched

/-- The loop of `collectLexicals`, at a node. -/
def itemAt (root : XmlNode) (matchDepth : Marks) (attr defaultValue : Str) (p : Path) : Option LexItem :=
  match root.node? p with
  | some (.element _ attrs _) => some (lexItem attr defaultValue attrs (matchDepth p))
  | _ => none

def collectLexicals (x : Libxml) (s : ItemSort) (root : XmlNode) (matchDepth : Marks) (attr defaultValue : Str)
    (corpusInfo : CorpusInfo) : List LexItem :=
  match x.xpathEval root (lexNodeQuery corpusInfo) with
  | none => []
  | some nodeSet => s.sort (nodeSet.filterMap (itemAt root matchDepth attr defaultValue))

/-- The last stage of the query marks; the others only filter. -/
def sentenceMarkers (query : Str) : List MarkerQuery :=
  let q := (splitString query).getLast (splitString_ne_nil _)
  if q = [] then [] else [⟨q, str "alpinocorpusActive", str "1"⟩]

def activeQuery : Str := str "//*[@alpinocorpusActive='1']"

def getSentence (env : Env) (x : Libxml) (s : ItemSort) (rdr : Reader) (entry query attr defaultValue : Str)
    (corpusInfo : CorpusInfo) : Outcome (List LexItem) := do
  let xmlData ← rdr.read env entry (sentenceMarkers query)
  match x.xmlReadMemory xmlData with
  | none => .ok []
  | some root =>
    match x.xpathEval root activeQuery with
    | none => .ok []
    | some nodeSet =>
      let matchDepth := markActive root corpusInfo.tokenAttribute 0 nodeSet fun _ => ∅
      .ok (collectLexicals x s root matchDepth attr defaultValue corpusInfo)

/-! ## What is marked -/

namespace XmlNode

theorem node?_append (t : XmlNode) (p q : Path) : t.node? (p ++ q) = (t.node? p).bind fun u => u.node? q := by
  induction p generalizing t with
  | nil =>
    rw [List.nil_append, node?]
    rfl
  | cons i p ih =>
    cases t with
    | other text => rfl
    | element name attrs children =>
      simp only [List.cons_append, node?, ih, Option.bind_assoc]

/-- Whether `markLexicals` comes to a node below, and finds a word there. -/
def reaches (wordAttr : Str) : XmlNode → Path → Bool
  | other _, _ => false
  | element name attrs _, [] => isHandled name && hasProp attrs wordAttr
  | element name attrs children, i :: p =>
    isHandled name && !hasProp attrs wordAttr && (children[i]?.map fun child => child.reaches wordAttr p).getD false

end XmlNode

/-- The loop marks what the calls on the children mark. -/
theorem mem_markChildren (matchId : ℕ) (wordAttr : Str) (w : Path) (k : ℕ) (p : Path) :
    ∀ (children : List XmlNode) (j : ℕ) (m : Marks),
      (∀ child ∈ children, ∀ (p : Path) (m : Marks), k ∈ markLexicals matchId wordAttr p child m w ↔
        k ∈ m w ∨ k = matchId ∧ ∃ r, w = p ++ r ∧ child.reaches wordAttr r = true) →
      (k ∈ markChildren matchId wordAttr p j children m w ↔
        k ∈ m w ∨ k = matchId ∧ ∃ i child r, children[i]? = some child ∧ w = p ++ (j + i) :: r ∧
          child.reaches wordAttr r = true)
  | [], j, m, _ => by simp [markChildren]
  | child :: children, j, m, hmarks => by
    obtain ⟨hchild, hchildren⟩ := List.forall_mem_cons.mp hmarks
    rw [markChildren, mem_markChildren matchId wordAttr w k p children _ _ hchildren, hchild, or_assoc, ← and_or_left]
    refine or_congr .rfl (and_congr .rfl ?_)
    constructor
    · rintro (⟨r, hw, hr⟩ | ⟨i, c, r, hc, hw, hr⟩)
      · exact ⟨0, child, r, rfl, by simpa using hw, hr⟩
      · exact ⟨i + 1, c, r, hc, by rw [hw, Nat.add_right_comm, Nat.add_assoc], hr⟩
    · rintro ⟨i, c, r, hc, hw, hr⟩
      cases i with
      | zero =>
        obtain rfl : child = c := by simpa using hc
        exact .inl ⟨r, by simpa using hw, hr⟩
      | succ i => exact .inr ⟨i, c, r, hc, by rw [hw, Nat.add_right_comm, Nat.add_assoc], hr⟩

/-- A call marks the words it comes to, and nothing else. -/
theorem mem_markLexicals (matchId : ℕ) (wordAttr : Str) (w : Path) (k : ℕ) : ∀ (t : XmlNode) (p : Path) (m : Marks),
    k ∈ markLexicals matchId wordAttr p t m w ↔ k ∈ m w ∨ k = matchId ∧ ∃ r, w = p ++ r ∧ t.reaches wordAttr r = true
  | .other _, p, m => by simp [markLexicals, XmlNode.reaches]
  | .element name attrs children, p, m => by
    rw [markLexicals]
    have hbelow : ∀ r, (XmlNode.element name attrs children).reaches wordAttr r = true → isHandled name = true := by
      intro r h
      cases r <;> simp only [XmlNode.reaches, Bool.and_eq_true] at h
      · exact h.1
      · exact h.1.1
    split
    · next h =>
      have hnot : isHandled name = false := by simpa using h
      refine ⟨.inl, fun hk => hk.resolve_right ?_⟩
      rintro ⟨-, r, -, hr⟩
      rw [hbelow r hr] at hnot
      cases hnot
    · next h =>
      have hname : isHandled name = true := by simpa using h
      split
      · next hprop =>
        -- the node is a word, and nothing below it is come to
        have hreach : ∀ r, (XmlNode.element name attrs children).reaches wordAttr r = true ↔ r = [] := by
          intro r
          cases r <;> simp [XmlNode.reaches, hname, hprop]
        simp only [hreach, exists_eq_right, List.append_nil]
        by_cases hw : w = p
        · subst hw
          simp [or_comm]
        · simp [hw]
      · next hprop =>
        rw [mem_markChildren matchId wordAttr w k p children 0 m fun child hchild => mem_markLexicals matchId wordAttr w k child]
        refine or_congr .rfl (and_congr .rfl ?_)
        constructor
        · rintro ⟨i, child, r, hchild, hw, hr⟩
          refine ⟨i :: r, by simpa using hw, ?_⟩
          simp [XmlNode.reaches, hname, hprop, hchild, hr]
        · rintro ⟨r, hw, hr⟩
          cases r with
          | nil => simp [XmlNode.reaches, hprop] at hr
          | cons i r =>
            simp only [XmlNode.reaches, Bool.and_eq_true] at hr
            cases hchild : children[i]? with
            | none => simp [hchild] at hr
            | some child => exact ⟨i, child, r, hchild, by simpa using hw, by simpa [hchild] using hr.2⟩

/-- The loop marks with the number of each active node the words that it
comes to from there. -/
theorem mem_markActive (root : XmlNode) (wordAttr : Str) (w : Path) (k : ℕ) : ∀ (actives : List Path) (j : ℕ) (m : Marks),
    k ∈ markActive root wordAttr j actives m w ↔
      k ∈ m w ∨ ∃ i a t r, k = j + i ∧ actives[i]? = some a ∧ root.node? a = some t ∧ w = a ++ r ∧
        t.reaches wordAttr r = true
  | [], j, m => by simp [markActive]
  | a :: actives, j, m => by
    have hfirst : k ∈ (match root.node? a with
        | some node => markLexicals j wordAttr a node m
        | none => m) w ↔ k ∈ m w ∨ k = j ∧ ∃ t r, root.node? a = some t ∧ w = a ++ r ∧ t.reaches wordAttr r = true := by
      cases h : root.node? a with
      | none => simp
      | some t => simp [mem_markLexicals]
    rw [markActive, mem_markActive root wordAttr w k actives, hfirst, or_assoc]
    refine or_congr .rfl ?_
    constructor
    · rintro (⟨hk, t, r, h⟩ | ⟨i, b, t, r, hk, hb, h⟩)
      · exact ⟨0, a, t, r, by simpa using hk, rfl, h⟩
      · exact ⟨i + 1, b, t, r, by omega, hb, h⟩
    · rintro ⟨i, b, t, r, hk, hb, h⟩
      cases i with
      | zero =>
        obtain rfl : a = b := by simpa using hb
        exact .inl ⟨by simpa using hk, t, r, h⟩
      | succ i => exact .inr ⟨i, b, t, r, by omega, hb, h⟩

/-! ## Words and the matches above them -/

namespace XmlNode

/-- An element that `markLexicals` goes into. -/
def Handled (root : XmlNode) (p : Path) : Prop :=
  ∃ name attrs children, root.node? p = some (element name attrs children) ∧ isHandled name = true

/-- An element with the attribute that holds a token. -/
def Carries (root : XmlNode) (corpusInfo : CorpusInfo) (p : Path) : Prop :=
  ∃ name attrs children, root.node? p = some (element name attrs children) ∧ hasProp attrs corpusInfo.tokenAttribute = true

/-- A lexical element with the attribute that holds its token. -/
def IsLexical (root : XmlNode) (corpusInfo : CorpusInfo) (p : Path) : Prop :=
  ∃ attrs children, root.node? p = some (element corpusInfo.lexicalElement attrs children) ∧
    hasProp attrs corpusInfo.tokenAttribute = true

theorem IsLexical.carries {root : XmlNode} {corpusInfo : CorpusInfo} {p : Path} (h : root.IsLexical corpusInfo p) :
    root.Carries corpusInfo p := by
  obtain ⟨attrs, children, hnode, hprop⟩ := h
  exact ⟨_, attrs, children, hnode, hprop⟩

theorem node?_nil (t : XmlNode) : t.node? [] = some t := by rw [node?]

/-- The way down to a word is gone if each element on it is one to go into,
and none of them is a word itself. -/
theorem reaches_of_path {corpusInfo : CorpusInfo} {t : XmlNode} {r : Path} (hpath : ∀ q, q <+: r → t.Handled q)
    (hword : t.Carries corpusInfo r) (habove : ∀ q, q <+: r → t.Carries corpusInfo q → q = r) :
    t.reaches corpusInfo.tokenAttribute r = true := by
  induction r generalizing t with
  | nil =>
    obtain ⟨name, attrs, children, hnode, hname⟩ := hpath [] (List.prefix_refl _)
    obtain ⟨name', attrs', children', hnode', hprop⟩ := hword
    rw [node?_nil, Option.some.injEq] at hnode
    subst hnode
    rw [node?_nil, Option.some.injEq, element.injEq] at hnode'
    obtain ⟨-, rfl, -⟩ := hnode'
    rw [reaches, hname, hprop]
    rfl
  | cons i r ih =>
    obtain ⟨name, attrs, children, hnode, hname⟩ := hpath [] List.nil_prefix
    rw [node?_nil, Option.some.injEq] at hnode
    subst hnode
    have hprop : hasProp attrs corpusInfo.tokenAttribute = false := by
      by_contra h
      have := habove [] List.nil_prefix ⟨name, attrs, children, node?_nil _, by simpa using h⟩
      cases this
    cases hchild : children[i]? with
    | none =>
      obtain ⟨_, _, _, hnode, -⟩ := hword
      simp [node?, hchild] at hnode
    | some child =>
      have hdown : ∀ q, (element name attrs children).node? (i :: q) = child.node? q := fun q => by simp [node?, hchild]
      have hbelow : child.reaches corpusInfo.tokenAttribute r = true := by
        refine ih (fun q hq => ?_) ?_ fun q hq h => ?_
        · have := hpath (i :: q) ((List.prefix_cons_inj i).mpr hq)
          rwa [Handled, hdown] at this
        · rwa [Carries, hdown] at hword
        · have := habove (i :: q) ((List.prefix_cons_inj i).mpr hq) (by rwa [Carries, hdown])
          exact List.tail_eq_of_cons_eq this
      simp [reaches, hname, hprop, hchild, hbelow]

end XmlNode

/-- The numbers of the active elements that are at `w` or above. -/
def matchesAbove (actives : List Path) (w : Path) : Finset ℕ :=
  (Finset.range actives.length).filter fun i => actives[i]?.any fun a => a.isPrefixOf w

theorem mem_matchesAbove {actives : List Path} {w : Path} {i : ℕ} :
    i ∈ matchesAbove actives w ↔ ∃ a, actives[i]? = some a ∧ a <+: w := by
  simp only [matchesAbove, Finset.mem_filter, Finset.mem_range, Option.any_eq_true, List.isPrefixOf_iff_prefix]
  refine ⟨fun h => h.2, fun h => ⟨?_, h⟩⟩
  obtain ⟨a, ha, -⟩ := h
  exact (List.getElem?_eq_some_iff.mp ha).1

/-- A word is marked with the matches above it. -/
theorem markActive_eq {root : XmlNode} {corpusInfo : CorpusInfo} {actives : List Path} {w : Path}
    (hword : root.IsLexical corpusInfo w)
    (htoken : ∀ p q, root.Carries corpusInfo p → root.Carries corpusInfo q → p <+: q → p = q)
    (hnames : ∀ a ∈ actives, a <+: w → ∀ p, a <+: p → p <+: w → root.Handled p) :
    markActive root corpusInfo.tokenAttribute 0 actives (fun _ => ∅) w = matchesAbove actives w := by
  ext k
  rw [mem_markActive, mem_matchesAbove]
  constructor
  · rintro (h | ⟨i, a, t, r, hk, ha, -, hw, -⟩)
    · simp at h
    · obtain rfl : k = i := by omega
      exact ⟨a, ha, r, hw.symm⟩
  · rintro ⟨a, ha, r, rfl⟩
    have hmem : a ∈ actives := List.mem_of_getElem? ha
    have hcarries := hword.carries
    obtain ⟨t, ht⟩ : ∃ t, root.node? a = some t := by
      obtain ⟨_, _, hnode, -⟩ := hword
      rw [XmlNode.node?_append] at hnode
      obtain ⟨t, ht, -⟩ := Option.bind_eq_some_iff.mp hnode
      exact ⟨t, ht⟩
    have hdown : ∀ q, root.node? (a ++ q) = t.node? q := fun q => by rw [XmlNode.node?_append, ht, Option.bind_some]
    refine .inr ⟨k, a, t, r, by omega, ha, ht, rfl, XmlNode.reaches_of_path (fun q hq => ?_) ?_ fun q hq h => ?_⟩
    · have := hnames a hmem (List.prefix_append _ _) (a ++ q) (List.prefix_append _ _)
        ((List.prefix_append_right_inj a).mpr hq)
      rwa [XmlNode.Handled, hdown] at this
    · rwa [XmlNode.Carries, hdown] at hcarries
    · have := htoken (a ++ q) (a ++ r) (by rwa [XmlNode.Carries, hdown]) hcarries ((List.prefix_append_right_inj a).mpr hq)
      exact List.append_cancel_left this

/-- The nodes of a kind, each once. -/
structure Selects (nodeSet : List Path) (P : Path → Prop) : Prop where
  mem_iff : ∀ p, p ∈ nodeSet ↔ P p
  nodup : nodeSet.Nodup

/-- **The sentence has an item for each lexical element with a token, sorted
by place and word, and the matches of an item are those whose elements are the
item's or above it**, if no token is below another, and the elements from a
match down to a word are all of the kinds that are gone into. -/
theorem getSentence_marks {env : Env} {x : Libxml} {s : ItemSort} {rdr : Reader} {entry query attr defaultValue xmlData : Str}
    {corpusInfo : CorpusInfo} {root : XmlNode} {lexicals actives : List Path}
    (hread : rdr.read env entry (sentenceMarkers query) = .ok xmlData) (hdoc : x.xmlReadMemory xmlData = some root)
    (hlex : x.xpathEval root (lexNodeQuery corpusInfo) = some lexicals)
    (hlexicals : Selects lexicals (root.IsLexical corpusInfo)) (hactive : x.xpathEval root activeQuery = some actives)
    (htoken : ∀ p q, root.Carries corpusInfo p → root.Carries corpusInfo q → p <+: q → p = q)
    (hnames : ∀ a ∈ actives, ∀ w ∈ lexicals, a <+: w → ∀ p, a <+: p → p <+: w → root.Handled p) :
    ∃ items, getSentence env x s rdr entry query attr defaultValue corpusInfo = .ok items ∧
      items.Perm (lexicals.map fun w => lexItem attr defaultValue (root.attrsAt w) (matchesAbove actives w)) ∧
      (items.Pairwise fun a b => b.less a = false) ∧
      ∀ w i, i ∈ (lexItem attr defaultValue (root.attrsAt w) (matchesAbove actives w)).matched ↔
        ∃ a, actives[i]? = some a ∧ a <+: w := by
  have hitem : ∀ w ∈ lexicals,
      itemAt root (markActive root corpusInfo.tokenAttribute 0 actives fun _ => ∅) attr defaultValue w =
        some (lexItem attr defaultValue (root.attrsAt w) (matchesAbove actives w)) := by
    intro w hw
    have hword := (hlexicals.mem_iff w).mp hw
    have hmarks := markActive_eq hword htoken fun a ha => hnames a ha w hw
    obtain ⟨attrs, children, hnode, -⟩ := hword
    rw [itemAt, XmlNode.attrsAt, hnode, hmarks]
    rfl
  have hsentence : getSentence env x s rdr entry query attr defaultValue corpusInfo =
      .ok (s.sort (lexicals.map fun w => lexItem attr defaultValue (root.attrsAt w) (matchesAbove actives w))) := by
    have hcollect : lexicals.filterMap
        (itemAt root (markActive root corpusInfo.tokenAttribute 0 actives fun _ => ∅) attr defaultValue) =
          lexicals.map fun w => lexItem attr defaultValue (root.attrsAt w) (matchesAbove actives w) := by
      rw [← List.filterMap_eq_map]
      exact List.filterMap_congr hitem
    rw [getSentence, hread]
    simp only [bind, Except.bind, hdoc, hactive, collectLexicals, hlex, hcollect]
  exact ⟨_, hsentence, s.perm _, s.sorted _, fun w i => mem_matchesAbove⟩

/-! ## A sample document -/

def LexItem.key (item : LexItem) : ℕ ×ₗ List ℕ := toLex (item.begin, item.word.map UInt8.toNat)

theorem LexItem.less_iff (a b : LexItem) : a.less b = true ↔ a.key < b.key := by
  rw [LexItem.less, LexItem.key, LexItem.key, Prod.Lex.toLex_lt_toLex]
  split
  · next h => simp [h]
  · next h => simp [not_not.mp h, strLess_iff]

def mergeSortItems : ItemSort where
  sort items := items.mergeSort fun a b => !b.less a
  perm _ := List.mergeSort_perm _ _
  sorted := (OrdMap.StrictWeak.of_key LexItem.key LexItem.less_iff).mergeSort_sorted

def sampleXml : Str :=
  str "<node alpinocorpusActive=\"1\"><node word=\"b\" begin=\"1\"/><node word=\"a\"/></node>"

def sampleTree : XmlNode :=
  .element (str "node") [(str "alpinocorpusActive", str "1")]
    [.element (str "node") [(str "word", str "b"), (str "begin", str "1")] [],
      .element (str "node") [(str "word", str "a")] []]

/-- The document, and what is selected in it. -/
def sampleLibxml : Libxml where
  xmlReadMemory content := if content = sampleXml then some sampleTree else none
  xpathEval _ query :=
    if query = lexNodeQuery alpinoCorpusInfo then some [[0], [1]]
    else if query = activeQuery then some [[]]
    else none

/-- The nodes of the document. -/
theorem sampleTree_node? (p : Path) : p = [] ∨ p = [0] ∨ p = [1] ∨ sampleTree.node? p = none := by
  rcases p with _ | ⟨_ | _ | i, _ | ⟨j, p⟩⟩ <;> simp [sampleTree, XmlNode.node?]

theorem getSentence_marks_sample : ∃ items,
    getSentence (sampleEnv [] []) sampleLibxml mergeSortItems (.corpus (.leaf (.compact (sampleCorpus [(str "s", sampleXml)]))))
      (str "s") [] (str "word") (str "_missing_") alpinoCorpusInfo = .ok items ∧
      items.Perm ([[0], [1]].map fun w =>
        lexItem (str "word") (str "_missing_") (sampleTree.attrsAt w) (matchesAbove [[]] w)) ∧
      (items.Pairwise fun a b => b.less a = false) ∧
      ∀ w i, i ∈ (lexItem (str "word") (str "_missing_") (sampleTree.attrsAt w) (matchesAbove [[]] w)).matched ↔
        ∃ a, ([[]] : List Path)[i]? = some a ∧ a <+: w := by
  have hroot : sampleTree.node? [] = some sampleTree := XmlNode.node?_nil _
  have hlexical : ∀ p, p = [0] ∨ p = [1] → sampleTree.IsLexical alpinoCorpusInfo p := by
    rintro p (rfl | rfl)
    · exact ⟨[(str "word", str "b"), (str "begin", str "1")], [], rfl, by decide⟩
    · exact ⟨[(str "word", str "a")], [], rfl, by decide⟩
  have hcarries : ∀ p, sampleTree.Carries alpinoCorpusInfo p → p = [0] ∨ p = [1] := by
    rintro p ⟨name, attrs, children, hnode, hprop⟩
    rcases sampleTree_node? p with rfl | h | h | h
    · rw [hroot, sampleTree, Option.some.injEq, XmlNode.element.injEq] at hnode
      obtain ⟨-, rfl, -⟩ := hnode
      exact absurd hprop (by decide)
    · exact .inl h
    · exact .inr h
    · rw [h] at hnode
      cases hnode
  have hread : (Reader.corpus (.leaf (.compact (sampleCorpus [(str "s", sampleXml)])))).read (sampleEnv [] []) (str "s")
      (sentenceMarkers []) = .ok sampleXml := rfl
  have hdoc : sampleLibxml.xmlReadMemory sampleXml = some sampleTree := by simp [sampleLibxml]
  refine getSentence_marks hread hdoc (by simp [sampleLibxml]) ⟨fun p => ?_, by decide⟩ (by decide)
    (fun p q hp hq h => ?_) ?_
  · simp only [List.mem_cons, List.not_mem_nil, or_false]
    exact ⟨hlexical p, fun h => hcarries p h.carries⟩
  · rcases hcarries p hp with rfl | rfl <;> rcases hcarries q hq with rfl | rfl
    · rfl
    · exact absurd h (by decide)
    · exact absurd h (by decide)
    · rfl
  · intro a _ w hw _ p _ hp
    have hword : w = [0] ∨ w = [1] := by simpa using hw
    have hnode : p = [] ∨ p = w := by
      rcases hword with rfl | rfl <;> simpa [List.prefix_cons_iff] using hp
    rcases hnode with rfl | rfl
    · exact ⟨_, _, _, hroot, by decide⟩
    · obtain ⟨attrs, children, hnode, -⟩ := hlexical p hword
      exact ⟨_, attrs, children, hnode, by decide⟩

end AlpinoCorpus
