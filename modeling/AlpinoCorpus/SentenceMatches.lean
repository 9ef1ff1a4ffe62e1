/-
`getSentence` from the entry as it is stored: it is read with a marker, the
marked document is read again by another parser, and the marks found there are
numbered. The two ends meet (`sentence_matches`): a word has the numbers, in
the order of the document, of the elements selected by the query that it is in.
-/
import AlpinoCorpus.Marking

namespace AlpinoCorpus

open FilterIter (cStr)

def activeAttr : Str := str "alpinocorpusActive"

/-- How many of the nodes come before one in the document. -/
def matchNumber (nodes : List Path) (a : Path) : ℕ := (nodes.dedup.filter (· < a)).length

/-! ## Nodes in the order of the document -/

/-- The nodes of a kind, in the order of the document. -/
structure SelectsInOrder (nodeSet : List Path) (P : Path → Prop) : Prop where
  mem_iff : ∀ p, p ∈ nodeSet ↔ P p
  sorted : nodeSet.Pairwise (· < ·)

/-- A place in a list in order is the number of nodes before. -/
theorem getElem?_sorted_iff {nodes : List Path} (h : nodes.Pairwise (· < ·)) (i : ℕ) (a : Path) :
    nodes[i]? = some a ↔ a ∈ nodes ∧ i = (nodes.filter (· < a)).length := by
  induction nodes generalizing i with
  | nil => simp
  | cons b nodes ih =>
    rw [List.pairwise_cons] at h
    cases i with
    | zero =>
      rw [List.getElem?_cons_zero, Option.some.injEq]
      constructor
      · rintro rfl
        have hnone : nodes.filter (· < b) = [] := by
          rw [List.filter_eq_nil_iff]
          intro c hc
          simpa using (h.1 c hc).le
        simp [hnone]
      · rintro ⟨hmem, hlen⟩
        rcases List.mem_cons.mp hmem with hab | ha
        · exact hab.symm
        · simp [h.1 a ha] at hlen
    | succ i =>
      rw [List.getElem?_cons_succ, ih h.2]
      constructor
      · rintro ⟨hmem, rfl⟩
        exact ⟨List.mem_cons_of_mem b hmem, by simp [h.1 a hmem]⟩
      · rintro ⟨hmem, hlen⟩
        rcases List.mem_cons.mp hmem with rfl | ha
        · have hnone : nodes.filter (· < a) = [] := by
            rw [List.filter_eq_nil_iff]
            intro c hc
            simpa using (h.1 c hc).le
          simp [hnone] at hlen
        · exact ⟨ha, by simpa [h.1 a ha] using hlen⟩

/-- Nodes in order are those of any other list of them, counted once. -/
theorem matchNumber_eq {nodes actives : List Path} (h : SelectsInOrder actives (· ∈ nodes)) (a : Path) :
    matchNumber nodes a = (actives.filter (· < a)).length := by
  have hnodup : actives.Nodup := h.sorted.imp fun hlt => hlt.ne
  have hperm : actives.Perm nodes.dedup :=
    (List.perm_ext_iff_of_nodup hnodup nodes.nodup_dedup).mpr fun p => by rw [h.mem_iff, List.mem_dedup]
  exact (hperm.filter _).length_eq.symm

/-! ## The marked tree -/

namespace XmlNode

variable {t u : XmlNode} {corpusInfo : CorpusInfo} {p : Path}

theorem kindAt_eq_iff {name : Str} {k : ℕ} :
    t.kindAt p = some (.inl (name, k)) ↔ ∃ attrs children, t.node? p = some (element name attrs children) ∧ children.length = k := by
  rw [kindAt, Option.map_eq_some_iff]
  constructor
  · rintro ⟨node, hnode, hkind⟩
    cases node with
    | other text => cases hkind
    | element name' attrs children =>
      obtain ⟨rfl, rfl⟩ : name' = name ∧ children.length = k := by simpa [kind] using hkind
      exact ⟨attrs, children, hnode, rfl⟩
  · rintro ⟨attrs, children, hnode, rfl⟩
    exact ⟨_, hnode, rfl⟩

theorem attrsAt_of_node {name : Str} {attrs : List (Str × Str)} {children : List XmlNode}
    (h : t.node? p = some (element name attrs children)) : t.attrsAt p = attrs := by
  rw [attrsAt, h]
  rfl

theorem handled_iff : t.Handled p ↔ ∃ name k, t.kindAt p = some (.inl (name, k)) ∧ isHandled name = true := by
  simp only [Handled, kindAt_eq_iff]
  constructor
  · rintro ⟨name, attrs, children, hnode, hname⟩
    exact ⟨name, _, ⟨attrs, children, hnode, rfl⟩, hname⟩
  · rintro ⟨name, k, ⟨attrs, children, hnode, -⟩, hname⟩
    exact ⟨name, attrs, children, hnode, hname⟩

theorem carries_iff : t.Carries corpusInfo p ↔
    ∃ name k, t.kindAt p = some (.inl (name, k)) ∧ hasProp (t.attrsAt p) corpusInfo.tokenAttribute = true := by
  simp only [Carries, kindAt_eq_iff]
  constructor
  · rintro ⟨name, attrs, children, hnode, hprop⟩
    exact ⟨name, _, ⟨attrs, children, hnode, rfl⟩, by rwa [attrsAt_of_node hnode]⟩
  · rintro ⟨name, k, ⟨attrs, children, hnode, -⟩, hprop⟩
    exact ⟨name, attrs, children, hnode, by rwa [attrsAt_of_node hnode] at hprop⟩

theorem isLexical_iff : t.IsLexical corpusInfo p ↔
    ∃ k, t.kindAt p = some (.inl (corpusInfo.lexicalElement, k)) ∧ hasProp (t.attrsAt p) corpusInfo.tokenAttribute = true := by
  simp only [IsLexical, kindAt_eq_iff]
  constructor
  · rintro ⟨attrs, children, hnode, hprop⟩
    exact ⟨_, ⟨attrs, children, hnode, rfl⟩, by rwa [attrsAt_of_node hnode]⟩
  · rintro ⟨k, ⟨attrs, children, hnode, -⟩, hprop⟩
    exact ⟨attrs, children, hnode, by rwa [attrsAt_of_node hnode] at hprop⟩

/-- Trees that differ in one attribute at most. -/
structure SameBut (attr : Str) (t u : XmlNode) : Prop where
  shape : t.SameShape u
  lookup : ∀ p n, n ≠ attr → (t.attrsAt p).lookup n = (u.attrsAt p).lookup n

theorem SameBut.handled_iff {attr : Str} (h : t.SameBut attr u) : t.Handled p ↔ u.Handled p := by
  rw [XmlNode.handled_iff, XmlNode.handled_iff, h.shape p]

theorem SameBut.carries_iff {attr : Str} (h : t.SameBut attr u) (hattr : corpusInfo.tokenAttribute ≠ attr) :
    t.Carries corpusInfo p ↔ u.Carries corpusInfo p := by
  rw [XmlNode.carries_iff, XmlNode.carries_iff, h.shape p, hasProp, hasProp, h.lookup p _ hattr]

theorem SameBut.isLexical_iff {attr : Str} (h : t.SameBut attr u) (hattr : corpusInfo.tokenAttribute ≠ attr) :
    t.IsLexical corpusInfo p ↔ u.IsLexical corpusInfo p := by
  rw [XmlNode.isLexical_iff, XmlNode.isLexical_iff, h.shape p, hasProp, hasProp, h.lookup p _ hattr]

/-- The item of a word does not show the mark. -/
theorem SameBut.lexItem_eq {mark : Str} (h : t.SameBut mark u) {attr : Str} (hattr : attr ≠ mark) (hbegin : str "begin" ≠ mark)
    (defaultValue : Str) (matched : Finset ℕ) :
    lexItem attr defaultValue (t.attrsAt p) matched = lexItem attr defaultValue (u.attrsAt p) matched := by
  rw [lexItem, lexItem, h.lookup p attr hattr, h.lookup p _ hbegin]

theorem sameBut_setAttributes (attr value : Str) (t : XmlNode) {nodes : List Path} (h : ∀ p ∈ nodes, t.isElement p = true) :
    (t.setAttributes attr value nodes).SameBut attr t where
  shape := sameShape_setAttributes attr value nodes t
  lookup p n hn := by rw [lookup_setAttributes attr value n p nodes t h, if_neg fun h => hn h.1]

end XmlNode

/-! ## The sentence -/

/-- What the second parser and its XPath engine do with a document that was
written out: they read the tree, and select its words and its marks. -/
structure Libxml.Rereads (x : Libxml) (dom : Dom) (corpusInfo : CorpusInfo) (lexicals : List Path) (document : XmlDocument) :
    Prop where
  parses : x.xmlReadMemory (dom.serialize document) = some document.root
  words : x.xpathEval document.root (lexNodeQuery corpusInfo) = some lexicals
  lexicals : Selects lexicals (document.root.IsLexical corpusInfo)
  actives : ∃ actives, x.xpathEval document.root activeQuery = some actives ∧
    SelectsInOrder actives fun p => (document.root.attrsAt p).lookup activeAttr = some (str "1")

/-- **The matches of a word** are the elements selected by the last stage of
the query that it is in, by their numbers in the document: of an entry without
marks of its own, where no token is below another, and the elements from a
match down to a word are all of the kinds that are gone into. -/
theorem sentence_matches {env : Env} {dom : Dom} {x : Libxml} {s : ItemSort} {rdr : Reader}
    {entry query attr defaultValue content : Str} {corpusInfo : CorpusInfo} {document : XmlDocument} {lexicals nodes : List Path}
    (hdom : env.mark = dom.mark) (hname : dom.isName activeAttr = true) (hread : rdr.read env entry [] = .ok content)
    (hparse : dom.parse content = .ok document) (hstage : lastStage query ≠ [])
    (hnodes : dom.matchNodes document (cStr (lastStage query)) = .ok nodes)
    (hunmarked : ∀ p, (document.root.attrsAt p).lookup activeAttr = none)
    (hx : x.Rereads dom corpusInfo lexicals
      { document with root := document.root.setAttributes activeAttr (str "1") nodes })
    (htokenAttr : corpusInfo.tokenAttribute ≠ activeAttr) (hattr : attr ≠ activeAttr)
    (htoken : ∀ p q, document.root.Carries corpusInfo p → document.root.Carries corpusInfo q → p <+: q → p = q)
    (hpath : ∀ a ∈ nodes, ∀ w ∈ lexicals, a <+: w → ∀ p, a <+: p → p <+: w → document.root.Handled p) :
    ∃ (matched : Path → Finset ℕ) (items : List LexItem),
      getSentence env x s rdr entry query attr defaultValue corpusInfo = .ok items ∧
      items.Perm (lexicals.map fun w => lexItem attr defaultValue (document.root.attrsAt w) (matched w)) ∧
      (items.Pairwise fun a b => b.less a = false) ∧ Selects lexicals (document.root.IsLexical corpusInfo) ∧
      ∀ w i, i ∈ matched w ↔ ∃ a ∈ nodes, a <+: w ∧ i = matchNumber nodes a := by
  have helements := Dom.matchNodes_element hnodes
  generalize hmarked : document.root.setAttributes activeAttr (str "1") nodes = marked at hx
  have hsame : marked.SameBut activeAttr document.root := by
    rw [← hmarked]
    exact XmlNode.sameBut_setAttributes _ _ document.root helements
  have hactive : ∀ p, (marked.attrsAt p).lookup activeAttr = some (str "1") ↔ p ∈ nodes := by
    intro p
    rw [← hmarked, XmlNode.lookup_setAttributes _ _ _ _ _ _ helements, hunmarked p]
    by_cases hp : p ∈ nodes <;> simp [hp]
  obtain ⟨actives, hactives, hselects⟩ := hx.actives
  simp only [hactive] at hselects
  -- the marked document is what is read
  have hmarkers : rdr.read env entry (sentenceMarkers query) = .ok (dom.serialize { document with root := marked }) := by
    have hone : sentenceMarkers query = [⟨lastStage query, activeAttr, str "1"⟩] := if_neg hstage
    have hlast : lastStages [⟨lastStage query, activeAttr, str "1"⟩] = [⟨lastStage query, activeAttr, str "1"⟩] := by
      have hsplit := splitString_stage (List.getLast_mem (splitString_ne_nil query))
      simp only [lastStages, List.map_cons, List.map_nil, lastStage, hsplit, List.getLast_singleton]
    have hvalue : cStr activeAttr = activeAttr ∧ cStr (str "1") = str "1" := by decide
    rw [hone, rdr.read_marked env entry (List.cons_ne_nil _ _), hread, hlast, hdom]
    refine Dom.mark_ok_iff.mpr ⟨document, { document with root := marked }, [(_, nodes)], hparse, rfl, .query hnodes (fun _ => ?_) ?_, rfl⟩
    · rw [hvalue.1, hname]
    · rw [hvalue.1, hvalue.2, hmarked]
      exact .done _
  -- each word has the numbers of the marks above it
  have hitem : ∀ w ∈ lexicals, itemAt marked (markActive marked corpusInfo.tokenAttribute 0 actives fun _ => ∅) attr
      defaultValue w = some (lexItem attr defaultValue (document.root.attrsAt w) (matchesAbove actives w)) := by
    intro w hw
    have hword := (hx.lexicals.mem_iff w).mp hw
    have hmarks := markActive_eq hword
      (fun p q hp hq => htoken p q ((hsame.carries_iff htokenAttr).mp hp) ((hsame.carries_iff htokenAttr).mp hq))
      fun a ha haw p hap hpw => hsame.handled_iff.mpr (hpath a ((hselects.mem_iff a).mp ha) w hw haw p hap hpw)
    obtain ⟨attrs, children, hnode, -⟩ := hword
    rw [itemAt, hnode, hmarks, ← hsame.lexItem_eq hattr (by decide) defaultValue, XmlNode.attrsAt_of_node hnode]
  have hsentence : getSentence env x s rdr entry query attr defaultValue corpusInfo =
      .ok (s.sort (lexicals.map fun w => lexItem attr defaultValue (document.root.attrsAt w) (matchesAbove actives w))) := by
    have hcollect : lexicals.filterMap
        (itemAt marked (markActive marked corpusInfo.tokenAttribute 0 actives fun _ => ∅) attr defaultValue) =
          lexicals.map fun w => lexItem attr defaultValue (document.root.attrsAt w) (matchesAbove actives w) := by
      rw [← List.filterMap_eq_map]
      exact List.filterMap_congr hitem
    rw [getSentence, hmarkers]
    simp only [bind, Except.bind, hx.parses, hactives, collectLexicals, hx.words, hcollect]
  refine ⟨matchesAbove actives, _, hsentence, s.perm _, s.sorted _, ⟨fun p => ?_, hx.lexicals.nodup⟩, fun w i => ?_⟩
  · rw [hx.lexicals.mem_iff, hsame.isLexical_iff htokenAttr]
  · rw [mem_matchesAbove]
    simp only [getElem?_sorted_iff hselects.sorted, hselects.mem_iff, matchNumber_eq hselects]
    constructor
    · rintro ⟨a, ⟨ha, rfl⟩, haw⟩
      exact ⟨a, ha, haw, rfl⟩
    · rintro ⟨a, ha, haw, rfl⟩
      exact ⟨a, ⟨ha, rfl⟩, haw⟩

/-! ## A sample sentence -/

def unmarkedXml : Str := str "<node><node word=\"b\" begin=\"1\"/><node word=\"a\"/></node>"

def unmarkedTree : XmlNode :=
  .element (str "node") []
    [.element (str "node") [(str "word", str "b"), (str "begin", str "1")] [],
      .element (str "node") [(str "word", str "a")] []]

theorem unmarkedTree_node? (p : Path) : p = [] ∨ p = [0] ∨ p = [1] ∨ unmarkedTree.node? p = none := by
  rcases p with _ | ⟨_ | _ | i, _ | ⟨j, p⟩⟩ <;> simp [unmarkedTree, XmlNode.node?]

/-- A query for the node above the words. -/
def sentenceDom : Dom where
  parse content := if content = unmarkedXml then .ok ⟨[], unmarkedTree, []⟩ else .error []
  createExpression _ query := if query = str "/node" then none else some .xpath
  evaluate _ _ := .ok ([some []], false)
  isName name := name = activeAttr
  serialize _ := sampleXml

theorem sentence_matches_sample : ∃ (matched : Path → Finset ℕ) (items : List LexItem),
    getSentence { sampleEnv [] [] with mark := sentenceDom.mark } sampleLibxml mergeSortItems
      (.corpus (.leaf (.compact (sampleCorpus [(str "s", unmarkedXml)])))) (str "s") (str "//x+|+/node") (str "word")
      (str "_missing_") alpinoCorpusInfo = .ok items ∧
      items.Perm ([[0], [1]].map fun w => lexItem (str "word") (str "_missing_") (unmarkedTree.attrsAt w) (matched w)) ∧
      (items.Pairwise fun a b => b.less a = false) ∧ Selects [[0], [1]] (unmarkedTree.IsLexical alpinoCorpusInfo) ∧
      ∀ w i, i ∈ matched w ↔ ∃ a ∈ ([[]] : List Path), a <+: w ∧ i = matchNumber [[]] a := by
  have hmarked : unmarkedTree.setAttributes activeAttr (str "1") [[]] = sampleTree := rfl
  have hsame : (unmarkedTree.setAttributes activeAttr (str "1") [[]]).SameBut activeAttr unmarkedTree :=
    XmlNode.sameBut_setAttributes _ _ _ (by decide)
  rw [hmarked] at hsame
  have hunmarked : ∀ p, (unmarkedTree.attrsAt p).lookup activeAttr = none := by
    intro p
    rcases unmarkedTree_node? p with rfl | rfl | rfl | h
    · decide
    · decide
    · decide
    · rw [XmlNode.attrsAt, h]
      rfl
  have hcarries : ∀ p, unmarkedTree.Carries alpinoCorpusInfo p → p = [0] ∨ p = [1] := by
    intro p hp
    obtain ⟨name, k, hkind, hprop⟩ := XmlNode.carries_iff.mp hp
    rcases unmarkedTree_node? p with rfl | h | h | h
    · exact absurd hprop (by decide)
    · exact .inl h
    · exact .inr h
    · rw [XmlNode.kindAt, h] at hkind
      cases hkind
  have hlexical : ∀ p, p ∈ ([[0], [1]] : List Path) ↔ unmarkedTree.IsLexical alpinoCorpusInfo p := by
    intro p
    rw [List.mem_cons, List.mem_singleton]
    refine ⟨fun hp => XmlNode.isLexical_iff.mpr ⟨0, ?_⟩, fun hp => hcarries p hp.carries⟩
    rcases hp with rfl | rfl <;> decide
  refine @sentence_matches _ sentenceDom sampleLibxml mergeSortItems _ _ (str "//x+|+/node") (str "word") _ unmarkedXml
    alpinoCorpusInfo ⟨[], unmarkedTree, []⟩ [[0], [1]] [[]] rfl (by decide) rfl rfl (by decide) ?_ hunmarked ?_ (by decide)
    (by decide) (fun p q hp hq h => ?_) (fun a ha w hw _ p _ hp => ?_)
  · decide
  · rw [hmarked]
    refine ⟨by simp [sampleLibxml, sentenceDom], by simp [sampleLibxml], ⟨fun p => ?_, by decide⟩, [[]], ?_, fun p => ?_, by decide⟩
    · rw [hlexical, hsame.isLexical_iff (by decide)]
    · decide
    · rw [← hmarked, XmlNode.lookup_setAttributes _ _ _ _ _ _ (by decide), hunmarked]
      by_cases h : p = [] <;> simp [h]
  · rcases hcarries p hp with rfl | rfl <;> rcases hcarries q hq with rfl | rfl
    · rfl
    · exact absurd h (by decide)
    · exact absurd h (by decide)
    · rfl
  · refine XmlNode.handled_iff.mpr ?_
    rw [List.mem_cons, List.mem_singleton] at hw
    have hnode : p = [] ∨ p = w := by
      rcases hw with rfl | rfl <;> simpa [List.prefix_cons_iff] using hp
    rcases hnode with rfl | rfl
    · exact ⟨str "node", 2, by decide⟩
    · exact ⟨str "node", 0, by rcases hw with rfl | rfl <;> decide⟩

end AlpinoCorpus
