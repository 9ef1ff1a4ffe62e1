/-
`CorpusReader::readEntryMarkQueries`: a document is read, the elements that
each marker query selects get the attribute of the query, and the document is
written out again. The queries are evaluated one after the other, each on the
document that those before it have marked.

Nothing but these attributes changes, and of two markers on one attribute the
later one stays (`read_marks_iff`). Through any nesting of readers, a marked
entry is the entry that an unmarked read gives, marked once.
-/
import AlpinoCorpus.Sentence

namespace AlpinoCorpus

open FilterIter (cStr)

/-! ## Attributes in a tree -/

/-- `DOMNamedNodeMap::setNamedItem`, of a new attribute with this value. -/
def setNamedItem (attr value : Str) : List (Str × Str) → List (Str × Str)
  | [] => [(attr, value)]
  | (n, v) :: attrs => if n = attr then (attr, value) :: attrs else (n, v) :: setNamedItem attr value attrs

namespace XmlNode

/-- The element at a path gets an attribute. -/
def setAttribute (attr value : Str) : XmlNode → Path → XmlNode
  | other text, _ => other text
  | element name attrs children, [] => element name (setNamedItem attr value attrs) children
  | element name attrs children, i :: p => element name attrs (children.modify i fun child => child.setAttribute attr value p)

/-- An element's name and the number of its children, or a text. -/
def kind : XmlNode → (Str × Nat) ⊕ Str
  | element name _ children => .inl (name, children.length)
  | other text => .inr text

def kindAt (t : XmlNode) (p : Path) : Option ((Str × Nat) ⊕ Str) := (t.node? p).map kind

def isElement (t : XmlNode) (p : Path) : Bool := (t.kindAt p).any Sum.isLeft

/-- The same tree, but for its attributes. -/
def SameShape (t u : XmlNode) : Prop := ∀ p, t.kindAt p = u.kindAt p

end XmlNode

/-! ## The document object model -/

/-- A `DOMXPathException`, or another `DOMException`. -/
inductive DomError
  | xpath
  | dom
  deriving DecidableEq

/-- A parsed document: its root element, and what is written before and behind
that, the declaration and comments for instance. -/
structure XmlDocument where
  before : Str
  root : XmlNode
  behind : Str

/-- What is used of Xerces and XQilla. A node that an expression gives is in
the root element, at a path, or it is another, such as an attribute. -/
structure Dom where
  /-- `parse`: the document, or a message. -/
  parse : Str → Except Str XmlDocument
  createExpression : XmlDocument → Str → Option DomError
  /-- `evaluate`, with the nodes that `iterateNext` goes through, and whether
  that ends with an exception. -/
  evaluate : XmlDocument → Str → Except DomError (List (Option Path) × Bool)
  /-- What `createAttribute` takes for a name. -/
  isName : Str → Bool
  serialize : XmlDocument → Str

namespace Dom

variable (dom : Dom)

def parseDocument (content : Str) : Outcome XmlDocument :=
  match dom.parse content with
  | .ok document => .ok document
  | .error msg => raise (.error (str "Could not parse XML data: " ++ msg))

/-- Non-element nodes are skipped. -/
def element? (root : XmlNode) : Option Path → Option Path
  | some p => if root.isElement p then some p else none
  | none => none

/-- `markNodes`. -/
def matchNodes (document : XmlDocument) (query : Str) : Outcome (List Path) :=
  match dom.createExpression document query with
  | some .xpath => raise (.error (str "Could not parse expression."))
  | some .dom => raise (.error (str "Could not resolve namespace prefixes."))
  | none =>
    match dom.evaluate document query with
    | .error .xpath => raise (.error (str "Could not retrieve an iterator over evaluation results."))
    | .error .dom => raise (.error (str "Could not evaluate the expression on the given document."))
    | .ok (nodes, fails) =>
      if fails then raise (.error (str "Matching node value invalid while marking nodes."))
      else .ok (nodes.filterMap (element? document.root))

/-- The loop over `markNodes`. -/
def markLoop (attr value : Str) : List Path → XmlNode → Outcome XmlNode
  | [], root => .ok root
  | node :: nodes, root =>
    if dom.isName attr then markLoop attr value nodes (root.setAttribute attr value node)
    else raise (.error (str "Attribute name contains invalid character."))

/-- The loop over the queries. -/
def markQueries : List MarkerQuery → XmlDocument → Outcome XmlDocument
  | [], document => .ok document
  | q :: queries, document => do
    let markNodes ← dom.matchNodes document (cStr q.query)
    let root ← dom.markLoop (cStr q.attr) (cStr q.value) markNodes document.root
    markQueries queries { document with root }

/-- `readEntryMarkQueries`, from the content on. -/
def mark (queries : List MarkerQuery) (content : Str) : Outcome Str := do
  let document ← dom.parseDocument content
  let document ← dom.markQueries queries document
  .ok (dom.serialize document)

end Dom

/-! ## What a marker changes -/

theorem lookup_setNamedItem (attr value n : Str) (attrs : List (Str × Str)) :
    (setNamedItem attr value attrs).lookup n = if n = attr then some value else attrs.lookup n := by
  induction attrs with
  | nil => by_cases h : n = attr <;> simp [setNamedItem, List.lookup, beq_iff_eq, h]
  | cons a attrs ih =>
    obtain ⟨m, v⟩ := a
    have hcons : ∀ (w : Str) (rest : List (Str × Str)),
        List.lookup n ((m, w) :: rest) = if n = m then some w else rest.lookup n := by
      intro w rest
      by_cases h : n = m
      · rw [h, List.lookup_cons_self, if_pos rfl]
      · rw [List.lookup_cons, beq_eq_false_iff_ne.mpr h, if_neg h]
    rw [setNamedItem]
    by_cases hm : m = attr
    · subst hm
      rw [if_pos rfl, hcons, hcons]
      by_cases h : n = m <;> simp [h]
    · rw [if_neg hm, hcons, hcons, ih]
      by_cases h : n = m
      · simp [h, hm]
      · simp [h]

namespace XmlNode

variable {t u : XmlNode}

theorem SameShape.refl (t : XmlNode) : t.SameShape t := fun _ => rfl

theorem SameShape.trans {v : XmlNode} (h₁ : t.SameShape u) (h₂ : u.SameShape v) : t.SameShape v :=
  fun p => (h₁ p).trans (h₂ p)

theorem SameShape.isElement (h : t.SameShape u) (p : Path) : t.isElement p = u.isElement p := by
  rw [XmlNode.isElement, h p, XmlNode.isElement]

theorem kindAt_element (name : Str) (attrs : List (Str × Str)) (children : List XmlNode) (i : Nat) (p : Path) :
    (element name attrs children).kindAt (i :: p) = children[i]?.bind fun child => child.kindAt p := by
  rw [kindAt, node?, Option.map_bind]
  rfl

theorem attrsAt_element (name : Str) (attrs : List (Str × Str)) (children : List XmlNode) (i : Nat) (p : Path) :
    (element name attrs children).attrsAt (i :: p) = (children[i]?.map fun child => child.attrsAt p).getD [] := by
  rw [attrsAt, node?]
  cases children[i]? <;> rfl

/-- An attribute changes nothing of the tree's shape. -/
theorem sameShape_setAttribute (attr value : Str) (t : XmlNode) (p : Path) : (t.setAttribute attr value p).SameShape t := by
  induction p generalizing t with
  | nil =>
    cases t with
    | other text => exact .refl _
    | element name attrs children =>
      intro q
      cases q with
      | nil => rfl
      | cons j q => rw [setAttribute, kindAt_element, kindAt_element]
  | cons i p ih =>
    cases t with
    | other text => exact .refl _
    | element name attrs children =>
      intro q
      cases q with
      | nil => simp [setAttribute, kindAt, node?, kind]
      | cons j q =>
        rw [setAttribute, kindAt_element, kindAt_element, List.getElem?_modify]
        cases children[j]? with
        | none => rfl
        | some child =>
          by_cases hij : i = j
          · simpa [hij] using ih child q
          · simp [hij]

/-- It is there at the element, and every other attribute is as it was. -/
theorem lookup_setAttribute (attr value n : Str) (t : XmlNode) (p q : Path) :
    ((t.setAttribute attr value p).attrsAt q).lookup n =
      if q = p ∧ n = attr ∧ t.isElement p = true then some value else (t.attrsAt q).lookup n := by
  induction p generalizing t q with
  | nil =>
    cases t with
    | other text => simp [setAttribute, XmlNode.isElement, kindAt, node?, kind]
    | element name attrs children =>
      cases q with
      | nil => simp [setAttribute, attrsAt, node?, XmlNode.attrs, lookup_setNamedItem, XmlNode.isElement, kindAt, kind]
      | cons j q => simp [setAttribute, attrsAt_element]
  | cons i p ih =>
    cases t with
    | other text => simp [setAttribute, XmlNode.isElement, kindAt, node?]
    | element name attrs children =>
      cases q with
      | nil => simp [setAttribute, attrsAt, node?, XmlNode.attrs]
      | cons j q =>
        rw [setAttribute, attrsAt_element, attrsAt_element, List.getElem?_modify, XmlNode.isElement, kindAt_element]
        by_cases hij : i = j
        · subst hij
          cases hchild : children[i]? with
          | none => simp
          | some child =>
            have hbelow : (i :: q = i :: p ∧ n = attr ∧ child.isElement p = true) ↔
                (q = p ∧ n = attr ∧ child.isElement p = true) := by
              rw [List.cons.injEq, eq_self, true_and]
            show List.lookup n (attrsAt (if i = i then child.setAttribute attr value p else child) q) = _
            rw [if_pos rfl, ih child q]
            exact if_congr hbelow.symm rfl rfl
        · rw [if_neg fun h => hij (List.cons.inj h.1).1.symm]
          cases children[j]? <;> simp [hij]

/-- The attribute at each of the nodes. -/
def setAttributes (attr value : Str) (t : XmlNode) (nodes : List Path) : XmlNode :=
  nodes.foldl (setAttribute attr value) t

theorem sameShape_setAttributes (attr value : Str) (nodes : List Path) (t : XmlNode) :
    (t.setAttributes attr value nodes).SameShape t := by
  induction nodes generalizing t with
  | nil => exact .refl t
  | cons p nodes ih => exact (ih _).trans (sameShape_setAttribute attr value t p)

theorem lookup_setAttributes (attr value n : Str) (q : Path) (nodes : List Path) (t : XmlNode)
    (h : ∀ p ∈ nodes, t.isElement p = true) : ((t.setAttributes attr value nodes).attrsAt q).lookup n =
      if n = attr ∧ q ∈ nodes then some value else (t.attrsAt q).lookup n := by
  induction nodes generalizing t with
  | nil => simp [setAttributes]
  | cons p nodes ih =>
    rw [List.forall_mem_cons] at h
    have hshape := sameShape_setAttribute attr value t p
    have hrest := ih (t.setAttribute attr value p) fun p' hp' => by rw [hshape.isElement, h.2 p' hp']
    rw [setAttributes, List.foldl_cons, ← setAttributes, hrest, lookup_setAttribute]
    by_cases hn : n = attr <;> by_cases hq : q = p <;> by_cases hmem : q ∈ nodes <;> simp [hn, hq, hmem, h.1]

end XmlNode

/-! ## A run over the queries -/

namespace Dom

variable {dom : Dom}

/-- The queries of a run, each with the elements that it selects in the
document as those before it have left it. -/
inductive Marked (dom : Dom) : XmlDocument → List (MarkerQuery × List Path) → XmlDocument → Prop
  | done (document : XmlDocument) : Marked dom document [] document
  | query {document document' : XmlDocument} {q : MarkerQuery} {nodes : List Path} {marks : List (MarkerQuery × List Path)}
      (hnodes : dom.matchNodes document (cStr q.query) = .ok nodes) (hname : nodes ≠ [] → dom.isName (cStr q.attr) = true)
      (hrest : Marked dom { document with root := document.root.setAttributes (cStr q.attr) (cStr q.value) nodes } marks
        document') : Marked dom document ((q, nodes) :: marks) document'

theorem markLoop_ok_iff {attr value : Str} {nodes : List Path} {root root' : XmlNode} :
    dom.markLoop attr value nodes root = .ok root' ↔
      (nodes ≠ [] → dom.isName attr = true) ∧ root' = root.setAttributes attr value nodes := by
  induction nodes generalizing root with
  | nil =>
    rw [markLoop, Except.ok.injEq]
    exact ⟨fun h => ⟨fun hne => absurd rfl hne, h.symm⟩, fun h => h.2.symm⟩
  | cons node nodes ih =>
    rw [markLoop]
    by_cases hname : dom.isName attr = true
    · rw [if_pos hname, ih]
      simp [hname, XmlNode.setAttributes]
    · rw [if_neg hname]
      simp [hname, raise]

theorem markQueries_ok_iff {queries : List MarkerQuery} {document document' : XmlDocument} :
    dom.markQueries queries document = .ok document' ↔
      ∃ marks, marks.map Prod.fst = queries ∧ dom.Marked document marks document' := by
  induction queries generalizing document with
  | nil =>
    constructor
    · intro h
      obtain rfl : document = document' := by simpa [markQueries] using h
      exact ⟨[], rfl, .done document⟩
    · rintro ⟨marks, hmarks, h⟩
      obtain rfl : marks = [] := List.map_eq_nil_iff.mp hmarks
      cases h
      rfl
  | cons q queries ih =>
    rw [markQueries, bind_ok_iff]
    constructor
    · rintro ⟨nodes, hnodes, h⟩
      obtain ⟨marked, hmarked, hrest⟩ := bind_ok_iff.mp h
      obtain ⟨hname, rfl⟩ := markLoop_ok_iff.mp hmarked
      obtain ⟨marks, rfl, hrun⟩ := ih.mp hrest
      exact ⟨(q, nodes) :: marks, rfl, .query hnodes hname hrun⟩
    · rintro ⟨marks, hmarks, h⟩
      cases h with
      | done => cases hmarks
      | query hnodes hname hrest =>
        obtain ⟨rfl, rfl⟩ := List.cons.inj hmarks
        exact ⟨_, hnodes, bind_ok_iff.mpr ⟨_, markLoop_ok_iff.mpr ⟨hname, rfl⟩, ih.mpr ⟨_, rfl, hrest⟩⟩⟩

/-- What is selected are elements. -/
theorem matchNodes_element {document : XmlDocument} {query : Str} {nodes : List Path}
    (h : dom.matchNodes document query = .ok nodes) : ∀ p ∈ nodes, document.root.isElement p = true := by
  intro p hp
  rw [matchNodes] at h
  split at h
  · cases h
  · cases h
  · split at h
    · cases h
    · cases h
    · split at h
      · cases h
      · obtain rfl := Except.ok.inj h
        obtain ⟨node, -, hnode⟩ := List.mem_filterMap.mp hp
        cases node with
        | none => cases hnode
        | some p' =>
          rw [element?] at hnode
          split at hnode
          · next helement => rwa [← Option.some.inj hnode]
          · cases hnode

/-- The value that the last marker of an attribute gives it at an element. -/
def lastMark : List (MarkerQuery × List Path) → Path → Str → Option Str
  | [], _, _ => none
  | (q, nodes) :: marks, p, n =>
    (lastMark marks p n).or (if n = cStr q.attr ∧ p ∈ nodes then some (cStr q.value) else none)

/-- The run is over one document, in which only the marked attributes change. -/
theorem Marked.attributes {document document' : XmlDocument} {marks : List (MarkerQuery × List Path)}
    (h : dom.Marked document marks document') : document'.before = document.before ∧ document'.behind = document.behind ∧
      document'.root.SameShape document.root ∧
      ∀ p n, (document'.root.attrsAt p).lookup n = (lastMark marks p n).or ((document.root.attrsAt p).lookup n) := by
  induction h with
  | done document => exact ⟨rfl, rfl, .refl document.root, fun p n => rfl⟩
  | query hnodes hname hrest ih =>
    obtain ⟨hbefore, hbehind, hshape, hattrs⟩ := ih
    refine ⟨hbefore, hbehind, hshape.trans (XmlNode.sameShape_setAttributes _ _ _ _), fun p n => ?_⟩
    rw [hattrs, XmlNode.lookup_setAttributes _ _ _ _ _ _ (matchNodes_element hnodes), lastMark, Option.or_assoc]
    split <;> rfl

theorem mark_ok_iff {queries : List MarkerQuery} {content out : Str} :
    dom.mark queries content = .ok out ↔ ∃ document document' marks, dom.parse content = .ok document ∧
      marks.map Prod.fst = queries ∧ dom.Marked document marks document' ∧ out = dom.serialize document' := by
  rw [mark, parseDocument, bind_ok_iff]
  constructor
  · rintro ⟨document, hparsed, h⟩
    obtain ⟨document', hmarked, hout⟩ := bind_ok_iff.mp h
    obtain ⟨marks, hmarks, hrun⟩ := markQueries_ok_iff.mp hmarked
    refine ⟨document, document', marks, ?_, hmarks, hrun, (Except.ok.inj hout).symm⟩
    cases hparse : dom.parse content with
    | error msg => rw [hparse] at hparsed; cases hparsed
    | ok document₁ => rw [hparse] at hparsed; rw [Except.ok.inj hparsed]
  · rintro ⟨document, document', marks, hparse, hmarks, hrun, rfl⟩
    rw [hparse]
    exact ⟨document, rfl, bind_ok_iff.mpr ⟨document', markQueries_ok_iff.mpr ⟨marks, hmarks, hrun⟩, rfl⟩⟩

end Dom

/-! ## Reading with markers -/

/-- The last stage of a query. -/
def lastStage (query : Str) : Str := (splitString query).getLast (splitString_ne_nil _)

/-- What is left of marker queries: the last stage of each. -/
def lastStages (queries : List MarkerQuery) : List MarkerQuery := queries.map fun q => { q with query := lastStage q.query }

theorem lastStages_lastStages (queries : List MarkerQuery) : lastStages (lastStages queries) = lastStages queries := by
  simp only [lastStages, List.map_map]
  refine List.map_congr_left fun q _ => ?_
  have hstage := splitString_stage (List.getLast_mem (splitString_ne_nil q.query))
  simp only [Function.comp_apply, lastStage, hstage, List.getLast_singleton]

theorem lastStages_ne_nil {queries : List MarkerQuery} (h : queries ≠ []) : lastStages queries ≠ [] := by
  simpa [lastStages] using h

/-- `read`, of a reader that marks what it reads. -/
theorem read_marking {env : Env} {readEntry : Str → Outcome Str} {readEntryMarkQueries : Str → List MarkerQuery → Outcome Str}
    {entry : Str} (hmark : ∀ queries, queries ≠ [] → lastStages queries = queries →
      readEntryMarkQueries entry queries = readEntry entry >>= env.mark queries)
    {queries : List MarkerQuery} (h : queries ≠ []) :
    CorpusReader.read readEntry readEntryMarkQueries entry queries = readEntry entry >>= env.mark (lastStages queries) := by
  rw [CorpusReader.read, if_neg (by simpa using h)]
  exact hmark _ (lastStages_ne_nil h) (lastStages_lastStages queries)

theorem MultiCorpusReaderPrivate.readEntry_marking {ρ : Type} {opener : Str × Bool → Outcome ρ}
    {read marked : ρ → Str → Outcome Str} {f : Str → Outcome Str} (h : ∀ reader e, marked reader e = read reader e >>= f)
    (m : MultiCorpusReaderPrivate) (path : Str) : m.readEntry opener marked path = m.readEntry opener read path >>= f := by
  simp only [MultiCorpusReaderPrivate.readEntry, h, bind_assoc]

theorem Corpus.readEntry_marking {env : Env} (c : Corpus) (entry : Str) {queries : List MarkerQuery} (hne : queries ≠ [])
    (h : lastStages queries = queries) :
    c.readEntryMarkQueries env entry queries = c.readEntry env entry >>= env.mark queries := by
  cases c with
  | leaf l => rfl
  | recursive r =>
    refine MultiCorpusReaderPrivate.readEntry_marking (fun l e => ?_) _ entry
    have hread := @read_marking env (l.readEntry env) (l.readEntryMarkQueries env) e (fun queries _ _ => rfl) queries hne
    rw [hread, h]

/-- **Any nesting of readers marks an entry once**, with the last stage of
each marker query. -/
theorem Reader.read_marked (env : Env) (rdr : Reader) (entry : Str) {queries : List MarkerQuery} (h : queries ≠ []) :
    rdr.read env entry queries = rdr.read env entry [] >>= env.mark (lastStages queries) := by
  refine read_marking (fun queries hne hlast => ?_) h
  cases rdr with
  | corpus c => exact c.readEntry_marking entry hne hlast
  | multi m =>
    refine MultiCorpusReaderPrivate.readEntry_marking (fun c e => ?_) m entry
    rw [read_marking (fun queries hne hlast => c.readEntry_marking e hne hlast) hne, hlast]

/-- **Marked documents.** A read with marker queries succeeds exactly when
the entry can be read and parsed, and each query in turn can be evaluated on
the document as it stands, with a name for its attribute if it selects any
elements; what is written out then is the same document, where the attributes
of the markers have the value of the last that set them, and all others are
as they were. -/
theorem Reader.read_marks_iff {env : Env} {dom : Dom} (hdom : env.mark = dom.mark) (rdr : Reader) (entry : Str)
    {queries : List MarkerQuery} (h : queries ≠ []) (out : Str) :
    rdr.read env entry queries = .ok out ↔ ∃ content document document' marks, rdr.read env entry [] = .ok content ∧
      dom.parse content = .ok document ∧ marks.map Prod.fst = lastStages queries ∧ dom.Marked document marks document' ∧
      out = dom.serialize document' ∧ document'.before = document.before ∧ document'.behind = document.behind ∧
      document'.root.SameShape document.root ∧
      ∀ p n, (document'.root.attrsAt p).lookup n = (Dom.lastMark marks p n).or ((document.root.attrsAt p).lookup n) := by
  rw [rdr.read_marked env entry h, bind_ok_iff]
  constructor
  · rintro ⟨content, hread, hmark⟩
    rw [hdom] at hmark
    obtain ⟨document, document', marks, hparse, hmarks, hrun, hout⟩ := Dom.mark_ok_iff.mp hmark
    exact ⟨content, document, document', marks, hread, hparse, hmarks, hrun, hout, hrun.attributes⟩
  · rintro ⟨content, document, document', marks, hread, hparse, hmarks, hrun, hout, -⟩
    rw [hdom]
    exact ⟨content, hread, Dom.mark_ok_iff.mpr ⟨document, document', marks, hparse, hmarks, hrun, hout⟩⟩

/-- `//b`, the elements where the first marker is, and the text. -/
def sampleDom : Dom where
  parse content :=
    if content = str "<?x?><a>t<b/></a>" then
      .ok ⟨str "<?x?>", .element (str "a") [] [.other (str "t"), .element (str "b") [] []], []⟩
    else .error []
  createExpression _ query := if query = str "//b" ∨ query = str "//*[@m='1']" ∨ query = str "//text()" then none else some .xpath
  evaluate document query :=
    if query = str "//b" then .ok ([some [1]], false)
    else if query = str "//text()" then .ok ([some [0]], false)
    else .ok ([[], [1]].filterMap fun p =>
      if (document.root.attrsAt p).lookup (str "m") = some (str "1") then some (some p) else none, false)
  isName name := name = str "m" ∨ name = str "n"
  serialize document := document.before ++ str "<a>t<b" ++
    (document.root.attrsAt [1]).flatMap (fun a => str " " ++ a.1 ++ str "=\"" ++ a.2 ++ str "\"") ++ str "/></a>" ++ document.behind

/-- The second query selects what the first has marked, the third marks that
over again, and the last selects no element. -/
theorem sample_read_marks :
    (Reader.corpus (.leaf (.compact (sampleCorpus [(str "s", str "<?x?><a>t<b/></a>")])))).read
      { sampleEnv [] [] with mark := sampleDom.mark } (str "s")
      [⟨str "//a+|+//b", str "m", str "1"⟩, ⟨str "//*[@m='1']", str "n", str "1"⟩, ⟨str "//b", str "m", str "2"⟩,
        ⟨str "//text()", str "<", str "3"⟩] =
      .ok (str "<?x?><a>t<b m=\"2\" n=\"1\"/></a>") := by
  have hrun : sampleDom.Marked ⟨str "<?x?>", .element (str "a") [] [.other (str "t"), .element (str "b") [] []], []⟩
      [(⟨str "//b", str "m", str "1"⟩, [[1]]), (⟨str "//*[@m='1']", str "n", str "1"⟩, [[1]]),
        (⟨str "//b", str "m", str "2"⟩, [[1]]), (⟨str "//text()", str "<", str "3"⟩, [])]
      ⟨str "<?x?>", .element (str "a") [] [.other (str "t"),
        .element (str "b") [(str "m", str "2"), (str "n", str "1")] []], []⟩ := by
    refine .query (by rfl) (fun _ => by decide) (.query (by rfl) (fun _ => by decide) (.query (by rfl) (fun _ => by decide) ?_))
    exact .query (by rfl) (fun h => absurd rfl h) (.done _)
  refine (Reader.read_marks_iff rfl _ _ (by decide) _).mpr
    ⟨str "<?x?><a>t<b/></a>", _, _, _, by rfl, by rfl, ?_, hrun, ?_, hrun.attributes⟩
  · decide
  · decide

end AlpinoCorpus
