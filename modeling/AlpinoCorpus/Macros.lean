/-
Macros. `parseMacros` is a finite automaton that Ragel makes of a grammar;
its states and transitions are those of the generated table, its actions
work on positions in the text. `expandMacros` replaces the macros of a map
in a query, one after the other.
-/
import AlpinoCorpus.Basic
import AlpinoCorpus.Lib.OrdMap
import AlpinoCorpus.Lib.Replace

namespace AlpinoCorpus

open OrdMap Replace

/-! ## The map -/

/-- `operator<` of `std::string`: bytes compared without sign. -/
def strLess (a b : Str) : Bool := decide (a.map UInt8.toNat < b.map UInt8.toNat)

theorem strLess_iff (a b : Str) : strLess a b = true ↔ a.map UInt8.toNat < b.map UInt8.toNat := decide_eq_true_iff

theorem strictWeak_strLess : StrictWeak strLess := .of_key (List.map UInt8.toNat) strLess_iff

theorem strLess_equiv {a b : Str} : StrictWeak.Equiv strLess a b ↔ a = b := by
  rw [StrictWeak.equiv_iff_key _ strLess_iff]
  exact (List.map_injective_iff.mpr fun _ _ h => UInt8.toNat_inj.mp h).eq_iff

/-- `std::map<std::string, std::string>`. -/
structure Macros where
  entries : List (Str × Str)
  sorted : Sorted strLess entries

namespace Macros

def empty : Macros := ⟨[], .nil⟩

def find (m : Macros) (key : Str) : Option Str := m.entries.lookup key

/-- `operator[]`, assigned to. -/
def assign (m : Macros) (key value : Str) : Macros :=
  ⟨insert strLess key value m.entries, m.sorted.insert strictWeak_strLess key value⟩

end Macros

def macroMarker : Str := str "%"

def expandMacros (macros : Macros) (query : Str) : Str :=
  macros.entries.foldl (fun query e => replaceAll (macroMarker ++ e.1 ++ macroMarker) e.2 query) query

/-! ## The automaton -/

/-- The states of the table, in its order from 0 to 20. -/
inductive State
  | error
  | blank
  | comment
  | key
  | keyEnd
  | equals
  | open1
  | open2
  | opened
  | query
  | query1
  | query2
  | subst0
  | subst
  | subst1
  | subst2
  | start
  | closed
  | blankEnd
  | closed1
  | closed2
  deriving DecidableEq, Repr

inductive Action
  | strChar
  | key
  | queryStart
  | queryEnd
  | substBegin
  | substEnd
  deriving DecidableEq, Repr

def isBlank (c : UInt8) : Bool := c == 9 || c == 10 || c == 13 || c == 32

def isKeyChar (c : UInt8) : Bool := (48 ≤ c && c ≤ 57) || (65 ≤ c && c ≤ 90) || c == 95 || (97 ≤ c && c ≤ 122)

namespace State

/-- Between two definitions: `after` is the state for white space, `acts`
what is left to be done for the definition before. -/
def between (after : State) (acts : List Action) (c : UInt8) : State × List Action :=
  if isBlank c then (after, acts)
  else if c = 35 then (.comment, acts)
  else if isKeyChar c then (.key, acts ++ [.strChar])
  else (.error, [])

/-- In a query: 34 is a quote, 37 the percent sign. -/
def inQuery (quote : State) (c : UInt8) : State := if c = 34 then quote else if c = 37 then .subst0 else .query

/-- In the name of a substitution. -/
def inName (quote : State) (c : UInt8) : State × List Action :=
  if c = 34 then (quote, []) else if c = 37 then (.query, [.substEnd]) else (.subst, [])

def next : State → UInt8 → State × List Action
  | error, _ => (.error, [])
  | blank, c => between .blank [] c
  | comment, c => (if c = 10 then .blank else .comment, [])
  | key, c =>
    if isBlank c then (.keyEnd, [.key])
    else if c = 61 then (.equals, [.key])
    else if isKeyChar c then (.key, [.strChar])
    else (.error, [])
  | keyEnd, c => (if isBlank c then .keyEnd else if c = 61 then .equals else .error, [])
  | equals, c => (if isBlank c then .equals else if c = 34 then .open1 else .error, [])
  | open1, c => (if c = 34 then .open2 else .error, [])
  | open2, c => (if c = 34 then .opened else .error, [])
  | opened, c => (inQuery .query1 c, [.queryStart])
  | query, c => (inQuery .query1 c, [])
  | query1, c => (inQuery .query2 c, [])
  | query2, c => (inQuery .closed c, [])
  | subst0, c => if c = 34 then (.subst1, [.substBegin]) else if c = 37 then (.error, []) else (.subst, [.substBegin])
  | subst, c => inName .subst1 c
  | subst1, c => inName .subst2 c
  | subst2, c => inName .error c
  | start, c => between .blank [] c
  | closed, c => if c = 34 then (.closed1, []) else between .blankEnd [.queryEnd] c
  | blankEnd, c => between .blankEnd [] c
  | closed1, c => if c = 34 then (.closed2, []) else between .blankEnd [.queryEnd] c
  | closed2, c => between .blankEnd [.queryEnd] c

/-- The actions at the end of the text. -/
def eofActions : State → List Action
  | closed | closed1 | closed2 => [.queryEnd]
  | _ => []

/-- `cs >= macros_first_final`. -/
def isFinal : State → Bool
  | start | closed | blankEnd | closed1 | closed2 => true
  | _ => false

end State

/-! ## `parseMacros` -/

structure Substitution where
  begin : Nat
  n : Nat
  name : Str
  deriving DecidableEq, Repr

/-- The variables of `parseMacros`; `strStart` and `substStart` are positions
in the text. -/
structure Parser where
  cs : State
  strStart : Nat
  substStart : Nat
  macros : Macros
  substitutions : List Substitution
  lastKey : Str
  buf : Str

/-- The text between two positions. -/
def slice (data : Str) (b e : Nat) : Str := (data.drop b).take (e - b)

/-- `std::string::replace`. -/
def replaceAt (query : Str) (begin n : Nat) (value : Str) : Outcome Str :=
  if begin > query.length then raise .outOfRange else .ok (query.take begin ++ value ++ query.drop (begin + n))

/-- The loop of `queryEnd`, over the substitutions from the last to the first. -/
def applySubstitutions (macros : Macros) : List Substitution → Str → Outcome Str
  | [], query => .ok query
  | s :: ss, query =>
    match macros.find s.name with
    -- reported on standard error
    | none => applySubstitutions macros ss query
    | some value => do
      let query ← replaceAt query s.begin s.n value
      applySubstitutions macros ss query

/-- An action at the position `p`, where the text has the character `c`. -/
def perform (data : Str) (p : Nat) (c : UInt8) (r : Parser) : Action → Outcome Parser
  | .strChar => .ok { r with buf := r.buf ++ [c] }
  | .key => .ok { r with lastKey := r.buf, buf := [] }
  | .queryStart => .ok { r with strStart := p }
  | .queryEnd => do
    let query ← applySubstitutions r.macros r.substitutions.reverse (slice data r.strStart (p - 3))
    .ok { r with substitutions := [], macros := r.macros.assign r.lastKey query }
  | .substBegin => .ok { r with substStart := p }
  | .substEnd =>
    .ok { r with substitutions := r.substitutions ++
            [⟨r.substStart - r.strStart - 1, p - r.substStart + 2, slice data r.substStart p⟩] }

/-- The automaton from the position `p` on; it stops in the error state
without passing the character. -/
def exec (data : Str) : Str → Nat → Parser → Outcome (Parser × Nat)
  | [], p, r => .ok (r, p)
  | c :: cs, p, r => do
    let r' ← (r.cs.next c).2.foldlM (perform data p c) { r with cs := (r.cs.next c).1 }
    if r'.cs = .error then .ok (r', p) else exec data cs (p + 1) r'

/-- `find_last_of("\r\n", pos)`. -/
def findLastOf (data : Str) (pos : Nat) : Option Nat :=
  (List.range (min (pos + 1) data.length)).reverse.find? fun i => data[i]? = some 10 ∨ data[i]? = some 13

/-- `find_first_of("\r\n", pos)`. -/
def findFirstOf (data : Str) (pos : Nat) : Option Nat :=
  ((List.range data.length).drop pos).find? fun i => data[i]? = some 10 ∨ data[i]? = some 13

/-- The message about an error at a position, with the line and a mark. -/
def errorMessage (data : Str) (errPos : Nat) : Str :=
  let ctxBegin := match findLastOf data errPos with
    | some i => i + 1
    | none => 0
  let context := match findFirstOf data errPos with
    -- a line that ends where it begins: the length wraps round
    | some ctxEnd => if ctxEnd < ctxBegin then data.drop ctxBegin else slice data ctxBegin ctxEnd
    | none => data.drop ctxBegin
  str "Error in macro file at position " ++ str (toString errPos) ++ str ":" ++ [10, 10] ++ context ++ [10] ++
    List.replicate (errPos - ctxBegin) 32 ++ str "^"

def Parser.init : Parser := ⟨.start, 0, 0, .empty, [], [], []⟩

/-- `parseMacros`, on the characters before the NUL. -/
def parseMacros (data : Str) : Outcome Macros := do
  let (r, p) ← exec data data 0 .init
  if r.cs = .error then raise (.error (errorMessage data p))
  else
    let r ← r.cs.eofActions.foldlM (perform data p 0) r
    if r.cs.isFinal then .ok r.macros else raise (.error (str "Unexpected end of file"))

/-- `loadMacros`, of a file and what it holds. -/
def loadMacros (filename : Str) (contents : Option Str) : Outcome Macros :=
  match contents with
  | none => raise (.error (str "Could not read macro file: " ++ filename))
  | some macroData => parseMacros (macroData.takeWhile (· ≠ 0))

end AlpinoCorpus
