/-
The calls on an iterator in steps, with `interrupt` coming in between.

A step looks at one flag or sets one. What an interrupt never reaches, the
iterator inside a `FilterIter`, is called in one step; so is the body of the
loop of `nextIterator`, which runs under the mutex that `interrupt` takes.
-/
import AlpinoCorpus.IterFacts
import AlpinoCorpus.Lib.Stepping

namespace AlpinoCorpus

open Stepping

/-! ## Filters -/

namespace FilterIter

variable {W ι : Type}

/-- Where `hasNext` is. -/
inductive Point
  | start
  /-- At the condition of the loop. -/
  | loop
  /-- `d_itr.hasNext()` has been true. -/
  | take
  /-- `e` is taken; its name and the flag are not looked at yet. -/
  | test (e : Entry)
  | parse (e : Entry)
  deriving DecidableEq

def step (env : Env) (inner : Body W ι) : Point → FilterIter ι × W → Turn Point (Outcome Bool) × (FilterIter ι × W)
  | .start, (it, w) => (.goes .loop, ({ it with d_interrupted := false }, w))
  | .loop, (it, w) =>
    if !it.d_buffer.isEmpty then (.ends (.ok true), (it, w))
    else match inner.hasNext (it.d_itr, w) with
      | (.error e, (itr, w)) => (.ends (.error e), ({ it with d_itr := itr }, w))
      | (.ok false, (itr, w)) => (.ends (.ok false), ({ it with d_itr := itr }, w))
      | (.ok true, (itr, w)) => (.goes .take, ({ it with d_itr := itr }, w))
  | .take, (it, w) =>
    match inner.next it.d_corpus (it.d_itr, w) with
    | (.error e, (itr, w)) => (.ends (.error e), ({ it with d_itr := itr }, w))
    | (.ok e, (itr, w)) => (.goes (.test e), ({ it with d_itr := itr }, w))
  | .test e, (it, w) =>
    if e.name = it.d_file then (.goes .loop, (it, w))
    else if it.d_interrupted then (.ends (raise .iterationInterrupted), (it, w))
    else (.goes (.parse e), (it, w))
  | .parse e, (it, w) =>
    match parseFile env { it with d_file := e.name } e.name w with
    | (.error e', s) => (.ends (.error e'), s)
    | (.ok (), s) => (.goes .loop, s)

def interrupt (it : FilterIter ι) : FilterIter ι := { it with d_interrupted := true }

end FilterIter

/-! ## The iterators -/

/-- The body of the loop of `nextIterator`. -/
def MultiIter.advance {W κ : Type} (openTip : MultiIter κ → ReaderIter → W → Outcome (Option (Corpus × κ)) × W) :
    MultiIter κ × W → Outcome Unit × (MultiIter κ × W)
  | (it, w) =>
    match it.d_iters with
    | [] => (.error .undefined, (it, w))
    | tip :: tips =>
      let it := { it with d_currentIter := none, d_currentReader := none }
      match openTip it tip w with
      | (.error e, w) => (.error e, (it, w))
      | (.ok none, w) => (.ok (), ({ it with d_iters := tips }, w))
      | (.ok (some (reader, iter)), w) =>
        (.ok (), ({ it with d_currentIter := some iter, d_currentReader := some reader, d_currentName := tip.name,
                            d_iters := tips }, w))

/-- What `next` makes of the entry of the iterator inside. -/
def StylesheetIter.finish {ι : Type} (env : Env) (it : StylesheetIter ι) (rdr : Reader) (r : Outcome Entry) :
    Outcome Entry := do
  let e ← r
  let xml ← rdr.read env e.name it.d_markerQueries
  let contents ← env.transform it.d_stylesheet xml
  .ok { e with contents }

def MultiIter.finish {κ : Type} (it : MultiIter κ) (r : Outcome Entry) : Outcome Entry := do
  let e ← r
  .ok { e with name := it.d_currentName ++ 47 :: e.name }

namespace Iter

/-- Where a call is. -/
inductive Point
  | start
  | filter (p : FilterIter.Point)
  /-- In the call on the iterator inside. -/
  | inside (p : Point)
  /-- At the condition of the loop of `nextIterator`. -/
  | corpora
  /-- In the `hasNext` of that condition. -/
  | current (p : Point)
  | advance
  /-- `nextIterator` has returned. -/
  | last

/-- A call in one step. -/
def ended {σ α : Type} (wrap : σ → Iter) (call : Outcome α × σ) : Turn Point (Outcome α) × Iter :=
  (.ends call.1, wrap call.2)

/-- A point where a call on this kind of iterator cannot be. -/
def astray {α : Type} (it : Iter) : Turn Point (Outcome α) × Iter := (.ends (.error .undefined), it)

/-- What the loop of `nextIterator` makes of the answer of the open corpus. -/
def afterCurrent : Outcome Bool → Turn Point (Outcome Bool)
  | .ok true => .goes .last
  | .ok false => .goes .advance
  | .error e => .ends (.error e)

def stepFilter (env : Env) (fuel : Nat) (p : FilterIter.Point) (it : FilterIter Iter) :
    Turn Point (Outcome Bool) × Iter :=
  match FilterIter.step env (body env fuel) p (it, ()) with
  | (t, (it, _)) => (t.inside .filter .ends, filter it)

/-- `hasNext`. The fuel is for the iterators inside filters. -/
def stepHasNext (env : Env) (fuel : Nat) (p : Point) (it : Iter) : Turn Point (Outcome Bool) × Iter :=
  match it with
  | empty => (.ends (.ok false), empty)
  | index it => ended index it.hasNext
  | dir it => ended dir it.hasNext
  | sortedDir it => ended sortedDir it.hasNext
  | db it => ended db it.hasNext
  | filter it =>
    match p with
    | .start => stepFilter env fuel .start it
    | .filter p => stepFilter env fuel p it
    | _ => astray (filter it)
  | stylesheet it =>
    match p with
    | .start => (.goes (.inside .start), stylesheet it)
    | .inside p =>
      match stepHasNext env fuel p it.d_iter with
      | (t, d_iter) => (t.inside .inside .ends, stylesheet { it with d_iter })
    | _ => astray (stylesheet it)
  | multi it =>
    match p with
    | .start => (if it.d_interrupted then .ends (raise .iterationInterrupted) else .goes .corpora, multi it)
    | .corpora =>
      (if it.d_iters.isEmpty || it.d_interrupted then .goes .last
        else if it.d_currentIter.isNone then .goes .advance else .goes (.current .start), multi it)
    | .current p =>
      match it.d_currentIter with
      | none => astray (multi it)
      | some iter =>
        match stepHasNext env fuel p iter with
        | (t, iter) => (t.inside .current afterCurrent, multi { it with d_currentIter := some iter })
    | .advance =>
      match MultiIter.advance (MultiIter.openTip env (Iter.start env)) (it, ()) with
      | (.error e, (it, _)) => (.ends (.error e), multi it)
      | (.ok (), (it, _)) => (.goes .corpora, multi it)
    | .last => (if it.d_currentIter.isNone then .ends (.ok false) else .goes (.inside .start), multi it)
    | .inside p =>
      match it.d_currentIter with
      | none => astray (multi it)
      | some iter =>
        match stepHasNext env fuel p iter with
        | (t, iter) => (t.inside .inside .ends, multi { it with d_currentIter := some iter })
    | .filter _ => astray (multi it)

/-- `next`. -/
def stepNext (env : Env) (rdr : Reader) (p : Point) (it : Iter) : Turn Point (Outcome Entry) × Iter :=
  match it with
  | empty => (.ends (.error .undefined), empty)
  | index it => ended index it.next
  | dir it => ended dir it.next
  | sortedDir it => ended sortedDir it.next
  | db it => ended db it.next
  | filter it =>
    match FilterIter.next (it, ()) with
    | (r, (it, _)) => (.ends r, filter it)
  | stylesheet it =>
    match p with
    | .start => (.goes (.inside .start), stylesheet it)
    | .inside p =>
      match stepNext env rdr p it.d_iter with
      | (t, d_iter) =>
        (t.inside .inside fun r => .ends (it.finish env rdr r), stylesheet { it with d_iter })
    | _ => astray (stylesheet it)
  | multi it =>
    match p with
    | .start =>
      (if it.d_interrupted then .ends (raise .iterationInterrupted)
        else if it.d_currentIter.isNone then .ends (.error .undefined) else .goes (.inside .start), multi it)
    | .inside p =>
      match it.d_currentIter with
      | none => astray (multi it)
      | some iter =>
        match stepNext env rdr p iter with
        | (t, iter) =>
          (t.inside .inside fun r => .ends (it.finish r), multi { it with d_currentIter := some iter })
    | _ => astray (multi it)

/-! ## Interrupts -/

/-- Where a call of `interrupt` is. -/
inductive Strike
  | enter
  /-- The flag of the `MultiIter` is set, and its mutex is waited for. -/
  | lock
  /-- In the call on the iterator inside; that of a `MultiIter` holds the
  mutex. -/
  | inside (k : Strike)

/-- The rest of a call of `interrupt`, or none when it returns. The iterators
that wrap nothing leave it to `IterImpl::interrupt`, which does nothing;
`interruptQuery`, which a database is left to deal with, is not modelled. -/
def stepInterrupt : Strike → Iter → Option Strike × Iter
  | .enter, filter it => (none, filter it.interrupt)
  | .enter, stylesheet it => (some (.inside .enter), stylesheet it)
  | .enter, multi it => (some .lock, multi { it with d_interrupted := true })
  | .lock, multi it => (if it.d_currentIter.isNone then none else some (.inside .enter), multi it)
  | .inside k, stylesheet it =>
    match stepInterrupt k it.d_iter with
    | (k, d_iter) => (k.map .inside, stylesheet { it with d_iter })
  | .inside k, multi it =>
    match it.d_currentIter with
    | none => (none, multi it)
    | some iter =>
      match stepInterrupt k iter with
      | (k, iter) => (k.map .inside, multi { it with d_currentIter := some iter })
  | _, it => (none, it)

/-- The call is before a loop body whose mutex an `interrupt` holds. -/
def Point.Waits : Point → Strike → Prop
  | .advance, .inside _ => True
  | .inside p, .inside k => p.Waits k
  | .current p, .inside k => p.Waits k
  | _, _ => False

/-- An `interrupt` waits for the mutex that another one holds. -/
def Strike.Waits : Strike → Strike → Prop
  | .lock, .inside _ => True
  | .inside k, .inside k' => k.Waits k'
  | _, _ => False

end Iter

end AlpinoCorpus
