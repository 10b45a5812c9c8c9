/-
Stepping the queues, cursors and iterators of a session.

To pull is to take the next pair of an iterator: from its own list, from its queue or cursor, or by pulling from the iterator
it was made over. An iterator that pulls and gets nothing is exhausted from then on; it logs that once, and does not ask its
source again. `pull_of_exhausted` says the latter.

An iterator made over others is pulled by its position: the ones it takes from come before it.

Premise: iterators may be made over each other to any depth. An interpreter stops a pull that goes deeper than its limit on
recursion, which is a setting of it; there is no such limit here.
-/
import MeteredStore.Session.Basic

namespace MeteredStore.Session

/-- the next pair of a queue -/
def nextOfQueue (s : Session) (i : QueueId) : Option (Bytes × Bytes) × Session :=
  match s.queues[i]? with
  | some (pair :: left) => (some pair, s.setQueue i left)
  | _ => (none, s)

/-- the next pair of a cursor -/
def nextOfCursor (s : Session) (i : CursorId) : Option (Bytes × Bytes) × Session :=
  match s.cursors[i]? with
  | none => (none, s)
  | some c =>
    match s.maps[c.map]? with
    | none => (none, s)
    | some m =>
      let (found, cursor) := c.cursor.next m
      (found, s.setCursor i { c with cursor := cursor })

/-- the iterator's source has run out -/
def exhaust (s : Session) (i : IteratorId) : Session :=
  match s.iterators[i]? with
  | none => s
  | some it => (s.setIterator i { it with exhausted := true }).record .iteratorExhausted

/-- the next pair of an iterator -/
def pull (s : Session) (i : IteratorId) : Option (Bytes × Bytes) × Session :=
  match s.iterators[i]? with
  | none => (none, s)
  | some it =>
    if it.exhausted then (none, s)
    else
      let (found, s) :=
        match it.source with
        | .pairs [] => (none, s)
        | .pairs (pair :: left) => (some pair, s.setIterator i { it with source := .pairs left })
        | .queue q => s.nextOfQueue q
        | .cursor c => s.nextOfCursor c
        | .iterator j => if j < i then s.pull j else (none, s)
      match found with
      | none => (none, s.exhaust i)
      | some pair => (some pair, s)
termination_by i

/-- what the prices make of a pull -/
def price (p : Prices) : Option (Bytes × Bytes) → Item
  | none => .exhausted p.iteratorExhausted
  | some (key, value) => .entry key value (p.step key value)

/-- the next item of an iterator, priced by the iterator itself -/
def advance (s : Session) (i : IteratorId) : Option (Item × Session) :=
  match s.iterators[i]? with
  | none => none
  | some it =>
    let (found, s) := s.pull i
    some (price it.prices found, s)

/-! ## Taking all that is left -/

/-- at most so many pairs are left to an iterator -/
def supply (s : Session) (i : IteratorId) : Nat :=
  match s.iterators[i]? with
  | none => 0
  | some it =>
    match it.source with
    | .pairs left => left.length
    | .queue q => (s.queues[q]?.getD []).length
    | .cursor c =>
      match s.cursors[c]? with
      | none => 0
      | some c =>
        match s.maps[c.map]? with
        | none => 0
        | some m => c.cursor.supply m
    | .iterator j => if j < i then s.supply j else 0
termination_by i

/-- pulls until nothing is left, at most `n` times -/
def pullUpTo : Nat → Session → IteratorId → List (Bytes × Bytes) × Session
  | 0, s, _ => ([], s)
  | n + 1, s, i =>
    match s.pull i with
    | (none, s) => ([], s)
    | (some pair, s) =>
      let (pairs, s) := pullUpTo n s i
      (pair :: pairs, s)

/-- the pairs that are left to an iterator -/
def pullAll (s : Session) (i : IteratorId) : List (Bytes × Bytes) × Session :=
  pullUpTo (s.supply i + 1) s i

/-- the items that are left to an iterator, the mark at the end among them -/
def advanceAll (s : Session) (i : IteratorId) : Option (List Item × Session) :=
  match s.iterators[i]? with
  | none => none
  | some it =>
    let (pairs, s) := s.pullAll i
    some (pairs.map (fun pair => price it.prices (some pair)) ++ [price it.prices none], s)

/-- the pairs that are left to a queue -/
def drainQueue (s : Session) (i : QueueId) : List (Bytes × Bytes) × Session :=
  (s.queues[i]?.getD [], s.setQueue i [])

/-- the pairs that are left to a cursor -/
def drainCursor (s : Session) (i : CursorId) : List (Bytes × Bytes) × Session :=
  match s.cursors[i]? with
  | none => ([], s)
  | some c =>
    match s.maps[c.map]? with
    | none => ([], s)
    | some m =>
      let (pairs, cursor) := c.cursor.drain m
      (pairs, s.setCursor i { c with cursor := cursor })

theorem pull_of_exhausted {s : Session} {i : IteratorId} {it : StorageIterator} (h : s.iterators[i]? = some it)
    (he : it.exhausted = true) : s.pull i = (none, s) := by
  unfold pull
  simp [h, he]

end MeteredStore.Session
