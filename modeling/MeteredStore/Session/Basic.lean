/-
A session: the objects that calls have made, and what they have logged.

Objects refer to each other by position. Stores and cursors refer to maps; an iterator takes its pairs from a list of its
own, from a queue, from a cursor, or from another iterator, which it then shares with whoever else takes from there. A queue
is a list of pairs that are handed out one after the other, to whoever asks, at no price. Objects are added at the end and
never removed, and an iterator only refers to iterators made before it.
-/
import MeteredStore.Item
import MeteredStore.Store

namespace MeteredStore

/-- position of a store in a session -/
abbrev StoreId := Nat

/-- position of a cursor in a session -/
abbrev CursorId := Nat

/-- position of a queue in a session -/
abbrev QueueId := Nat

/-- position of an iterator in a session -/
abbrev IteratorId := Nat

/-- a cursor, and the map it walks -/
structure LiveCursor where
  map : MapId
  cursor : Cursor
deriving DecidableEq, Repr

/-- where an iterator takes its pairs -/
inductive Source where
  | pairs (left : List (Bytes × Bytes))
  | queue (q : QueueId)
  | cursor (c : CursorId)
  | iterator (i : IteratorId)
deriving DecidableEq, Repr

/-- an iterator that charges for each pair by its own prices -/
structure StorageIterator where
  prices : Prices
  source : Source
  /-- the source is known to have run out -/
  exhausted : Bool
deriving DecidableEq, Repr

/-- what is logged, for debugging -/
inductive LogRecord where
  /-- a range was opened with inverted bounds -/
  | emptyRange (start stop : Bytes)
  /-- an iterator has found its source run out -/
  | iteratorExhausted
deriving DecidableEq, Repr

def LogRecord.level : LogRecord → String
  | _ => "DEBUG"

def LogRecord.text : LogRecord → String
  | emptyRange start stop =>
    "Empty range requested: start=" ++ Text.quoteBytes start ++ " end=" ++ Text.quoteBytes stop
  | iteratorExhausted => "Range iterator exhausted"

structure Session where
  maps : List SortedMap
  stores : List Store
  /-- the pairs that each queue has left -/
  queues : List (List (Bytes × Bytes))
  cursors : List LiveCursor
  iterators : List StorageIterator
  /-- oldest record first -/
  log : List LogRecord
deriving DecidableEq, Repr

namespace Session

def empty : Session := ⟨[], [], [], [], [], []⟩

/-! ## Objects: a new one is added at the end -/

def addMap (s : Session) (m : SortedMap) : MapId × Session :=
  (s.maps.length, { s with maps := s.maps ++ [m] })

def addStore (s : Session) (t : Store) : StoreId × Session :=
  (s.stores.length, { s with stores := s.stores ++ [t] })

def addQueue (s : Session) (pairs : List (Bytes × Bytes)) : QueueId × Session :=
  (s.queues.length, { s with queues := s.queues ++ [pairs] })

def addCursor (s : Session) (c : LiveCursor) : CursorId × Session :=
  (s.cursors.length, { s with cursors := s.cursors ++ [c] })

def addIterator (s : Session) (it : StorageIterator) : IteratorId × Session :=
  (s.iterators.length, { s with iterators := s.iterators ++ [it] })

def setMap (s : Session) (i : MapId) (m : SortedMap) : Session := { s with maps := s.maps.set i m }

def setQueue (s : Session) (i : QueueId) (left : List (Bytes × Bytes)) : Session := { s with queues := s.queues.set i left }

def setCursor (s : Session) (i : CursorId) (c : LiveCursor) : Session := { s with cursors := s.cursors.set i c }

def setIterator (s : Session) (i : IteratorId) (it : StorageIterator) : Session :=
  { s with iterators := s.iterators.set i it }

def record (s : Session) (r : LogRecord) : Session := { s with log := s.log ++ [r] }

end Session

end MeteredStore
