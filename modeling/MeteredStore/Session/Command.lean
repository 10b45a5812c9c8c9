/-
The commands of a session.

A command either makes an object or asks one of the objects made so far. It is answered, or refused with a reason; a
command that is refused changes nothing and logs nothing (`step_refused`). `run` carries out commands one after the
other, so whatever holds before and is kept by `step` holds after any interleaving of calls on any of the objects.
-/
import MeteredStore.Session.Iteration

namespace MeteredStore

/-- an object of a session -/
inductive Object where
  | map (i : MapId)
  | store (i : StoreId)
  | queue (i : QueueId)
  | cursor (i : CursorId)
  | iterator (i : IteratorId)
deriving DecidableEq, Repr

/-- what is given for the prices of a new store -/
inductive StorePrices where
  | standard
  | call (c : PriceCall)
  /-- an argument that is not prices, or none -/
  | argument (a : Argument)
deriving Repr

/-- what is given for the pairs of a new iterator -/
inductive Supplier where
  | pairs (ps : List (Bytes × Bytes))
  /-- another iterator, a queue or a cursor, which is shared from then on, or a map or a store, which is walked upwards -/
  | object (o : Object)
deriving DecidableEq, Repr

inductive Command where
  | newMap
  /-- over a map of its own or over a given one -/
  | newStore (prices : StorePrices) (map : Option MapId)
  | newIterator (prices : Option PriceCall) (supplier : Supplier)
  /-- an iterator that has run out from the start -/
  | newExhausted (prices : Option PriceCall)
  | newQueue (pairs : List (Bytes × Bytes))
  | newCursor (map : MapId) (bounds : Bounds) (order : Option Argument)
  /-- a cursor upwards through all of a map or store -/
  | walk (through : Object)
  | put (map : MapId) (key value : Bytes)
  | delete (map : MapId) (key : Bytes)
  | lookup (map : MapId) (key : Bytes)
  | mapSize (map : MapId)
  | tree (map : MapId)
  | get (store : StoreId) (key : Argument)
  | set (store : StoreId) (key value : Argument)
  | remove (store : StoreId) (key : Argument)
  | has (store : StoreId) (key : Argument)
  | storeSize (store : StoreId)
  | items (store : StoreId)
  | describe (store : StoreId)
  | prices (store : StoreId)
  | range (store : StoreId) (start stop : Argument) (order : Option Argument)
  | advance (iterator : IteratorId)
  | advanceAll (iterator : IteratorId)
  | isExhausted (iterator : IteratorId)
  /-- the next pair of an iterator, queue or cursor -/
  | next (of : Object)
  /-- the pairs that are left to an iterator, queue or cursor -/
  | drain (of : Object)
deriving Repr

inductive Answer where
  /-- it is done, and there is nothing to say -/
  | done
  | made (o : Object)
  | flag (b : Bool)
  | count (n : Nat)
  | found (present : Bool) (value : Option Bytes)
  | reading (value : Option Bytes) (gas : Nat)
  | tree (t : Tree)
  | prices (p : Prices)
  | text (s : String)
  | opened (iterator : IteratorId) (gas : Nat) (exhausted : Bool)
  | item (i : Item)
  | items (is : List Item)
  | pair (p : Option (Bytes × Bytes))
  | pairs (ps : List (Bytes × Bytes))
deriving DecidableEq, Repr

namespace StorePrices

/-- a call is made first; an argument that is there at all is not prices -/
def resolve : StorePrices → Except Refusal Prices
  | standard => .ok Prices.standard
  | call c => Prices.ofCall c
  | argument .nothing => .ok Prices.standard
  | argument a => .error (.notPrices a)

end StorePrices

namespace Session

/-! ## Finding objects -/

def find {α : Type} (xs : List α) (i : Nat) : Except Refusal α :=
  match xs[i]? with
  | some x => .ok x
  | none => .error .noSuchObject

/-- the store with a number, and its map -/
def storeWithMap (s : Session) (i : StoreId) : Except Refusal (Store × SortedMap) := do
  let store ← find s.stores i
  let m ← find s.maps store.map
  return (store, m)

/-- the map that a map or store is walked by -/
def mapOf (s : Session) : Object → Except Refusal MapId
  | .map i => .ok i
  | .store i => do
    let store ← find s.stores i
    return store.map
  | .queue _ => .error .noSuchObject
  | .cursor _ => .error .noSuchObject
  | .iterator _ => .error .noSuchObject

/-! ## Making objects -/

def resolvePrices : Option PriceCall → Except Refusal Prices
  | none => .ok Prices.standard
  | some c => Prices.ofCall c

/-- prices are looked at before the map -/
def newStore (s : Session) (prices : StorePrices) (map : Option MapId) : Except Refusal (StoreId × Session) := do
  let prices ← prices.resolve
  match map with
  | none =>
    let (i, s) := s.addMap SortedMap.empty
    return s.addStore ⟨prices, i⟩
  | some i =>
    let m ← find s.maps i
    if m.size = 0 then return s.addStore ⟨prices, i⟩ else .error .mapNotEmpty

def newCursor (s : Session) (i : MapId) (b : Bounds) (d : Direction) : Except Refusal (CursorId × Session) := do
  let m ← find s.maps i
  return s.addCursor ⟨i, Cursor.start m b d⟩

def walk (s : Session) (o : Object) : Except Refusal (CursorId × Session) := do
  let i ← s.mapOf o
  s.newCursor i Bounds.all .ascending

/-- where an iterator over a supplier takes its pairs -/
def sourceOf (s : Session) : Supplier → Except Refusal (Source × Session)
  | .pairs ps => .ok (.pairs ps, s)
  | .object (.queue q) => .ok (.queue q, s)
  | .object (.cursor c) => .ok (.cursor c, s)
  | .object (.iterator i) => .ok (.iterator i, s)
  | .object o => do
    let (c, s) ← s.walk o
    return (.cursor c, s)

/-- inverted bounds make an iterator that has run out from the start, and a record of them -/
def openRange (s : Session) (p : Prices) : Range → IteratorId × Session
  | .inverted start stop => (s.record (.emptyRange start stop)).addIterator ⟨p, .pairs [], true⟩
  | .snapshot pairs => s.addIterator ⟨p, .pairs pairs, false⟩

/-! ## Carrying out commands -/

/-- the answer and the session after it, or the reason why not -/
def attempt (s : Session) : Command → Except Refusal (Answer × Session)
  | .newMap =>
    let (i, s) := s.addMap SortedMap.empty
    .ok (.made (.map i), s)
  | .newStore prices map => do
    let (i, s) ← s.newStore prices map
    return (.made (.store i), s)
  | .newIterator prices supplier => do
    let prices ← resolvePrices prices
    let (source, s) ← s.sourceOf supplier
    let (i, s) := s.addIterator ⟨prices, source, false⟩
    return (.made (.iterator i), s)
  | .newExhausted prices => do
    let prices ← resolvePrices prices
    let (i, s) := s.addIterator ⟨prices, .pairs [], true⟩
    return (.made (.iterator i), s)
  | .newQueue pairs =>
    let (q, s) := s.addQueue pairs
    .ok (.made (.queue q), s)
  | .newCursor map bounds order => do
    let d ← Argument.asDirection order
    let (c, s) ← s.newCursor map bounds d
    return (.made (.cursor c), s)
  | .walk through => do
    let (c, s) ← s.walk through
    return (.made (.cursor c), s)
  | .put map key value => do
    let m := (← find s.maps map).insert key value
    return (.done, s.setMap map m)
  | .delete map key => do
    let (present, m) := (← find s.maps map).erase key
    return (.flag present, s.setMap map m)
  | .lookup map key => do
    let m ← find s.maps map
    return (.found (m.contains key) (m.get? key), s)
  | .mapSize map => do
    let m ← find s.maps map
    return (.count m.size, s)
  | .tree map => do
    let m ← find s.maps map
    return (.tree m.root, s)
  | .get store key => do
    let (store, m) ← s.storeWithMap store
    let (value, gas) ← store.get m key
    return (.reading value gas, s)
  | .set store key value => do
    let (store, m) ← s.storeWithMap store
    let (gas, m) ← store.set m key value
    return (.count gas, s.setMap store.map m)
  | .remove store key => do
    let (store, m) ← s.storeWithMap store
    let (gas, m) ← store.remove m key
    return (.count gas, s.setMap store.map m)
  | .has store key => do
    let (_, m) ← s.storeWithMap store
    return (.flag (← Store.has m key), s)
  | .storeSize store => do
    let (_, m) ← s.storeWithMap store
    return (.count m.size, s)
  | .items store => do
    let (_, m) ← s.storeWithMap store
    return (.pairs (m.range Bounds.all .ascending), s)
  | .describe store => do
    let (store, m) ← s.storeWithMap store
    return (.text (store.render m), s)
  | .prices store => do
    let store ← find s.stores store
    return (.prices store.prices, s)
  | .range store start stop order => do
    let (store, m) ← s.storeWithMap store
    let range ← Store.range m start stop order
    let (i, s) := s.openRange store.prices range
    return (.opened i store.prices.rangeSetup range.isInverted, s)
  | .advance iterator =>
    match s.advance iterator with
    | none => .error .noSuchObject
    | some (item, s) => .ok (.item item, s)
  | .advanceAll iterator =>
    match s.advanceAll iterator with
    | none => .error .noSuchObject
    | some (items, s) => .ok (.items items, s)
  | .isExhausted iterator => do
    let it ← find s.iterators iterator
    return (.flag it.exhausted, s)
  | .next (.queue q) =>
    let (pair, s) := s.nextOfQueue q
    .ok (.pair pair, s)
  | .next (.cursor c) =>
    let (pair, s) := s.nextOfCursor c
    .ok (.pair pair, s)
  | .next (.iterator i) =>
    let (pair, s) := s.pull i
    .ok (.pair pair, s)
  | .next _ => .error .noSuchObject
  | .drain (.queue q) =>
    let (pairs, s) := s.drainQueue q
    .ok (.pairs pairs, s)
  | .drain (.cursor c) =>
    let (pairs, s) := s.drainCursor c
    .ok (.pairs pairs, s)
  | .drain (.iterator i) =>
    let (pairs, s) := s.pullAll i
    .ok (.pairs pairs, s)
  | .drain _ => .error .noSuchObject

/-- carries out one command -/
def step (s : Session) (c : Command) : Except Refusal Answer × Session :=
  match s.attempt c with
  | .error r => (.error r, s)
  | .ok (a, t) => (.ok a, t)

/-- carries out commands in order -/
def run (s : Session) : List Command → List (Except Refusal Answer) × Session
  | [] => ([], s)
  | c :: cs =>
    let (answer, s) := s.step c
    let (answers, s) := s.run cs
    (answer :: answers, s)

theorem step_refused {s : Session} {c : Command} {r : Refusal} (h : (s.step c).1 = .error r) : (s.step c).2 = s := by
  unfold step at h ⊢
  split
  · rfl
  · next h' => simp [h'] at h

/-- a run may be cut anywhere -/
theorem run_append (s : Session) (cs ds : List Command) :
    (s.run (cs ++ ds)).1 = (s.run cs).1 ++ ((s.run cs).2.run ds).1 ∧
      (s.run (cs ++ ds)).2 = ((s.run cs).2.run ds).2 := by
  induction cs generalizing s with
  | nil => exact ⟨rfl, rfl⟩
  | cons c cs ih =>
    obtain ⟨h₁, h₂⟩ := ih (s.step c).2
    exact ⟨congrArg _ h₁, h₂⟩

end Session

end MeteredStore
