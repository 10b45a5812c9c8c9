/-
The calls on a store as what they do, one thing after the other.

`Session.attempt` gives a call's answer and the session after it, or no session at all. Here a call acts on the session while
it goes on: it looks at its arguments, reads the map, writes to it, logs, makes an iterator, each at its place. What
interrupts a call takes nothing back, so a check that came after a write would show in the session that is left.
-/
import MeteredStore.Session.Command

namespace MeteredStore

/-- why a call ends early -/
inductive Interruption where
  /-- an argument is refused -/
  | refused (r : Refusal)
  /-- the tree lacks a node that a repair needs -/
  | broken (f : Fault)
deriving Repr

/-- what acts on a session and may be interrupted; what was done before stays done -/
abbrev Effect := ExceptT Interruption (StateM Session)

namespace Effect

/-- the outcome on a session, and the session that is left -/
def on {α : Type} (x : Effect α) (s : Session) : Except Interruption α × Session := (ExceptT.run x).run s

def check {α : Type} (x : Except Refusal α) : Effect α :=
  match x with
  | .ok a => pure a
  | .error r => throw (.refused r)

def intact {α : Type} (x : Except Fault α) : Effect α :=
  match x with
  | .ok a => pure a
  | .error f => throw (.broken f)

/-- the store that is called, and its map as it is now -/
def called (i : StoreId) : Effect (Store × SortedMap) := do check ((← get).storeWithMap i)

/-- hands over a new iterator -/
def opened (p : Prices) (pairs : List (Bytes × Bytes)) (exhausted : Bool) : Effect Answer := do
  let (i, s) := (← get).addIterator ⟨p, .pairs pairs, exhausted⟩
  set s
  return .opened i p.rangeSetup exhausted

end Effect

/-- a call on a store, with arguments of any type -/
inductive StoreCall where
  | get (key : Argument)
  | set (key value : Argument)
  | remove (key : Argument)
  | has (key : Argument)
  | range (start stop : Argument) (order : Option Argument)
deriving Repr

namespace StoreCall

open Effect

def command (i : StoreId) : StoreCall → Command
  | get key => .get i key
  | set key value => .set i key value
  | remove key => .remove i key
  | has key => .has i key
  | range start stop order => .range i start stop order

/-- carries out a call on store `i` -/
def perform (i : StoreId) : StoreCall → Effect Answer
  | get key => do
    let (store, m) ← called i
    let key ← check key.asKey
    return .reading (m.get? key) (store.prices.read key)
  | set key value => do
    let (store, m) ← called i
    let key ← check key.asKey
    let value ← check value.asValue
    let m ← intact (m.insert? key value)
    modify fun s => s.setMap store.map m
    return .count (store.prices.write key value)
  | remove key => do
    let (store, m) ← called i
    let key ← check key.asKey
    let (_, m) ← intact (m.erase? key)
    modify fun s => s.setMap store.map m
    return .count (store.prices.remove key)
  | has key => do
    let (_, m) ← called i
    let key ← check key.asKey
    return .flag (m.contains key)
  | range start stop order => do
    let (store, m) ← called i
    let d ← check (Argument.asDirection order)
    let start ← check start.asBound
    let stop ← check stop.asBound
    match Range.ofMap m start stop d with
    | .inverted s t =>
      modify fun session => session.record (.emptyRange s t)
      opened store.prices [] true
    | .snapshot pairs => opened store.prices pairs false

end StoreCall

end MeteredStore
