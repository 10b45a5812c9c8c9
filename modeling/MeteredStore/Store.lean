/-
A store: a map behind prices.

Any number of stores may share a map, each with prices of its own. Every operation first reads its arguments, refuses
those that are not bytes-like, and then acts on the map it is given and says what that cost. A range is a snapshot: its
pairs are taken from the map when it is opened. A range whose bounds are inverted is known to be empty without a look at
the map.

`ofMap_inverted`, `ofMap_snapshot`: which of the two a range is.
-/
import MeteredStore.Cursor
import MeteredStore.Prices

namespace MeteredStore

/-- position of a map among the maps of a session -/
abbrev MapId := Nat

structure Store where
  prices : Prices
  map : MapId
deriving DecidableEq, Repr

/-- what a store's range is opened on -/
inductive Range where
  /-- both bounds given, the first not before the second -/
  | inverted (start stop : Bytes)
  /-- the pairs in range at the moment of opening, in the order of the walk -/
  | snapshot (pairs : List (Bytes × Bytes))
deriving DecidableEq, Repr

def Range.isInverted : Range → Bool
  | .inverted _ _ => true
  | .snapshot _ => false

/-- the range of a map between two bounds -/
def Range.ofMap (m : SortedMap) (start stop : Option Bytes) (d : Direction) : Range :=
  match start, stop with
  | some s, some t => if s < t then .snapshot (m.range ⟨start, stop⟩ d) else .inverted s t
  | _, _ => .snapshot (m.range ⟨start, stop⟩ d)

namespace Store

/-- the value, and the cost of reading -/
def get (s : Store) (m : SortedMap) (key : Argument) : Except Refusal (Option Bytes × Nat) := do
  let key ← key.asKey
  return (m.get? key, s.prices.read key)

/-- the cost of writing, and the map after it -/
def set (s : Store) (m : SortedMap) (key value : Argument) : Except Refusal (Nat × SortedMap) := do
  let key ← key.asKey
  let value ← value.asValue
  return (s.prices.write key value, m.insert key value)

/-- the cost of removing, whether the key is there or not, and the map after it -/
def remove (s : Store) (m : SortedMap) (key : Argument) : Except Refusal (Nat × SortedMap) := do
  let key ← key.asKey
  return (s.prices.remove key, (m.erase key).2)

def has (m : SortedMap) (key : Argument) : Except Refusal Bool := do
  let key ← key.asKey
  return m.contains key

/-- the direction is looked at before the bounds, the start before the stop -/
def range (m : SortedMap) (start stop : Argument) (order : Option Argument) : Except Refusal Range := do
  let d ← Argument.asDirection order
  let start ← start.asBound
  let stop ← stop.asBound
  return Range.ofMap m start stop d

def render (s : Store) (m : SortedMap) : String :=
  "MockStorage(size=" ++ toString m.size ++ ", gas_config=" ++ s.prices.render ++ ")"

end Store

namespace Range

theorem ofMap_inverted {m : SortedMap} {s t : Bytes} {d : Direction} (h : ¬ s < t) :
    ofMap m (some s) (some t) d = inverted s t := by
  simp [ofMap, h]

theorem ofMap_snapshot {m : SortedMap} {start stop : Option Bytes} {d : Direction}
    (h : Bounds.inverted ⟨start, stop⟩ = false) : ofMap m start stop d = snapshot (m.range ⟨start, stop⟩ d) := by
  unfold ofMap
  split
  · simp only [Bounds.inverted, Bool.not_eq_false', decide_eq_true_eq] at h
    rw [if_pos h]
  · rfl

end Range

end MeteredStore
