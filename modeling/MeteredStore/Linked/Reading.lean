/-
Reading cells that link to one another, and which cells an operation looks at on its way down.

`get?` and `contains` make the search that the writes make. `trail` are the states that a loop comes to; from them come the
cells that a search looks at (`searched`) and those that a delete looks at before it changes anything (`deleteWay`): first on
the way to its key, then on the way to the pair next in order. `passed` are the cells on a given way down.
-/
import MeteredStore.Linked.Writing

namespace MeteredStore.Linked

/-! ## Reading -/

/-- the value of a key, or `none` inside when the key is not there -/
def get? (h : Linked) (key : Bytes) : Option (Option Bytes) := do
  match ← h.descend key with
  | (none, _) => return none
  | (some i, _) => return some (← h.cell? i).value

def contains (h : Linked) (key : Bytes) : Option Bool := do
  match ← h.descend key with
  | (none, _) => return false
  | (some _, _) => return true

/-! ## Ways down -/

/-- the states that a loop comes to, as `turns` runs it -/
def trail {α : Type} (turn : α → Option (Option α)) : Nat → α → List α
  | 0, _ => []
  | n + 1, a =>
    match turn a with
    | some (some b) => a :: trail turn n b
    | _ => [a]

/-- the cells that the search for a key looks at, in order -/
def searched (h : Linked) (key : Bytes) : List NodeId := (trail (h.searchTurn key) h.limit (h.root, none)).filterMap Prod.fst

/-- the cells that a delete looks at below the cell it has found: with two children, those on the way to the next in order -/
def followed (h : Linked) (i : NodeId) : List NodeId :=
  match h.cell? i with
  | none => []
  | some c =>
    match c.left, c.right with
    | some _, some r => trail (fun i => (h.cell? i).map Cell.left) h.limit r
    | _, _ => []

/-- the cells that a delete looks at on its way down -/
def deleteWay (h : Linked) (key : Bytes) : List NodeId :=
  h.searched key ++
    match h.descend key with
    | some (some i, _) => h.followed i
    | _ => []

/-- the cells on a way down from a link, as far as it leads to cells, both ends included -/
def passed (h : Linked) : List Side → Option NodeId → List NodeId
  | _, none => []
  | [], some i => [i]
  | s :: way, some i => i :: passed h way ((h.cell? i).bind fun c => c.child s)

theorem trail_of_none {α : Type} {turn : α → Option (Option α)} {n : Nat} {a : α} (h : turn a = some none) :
    trail turn (n + 1) a = [a] := by
  simp [trail, h]

theorem trail_of_some {α : Type} {turn : α → Option (Option α)} {n : Nat} {a b : α} (h : turn a = some (some b)) :
    trail turn (n + 1) a = a :: trail turn n b := by
  simp [trail, h]

end MeteredStore.Linked
