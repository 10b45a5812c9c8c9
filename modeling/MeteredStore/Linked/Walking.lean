/-
Cursors on cells that link to one another.

A cursor on cells is the cursor that it is on a map, with the numbers of cells on its stack. It holds on to cells that have
been unlinked, and follows their links as they are; nothing tells it how many of them there are. A way down that takes more
turns than there are cells is given up, so a way that goes in a circle has no outcome.
-/
import MeteredStore.Cursor
import MeteredStore.Linked.Writing

namespace MeteredStore.Linked

/-- one turn on the way down, with the stack so far: from a link to the child on the side where the range begins. A cell on the
near side is left out, the others are pushed -/
def pushTurn (h : Linked) (b : Bounds) (d : Direction) (place : Option NodeId × List NodeId) :
    Option (Option (Option NodeId × List NodeId)) :=
  match place.1 with
  | none => return none
  | some i => do
    let c ← h.cell? i
    if b.isNear d c.key then return some (c.child d.onward, place.2)
    else return some (c.child d.onward.opposite, i :: place.2)

/-- pushes the way from a link to the first key in range -/
def push (h : Linked) (b : Bounds) (d : Direction) (link : Option NodeId) (stack : List NodeId) : Option (List NodeId) :=
  turns (h.pushTurn b d) (fun place => some place.2) h.limit (link, stack)

/-- a cursor before the first key in range -/
def start (h : Linked) (b : Bounds) (d : Direction) : Option Cursor := do
  return ⟨b, d, ← h.push b d h.root []⟩

/-- the next pair, or `none` inside at the end of the walk -/
def next (h : Linked) (c : Cursor) : Option (Option (Bytes × Bytes) × Cursor) :=
  match c.stack with
  | [] => return (none, c)
  | i :: stack => do
    let n ← h.cell? i
    if c.bounds.isFar c.direction n.key then return (none, c.stop)
    else
      let stack ← h.push c.bounds c.direction (n.child c.direction.onward) stack
      return (some (n.key, n.value), { c with stack := stack })

/-- the first cell names the second as a child, be they linked to the root or not -/
def Leads (h : Linked) (i j : NodeId) : Prop := ∃ c, h.cell? i = some c ∧ ∃ s, j ∈ c.child s

end MeteredStore.Linked
