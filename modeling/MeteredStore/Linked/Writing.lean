/-
Writing to cells that link to one another.

`put` links a new red cell where the search for its key ends and repairs upwards from it. `delete` unlinks a cell with at
most one child: the cell of the key, or the one next in order after its pair has been written over; a black cell without a
red child is unlinked only after a repair upwards from it. A turn of a search or of a repair is a function of its own, and
`turns` is the loop around it. A loop that takes more turns than a tree of as many cells ever asks for is given up: an
operation that goes in a circle has no outcome.
-/
import MeteredStore.Linked.Basic

namespace MeteredStore.Linked

/-! ## Loops -/

/-- runs turns as long as one is due, at most `n` of them, and then what ends the loop. A turn gives the state to go on from,
or `none` inside when no turn is due -/
def turns {α β : Type} (turn : α → Option (Option α)) (last : α → Option β) : Nat → α → Option β
  | 0, _ => none
  | n + 1, a => do
    match ← turn a with
    | none => last a
    | some b => turns turn last n b

theorem turns_of_none {α β : Type} {turn : α → Option (Option α)} {last : α → Option β} {n : Nat} {a : α}
    (h : turn a = some none) : turns turn last (n + 1) a = last a := by
  simp [turns, h]

theorem turns_of_some {α β : Type} {turn : α → Option (Option α)} {last : α → Option β} {n : Nat} {a b : α}
    (h : turn a = some (some b)) : turns turn last (n + 1) a = turns turn last n b := by
  simp [turns, h]

/-- as many turns as any search or repair takes: up to two for each cell on the way, and one to see that none is due -/
def limit (h : Linked) : Nat := 2 * h.cells.length + 1

/-! ## Searching -/

/-- one turn of the search for a key: from a link and the parent there to the child on the side of the key -/
def searchTurn (h : Linked) (key : Bytes) (place : Option NodeId × Option NodeId) :
    Option (Option (Option NodeId × Option NodeId)) :=
  match place.1 with
  | none => return none
  | some i => do
    let c ← h.cell? i
    if key < c.key then return some (c.left, some i)
    else if c.key < key then return some (c.right, some i)
    else return none

/-- follows the key down from the root: the link at which the search ends, and the parent there -/
def descend (h : Linked) (key : Bytes) : Option (Option NodeId × Option NodeId) :=
  turns (h.searchTurn key) some h.limit (h.root, none)

/-- follows left links from a cell to the last one -/
def leftmost (h : Linked) (i : NodeId) : Option NodeId :=
  turns (fun i => (h.cell? i).map Cell.left) some h.limit i

/-! ## Inserting -/

/-- one turn of the repair after a cell was linked: the cell to go on from, or `none` inside when no turn is due -/
def insertTurn (h : Linked) (i : NodeId) : Option (Option (NodeId × Linked)) := do
  let c ← h.cell? i
  match c.parent with
  | none => return none
  | some parent =>
    let p ← h.cell? parent
    if p.color = .black then return none
    else
      let grand ← p.parent
      let g ← h.cell? grand
      let side := g.sideOf parent
      let uncle := g.child side.opposite
      if h.isRed uncle then
        let h ← h.paint parent .black
        let h ← h.paint (← uncle) .black
        let h ← h.paint grand .red
        return some (grand, h)
      else if p.child side.opposite = some i then
        -- an inner grandchild comes up first
        let h ← h.rotate parent side
        let c ← h.cell? parent
        let risen ← c.parent
        let h ← h.paint risen .black
        let h ← h.paint grand .red
        let h ← h.rotate grand side.opposite
        return some (parent, h)
      else
        let h ← h.paint parent .black
        let h ← h.paint grand .red
        let h ← h.rotate grand side.opposite
        return some (i, h)

/-- runs turns from a cell on until none is due, then blackens the root -/
def fixInsert (h : Linked) (i : NodeId) : Option Linked :=
  turns (fun s => s.2.insertTurn s.1) (fun s => do s.2.paint (← s.2.root) .black) h.limit (i, h)

/-- makes a cell that nothing links to yet -/
def append (h : Linked) (c : Cell) : Linked := { h with cells := h.cells ++ [c] }

/-- hangs a cell where the search for a key has ended -/
def link (h : Linked) (key : Bytes) (parent : Option NodeId) (i : NodeId) : Option Linked :=
  match parent with
  | none => some { h with root := some i }
  | some p => do
    let c ← h.cell? p
    h.setChild p (if key < c.key then .left else .right) (some i)

def put (h : Linked) (key value : Bytes) : Option Linked := do
  match ← h.descend key with
  | (some i, _) => h.modify i fun c => { c with value := value }
  | (none, parent) =>
    let i := h.cells.length
    let h := h.append ⟨key, value, .red, none, none, parent⟩
    let h ← h.link key parent i
    fixInsert { h with size := h.size + 1 } i

/-! ## Deleting -/

/-- a red sibling comes up over the parent and leaves one of its children as the sibling -/
def liftSibling (h : Linked) (parent : NodeId) (side : Side) : Option Linked := do
  let p ← h.cell? parent
  if h.isRed (p.child side.opposite) then
    let h ← h.paint (← p.child side.opposite) .black
    let h ← h.paint parent .red
    h.rotate parent side
  else return h

/-- a sibling whose far child is not red lets its near child come up in its place -/
def straightenSibling (h : Linked) (parent : NodeId) (side : Side) : Option Linked := do
  let sibling ← (← h.cell? parent).child side.opposite
  let s ← h.cell? sibling
  if h.isRed (s.child side.opposite) then return h
  else
    let h ← h.paint (← s.child side) .black
    let h ← h.paint sibling .red
    h.rotate sibling side.opposite

/-- the rest of a turn, with a sibling that is not red: the cell to go on from -/
def resolve (h : Linked) (parent : NodeId) (side : Side) : Option (NodeId × Linked) := do
  let sibling ← (← h.cell? parent).child side.opposite
  let s ← h.cell? sibling
  if !h.isRed s.left && !h.isRed s.right then
    return (parent, ← h.paint sibling .red)
  else
    let h ← h.straightenSibling parent side
    let p ← h.cell? parent
    let sibling ← p.child side.opposite
    let h ← h.paint sibling p.color
    let h ← h.paint parent .black
    let h ← h.paint (← (← h.cell? sibling).child side.opposite) .black
    let h ← h.rotate parent side
    return (← h.root, h)

/-- one turn of the repair before a cell is unlinked: the cell to go on from, or `none` inside when no turn is due -/
def deleteTurn (h : Linked) (i : NodeId) : Option (Option (NodeId × Linked)) := do
  let c ← h.cell? i
  if h.root = some i ∨ c.color = .red then return none
  else
    let parent ← c.parent
    let side := (← h.cell? parent).sideOf i
    let h ← h.liftSibling parent side
    return some (← h.resolve parent side)

/-- runs turns from a cell on until none is due, then blackens the cell they lead to -/
def fixDelete (h : Linked) (i : NodeId) : Option Linked :=
  turns (fun s => s.2.deleteTurn s.1) (fun s => s.2.paint s.1 .black) h.limit (i, h)

/-- unlinks a cell with at most one child -/
def unlink (h : Linked) (i : NodeId) : Option Linked := do
  let c ← h.cell? i
  let child := c.left <|> c.right
  let h ←
    if c.color = .black then
      match child with
      | some j => if h.isRed (some j) then h.paint j .black else h.fixDelete i
      | none => h.fixDelete i
    else some h
  h.replace i child

/-- takes the pair of a cell out: with two children, the pair next in order is written over it, and the cell of that one is
unlinked -/
def deleteCell (h : Linked) (i : NodeId) : Option Linked := do
  let c ← h.cell? i
  match c.left, c.right with
  | some _, some r =>
    let next ← h.leftmost r
    let d ← h.cell? next
    let h ← h.modify i fun c => { c with key := d.key, value := d.value }
    h.unlink next
  | _, _ => h.unlink i

/-- also tells whether the key was there -/
def delete (h : Linked) (key : Bytes) : Option (Bool × Linked) := do
  match ← h.descend key with
  | (none, _) => return (false, h)
  | (some i, _) =>
    let h ← h.deleteCell i
    return (true, { h with size := h.size - 1 })

end MeteredStore.Linked
