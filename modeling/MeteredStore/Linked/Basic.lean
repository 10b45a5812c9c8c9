/-
A map as cells that link to one another.

A cell holds a pair, a colour, and links to its children and its parent. A link is the number of a cell, its position among
all cells that were ever made, or is absent. Everything that an operation does, it does by reading and writing single
fields, one after the other; each read sees the writes before it. The outcome is absent when a link is absent that an
operation has to follow, and also when an operation finds no end.

`rotate` and `replace` relink a few cells. `reach` follows a way down from the root; `Valid` is what it means for the cells
that can be reached to be a red-black tree with all its links in order.
-/
import MeteredStore.Tree.Basic

namespace MeteredStore

structure Cell where
  key : Bytes
  value : Bytes
  color : Color
  left : Option NodeId
  right : Option NodeId
  parent : Option NodeId
deriving DecidableEq, Repr

namespace Cell

def child (c : Cell) : Side → Option NodeId
  | .left => c.left
  | .right => c.right

def setChild (c : Cell) (s : Side) (i : Option NodeId) : Cell :=
  match s with
  | .left => { c with left := i }
  | .right => { c with right := i }

/-- the side on which a child hangs: the right, unless it is the left child -/
def sideOf (c : Cell) (i : NodeId) : Side := if c.left = some i then .left else .right

end Cell

structure Linked where
  root : Option NodeId
  size : Nat
  cells : List Cell
deriving DecidableEq, Repr

namespace Linked

def empty : Linked := ⟨none, 0, []⟩

/-! ## Single fields -/

def cell? (h : Linked) (i : NodeId) : Option Cell := h.cells[i]?

/-- changes a cell -/
def modify (h : Linked) (i : NodeId) (f : Cell → Cell) : Option Linked := do
  let c ← h.cell? i
  return { h with cells := h.cells.set i (f c) }

def setChild (h : Linked) (i : NodeId) (s : Side) (j : Option NodeId) : Option Linked :=
  h.modify i fun c => c.setChild s j

def setParent (h : Linked) (i : NodeId) (j : Option NodeId) : Option Linked :=
  h.modify i fun c => { c with parent := j }

def paint (h : Linked) (i : NodeId) (color : Color) : Option Linked :=
  h.modify i fun c => { c with color := color }

/-- an absent cell is not red -/
def isRed (h : Linked) (i : Option NodeId) : Bool := (i.bind h.cell?).any fun c => c.color = .red

/-! ## Relinking -/

/-- makes a cell, if there is one, name another as its parent -/
def adopt (h : Linked) (child parent : Option NodeId) : Option Linked :=
  match child with
  | none => some h
  | some i => h.setParent i parent

/-- hangs a child, or none, where cell `i` hangs: below its parent, on its side, or at the root -/
def hang (h : Linked) (parent : Option NodeId) (i : NodeId) (child : Option NodeId) : Option Linked :=
  match parent with
  | none => some { h with root := child }
  | some p => do
    let c ← h.cell? p
    h.setChild p (c.sideOf i) child

/-- puts a child, or none, in the place of cell `i` -/
def replace (h : Linked) (i : NodeId) (child : Option NodeId) : Option Linked := do
  let c ← h.cell? i
  let h ← h.hang c.parent i child
  let c ← h.cell? i
  h.adopt child c.parent

/-- rotates cell `i` down towards side `s`: its child on the other side comes up in its place -/
def rotate (h : Linked) (i : NodeId) (s : Side) : Option Linked := do
  let c ← h.cell? i
  let pivot ← c.child s.opposite
  let p ← h.cell? pivot
  let h ← h.setChild i s.opposite (p.child s)
  let h ← h.adopt (p.child s) (some i)
  let h ← h.replace i (some pivot)
  let h ← h.setChild pivot s (some i)
  h.setParent i (some pivot)

/-! ## Ways down -/

/-- the link at the end of a way down from a link -/
def follow (h : Linked) : List Side → Option NodeId → Option NodeId
  | [], i => i
  | s :: way, i => follow h way (i.bind fun i => (h.cell? i).bind fun c => c.child s)

/-- the link at the end of a way down from the root -/
def reach (h : Linked) (way : List Side) : Option NodeId := h.follow way h.root

/-- a way that leads from the root to an absent child, and no further -/
def Ends (h : Linked) (way : List Side) : Prop :=
  h.reach way = none ∧ ∀ front, front <+: way → front ≠ way → h.reach front ≠ none

/-- the number of black cells on a way down from a link -/
def blacks (h : Linked) : List Side → Option NodeId → Nat
  | _, none => 0
  | [], some i => if h.isRed (some i) then 0 else 1
  | s :: way, some i =>
    (if h.isRed (some i) then 0 else 1) + blacks h way ((h.cell? i).bind fun c => c.child s)

/-- the cells that can be reached are a red-black tree, and all their links are in order -/
structure Valid (h : Linked) : Prop where
  /-- the root is black and has no parent -/
  root : ∀ i, h.root = some i → ∃ c, h.cell? i = some c ∧ c.color = .black ∧ c.parent = none
  /-- a link leads to a cell -/
  cell : ∀ way i, h.reach way = some i → ∃ c, h.cell? i = some c
  /-- no red cell has a red child -/
  red : ∀ way i c, h.reach way = some i → h.cell? i = some c → c.color = .red → ∀ s, h.isRed (c.child s) = false
  /-- all ways down to an absent child pass as many black cells -/
  blacks : ∃ n, ∀ way, h.Ends way → h.blacks way h.root = n
  /-- a child names as its parent the cell that holds it -/
  parent : ∀ way i c s j, h.reach way = some i → h.cell? i = some c → c.child s = some j →
    ∃ d, h.cell? j = some d ∧ d.parent = some i
  /-- a cell is reached by one way only -/
  unique : ∀ way other i, h.reach way = some i → h.reach other = some i → way = other
  /-- the keys anywhere to the left of a cell are smaller -/
  smaller : ∀ way below i j c d, h.reach way = some i → h.reach (way ++ .left :: below) = some j →
    h.cell? i = some c → h.cell? j = some d → d.key < c.key
  /-- the keys anywhere to the right of a cell are greater -/
  greater : ∀ way below i j c d, h.reach way = some i → h.reach (way ++ .right :: below) = some j →
    h.cell? i = some c → h.cell? j = some d → c.key < d.key
  /-- the size is the number of cells that can be reached -/
  size : ∃ is : List NodeId, is.Nodup ∧ (∀ i, i ∈ is ↔ ∃ way, h.reach way = some i) ∧ h.size = is.length
  /-- the root is absent exactly when the size is zero -/
  empty : h.root = none ↔ h.size = 0

end Linked

end MeteredStore
