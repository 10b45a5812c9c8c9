/-
Binary search trees with coloured nodes that have an identity.

An entry sits at a node: the node's number, fixed when the node is made, and the key and value it holds at present. A
node keeps its number when it is recoloured, when it is moved by a rotation, and when another pair is written into it;
this is what lets a cursor hold on to a node while the tree changes.

`entries` reads a tree in order, `nodes` as a set of records that name each other by number, `mirror` swaps the sides.
-/
import MeteredStore.Bytes

namespace MeteredStore

inductive Color where
  | red
  | black
deriving DecidableEq, Repr

inductive Side where
  | left
  | right
deriving DecidableEq, Repr

def Side.opposite : Side → Side
  | .left => .right
  | .right => .left

/-- the number that identifies a node for as long as anything refers to it -/
abbrev NodeId := Nat

/-- what a node holds -/
structure Entry where
  id : NodeId
  key : Bytes
  value : Bytes
deriving DecidableEq, Repr

inductive Tree where
  | leaf
  | node (color : Color) (left : Tree) (entry : Entry) (right : Tree)
deriving DecidableEq, Repr

/-- a node as a record of its own: its children are named by number -/
structure Node where
  color : Color
  entry : Entry
  left : Option NodeId
  right : Option NodeId
deriving DecidableEq, Repr

def Node.child (n : Node) : Side → Option NodeId
  | .left => n.left
  | .right => n.right

@[simp] theorem Side.opposite_opposite (s : Side) : s.opposite.opposite = s := by cases s <;> rfl

theorem Color.eq_black_of_ne {c : Color} (h : c ≠ .red) : c = .black := by
  cases c with
  | red => exact absurd rfl h
  | black => rfl

namespace Tree

/-! ## The top of a tree -/

/-- the number of the top node, if there is one -/
def topId : Tree → Option NodeId
  | leaf => none
  | node _ _ e _ => some e.id

/-- the record of the top node, if there is one -/
def top? : Tree → Option Node
  | leaf => none
  | node c l e r => some ⟨c, e, l.topId, r.topId⟩

/-- an absent child counts as black -/
def color : Tree → Color
  | leaf => .black
  | node c _ _ _ => c

def child : Tree → Side → Tree
  | leaf, _ => leaf
  | node _ l _ _, .left => l
  | node _ _ _ r, .right => r

/-- recolours the top node; an absent one cannot be recoloured -/
def paint? (c : Color) : Tree → Option Tree
  | leaf => none
  | node _ l e r => some (node c l e r)

/-- recolours the top node if there is one -/
def paint (c : Color) : Tree → Tree
  | leaf => leaf
  | node _ l e r => node c l e r

/-! ## Views -/

/-- the entries from left to right -/
def entries : Tree → List Entry
  | leaf => []
  | node _ l e r => l.entries ++ e :: r.entries

/-- the pairs of key and value from left to right -/
def toList (t : Tree) : List (Bytes × Bytes) := t.entries.map fun e => (e.key, e.value)

/-- the nodes from left to right as records -/
def nodes : Tree → List Node
  | leaf => []
  | node c l e r => l.nodes ++ ⟨c, e, l.topId, r.topId⟩ :: r.nodes

/-- number of nodes -/
def size : Tree → Nat
  | leaf => 0
  | node _ l _ r => l.size + 1 + r.size

/-- number of nodes on the longest way down -/
def height : Tree → Nat
  | leaf => 0
  | node _ l _ r => max l.height r.height + 1

/-- swaps left and right everywhere -/
def mirror : Tree → Tree
  | leaf => leaf
  | node c l e r => node c r.mirror e l.mirror

/-- the part of the tree below the node with number `i` -/
def subtree? (i : NodeId) : Tree → Option Tree
  | leaf => none
  | node c l e r =>
    if e.id = i then some (node c l e r)
    else match l.subtree? i with
      | some t => some t
      | none => r.subtree? i

@[simp] theorem mirror_mirror (t : Tree) : t.mirror.mirror = t := by
  induction t with
  | leaf => rfl
  | node c l e r ihl ihr => simp [mirror, ihl, ihr]

theorem entries_mirror (t : Tree) : t.mirror.entries = t.entries.reverse := by
  induction t with
  | leaf => rfl
  | node c l e r ihl ihr => simp [mirror, entries, ihl, ihr]

theorem length_entries (t : Tree) : t.entries.length = t.size := by
  induction t with
  | leaf => rfl
  | node c l e r ihl ihr => simp [entries, size, ihl, ihr]; omega

theorem map_entry_nodes (t : Tree) : t.nodes.map Node.entry = t.entries := by
  induction t with
  | leaf => rfl
  | node c l e r ihl ihr => simp [nodes, entries, ihl, ihr]

@[simp] theorem entries_paint (c : Color) (t : Tree) : (t.paint c).entries = t.entries := by
  cases t <;> rfl

end Tree

end MeteredStore
