/-
The ordered map from byte strings to byte strings.

The map is a red-black tree with a count of its nodes. A node that is taken out of the tree is not forgotten: a cursor
may still hold its number, so its last record is kept, unchanged from then on, in the order of removal. `node?` finds any
node that was ever made by its number, in the tree or among the detached ones.

`insert?` and `erase?` say so when the tree lacks a node that its repair needs; `insert` and `erase` then leave the map
as it is. No map made by `insert` and `erase` from the empty one gets there.
-/
import MeteredStore.Tree.Insertion
import MeteredStore.Tree.Removal

namespace MeteredStore

structure SortedMap where
  root : Tree
  size : Nat
  /-- the nodes taken out, oldest first -/
  detached : List Node
  /-- the number of the next new node -/
  fresh : NodeId
deriving DecidableEq, Repr

namespace SortedMap

def empty : SortedMap := ⟨.leaf, 0, [], 0⟩

/-! ## Reading -/

def get? (m : SortedMap) (key : Bytes) : Option Bytes :=
  match (m.root.descend key []).1 with
  | .leaf => none
  | .node _ _ e _ => some e.value

def contains (m : SortedMap) (key : Bytes) : Bool :=
  match (m.root.descend key []).1 with
  | .leaf => false
  | .node _ _ _ _ => true

/-- the bindings in the order of their keys -/
def toList (m : SortedMap) : List (Bytes × Bytes) := m.root.toList

/-- every node ever made: those in the tree, then the detached ones -/
def nodes (m : SortedMap) : List Node := m.root.nodes ++ m.detached

/-- the node with a number, as it is now or as it was when it was taken out -/
def node? (m : SortedMap) (i : NodeId) : Option Node := m.nodes.find? fun n => n.entry.id = i

theorem contains_eq (m : SortedMap) (key : Bytes) : m.contains key = (m.get? key).isSome := by
  unfold contains get?
  split <;> rfl

/-! ## Writing -/

def insert? (m : SortedMap) (key value : Bytes) : Except Fault SortedMap :=
  match m.root.insert? m.fresh key value with
  | .error f => .error f
  | .ok (false, root) => .ok { m with root := root }
  | .ok (true, root) => .ok { m with root := root, size := m.size + 1, fresh := m.fresh + 1 }

/-- also tells whether the key was there -/
def erase? (m : SortedMap) (key : Bytes) : Except Fault (Bool × SortedMap) :=
  match m.root.erase? key with
  | .error f => .error f
  | .ok none => .ok (false, m)
  | .ok (some (doomed, root)) =>
    .ok (true, { m with root := root, size := m.size - 1, detached := m.detached ++ doomed.top?.toList })

def insert (m : SortedMap) (key value : Bytes) : SortedMap :=
  match m.insert? key value with
  | .error _ => m
  | .ok n => n

def erase (m : SortedMap) (key : Bytes) : Bool × SortedMap :=
  match m.erase? key with
  | .error _ => (false, m)
  | .ok r => r

end SortedMap

end MeteredStore
