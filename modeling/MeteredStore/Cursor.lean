/-
Live cursors: walks over a range of a map that goes on changing.

A cursor holds a stack of node numbers. On top is the node whose turn is next, and below it the nodes on whose near side
the walk still is. A step takes the top node, looks at the key it has now, and either ends the walk, when the key lies
beyond the range, or answers the pair it has now and pushes the way to the nodes that come next. Near-side keys are left
out while the way is pushed, far-side keys when their turn comes.

Between two steps the tree may be rotated, a pair may be written over another, and a node on the stack may be taken out;
a detached node answers with its last record, and its children are looked up by number like any others.

`stack_of_next_eq_none`: a walk that finds nothing is over; `next_of_done`: it stays over.
-/
import MeteredStore.Bounds
import MeteredStore.SortedMap

namespace MeteredStore

structure Cursor where
  bounds : Bounds
  direction : Direction
  /-- the node whose turn is next comes first -/
  stack : List NodeId
deriving DecidableEq, Repr

namespace Cursor

/-! ## Pushing the way down -/

/-- pushes the way from the top of a tree to its first key in range -/
def pushTree (b : Bounds) (d : Direction) : Tree → List NodeId → List NodeId
  | .leaf, stack => stack
  | .node _ l e r, stack =>
    match d with
    | .ascending => if b.isNear d e.key then pushTree b d r stack else pushTree b d l (e.id :: stack)
    | .descending => if b.isNear d e.key then pushTree b d l stack else pushTree b d r (e.id :: stack)

/-- pushes the way from a node given by number. The list holds the detached nodes among which it may be, oldest first: a
detached node's child was in the tree when the node was taken out, so if it is detached it comes later in the list -/
def pushLink (root : Tree) (b : Bounds) (d : Direction) : List Node → Option NodeId → List NodeId → List NodeId
  | _, none, stack => stack
  | detached, some i, stack =>
    match root.subtree? i with
    | some t => pushTree b d t stack
    | none =>
      match detached with
      | [] => stack
      | n :: later =>
        if n.entry.id = i then
          if b.isNear d n.entry.key then pushLink root b d later (n.child d.onward) stack
          else pushLink root b d later (n.child d.onward.opposite) (i :: stack)
        else pushLink root b d later (some i) stack

/-! ## Walking -/

/-- a cursor before the first key in range -/
def start (m : SortedMap) (b : Bounds) (d : Direction) : Cursor := ⟨b, d, pushTree b d m.root []⟩

/-- the walk is over -/
def stop (c : Cursor) : Cursor := { c with stack := [] }

/-- the next pair, or `none` at the end of the walk -/
def next (m : SortedMap) (c : Cursor) : Option (Bytes × Bytes) × Cursor :=
  match c.stack with
  | [] => (none, c)
  | i :: stack =>
    match m.node? i with
    | none => (none, c.stop)
    | some n =>
      if c.bounds.isFar c.direction n.entry.key then (none, c.stop)
      else
        let stack := pushLink m.root c.bounds c.direction m.detached (n.child c.direction.onward) stack
        (some (n.entry.key, n.entry.value), { c with stack := stack })

/-- at most so many pairs are left: each node on the stack stands for itself and for nodes that it leads to -/
def supply (m : SortedMap) (c : Cursor) : Nat := c.stack.length * m.nodes.length

/-- takes pairs, at most `n` -/
def take (m : SortedMap) : Nat → Cursor → List (Bytes × Bytes) × Cursor
  | 0, c => ([], c)
  | n + 1, c =>
    match c.next m with
    | (none, c) => ([], c)
    | (some pair, c) =>
      let (pairs, c) := take m n c
      (pair :: pairs, c)

/-- takes the pairs that are left -/
def drain (m : SortedMap) (c : Cursor) : List (Bytes × Bytes) × Cursor := c.take m (c.supply m + 1)

theorem stack_of_next_eq_none {m : SortedMap} {c : Cursor} (h : (c.next m).1 = none) : (c.next m).2.stack = [] := by
  unfold next at h ⊢
  split
  · assumption
  · split
    · rfl
    · split
      · rfl
      · simp_all

/-- a walk that is over stays over, whatever becomes of the map -/
theorem next_of_done {m : SortedMap} {c : Cursor} (h : c.stack = []) : c.next m = (none, c) := by
  simp [next, h]

end Cursor

/-- the pairs of a map in a range, in the order of a walk -/
def SortedMap.range (m : SortedMap) (b : Bounds) (d : Direction) : List (Bytes × Bytes) :=
  ((Cursor.start m b d).drain m).1

end MeteredStore
