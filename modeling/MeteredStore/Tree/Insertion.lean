/-
Inserting a key, and the repair that follows.

A new node is a red leaf at the place where the search ends, so no path gains a black node; only a red parent above it
is wrong. Each turn of the repair looks at the node in focus, its parent and its grandparent. A red uncle: parent and
uncle become black, the grandparent red, and the focus climbs two levels. Otherwise one or two rotations bring the
parent up, black, over a red grandparent, and the repair is over at the next look. At the end the root is painted black.

`step` is one turn, `settle` runs turns to the end and keeps a record of them. `length_path_step`: every turn shortens
the path above the focus.
-/
import MeteredStore.Tree.Rotation

namespace MeteredStore

/-- a tree in repair: a red node in focus, and the path above it -/
structure Insertion where
  focus : Tree
  path : Path
deriving DecidableEq, Repr

namespace Insertion

/-- what a turn of the repair does -/
inductive Turn where
  /-- the blacks of parent and uncle are exchanged with the grandparent's red -/
  | recolor
  /-- the parent is rotated up over the grandparent -/
  | rotate
  /-- the node is rotated up over its parent, then over the grandparent -/
  | rotateTwice
deriving DecidableEq, Repr

def Turn.rotations : Turn → Nat
  | .recolor => 0
  | .rotate => 1
  | .rotateTwice => 2

/-- the whole tree -/
def tree (s : Insertion) : Tree := s.path.fill s.focus

/-- the same state with left and right swapped -/
def mirror (s : Insertion) : Insertion := ⟨s.focus.mirror, s.path.mirror⟩

/-- the parent's subtree with its red child on side `s`: an inner child is rotated up first -/
def straighten? (s : Side) (parent : Frame) (focus : Tree) : Option Tree :=
  if parent.side = s then some (parent.fill focus) else (parent.fill focus).rotate? s

/-- one turn, or `none` when the parent is black or absent -/
def step (s : Insertion) : Except Fault (Option (Turn × Insertion)) :=
  match s.path with
  | [] => .ok none
  | parent :: above =>
    match parent.color, above with
    | .black, _ => .ok none
    | .red, [] => .error .grandparentMissing
    | .red, grand :: top =>
      if grand.sibling.color = .red then
        let family := ((grand.paint .red).paintSibling .black).fill ((parent.paint .black).fill s.focus)
        .ok (some (.recolor, ⟨family, top⟩))
      else
        let turned := do
          let hanging ← straighten? grand.side parent s.focus
          let family ← ((grand.paint .red).fill (hanging.paint .black)).rotate? grand.side.opposite
          family.down grand.side
        match turned with
        | none => .error .pivotMissing
        | some (lifted, focus) =>
          .ok (some (if parent.side = grand.side then .rotate else .rotateTwice, ⟨focus, lifted :: top⟩))

theorem length_path_step {s t : Insertion} {turn : Turn} (h : s.step = .ok (some (turn, t))) :
    t.path.length < s.path.length := by
  unfold step at h
  split at h
  · simp at h
  · next parent above hp =>
    split at h
    · simp at h
    · simp at h
    · next grand top _ =>
      simp only at h
      split at h
      · simp only [Except.ok.injEq, Option.some.injEq, Prod.mk.injEq] at h
        obtain ⟨_, rfl⟩ := h
        simp only [hp, List.length_cons]
        omega
      · split at h
        · simp at h
        · simp only [Except.ok.injEq, Option.some.injEq, Prod.mk.injEq] at h
          obtain ⟨_, rfl⟩ := h
          simp [hp]

/-- runs turns until none is due; the turns in order, and the state they lead to -/
def settle (s : Insertion) : Except Fault (List Turn × Insertion) :=
  match _h : s.step with
  | .error f => .error f
  | .ok none => .ok ([], s)
  | .ok (some (turn, t)) =>
    match t.settle with
    | .error f => .error f
    | .ok (turns, u) => .ok (turn :: turns, u)
termination_by s.path.length
decreasing_by exact length_path_step _h

/-- the tree at the end of the repair, its root black -/
def finish? (s : Insertion) : Except Fault Tree := do
  let (_, t) ← s.settle
  match t.tree.paint? .black with
  | none => .error .rootMissing
  | some root => .ok root

end Insertion

namespace Tree

/-- a new node: red and without children -/
def single (e : Entry) : Tree := node .red leaf e leaf

/-- puts a pair at its key: into the node that has the key, or into a new node with number `i`; tells which -/
def insert? (i : NodeId) (key value : Bytes) (t : Tree) : Except Fault (Bool × Tree) :=
  match t.descend key [] with
  | (node c l e r, path) => .ok (false, path.fill (node c l { e with value := value } r))
  | (leaf, path) =>
    match (Insertion.mk (single ⟨i, key, value⟩) path).finish? with
    | .error f => .error f
    | .ok root => .ok (true, root)

end Tree

end MeteredStore
