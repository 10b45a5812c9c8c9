/-
Erasing a key, and the repair that comes before its node is taken out.

The node to be taken out (the doomed node) has at most one child, which takes its place. If it is black and its child is
not red, the paths through it are about to lose a black node. The repair runs while the doomed node is still in place:
starting at the doomed node it looks at the current node's parent and sibling. A red sibling is rotated up first. A
sibling without a red child becomes red, and the parent is looked at next. Otherwise one or two rotations around the
parent make up for the missing black, and the repair is over. At the end the current node is painted black.

`step` is one turn, `settle` runs turns to the end and keeps a record of them. `measure_step`: each turn lowers
`measure`, because it climbs, reaches a red node, or ends at the root.
-/
import MeteredStore.Tree.Rotation

namespace MeteredStore

/-- a tree in repair: the doomed node, the frames from the current node down to it (outermost first), and the path
above the current node -/
structure Removal where
  doomed : Tree
  below : List Frame
  above : Path
deriving DecidableEq, Repr

namespace Removal

/-- what a turn of the repair does; `lowered` tells whether a red sibling was rotated up over the parent first -/
inductive Turn where
  /-- the sibling gives up its black, and the parent is short of one -/
  | climb (lowered : Bool)
  /-- the sibling is rotated up over the parent; `straightened` tells whether its near child had to come up first -/
  | rotate (lowered straightened : Bool)
deriving DecidableEq, Repr

def Turn.rotations : Turn → Nat
  | .climb lowered => lowered.toNat
  | .rotate lowered straightened => lowered.toNat + straightened.toNat + 1

/-- the path from the doomed node to the root -/
def place (s : Removal) : Path := s.below.reverse ++ s.above

/-- the whole tree, the doomed node in it -/
def tree (s : Removal) : Tree := s.place.fill s.doomed

/-- the same state with left and right swapped -/
def mirror (s : Removal) : Removal := ⟨s.doomed.mirror, s.below.map Frame.mirror, s.above.mirror⟩

/-- colour of the current node -/
def color (s : Removal) : Color :=
  match s.below with
  | [] => s.doomed.color
  | f :: _ => f.color

/-- paints the current node black -/
def blacken (s : Removal) : Removal :=
  match s.below with
  | [] => { s with doomed := s.doomed.paint .black }
  | f :: below => { s with below := f.paint .black :: below }

/-- the sibling with a red child on its far side: if only the near child is red, it is rotated up first -/
def straighten? (parent : Frame) : Except Fault Tree :=
  if (parent.sibling.child parent.side.opposite).color = .red then .ok parent.sibling
  else
    match parent.sibling.paintChild? parent.side .black with
    | none => .error .nephewMissing
    | some sibling =>
      match (sibling.paint .red).rotate? parent.side.opposite with
      | none => .error .pivotMissing
      | some risen => .ok risen

/-- the rest of a turn, with a sibling that is not red -/
def resolve (s : Removal) (lowered : Bool) (parent : Frame) (top : Path) : Except Fault (Turn × Removal) :=
  let near := parent.sibling.child parent.side
  let far := parent.sibling.child parent.side.opposite
  if parent.sibling = .leaf then .error .siblingMissing
  else if near.color = .black ∧ far.color = .black then
    .ok (.climb lowered, { s with below := parent.paintSibling .red :: s.below, above := top })
  else
    match straighten? parent with
    | .error f => .error f
    | .ok sibling =>
      match (sibling.paint parent.color).paintChild? parent.side.opposite .black with
      | none => .error .nephewMissing
      | some sibling =>
        match ({ parent with color := .black, sibling := sibling } : Frame).sink? with
        | none => .error .pivotMissing
        | some (lower, upper) =>
          .ok (.rotate lowered (far.color = .black),
            { s with below := (lower :: upper :: top).reverse ++ s.below, above := [] })

/-- one turn, or `none` at the root and at a red node -/
def step (s : Removal) : Except Fault (Option (Turn × Removal)) :=
  match s.color, s.above with
  | .red, _ => .ok none
  | .black, [] => .ok none
  | .black, parent :: top =>
    if parent.sibling.color = .red then
      match ((parent.paint .red).paintSibling .black).sink? with
      | none => .error .pivotMissing
      | some (lower, upper) => (s.resolve true lower (upper :: top)).map some
    else (s.resolve false parent top).map some

/-- twice the way to the root, and one more while the current node is black -/
def measure (s : Removal) : Nat := 2 * s.above.length + if s.color = .black then 1 else 0

theorem measure_resolve {s t : Removal} {lowered : Bool} {parent : Frame} {top : Path} {turn : Turn}
    (h : s.resolve lowered parent top = .ok (turn, t)) :
    t.measure ≤ max 1 (2 * top.length + if parent.color = .black then 1 else 0) := by
  unfold resolve at h
  simp only at h
  split at h
  · simp at h
  · split at h
    · simp only [Except.ok.injEq, Prod.mk.injEq] at h
      obtain ⟨_, rfl⟩ := h
      exact Nat.le_max_right ..
    · split at h
      · simp at h
      · split at h
        · simp at h
        · split at h
          · simp at h
          · simp only [Except.ok.injEq, Prod.mk.injEq] at h
            obtain ⟨_, rfl⟩ := h
            apply Nat.le_trans _ (Nat.le_max_left ..)
            simp only [measure, List.length_nil]
            split <;> omega

theorem measure_step {s t : Removal} {turn : Turn} (h : s.step = .ok (some (turn, t))) : t.measure < s.measure := by
  unfold step at h
  split at h
  · simp at h
  · simp at h
  · next parent top hc ha =>
    have hs : s.measure = 2 * top.length + 3 := by simp [measure, hc, ha]; omega
    split at h
    · split at h
      · simp at h
      · next lower upper hk =>
        have hl : lower.color = .red := Frame.color_of_sink? hk
        cases hr : s.resolve true lower (upper :: top) with
        | error f => simp [hr, Except.map] at h
        | ok r =>
          simp only [hr, Except.map, Except.ok.injEq, Option.some.injEq] at h
          subst h
          have := measure_resolve hr
          simp only [hl, List.length_cons, reduceCtorEq, if_false] at this
          omega
    · cases hr : s.resolve false parent top with
      | error f => simp [hr, Except.map] at h
      | ok r =>
        simp only [hr, Except.map, Except.ok.injEq, Option.some.injEq] at h
        subst h
        have := measure_resolve hr
        split at this <;> omega

/-- runs turns until none is due; the turns in order, and the state they lead to -/
def settle (s : Removal) : Except Fault (List Turn × Removal) :=
  match _h : s.step with
  | .error f => .error f
  | .ok none => .ok ([], s)
  | .ok (some (turn, t)) =>
    match t.settle with
    | .error f => .error f
    | .ok (turns, u) => .ok (turn :: turns, u)
termination_by s.measure
decreasing_by exact measure_step _h

/-- the end of the repair: the tree with the doomed node still in it, the missing black made up for -/
def finish? (s : Removal) : Except Fault Removal := s.settle.map fun (_, t) => t.blacken

end Removal

namespace Tree

/-- what takes the place of a node with at most one child -/
def onlyChild : Tree → Tree
  | leaf => leaf
  | node _ leaf _ r => r
  | node _ l _ _ => l

/-- the node to take out so that the top entry goes. With at most one child it is the top node itself. With two, it is
the next node in order: its pair is written over the top one, which keeps its number -/
def doom (t : Tree) (path : Path) : Tree × Path :=
  match t with
  | node c (node cl ll el rl) e (node cr lr er rr) =>
    match (node cr lr er rr).leftmost [] with
    | (node cs ls es rs, below) =>
      (node cs ls es rs,
        below ++ ⟨.right, c, { e with key := es.key, value := es.value }, node cl ll el rl⟩ :: path)
    | (leaf, _) => (t, path)
  | _ => (t, path)

/-- takes out a node with at most one child, at the end of a path: the node as it was when its place was given away, and
the tree without it -/
def unlink? (doomed : Tree) (path : Path) : Except Fault (Tree × Tree) :=
  let child := doomed.onlyChild
  if doomed.color = .red then .ok (doomed, path.fill child)
  else if child.color = .red then .ok (doomed, path.fill (child.paint .black))
  else
    match (Removal.mk doomed [] path).finish? with
    | .error f => .error f
    | .ok s => .ok (s.doomed, s.place.fill child)

/-- takes out a key: the node that was unlinked and the tree without it, or `none` when the key is absent -/
def erase? (key : Bytes) (t : Tree) : Except Fault (Option (Tree × Tree)) :=
  match t.descend key [] with
  | (leaf, _) => .ok none
  | (found, path) =>
    let (doomed, place) := found.doom path
    (doomed.unlink? place).map some

end Tree

end MeteredStore
