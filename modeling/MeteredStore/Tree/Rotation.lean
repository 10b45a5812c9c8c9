/-
Rotations.

To rotate a node towards a side, its child on the other side (the pivot) takes its place, and the node goes down to
that side and takes over the pivot's inner child. In frames: the node is a frame with a hole at the pivot, the pivot a
frame with a hole at the inner child, and the two frames change places. Colours stay with their nodes.

`entries_rotate?`: the order of the entries does not change. `rotate?_mirror`: a rotation is the mirror image of the
rotation towards the opposite side. `sink?` is the rotation of a node towards its hole, for a tree that is being worked
on below: `rotate?_fill`, it is the same rotation.
-/
import MeteredStore.Tree.Path

namespace MeteredStore

/-- what a repair needs at its place in the tree and may find missing; no reachable tree lets it -/
inductive Fault where
  /-- a red node with a red parent at the top -/
  | grandparentMissing
  /-- no node to rotate up -/
  | pivotMissing
  /-- no sibling beside a node that lacks a black -/
  | siblingMissing
  /-- no child of the sibling to recolour -/
  | nephewMissing
  /-- no root to blacken -/
  | rootMissing
deriving DecidableEq, Repr

namespace Tree

/-- rotates the top node down towards side `s` -/
def rotate? (s : Side) (t : Tree) : Option Tree := do
  let (upper, pivot) ← t.down s.opposite
  let (lower, inner) ← pivot.down s
  return lower.fill (upper.fill inner)

/-- recolours the child on side `s` -/
def paintChild? (s : Side) (c : Color) (t : Tree) : Option Tree := do
  let (f, u) ← t.down s
  return f.fill (← u.paint? c)

theorem entries_fill (f : Frame) (t : Tree) :
    (f.fill t).entries = match f.side with
      | .left => t.entries ++ f.entry :: f.sibling.entries
      | .right => f.sibling.entries ++ f.entry :: t.entries := by
  obtain ⟨s, c, e, b⟩ := f
  cases s <;> rfl

theorem rotate?_left (c d : Color) (e p : Entry) (a b r : Tree) :
    (node c a e (node d b p r)).rotate? .left = some (node d (node c a e b) p r) := rfl

theorem rotate?_right (c d : Color) (e p : Entry) (a b r : Tree) :
    (node c (node d a p b) e r).rotate? .right = some (node d a p (node c b e r)) := rfl

/-- the node and its pivot, whichever side they are on -/
theorem eq_some_of_rotate? {s : Side} {t u : Tree} (h : t.rotate? s = some u) :
    ∃ c d e p a b r,
      (s = .left ∧ t = node c a e (node d b p r) ∧ u = node d (node c a e b) p r) ∨
      (s = .right ∧ t = node c (node d a p b) e r ∧ u = node d a p (node c b e r)) := by
  cases t with
  | leaf => simp [rotate?, down] at h
  | node c l e r =>
    cases s with
    | left =>
      cases r with
      | leaf => simp [rotate?, down, Side.opposite] at h
      | node d b p r =>
        rw [rotate?_left, Option.some.injEq] at h
        exact ⟨c, d, e, p, l, b, r, .inl ⟨rfl, rfl, h.symm⟩⟩
    | right =>
      cases l with
      | leaf => simp [rotate?, down, Side.opposite] at h
      | node d a p b =>
        rw [rotate?_right, Option.some.injEq] at h
        exact ⟨c, d, e, p, a, b, r, .inr ⟨rfl, rfl, h.symm⟩⟩

theorem entries_rotate? {s : Side} {t u : Tree} (h : t.rotate? s = some u) : u.entries = t.entries := by
  obtain ⟨c, d, e, p, a, b, r, ⟨_, rfl, rfl⟩ | ⟨_, rfl, rfl⟩⟩ := eq_some_of_rotate? h <;> simp [entries]

theorem rotate?_mirror (s : Side) (t : Tree) :
    t.mirror.rotate? s.opposite = (t.rotate? s).map mirror := by
  cases t with
  | leaf => rfl
  | node c l e r =>
    cases s with
    | left => cases r <;> rfl
    | right => cases l <;> rfl

end Tree

namespace Frame

/-- another colour for the node -/
def paint (f : Frame) (c : Color) : Frame := { f with color := c }

/-- another colour for the sibling -/
def paintSibling (f : Frame) (c : Color) : Frame := { f with sibling := f.sibling.paint c }

/-- rotates the node down towards its hole: its own frame, and that of the sibling which came up over it -/
def sink? (f : Frame) : Option (Frame × Frame) := do
  let (upper, inner) ← f.sibling.down f.side
  return ({ f with sibling := inner }, upper)

theorem color_of_sink? {f lower upper : Frame} (h : f.sink? = some (lower, upper)) : lower.color = f.color := by
  unfold sink? at h
  cases hd : f.sibling.down f.side with
  | none => simp [hd] at h
  | some d => simp only [hd, Option.bind_eq_bind, Option.bind_some, Option.pure_def, Option.some.injEq,
      Prod.mk.injEq] at h; rw [← h.1]

theorem rotate?_fill (f : Frame) (t : Tree) :
    (f.fill t).rotate? f.side = f.sink?.map fun (inner, outer) => outer.fill (inner.fill t) := by
  obtain ⟨s, c, e, b⟩ := f
  cases s <;> cases b <;> rfl

end Frame

end MeteredStore
