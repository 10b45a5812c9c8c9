/-
Places in a tree.

A frame is a node without one of its children; a path, innermost frame first, is a tree with one hole. `fill` puts a
tree into the hole, `down` opens a hole at a child: `fill_down` and `down_fill` say that they undo each other. What
hangs in the hole and the frames around it are all that the repair loops look at, so a node's parent is the first frame
of its path.

`descend` is the search that every operation on keys makes: `fill_descend`, it only moves the hole.
-/
import MeteredStore.Tree.Basic

namespace MeteredStore

/-- a node with a hole on `side`; `sibling` is its other child -/
structure Frame where
  side : Side
  color : Color
  entry : Entry
  sibling : Tree
deriving DecidableEq, Repr

/-- the frames around a hole, innermost first -/
abbrev Path := List Frame

namespace Frame

/-- hangs a tree into the hole -/
def fill (f : Frame) (t : Tree) : Tree :=
  match f.side with
  | .left => .node f.color t f.entry f.sibling
  | .right => .node f.color f.sibling f.entry t

/-- the same node with left and right swapped -/
def mirror (f : Frame) : Frame := { f with side := f.side.opposite, sibling := f.sibling.mirror }

theorem mirror_fill (f : Frame) (t : Tree) : (f.fill t).mirror = f.mirror.fill t.mirror := by
  obtain ⟨s, c, e, b⟩ := f
  cases s <;> rfl

end Frame

namespace Path

/-- hangs a tree into the hole of a path -/
def fill (p : Path) (t : Tree) : Tree := p.foldl (fun t f => f.fill t) t

@[simp] theorem fill_nil (t : Tree) : fill [] t = t := rfl

@[simp] theorem fill_cons (f : Frame) (p : Path) (t : Tree) : fill (f :: p) t = fill p (f.fill t) := rfl

theorem fill_append (p q : Path) (t : Tree) : fill (p ++ q) t = fill q (fill p t) := List.foldl_append

/-- left and right swapped in every frame -/
def mirror (p : Path) : Path := p.map Frame.mirror

theorem mirror_fill (p : Path) (t : Tree) : (fill p t).mirror = fill p.mirror t.mirror := by
  induction p generalizing t with
  | nil => rfl
  | cons f p ih => simp only [mirror, fill_cons, List.map_cons, ih, Frame.mirror_fill]

end Path

namespace Tree

/-- opens a hole at the child on side `s`: the frame around it, and what hung there -/
def down (s : Side) : Tree → Option (Frame × Tree)
  | leaf => none
  | node c l e r =>
    match s with
    | .left => some (⟨.left, c, e, r⟩, l)
    | .right => some (⟨.right, c, e, l⟩, r)

theorem down_fill (f : Frame) (t : Tree) : (f.fill t).down f.side = some (f, t) := by
  obtain ⟨s, c, e, b⟩ := f
  cases s <;> rfl

theorem fill_down {s : Side} {t u : Tree} {f : Frame} (h : t.down s = some (f, u)) : f.fill u = t := by
  cases t with
  | leaf => simp [down] at h
  | node c l e r => cases s <;> simp only [down, Option.some.injEq, Prod.mk.injEq] at h <;> grind [Frame.fill]

theorem side_of_down {s : Side} {t u : Tree} {f : Frame} (h : t.down s = some (f, u)) : f.side = s := by
  cases t with
  | leaf => simp [down] at h
  | node c l e r => cases s <;> simp only [down, Option.some.injEq, Prod.mk.injEq] at h <;> grind

theorem down_mirror (s : Side) (t : Tree) :
    t.mirror.down s.opposite = (t.down s).map fun (f, u) => (f.mirror, u.mirror) := by
  cases t with
  | leaf => rfl
  | node c l e r => cases s <;> rfl

/-- follows the key from a tree at the end of a path to the node that holds it, or to the empty place where it belongs -/
def descend (key : Bytes) : Tree → Path → Tree × Path
  | leaf, path => (leaf, path)
  | node c l e r, path =>
    if key < e.key then l.descend key (⟨.left, c, e, r⟩ :: path)
    else if e.key < key then r.descend key (⟨.right, c, e, l⟩ :: path)
    else (node c l e r, path)

/-- follows the left children from a tree at the end of a path down to the last node -/
def leftmost : Tree → Path → Tree × Path
  | leaf, path => (leaf, path)
  | node c leaf e r, path => (node c leaf e r, path)
  | node c (node cl ll el rl) e r, path => (node cl ll el rl).leftmost (⟨.left, c, e, r⟩ :: path)

theorem fill_descend (key : Bytes) (t : Tree) (p : Path) :
    (t.descend key p).2.fill (t.descend key p).1 = p.fill t := by
  fun_induction descend key t p with
  | case1 => rfl
  | case2 p c l e r h ih => simp [ih, Frame.fill]
  | case3 p c l e r h k ih => simp [ih, Frame.fill]
  | case4 => rfl

theorem fill_leftmost (t : Tree) (p : Path) : (t.leftmost p).2.fill (t.leftmost p).1 = p.fill t := by
  fun_induction leftmost t p with
  | case1 => rfl
  | case2 => rfl
  | case3 p c e r cl ll el rl ih => simp [ih, Frame.fill]

/-- a search ends at its key or at an empty place -/
theorem descend_key {key : Bytes} {t : Tree} {p q : Path} {c : Color} {l r : Tree} {e : Entry}
    (h : t.descend key p = (node c l e r, q)) : e.key = key := by
  fun_induction descend key t p with
  | case1 => simp at h
  | case2 p c l e r _ ih => exact ih h
  | case3 p c l e r _ _ ih => exact ih h
  | case4 p c l e r k m =>
    simp only [Prod.mk.injEq, node.injEq] at h
    obtain ⟨⟨_, _, rfl, _⟩, _⟩ := h
    exact Bytes.eq_of_not_lt m k

end Tree

end MeteredStore
