/-
Repairs are the same on either side.

A turn of a repair is written once for both sides. So on the mirror image of a tree in repair each turn is the mirror image of
the turn: it is the same turn, to the mirror image of the next state, or it misses the same node (`Insertion.step_mirror`,
`Removal.step_mirror`). Colours and numbers of nodes do not change sides.
-/
import MeteredStore.Proofs.Insertion
import MeteredStore.Proofs.Removal

namespace MeteredStore

theorem Side.opposite_inj {s t : Side} : s.opposite = t.opposite ↔ s = t := by cases s <;> cases t <;> decide

/-! ## Trees and frames -/

namespace Tree

@[simp] theorem color_mirror (t : Tree) : t.mirror.color = t.color := by cases t <;> rfl

@[simp] theorem topId_mirror (t : Tree) : t.mirror.topId = t.topId := by cases t <;> rfl

@[simp] theorem paint_mirror (c : Color) (t : Tree) : t.mirror.paint c = (t.paint c).mirror := by cases t <;> rfl

@[simp] theorem mirror_eq_leaf {t : Tree} : t.mirror = leaf ↔ t = leaf := by cases t <;> simp [mirror]

theorem child_mirror (t : Tree) (s : Side) : t.mirror.child s.opposite = (t.child s).mirror := by
  cases t with
  | leaf => rfl
  | node c l e r => cases s <;> rfl

theorem paintChild?_mirror (s : Side) (c : Color) (t : Tree) :
    t.mirror.paintChild? s.opposite c = (t.paintChild? s c).map mirror := by
  cases t with
  | leaf => rfl
  | node d l e r =>
    cases s with
    | left => cases l <;> rfl
    | right => cases r <;> rfl

end Tree

namespace Frame

@[simp] theorem side_mirror (f : Frame) : f.mirror.side = f.side.opposite := rfl

@[simp] theorem color_mirror (f : Frame) : f.mirror.color = f.color := rfl

@[simp] theorem sibling_mirror (f : Frame) : f.mirror.sibling = f.sibling.mirror := rfl

@[simp] theorem paint_mirror (f : Frame) (c : Color) : f.mirror.paint c = (f.paint c).mirror := rfl

@[simp] theorem paintSibling_mirror (f : Frame) (c : Color) : f.mirror.paintSibling c = (f.paintSibling c).mirror := by
  simp [paintSibling, mirror]

theorem sink?_mirror (f : Frame) : f.mirror.sink? = f.sink?.map (Prod.map mirror mirror) := by
  obtain ⟨s, c, e, b⟩ := f
  cases s <;> cases b <;> rfl

end Frame

/-! ## After a node was hung in -/

namespace Insertion

theorem straighten?_mirror (s : Side) (parent : Frame) (focus : Tree) :
    straighten? s.opposite parent.mirror focus.mirror = (straighten? s parent focus).map Tree.mirror := by
  simp only [straighten?, Frame.side_mirror, Side.opposite_inj, ← Frame.mirror_fill, Tree.rotate?_mirror]
  split <;> rfl

theorem turned?_mirror (parent grand : Frame) (focus : Tree) :
    turned? parent.mirror grand.mirror focus.mirror =
      (turned? parent grand focus).map (Prod.map Frame.mirror Tree.mirror) := by
  rw [turned?, turned?, Frame.side_mirror, straighten?_mirror]
  cases straighten? grand.side parent focus with
  | none => rfl
  | some hanging =>
    simp only [Option.map_some, Option.bind_eq_bind, Option.bind_some, Frame.paint_mirror, Tree.paint_mirror,
      ← Frame.mirror_fill, Tree.rotate?_mirror]
    cases ((grand.paint .red).fill (hanging.paint .black)).rotate? grand.side.opposite with
    | none => rfl
    | some family => exact Tree.down_mirror grand.side family

/-- a turn of the mirror image is the mirror image of the turn -/
theorem step_mirror (s : Insertion) : s.mirror.step = s.step.map (Option.map (Prod.map id mirror)) := by
  obtain ⟨focus, path⟩ := s
  cases path with
  | nil => rfl
  | cons parent above =>
    obtain ⟨side, color, e, b⟩ := parent
    cases color with
    | black => rfl
    | red =>
      cases above with
      | nil => rfl
      | cons grand top =>
        rw [step_eq_turned? ⟨side, .red, e, b⟩ grand top focus rfl]
        have hmirror := step_eq_turned? (Frame.mirror ⟨side, .red, e, b⟩) grand.mirror (Path.mirror top) focus.mirror rfl
        refine hmirror.trans ?_
        simp only [Frame.sibling_mirror, Tree.color_mirror, turned?_mirror, Frame.side_mirror, Side.opposite_inj]
        split
        · simp only [Frame.paint_mirror, Frame.paintSibling_mirror, ← Frame.mirror_fill]
          rfl
        · cases turned? ⟨side, .red, e, b⟩ grand focus <;> rfl

end Insertion

/-! ## Before a node is taken out -/

namespace Removal

@[simp] theorem color_mirror (s : Removal) : s.mirror.color = s.color := by
  obtain ⟨doomed, below, above⟩ := s
  cases below with
  | nil => exact Tree.color_mirror doomed
  | cons f below => rfl

theorem straighten?_mirror (parent : Frame) : straighten? parent.mirror = (straighten? parent).map Tree.mirror := by
  simp only [straighten?, Frame.side_mirror, Frame.sibling_mirror, Tree.child_mirror, Tree.color_mirror,
    Tree.paintChild?_mirror]
  split
  · rfl
  · cases parent.sibling.paintChild? parent.side .black with
    | none => rfl
    | some sibling =>
      simp only [Option.map_some, Tree.paint_mirror, Tree.rotate?_mirror]
      cases (sibling.paint .red).rotate? parent.side.opposite <;> rfl

theorem resolve_mirror (s : Removal) (lowered : Bool) (parent : Frame) (top : Path) :
    s.mirror.resolve lowered parent.mirror (Path.mirror top) =
      (s.resolve lowered parent top).map (Prod.map id mirror) := by
  simp only [resolve, Frame.sibling_mirror, Frame.side_mirror, Frame.color_mirror, Tree.child_mirror, Tree.color_mirror,
    Tree.mirror_eq_leaf, straighten?_mirror]
  split
  · rfl
  · split
    · simp only [Frame.paintSibling_mirror]
      rfl
    · cases straighten? parent with
      | error f => rfl
      | ok sibling =>
        simp only [Except.map, Tree.paint_mirror, Tree.paintChild?_mirror]
        cases (sibling.paint parent.color).paintChild? parent.side.opposite .black with
        | none => rfl
        | some risen =>
          have hsink := Frame.sink?_mirror { parent with color := .black, sibling := risen }
          simp only [Frame.mirror] at hsink
          simp only [Option.map_some, Frame.mirror, hsink]
          cases ({ parent with color := .black, sibling := risen } : Frame).sink? with
          | none => rfl
          | some frames =>
            obtain ⟨lower, upper⟩ := frames
            simp [mirror, Path.mirror, Prod.map]

/-- a turn of the mirror image is the mirror image of the turn -/
theorem step_mirror (s : Removal) : s.mirror.step = s.step.map (Option.map (Prod.map id mirror)) := by
  have habove : s.mirror.above = Path.mirror s.above := rfl
  rw [step, step, color_mirror, habove]
  cases s.color with
  | red => cases s.above <;> rfl
  | black =>
    cases s.above with
    | nil => rfl
    | cons parent top =>
      simp only [Path.mirror, List.map_cons, Frame.sibling_mirror, Tree.color_mirror, Frame.paint_mirror,
        Frame.paintSibling_mirror, Frame.sink?_mirror]
      split
      · cases ((parent.paint .red).paintSibling .black).sink? with
        | none => rfl
        | some frames =>
          -- a red sibling came up: the rest of the turn is done below it
          obtain ⟨lower, upper⟩ := frames
          have hresolve := resolve_mirror s true lower (upper :: top)
          simp only [Path.mirror, List.map_cons] at hresolve
          simp only [Option.map_some, Prod.map, hresolve]
          cases s.resolve true lower (upper :: top) <;> rfl
      · have hresolve := resolve_mirror s false parent top
        simp only [Path.mirror] at hresolve
        rw [hresolve]
        cases s.resolve false parent top <;> rfl

end Removal

end MeteredStore
