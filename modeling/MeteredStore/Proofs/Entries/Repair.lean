/-
Repairs do not look at entries.

Rotations, the repair after a node was hung in and the repair before one is taken out look at colours and at places only. So
each of them, done on a tree with other entries, does the same and comes to the same end, a fault included, with the other
entries in the nodes (`Insertion.finish?_map`, `Removal.finish?_map`, `Tree.unlink?_map`).
-/
import MeteredStore.Proofs.Entries.Trees
import MeteredStore.Proofs.Insertion
import MeteredStore.Proofs.Removal

namespace MeteredStore

variable {φ : Entry → Entry}

/-! ## Rotations -/

namespace Tree

theorem rotate?_map (φ : Entry → Entry) (s : Side) (t : Tree) : (t.map φ).rotate? s = (t.rotate? s).map (map φ) := by
  cases t with
  | leaf => rfl
  | node c l e r =>
    cases s with
    | left => cases r <;> rfl
    | right => cases l <;> rfl

theorem paintChild?_map (φ : Entry → Entry) (s : Side) (c : Color) (t : Tree) :
    (t.map φ).paintChild? s c = (t.paintChild? s c).map (map φ) := by
  cases t with
  | leaf => rfl
  | node k l e r =>
    cases s with
    | left => cases l <;> rfl
    | right => cases r <;> rfl

end Tree

namespace Frame

@[simp] theorem side_map (φ : Entry → Entry) (f : Frame) : (f.map φ).side = f.side := rfl

@[simp] theorem color_map (φ : Entry → Entry) (f : Frame) : (f.map φ).color = f.color := rfl

@[simp] theorem sibling_map (φ : Entry → Entry) (f : Frame) : (f.map φ).sibling = f.sibling.map φ := rfl

@[simp] theorem paint_map (φ : Entry → Entry) (f : Frame) (c : Color) : (f.map φ).paint c = (f.paint c).map φ := rfl

@[simp] theorem paintSibling_map (φ : Entry → Entry) (f : Frame) (c : Color) :
    (f.map φ).paintSibling c = (f.paintSibling c).map φ := by
  simp [paintSibling, map]

theorem sink?_map (φ : Entry → Entry) (f : Frame) : (f.map φ).sink? = f.sink?.map (Prod.map (map φ) (map φ)) := by
  obtain ⟨s, c, e, b⟩ := f
  cases s <;> cases b <;> rfl

end Frame

/-! ## After a node was hung in -/

namespace Insertion

/-- other entries in all nodes -/
def map (φ : Entry → Entry) (s : Insertion) : Insertion := ⟨s.focus.map φ, List.map (Frame.map φ) s.path⟩

theorem straighten?_map (φ : Entry → Entry) (s : Side) (parent : Frame) (focus : Tree) :
    straighten? s (parent.map φ) (focus.map φ) = (straighten? s parent focus).map (Tree.map φ) := by
  rw [straighten?, straighten?, Frame.side_map, Frame.fill_map, Tree.rotate?_map]
  split <;> rfl

theorem turned?_map (φ : Entry → Entry) (parent grand : Frame) (focus : Tree) :
    turned? (parent.map φ) (grand.map φ) (focus.map φ) =
      (turned? parent grand focus).map (Prod.map (Frame.map φ) (Tree.map φ)) := by
  rw [turned?, turned?, Frame.side_map, straighten?_map]
  cases straighten? grand.side parent focus with
  | none => rfl
  | some hanging =>
    simp only [Option.map_some, Option.bind_eq_bind, Option.bind_some, Frame.paint_map, Tree.paint_map, Frame.fill_map,
      Tree.rotate?_map]
    cases ((grand.paint .red).fill (hanging.paint .black)).rotate? grand.side.opposite with
    | none => rfl
    | some family => exact Tree.down_map φ grand.side family

theorem step_map (φ : Entry → Entry) (s : Insertion) : (s.map φ).step = s.step.map (Option.map (Prod.map id (map φ))) := by
  obtain ⟨focus, path⟩ := s
  cases path with
  | nil => rfl
  | cons parent above =>
    obtain ⟨side, color, e, b⟩ := parent
    cases color with
    | black => rfl
    | red =>
      cases above with
      | nil => rfl
      | cons grand top =>
        rw [step_eq_turned? ⟨side, .red, e, b⟩ grand top focus rfl]
        have hmap := step_eq_turned? (Frame.map φ ⟨side, .red, e, b⟩) (grand.map φ) (List.map (Frame.map φ) top) (focus.map φ) rfl
        refine hmap.trans ?_
        simp only [Frame.sibling_map, Tree.color_map, turned?_map, Frame.side_map]
        split
        · simp only [Frame.paint_map, Frame.paintSibling_map, Frame.fill_map]
          rfl
        · cases turned? ⟨side, .red, e, b⟩ grand focus <;> rfl

theorem settle_map (φ : Entry → Entry) (s : Insertion) : (s.map φ).settle = s.settle.map (Prod.map id (map φ)) := by
  induction hn : s.path.length using Nat.strongRecOn generalizing s with
  | ind n ih =>
    have hstep := step_map φ s
    cases hs : s.step with
    | error f =>
      rw [hs] at hstep
      rw [settle_of_error hs, settle_of_error hstep]
      rfl
    | ok next =>
      rw [hs] at hstep
      cases next with
      | none =>
        rw [settle_of_none hs, settle_of_none hstep]
        rfl
      | some turned =>
        obtain ⟨turn, t⟩ := turned
        rw [settle_of_some hs, settle_of_some hstep, ih _ (hn ▸ length_path_step hs) t rfl]
        cases t.settle <;> rfl

theorem finish?_map (φ : Entry → Entry) (s : Insertion) : (s.map φ).finish? = s.finish?.map (Tree.map φ) := by
  rw [finish?, finish?, settle_map]
  cases s.settle with
  | error f => rfl
  | ok r =>
    obtain ⟨turns, t⟩ := r
    have htree : (t.map φ).tree = t.tree.map φ := Path.fill_map φ t.path t.focus
    simp only [Except.map, bind, Except.bind, Prod.map, htree, Tree.paint?_map]
    cases t.tree.paint? .black <;> rfl

end Insertion

/-! ## Before a node is taken out -/

namespace Removal

/-- other entries in all nodes -/
def map (φ : Entry → Entry) (s : Removal) : Removal :=
  ⟨s.doomed.map φ, s.below.map (Frame.map φ), List.map (Frame.map φ) s.above⟩

@[simp] theorem color_map (φ : Entry → Entry) (s : Removal) : (s.map φ).color = s.color := by
  obtain ⟨doomed, below, above⟩ := s
  cases below with
  | nil => exact Tree.color_map φ doomed
  | cons f below => rfl

theorem blacken_map (φ : Entry → Entry) (s : Removal) : (s.map φ).blacken = s.blacken.map φ := by
  obtain ⟨doomed, below, above⟩ := s
  cases below <;> simp [blacken, map]

theorem place_map (φ : Entry → Entry) (s : Removal) : (s.map φ).place = List.map (Frame.map φ) s.place := by
  simp [place, map]

theorem straighten?_map (φ : Entry → Entry) (parent : Frame) :
    straighten? (parent.map φ) = (straighten? parent).map (Tree.map φ) := by
  simp only [straighten?, Frame.map, Tree.child_map, Tree.color_map, Tree.paintChild?_map]
  split
  · rfl
  · cases parent.sibling.paintChild? parent.side .black with
    | none => rfl
    | some sibling =>
      simp only [Option.map_some, Tree.paint_map, Tree.rotate?_map]
      cases (sibling.paint .red).rotate? parent.side.opposite <;> rfl

theorem resolve_map (φ : Entry → Entry) (s : Removal) (lowered : Bool) (parent : Frame) (top : Path) :
    (s.map φ).resolve lowered (parent.map φ) (List.map (Frame.map φ) top) =
      (s.resolve lowered parent top).map (Prod.map id (map φ)) := by
  simp only [resolve, Frame.sibling_map, Frame.side_map, Frame.color_map, Tree.child_map, Tree.color_map, Tree.map_eq_leaf,
    straighten?_map]
  split
  · rfl
  · split
    · simp only [Frame.paintSibling_map]
      rfl
    · cases straighten? parent with
      | error f => rfl
      | ok sibling =>
        simp only [Except.map, Tree.paint_map, Tree.paintChild?_map]
        cases (sibling.paint parent.color).paintChild? parent.side.opposite .black with
        | none => rfl
        | some risen =>
          have hsink := Frame.sink?_map φ { parent with color := .black, sibling := risen }
          simp only [Frame.map] at hsink
          simp only [Option.map_some, Frame.map, hsink]
          cases ({ parent with color := .black, sibling := risen } : Frame).sink? with
          | none => rfl
          | some frames =>
            obtain ⟨lower, upper⟩ := frames
            simp [map, Prod.map]

theorem step_map (φ : Entry → Entry) (s : Removal) : (s.map φ).step = s.step.map (Option.map (Prod.map id (map φ))) := by
  have habove : (s.map φ).above = List.map (Frame.map φ) s.above := rfl
  rw [step, step, color_map, habove]
  cases s.color with
  | red => cases s.above <;> rfl
  | black =>
    cases s.above with
    | nil => rfl
    | cons parent top =>
      simp only [List.map_cons, Frame.sibling_map, Tree.color_map, Frame.paint_map, Frame.paintSibling_map, Frame.sink?_map]
      split
      · cases ((parent.paint .red).paintSibling .black).sink? with
        | none => rfl
        | some frames =>
          -- a red sibling came up: the rest of the turn is done below it
          obtain ⟨lower, upper⟩ := frames
          simp only [Option.map_some, Prod.map, ← List.map_cons, resolve_map]
          cases s.resolve true lower (upper :: top) <;> rfl
      · rw [resolve_map]
        cases s.resolve false parent top <;> rfl

theorem settle_map (φ : Entry → Entry) (s : Removal) : (s.map φ).settle = s.settle.map (Prod.map id (map φ)) := by
  induction hn : s.measure using Nat.strongRecOn generalizing s with
  | ind n ih =>
    have hstep := step_map φ s
    cases hs : s.step with
    | error f =>
      rw [hs] at hstep
      rw [settle_of_error hs, settle_of_error hstep]
      rfl
    | ok next =>
      rw [hs] at hstep
      cases next with
      | none =>
        rw [settle_of_none hs, settle_of_none hstep]
        rfl
      | some turned =>
        obtain ⟨turn, t⟩ := turned
        rw [settle_of_some hs, settle_of_some hstep, ih _ (hn ▸ measure_step hs) t rfl]
        cases t.settle <;> rfl

theorem finish?_map (φ : Entry → Entry) (s : Removal) : (s.map φ).finish? = s.finish?.map (map φ) := by
  rw [finish?, finish?, settle_map]
  cases s.settle with
  | error f => rfl
  | ok r => exact congrArg Except.ok (blacken_map φ r.2)

end Removal

/-! ## Taking a node out -/

namespace Tree

theorem leftmost_map (φ : Entry → Entry) (t : Tree) (p : Path) :
    (t.map φ).leftmost (List.map (Frame.map φ) p) = Prod.map (map φ) (List.map (Frame.map φ)) (t.leftmost p) := by
  fun_induction leftmost t p with
  | case1 p => rfl
  | case2 c e r p => rfl
  | case3 c cl ll el rl e r p ih => exact ih

theorem unlink?_map (φ : Entry → Entry) (doomed : Tree) (p : Path) :
    (doomed.map φ).unlink? (List.map (Frame.map φ) p) = (doomed.unlink? p).map (Prod.map (map φ) (map φ)) := by
  simp only [unlink?, onlyChild_map, color_map, paint_map, Path.fill_map]
  split
  · rfl
  · split
    · rfl
    · have hfinish : (Removal.mk (doomed.map φ) [] (List.map (Frame.map φ) p)).finish? =
          (Removal.mk doomed [] p).finish?.map (Removal.map φ) := Removal.finish?_map φ ⟨doomed, [], p⟩
      rw [hfinish]
      cases (Removal.mk doomed [] p).finish? with
      | error f => rfl
      | ok s =>
        simp only [Except.map, Removal.place_map, Path.fill_map]
        rfl

end Tree

end MeteredStore
