/-
Repairs of cells are the same on either side.

The mirror image of a memory has the left and the right link of every cell exchanged. Where the cells that can be reached form
a tree, the mirror image shows the mirror image of the tree (`Shows.mirror`), and a memory is known by what it shows (`Is.eq`).
So a rotation, and each turn of a repair, does the same on either side, and so does the whole loop (`turns_map`); where one
fails, because a cell is missing, so does the other.

Main statement: `repairs_mirror`, for cells that form a tree of any colours, with any keys. On cells in order the repairs of a
put and of a delete do not fail.
-/
import MeteredStore.Proofs.Linked.RedPair
import MeteredStore.Proofs.Linked.Shortage
import MeteredStore.Proofs.Mirror

namespace MeteredStore

/-! ## What a failing turn misses -/

namespace Insertion

variable {s : Insertion} {f : Fault}

theorem black_of_step (h : s.step = .ok none) : Path.topColor s.path = .black := by
  obtain ⟨focus, path⟩ := s
  cases path with
  | nil => rfl
  | cons parent above =>
    refine Color.eq_black_of_ne fun hp => ?_
    cases above with
    | nil =>
      simp only [step, show parent.color = .red from hp] at h
      cases h
    | cons grand top =>
      rw [step_eq_turned? parent grand top focus hp] at h
      split at h
      · cases h
      · cases hturned : turned? parent grand focus <;> rw [hturned] at h <;> cases h

/-- a turn at a node fails for a red root only -/
theorem path_of_error (h : s.step = .error f) (hs : s.focus ≠ .leaf) :
    ∃ parent, s.path = [parent] ∧ parent.color = .red := by
  obtain ⟨focus, path⟩ := s
  cases path with
  | nil => cases h
  | cons parent above =>
    cases hp : parent.color with
    | black =>
      simp only [step, hp] at h
      cases h
    | red =>
      cases above with
      | nil => exact ⟨parent, rfl, hp⟩
      | cons grand top =>
        cases hu : grand.sibling.color with
        | red => cases h.symm.trans (step_recolor hp hu)
        | black =>
          by_cases hside : parent.side = grand.side
          · cases h.symm.trans (step_rotate hp hu hside)
          · cases focus with
            | leaf => exact absurd rfl hs
            | node c l e r => cases h.symm.trans (step_rotateTwice hp hu hside)

end Insertion

namespace Removal

variable {s : Removal} {f : Fault} {lowered : Bool} {parent : Frame} {top : Path}

theorem current_mirror (s : Removal) : s.mirror.current = s.current.mirror := by
  rw [current, current, Path.mirror_fill, Path.mirror, List.map_reverse]
  rfl

/-- a sibling with a red child can be given one on its far side -/
theorem exists_straighten (hred : ¬ ((parent.sibling.child parent.side).color = .black ∧
      (parent.sibling.child parent.side.opposite).color = .black)) :
    ∃ c l e r, straighten? parent = .ok (.node c l e r) ∧
      ((Tree.node c l e r).child parent.side.opposite).color = .red := by
  obtain ⟨side, cp, ep, b⟩ := parent
  cases b with
  | leaf => exact absurd ⟨rfl, rfl⟩ hred
  | node d l e r =>
    by_cases hfar : ((Tree.node d l e r).child side.opposite).color = .red
    · exact ⟨d, l, e, r, by simp [straighten?, hfar], hfar⟩
    · have hnear : ((Tree.node d l e r).child side).color = .red := by
        cases hnear : ((Tree.node d l e r).child side).color with
        | red => rfl
        | black => exact absurd ⟨hnear, Color.eq_black_of_ne hfar⟩ hred
      cases side with
      | left =>
        obtain ⟨a, e', b, rfl⟩ := Tree.exists_node_of_red (t := l) hnear
        exact ⟨.black, a, e', .node .red b e r, by simp [straighten?, hfar]; rfl, rfl⟩
      | right =>
        obtain ⟨a, e', b, rfl⟩ := Tree.exists_node_of_red (t := r) hnear
        exact ⟨.black, .node .red l e a, e', b, by simp [straighten?, hfar]; rfl, rfl⟩

/-- the rest of a turn fails only where there is no sibling -/
theorem sibling_of_error (h : s.resolve lowered parent top = .error f) : parent.sibling = .leaf := by
  by_contra hleaf
  by_cases hblack : (parent.sibling.child parent.side).color = .black ∧
      (parent.sibling.child parent.side.opposite).color = .black
  · cases h.symm.trans (resolve_climb hleaf hblack)
  · obtain ⟨c, l, e, r, hu, hfar⟩ := exists_straighten hblack
    cases h.symm.trans (resolve_rotate hleaf hblack hu hfar)

end Removal

/-! ## Mirror images -/

theorem Tree.isSome_rotate? (s : Side) (t : Tree) : (t.rotate? s).isSome = (t.child s.opposite).topId.isSome := by
  cases t with
  | leaf => rfl
  | node c l e r =>
    cases s with
    | left => cases r <;> rfl
    | right => cases l <;> rfl

/-- left and right exchanged -/
def Cell.mirror (c : Cell) : Cell := { c with left := c.right, right := c.left }

/-- a cell with its number, left and right exchanged -/
def mirrorCell (x : Cell × NodeId) : Cell × NodeId := (x.1.mirror, x.2)

theorem Tree.cells_mirror (t : Tree) (parent : Option NodeId) : t.mirror.cells parent = (t.cells parent).map mirrorCell := by
  induction t generalizing parent with
  | leaf => rfl
  | node c l e r ihl ihr =>
    simp only [Tree.mirror, Tree.cells, Multiset.map_add, Multiset.map_singleton, ihl, ihr, Tree.topId_mirror]
    rw [add_comm (Multiset.map mirrorCell (r.cells (some e.id)))]
    rfl

theorem Frame.cell_mirror (f : Frame) (hole parent : Option NodeId) :
    f.mirror.cell hole parent = (f.cell hole parent).mirror := by
  obtain ⟨s, c, e, b⟩ := f
  cases s <;> simp [Frame.mirror, Frame.cell, Cell.mirror, Side.opposite]

namespace Path

variable (p : Path) (hole : Option NodeId)

@[simp] theorem topId_mirror : topId (Path.mirror p) = p.topId := by cases p <;> rfl

@[simp] theorem rootId_mirror : rootId (Path.mirror p) hole = p.rootId hole := by
  induction p generalizing hole with
  | nil => rfl
  | cons f p ih => exact ih _

theorem cells_mirror : cells (Path.mirror p) hole = (p.cells hole).map mirrorCell := by
  induction p generalizing hole with
  | nil => rfl
  | cons f p ih =>
    have hp := ih (some f.entry.id)
    have htop := topId_mirror p
    simp only [Path.mirror, List.map_cons] at hp htop ⊢
    simp only [cells, Frame.cell_mirror, Frame.sibling_mirror, Tree.cells_mirror, Multiset.map_add,
      Multiset.map_singleton, htop]
    rw [show f.mirror.entry = f.entry from rfl, hp]
    rfl

end Path

namespace Linked

/-- the memory with left and right exchanged in every cell -/
def mirror (h : Linked) : Linked := { h with cells := h.cells.map Cell.mirror }

variable {h k : Linked} {root : Option NodeId} {n m : Nat} {b rest : Bag} {t : Tree} {p : Path} {f : Frame}
  {i : NodeId}

theorem contents_mirror (h : Linked) : h.mirror.contents = h.contents.map mirrorCell := by
  rw [contents, contents, Multiset.map_coe, mirror, List.zipIdx_map]
  rfl

/-- the mirror image shows the mirror image -/
theorem Shows.mirror (hs : h.Shows n rest t p) : h.mirror.Shows n (rest.map mirrorCell) t.mirror p.mirror := by
  refine ⟨?_, hs.size, ?_⟩
  · rw [Path.rootId_mirror, Tree.topId_mirror]
    exact hs.root
  · rw [contents_mirror, hs.contents, Multiset.map_add, Multiset.map_add, Tree.cells_mirror, Path.cells_mirror,
      Path.topId_mirror, Tree.topId_mirror]

/-- a memory is known by its root, its size and its cells -/
theorem Is.eq (hi : h.Is root n b) (hk : k.Is root n b) : h = k := by
  obtain ⟨r, m, cells⟩ := h
  obtain ⟨r', m', cells'⟩ := k
  obtain rfl : r = r' := hi.root.trans hk.root.symm
  obtain rfl : m = m' := hi.size.trans hk.size.symm
  have hcells : cells = cells' := by
    apply List.ext_getElem?
    intro i
    apply Option.ext
    intro c
    have hmem := mem_contents (h := ⟨r, m, cells⟩) (c := c) (i := i)
    rw [hi.contents, ← hk.contents, mem_contents] at hmem
    exact hmem.symm
  rw [hcells]

/-- what shows the mirror image is the mirror image -/
theorem Shows.eq_mirror (hs : h.Shows n rest t p) (hk : k.Shows n (rest.map mirrorCell) t.mirror p.mirror) : k = h.mirror :=
  Is.eq hk hs.mirror

/-! ## Rotations -/

theorem rotate_of_none {s : Side} (hs : h.Shows n rest t p) (ht : t.topId = some i) (hr : t.rotate? s = none) :
    h.rotate i s = none := by
  obtain ⟨c, r₀, -, hchild, -⟩ := hs.read ht
  have hpivot := Tree.isSome_rotate? s t
  rw [hr, ← hchild, Option.isSome_none, eq_comm, Option.isSome_eq_false_iff, Option.isNone_iff_eq_none] at hpivot
  simp only [rotate, r₀, hpivot, Option.bind_eq_bind, Option.bind_some, Option.bind_none]

theorem Shows.isSome_rotate {c : Cell} (hs : h.Shows n rest t p) (ht : t.topId = some i) (hc : h.cell? i = some c) (s : Side) :
    (h.rotate i s).isSome = (c.child s.opposite).isSome := by
  obtain ⟨d, r₀, -, hchild, -⟩ := hs.read ht
  obtain rfl : c = d := Option.some.inj (hc.symm.trans r₀)
  rw [hchild, ← Tree.isSome_rotate?]
  cases hr : t.rotate? s with
  | none =>
    rw [rotate_of_none hs ht hr]
    rfl
  | some u =>
    obtain ⟨a, ha, -⟩ := hs.rotate ht hr
    rw [ha]
    rfl

theorem Shows.rotate_mirror (hs : h.Shows n rest t p) (ht : t.topId = some i) (s : Side) :
    h.mirror.rotate i s.opposite = (h.rotate i s).map Linked.mirror := by
  have ht' : t.mirror.topId = some i := (Tree.topId_mirror t).trans ht
  have hrotate := Tree.rotate?_mirror s t
  cases hr : t.rotate? s with
  | none =>
    rw [hr] at hrotate
    rw [rotate_of_none hs ht hr, rotate_of_none hs.mirror ht' hrotate]
    rfl
  | some u =>
    rw [hr] at hrotate
    obtain ⟨a, ha, hsa⟩ := hs.rotate ht hr
    obtain ⟨b, hb, hsb⟩ := hs.mirror.rotate ht' hrotate
    rw [ha, hb, hsa.eq_mirror hsb]
    rfl

/-! ## Painting -/

theorem paint_mirror (h : Linked) (i : NodeId) (c : Color) : h.mirror.paint i c = (h.paint i c).map mirror := by
  have hcell : h.mirror.cell? i = (h.cell? i).map Cell.mirror := List.getElem?_map
  simp only [paint, modify, hcell, Option.bind_eq_bind]
  cases h.cell? i with
  | none => rfl
  | some d =>
    simp only [Option.map_some, Option.bind_some, mirror, Option.pure_def, List.map_set]
    rfl

theorem limit_mirror (h : Linked) : h.mirror.limit = h.limit := by simp [limit, mirror]

/-- the mirror image of a cell in its memory -/
def mirrored (x : NodeId × Linked) : NodeId × Linked := (x.1, x.2.mirror)

/-! ## After a cell was linked -/

theorem insertTurn_of_error {s : Insertion} {e : Fault} (hstep : s.step = .error e) (hs : h.Shows n rest s.focus s.path)
    (ht : s.focus.topId = some i) : h.insertTurn i = none := by
  obtain ⟨c, l, x, r, hfocus, -⟩ := Tree.exists_node_of_topId ht
  obtain ⟨parent, hpath, hred⟩ := Insertion.path_of_error hstep (by simp [hfocus])
  obtain ⟨d, r₀, -, -, hparent⟩ := hs.read ht
  rw [hpath] at hs hparent
  have r₁ := hs.above
  simp [insertTurn, r₀, hparent, r₁, hred]

theorem insertTurn_mirror {s : Insertion} (hs : h.Shows n rest s.focus s.path) (ht : s.focus.topId = some i) :
    h.mirror.insertTurn i = (h.insertTurn i).map (Option.map mirrored) := by
  have hs' : h.mirror.Shows n (rest.map mirrorCell) s.mirror.focus s.mirror.path := hs.mirror
  have ht' : s.mirror.focus.topId = some i := (Tree.topId_mirror _).trans ht
  have hmirror := Insertion.step_mirror s
  cases hstep : s.step with
  | error e =>
    rw [hstep] at hmirror
    rw [insertTurn_of_error hstep hs ht, insertTurn_of_error hmirror hs' ht']
    rfl
  | ok next =>
    rw [hstep] at hmirror
    cases next with
    | none =>
      rw [insertTurn_of_black hs ht (Insertion.black_of_step hstep),
        insertTurn_of_black hs' ht' (Insertion.black_of_step hmirror)]
      rfl
    | some made =>
      obtain ⟨turn, u⟩ := made
      obtain ⟨j, a, ha, hj, hsa, -⟩ := insertTurn_spec hstep hs ht
      obtain ⟨j', b, hb, hj', hsb, -⟩ := insertTurn_spec hmirror hs' ht'
      obtain rfl : j = j' := Option.some.inj (hj.symm.trans ((Tree.topId_mirror _).symm.trans hj'))
      rw [ha, hb, hsa.eq_mirror hsb]
      rfl

/-- the cells show a tree with the current cell at the top of what hangs in a hole, `m` levels down -/
def Inserting (m : Nat) (x : NodeId × Linked) : Prop :=
  ∃ (n : Nat) (rest : Bag) (s : Insertion), x.2.Shows n rest s.focus s.path ∧ s.focus.topId = some x.1 ∧ s.path.length = m

theorem Inserting.turn {x y : NodeId × Linked} (hx : Inserting m x) (hturn : x.2.insertTurn x.1 = some (some y)) :
    ∃ k < m, Inserting k y := by
  obtain ⟨n, rest, s, hs, ht, rfl⟩ := hx
  -- a turn that is made is a turn of the tree
  cases hstep : s.step with
  | error e => cases hturn.symm.trans (insertTurn_of_error hstep hs ht)
  | ok next =>
    cases next with
    | none => cases hturn.symm.trans (insertTurn_of_black hs ht (Insertion.black_of_step hstep))
    | some made =>
      obtain ⟨turn, u⟩ := made
      obtain ⟨j, a, ha, hj, hsa, -⟩ := insertTurn_spec hstep hs ht
      cases hturn.symm.trans ha
      exact ⟨u.path.length, Insertion.length_path_step hstep, n, rest, u, hsa, hj, rfl⟩

theorem fixInsert_mirror (hs : h.Shows n rest t p) (ht : t.topId = some i) :
    h.mirror.fixInsert i = (h.fixInsert i).map mirror := by
  rw [fixInsert, fixInsert, limit_mirror]
  have hx : ∃ m, Inserting m (i, h) := ⟨p.length, n, rest, ⟨t, p⟩, hs, ht, rfl⟩
  refine turns_map (f := mirrored) (fun x => ∃ m, Inserting m x) ?_ ?_ ?_ h.limit hx
  · rintro ⟨i, h⟩ ⟨m, n, rest, s, hs, ht, -⟩
    exact insertTurn_mirror hs ht
  · rintro x y ⟨m, hx⟩ hturn
    obtain ⟨k, -, hy⟩ := hx.turn hturn
    exact ⟨k, hy⟩
  · rintro ⟨i, h⟩ -
    have hroot : (mirrored (i, h)).2.root = h.root := rfl
    simp only [hroot, Option.bind_eq_bind]
    cases h.root with
    | none => rfl
    | some r => exact paint_mirror h r .black

/-- the loop comes to an end, whatever the colours are -/
theorem fixInsert_ends (hs : h.Shows n rest t p) (ht : t.topId = some i) {many : Nat} (hn : h.limit ≤ many) :
    turns (fun x => x.2.insertTurn x.1) (fun x => do x.2.paint (← x.2.root) .black) many (i, h) = h.fixInsert i := by
  have hx : Inserting p.length (i, h) := ⟨n, rest, ⟨t, p⟩, hs, ht, rfl⟩
  have hlength := hs.length_le
  exact turns_of_le Inserting (fun _ _ _ hx hturn => hx.turn hturn) hx (by rw [limit]; omega) hn

/-! ## Before a cell is unlinked -/

theorem resolve_of_leaf (hs : h.Shows n rest t (f :: p)) (hleaf : f.sibling = .leaf) :
    h.resolve f.entry.id f.side = none := by
  simp [resolve, hs.above, hleaf, Tree.topId]

/-- where the turn of the tree misses a sibling, the turn of the cells misses its cell -/
theorem deleteTurn_of_error {s : Removal} {e : Fault} (hstep : s.step = .error e) (hs : h.Shows n rest s.current s.above)
    (ht : s.current.topId = some i) : h.deleteTurn i = none := by
  obtain ⟨d, below, above⟩ := s
  cases hc : Removal.color ⟨d, below, above⟩ with
  | red => simp [Removal.step, hc] at hstep
  | black =>
    cases above with
    | nil => simp [Removal.step, hc] at hstep
    | cons parent top =>
      rw [deleteTurn_eq hs ht ((Removal.color_current _).trans hc)]
      simp only [Removal.step, hc] at hstep
      split at hstep
      · next hred =>
        obtain ⟨l, x, r, hnode⟩ := Tree.exists_node_of_red hred
        rw [Removal.sink?_red hnode] at hstep
        obtain ⟨a, ha, hsa, -⟩ := liftSibling_of_red hs hred (Removal.sink?_red hnode)
        cases hr : Removal.resolve ⟨d, below, parent :: top⟩ true
            ⟨parent.side, .red, parent.entry, parent.sibling.child parent.side⟩
            (⟨parent.side, .black, x, parent.sibling.child parent.side.opposite⟩ :: top) with
        | ok r => simp [hr, Except.map] at hstep
        | error e =>
          have hnone := resolve_of_leaf hsa (Removal.sibling_of_error hr)
          rw [ha, Option.bind_some]
          exact congrArg (Option.map some) hnone
      · next hblack =>
        cases hr : Removal.resolve ⟨d, below, parent :: top⟩ false parent top with
        | ok r => simp [hr, Except.map] at hstep
        | error e =>
          rw [liftSibling_of_black hs (Color.eq_black_of_ne hblack), Option.bind_some,
            resolve_of_leaf hs (Removal.sibling_of_error hr)]
          rfl

theorem deleteTurn_mirror {s : Removal} (hs : h.Shows n rest s.current s.above) (ht : s.current.topId = some i) :
    h.mirror.deleteTurn i = (h.deleteTurn i).map (Option.map mirrored) := by
  have hs' : h.mirror.Shows n (rest.map mirrorCell) s.mirror.current s.mirror.above := by
    rw [Removal.current_mirror]
    exact hs.mirror
  have ht' : s.mirror.current.topId = some i := by rw [Removal.current_mirror, Tree.topId_mirror, ht]
  have hmirror := Removal.step_mirror s
  cases hstep : s.step with
  | error e =>
    rw [hstep] at hmirror
    rw [deleteTurn_of_error hstep hs ht, deleteTurn_of_error hmirror hs' ht']
    rfl
  | ok next =>
    rw [hstep] at hmirror
    cases next with
    | none =>
      rw [deleteTurn_of_done hs ht (Removal.done_of_step hstep),
        deleteTurn_of_done hs' ht' (Removal.done_of_step hmirror)]
      rfl
    | some made =>
      obtain ⟨turn, u⟩ := made
      obtain ⟨j, a, ha, hj, hsa, -⟩ := deleteTurn_spec hstep hs ht
      obtain ⟨j', b, hb, hj', hsb, -⟩ := deleteTurn_spec hmirror hs' ht'
      rw [Removal.current_mirror] at hj' hsb
      obtain rfl : j = j' := Option.some.inj (hj.symm.trans ((Tree.topId_mirror _).symm.trans hj'))
      rw [ha, hb, hsa.eq_mirror hsb]
      rfl

/-- the cells show a tree with the current cell at the top of what hangs in a hole, and `m` bounds the turns that are due -/
def Deleting (m : Nat) (x : NodeId × Linked) : Prop :=
  ∃ (n : Nat) (rest : Bag) (s : Removal), x.2.Shows n rest s.current s.above ∧ s.current.topId = some x.1 ∧ s.measure = m

theorem Deleting.turn {x y : NodeId × Linked} (hx : Deleting m x) (hturn : x.2.deleteTurn x.1 = some (some y)) :
    ∃ k < m, Deleting k y := by
  obtain ⟨n, rest, s, hs, ht, rfl⟩ := hx
  cases hstep : s.step with
  | error e => cases hturn.symm.trans (deleteTurn_of_error hstep hs ht)
  | ok next =>
    cases next with
    | none => cases hturn.symm.trans (deleteTurn_of_done hs ht (Removal.done_of_step hstep))
    | some made =>
      obtain ⟨turn, u⟩ := made
      obtain ⟨j, a, ha, hj, hsa, -⟩ := deleteTurn_spec hstep hs ht
      cases hturn.symm.trans ha
      exact ⟨u.measure, Removal.measure_step hstep, n, rest, u, hsa, hj, rfl⟩

theorem fixDelete_mirror (hs : h.Shows n rest t p) (ht : t.topId = some i) :
    h.mirror.fixDelete i = (h.fixDelete i).map mirror := by
  rw [fixDelete, fixDelete, limit_mirror]
  have hx : ∃ m, Deleting m (i, h) := ⟨_, n, rest, ⟨t, [], p⟩, hs, ht, rfl⟩
  refine turns_map (f := mirrored) (fun x => ∃ m, Deleting m x) ?_ ?_ ?_ h.limit hx
  · rintro ⟨i, h⟩ ⟨m, n, rest, s, hs, ht, -⟩
    exact deleteTurn_mirror hs ht
  · rintro x y ⟨m, hx⟩ hturn
    obtain ⟨k, -, hy⟩ := hx.turn hturn
    exact ⟨k, hy⟩
  · rintro ⟨i, h⟩ -
    exact paint_mirror h i .black

/-- the loop comes to an end, whatever the colours are -/
theorem fixDelete_ends (hs : h.Shows n rest t p) (ht : t.topId = some i) {many : Nat} (hn : h.limit ≤ many) :
    turns (fun x => x.2.deleteTurn x.1) (fun x => x.2.paint x.1 .black) many (i, h) = h.fixDelete i := by
  have hx : Deleting (Removal.measure ⟨t, [], p⟩) (i, h) := ⟨n, rest, ⟨t, [], p⟩, hs, ht, rfl⟩
  have hlength := hs.length_le
  have hpos := Tree.length_entries_pos ht
  have hm : Removal.measure ⟨t, [], p⟩ < h.limit := by
    rw [Removal.measure, limit]
    dsimp only
    split <;> omega
  exact turns_of_le Deleting (fun _ _ _ hx hturn => hx.turn hturn) hx hm hn

/-! ## Cells that form a tree -/

/-- what the repairs of a memory do, they do on its mirror image too, with left and right exchanged; what they do not do, for
want of a cell, they do not do there -/
structure SameOnEitherSide (h : Linked) : Prop where
  /-- the mirror image of a rotation is the rotation the other way -/
  rotate : ∀ i s, h.Attached i → h.mirror.rotate i s.opposite = (h.rotate i s).map mirror
  /-- a rotation is made where there is a cell to come up -/
  rotate_isSome : ∀ i c s, h.Attached i → h.cell? i = some c → (h.rotate i s).isSome = (c.child s.opposite).isSome
  fixInsert : ∀ i, h.Attached i → h.mirror.fixInsert i = (h.fixInsert i).map mirror
  fixDelete : ∀ i, h.Attached i → h.mirror.fixDelete i = (h.fixDelete i).map mirror
  /-- no loop is given up: with more turns it would come to the same end -/
  insert_ends : ∀ i many, h.Attached i → h.limit ≤ many →
    turns (fun x => x.2.insertTurn x.1) (fun x => do x.2.paint (← x.2.root) .black) many (i, h) = h.fixInsert i
  delete_ends : ∀ i many, h.Attached i → h.limit ≤ many →
    turns (fun x => x.2.deleteTurn x.1) (fun x => x.2.paint x.1 .black) many (i, h) = h.fixDelete i

theorem Treelike.sameOnEitherSide (ht : h.Treelike) : h.SameOnEitherSide := by
  constructor
  case rotate =>
    intro i s hi
    obtain ⟨rest, t, p, hs, htop⟩ := ht.exists_place hi
    exact hs.rotate_mirror htop s
  case rotate_isSome =>
    intro i c s hi hc
    obtain ⟨rest, t, p, hs, htop⟩ := ht.exists_place hi
    exact hs.isSome_rotate htop hc s
  case fixInsert =>
    intro i hi
    obtain ⟨rest, t, p, hs, htop⟩ := ht.exists_place hi
    exact fixInsert_mirror hs htop
  case fixDelete =>
    intro i hi
    obtain ⟨rest, t, p, hs, htop⟩ := ht.exists_place hi
    exact fixDelete_mirror hs htop
  case insert_ends =>
    intro i many hi hmany
    obtain ⟨rest, t, p, hs, htop⟩ := ht.exists_place hi
    exact fixInsert_ends hs htop hmany
  case delete_ends =>
    intro i many hi hmany
    obtain ⟨rest, t, p, hs, htop⟩ := ht.exists_place hi
    exact fixDelete_ends hs htop hmany

/-! ## Cells in order -/

theorem Valid.fixInsert_mirror (hv : h.Valid) {key : Bytes} (hkey : ¬ h.Binds key) (value : Bytes) :
    ∃ i k k', h.Grown key value i k ∧ k.fixInsert i = some k' ∧ k.mirror.fixInsert i = some k'.mirror := by
  obtain ⟨k, p, rest, m, hgrown, hd, -, hk, -, hsound⟩ := exists_grown hv hkey value
  obtain ⟨k', hfix, -⟩ := hgrown.exists_fixInsert hv hd hk hsound
  refine ⟨h.cells.length, k, k', hgrown, hfix, ?_⟩
  calc k.mirror.fixInsert h.cells.length = (k.fixInsert h.cells.length).map mirror := Linked.fixInsert_mirror hk rfl
    _ = some k'.mirror := by rw [hfix]; rfl

theorem Valid.fixDelete_mirror (hv : h.Valid) (hi : h.Attached i) :
    ∃ j k, h.doomOf i = some (j, k) ∧ ∀ c, k.cell? j = some c → c.color = .black → c.left = none → c.right = none →
      ∃ k', k.fixDelete j = some k' ∧ k.mirror.fixDelete j = some k'.mirror := by
  obtain ⟨k, c, l, e, r, p, root, hd⟩ := exists_doomed hv hi
  obtain ⟨rest, hk⟩ := hd.shows
  refine ⟨e.id, k, hd.doomOf, ?_⟩
  intro d r₀ hcolor hleft hright
  cases hd.unlinks with
  | red r₁ hred =>
    obtain rfl := Option.some.inj (r₁.symm.trans r₀)
    cases hcolor.symm.trans hred
  | redChild r₁ _ hchild =>
    obtain rfl := Option.some.inj (r₁.symm.trans r₀)
    rcases hchild with ⟨hsome, -⟩ | ⟨-, hsome⟩
    · cases hleft.symm.trans hsome
    · cases hright.symm.trans hsome
  | blackLeaf _ _ _ _ _ _ _ hfix =>
    obtain ⟨k', hk'⟩ : ∃ k', k.fixDelete e.id = some k' := ⟨_, hfix⟩
    refine ⟨k', hk', ?_⟩
    calc k.mirror.fixDelete e.id = (k.fixDelete e.id).map mirror := Linked.fixDelete_mirror hk rfl
      _ = some k'.mirror := by rw [hk']; rfl

/-- **Repairs are the same on either side.** On cells that form a tree, of any colours and with any keys, a rotation towards one
side, and then left and right exchanged, is the same as left and right exchanged first and a rotation towards the other side. So
it is with `fixInsert` and `fixDelete`, from any cell of the tree: they end in the mirror image, or fail together. -/
theorem repairs_mirror (ht : h.Treelike) :
    h.SameOnEitherSide ∧
      (h.Valid →
        (∀ key value, ¬ h.Binds key → ∃ i k k', h.Grown key value i k ∧ k.fixInsert i = some k' ∧
          k.mirror.fixInsert i = some k'.mirror) ∧
        ∀ i, h.Attached i → ∃ j k, h.doomOf i = some (j, k) ∧
          ∀ c, k.cell? j = some c → c.color = .black → c.left = none → c.right = none →
            ∃ k', k.fixDelete j = some k' ∧ k.mirror.fixDelete j = some k'.mirror) := by
  refine ⟨ht.sameOnEitherSide, fun hv => ⟨?_, ?_⟩⟩
  · exact fun key value hkey => hv.fixInsert_mirror hkey value
  · exact fun i hi => hv.fixDelete_mirror hi

/-- the root is turned to the left, and in the mirror to the right; a new cell and a black leaf are repaired in both -/
theorem repairs_mirror_six :
    sixCells.Treelike ∧ sixCells.Valid ∧
      (∃ k, sixCells.rotate 0 .left = some k ∧ sixCells.mirror.rotate 0 .right = some k.mirror) ∧
      (∃ i k k', sixCells.Grown [3, 5] [9] i k ∧ k.fixInsert i = some k' ∧ k.mirror.fixInsert i = some k'.mirror) ∧
      ∃ k, sixCells.fixDelete 1 = some k ∧ sixCells.mirror.fixDelete 1 = some k.mirror := by
  have hkey : ¬ sixCells.Binds [3, 5] := by
    rw [shows_sixCells.binds_iff]
    decide
  obtain ⟨hsame, hmade⟩ := repairs_mirror valid_sixCells.treelike
  obtain ⟨hinsert, hdelete⟩ := hmade valid_sixCells
  refine ⟨valid_sixCells.treelike, valid_sixCells, ?_, hinsert [3, 5] [9] hkey, ?_⟩
  · have hrotate := hsame.rotate 0 .left ⟨[], rfl⟩
    obtain ⟨k, hk⟩ := Option.isSome_iff_exists.mp ((hsame.rotate_isSome 0 _ .left ⟨[], rfl⟩ rfl).trans rfl)
    rw [hk] at hrotate
    exact ⟨k, hk, hrotate⟩
  · obtain ⟨j, k, hdoom, hfix⟩ := hdelete 1 ⟨[.left], rfl⟩
    obtain ⟨rfl, rfl⟩ : (1, sixCells) = (j, k) := Option.some.inj hdoom
    exact hfix _ rfl rfl rfl rfl

end Linked

end MeteredStore
