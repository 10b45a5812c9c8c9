/-
What a rotation writes to memory.

A cell that is rotated and the pivot that comes up over it are two frames that change places (`Shows.rotate_above`). The tree
around the two frames and the trees that hang from them are the same before and after, up to one link of the parent above and
the parent of the inner child (`Path.mem_cells_iff`, `Tree.mem_cells_iff`). So four cells at most are written to, and all
others keep their fields (`Shows.cell?_exchange`).

Main statement: `rotate_keeps`, for any cell of any cells that form a tree, of any colours and with any keys. The pivot has
exactly the place that the cell had, at the root or below its parent; the cell hangs from the pivot and has the inner child.
Only the cell, the pivot, the inner child and the parent get other links (`Exchanged`).
-/
import MeteredStore.Proofs.Linked.Treelike

namespace MeteredStore

/-! ## A node and its child as two frames -/

namespace Tree

variable {t : Tree} {s : Side} {i j : NodeId} {c : Cell}

/-- what hangs from a node and from its child, as a tree in two frames; the hole of the child is on any side -/
theorem exists_frames (hi : t.topId = some i) (hj : (t.child s).topId = some j) (r : Side) :
    ∃ (lower upper : Frame) (u : Tree), lower.side = r ∧ upper.side = s ∧ lower.entry.id = j ∧ upper.entry.id = i ∧
      upper.fill (lower.fill u) = t := by
  obtain ⟨c, l, e, r₁, rfl, rfl⟩ := exists_node_of_topId hi
  obtain ⟨d, l', f, r', hchild, rfl⟩ := exists_node_of_topId hj
  have hupper := fill_down (down_node s c l r₁ e)
  have hlower := fill_down (down_node r d l' r' f)
  rw [hchild, ← hlower] at hupper
  exact ⟨_, _, _, rfl, rfl, rfl, rfl, hupper⟩

/-- a tree that hangs from another parent has another cell at its top only -/
theorem mem_cells_iff (hi : t.topId ≠ some i) (a b : Option NodeId) : (c, i) ∈ t.cells a ↔ (c, i) ∈ t.cells b := by
  cases t with
  | leaf => exact Iff.rfl
  | node color l e r =>
    have hne : i ≠ e.id := fun he => hi (congrArg some he.symm)
    simp only [cells, Multiset.mem_add, Multiset.mem_singleton, Prod.mk.injEq, hne, and_false, false_or]

end Tree

/-- a path with another node in its hole has another cell above the hole only -/
theorem Path.mem_cells_iff {p : Path} {i : NodeId} {c : Cell} (hi : p.topId ≠ some i) (a b : Option NodeId) :
    (c, i) ∈ p.cells a ↔ (c, i) ∈ p.cells b := by
  cases p with
  | nil => exact Iff.rfl
  | cons f p =>
    have hne : i ≠ f.entry.id := fun he => hi (congrArg some he.symm)
    simp only [cells, Multiset.mem_add, Multiset.mem_singleton, Prod.mk.injEq, hne, and_false, false_or]

/-- two frames that change places keep their entries in order, when their holes are on different sides -/
theorem Frame.entries_exchange {lower upper : Frame} (hside : lower.side = upper.side.opposite) (t : Tree) :
    (lower.fill (upper.fill t)).entries = (upper.fill (lower.fill t)).entries := by
  obtain ⟨s, c, e, b⟩ := lower
  obtain ⟨r, d, f, a⟩ := upper
  obtain rfl : s = r.opposite := hside
  cases r <;> simp [fill, Tree.entries, Side.opposite]

/-- another child leaves the key, the value and the colour -/
theorem Cell.setChild_kept (c : Cell) (s : Side) (i : Option NodeId) :
    (c.setChild s i).key = c.key ∧ (c.setChild s i).value = c.value ∧ (c.setChild s i).color = c.color := by
  cases s <;> exact ⟨rfl, rfl, rfl⟩

namespace Linked

variable {h h' : Linked} {n : Nat} {rest : Bag} {t : Tree} {p : Path} {lower upper : Frame} {i j : NodeId} {s : Side}
  {c d : Cell}

/-! ## What a rotation keeps and what it writes -/

/-- the second memory is the first after a rotation of cell `i` towards side `s`; before it, this cell was `c`, and the pivot,
number `j`, was `d` -/
structure Exchanged (h h' : Linked) (i : NodeId) (c : Cell) (j : NodeId) (d : Cell) (s : Side) : Prop where
  /-- the same cells with the same pairs come from left to right -/
  entries : h'.tree.entries = h.tree.entries
  /-- each cell is reached by one way, the root has no parent, and a child names as its parent the cell that holds it -/
  treelike : h'.Treelike
  /-- the pivot is reached as the cell was -/
  place : ∀ way, h.reach way = some i → h'.reach way = some j
  /-- where the cell was the root, the pivot is the root -/
  root : h.root = some i → c.parent = none ∧ h'.root = some j
  /-- elsewhere the parent holds the pivot in place of the cell, and keeps its other fields; the root stays -/
  above : h.root ≠ some i → h'.root = h.root ∧ ∃ k x r, c.parent = some k ∧ h.cell? k = some x ∧ x.child r = some i ∧
    h'.cell? k = some (x.setChild r (some j))
  /-- the cell takes over the inner child, and hangs from the pivot -/
  node : h'.cell? i = some { c.setChild s.opposite (d.child s) with parent := some j }
  pivot : h'.cell? j = some { d.setChild s (some i) with parent := c.parent }
  inner : ∀ k, d.child s = some k → ∃ x, h.cell? k = some x ∧ h'.cell? k = some { x with parent := some i }
  /-- all other cells keep their fields, be they in the tree or not -/
  others : ∀ k, k ≠ i → k ≠ j → d.child s ≠ some k → c.parent ≠ some k → h'.cell? k = h.cell? k
  length : h'.cells.length = h.cells.length
  size : h'.size = h.size

/-- no cell gets another key, value or colour -/
theorem Exchanged.kept (he : h.Exchanged h' i c j d s) (hc : h.cell? i = some c) (hd : h.cell? j = some d) {k : NodeId}
    {x : Cell} (hx : h.cell? k = some x) :
    ∃ y, h'.cell? k = some y ∧ y.key = x.key ∧ y.value = x.value ∧ y.color = x.color := by
  by_cases hki : k = i
  · subst hki
    obtain rfl : c = x := Option.some.inj (hc.symm.trans hx)
    exact ⟨_, he.node, c.setChild_kept _ _⟩
  by_cases hkj : k = j
  · subst hkj
    obtain rfl : d = x := Option.some.inj (hd.symm.trans hx)
    exact ⟨_, he.pivot, d.setChild_kept _ _⟩
  by_cases hinner : d.child s = some k
  · obtain ⟨x', hx', hy⟩ := he.inner k hinner
    obtain rfl : x' = x := Option.some.inj (hx'.symm.trans hx)
    exact ⟨_, hy, rfl, rfl, rfl⟩
  by_cases habove : c.parent = some k
  · have hroot : h.root ≠ some i := by
      intro hroot
      cases habove.symm.trans (he.root hroot).1
    obtain ⟨-, k', x', r, hk', hx', -, hy⟩ := he.above hroot
    obtain rfl : k' = k := Option.some.inj (hk'.symm.trans habove)
    obtain rfl : x' = x := Option.some.inj (hx'.symm.trans hx)
    exact ⟨_, hy, x'.setChild_kept _ _⟩
  · exact ⟨x, (he.others k hki hkj hinner habove).trans hx, rfl, rfl, rfl⟩

namespace Shows

/-! ## Cells beside the two frames -/

theorem cell?_exchange (hs : h.Shows n rest t (lower :: upper :: p)) (hs' : h'.Shows n rest t (upper :: lower :: p))
    (hlower : i ≠ lower.entry.id) (hupper : i ≠ upper.entry.id) (hinner : t.topId ≠ some i) (habove : p.topId ≠ some i) :
    h'.cell? i = h.cell? i := by
  apply Option.ext
  intro c
  have htree := Tree.mem_cells_iff (c := c) hinner (some upper.entry.id) (some lower.entry.id)
  have hpath := Path.mem_cells_iff (c := c) habove (some lower.entry.id) (some upper.entry.id)
  rw [← mem_contents, ← mem_contents, hs.contents, hs'.contents]
  simp only [Path.cells, Path.topId_cons, Multiset.mem_add, Multiset.mem_singleton, Prod.mk.injEq, hlower, hupper, and_false,
    false_or, htree, hpath]
  tauto

/-- the top of the inner tree gets another parent -/
theorem cell?_inner (hs : h.Shows n rest t (lower :: upper :: p)) (hs' : h'.Shows n rest t (upper :: lower :: p))
    (ht : t.topId = some i) :
    ∃ x, h.cell? i = some x ∧ h'.cell? i = some { x with parent := some upper.entry.id } := by
  obtain ⟨c, l, e, r, rfl, rfl⟩ := Tree.exists_node_of_topId ht
  exact ⟨_, hs.top, hs'.top⟩

/-- the frame above the two gets another child on its side -/
theorem cell?_above {f : Frame} (hs : h.Shows n rest t (lower :: upper :: f :: p))
    (hs' : h'.Shows n rest t (upper :: lower :: f :: p)) :
    ∃ x, h.cell? f.entry.id = some x ∧ x.child f.side = some upper.entry.id ∧
      h'.cell? f.entry.id = some (x.setChild f.side (some lower.entry.id)) := by
  have hbefore := (shows_fill.mpr (shows_fill.mpr hs)).above
  have hafter := (shows_fill.mpr (shows_fill.mpr hs')).above
  rw [Frame.topId_fill] at hbefore hafter
  refine ⟨_, hbefore, f.cell_child _ _, ?_⟩
  rw [hafter, Frame.cell_setChild]

/-! ## The rotation -/

/-- entries come in the same order -/
theorem entries_exchange (hs : h.Shows n rest t (lower :: upper :: p)) (hs' : h'.Shows n rest t (upper :: lower :: p))
    (hside : lower.side = upper.side.opposite) : h'.tree.entries = h.tree.entries := by
  calc h'.tree.entries = (p.fill (lower.fill (upper.fill t))).entries := by rw [(shows_root.mpr hs').tree_eq]; rfl
    _ = (p.fill (upper.fill (lower.fill t))).entries := by
        rw [Path.entries_fill, Path.entries_fill, Frame.entries_exchange hside]
    _ = h.tree.entries := by rw [(shows_root.mpr hs).tree_eq]; rfl

theorem exchanged (hs : h.Shows n rest t (lower :: upper :: p)) (hs' : h'.Shows n rest t (upper :: lower :: p))
    (hside : lower.side = upper.side.opposite) :
    h.Exchanged h' upper.entry.id (upper.cell (some lower.entry.id) p.topId) lower.entry.id
      (lower.cell t.topId (some upper.entry.id)) lower.side := by
  have htree := treelike_of_shows (shows_root.mpr hs)
  have hentries := hs.entries_exchange hs' hside
  have hplace : h.Shows n rest (upper.fill (lower.fill t)) p := shows_fill.mpr (shows_fill.mpr hs)
  have hplace' : h'.Shows n rest (lower.fill (upper.fill t)) p := shows_fill.mpr (shows_fill.mpr hs')
  have hcell : h.cell? upper.entry.id = some (upper.cell (some lower.entry.id) p.topId) := by
    rw [(shows_fill.mpr hs).above, Frame.topId_fill]
  constructor
  case entries => exact hentries
  case treelike => exact treelike_of_shows (shows_root.mpr hs')
  case place =>
    -- there is one way only to the cell, and it is the way down to the hole above which both frames stand
    intro way hway
    obtain rfl : way = p.way := htree.unique _ _ _ hway (by rw [hplace.reach_way, Frame.topId_fill])
    rw [hplace'.reach_way, Frame.topId_fill]
  case root =>
    intro hroot
    have hparent := htree.root _ _ hroot hcell
    refine ⟨hparent, ?_⟩
    rw [Frame.cell_parent] at hparent
    cases p with
    | nil => exact hs'.root
    | cons f p => cases hparent
  case above =>
    intro hroot
    cases p with
    | nil => exact absurd hs.root hroot
    | cons f p =>
      obtain ⟨x, hx, hchild, hx'⟩ := hs.cell?_above hs'
      exact ⟨hs'.root.trans hs.root.symm, f.entry.id, x, f.side, upper.cell_parent _ _, hx, hchild, hx'⟩
  case node =>
    rw [hs'.above, hside, Side.opposite_opposite, Frame.cell_setChild, ← hside, Frame.cell_child, Frame.cell_setParent]
    rfl
  case pivot =>
    rw [(shows_fill.mpr hs').above, Frame.topId_fill, Frame.cell_setChild, Frame.cell_parent, Frame.cell_setParent]
  case inner =>
    intro k hk
    rw [Frame.cell_child] at hk
    exact hs.cell?_inner hs' hk
  case others =>
    intro k hi hj hinner habove
    rw [Frame.cell_child] at hinner
    rw [Frame.cell_parent] at habove
    exact hs.cell?_exchange hs' hj hi hinner habove
  case length =>
    have hsize := congrArg List.length hentries
    rw [(shows_root.mpr hs').tree_eq, (shows_root.mpr hs).tree_eq, Tree.length_entries, Tree.length_entries] at hsize
    rw [(shows_root.mpr hs').length_cells, (shows_root.mpr hs).length_cells, hsize]
  case size => exact hs'.size.trans hs.size.symm

end Shows

/-- **A rotation keeps the tree.** On cells that form a tree, of any colours and with any keys, any cell with a child on the
other side can be rotated towards a side. The cells then come in the same order from left to right, and form a tree again in
which the pivot has the place that the cell had. No cell gets another key, value or colour. -/
theorem rotate_keeps (ht : h.Treelike) (hi : h.Attached i) (hc : h.cell? i = some c) (hj : c.child s.opposite = some j) :
    ∃ d h', h.cell? j = some d ∧ h.rotate i s = some h' ∧ h.Exchanged h' i c j d s ∧
      ∀ k x, h.cell? k = some x → ∃ y, h'.cell? k = some y ∧ y.key = x.key ∧ y.value = x.value ∧ y.color = x.color := by
  obtain ⟨rest, t, p, hs, htop⟩ := ht.exists_place hi
  obtain ⟨c', hc', -, hchild, -⟩ := hs.read htop
  obtain rfl : c = c' := Option.some.inj (hc.symm.trans hc')
  rw [hchild] at hj
  -- the pivot and the cell become the two lowest frames above what hangs between them
  obtain ⟨lower, upper, u, rfl, hupper, rfl, rfl, rfl⟩ := Tree.exists_frames htop hj s
  have hside : lower.side = upper.side.opposite := by rw [hupper, Side.opposite_opposite]
  have hlower : h.Shows h.size rest (lower.fill u) (upper :: p) := shows_fill.mp hs
  have hframes : h.Shows h.size rest u (lower :: upper :: p) := shows_fill.mp hlower
  obtain ⟨h', hrotate, hframes'⟩ := hframes.rotate_above hside
  have hcell := hlower.above
  rw [Frame.topId_fill] at hcell
  obtain rfl : c = _ := Option.some.inj (hc.symm.trans hcell)
  have he := hframes.exchanged hframes' hside
  refine ⟨_, h', hframes.above, hrotate, he, ?_⟩
  intro k x hx
  exact he.kept hc hframes.above hx

/-- the red cell on the right comes up over the root, and its left child changes over -/
theorem rotate_keeps_root :
    sixCells.Treelike ∧ sixCells.Attached 0 ∧
      ∃ h', sixCells.rotate 0 .left = some h' ∧ h'.Treelike ∧ h'.root = some 2 ∧ h'.tree.entries = sixCells.tree.entries ∧
        (h'.cell? 3).map Cell.parent = some (some 0) ∧ h'.cell? 4 = sixCells.cell? 4 := by
  have hi : sixCells.Attached 0 := ⟨[], rfl⟩
  obtain ⟨d, h', hd, hrotate, he, -⟩ := rotate_keeps valid_sixCells.treelike hi (s := .left) rfl rfl
  obtain rfl : _ = d := Option.some.inj hd
  obtain ⟨x, hx, hx'⟩ := he.inner 3 rfl
  refine ⟨valid_sixCells.treelike, hi, h', hrotate, he.treelike, (he.root rfl).2, he.entries, ?_, ?_⟩
  · rw [hx']
    rfl
  · exact he.others 4 (by decide) (by decide) (by decide) (by decide)

end Linked

end MeteredStore
