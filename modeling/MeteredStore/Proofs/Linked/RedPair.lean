/-
One fault while a new cell is repaired.

A new red cell below a red one is the only fault in its tree. At the head of each turn of `fixInsert` the cells are a tree, with
the pairs it had from the start, in which the current cell is the only one that may be at fault (`InsertHead`): it is red, and
so may be the cell above it, or it is the root. A turn goes two levels up and turns nothing, or it rotates and is the last.

Main statement: `fixInsert_mends`, on cells in order and for any new key,
- the search ends at an absent child, and a red leaf with the pair is linked there;
- at the head of every turn the cells are a tree with the same pairs in order, with all links between parents and children as
  they should be and the same number of black cells on all ways down; the only fault there may be is that the current cell is
  red below a red cell, or red at the root;
- there are at most as many turns that recolour as the tree was high, and at most two rotations, and all else that the loop does
  is to paint cells;
- then the root is painted black, and the ways down pass as many black cells as before, or one more.
-/
import MeteredStore.Proofs.Linked.Loops
import MeteredStore.Proofs.Linked.Treelike

namespace MeteredStore

theorem Path.length_le_height (p : Path) (t : Tree) : p.length + t.height ≤ (p.fill t).height := by
  induction p generalizing t with
  | nil => simp
  | cons f p ih =>
    have hf : t.height + 1 ≤ (f.fill t).height := by
      obtain ⟨s, c, e, b⟩ := f
      cases s <;> simp only [Frame.fill, Tree.height] <;> omega
    calc (f :: p).length + t.height = p.length + (t.height + 1) := by rw [List.length_cons]; omega
      _ ≤ p.length + (f.fill t).height := Nat.add_le_add_left hf _
      _ ≤ (Path.fill p (f.fill t)).height := ih (f.fill t)

namespace Insertion

/-- a turn of the repair leads from one state to another -/
def Makes (s : Insertion) (turn : Turn) (u : Insertion) : Prop := s.step = .ok (some (turn, u))

variable {s u : Insertion} {turn : Turn} {m : Nat}

/-- a turn that rotates is the last one -/
theorem Makes.last (hs : s.Sound m) (h : s.Makes turn u) (hturn : turn ≠ .recolor) (turn' : Turn) (v : Insertion) :
    ¬ u.Makes turn' v := by
  intro h'
  rcases step_sound hs with ⟨hnone, -⟩ | ⟨t, w, hstep, -, -, hlast⟩
  · cases h.symm.trans hnone
  · cases h.symm.trans hstep
    cases h'.symm.trans (step_of_black (hlast hturn))

/-- a turn that recolours goes up two levels -/
theorem Makes.length_path (hs : s.Sound m) (h : s.Makes .recolor u) : s.path.length = u.path.length + 2 := by
  obtain ⟨parent, grand, top, hpath, hp⟩ := exists_kin h
  obtain ⟨focus, path⟩ := s
  obtain rfl : path = parent :: grand :: top := hpath
  cases hu : grand.sibling.color with
  | red =>
    cases h.symm.trans (step_recolor hp hu)
    rfl
  | black =>
    by_cases hside : parent.side = grand.side
    · cases h.symm.trans (step_rotate hp hu hside)
    · obtain ⟨l, e, r, rfl⟩ := Tree.exists_node_of_red hs.red
      cases h.symm.trans (step_rotateTwice hp hu hside)

end Insertion

namespace Linked

variable {h : Linked} {x y : NodeId × Linked} {s u : Insertion} {turns : List Insertion.Turn} {n m : Nat} {rest : Bag}
  {pairs : List Entry}

/-! ## The head of a turn -/

/-- the head of a turn of `fixInsert`, beside a tree in repair -/
structure InsertHead (n m : Nat) (pairs : List Entry) (x : NodeId × Linked) (s : Insertion) : Prop where
  /-- each cell is reached by one way, and a child names as its parent the cell that holds it -/
  treelike : x.2.Treelike
  size : x.2.size = n
  tree : x.2.tree = s.tree
  /-- the current cell is the one in focus -/
  current : s.focus.topId = some x.1
  /-- all ways down pass `m` black cells, and nothing is wrong but that the current cell, which is red, may hang from a red one
  or be the root -/
  sound : s.Sound m
  /-- the pairs with their cells, from left to right -/
  entries : s.tree.entries = pairs

theorem insertHead_of_shows (hs : x.2.Shows n rest s.focus s.path) (hcurrent : s.focus.topId = some x.1) (hsound : s.Sound m)
    (hentries : s.tree.entries = pairs) : InsertHead n m pairs x s := by
  have hroot : x.2.Shows n rest s.tree [] := shows_root.mpr hs
  exact ⟨treelike_of_shows hroot, hs.size, hroot.tree_eq, hcurrent, hsound, hentries⟩

namespace InsertHead

theorem shows (hx : InsertHead n m pairs x s) : ∃ rest, x.2.Shows n rest s.focus s.path := by
  obtain ⟨rest, hs⟩ := hx.treelike.shows
  rw [hx.size, hx.tree] at hs
  exact ⟨rest, shows_root.mp hs⟩

/-- no turn is due below a black cell; else the next head is as this one is -/
theorem turn (hx : InsertHead n m pairs x s) :
    x.2.insertTurn x.1 = some none ∨ ∃ y turn u, x.2.insertTurn x.1 = some (some y) ∧ s.Makes turn u ∧
      InsertHead n m pairs y u ∧ Reshaped turn.rotations x.2 y.2 := by
  obtain ⟨rest, hs⟩ := hx.shows
  rcases Insertion.step_sound hx.sound with ⟨-, hblack⟩ | ⟨turn, u, hstep, hsound, hentries, -⟩
  · exact .inl (insertTurn_of_black hs hx.current hblack)
  · obtain ⟨j, k, hturn, hcurrent, hs', hreshaped⟩ := insertTurn_spec hstep hs hx.current
    have hhead : InsertHead n m pairs (j, k) u := insertHead_of_shows hs' hcurrent hsound (hentries.trans hx.entries)
    exact .inr ⟨(j, k), turn, u, hturn, hstep, hhead, hreshaped⟩

end InsertHead

/-! ## The whole loop -/

/-- the loop goes along with the repair of the tree -/
theorem exists_insert_along (hx : InsertHead n m pairs x s) :
    ∃ turns y u, Along (fun x => x.2.insertTurn x.1) (InsertHead n m pairs) Insertion.Makes x s turns y u ∧
      turns.length ≤ s.path.length := by
  apply exists_along (fun s => s.path.length) _ hx
  intro x s hx
  rcases hx.turn with hnone | ⟨y, turn, u, hturn, hmakes, hy, -⟩
  · exact .inl hnone
  · exact .inr ⟨y, turn, u, hturn, hmakes, hy, Insertion.length_path_step hmakes⟩

/-- where the loop ends, the root is painted -/
theorem fixInsert_of_along (hx : InsertHead n m pairs x s)
    (ha : Along (fun x => x.2.insertTurn x.1) (InsertHead n m pairs) Insertion.Makes x s turns y u)
    (hturns : turns.length ≤ s.path.length) : x.2.fixInsert x.1 = y.2.root.bind fun i => y.2.paint i .black := by
  obtain ⟨rest, hs⟩ := hx.shows
  have hlength := hs.length_le
  exact ha.turns_eq (by rw [limit]; omega)

/-- two levels for each turn that recolours -/
theorem count_recolor_le
    (ha : Along (fun x => x.2.insertTurn x.1) (InsertHead n m pairs) Insertion.Makes x s turns y u) :
    2 * turns.count .recolor ≤ s.path.length := by
  induction ha with
  | done => exact Nat.zero_le _
  | @more _ _ _ _ _ _ turn _ hx _ hmakes _ ih =>
    by_cases hturn : turn = .recolor
    · subst hturn
      rw [List.count_cons_self, hmakes.length_path hx.sound]
      omega
    · rw [List.count_cons_of_ne hturn]
      exact ih.trans (Nat.le_of_lt (Insertion.length_path_step hmakes))

/-- rotations are made by the last turn only -/
theorem sum_rotations_insert_le
    (ha : Along (fun x => x.2.insertTurn x.1) (InsertHead n m pairs) Insertion.Makes x s turns y u) :
    (turns.map Insertion.Turn.rotations).sum ≤ 2 := by
  apply ha.sum_le
  intro x s turn u hx hmakes
  cases turn with
  | recolor => exact .inl rfl
  | rotate => exact .inr ⟨by decide, hmakes.last hx.sound (by decide)⟩
  | rotateTwice => exact .inr ⟨by decide, hmakes.last hx.sound (by decide)⟩

theorem reshaped_insert (ha : Along (fun x => x.2.insertTurn x.1) (InsertHead n m pairs) Insertion.Makes x s turns y u) :
    Reshaped (turns.map Insertion.Turn.rotations).sum x.2 y.2 := by
  apply ha.reshaped
  intro x s y turn u hx hturn hmakes
  rcases hx.turn with hnone | ⟨y', turn', u', hturn', hmakes', -, hreshaped⟩
  · cases hturn.symm.trans hnone
  · cases hturn.symm.trans hturn'
    cases hmakes.symm.trans hmakes'
    exact hreshaped

/-! ## From a new cell to the end -/

/-- the memory with a new red cell where the search for its key ends: a leaf, which brings its pair and changes no other -/
structure Grown (h : Linked) (key value : Bytes) (i : NodeId) (k : Linked) : Prop where
  grow : h.grow key value = some (some (i, k))
  leaf : ∃ parent, k.cell? i = some ⟨key, value, .red, none, none, parent⟩
  entries : ∃ a b, h.tree.entries = a ++ b ∧ k.tree.entries = a ++ ⟨i, key, value⟩ :: b

/-- the new cell is one sound fault in the tree, whose ways down pass as many black cells as before -/
theorem exists_grown (hv : h.Valid) {key : Bytes} (hkey : ¬ h.Binds key) (value : Bytes) :
    ∃ k p rest m, h.Grown key value h.cells.length k ∧ h.tree.descend key [] = (.leaf, p) ∧ p.fill .leaf = h.tree ∧
      k.Shows (h.tree.size + 1) rest (Tree.single ⟨h.cells.length, key, value⟩) p ∧ h.tree.BlackHeight m ∧
      Insertion.Sound ⟨Tree.single ⟨h.cells.length, key, value⟩, p⟩ m := by
  obtain ⟨rest, hs⟩ := hv.shows
  obtain ⟨m, hm⟩ := hv.redBlack.balanced
  have hfill := Tree.fill_descend key h.tree []
  cases hd : h.tree.descend key [] with
  | mk found p =>
    rw [hd, Path.fill_nil] at hfill
    cases found with
    | leaf =>
      obtain ⟨k, hgrow, hk⟩ := grow_spec hs hv.ordered hd value
      have hroot : k.Shows (h.tree.size + 1) rest (p.fill (Tree.single ⟨h.cells.length, key, value⟩)) [] := shows_root.mpr hk
      have hsound := Insertion.sound_single (hfill.symm ▸ hv.redBlack.colored) (hfill.symm ▸ hm) ⟨h.cells.length, key, value⟩
      refine ⟨k, p, rest, m, ⟨hgrow, ⟨p.topId, hk.top⟩, p.before, p.after, ?_, ?_⟩, rfl, hfill, hk, hm, hsound⟩
      · rw [← hfill, Path.entries_fill]
        simp [Tree.entries]
      · rw [hroot.tree_eq, Path.entries_fill]
        simp [Tree.single, Tree.entries]
    | node c l e r =>
      have he : e ∈ h.tree.entries := by
        rw [← hfill, Path.entries_fill]
        simp [Tree.entries]
      exact absurd (hs.binds_iff.mpr ⟨e, he, Tree.descend_key hd⟩) hkey

/-- the end of the loop is the end of the repair of the tree, and that is the tree with the key put in -/
theorem Grown.exists_fixInsert {key value : Bytes} {k : Linked} {p : Path}
    (hgrown : h.Grown key value h.cells.length k) (hv : h.Valid) (hd : h.tree.descend key [] = (.leaf, p))
    (hk : k.Shows (h.tree.size + 1) rest (Tree.single ⟨h.cells.length, key, value⟩) p)
    (hsound : Insertion.Sound ⟨Tree.single ⟨h.cells.length, key, value⟩, p⟩ m) :
    ∃ k', k.fixInsert h.cells.length = some k' ∧ k'.Valid ∧ k'.tree.entries = k.tree.entries ∧
      (k'.tree.BlackHeight m ∨ k'.tree.BlackHeight (m + 1)) := by
  have hroot : k.Shows (h.tree.size + 1) rest (p.fill (Tree.single ⟨h.cells.length, key, value⟩)) [] := shows_root.mpr hk
  obtain ⟨k', root, hfin, hfix, hs'⟩ := fixInsert_spec hsound hk rfl
  obtain ⟨root', hfin', -, -, hheight, hentries⟩ := Insertion.finish?_sound hsound
  cases hfin.symm.trans hfin'
  obtain ⟨new, root', hinsert, hredBlack, -⟩ := Tree.insert?_spec hv.redBlack h.cells.length key value
  have hinsert' : h.tree.insert? h.cells.length key value = .ok (true, root) := by simp only [Tree.insert?, hd, hfin]
  cases hinsert.symm.trans hinsert'
  have hk' : k'.tree.entries = k.tree.entries := by rw [hs'.tree_eq, hroot.tree_eq]; exact hentries
  have hsize : root.size = h.tree.size + 1 := by
    obtain ⟨a, b, ha, hb⟩ := hgrown.entries
    rw [← Tree.length_entries, ← Tree.length_entries, ← hs'.tree_eq, hk', ha, hb, List.length_append, List.length_append,
      List.length_cons]
    rfl
  exact ⟨k', hfix, valid_of_shows (hsize.symm ▸ hs') hredBlack, hk', by rwa [hs'.tree_eq]⟩

/-- **One fault at most.** Let a new key be put into cells in order: a red leaf is linked where the search ends. From there the
loop of `fixInsert` goes along with the repair of the tree to its end, with one fault at most at the head of every turn. As many
turns recolour as the tree was high, and two rotate, at most. Then the cells are in order, with the same pairs. -/
theorem fixInsert_mends (hv : h.Valid) {key : Bytes} (hkey : ¬ h.Binds key) (value : Bytes) :
    ∃ i k m s turns x u, h.Grown key value i k ∧ h.tree.BlackHeight m ∧
      Along (fun x => x.2.insertTurn x.1) (InsertHead k.size m k.tree.entries) Insertion.Makes (i, k) s turns x u ∧
      turns.count .recolor ≤ h.tree.height ∧
      (turns.map Insertion.Turn.rotations).sum ≤ 2 ∧ Reshaped (turns.map Insertion.Turn.rotations).sum k x.2 ∧
      ∃ root k', x.2.root = some root ∧ x.2.paint root .black = some k' ∧ k.fixInsert i = some k' ∧ k'.Valid ∧
        k'.tree.entries = k.tree.entries ∧ (k'.tree.BlackHeight m ∨ k'.tree.BlackHeight (m + 1)) := by
  obtain ⟨k, p, rest, m, hgrown, hd, hfill, hk, hm, hsound⟩ := exists_grown hv hkey value
  have hroot : k.Shows (h.tree.size + 1) rest (p.fill (Tree.single ⟨h.cells.length, key, value⟩)) [] := shows_root.mpr hk
  have hhead : InsertHead k.size m k.tree.entries (h.cells.length, k) ⟨Tree.single ⟨h.cells.length, key, value⟩, p⟩ :=
    insertHead_of_shows (hk.size.symm ▸ hk) rfl hsound (by rw [hroot.tree_eq]; rfl)
  obtain ⟨turns, x, u, halong, hturns⟩ := exists_insert_along hhead
  have hcount : turns.count .recolor ≤ h.tree.height := by
    calc turns.count .recolor ≤ 2 * turns.count .recolor := Nat.le_mul_of_pos_left _ (by decide)
      _ ≤ p.length := count_recolor_le halong
      _ ≤ (p.fill .leaf).height := p.length_le_height .leaf
      _ = h.tree.height := by rw [hfill]
  obtain ⟨k', hfix, hvalid, hentries, hheight⟩ := hgrown.exists_fixInsert hv hd hk hsound
  obtain ⟨i, hi, hpaint⟩ := Option.bind_eq_some_iff.mp ((fixInsert_of_along hhead halong hturns).symm.trans hfix)
  exact ⟨h.cells.length, k, m, _, turns, x, u, hgrown, hm, halong, hcount, sum_rotations_insert_le halong,
    reshaped_insert halong, i, k', hi, hpaint, hfix, hvalid, hentries, hheight⟩

/-- the new cell hangs right of a red cell that hangs left: two rotations -/
theorem fixInsert_mends_inner :
    sixCells.Valid ∧ ¬ sixCells.Binds [3, 5] ∧
      ∃ i k k', sixCells.Grown [3, 5] [9] i k ∧ k.fixInsert i = some k' ∧ k'.Valid ∧ k'.tree.entries = k.tree.entries := by
  have hkey : ¬ sixCells.Binds [3, 5] := by
    rw [shows_sixCells.binds_iff]
    decide
  obtain ⟨i, k, m, s, turns, x, u, hgrown, -, -, -, -, -, root, k', -, -, hfix, hvalid, hentries, -⟩ :=
    fixInsert_mends valid_sixCells hkey [9]
  exact ⟨valid_sixCells, hkey, i, k, k', hgrown, hfix, hvalid, hentries⟩

end Linked

end MeteredStore
