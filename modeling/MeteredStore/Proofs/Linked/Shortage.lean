/-
One black cell short while a cell is unlinked.

A cell that goes is a red leaf, a black cell over a red leaf, or a black leaf (`Tree.doomed_cases`). Only a black leaf is
missed: at the head of each turn of `fixDelete` the ways down through the current cell are one black cell short, once the leaf
is taken away, and nothing else is wrong (`Removal.OneShort`). The leaf itself stays where it is in order, and stays a leaf
(`DeleteHead`). A turn moves the shortage up, or it is the last one (`Removal.Makes.last`).

Main statement: `unlink_mends`, whichever cell goes from cells in order, it is one of the three, and `fixDelete` runs for a black
leaf only (`Unlinks`). Its loop goes along with the repair of the tree to its end, and at the head of every turn that is made
- the ways down through the current cell are exactly one black cell short when the leaf is taken away, and all other rules hold;
- the leaf is linked still, is a leaf still, and has its pair, and the pairs are in the same order.
There are at most three rotations, and the cells are in order when the cell is unlinked.
-/
import MeteredStore.Proofs.Linked.Loops
import MeteredStore.Proofs.Linked.Treelike

namespace MeteredStore

namespace Tree

/-- what a node with at most one child can be: a red leaf, a black node over a red leaf, or a black leaf -/
theorem doomed_cases {c : Color} {l r : Tree} {e : Entry} {n : Nat} (h : l = leaf ∨ r = leaf)
    (hr : (node c l e r).NoRedRed) (hb : (node c l e r).BlackHeight n) :
    (c = .red ∧ l = leaf ∧ r = leaf) ∨ (c = .black ∧ ∃ f, l = single f ∧ r = leaf ∨ l = leaf ∧ r = single f) ∨
      (c = .black ∧ l = leaf ∧ r = leaf) := by
  -- beside an absent child there is nothing black
  have hchild : ∀ t : Tree, t.NoRedRed → t.BlackHeight 0 → t = leaf ∨ ∃ f, t = single f := by
    intro t hr hb
    cases hc : t.color with
    | black => exact .inl (eq_leaf_of_black hc hb)
    | red =>
      obtain ⟨l, f, r, rfl⟩ := exists_node_of_red hc
      obtain rfl := eq_leaf_of_black (hr.1 rfl).1 hb.1
      obtain rfl := eq_leaf_of_black (hr.1 rfl).2 hb.2
      exact .inr ⟨f, rfl⟩
  cases c with
  | red =>
    left
    rcases h with rfl | rfl
    · obtain rfl : n = 0 := hb.1
      exact ⟨rfl, rfl, eq_leaf_of_black (hr.1 rfl).2 hb.2⟩
    · obtain rfl : n = 0 := hb.2
      exact ⟨rfl, eq_leaf_of_black (hr.1 rfl).1 hb.1, rfl⟩
  | black =>
    right
    obtain ⟨k, -, hl, hr'⟩ := exists_blackHeight_black hb
    rcases h with rfl | rfl
    · obtain rfl : k = 0 := hl
      rcases hchild r hr.2.2 hr' with rfl | ⟨f, rfl⟩
      · exact .inr ⟨rfl, rfl, rfl⟩
      · exact .inl ⟨rfl, f, .inr ⟨rfl, rfl⟩⟩
    · obtain rfl : k = 0 := hr'
      rcases hchild l hr.2.1 hl with rfl | ⟨f, rfl⟩
      · exact .inr ⟨rfl, rfl, rfl⟩
      · exact .inl ⟨rfl, f, .inl ⟨rfl, rfl⟩⟩

end Tree

namespace Removal

variable {s u : Removal} {turn : Turn} {m : Nat} {lowered : Bool} {parent : Frame} {top : Path}

/-- the whole tree, the doomed node taken out -/
def spared (s : Removal) : Tree := s.place.fill .leaf

theorem spared_eq (s : Removal) : s.spared = s.above.fill s.rest := Path.fill_append _ _ _

/-- without the doomed node, the ways down through the current node are one black node short, and all else is right -/
structure OneShort (s : Removal) (m : Nat) : Prop where
  /-- `k` black nodes where there should be one more, so that all ways down would pass `m` -/
  short : ∃ k, s.rest.BlackHeight k ∧ Path.BlackHeight s.above (k + 1) m
  black : s.spared.color = .black
  noRedRed : s.spared.NoRedRed
  ordered : s.spared.Ordered

/-- a turn of the repair leads from one state, which is one black node short, to another -/
def Makes (m : Nat) (s : Removal) (turn : Turn) (u : Removal) : Prop := s.step = .ok (some (turn, u)) ∧ s.OneShort m

/-- a turn is due at a black node below another -/
theorem black_of_step (h : s.step = .ok (some (turn, u))) : s.color = .black ∧ s.above ≠ [] := by
  obtain ⟨d, below, above⟩ := s
  cases hc : color ⟨d, below, above⟩ with
  | red => simp [step, hc] at h
  | black =>
    cases above with
    | nil => simp [step, hc] at h
    | cons parent top => exact ⟨rfl, by simp⟩

theorem Short.oneShort (hs : s.Short m) (hc : s.color = .black) (ha : s.above ≠ []) (ho : s.spared.Ordered) :
    s.OneShort m := by
  have hrest : s.rest.color = .black := (color_rest hs.doomed).trans hc
  have hlower := hs.lower
  rw [Tree.paint_of_color hrest] at hlower
  refine ⟨hs.height, ?_, ?_, ho⟩
  · rw [spared_eq, Path.color_fill, Path.rootColor_congr ha _ s.color]
    exact hs.root
  · rw [spared_eq]
    exact (Path.noRedRed_fill _ _).mpr ⟨hlower, fun _ => hrest, hs.upper⟩

/-- the rest of a turn goes up to the parent, or to the root -/
theorem resolve_cases (h : s.resolve lowered parent top = .ok (turn, u)) :
    (turn = .climb lowered ∧ u.color = parent.color) ∨
      (∃ straightened, turn = .rotate lowered straightened) ∧ u.above = [] := by
  simp only [resolve] at h
  split at h
  · cases h
  split at h
  · cases h
    exact .inl ⟨rfl, rfl⟩
  split at h
  · cases h
  split at h
  · cases h
  split at h
  · cases h
  · cases h
    exact .inr ⟨⟨_, rfl⟩, rfl⟩

/-- a turn that rotates is the last one: it ends at a red node or at the root -/
theorem done_of_rotations (h : s.step = .ok (some (turn, u))) (hturn : turn.rotations ≠ 0) :
    turn.rotations ≤ 3 ∧ (u.color = .red ∨ u.above = []) := by
  have hle : turn.rotations ≤ 3 := by
    cases turn with
    | climb lowered => cases lowered <;> decide
    | rotate lowered straightened => cases lowered <;> cases straightened <;> decide
  refine ⟨hle, ?_⟩
  obtain ⟨hc, ha⟩ := black_of_step h
  obtain ⟨parent, top, habove⟩ := List.exists_cons_of_ne_nil ha
  simp only [step, hc, habove] at h
  split at h
  · split at h
    · cases h
    · next lower upper hsink =>
      cases hr : s.resolve true lower (upper :: top) with
      | error f => simp [hr, Except.map] at h
      | ok r =>
        simp only [hr, Except.map, Except.ok.injEq, Option.some.injEq] at h
        subst h
        rcases resolve_cases hr with ⟨-, hcolor⟩ | ⟨-, hroot⟩
        · exact .inl (hcolor.trans (Frame.color_of_sink? hsink))
        · exact .inr hroot
  · cases hr : s.resolve false parent top with
    | error f => simp [hr, Except.map] at h
    | ok r =>
      simp only [hr, Except.map, Except.ok.injEq, Option.some.injEq] at h
      subst h
      rcases resolve_cases hr with ⟨rfl, -⟩ | ⟨-, hroot⟩
      · exact absurd rfl hturn
      · exact .inr hroot

theorem Makes.last (h : Makes m s turn u) (hturn : turn.rotations ≠ 0) (turn' : Turn) (v : Removal) : ¬ Makes m u turn' v := by
  intro h'
  obtain ⟨hc, ha⟩ := black_of_step h'.1
  rcases (done_of_rotations h.1 hturn).2 with hred | hroot
  · cases hc.symm.trans hred
  · exact ha hroot

end Removal

namespace Linked

variable {h k : Linked} {x y : NodeId × Linked} {s u : Removal} {turns : List Removal.Turn} {n m : Nat} {rest : Bag}
  {pairs : List Entry} {e : Entry} {i j : NodeId} {p : Path}

/-! ## The head of a turn -/

/-- the head of a turn of `fixDelete` for a black leaf with entry `e`, beside a tree in repair -/
structure DeleteHead (n m : Nat) (e : Entry) (pairs : List Entry) (x : NodeId × Linked) (s : Removal) : Prop where
  /-- each cell is reached by one way, and a child names as its parent the cell that holds it -/
  treelike : x.2.Treelike
  size : x.2.size = n
  tree : x.2.tree = s.tree
  current : s.current.topId = some x.1
  doomed : s.doomed = .node .black .leaf e .leaf
  /-- the cell that goes is linked still, is a leaf, and has its pair -/
  leaf : x.2.Attached e.id ∧ ∃ parent, x.2.cell? e.id = some ⟨e.key, e.value, .black, none, none, parent⟩
  /-- the pairs with their cells, from left to right -/
  entries : s.tree.entries = pairs
  /-- without the cell that goes the keys increase -/
  ordered : s.spared.Ordered
  /-- of `m` black cells one is missing at the current cell, or nothing is wrong any more -/
  balance : s.Short m ∨ s.Whole m

theorem deleteHead_of_shows (hs : x.2.Shows n rest s.current s.above) (hcurrent : s.current.topId = some x.1)
    (hdoomed : s.doomed = .node .black .leaf e .leaf) (hentries : s.tree.entries = pairs) (hordered : s.spared.Ordered)
    (hbalance : s.Short m ∨ s.Whole m) : DeleteHead n m e pairs x s := by
  have hplace := (shows_current s).mp hs
  have hroot : x.2.Shows n rest s.tree [] := shows_root.mpr hplace
  have htop := hplace
  rw [hdoomed] at htop
  have hmem : e ∈ s.tree.entries := by
    rw [Removal.tree, Path.entries_fill, hdoomed]
    simp [Tree.entries]
  exact ⟨treelike_of_shows hroot, hs.size, hroot.tree_eq, hcurrent, hdoomed, ⟨(hroot.exists_cell hmem).1, _, htop.top⟩,
    hentries, hordered, hbalance⟩

namespace DeleteHead

theorem shows (hx : DeleteHead n m e pairs x s) : ∃ rest, x.2.Shows n rest s.current s.above := by
  obtain ⟨rest, hs⟩ := hx.treelike.shows
  rw [hx.size, hx.tree] at hs
  exact ⟨rest, (shows_current s).mpr (shows_root.mp hs)⟩

/-- no turn is due at a red cell and at the root; else the next head is as this one is -/
theorem turn (hx : DeleteHead n m e pairs x s) :
    x.2.deleteTurn x.1 = some none ∨ ∃ y turn u, x.2.deleteTurn x.1 = some (some y) ∧ Removal.Makes m s turn u ∧
      DeleteHead n m e pairs y u ∧ Reshaped turn.rotations x.2 y.2 := by
  obtain ⟨rest, hs⟩ := hx.shows
  rcases hx.balance with hshort | hwhole
  · rcases Removal.step_short hshort with ⟨-, hdone⟩ | ⟨turn, u, hstep, hbalance, hdoomed, hbefore, hafter⟩
    · exact .inl (deleteTurn_of_done hs hx.current (by rwa [Removal.color_current]))
    · obtain ⟨hc, ha⟩ := Removal.black_of_step hstep
      obtain ⟨j, k, hturn, hcurrent, hs', hreshaped⟩ := deleteTurn_spec hstep hs hx.current
      have hentries : ∀ t : Tree, (u.place.fill t).entries = (s.place.fill t).entries := by
        intro t
        rw [Path.entries_fill, Path.entries_fill, hbefore, hafter]
      have hhead : DeleteHead n m e pairs (j, k) u := by
        refine deleteHead_of_shows hs' hcurrent (hdoomed.trans hx.doomed) ?_ ?_ hbalance
        · rw [Removal.tree, hentries, hdoomed]
          exact hx.entries
        · rw [Tree.Ordered, Removal.spared, hentries]
          exact hx.ordered
      exact .inr ⟨(j, k), turn, u, hturn, ⟨hstep, hshort.oneShort hc ha hx.ordered⟩, hhead, hreshaped⟩
  · exact .inl (deleteTurn_of_done hs hx.current (.inr hwhole.above))

end DeleteHead

/-! ## The whole loop -/

/-- the loop goes along with the repair of the tree -/
theorem exists_delete_along (hx : DeleteHead n m e pairs x s) :
    ∃ turns y u, Along (fun x => x.2.deleteTurn x.1) (DeleteHead n m e pairs) (Removal.Makes m) x s turns y u ∧
      turns.length ≤ s.measure := by
  apply exists_along Removal.measure _ hx
  intro x s hx
  rcases hx.turn with hnone | ⟨y, turn, u, hturn, hmakes, hy, -⟩
  · exact .inl hnone
  · exact .inr ⟨y, turn, u, hturn, hmakes, hy, Removal.measure_step hmakes.1⟩

/-- where the loop ends, the current cell is painted -/
theorem fixDelete_of_along (hx : DeleteHead n m e pairs x s)
    (ha : Along (fun x => x.2.deleteTurn x.1) (DeleteHead n m e pairs) (Removal.Makes m) x s turns y u)
    (hturns : turns.length ≤ s.measure) : x.2.fixDelete x.1 = y.2.paint y.1 .black := by
  obtain ⟨rest, hs⟩ := hx.shows
  have hlength := hs.length_le
  have hone : 0 < s.current.entries.length := Tree.length_entries_pos hx.current
  rw [Removal.measure] at hturns
  exact ha.turns_eq (by rw [limit]; split at hturns <;> omega)

/-- rotations are made by the last turn only -/
theorem sum_rotations_delete_le
    (ha : Along (fun x => x.2.deleteTurn x.1) (DeleteHead n m e pairs) (Removal.Makes m) x s turns y u) :
    (turns.map Removal.Turn.rotations).sum ≤ 3 := by
  apply ha.sum_le
  intro x s turn u _ hmakes
  by_cases hturn : turn.rotations = 0
  · exact .inl hturn
  · exact .inr ⟨(Removal.done_of_rotations hmakes.1 hturn).1, hmakes.last hturn⟩

theorem reshaped_delete
    (ha : Along (fun x => x.2.deleteTurn x.1) (DeleteHead n m e pairs) (Removal.Makes m) x s turns y u) :
    Reshaped (turns.map Removal.Turn.rotations).sum x.2 y.2 := by
  apply ha.reshaped
  intro x s y turn u hx hturn hmakes
  rcases hx.turn with hnone | ⟨y', turn', u', hturn', hmakes', -, hreshaped⟩
  · cases hturn.symm.trans hnone
  · cases hturn.symm.trans hturn'
    cases hmakes.1.symm.trans hmakes'.1
    exact hreshaped

/-! ## Unlinking a cell -/

/-- what cell `j` is, and how it is unlinked from a tree. For a red leaf and for a black cell over a red leaf nothing needs
repair. For a black leaf `fixDelete` runs: it goes along with the repair of the tree, makes at most three rotations, keeps the
pairs in order, and leaves the cell where it is, without a child as it was when its child was looked up -/
inductive Unlinks (k : Linked) (j : NodeId) : Prop where
  | red {c : Cell} (hc : k.cell? j = some c) (hcolor : c.color = .red) (hleaf : c.left = none ∧ c.right = none)
      (hunlink : k.unlink j = k.replace j none) : Unlinks k j
  | redChild {c d : Cell} {child : NodeId} (hc : k.cell? j = some c) (hcolor : c.color = .black)
      (hchild : c.left = some child ∧ c.right = none ∨ c.left = none ∧ c.right = some child)
      (hd : k.cell? child = some d) (hred : d.color = .red) (hleaf : d.left = none ∧ d.right = none)
      (hunlink : k.unlink j = (k.paint child .black).bind fun a => a.replace j (some child)) : Unlinks k j
  | blackLeaf {c : Cell} {m : Nat} {s u : Removal} {turns : List Removal.Turn} {x : NodeId × Linked} {a : Linked}
      (hc : k.cell? j = some c) (hcolor : c.color = .black) (hleaf : c.left = none ∧ c.right = none)
      (halong : Along (fun x => x.2.deleteTurn x.1) (DeleteHead k.size m ⟨j, c.key, c.value⟩ k.tree.entries)
        (Removal.Makes m) (j, k) s turns x u)
      (hrotations : (turns.map Removal.Turn.rotations).sum ≤ 3)
      (hreshaped : Reshaped (turns.map Removal.Turn.rotations).sum k x.2)
      (hpaint : x.2.paint x.1 .black = some a) (hfix : k.fixDelete j = some a)
      (hentries : a.tree.entries = k.tree.entries) (hattached : a.Attached j)
      (hstays : ∃ parent, a.cell? j = some { c with parent := parent })
      (hunlink : k.unlink j = a.replace j none) : Unlinks k j

theorem unlinks_red (hs : k.Shows n rest (.node .red .leaf e .leaf) p) : k.Unlinks e.id := by
  refine .red hs.top rfl ⟨rfl, rfl⟩ ?_
  simp only [unlink, hs.top, reduceCtorEq, if_false, Option.bind_eq_bind, Option.bind_some]
  rfl

theorem unlinks_redChild {l r : Tree} {f : Entry} (hs : k.Shows n rest (.node .black l e r) p)
    (hchild : l = Tree.single f ∧ r = .leaf ∨ l = .leaf ∧ r = Tree.single f) : k.Unlinks e.id := by
  have r₀ := hs.top
  have r₁ : k.cell? f.id = some ⟨f.key, f.value, .red, none, none, some e.id⟩ := by
    rcases hchild with ⟨rfl, rfl⟩ | ⟨rfl, rfl⟩
    · exact ((shows_fill (f := ⟨.left, .black, e, .leaf⟩)).mp hs).top
    · exact ((shows_fill (f := ⟨.right, .black, e, .leaf⟩)).mp hs).top
  have hlinks : l.topId = some f.id ∧ r.topId = none ∨ l.topId = none ∧ r.topId = some f.id := by
    rcases hchild with ⟨rfl, rfl⟩ | ⟨rfl, rfl⟩
    · exact .inl ⟨rfl, rfl⟩
    · exact .inr ⟨rfl, rfl⟩
  have honly : (l.topId <|> r.topId) = some f.id := by
    rcases hlinks with ⟨hl, hr⟩ | ⟨hl, hr⟩ <;> rw [hl, hr] <;> rfl
  have hred : k.isRed (some f.id) = true := by simp [isRed, r₁]
  refine .redChild r₀ rfl hlinks r₁ rfl ⟨rfl, rfl⟩ ?_
  simp only [unlink, r₀, honly, hred, if_true, Option.bind_eq_bind, Option.bind_some]

theorem unlinks_blackLeaf (hs : k.Shows n rest (.node .black .leaf e .leaf) p)
    (hcol : (p.fill (.node .black .leaf e .leaf)).Colored) (ho : (p.fill .leaf).Ordered) : k.Unlinks e.id := by
  have r₀ := hs.top
  have hroot : k.Shows n rest (p.fill (.node .black .leaf e .leaf)) [] := shows_root.mpr hs
  obtain ⟨m, hm⟩ := hcol.balanced
  have hshort := Removal.short_leaf hcol hm
  have hhead : DeleteHead k.size m e k.tree.entries (e.id, k) ⟨.node .black .leaf e .leaf, [], p⟩ :=
    deleteHead_of_shows (hs.size.symm ▸ hs) rfl rfl (by rw [hroot.tree_eq]; rfl) ho (.inl hshort)
  obtain ⟨turns, x, u, halong, hturns⟩ := exists_delete_along hhead
  obtain ⟨v, hfin, hdoomed, ⟨hbefore, hafter⟩, -⟩ := Removal.finish?_short hshort
  obtain ⟨a, hfix, hs'⟩ := fixDelete_spec (i := e.id) hfin hs rfl
  rw [hdoomed] at hs'
  have hroot' : a.Shows n rest (v.place.fill (.node .black .leaf e .leaf)) [] := shows_root.mpr hs'
  have hentries : a.tree.entries = k.tree.entries := by
    calc a.tree.entries = (v.place.fill (.node .black .leaf e .leaf)).entries := by rw [hroot'.tree_eq]
      _ = (p.fill (.node .black .leaf e .leaf)).entries := by rw [Path.entries_fill, Path.entries_fill, hbefore, hafter]; rfl
      _ = k.tree.entries := by rw [hroot.tree_eq]
  have hmem : e ∈ (v.place.fill (.node .black .leaf e .leaf)).entries := by
    rw [Path.entries_fill]
    simp [Tree.entries]
  refine .blackLeaf r₀ rfl ⟨rfl, rfl⟩ halong (sum_rotations_delete_le halong) (reshaped_delete halong)
    ((fixDelete_of_along hhead halong hturns).symm.trans hfix) hfix hentries (hroot'.exists_cell hmem).1 ⟨_, hs'.top⟩ ?_
  simp only [unlink, r₀, Tree.topId, if_true, hfix, Option.bind_eq_bind, Option.bind_some]
  rfl

/-- the cell that is unlinked for the pair of cell `i`, in the tree that it hangs in, and the tree without it -/
structure Doomed (h : Linked) (i : NodeId) (k : Linked) (c : Color) (l : Tree) (e : Entry) (r : Tree) (p : Path)
    (root : Tree) : Prop where
  doomOf : h.doomOf i = some (e.id, k)
  shows : ∃ rest, k.Shows h.tree.size rest (.node c l e r) p
  one : l = .leaf ∨ r = .leaf
  colored : (p.fill (.node c l e r)).Colored
  unlink : (Tree.node c l e r).unlink? p = .ok (.node c l e r, root)
  entries : root.entries = p.before ++ (l.entries ++ r.entries) ++ p.after
  redBlack : root.RedBlack
  size : root.size = h.tree.size - 1

theorem exists_doomed (hv : h.Valid) (hi : h.Attached i) : ∃ k c l e r p root, h.Doomed i k c l e r p root := by
  obtain ⟨rest, hs⟩ := hv.shows
  have ht := hv.redBlack
  obtain ⟨way, hway⟩ := hi
  obtain ⟨x, hx⟩ := hv.cell way i hway
  obtain ⟨c, l, e, r, p, hd, rfl, -⟩ := hs.descend_attached ht ⟨way, hway⟩ hx
  have hfill : p.fill (.node c l e r) = h.tree := by simpa [hd] using Tree.fill_descend x.key h.tree []
  have hfound := hs.shows_descend x.key
  rw [hd] at hfound
  -- the node to take out, and the tree without it
  obtain ⟨d, ld, s, rd, place, hdoom, hone, hcol, -⟩ := Tree.doom_found (hfill.symm ▸ ht.colored)
  obtain ⟨root, hun, -, hentries⟩ := Tree.unlink?_spec hone hcol
  obtain ⟨d', ld', s', rd', root', a, b, herase, hroot, hcase⟩ := Tree.erase?_found ht hd
  have herase' : h.tree.erase? x.key = .ok (some (.node d ld s rd, root)) := by
    simp only [Tree.erase?, hd, hdoom, hun, Except.map]
  cases herase.symm.trans herase'
  obtain ⟨k, hdoomOf, hk⟩ := doomOf_spec hdoom hfound
  have hlength : h.tree.entries.length = root.entries.length + 1 := by
    rcases hcase with ⟨-, -, ha, hb⟩ | ⟨-, -, ha, hb⟩
    · simp only [ha, hb, List.length_append, List.length_cons]
      omega
    · simp only [ha, hb, List.length_append, List.length_cons]
      omega
  rw [Tree.length_entries, Tree.length_entries] at hlength
  exact ⟨k, d, ld, s, rd, place, root, hdoomOf, ⟨rest, hk⟩, hone, hcol, hun, hentries, hroot, by omega⟩

namespace Doomed

variable {c : Color} {l r root : Tree} (hd : h.Doomed i k c l e r p root)
include hd

theorem unlinks : k.Unlinks e.id := by
  obtain ⟨rest, hk⟩ := hd.shows
  obtain ⟨n, m, hm, -⟩ := (Path.balanced_fill _ _).mp hd.colored.balanced
  have hred : (Tree.node c l e r).NoRedRed := ((Path.noRedRed_fill _ _).mp hd.colored.noRedRed).1
  rcases Tree.doomed_cases hd.one hred hm with ⟨rfl, rfl, rfl⟩ | ⟨rfl, f, hchild⟩ | ⟨rfl, rfl, rfl⟩
  · exact unlinks_red hk
  · exact unlinks_redChild hk hchild
  · refine unlinks_blackLeaf hk hd.colored ?_
    rw [Tree.Ordered, Path.entries_fill]
    exact hd.entries ▸ hd.redBlack.ordered

theorem entries_tree : k.tree.entries = p.before ++ l.entries ++ e :: (r.entries ++ p.after) := by
  obtain ⟨rest, hk⟩ := hd.shows
  have hroot : k.Shows h.tree.size rest (p.fill (.node c l e r)) [] := shows_root.mpr hk
  rw [hroot.tree_eq, Path.entries_fill]
  simp [Tree.entries]

/-- without the cell the cells are in order -/
theorem exists_unlink : ∃ h', k.unlink e.id = some h' ∧ ({ h' with size := h'.size - 1 } : Linked).Valid ∧
    h'.tree.entries = p.before ++ l.entries ++ (r.entries ++ p.after) := by
  obtain ⟨rest, hk⟩ := hd.shows
  obtain ⟨h', parent, hunlink, hs⟩ := unlink_spec hd.one hd.unlink hk
  refine ⟨h', hunlink, ?_, ?_⟩
  · exact valid_of_shows ⟨hs.root, (congrArg (· - 1) hs.size).trans hd.size.symm, hs.contents⟩ hd.redBlack
  · rw [hs.tree_eq, hd.entries]
    simp

end Doomed

/-- **One black cell short at most.** Whichever cell of cells in order is unlinked for a pair that goes, it is a red leaf, a
black cell over a red leaf, or a black leaf, and `fixDelete` runs in the last case only. There the ways down through the current
cell are one black cell short at the head of every turn. Once the cell is unlinked, its entry is gone, and the cells are in
order. -/
theorem unlink_mends (hv : h.Valid) (hi : h.Attached i) :
    ∃ j k h' a b, h.doomOf i = some (j, k) ∧ h.deleteCell i = k.unlink j ∧ k.Unlinks j ∧ k.unlink j = some h' ∧
      ({ h' with size := h'.size - 1 } : Linked).Valid ∧
      ∃ e, e.id = j ∧ k.tree.entries = a ++ e :: b ∧ h'.tree.entries = a ++ b := by
  obtain ⟨k, c, l, e, r, p, root, hd⟩ := exists_doomed hv hi
  obtain ⟨h', hunlink, hvalid, hentries⟩ := hd.exists_unlink
  have hdelete : h.deleteCell i = k.unlink e.id := by rw [deleteCell_eq, hd.doomOf, Option.bind_some]
  exact ⟨e.id, k, h', _, _, hd.doomOf, hdelete, hd.unlinks, hunlink, hvalid, e, rfl, hd.entries_tree, hentries⟩

/-- cell 1 is a black leaf beside a red sibling -/
theorem unlink_mends_blackLeaf :
    sixCells.Valid ∧ sixCells.Attached 1 ∧
      ∃ j k h', sixCells.doomOf 1 = some (j, k) ∧ k.Unlinks j ∧ k.unlink j = some h' ∧
        ({ h' with size := h'.size - 1 } : Linked).Valid := by
  have hi : sixCells.Attached 1 := ⟨[.left], rfl⟩
  obtain ⟨j, k, h', a, b, hdoom, -, hunlinks, hunlink, hvalid, -⟩ := unlink_mends valid_sixCells hi
  exact ⟨valid_sixCells, hi, j, k, h', hdoom, hunlinks, hunlink, hvalid⟩

end Linked

end MeteredStore
