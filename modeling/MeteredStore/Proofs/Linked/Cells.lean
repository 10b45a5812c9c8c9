/-
What is in memory.

The memory of a linked map is the bag of all its cells with their numbers (`Linked.contents`). A tree and a path below which
it hangs say which cells they need (`Tree.cells`, `Path.cells`); `Shows` says that the memory is made of these cells and of
others that are of no concern. An operation that works on the cells of the tree or of the path leaves the others alone,
because it takes one bag of cells to another and adds the same rest to both.

Main statements, one for each way of writing: `Shows.paint`, `Shows.rotate`, `Shows.modify`, `Shows.replace`. Each says
which tree is in memory afterwards. Looking at another place of the same tree changes nothing (`shows_fill`). `Reshaped` counts
the rotations of an operation that only paints and rotates.
-/
import Mathlib.Algebra.Order.Group.Multiset
import Mathlib.Tactic.Abel
import MeteredStore.Linked.Writing
import MeteredStore.Proofs.Place
import MeteredStore.Tree.Removal

namespace MeteredStore

/-- cells with their numbers -/
abbrev Bag := Multiset (Cell × NodeId)

/-! ## The cells of a tree and of a path -/

theorem Tree.exists_topId {t : Tree} (h : t ≠ leaf) : ∃ i, t.topId = some i := by
  cases t with
  | leaf => exact absurd rfl h
  | node c l e r => exact ⟨e.id, rfl⟩

theorem Tree.exists_node_of_topId {t : Tree} {i : NodeId} (h : t.topId = some i) :
    ∃ c l e r, t = node c l e r ∧ e.id = i := by
  cases t with
  | leaf => simp [topId] at h
  | node c l e r => exact ⟨c, l, e, r, rfl, by simpa [topId] using h⟩

theorem Tree.length_entries_pos {t : Tree} {i : NodeId} (h : t.topId = some i) : 0 < t.entries.length := by
  cases t with
  | leaf => simp [topId] at h
  | node c l e r => simp [entries]

/-- the cells of a tree that hangs from the given parent -/
def Tree.cells : Option NodeId → Tree → Bag
  | _, leaf => 0
  | parent, node c l e r =>
    {(⟨e.key, e.value, c, l.topId, r.topId, parent⟩, e.id)} + (l.cells (some e.id) + r.cells (some e.id))

theorem Tree.card_cells (t : Tree) (parent : Option NodeId) : (t.cells parent).card = t.entries.length := by
  induction t generalizing parent with
  | leaf => rfl
  | node c l e r ihl ihr =>
    simp only [cells, entries, Multiset.card_add, Multiset.card_singleton, List.length_append, List.length_cons, ihl, ihr]
    omega

namespace Frame

/-- the cell of a frame's node, with what hangs in the hole and above it -/
def cell (f : Frame) (hole parent : Option NodeId) : Cell :=
  match f.side with
  | .left => ⟨f.entry.key, f.entry.value, f.color, hole, f.sibling.topId, parent⟩
  | .right => ⟨f.entry.key, f.entry.value, f.color, f.sibling.topId, hole, parent⟩

/-- the same node, with its sibling's place as the hole and a tree in the other -/
def swap (f : Frame) (t : Tree) : Frame := ⟨f.side.opposite, f.color, f.entry, t⟩

variable (f : Frame) (hole parent : Option NodeId)

@[simp] theorem cell_parent : (f.cell hole parent).parent = parent := by
  obtain ⟨s, c, e, b⟩ := f
  cases s <;> rfl

@[simp] theorem cell_color : (f.cell hole parent).color = f.color := by
  obtain ⟨s, c, e, b⟩ := f
  cases s <;> rfl

@[simp] theorem cell_key : (f.cell hole parent).key = f.entry.key := by
  obtain ⟨s, c, e, b⟩ := f
  cases s <;> rfl

@[simp] theorem cell_child : (f.cell hole parent).child f.side = hole := by
  obtain ⟨s, c, e, b⟩ := f
  cases s <;> rfl

@[simp] theorem cell_child_opposite : (f.cell hole parent).child f.side.opposite = f.sibling.topId := by
  obtain ⟨s, c, e, b⟩ := f
  cases s <;> rfl

@[simp] theorem cell_setChild (i : Option NodeId) : (f.cell hole parent).setChild f.side i = f.cell i parent := by
  obtain ⟨s, c, e, b⟩ := f
  cases s <;> rfl

@[simp] theorem cell_setParent (i : Option NodeId) : { f.cell hole parent with parent := i } = f.cell hole i := by
  obtain ⟨s, c, e, b⟩ := f
  cases s <;> rfl

@[simp] theorem topId_fill (t : Tree) : (f.fill t).topId = some f.entry.id := by
  obtain ⟨s, c, e, b⟩ := f
  cases s <;> rfl

theorem cells_fill (t : Tree) :
    (f.fill t).cells parent =
      {(f.cell t.topId parent, f.entry.id)} + (t.cells (some f.entry.id) + f.sibling.cells (some f.entry.id)) := by
  obtain ⟨s, c, e, b⟩ := f
  cases s
  · rfl
  · simp only [fill, Tree.cells, cell]
    abel

theorem fill_swap (t : Tree) : (f.swap t).fill f.sibling = f.fill t := by
  obtain ⟨s, c, e, b⟩ := f
  cases s <;> rfl

end Frame

namespace Path

/-- the number of the node above the hole -/
def topId : Path → Option NodeId
  | [] => none
  | f :: _ => some f.entry.id

/-- the number of the node at the root, with what hangs in the hole -/
def rootId : Path → Option NodeId → Option NodeId
  | [], hole => hole
  | f :: p, _ => rootId p (some f.entry.id)

/-- the cells around a hole, with what hangs in it -/
def cells : Path → Option NodeId → Bag
  | [], _ => 0
  | f :: p, hole => {(f.cell hole (topId p), f.entry.id)} + (f.sibling.cells (some f.entry.id) + cells p (some f.entry.id))

theorem length_le_cells (p : Path) (hole : Option NodeId) : p.length ≤ (p.cells hole).card := by
  induction p generalizing hole with
  | nil => exact Nat.zero_le _
  | cons f p ih =>
    have hp := ih (some f.entry.id)
    rw [cells, Multiset.card_add, Multiset.card_add, Multiset.card_singleton, List.length_cons]
    omega

@[simp] theorem topId_nil : topId [] = none := rfl

@[simp] theorem topId_cons (f : Frame) (p : Path) : topId (f :: p) = some f.entry.id := rfl

end Path

namespace Linked

/-- all cells with their numbers -/
def contents (h : Linked) : Bag := (h.cells.zipIdx : List (Cell × NodeId))

/-- what is known of the whole memory -/
structure Is (h : Linked) (root : Option NodeId) (size : Nat) (b : Bag) : Prop where
  root : h.root = root
  size : h.size = size
  contents : h.contents = b

variable {h : Linked} {root : Option NodeId} {n : Nat} {i : NodeId} {c : Cell} {b : Bag}

theorem mem_contents : (c, i) ∈ h.contents ↔ h.cell? i = some c := List.mk_mem_zipIdx_iff_getElem?

theorem nodup_contents (h : Linked) : (h.contents.map Prod.snd).Nodup := by
  have he : h.contents.map Prod.snd = (List.range' 0 h.cells.length : List NodeId) := by
    rw [contents, Multiset.map_coe, List.zipIdx_map_snd]
  rw [he]
  exact Multiset.coe_nodup.mpr List.nodup_range'

theorem length_cells (h : Linked) : h.cells.length = h.contents.card := by simp [contents]

theorem Is.perm {b' : Bag} (hi : h.Is root n b) (he : b = b') : h.Is root n b' := he ▸ hi

theorem Is.cell (hi : h.Is root n b) (hc : (c, i) ∈ b) : h.cell? i = some c :=
  mem_contents.mp (hi.contents ▸ hc)

theorem Is.nodup (hi : h.Is root n b) : (b.map Prod.snd).Nodup := hi.contents ▸ h.nodup_contents

/-- two parts of memory have no cell in common -/
theorem Is.ne {b₁ b₂ : Bag} (hi : h.Is root n (b₁ + b₂)) {x y : Cell × NodeId} (hx : x ∈ b₁) (hy : y ∈ b₂) :
    x.2 ≠ y.2 := by
  have hd := hi.nodup
  rw [Multiset.map_add, Multiset.nodup_add] at hd
  exact fun he => Multiset.disjoint_left.mp hd.2.2 (Multiset.mem_map_of_mem _ hx) (he ▸ Multiset.mem_map_of_mem _ hy)

/-! ## Single writes -/

/-- changing a cell changes that cell -/
theorem Is.modify (hi : h.Is root n ({(c, i)} + b)) (f : Cell → Cell) :
    ∃ h', h.modify i f = some h' ∧ h'.Is root n ({(f c, i)} + b) := by
  have hc : h.cell? i = some c := hi.cell (by simp)
  obtain ⟨hlt, -⟩ := List.getElem?_eq_some_iff.mp hc
  have hmod : h.modify i f = some { h with cells := h.cells.set i (f c) } := by simp [Linked.modify, hc]
  have hn := hi.nodup
  rw [Multiset.map_add, Multiset.map_singleton, Multiset.singleton_add, Multiset.nodup_cons] at hn
  refine ⟨_, hmod, hi.root, hi.size, ?_⟩
  have hnew : (({(f c, i)} + b).map Prod.snd).Nodup := by
    rw [Multiset.map_add, Multiset.map_singleton, Multiset.singleton_add, Multiset.nodup_cons]
    exact hn
  apply (Multiset.Nodup.ext (nodup_contents _).of_map hnew.of_map).mpr
  rintro ⟨d, j⟩
  rw [mem_contents, Multiset.mem_add, Multiset.mem_singleton, Prod.mk.injEq]
  by_cases hj : i = j
  · subst hj
    have hnot : (d, i) ∉ b := fun hd => hn.1 (Multiset.mem_map.mpr ⟨_, hd, rfl⟩)
    simp [cell?, hlt, hnot, eq_comm]
  · have hold : (d, j) ∈ h.contents ↔ (d, j) ∈ b := by
      rw [hi.contents, Multiset.mem_add, Multiset.mem_singleton, Prod.mk.injEq]
      exact ⟨fun hd => hd.resolve_left fun hd => hj hd.2.symm, .inr⟩
    rw [← hold, mem_contents, cell?, List.getElem?_set_ne hj]
    exact ⟨.inr, fun hd => hd.resolve_left fun hd => hj hd.2.symm⟩

/-- a new cell comes after all others -/
theorem Is.append (hi : h.Is root n b) (c : Cell) : (h.append c).Is root n ({(c, h.cells.length)} + b) := by
  refine ⟨hi.root, hi.size, ?_⟩
  have hc : (h.append c).cells = h.cells ++ [c] := rfl
  rw [← hi.contents, Linked.contents, Linked.contents, hc, List.zipIdx_append, ← Multiset.coe_add, add_comm]
  simp

theorem adopt_some (h : Linked) (i : NodeId) (parent : Option NodeId) :
    h.adopt (some i) parent = h.setParent i parent := rfl

/-- the top of a tree gets another parent -/
theorem Is.adopt {t : Tree} {parent : Option NodeId} (hi : h.Is root n (t.cells parent + b)) (new : Option NodeId) :
    ∃ h', h.adopt t.topId new = some h' ∧ h'.Is root n (t.cells new + b) := by
  cases t with
  | leaf => exact ⟨h, rfl, hi⟩
  | node c l e r =>
    rw [Tree.cells, add_assoc] at hi
    obtain ⟨h', hm, hi'⟩ := hi.modify fun c => { c with parent := new }
    exact ⟨h', hm, by rwa [Tree.cells, add_assoc]⟩

theorem mem_cells_of_topId {t : Tree} (parent : Option NodeId) (ht : t.topId = some i) :
    ∃ c, (c, i) ∈ t.cells parent := by
  cases t with
  | leaf => simp [Tree.topId] at ht
  | node c l e r =>
    obtain rfl : e.id = i := by simpa [Tree.topId] using ht
    exact ⟨_, Multiset.mem_add.mpr (.inl (Multiset.mem_singleton_self _))⟩

/-- a cell knows on which side of it a node hangs that is not its other child -/
theorem sideOf_cell {f : Frame} {parent : Option NodeId} (hs : f.sibling.topId ≠ some i) :
    (f.cell (some i) parent).sideOf i = f.side := by
  obtain ⟨s, c, e, b⟩ := f
  cases s with
  | left => simp [Frame.cell, Cell.sideOf]
  | right => simp_all [Frame.cell, Cell.sideOf]

/-- something else hangs in the hole of a path -/
theorem Is.hang {p : Path} (hi : h.Is (p.rootId (some i)) n (p.cells (some i) + b)) (hc : (c, i) ∈ b)
    (child : Option NodeId) :
    ∃ h', h.hang p.topId i child = some h' ∧ h'.Is (p.rootId child) n (p.cells child + b) := by
  cases p with
  | nil => exact ⟨{ h with root := child }, rfl, rfl, hi.size, hi.contents⟩
  | cons f p =>
    have hs : f.sibling.topId ≠ some i := by
      intro ht
      obtain ⟨d, hd⟩ := mem_cells_of_topId (some f.entry.id) ht
      exact hi.ne (Multiset.mem_add.mpr (.inr (Multiset.mem_add.mpr (.inl hd)))) hc rfl
    rw [Path.cells, add_assoc] at hi
    obtain ⟨h', hm, hi'⟩ := hi.modify fun c => c.setChild f.side child
    have hcell : h.cell? f.entry.id = some (f.cell (some i) (Path.topId p)) := hi.cell (by simp)
    refine ⟨h', ?_, by rwa [Path.cells, add_assoc, ← Frame.cell_setChild]⟩
    simp only [Path.topId_cons, Linked.hang, hcell, Option.bind_eq_bind, Option.bind_some, sideOf_cell hs, setChild, hm]

/-! ## A tree in memory -/

/-- the memory is made of a tree, of the path that it hangs from, and of a rest -/
def Shows (h : Linked) (n : Nat) (rest : Bag) (t : Tree) (p : Path) : Prop :=
  h.Is (p.rootId t.topId) n (t.cells p.topId + (p.cells t.topId + rest))

variable {rest : Bag} {t : Tree} {p : Path} {f : Frame}

theorem shows_fill : h.Shows n rest (f.fill t) p ↔ h.Shows n rest t (f :: p) := by
  have he : (f.fill t).cells p.topId + (p.cells (some f.entry.id) + rest) =
      t.cells (some f.entry.id) + (Path.cells (f :: p) t.topId + rest) := by
    rw [Frame.cells_fill, Path.cells]
    abel
  rw [Shows, Frame.topId_fill, he]
  exact Iff.rfl

theorem shows_append (p q : Path) : h.Shows n rest (p.fill t) q ↔ h.Shows n rest t (p ++ q) := by
  induction p generalizing t with
  | nil => exact Iff.rfl
  | cons f p ih => rw [Path.fill_cons, ih, shows_fill, List.cons_append]

/-- the whole tree and the tree in its place are shown by the same memory -/
theorem shows_root : h.Shows n rest (p.fill t) [] ↔ h.Shows n rest t p := by rw [shows_append, List.append_nil]

theorem shows_swap : h.Shows n rest t (f :: p) ↔ h.Shows n rest f.sibling (f.swap t :: p) := by
  rw [← shows_fill, ← shows_fill, Frame.fill_swap]

namespace Shows

/-- there are at least as many cells as nodes, and every frame has one -/
theorem length_le (hs : h.Shows n rest t p) : t.entries.length + p.length ≤ h.cells.length := by
  have hp := p.length_le_cells t.topId
  rw [length_cells, hs.contents, Multiset.card_add, Multiset.card_add, Tree.card_cells]
  omega

/-! ## Reading -/

theorem top {l r : Tree} {e : Entry} {c : Color} (hs : h.Shows n rest (.node c l e r) p) :
    h.cell? e.id = some ⟨e.key, e.value, c, l.topId, r.topId, p.topId⟩ :=
  Is.cell hs (by simp [Tree.cells])

theorem above (hs : h.Shows n rest t (f :: p)) : h.cell? f.entry.id = some (f.cell t.topId p.topId) :=
  Is.cell hs (by simp [Path.cells])

/-- what there is to read in the top cell -/
theorem read (hs : h.Shows n rest t p) (ht : t.topId = some i) :
    ∃ c, h.cell? i = some c ∧ c.color = t.color ∧ (∀ s, c.child s = (t.child s).topId) ∧ c.parent = p.topId := by
  cases t with
  | leaf => simp [Tree.topId] at ht
  | node c l e r =>
    obtain rfl : e.id = i := by simpa [Tree.topId] using ht
    exact ⟨_, hs.top, rfl, fun s => by cases s <;> rfl, rfl⟩

theorem isRed (hs : h.Shows n rest t p) : h.isRed t.topId = decide (t.color = .red) := by
  cases t with
  | leaf => rfl
  | node c l e r =>
    simp only [Linked.isRed, Tree.topId, Option.bind_some, hs.top, Option.any_some]
    rfl

theorem isRed_sibling (hs : h.Shows n rest t (f :: p)) : h.isRed f.sibling.topId = decide (f.sibling.color = .red) :=
  (shows_swap.mp hs).isRed

/-- a node is on one side of its parent only -/
theorem sibling_ne (hs : h.Shows n rest t (f :: p)) (ht : t.topId = some i) : f.sibling.topId ≠ some i := by
  intro hf
  obtain ⟨c, hc⟩ := mem_cells_of_topId (some f.entry.id) ht
  obtain ⟨d, hd⟩ := mem_cells_of_topId (some f.entry.id) hf
  have hd : (d, i) ∈ Path.cells (f :: p) t.topId + rest :=
    Multiset.mem_add.mpr (.inl (Multiset.mem_add.mpr (.inr (Multiset.mem_add.mpr (.inl hd)))))
  exact Is.ne hs hc hd rfl

theorem sideOf (hs : h.Shows n rest t (f :: p)) (ht : t.topId = some i) :
    (f.cell t.topId p.topId).sideOf i = f.side := by
  rw [ht]
  exact sideOf_cell (hs.sibling_ne ht)

/-! ## Searching -/

/-- the search on the cells ends where the search in the tree ends, when it may take a turn for each node and one more -/
theorem turns_search (hs : h.Shows n rest t p) (key : Bytes) {m : Nat} (hm : t.entries.length < m) :
    turns (h.searchTurn key) some m (t.topId, p.topId) =
      some ((t.descend key p).1.topId, Path.topId (t.descend key p).2) := by
  fun_induction Tree.descend key t p generalizing m with
  | case1 p =>
    obtain ⟨m, rfl⟩ := Nat.exists_eq_add_one.mpr (Nat.zero_lt_of_lt hm)
    exact turns_of_none rfl
  | case2 c l e r p hlt ih =>
    obtain ⟨m, rfl⟩ := Nat.exists_eq_add_one.mpr (Nat.zero_lt_of_lt hm)
    have hturn : h.searchTurn key (some e.id, p.topId) = some (some (l.topId, some e.id)) := by
      simp [searchTurn, hs.top, hlt]
    simp only [Tree.entries, List.length_append, List.length_cons] at hm
    rw [Tree.topId, turns_of_some hturn]
    exact ih (shows_fill.mp hs) (by omega)
  | case3 c l e r p hnlt hlt ih =>
    obtain ⟨m, rfl⟩ := Nat.exists_eq_add_one.mpr (Nat.zero_lt_of_lt hm)
    have hturn : h.searchTurn key (some e.id, p.topId) = some (some (r.topId, some e.id)) := by
      simp [searchTurn, hs.top, hnlt, hlt]
    simp only [Tree.entries, List.length_append, List.length_cons] at hm
    rw [Tree.topId, turns_of_some hturn]
    exact ih (shows_fill.mp hs) (by omega)
  | case4 c l e r p hnlt hngt =>
    obtain ⟨m, rfl⟩ := Nat.exists_eq_add_one.mpr (Nat.zero_lt_of_lt hm)
    have hturn : h.searchTurn key (some e.id, p.topId) = some none := by
      simp [searchTurn, hs.top, hnlt, hngt]
    rw [Tree.topId, turns_of_none hturn]

theorem descend (hs : h.Shows n rest t []) (key : Bytes) :
    h.descend key = some ((t.descend key []).1.topId, Path.topId (t.descend key []).2) := by
  have hm := hs.length_le
  rw [Linked.descend, show h.root = t.topId from hs.root]
  exact hs.turns_search key (by rw [limit]; omega)

theorem shows_descend (hs : h.Shows n rest t p) (key : Bytes) :
    h.Shows n rest (t.descend key p).1 (t.descend key p).2 := by
  have hfill := Tree.fill_descend key t p
  rw [← List.append_nil p, ← shows_append, ← hfill, shows_append, List.append_nil] at hs
  exact hs

theorem turns_left (hs : h.Shows n rest t p) (ht : t.topId = some i) {m : Nat} (hm : t.entries.length < m) :
    turns (fun i => (h.cell? i).map Cell.left) some m i = (t.leftmost p).1.topId := by
  fun_induction Tree.leftmost t p generalizing i m with
  | case1 p => simp [Tree.topId] at ht
  | case2 c e r p =>
    obtain rfl : e.id = i := by simpa [Tree.topId] using ht
    obtain ⟨m, rfl⟩ := Nat.exists_eq_add_one.mpr (Nat.zero_lt_of_lt hm)
    have hturn : (h.cell? e.id).map Cell.left = some none := by rw [hs.top]; rfl
    rw [turns_of_none hturn, Tree.topId]
  | case3 c cl ll el rl e r p ih =>
    obtain rfl : e.id = i := by simpa [Tree.topId] using ht
    obtain ⟨m, rfl⟩ := Nat.exists_eq_add_one.mpr (Nat.zero_lt_of_lt hm)
    have hturn : (h.cell? e.id).map Cell.left = some (some el.id) := by rw [hs.top]; rfl
    rw [Tree.entries, List.length_append, List.length_cons] at hm
    rw [turns_of_some hturn]
    exact ih (shows_fill.mp hs) rfl (by omega)

/-- following left links ends where following left children ends -/
theorem leftmost (hs : h.Shows n rest t p) (ht : t.topId = some i) : h.leftmost i = (t.leftmost p).1.topId := by
  have hm := hs.length_le
  exact hs.turns_left ht (by rw [limit]; omega)

/-! ## Writing -/

/-- a write to the top cell -/
theorem modify {l r : Tree} {e : Entry} {c : Color} (hs : h.Shows n rest (.node c l e r) p) {g : Cell → Cell}
    {d : Entry} {k : Color} (he : d.id = e.id)
    (hg : ∀ left right parent, g ⟨e.key, e.value, c, left, right, parent⟩ = ⟨d.key, d.value, k, left, right, parent⟩) :
    ∃ h', h.modify e.id g = some h' ∧ h'.Shows n rest (.node k l d r) p := by
  rw [Shows, Tree.cells, add_assoc] at hs
  obtain ⟨h', hm, hs'⟩ := Is.modify hs g
  refine ⟨h', hm, ?_⟩
  rw [hg, ← he] at hs'
  rw [Shows, Tree.cells, add_assoc, Tree.topId, he]
  rwa [Tree.topId, he] at hs'

theorem paint (hs : h.Shows n rest t p) (ht : t.topId = some i) (c : Color) :
    ∃ h', h.paint i c = some h' ∧ h'.Shows n rest (t.paint c) p := by
  cases t with
  | leaf => simp [Tree.topId] at ht
  | node c l e r =>
    obtain rfl : e.id = i := by simpa [Tree.topId] using ht
    exact hs.modify rfl fun _ _ _ => rfl

theorem paint_above (hs : h.Shows n rest t (f :: p)) (c : Color) :
    ∃ h', h.paint f.entry.id c = some h' ∧ h'.Shows n rest t (f.paint c :: p) := by
  obtain ⟨h', hp, hs'⟩ := (shows_fill.mpr hs).paint (f.topId_fill t) c
  have he : (f.fill t).paint c = (f.paint c).fill t := by
    obtain ⟨s, d, e, b⟩ := f
    cases s <;> rfl
  exact ⟨h', hp, shows_fill.mp (he ▸ hs')⟩

theorem paint_sibling (hs : h.Shows n rest t (f :: p)) (hf : f.sibling.topId = some i) (c : Color) :
    ∃ h', h.paint i c = some h' ∧ h'.Shows n rest t (f.paintSibling c :: p) := by
  obtain ⟨h', hp, hs'⟩ := (shows_swap.mp hs).paint hf c
  exact ⟨h', hp, shows_swap.mpr hs'⟩

/-- the two frames change places -/
theorem rotate_above {lower upper : Frame} (hs : h.Shows n rest t (lower :: upper :: p))
    (hside : lower.side = upper.side.opposite) :
    ∃ h', h.rotate upper.entry.id lower.side = some h' ∧ h'.Shows n rest t (upper :: lower :: p) := by
  have hopp : lower.side.opposite = upper.side := by rw [hside, Side.opposite_opposite]
  -- the bag that each write starts from; what it works on stands first
  have hs₀ : h.Is (p.rootId (some upper.entry.id)) n ({(upper.cell (some lower.entry.id) p.topId, upper.entry.id)} +
      ({(lower.cell t.topId (some upper.entry.id), lower.entry.id)} + t.cells (some lower.entry.id) +
        p.cells (some upper.entry.id) + lower.sibling.cells (some lower.entry.id) +
        upper.sibling.cells (some upper.entry.id) + rest)) := hs.perm (by simp only [Path.cells, Path.topId_cons]; abel)
  obtain ⟨h₁, e₁, hs₁⟩ := hs₀.modify fun c => c.setChild upper.side t.topId
  rw [Frame.cell_setChild] at hs₁
  replace hs₁ : h₁.Is (p.rootId (some upper.entry.id)) n (t.cells (some lower.entry.id) +
      ({(upper.cell t.topId p.topId, upper.entry.id)} +
        {(lower.cell t.topId (some upper.entry.id), lower.entry.id)} +
        p.cells (some upper.entry.id) + lower.sibling.cells (some lower.entry.id) +
        upper.sibling.cells (some upper.entry.id) + rest)) := hs₁.perm (by abel)
  obtain ⟨h₂, e₂, hs₂⟩ := hs₁.adopt (some upper.entry.id)
  replace hs₂ : h₂.Is (p.rootId (some upper.entry.id)) n (p.cells (some upper.entry.id) +
      ({(upper.cell t.topId p.topId, upper.entry.id)} +
        {(lower.cell t.topId (some upper.entry.id), lower.entry.id)} + t.cells (some upper.entry.id) +
        lower.sibling.cells (some lower.entry.id) +
        upper.sibling.cells (some upper.entry.id) + rest)) := hs₂.perm (by abel)
  obtain ⟨h₃, e₃, hs₃⟩ := hs₂.hang (c := upper.cell t.topId p.topId) (by simp) (some lower.entry.id)
  replace hs₃ : h₃.Is (p.rootId (some lower.entry.id)) n ({(lower.cell t.topId (some upper.entry.id), lower.entry.id)} +
      ({(upper.cell t.topId p.topId, upper.entry.id)} + t.cells (some upper.entry.id) +
        p.cells (some lower.entry.id) + lower.sibling.cells (some lower.entry.id) +
        upper.sibling.cells (some upper.entry.id) + rest)) := hs₃.perm (by abel)
  obtain ⟨h₄, e₄, hs₄⟩ := hs₃.modify fun c => { c with parent := p.topId }
  obtain ⟨h₅, e₅, hs₅⟩ := hs₄.modify fun c => c.setChild lower.side (some upper.entry.id)
  rw [Frame.cell_setParent, Frame.cell_setChild] at hs₅
  replace hs₅ : h₅.Is (p.rootId (some lower.entry.id)) n ({(upper.cell t.topId p.topId, upper.entry.id)} +
      ({(lower.cell (some upper.entry.id) p.topId, lower.entry.id)} + t.cells (some upper.entry.id) +
        p.cells (some lower.entry.id) + lower.sibling.cells (some lower.entry.id) +
        upper.sibling.cells (some upper.entry.id) + rest)) := hs₅.perm (by abel)
  obtain ⟨h₆, e₆, hs₆⟩ := hs₅.modify fun c => { c with parent := some lower.entry.id }
  rw [Frame.cell_setParent] at hs₆
  refine ⟨h₆, ?_, hs₆.perm (by simp only [Path.cells, Path.topId_cons]; abel)⟩
  have r₀ := hs₀.cell (Multiset.mem_add.mpr (.inl (Multiset.mem_singleton_self _)))
  have r₁ : h.cell? lower.entry.id = some (lower.cell t.topId (some upper.entry.id)) := hs.above
  have r₂ : h₂.cell? upper.entry.id = some (upper.cell t.topId p.topId) := hs₂.cell (by simp)
  have r₃ : h₃.cell? upper.entry.id = some (upper.cell t.topId p.topId) := hs₃.cell (by simp)
  simp only [Linked.rotate, Linked.replace, setChild, setParent, adopt_some, r₀, r₁, r₂, r₃, e₁, e₂, e₃, e₄, e₅, e₆, hopp,
    Frame.cell_child, Frame.cell_parent, Option.bind_eq_bind, Option.bind_some]

/-- the same rotation, seen from the top of a tree -/
theorem rotate {u : Tree} {s : Side} (hs : h.Shows n rest t p) (ht : t.topId = some i) (hu : t.rotate? s = some u) :
    ∃ h', h.rotate i s = some h' ∧ h'.Shows n rest u p := by
  obtain ⟨upper, pivot, hd⟩ : ∃ upper pivot, t.down s.opposite = some (upper, pivot) := by
    cases hd : t.down s.opposite with
    | none => simp [Tree.rotate?, hd] at hu
    | some d => exact ⟨d.1, d.2, rfl⟩
  obtain ⟨lower, inner, hd'⟩ : ∃ lower inner, pivot.down s = some (lower, inner) := by
    cases hd' : pivot.down s with
    | none => simp [Tree.rotate?, hd, hd'] at hu
    | some d => exact ⟨d.1, d.2, rfl⟩
  obtain rfl : lower.fill (upper.fill inner) = u := by simpa [Tree.rotate?, hd, hd'] using hu
  have hlower : lower.side = s := Tree.side_of_down hd'
  have hupper : upper.side = s.opposite := Tree.side_of_down hd
  rw [← Tree.fill_down hd, Frame.topId_fill, Option.some.injEq] at ht
  rw [← Tree.fill_down hd, shows_fill, ← Tree.fill_down hd', shows_fill] at hs
  obtain ⟨h', hr, hs'⟩ := hs.rotate_above (by rw [hlower, hupper, Side.opposite_opposite])
  rw [hlower, ht] at hr
  exact ⟨h', hr, shows_fill.mpr (shows_fill.mpr hs')⟩

/-- a node with at most one child gives its place to it, and is left as it was -/
theorem replace {c : Color} {l r : Tree} {e : Entry} (hs : h.Shows n rest (.node c l e r) p) (ho : l = .leaf ∨ r = .leaf) :
    ∃ h', h.replace e.id (Tree.node c l e r).onlyChild.topId = some h' ∧
      h'.Shows n ({(⟨e.key, e.value, c, l.topId, r.topId, p.topId⟩, e.id)} + rest) (Tree.node c l e r).onlyChild p := by
  have hcells : l.cells (some e.id) + r.cells (some e.id) = (Tree.node c l e r).onlyChild.cells (some e.id) := by
    rcases ho with rfl | rfl
    · simp [Tree.cells, Tree.onlyChild]
    · cases l <;> simp [Tree.cells, Tree.onlyChild]
  generalize (Tree.node c l e r).onlyChild = child at hcells ⊢
  have r₀ := hs.top
  have hs₀ : h.Is (p.rootId (some e.id)) n (p.cells (some e.id) +
      ({(⟨e.key, e.value, c, l.topId, r.topId, p.topId⟩, e.id)} + child.cells (some e.id) + rest)) :=
    hs.perm (by rw [Tree.cells, hcells, Tree.topId]; abel)
  obtain ⟨h₁, e₁, hs₁⟩ := hs₀.hang (c := ⟨e.key, e.value, c, l.topId, r.topId, p.topId⟩) (by simp) child.topId
  replace hs₁ : h₁.Is (p.rootId child.topId) n (child.cells (some e.id) +
      (p.cells child.topId + ({(⟨e.key, e.value, c, l.topId, r.topId, p.topId⟩, e.id)} + rest))) := hs₁.perm (by abel)
  have r₁ : h₁.cell? e.id = some ⟨e.key, e.value, c, l.topId, r.topId, p.topId⟩ := hs₁.cell (by simp)
  obtain ⟨h₂, e₂, hs₂⟩ := hs₁.adopt p.topId
  refine ⟨h₂, ?_, hs₂⟩
  simp only [Linked.replace, r₀, r₁, e₁, e₂, Option.bind_eq_bind, Option.bind_some]

end Shows

/-! ## Paints and rotations -/

/-- the second memory comes from the first by painting cells and by `r` rotations, and in no other way -/
inductive Reshaped : Nat → Linked → Linked → Prop where
  | refl (h : Linked) : Reshaped 0 h h
  | paint {a b c : Linked} {r : Nat} {i : NodeId} {color : Color} (h₁ : a.paint i color = some b) (h₂ : Reshaped r b c) :
      Reshaped r a c
  | rotate {a b c : Linked} {r : Nat} {i : NodeId} {s : Side} (h₁ : a.rotate i s = some b) (h₂ : Reshaped r b c) :
      Reshaped (r + 1) a c

theorem Reshaped.trans {a b c : Linked} {q r : Nat} (h₁ : Reshaped q a b) (h₂ : Reshaped r b c) : Reshaped (q + r) a c := by
  induction h₁ with
  | refl h => rwa [Nat.zero_add]
  | paint hp _ ih => exact .paint hp (ih h₂)
  | rotate hr _ ih =>
    rw [Nat.add_right_comm]
    exact .rotate hr (ih h₂)

end Linked

end MeteredStore
