/-
Cursors on linked cells.

Cells that hold an ordered map hold its nodes, those of the tree and those taken out, by their numbers (`Holds.node?_eq`). So
links among cells are links among nodes, and lead onwards as these do (`Holds.no_cycle`). A way down over cells passes each
detached cell at most once and then a node on each level of the tree; it ends within its bound, with the stack that the map
has for it (`turns_push`).

Main statements: `Holds.start`, `Holds.next`, a cursor on cells starts and steps as it does on the map.
-/
import MeteredStore.Linked.Walking
import MeteredStore.Proofs.Linked.Written
import MeteredStore.Proofs.Live.Links

namespace MeteredStore

/-- the cells of a tree are its nodes -/
theorem Tree.map_record_cells (parent : Option NodeId) (t : Tree) :
    (t.cells parent).map (fun x => x.1.record x.2) = (t.nodes : Multiset Node) := by
  induction t generalizing parent with
  | leaf => rfl
  | node c l e r ihl ihr =>
    rw [cells, Multiset.map_add, Multiset.map_add, ihl, ihr, Multiset.map_singleton, nodes, ← Multiset.coe_add,
      ← Multiset.cons_coe, ← Multiset.singleton_add]
    exact add_left_comm _ _ _

@[simp] theorem Cell.child_record (c : Cell) (i : NodeId) (s : Side) : (c.record i).child s = c.child s := by cases s <;> rfl

namespace Linked

variable {h : Linked} {m : SortedMap} {i j : NodeId} {b : Bounds} {d : Direction}

/-! ## Cells as nodes -/

theorem Holds.records (hm : h.Holds m) : h.contents.map (fun x => x.1.record x.2) = (m.nodes : Multiset Node) := by
  obtain ⟨rest, hshow, hrest⟩ := hm.shows
  rw [hshow.contents, Path.topId_nil, Path.cells, zero_add, Multiset.map_add, Tree.map_record_cells, hrest]
  rfl

/-- the node with a number is the cell with that number -/
theorem Holds.node?_eq (hm : h.Holds m) (hs : m.Sound) (i : NodeId) : m.node? i = (h.cell? i).map (fun c => c.record i) := by
  cases hc : h.cell? i with
  | some c =>
    have hmem : c.record i ∈ (m.nodes : Multiset Node) := by
      rw [← hm.records]
      exact Multiset.mem_map_of_mem (fun x : Cell × NodeId => x.1.record x.2) (mem_contents.mpr hc)
    exact hs.node?_eq (Multiset.mem_coe.mp hmem)
  | none =>
    cases hn : m.node? i with
    | none => rfl
    | some n =>
      have hmem : n ∈ (m.nodes : Multiset Node) := List.mem_of_find?_eq_some hn
      rw [← hm.records] at hmem
      obtain ⟨⟨c, j⟩, hcj, rfl⟩ := Multiset.mem_map.mp hmem
      obtain rfl : j = i := SortedMap.id_of_node? hn
      rw [mem_contents.mp hcj] at hc
      cases hc

theorem Holds.exists_cell (hm : h.Holds m) (hs : m.Sound) {n : Node} (hn : m.node? i = some n) :
    ∃ c, h.cell? i = some c ∧ c.key = n.entry.key ∧ c.value = n.entry.value ∧ ∀ s, c.child s = n.child s := by
  rw [hm.node?_eq hs, Option.map_eq_some_iff] at hn
  obtain ⟨c, hc, rfl⟩ := hn
  exact ⟨c, hc, rfl, rfl, fun s => (c.child_record i s).symm⟩

theorem Holds.leads (hm : h.Holds m) (hs : m.Sound) (hl : h.Leads i j) : m.Leads i j := by
  obtain ⟨c, hc, s, hj⟩ := hl
  exact ⟨c.record i, by rw [hm.node?_eq hs, hc]; rfl, s, by rwa [Cell.child_record]⟩

/-- no cell leads back to itself, over however many links -/
theorem Holds.no_cycle (hm : h.Holds m) (hs : m.Sound) (htrail : m.Trailing m.detached) (i : NodeId) :
    ¬ Relation.TransGen h.Leads i i :=
  fun hi => SortedMap.no_cycle hs htrail i (hi.lift id fun _ _ => hm.leads hs)

/-- there is a cell for every node -/
theorem Holds.length_cells (hm : h.Holds m) : h.cells.length = m.root.size + m.detached.length := by
  obtain ⟨rest, hshow, hrest⟩ := hm.shows
  rw [hshow.length_cells, ← Multiset.card_map (fun x : Cell × NodeId => x.1.record x.2), hrest, Multiset.coe_card]

/-! ## Ways down -/

theorem Holds.pushTurn (hm : h.Holds m) (hs : m.Sound) {n : Node} (hn : m.node? i = some n) (stack : List NodeId) :
    h.pushTurn b d (some i, stack) = some (some
      (if b.isNear d n.entry.key then (n.child d.onward, stack) else (n.child d.onward.opposite, i :: stack))) := by
  obtain ⟨c, hc, hkey, -, hchild⟩ := hm.exists_cell hs hn
  cases hnear : b.isNear d n.entry.key <;> simp [Linked.pushTurn, hc, hkey, hchild, hnear]

/-- a way down a tree takes at most a turn for each node -/
theorem turns_pushTree (hm : h.Holds m) (hs : m.Sound) {t : Tree} {p : Path} (hp : p.fill t = m.root) (stack : List NodeId)
    {n : Nat} (hn : t.size < n) :
    turns (h.pushTurn b d) (fun place => some place.2) n (t.topId, stack) = some (Cursor.pushTree b d t stack) := by
  induction t generalizing p stack n with
  | leaf =>
    obtain ⟨n, rfl⟩ := Nat.exists_eq_add_one.mpr (Nat.zero_lt_of_lt hn)
    exact turns_of_none rfl
  | node c l e r ihl ihr =>
    obtain ⟨n, rfl⟩ := Nat.exists_eq_add_one.mpr (Nat.zero_lt_of_lt hn)
    rw [Tree.size] at hn
    have hdown : ∀ s stack, turns (h.pushTurn b d) (fun place => some place.2) n
        (((Tree.node c l e r).child s).topId, stack) =
          some (Cursor.pushTree b d ((Tree.node c l e r).child s) stack) := by
      intro s stack
      obtain ⟨f, hf⟩ := Tree.exists_fill_child c l r e s
      have hpart : Path.fill (f :: p) ((Tree.node c l e r).child s) = m.root := by rw [Path.fill_cons, hf, hp]
      cases s with
      | left => exact ihl hpart stack (by omega)
      | right => exact ihr hpart stack (by omega)
    have hchild : ∀ s, Node.child ⟨c, e, l.topId, r.topId⟩ s = ((Tree.node c l e r).child s).topId := by
      intro s
      cases s <;> rfl
    rw [Tree.topId, turns_of_some (hm.pushTurn hs (hs.node?_fill hp) stack), hchild, hchild, Cursor.pushTree_node]
    cases b.isNear d e.key with
    | true => exact hdown _ _
    | false => exact hdown _ _

/-- a way down from a detached node passes only nodes taken out later, and then goes down the tree -/
theorem turns_push (hm : h.Holds m) (hs : m.Sound) {gone : List Node} (hgone : m.Trailing gone) (hsub : gone ⊆ m.detached)
    {link : Option NodeId} (hlink : ∀ i ∈ link, Live.Known m gone i) (stack : List NodeId) {n : Nat}
    (hn : m.root.size + gone.length < n) :
    turns (h.pushTurn b d) (fun place => some place.2) n (link, stack) =
      some (Cursor.pushLink m.root b d gone link stack) := by
  generalize hr : m.root = root at hn ⊢
  fun_induction Cursor.pushLink root b d gone link stack generalizing n with
  | case1 =>
    obtain ⟨n, rfl⟩ := Nat.exists_eq_add_one.mpr (Nat.zero_lt_of_lt hn)
    exact turns_of_none rfl
  | case2 gone i stack t ht =>
    obtain ⟨p, hp, htop⟩ := Tree.exists_fill_of_subtree? ht
    rw [← htop]
    refine turns_pushTree hm hs (hp.trans hr.symm) stack ?_
    have hsize : t.size ≤ root.size := hp ▸ Tree.size_le_fill p t
    omega
  | case3 i stack hout =>
    rcases hlink i rfl with hi | ⟨x, hx, -⟩
    · obtain ⟨t, ht⟩ := hs.exists_subtree? hi
      rw [hr, hout] at ht
      cases ht
    · cases hx
  | case4 stack x later hnear hout ih =>
    -- the node is detached and near: the way goes on below it
    obtain ⟨-, hchild, hlater⟩ := hgone
    obtain ⟨hmem, hrest⟩ := List.cons_subset.mp hsub
    obtain ⟨n, rfl⟩ := Nat.exists_eq_add_one.mpr (Nat.zero_lt_of_lt hn)
    rw [turns_of_some (hm.pushTurn hs (hs.node?_eq (List.mem_append_right _ hmem)) stack), if_pos hnear]
    exact ih hlater hrest (hchild _) (Nat.lt_of_succ_lt_succ hn)
  | case5 stack x later hnear hout ih =>
    -- the node is detached and pushed
    obtain ⟨-, hchild, hlater⟩ := hgone
    obtain ⟨hmem, hrest⟩ := List.cons_subset.mp hsub
    obtain ⟨n, rfl⟩ := Nat.exists_eq_add_one.mpr (Nat.zero_lt_of_lt hn)
    rw [turns_of_some (hm.pushTurn hs (hs.node?_eq (List.mem_append_right _ hmem)) stack), if_neg hnear]
    exact ih hlater hrest (hchild _) (Nat.lt_of_succ_lt_succ hn)
  | case6 i stack hout x later hne ih =>
    refine ih hgone.2.2 (List.cons_subset.mp hsub).2 ?_ (Nat.lt_of_succ_lt hn)
    intro j hj
    rcases hlink j hj with hj | ⟨y, hy, rfl⟩
    · exact .inl hj
    · refine .inr ⟨y, (List.mem_cons.mp hy).resolve_left ?_, rfl⟩
      rintro rfl
      exact hne (Option.some.inj hj).symm

/-- a way down over cells ends, with the stack that the map has for it -/
theorem Holds.push (hm : h.Holds m) (hs : m.Sound) (htrail : m.Trailing m.detached) {link : Option NodeId}
    (hlink : ∀ i ∈ link, Live.Known m m.detached i) (stack : List NodeId) :
    h.push b d link stack = some (Cursor.pushLink m.root b d m.detached link stack) := by
  refine turns_push hm hs htrail (List.Subset.refl _) hlink stack ?_
  rw [limit, hm.length_cells]
  omega

/-! ## Cursors -/

/-- a cursor on cells starts as on the map -/
theorem Holds.start (hm : h.Holds m) (hs : m.Sound) (htrail : m.Trailing m.detached) (b : Bounds) (d : Direction) :
    h.start b d = some (Cursor.start m b d) := by
  have hroot : h.root = m.root.topId := by
    obtain ⟨rest, hshow, -⟩ := hm.shows
    exact hshow.root
  have hlink : ∀ i ∈ m.root.topId, Live.Known m m.detached i := fun i hi => .inl (Tree.mem_of_topId hi)
  have hpush : Cursor.pushLink m.root b d m.detached m.root.topId [] = Cursor.pushTree b d m.root [] :=
    Cursor.pushLink_topId (p := []) rfl hs.distinct b d m.detached []
  rw [Linked.start, hroot, hm.push hs htrail hlink, hpush]
  rfl

/-- a cursor on cells steps as on the map -/
theorem Holds.next (hm : h.Holds m) (hs : m.Sound) (htrail : m.Trailing m.detached) {c : Cursor}
    (hc : ∀ i ∈ c.stack, Live.Known m m.detached i) : h.next c = some (c.next m) := by
  obtain ⟨b, d, stack⟩ := c
  cases stack with
  | nil => rfl
  | cons i stack =>
    obtain ⟨n, hn⟩ := SortedMap.exists_of_known hs (hc i List.mem_cons_self)
    obtain ⟨c, hcell, hkey, hvalue, hchild⟩ := hm.exists_cell hs hn
    have hlink : ∀ j ∈ n.child d.onward, Live.Known m m.detached j :=
      fun j => htrail.closed (List.mem_of_find?_eq_some hn)
    cases hfar : b.isFar d n.entry.key with
    | true => simp [Linked.next, Cursor.next, hcell, hkey, hn, hfar]
    | false => simp [Linked.next, Cursor.next, hcell, hkey, hvalue, hchild, hn, hfar, hm.push hs htrail hlink]

end Linked

end MeteredStore
