/-
Linked cells that show a red-black tree are in order.

A way down from the root leads to the cell of the node that it leads to in the tree (`follow_eq`), so what is known of the
tree is known of the cells that can be reached.

Main statement: `valid_of_shows`, the cells of a red-black tree keep every rule of `Linked.Valid`.
-/
import MeteredStore.Proofs.Linked.Cells
import MeteredStore.Tree.Balance

namespace MeteredStore

namespace Tree

/-! ## Ways down in a tree -/

/-- what a way down leads to -/
def under : List Side → Tree → Tree
  | [], t => t
  | s :: way, t => under way (t.child s)

theorem under_append (way way' : List Side) (t : Tree) : t.under (way ++ way') = (t.under way).under way' := by
  induction way generalizing t with
  | nil => rfl
  | cons s way ih => exact ih _

theorem under_leaf (way : List Side) : leaf.under way = leaf := by
  induction way with
  | nil => rfl
  | cons s way ih => exact ih

theorem noRedRed_under {t : Tree} (h : t.NoRedRed) (way : List Side) : (t.under way).NoRedRed := by
  induction way generalizing t with
  | nil => exact h
  | cons s way ih => exact ih (noRedRed_child h s)

theorem sublist_under (t : Tree) (way : List Side) : (t.under way).entries.Sublist t.entries := by
  induction way generalizing t with
  | nil => exact List.Sublist.refl _
  | cons s way ih => exact (ih _).trans (sublist_child t s)

/-- the keys on the left are smaller, those on the right greater -/
theorem ordered_node {c : Color} {l r : Tree} {e : Entry} (h : (node c l e r).Ordered) :
    (∀ d ∈ l.entries, d.key < e.key) ∧ ∀ d ∈ r.entries, e.key < d.key := by
  obtain ⟨-, hr, hlr⟩ := List.pairwise_append.mp h
  exact ⟨fun d hd => hlr d hd e List.mem_cons_self, (List.pairwise_cons.mp hr).1⟩

theorem mem_of_under {t : Tree} {way : List Side} {i : NodeId} (h : (t.under way).topId = some i) :
    i ∈ t.entries.map Entry.id :=
  ((sublist_under t way).map Entry.id).subset (mem_of_topId h)

/-- a number of a node on one side is neither that of the top nor one on the other side -/
theorem nodup_child {c : Color} {l r : Tree} {e : Entry} (h : ((node c l e r).entries.map Entry.id).Nodup) (s : Side) :
    (((node c l e r).child s).entries.map Entry.id).Nodup ∧
      ∀ i ∈ ((node c l e r).child s).entries.map Entry.id,
        i ≠ e.id ∧ i ∉ ((node c l e r).child s.opposite).entries.map Entry.id := by
  rw [entries, List.map_append, List.map_cons, List.nodup_append] at h
  obtain ⟨hl, hr, hlr⟩ := h
  obtain ⟨her, hr⟩ := List.nodup_cons.mp hr
  cases s with
  | left => exact ⟨hl, fun i hi => ⟨hlr i hi _ List.mem_cons_self, fun hi' => hlr i hi i (List.mem_cons_of_mem _ hi') rfl⟩⟩
  | right => exact ⟨hr, fun i hi => ⟨fun he => her (he ▸ hi), fun hi' => hlr i hi' i (List.mem_cons_of_mem _ hi) rfl⟩⟩

/-- one way only leads to a node -/
theorem way_unique {t : Tree} (h : (t.entries.map Entry.id).Nodup) {way way' : List Side} {i : NodeId}
    (hi : (t.under way).topId = some i) (hi' : (t.under way').topId = some i) : way = way' := by
  induction way generalizing t way' with
  | nil =>
    cases t with
    | leaf => simp [under, topId] at hi
    | node c l e r =>
      obtain rfl : e.id = i := by simpa [under, topId] using hi
      cases way' with
      | nil => rfl
      | cons s' way' => exact absurd rfl ((nodup_child h s').2 _ (mem_of_under hi')).1
  | cons s way ih =>
    cases t with
    | leaf => simp [under_leaf, topId] at hi
    | node c l e r =>
      cases way' with
      | nil =>
        obtain rfl : e.id = i := by simpa [under, topId] using hi'
        exact absurd rfl ((nodup_child h s).2 _ (mem_of_under hi)).1
      | cons s' way' =>
        have hs : s' = s := by
          by_contra hne
          obtain rfl : s' = s.opposite := by cases s <;> cases s' <;> simp_all [Side.opposite]
          exact ((nodup_child h s).2 _ (mem_of_under hi)).2 (mem_of_under hi')
        subst hs
        rw [ih (nodup_child h s').1 hi hi']

theorem exists_way {t : Tree} {i : NodeId} (h : i ∈ t.entries.map Entry.id) : ∃ way, (t.under way).topId = some i := by
  induction t with
  | leaf => simp [entries] at h
  | node c l e r ihl ihr =>
    rw [entries, List.map_append, List.map_cons, List.mem_append, List.mem_cons] at h
    rcases h with h | rfl | h
    · obtain ⟨way, hway⟩ := ihl h
      exact ⟨.left :: way, hway⟩
    · exact ⟨[], rfl⟩
    · obtain ⟨way, hway⟩ := ihr h
      exact ⟨.right :: way, hway⟩

end Tree

namespace Path

/-- the way down to the hole -/
def way (p : Path) : List Side := (p.map Frame.side).reverse

theorem under_way (p : Path) (t : Tree) : (p.fill t).under (way p) = t := by
  induction p generalizing t with
  | nil => rfl
  | cons f p ih =>
    have hhole : (f.fill t).child f.side = t := by
      obtain ⟨s, c, e, b⟩ := f
      cases s <;> rfl
    calc (fill (f :: p) t).under (way (f :: p)) = (fill p (f.fill t)).under (way p ++ [f.side]) := by
          rw [fill_cons, way, way, List.map_cons, List.reverse_cons]
      _ = (f.fill t).under [f.side] := by rw [Tree.under_append, ih]
      _ = t := hhole

end Path

namespace Linked

/-! ## Ways down in memory -/

variable {h : Linked} {t : Tree} {parent : Option NodeId}

/-- the cells of a tree are in memory -/
def Has (h : Linked) (parent : Option NodeId) (t : Tree) : Prop := ∀ x ∈ t.cells parent, h.cell? x.2 = some x.1

theorem Has.top {c : Color} {l r : Tree} {e : Entry} (ht : h.Has parent (.node c l e r)) :
    h.cell? e.id = some ⟨e.key, e.value, c, l.topId, r.topId, parent⟩ :=
  ht _ (Multiset.mem_add.mpr (.inl (Multiset.mem_singleton_self _)))

theorem Has.child {c : Color} {l r : Tree} {e : Entry} (ht : h.Has parent (.node c l e r)) (s : Side) :
    h.Has (some e.id) ((Tree.node c l e r).child s) := by
  intro x hx
  cases s with
  | left => exact ht x (Multiset.mem_add.mpr (.inr (Multiset.mem_add.mpr (.inl hx))))
  | right => exact ht x (Multiset.mem_add.mpr (.inr (Multiset.mem_add.mpr (.inr hx))))

theorem Has.under (ht : h.Has parent t) (way : List Side) : ∃ parent', h.Has parent' (t.under way) := by
  induction way generalizing t parent with
  | nil => exact ⟨parent, ht⟩
  | cons s way ih =>
    cases t with
    | leaf => exact ⟨parent, by rw [Tree.under_leaf]; exact ht⟩
    | node c l e r => exact ih (ht.child s)

/-- a way leads to the cell of the node that it leads to in the tree -/
theorem follow_eq (ht : h.Has parent t) (way : List Side) : h.follow way t.topId = (t.under way).topId := by
  induction way generalizing t parent with
  | nil => rfl
  | cons s way ih =>
    cases t with
    | leaf => exact ih (t := .leaf) ht
    | node c l e r =>
      have hs : (h.cell? e.id).bind (fun c => c.child s) = ((Tree.node c l e r).child s).topId := by
        rw [ht.top]
        cases s <;> rfl
      simp only [follow, Tree.topId, Option.bind_some, hs]
      exact ih (ht.child s)

theorem Has.isRed (ht : h.Has parent t) : h.isRed t.topId = decide (t.color = .red) := by
  cases t with
  | leaf => rfl
  | node c l e r =>
    simp only [Linked.isRed, Tree.topId, Option.bind_some, ht.top, Option.any_some]
    rfl

theorem Has.top_parent {i : NodeId} (ht : h.Has parent t) (hi : t.topId = some i) :
    ∃ c, h.cell? i = some c ∧ c.parent = parent := by
  cases t with
  | leaf => simp [Tree.topId] at hi
  | node c l e r =>
    obtain rfl : e.id = i := by simpa [Tree.topId] using hi
    exact ⟨_, ht.top, rfl⟩

/-- a node that can be reached is a cell, and its children are in memory below it -/
theorem Has.reached (ht : h.Has parent t) {w : List Side} {i : NodeId} (hi : (t.under w).topId = some i) :
    ∃ c l e r parent', t.under w = .node c l e r ∧ e.id = i ∧ h.Has parent' (.node c l e r) ∧
      h.cell? i = some ⟨e.key, e.value, c, l.topId, r.topId, parent'⟩ := by
  obtain ⟨parent', hu⟩ := ht.under w
  cases hn : t.under w with
  | leaf => simp [hn, Tree.topId] at hi
  | node c l e r =>
    rw [hn] at hi hu
    obtain rfl : e.id = i := by simpa [Tree.topId] using hi
    exact ⟨c, l, e, r, parent', rfl, rfl, hu, hu.top⟩

/-- the black nodes on a way down to an absent child -/
theorem blacks_eq (ht : h.Has parent t) {n : Nat} (hn : t.BlackHeight n) {way : List Side} (hend : t.under way = .leaf)
    (hfront : ∀ front, front <+: way → front ≠ way → t.under front ≠ .leaf) : h.blacks way t.topId = n := by
  induction way generalizing t parent n with
  | nil =>
    obtain rfl : t = .leaf := hend
    exact hn.symm
  | cons s way ih =>
    cases t with
    | leaf => exact absurd rfl (hfront [] List.nil_prefix (by simp))
    | node c l e r =>
      have hs : (h.cell? e.id).bind (fun c => c.child s) = ((Tree.node c l e r).child s).topId := by
        rw [ht.top]
        cases s <;> rfl
      have hred : h.isRed (some e.id) = decide (c = .red) := ht.isRed
      have hfront' : ∀ front, front <+: way → front ≠ way → ((Tree.node c l e r).child s).under front ≠ .leaf :=
        fun front hp hne => hfront (s :: front) (List.prefix_cons_inj s |>.mpr hp) (by simpa using hne)
      have htop : (Tree.node c l e r).topId = some e.id := rfl
      simp only [htop, blacks, hs, hred]
      cases c with
      | red =>
        rw [ih (ht.child s) (Tree.blackHeight_child_of_red hn rfl s) hend hfront']
        simp
      | black =>
        obtain ⟨k, rfl, -⟩ := Tree.exists_blackHeight_black hn
        rw [ih (ht.child s) (Tree.blackHeight_child_of_black hn rfl s) hend hfront']
        simp [Nat.add_comm]

/-- a node that can be reached holds an entry of the tree -/
theorem Has.exists_entry (ht : h.Has parent t) {way : List Side} {i : NodeId} {c : Cell}
    (hi : (t.under way).topId = some i) (hc : h.cell? i = some c) : ∃ e ∈ t.entries, e.key = c.key := by
  obtain ⟨c', l, e, r, parent', hn, -, -, hc'⟩ := ht.reached hi
  obtain rfl := Option.some.inj (hc'.symm.trans hc)
  refine ⟨e, (Tree.sublist_under t way).subset ?_, rfl⟩
  simp [hn, Tree.entries]

/-- the numbers of the cells of a tree -/
theorem map_snd_cells (parent : Option NodeId) (t : Tree) :
    (t.cells parent).map Prod.snd = (t.entries.map Entry.id : List NodeId) := by
  induction t generalizing parent with
  | leaf => rfl
  | node c l e r ihl ihr =>
    rw [Tree.cells, Multiset.map_add, Multiset.map_add, ihl, ihr, Multiset.map_singleton, Tree.entries, List.map_append,
      List.map_cons, ← Multiset.coe_add, ← Multiset.cons_coe, ← Multiset.singleton_add]
    exact add_left_comm _ _ _

/-! ## Cells in order -/

/-- the cells that can be reached form a tree, and name their parents -/
structure Treelike (h : Linked) : Prop where
  /-- the root has no parent -/
  root : ∀ i c, h.root = some i → h.cell? i = some c → c.parent = none
  /-- a link leads to a cell -/
  cell : ∀ way i, h.reach way = some i → ∃ c, h.cell? i = some c
  /-- a child names as its parent the cell that holds it -/
  parent : ∀ way i c s j, h.reach way = some i → h.cell? i = some c → c.child s = some j →
    ∃ d, h.cell? j = some d ∧ d.parent = some i
  /-- a cell is reached by one way only -/
  unique : ∀ way other i, h.reach way = some i → h.reach other = some i → way = other

variable {n : Nat} {rest : Bag}

theorem Shows.has {p : Path} (hs : h.Shows n rest t p) : h.Has p.topId t :=
  fun _ hx => hs.cell (Multiset.mem_add.mpr (.inl hx))

theorem Shows.reach (hs : h.Shows n rest t []) (way : List Side) :
    h.reach way = (t.under way).topId := by
  rw [Linked.reach, show h.root = t.topId from hs.root]
  exact follow_eq hs.has way

/-- the way down to a hole leads to what hangs in it -/
theorem Shows.reach_way {p : Path} (hs : h.Shows n rest t p) : h.reach p.way = t.topId := by
  rw [(shows_root.mpr hs).reach, Path.under_way]

/-- the numbers of the nodes are all different -/
theorem Shows.nodup_ids (hs : h.Shows n rest t []) : (t.entries.map Entry.id).Nodup := by
  have hn := hs.nodup
  rw [Multiset.map_add, Multiset.nodup_add, Path.topId_nil, map_snd_cells] at hn
  exact Multiset.coe_nodup.mp hn.1

/-- cells that show a tree form one -/
theorem treelike_of_shows (hs : h.Shows n rest t []) : h.Treelike where
  root := by
    intro i c hi hc
    obtain ⟨d, hd, hp⟩ := hs.has.top_parent (show t.topId = some i from hs.root.symm.trans hi)
    exact Option.some.inj (hc.symm.trans hd) ▸ hp
  cell := by
    intro way i hi
    obtain ⟨c, l, e, r, parent', -, -, -, hc⟩ := hs.has.reached ((hs.reach way).symm.trans hi)
    exact ⟨_, hc⟩
  parent := by
    intro way i c s j hi hc hj
    obtain ⟨c', l, e, r, parent', -, rfl, hu, hc'⟩ := hs.has.reached ((hs.reach way).symm.trans hi)
    obtain rfl := Option.some.inj (hc'.symm.trans hc)
    have hchild : ((Tree.node c' l e r).child s).topId = some j := by cases s <;> exact hj
    obtain ⟨d, hd, hp⟩ := (hu.child s).top_parent hchild
    exact ⟨d, hd, hp⟩
  unique := by
    intro way other i hi hi'
    exact Tree.way_unique hs.nodup_ids ((hs.reach way).symm.trans hi) ((hs.reach other).symm.trans hi')

/-- cells that show a red-black tree are in order -/
theorem valid_of_shows (hs : h.Shows t.size rest t []) (ht : t.RedBlack) : h.Valid := by
  have htree := treelike_of_shows hs
  have hmem := hs.has
  have hreach := hs.reach
  have hroot : h.root = t.topId := hs.root
  have hsub : ∀ way s below, t.under (way ++ s :: below) = ((t.under way).child s).under below := fun way s below =>
    Tree.under_append way (s :: below) t
  have hord : ∀ way, (t.under way).Ordered := fun way => ht.ordered.sublist (Tree.sublist_under t way)
  obtain ⟨n, hn⟩ := ht.balanced
  constructor
  case root =>
    intro i hi
    obtain ⟨c, l, e, r, parent', hnode, -, -, hc⟩ := hmem.reached (w := []) (hroot ▸ hi)
    obtain rfl : t = .node c l e r := hnode
    obtain rfl : e.id = i := by simpa [hroot, Tree.topId] using hi
    exact ⟨_, hmem.top, ht.black, rfl⟩
  case cell => exact htree.cell
  case red =>
    intro way i c hi hc hred s
    obtain ⟨c', l, e, r, parent', hnode, -, hu, hc'⟩ := hmem.reached (hreach way ▸ hi)
    obtain rfl := Option.some.inj (hc'.symm.trans hc)
    have hblack : ((Tree.node c' l e r).child s).color = .black :=
      Tree.color_child (t := .node c' l e r) (hnode ▸ Tree.noRedRed_under ht.noRedRed way) hred s
    have hchild := (hu.child s).isRed
    rw [hblack] at hchild
    cases s <;> exact hchild
  case blacks =>
    refine ⟨n, ?_⟩
    intro way hend
    rw [hroot]
    refine blacks_eq hmem hn ?_ fun front hp hne hl => hend.2 front hp hne ?_
    · have hnone := hend.1
      rw [hreach] at hnone
      cases hu : t.under way with
      | leaf => rfl
      | node c l e r => simp [hu, Tree.topId] at hnone
    · rw [hreach, hl]
      rfl
  case parent => exact htree.parent
  case unique => exact htree.unique
  case smaller =>
    intro way below i j c d hi hj hc hd
    obtain ⟨c', l, e, r, parent', hnode, rfl, hu, hc'⟩ := hmem.reached (hreach way ▸ hi)
    obtain rfl := Option.some.inj (hc'.symm.trans hc)
    rw [hreach, hsub, hnode] at hj
    obtain ⟨f, hf, hkey⟩ := (hu.child .left).exists_entry hj hd
    exact hkey ▸ (Tree.ordered_node (hnode ▸ hord way)).1 f hf
  case greater =>
    intro way below i j c d hi hj hc hd
    obtain ⟨c', l, e, r, parent', hnode, rfl, hu, hc'⟩ := hmem.reached (hreach way ▸ hi)
    obtain rfl := Option.some.inj (hc'.symm.trans hc)
    rw [hreach, hsub, hnode] at hj
    obtain ⟨f, hf, hkey⟩ := (hu.child .right).exists_entry hj hd
    exact hkey ▸ (Tree.ordered_node (hnode ▸ hord way)).2 f hf
  case size =>
    refine ⟨t.entries.map Entry.id, hs.nodup_ids, ?_, ?_⟩
    · intro i
      constructor
      · intro hi
        obtain ⟨way, hi⟩ := Tree.exists_way hi
        exact ⟨way, by rw [hreach, hi]⟩
      · rintro ⟨way, hi⟩
        exact Tree.mem_of_under (hreach way ▸ hi)
    · rw [hs.size, List.length_map, Tree.length_entries]
  case empty =>
    rw [hroot, hs.size]
    cases t <;> simp [Tree.topId, Tree.size]

end Linked

end MeteredStore
