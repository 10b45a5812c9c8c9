/-
Cells in order are a tree.

`tree` reads the tree below the root out of memory, whatever is there. When each cell is reached by one way only and names as
its parent the cell that holds it (`Treelike`), no way is longer than there are cells (`Treelike.length_lt`), so the whole
tree is read, and the memory is made of its cells and of cells that are not attached.

Main statements: `Treelike.shows`, such cells show their tree, and show no other (`Shows.tree_eq`); `Valid.redBlack`, the
tree of cells in order is red-black.
-/
import MeteredStore.Proofs.Linked.Identity

namespace MeteredStore

namespace Tree

/-! ## What a tree is, from what its ways down lead to -/

variable {t : Tree} {e : Entry} {n : Nat}

theorem exists_under (he : e ∈ t.entries) : ∃ way c l r, t.under way = node c l e r := by
  induction t with
  | leaf => cases he
  | node c l f r ihl ihr =>
    rw [entries, List.mem_append, List.mem_cons] at he
    rcases he with he | rfl | he
    · obtain ⟨way, h⟩ := ihl he
      exact ⟨.left :: way, h⟩
    · exact ⟨[], c, l, r, rfl⟩
    · obtain ⟨way, h⟩ := ihr he
      exact ⟨.right :: way, h⟩

/-- the rest of the tree around what a way down leads to -/
theorem exists_fill_under (t : Tree) (way : List Side) (h : t.under way ≠ leaf) : ∃ p, Path.fill p (t.under way) = t := by
  induction way generalizing t with
  | nil => exact ⟨[], rfl⟩
  | cons s way ih =>
    cases t with
    | leaf => exact absurd (under_leaf _) h
    | node c l e r =>
      obtain ⟨p, hp⟩ := ih ((node c l e r).child s) h
      refine ⟨p ++ [⟨s, c, e, (node c l e r).child s.opposite⟩], ?_⟩
      rw [Path.fill_append]
      exact (congrArg _ hp).trans (fill_down (down_node s c l r e))

/-- where one way only leads to each node, no two nodes have the same number -/
theorem nodup_of_unique (h : ∀ way other i, (t.under way).topId = some i → (t.under other).topId = some i → way = other) :
    (t.entries.map Entry.id).Nodup := by
  induction t with
  | leaf => exact List.nodup_nil
  | node c l e r ihl ihr =>
    have hl := ihl fun way other i hi hi' => (List.cons.inj (h (.left :: way) (.left :: other) i hi hi')).2
    have hr := ihr fun way other i hi hi' => (List.cons.inj (h (.right :: way) (.right :: other) i hi hi')).2
    rw [entries, List.map_append, List.map_cons, List.nodup_append, List.nodup_cons]
    refine ⟨hl, ⟨?_, hr⟩, ?_⟩
    · intro he
      obtain ⟨way, hway⟩ := exists_way he
      cases h [] (.right :: way) e.id rfl hway
    · intro i hi j hj hij
      obtain ⟨way, hway⟩ := exists_way hi
      rcases List.mem_cons.mp hj with rfl | hj
      · cases h [] (.left :: way) e.id rfl (hij ▸ hway)
      · obtain ⟨other, hother⟩ := exists_way hj
        cases h (.left :: way) (.right :: other) i hway (hij ▸ hother)

theorem noRedRed_of_under (h : ∀ way, (t.under way).color = .red → ∀ s, ((t.under way).child s).color = .black) :
    t.NoRedRed := by
  induction t with
  | leaf => trivial
  | node c l e r ihl ihr =>
    exact ⟨fun hc => ⟨h [] hc .left, h [] hc .right⟩, ihl fun way => h (.left :: way), ihr fun way => h (.right :: way)⟩

/-- a way that leads to an absent child, and no further -/
def Ends (t : Tree) (way : List Side) : Prop := t.under way = leaf ∧ ∀ front, front <+: way → front ≠ way → t.under front ≠ leaf

theorem ends_leaf : leaf.Ends [] := ⟨rfl, fun _ hp hne => absurd (List.prefix_nil.mp hp) hne⟩

theorem ends_node {c : Color} {l r : Tree} {s : Side} {way : List Side} (h : ((node c l e r).child s).Ends way) :
    (node c l e r).Ends (s :: way) := by
  refine ⟨h.1, ?_⟩
  intro front hp hne
  cases front with
  | nil => simp [under]
  | cons s' front =>
    obtain ⟨rfl, hp'⟩ := List.cons_prefix_cons.mp hp
    exact h.2 front hp' fun he => hne (he ▸ rfl)

/-- some way leads to an absent child -/
theorem exists_end (t : Tree) : ∃ way, t.Ends way := by
  induction t with
  | leaf => exact ⟨[], ends_leaf⟩
  | node c l e r ihl _ =>
    obtain ⟨way, hway⟩ := ihl
    exact ⟨.left :: way, ends_node hway⟩

theorem ordered_of_under (h : ∀ way c l e r, t.under way = node c l e r →
    (∀ f ∈ l.entries, f.key < e.key) ∧ ∀ f ∈ r.entries, e.key < f.key) : t.Ordered := by
  induction t with
  | leaf => exact List.Pairwise.nil
  | node c l e r ihl ihr =>
    have hl := ihl fun way => h (.left :: way)
    have hr := ihr fun way => h (.right :: way)
    obtain ⟨hbefore, hafter⟩ := h [] c l e r rfl
    refine List.pairwise_append.mpr ⟨hl, List.pairwise_cons.mpr ⟨hafter, hr⟩, ?_⟩
    intro f hf g hg
    rcases List.mem_cons.mp hg with rfl | hg
    · exact hbefore f hf
    · exact Bytes.lt_trans (hbefore f hf) (hafter g hg)

end Tree

namespace Linked

variable {h : Linked} {t : Tree} {i : NodeId} {way : List Side} {link parent : Option NodeId} {n : Nat}

/-! ## The tree in memory -/

/-- the tree below a link, `n` levels of it -/
def treeAt (h : Linked) : Nat → Option NodeId → Tree
  | n + 1, some i =>
    match h.cell? i with
    | none => .leaf
    | some c => .node c.color (treeAt h n c.left) ⟨i, c.key, c.value⟩ (treeAt h n c.right)
  | _, _ => .leaf

/-- the tree below the root -/
def tree (h : Linked) : Tree := h.treeAt h.cells.length h.root

theorem Valid.treelike (hv : h.Valid) : h.Treelike where
  root := by
    intro i c hi hc
    obtain ⟨d, hd, -, hp⟩ := hv.root i hi
    exact Option.some.inj (hc.symm.trans hd) ▸ hp
  cell := hv.cell
  parent := hv.parent
  unique := hv.unique

/-! ## Ways down -/

theorem follow_append (way below : List Side) (link : Option NodeId) :
    h.follow (way ++ below) link = h.follow below (h.follow way link) := by
  induction way generalizing link with
  | nil => rfl
  | cons s way ih => exact ih _

theorem follow_none (way : List Side) : h.follow way none = none := by
  induction way with
  | nil => rfl
  | cons s way ih => exact ih

/-- one step further down -/
theorem reach_child {c : Cell} (hi : h.reach way = some i) (hc : h.cell? i = some c) (s : Side) :
    h.reach (way ++ [s]) = c.child s := by
  rw [reach] at hi
  rw [reach, follow_append, hi, follow, follow, Option.bind_some, hc, Option.bind_some]

theorem reach_front (front below : List Side) (hi : h.reach (front ++ below) = some i) : ∃ j, h.reach front = some j := by
  rw [reach, follow_append] at hi
  cases hj : h.reach front with
  | none => rw [show h.follow front h.root = none from hj, follow_none] at hi; cases hi
  | some j => exact ⟨j, rfl⟩

namespace Treelike

variable (ht : h.Treelike)
include ht

/-- the cells on a way down are all different, so there is no room for a way longer than there are cells -/
theorem length_lt (hi : h.reach way = some i) : way.length < h.cells.length := by
  have hfront : ∀ k : Fin (way.length + 1), ∃ j : Fin h.cells.length, h.reach (way.take k) = some j.val := by
    intro k
    obtain ⟨j, hj⟩ := reach_front (way.take k) (way.drop k) (by rwa [List.take_append_drop])
    obtain ⟨c, hc⟩ := ht.cell _ j hj
    obtain ⟨hlt, -⟩ := List.getElem?_eq_some_iff.mp hc
    exact ⟨⟨j, hlt⟩, hj⟩
  choose f hf using hfront
  have hinj : Function.Injective f := by
    intro a b hab
    have hway := ht.unique _ _ _ (hf a) (hab ▸ hf b)
    have hlength := congrArg List.length hway
    rw [List.length_take, List.length_take] at hlength
    exact Fin.ext (by omega)
  simpa using Fintype.card_le_of_injective f hinj

/-- what is read below a link is in memory, if there are levels enough for the rest of the way -/
theorem has_treeAt (way : List Side) (hway : h.reach way = link) (hn : h.cells.length ≤ way.length + n)
    (hparent : ∀ i c, link = some i → h.cell? i = some c → c.parent = parent) :
    (h.treeAt n link).topId = link ∧ h.Has parent (h.treeAt n link) := by
  induction n generalizing way link parent with
  | zero =>
    cases link with
    | none => exact ⟨rfl, fun x hx => by cases hx⟩
    | some i => exact absurd (ht.length_lt hway) (Nat.not_lt.mpr hn)
  | succ n ih =>
    cases link with
    | none => exact ⟨rfl, fun x hx => by cases hx⟩
    | some i =>
      obtain ⟨c, hc⟩ := ht.cell way i hway
      have hchild : ∀ s, (h.treeAt n (c.child s)).topId = c.child s ∧ h.Has (some i) (h.treeAt n (c.child s)) := by
        intro s
        refine ih _ (reach_child hway hc s) (by simp only [List.length_append, List.length_singleton]; omega) ?_
        intro j d hj hd
        obtain ⟨d', hd', hp⟩ := ht.parent way i c s j hway hc hj
        exact Option.some.inj (hd.symm.trans hd') ▸ hp
      obtain ⟨hleft, hasLeft⟩ := hchild .left
      obtain ⟨hright, hasRight⟩ := hchild .right
      have htree : h.treeAt (n + 1) (some i) =
          .node c.color (h.treeAt n c.left) ⟨i, c.key, c.value⟩ (h.treeAt n c.right) := by rw [treeAt, hc]
      rw [htree]
      refine ⟨rfl, ?_⟩
      intro x hx
      rcases Multiset.mem_add.mp hx with hx | hx
      · obtain rfl := Multiset.mem_singleton.mp hx
        obtain rfl : c.parent = parent := hparent i c rfl hc
        rw [hc, Option.some.injEq]
        change c = ⟨c.key, c.value, c.color, (h.treeAt n c.left).topId, (h.treeAt n c.right).topId, c.parent⟩
        rw [show (h.treeAt n c.left).topId = c.left from hleft, show (h.treeAt n c.right).topId = c.right from hright]
      · rcases Multiset.mem_add.mp hx with hx | hx
        · exact hasLeft x hx
        · exact hasRight x hx

theorem has_tree : h.tree.topId = h.root ∧ h.Has none h.tree :=
  ht.has_treeAt [] rfl (Nat.le_add_left _ _) ht.root

theorem reach_tree (way : List Side) : h.reach way = (h.tree.under way).topId := by
  obtain ⟨htop, hhas⟩ := ht.has_tree
  rw [reach, ← htop]
  exact follow_eq hhas way

/-- **Cells that form a tree show it.** The memory is made of the cells of the tree below the root, and of others. -/
theorem shows : ∃ rest, h.Shows h.size rest h.tree [] := by
  obtain ⟨htop, hhas⟩ := ht.has_tree
  have hids : (h.tree.entries.map Entry.id).Nodup := by
    apply Tree.nodup_of_unique
    intro way other i hi hi'
    exact ht.unique way other i ((ht.reach_tree way).trans hi) ((ht.reach_tree other).trans hi')
  have hnodup : (h.tree.cells none).Nodup := by
    apply Multiset.Nodup.of_map Prod.snd
    rw [map_snd_cells]
    exact Multiset.coe_nodup.mpr hids
  have hle : h.tree.cells none ≤ h.contents := by
    apply (Multiset.le_iff_subset hnodup).mpr
    intro x hx
    exact mem_contents.mpr (hhas x hx)
  obtain ⟨rest, hrest⟩ := Multiset.le_iff_exists_add.mp hle
  refine ⟨rest, htop.symm, rfl, ?_⟩
  rw [hrest, Path.cells, zero_add]
  rfl

/-- they show what hangs at any cell of the tree -/
theorem exists_place (hi : h.Attached i) : ∃ rest t p, h.Shows h.size rest t p ∧ t.topId = some i := by
  obtain ⟨way, hway⟩ := hi
  obtain ⟨rest, hs⟩ := ht.shows
  rw [ht.reach_tree] at hway
  obtain ⟨p, hp⟩ := Tree.exists_fill_under h.tree way fun hleaf => by simp [hleaf, Tree.topId] at hway
  rw [← hp, shows_root] at hs
  exact ⟨rest, _, p, hs, hway⟩

end Treelike

/-- a tree in memory is what is read there, if there are levels enough -/
theorem treeAt_of_has (ht : h.Has parent t) (hn : t.entries.length ≤ n) : h.treeAt n t.topId = t := by
  induction t generalizing n parent with
  | leaf => cases n <;> rfl
  | node c l e r ihl ihr =>
    rw [Tree.entries, List.length_append, List.length_cons] at hn
    obtain ⟨n, rfl⟩ := Nat.exists_eq_add_one.mpr (show 0 < n by omega)
    have hl := ihl (ht.child .left) (n := n) (by omega)
    have hr := ihr (ht.child .right) (n := n) (by omega)
    rw [Tree.topId, treeAt, ht.top]
    simp only [hl, hr]

/-- the tree that is shown is the tree below the root -/
theorem Shows.tree_eq {rest : Bag} (hs : h.Shows n rest t []) : h.tree = t := by
  have hlength := hs.length_le
  rw [tree, show h.root = t.topId from hs.root]
  exact treeAt_of_has hs.has (Nat.le_trans (Nat.le_add_right _ _) hlength)

/-! ## Red-black trees in memory -/

theorem ends_tree (ht : h.Treelike) {way : List Side} (hway : h.tree.Ends way) : h.Ends way := by
  have hleaf : ∀ way, h.reach way = none ↔ h.tree.under way = .leaf := by
    intro way
    rw [ht.reach_tree]
    cases h.tree.under way <;> simp [Tree.topId]
  refine ⟨(hleaf way).mpr hway.1, ?_⟩
  intro front hp hne hnone
  exact hway.2 front hp hne ((hleaf front).mp hnone)

/-- a way down passes the top and then what it passes below -/
theorem Has.blacks_cons {c : Color} {l r : Tree} {e : Entry} (ht : h.Has parent (.node c l e r)) (s : Side) (way : List Side) :
    h.blacks (s :: way) (some e.id) =
      (if c = .red then 0 else 1) + h.blacks way ((Tree.node c l e r).child s).topId := by
  have hchild : (h.cell? e.id).bind (fun c => c.child s) = ((Tree.node c l e r).child s).topId := by
    rw [ht.top]
    cases s <;> rfl
  have hred : h.isRed (some e.id) = decide (c = .red) := ht.isRed
  simp only [blacks, hchild, hred, decide_eq_true_eq]

/-- the black nodes on the ways down, from the black cells on them -/
theorem blackHeight_of_blacks (ht : h.Has parent t) (hb : ∀ way, t.Ends way → h.blacks way t.topId = n) :
    t.BlackHeight n := by
  induction t generalizing parent n with
  | leaf => exact (hb [] Tree.ends_leaf).symm
  | node c l e r ihl ihr =>
    -- the ways down on one side, without the top
    have hside : ∀ s way, ((Tree.node c l e r).child s).Ends way →
        (if c = .red then 0 else 1) + h.blacks way ((Tree.node c l e r).child s).topId = n := by
      intro s way hway
      rw [← ht.blacks_cons]
      exact hb (s :: way) (Tree.ends_node hway)
    cases c with
    | red =>
      simp only [if_true, Nat.zero_add] at hside
      exact ⟨ihl (ht.child .left) (hside .left), ihr (ht.child .right) (hside .right)⟩
    | black =>
      simp only [reduceCtorEq, if_false] at hside
      cases n with
      | zero =>
        obtain ⟨way, hway⟩ := Tree.exists_end l
        exact absurd (hside .left way hway) (by omega)
      | succ n =>
        refine ⟨ihl (ht.child .left) ?_, ihr (ht.child .right) ?_⟩
        · intro way hway
          have hone : 1 + h.blacks way l.topId = n + 1 := hside .left way hway
          omega
        · intro way hway
          have hone : 1 + h.blacks way r.topId = n + 1 := hside .right way hway
          omega

namespace Valid

variable (hv : h.Valid)
include hv

theorem noRedRed : h.tree.NoRedRed := by
  have ht := hv.treelike
  obtain ⟨-, hhas⟩ := ht.has_tree
  apply Tree.noRedRed_of_under
  intro way hred s
  obtain ⟨l, e, r, hnode⟩ := Tree.exists_node_of_red hred
  have hway : h.reach way = some e.id := by rw [ht.reach_tree, hnode]; rfl
  obtain ⟨c, l', e', r', parent, hnode', -, hcell, hc⟩ := hhas.reached ((ht.reach_tree way).symm.trans hway)
  rw [hnode] at hnode'
  cases hnode'
  have hblack := hv.red way e.id _ hway hc rfl s
  have hchild := (hcell.child s).isRed
  rw [hnode]
  cases hcol : ((Tree.node .red l e r).child s).color with
  | black => rfl
  | red =>
    rw [hcol, decide_eq_true rfl] at hchild
    cases s <;> exact absurd (hchild.symm.trans hblack) (by decide)

theorem ordered : h.tree.Ordered := by
  have ht := hv.treelike
  obtain ⟨-, hhas⟩ := ht.has_tree
  -- the cell of an entry on one side of a node can be reached on that side
  have hside : ∀ way c l e r, h.tree.under way = .node c l e r → ∀ s, ∀ f ∈ ((Tree.node c l e r).child s).entries,
      ∃ below x y, h.reach way = some e.id ∧ h.reach (way ++ s :: below) = some f.id ∧ h.cell? e.id = some x ∧
        h.cell? f.id = some y ∧ x.key = e.key ∧ y.key = f.key := by
    intro way c l e r hnode s f hf
    obtain ⟨below, c', l', r', hbelow⟩ := Tree.exists_under hf
    have hunder : h.tree.under (way ++ s :: below) = .node c' l' f r' := by
      rw [Tree.under_append, hnode]
      exact hbelow
    obtain ⟨above, htop⟩ := hhas.under way
    obtain ⟨above', hbot⟩ := hhas.under (way ++ s :: below)
    rw [hnode] at htop
    rw [hunder] at hbot
    exact ⟨below, _, _, by rw [ht.reach_tree, hnode]; rfl, by rw [ht.reach_tree, hunder]; rfl, htop.top, hbot.top, rfl, rfl⟩
  apply Tree.ordered_of_under
  intro way c l e r hnode
  constructor
  · intro f hf
    obtain ⟨below, x, y, hi, hj, hx, hy, hxe, hyf⟩ := hside way c l e r hnode .left f hf
    rw [← hxe, ← hyf]
    exact hv.smaller way below e.id f.id x y hi hj hx hy
  · intro f hf
    obtain ⟨below, x, y, hi, hj, hx, hy, hxe, hyf⟩ := hside way c l e r hnode .right f hf
    rw [← hxe, ← hyf]
    exact hv.greater way below e.id f.id x y hi hj hx hy

/-- **The tree of cells in order is red-black.** -/
theorem redBlack : h.tree.RedBlack := by
  have ht := hv.treelike
  obtain ⟨htop, hhas⟩ := ht.has_tree
  refine ⟨?_, hv.noRedRed, ?_, hv.ordered⟩
  · cases hnode : h.tree with
    | leaf => rfl
    | node c l e r =>
      rw [hnode] at htop hhas
      obtain ⟨d, hd, hblack, -⟩ := hv.root e.id htop.symm
      obtain rfl := Option.some.inj (hhas.top.symm.trans hd)
      exact hblack
  · obtain ⟨n, hn⟩ := hv.blacks
    refine ⟨n, blackHeight_of_blacks hhas ?_⟩
    intro way hway
    rw [htop]
    exact hn way (ends_tree ht hway)

theorem size_eq : h.size = h.tree.size := by
  obtain ⟨rest, hs⟩ := hv.treelike.shows
  obtain ⟨is, hnodup, hmem, hsize⟩ := hv.size
  have hperm : is.Perm (h.tree.entries.map Entry.id) := by
    apply (List.perm_ext_iff_of_nodup hnodup hs.nodup_ids).mpr
    intro i
    rw [hmem, ← hs.attached_iff]
    rfl
  calc h.size = is.length := hsize
    _ = (h.tree.entries.map Entry.id).length := hperm.length_eq
    _ = h.tree.size := by rw [List.length_map, Tree.length_entries]

/-- cells in order show their tree -/
theorem shows : ∃ rest, h.Shows h.tree.size rest h.tree [] := by
  rw [← hv.size_eq]
  exact hv.treelike.shows

end Valid

/-! ## Six cells in order -/

/-- left of the root a black leaf, and right of it a red cell: its left child has a red child on the left, its right child is a
leaf -/
def sixTree : Tree :=
  .node .black (.node .black .leaf ⟨1, [1], []⟩ .leaf) ⟨0, [2], []⟩
    (.node .red (.node .black (.node .red .leaf ⟨5, [3], []⟩ .leaf) ⟨3, [4], []⟩ .leaf) ⟨2, [6], []⟩
      (.node .black .leaf ⟨4, [7], []⟩ .leaf))

def sixCells : Linked :=
  ⟨some 0, 6, [⟨[2], [], .black, some 1, some 2, none⟩, ⟨[1], [], .black, none, none, some 0⟩,
    ⟨[6], [], .red, some 3, some 4, some 0⟩, ⟨[4], [], .black, some 5, none, some 2⟩,
    ⟨[7], [], .black, none, none, some 2⟩, ⟨[3], [], .red, none, none, some 3⟩]⟩

theorem shows_sixCells : sixCells.Shows sixTree.size 0 sixTree [] := ⟨rfl, rfl, by decide⟩

theorem valid_sixCells : sixCells.Valid := valid_of_shows shows_sixCells (by decide)

end Linked

end MeteredStore
