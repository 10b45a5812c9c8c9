/-
Where links lead.

A node of the tree leads to nodes below it. A node that is taken out keeps its links, and what they led to was in the tree at
that moment: each of these nodes is in the tree still, or has been taken out later (`Trailing`). So whoever follows links goes
through the detached nodes in the order in which they were taken out, then down the tree, and then no further.

Main statements: `trailing_written`, links lead onwards in this way after any writes; `wellFounded_leads`, there is no way
along links that goes on for ever; `no_cycle`, no node leads back to itself.
-/
import Mathlib.Logic.Relation
import Mathlib.Order.WellFounded
import MeteredStore.Proofs.Live.History

namespace MeteredStore

namespace Tree

variable {t : Tree} {n : Node}

/-- every node of a tree is the top of a part of it -/
theorem exists_part (h : n ∈ t.nodes) : ∃ (p : Path) (l r : Tree),
    p.fill (node n.color l n.entry r) = t ∧ n.left = l.topId ∧ n.right = r.topId := by
  induction t with
  | leaf => cases h
  | node c l e r ihl ihr =>
    have hpart : ∀ s, (∃ (p : Path) (l' r' : Tree), p.fill (node n.color l' n.entry r') = (node c l e r).child s ∧
        n.left = l'.topId ∧ n.right = r'.topId) → ∃ (p : Path) (l' r' : Tree),
        p.fill (node n.color l' n.entry r') = node c l e r ∧ n.left = l'.topId ∧ n.right = r'.topId := by
      rintro s ⟨p, l', r', hp, hl, hr⟩
      obtain ⟨f, hf⟩ := exists_fill_child c l r e s
      exact ⟨p ++ [f], l', r', by rw [Path.fill_append, hp]; exact hf, hl, hr⟩
    rw [nodes, List.mem_append, List.mem_cons] at h
    rcases h with h | rfl | h
    · exact hpart .left (ihl h)
    · exact ⟨[], l, r, rfl, rfl, rfl⟩
    · exact hpart .right (ihr h)

/-- what is found by the number of its top is a part of the tree -/
theorem exists_fill_of_subtree? {u : Tree} {i : NodeId} (h : t.subtree? i = some u) :
    ∃ p : Path, p.fill u = t ∧ u.topId = some i := by
  induction t with
  | leaf => simp [subtree?] at h
  | node c l e r ihl ihr =>
    have hpart : ∀ s, (∃ p : Path, p.fill u = (node c l e r).child s ∧ u.topId = some i) →
        ∃ p : Path, p.fill u = node c l e r ∧ u.topId = some i := by
      rintro s ⟨p, hp, htop⟩
      obtain ⟨f, hf⟩ := exists_fill_child c l r e s
      exact ⟨p ++ [f], by rw [Path.fill_append, hp]; exact hf, htop⟩
    rw [subtree?] at h
    split at h
    · next he =>
      cases h
      exact ⟨[], rfl, congrArg some he⟩
    · split at h
      · next hl =>
        cases h
        exact hpart .left (ihl hl)
      · exact hpart .right (ihr h)

/-- a part of a tree is no larger than the tree -/
theorem size_le_fill (p : Path) (t : Tree) : t.size ≤ (p.fill t).size := by
  rw [← length_entries, ← length_entries, Path.entries_fill, List.length_append, List.length_append]
  omega

end Tree

namespace SortedMap

variable {m : SortedMap} {i j : NodeId} {n : Node}

/-! ## Links among all nodes -/

/-- the first node names the second as a child -/
def Leads (m : SortedMap) (i j : NodeId) : Prop := ∃ n, m.node? i = some n ∧ ∃ s, j ∈ n.child s

/-- detached nodes, oldest first, each with a child on one side at most, and this child in the tree or taken out later -/
def Trailing (m : SortedMap) : List Node → Prop
  | [] => True
  | n :: later => (n.left = none ∨ n.right = none) ∧ (∀ s, ∀ i ∈ n.child s, Live.Known m later i) ∧ Trailing m later

theorem trailing_of_has {gone : List Node} (hsingle : ∀ n ∈ gone, n.left = none ∨ n.right = none)
    (hchild : ∀ n ∈ gone, ∀ s, ∀ i ∈ n.child s, m.Has i) : m.Trailing gone := by
  induction gone with
  | nil => trivial
  | cons n later ih =>
    refine ⟨hsingle n List.mem_cons_self, fun s i hi => .inl (hchild n List.mem_cons_self s i hi), ih ?_ ?_⟩
    · exact fun x hx => hsingle x (List.mem_cons_of_mem n hx)
    · exact fun x hx => hchild x (List.mem_cons_of_mem n hx)

/-- a write that takes nodes out puts them at the end of the trail -/
theorem Trailing.write {w : Write} {gone more : List Node} (h : m.Trailing gone) (hshift : m.Shift w more) :
    (m.write w).Trailing (gone ++ more) := by
  induction gone with
  | nil => exact trailing_of_has hshift.single hshift.child
  | cons n later ih =>
    obtain ⟨hsingle, hchild, hlater⟩ := h
    exact ⟨hsingle, fun s i hi => Live.known_write hshift (hchild s i hi), ih hlater⟩

theorem written_concat (ws : List Write) (w : Write) : written (ws ++ [w]) = (written ws).write w := by
  rw [written, List.foldl_append]
  rfl

/-- **Links lead onwards.** Whatever is put and deleted: what a detached node leads to is in the tree or was taken out later. -/
theorem trailing_written (ws : List Write) : (written ws).Trailing (written ws).detached := by
  induction ws using List.reverseRecOn with
  | nil => trivial
  | append_singleton ws w ih =>
    obtain ⟨gone, hshift⟩ := exists_shift (sound_written ws) w
    rw [written_concat, hshift.detached]
    exact ih.write hshift

/-- a node is in the tree or among the detached ones -/
theorem known_of_mem (hn : n ∈ m.nodes) : Live.Known m m.detached n.entry.id := by
  rcases List.mem_append.mp hn with hn | hn
  · exact .inl (List.mem_map_of_mem (Tree.entry_mem hn))
  · exact .inr ⟨n, hn, rfl⟩

theorem exists_of_known (h : m.Sound) (hi : Live.Known m m.detached i) : ∃ n, m.node? i = some n := by
  rcases hi with hi | ⟨n, hn, rfl⟩
  · obtain ⟨e, he, rfl⟩ := List.mem_map.mp hi
    obtain ⟨n, -, hn, -⟩ := h.node?_of_mem he
    exact ⟨n, hn⟩
  · exact ⟨n, h.node?_eq (List.mem_append_right _ hn)⟩

/-- one among the last detached nodes leads to the tree or to one among them -/
theorem Trailing.child {gone : List Node} (h : m.Trailing gone) (hn : n ∈ gone) {s : Side} (hi : i ∈ n.child s) :
    Live.Known m gone i := by
  induction gone with
  | nil => cases hn
  | cons x later ih =>
    obtain ⟨-, hchild, hlater⟩ := h
    have hknown : Live.Known m later i := by
      rcases List.mem_cons.mp hn with rfl | hn
      · exact hchild s i hi
      · exact ih hlater hn
    rcases hknown with hi | ⟨y, hy, rfl⟩
    · exact .inl hi
    · exact .inr ⟨y, List.mem_cons_of_mem x hy, rfl⟩

/-- a node leads to nodes that are there -/
theorem Trailing.closed (h : m.Trailing m.detached) (hn : n ∈ m.nodes) {s : Side} (hi : i ∈ n.child s) :
    Live.Known m m.detached i := by
  rcases List.mem_append.mp hn with hn | hn
  · exact .inl (Tree.child_of_mem_nodes hn hi)
  · exact h.child hn hi

/-- a node in the tree is found there -/
theorem Sound.exists_subtree? (h : m.Sound) (hi : m.Has i) : ∃ t, m.root.subtree? i = some t := by
  obtain ⟨e, he, rfl⟩ := List.mem_map.mp hi
  rw [← Tree.map_entry_nodes] at he
  obtain ⟨n, hn, rfl⟩ := List.mem_map.mp he
  obtain ⟨p, l, r, hp, -, -⟩ := Tree.exists_part hn
  exact ⟨_, hp ▸ Tree.subtree?_top (hp ▸ h.distinct)⟩

/-! ## No way goes on for ever -/

/-- the node of an entry in a part of the tree leads to the parts below it -/
theorem Sound.node?_fill (h : m.Sound) {p : Path} {c : Color} {l r : Tree} {e : Entry}
    (hp : p.fill (.node c l e r) = m.root) : m.node? e.id = some ⟨c, e, l.topId, r.topId⟩ := by
  refine h.node?_eq (n := ⟨c, e, l.topId, r.topId⟩) (List.mem_append_left _ ?_)
  rw [← hp]
  exact Tree.mem_nodes_fill (by simp [Tree.nodes])

theorem acc_of_part (h : m.Sound) {t : Tree} {p : Path} (hp : p.fill t = m.root) (hi : i ∈ t.entries.map Entry.id) :
    Acc (fun j i => m.Leads i j) i := by
  induction t generalizing p i with
  | leaf => cases hi
  | node c l e r ihl ihr =>
    have hbelow : ∀ s, ∀ j ∈ ((Tree.node c l e r).child s).entries.map Entry.id, Acc (fun j i => m.Leads i j) j := by
      intro s j hj
      obtain ⟨f, hf⟩ := Tree.exists_fill_child c l r e s
      have hpart : Path.fill (f :: p) ((Tree.node c l e r).child s) = m.root := by rw [Path.fill_cons, hf, hp]
      cases s with
      | left => exact ihl hpart hj
      | right => exact ihr hpart hj
    rw [Tree.entries, List.map_append, List.map_cons, List.mem_append, List.mem_cons] at hi
    rcases hi with hi | rfl | hi
    · exact hbelow .left i hi
    · refine Acc.intro _ ?_
      rintro j ⟨n, hn, s, hj⟩
      obtain rfl := Option.some.inj ((h.node?_fill hp).symm.trans hn)
      cases s with
      | left => exact hbelow .left j (Tree.mem_of_topId hj)
      | right => exact hbelow .right j (Tree.mem_of_topId hj)
    · exact hbelow .right i hi

theorem acc_of_known (h : m.Sound) {gone : List Node} (hgone : m.Trailing gone) (hsub : gone ⊆ m.detached)
    (hi : Live.Known m gone i) : Acc (fun j i => m.Leads i j) i := by
  -- the node taken out last comes first, because it leads into the tree only
  induction gone generalizing i with
  | nil =>
    rcases hi with hi | ⟨n, hn, -⟩
    · exact acc_of_part h (p := []) rfl hi
    · cases hn
  | cons n later ih =>
    obtain ⟨-, hchild, hlater⟩ := hgone
    obtain ⟨hmem, hrest⟩ := List.cons_subset.mp hsub
    rcases hi with hi | ⟨x, hx, rfl⟩
    · exact ih hlater hrest (.inl hi)
    · rcases List.mem_cons.mp hx with rfl | hx
      · refine Acc.intro _ ?_
        rintro j ⟨x', hx', s, hj⟩
        obtain rfl := Option.some.inj ((h.node?_eq (List.mem_append_right _ hmem)).symm.trans hx')
        exact ih hlater hrest (hchild s j hj)
      · exact ih hlater hrest (.inr ⟨x, hx, rfl⟩)

theorem wellFounded_leads (h : m.Sound) (htrail : m.Trailing m.detached) : WellFounded fun j i => m.Leads i j := by
  refine ⟨fun i => ?_⟩
  cases hn : m.node? i with
  | none =>
    refine Acc.intro _ ?_
    rintro j ⟨n, hn', -⟩
    rw [hn] at hn'
    cases hn'
  | some n =>
    obtain rfl := id_of_node? hn
    exact acc_of_known h htrail (List.Subset.refl _) (known_of_mem (List.mem_of_find?_eq_some hn))

/-- no node leads back to itself, over however many links -/
theorem no_cycle (h : m.Sound) (htrail : m.Trailing m.detached) (i : NodeId) : ¬ Relation.TransGen m.Leads i i := by
  intro hi
  have hwf := (wellFounded_leads h htrail).transGen
  exact hwf.irrefl.irrefl i (Relation.transGen_swap.mp hi)

end SortedMap

end MeteredStore
