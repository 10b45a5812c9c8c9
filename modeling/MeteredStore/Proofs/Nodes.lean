/-
What a write does to the nodes of a map.

Rotations and recolourings move nodes about and leave their entries alone. So a write comes to little for the nodes that
were there before it (`Shift`): at most it takes one out of the tree, as it is, with a child that stays in the tree; all
others stay in the tree under their numbers, and keep their keys, except that the node of a deleted key may take over the
next key in order.

Main statements: `exists_shift`, every write on a sound map is such a shift; `node?_write`, a node is never lost, and its
key never becomes smaller.
-/
import MeteredStore.Proofs.Walk

namespace MeteredStore

/-- both are keys, and there is no key between them -/
structure Bindings.Adjacent (b : Bindings) (j k : Bytes) : Prop where
  lt : j < k
  left : j ∈ b.map Prod.fst
  right : k ∈ b.map Prod.fst
  none_between : ∀ key ∈ b.map Prod.fst, j < key → ¬ key < k

namespace Tree

variable {t u : Tree} {n : Node} {i : NodeId}

theorem entry_mem (h : n ∈ t.nodes) : n.entry ∈ t.entries := by
  rw [← map_entry_nodes]
  exact List.mem_map_of_mem h

/-- a node of a tree leads to nodes of the tree -/
theorem child_of_mem_nodes (hn : n ∈ t.nodes) {s : Side} (hi : i ∈ n.child s) :
    i ∈ t.entries.map Entry.id := by
  induction t with
  | leaf => cases hn
  | node c l e r ihl ihr =>
    rw [entries, List.map_append, List.map_cons, List.mem_append, List.mem_cons]
    rw [nodes, List.mem_append, List.mem_cons] at hn
    rcases hn with hn | rfl | hn
    · exact .inl (ihl hn)
    · cases s with
      | left => exact .inl (mem_of_topId hi)
      | right => exact .inr (.inr (mem_of_topId hi))
    · exact .inr (.inr (ihr hn))

/-- what is below a node of a tree is in the tree -/
theorem mem_of_subtree? (h : t.subtree? i = some u) {e : Entry} (he : e ∈ u.entries) :
    e ∈ t.entries := by
  induction t with
  | leaf => simp [subtree?] at h
  | node c l x r ihl ihr =>
    rw [subtree?] at h
    rw [entries, List.mem_append, List.mem_cons]
    split at h
    · cases h
      simpa [entries] using he
    · split at h
      · next hl =>
        cases h
        exact .inl (ihl hl)
      · exact .inr (.inr (ihr h))

end Tree

namespace SortedMap

/-- the node is in the tree -/
def Has (m : SortedMap) (i : NodeId) : Prop := i ∈ m.root.entries.map Entry.id

instance (m : SortedMap) (i : NodeId) : Decidable (m.Has i) := inferInstanceAs (Decidable (i ∈ _))

/-- what a write does to the nodes that were there before it; those that are gone are detached now -/
structure Shift (m : SortedMap) (w : Write) (gone : List Node) : Prop where
  detached : (m.write w).detached = m.detached ++ gone
  /-- a node is taken out with the entry that it had -/
  entry : ∀ n ∈ gone, n.entry ∈ m.root.entries
  /-- what hung below it stays in the tree -/
  child : ∀ n ∈ gone, ∀ s, ∀ i ∈ n.child s, (m.write w).Has i
  /-- and that was on one side at most -/
  single : ∀ n ∈ gone, n.left = none ∨ n.right = none
  /-- the others stay, with their keys or, for the node of a deleted key, with the next one -/
  kept : ∀ e ∈ m.root.entries, (∃ n ∈ gone, n.entry = e) ∨ ∃ f ∈ (m.write w).root.entries, f.id = e.id ∧
    (f.key = e.key ∨ w = .delete e.key ∧ Bindings.Adjacent m.toList e.key f.key)

variable {m : SortedMap}

/-! ## One write -/

theorem put_shift (h : m.Sound) (key value : Bytes) : Shift m (.put key value) [] := by
  obtain ⟨root, a, b, -, -, -, hcase⟩ := insert_cases h key value
  rcases hcase with ⟨hins, ht, hr⟩ | ⟨x, hins, -, ht, hr⟩
  · have hw : m.write (.put key value) = { m with root := root, size := m.size + 1, fresh := m.fresh + 1 } :=
      insert_of_insert? hins
    refine ⟨by rw [hw, List.append_nil], by simp, by simp, by simp, ?_⟩
    intro e he
    rw [ht, List.mem_append] at he
    rw [hw, hr]
    refine .inr ⟨e, ?_, rfl, .inl rfl⟩
    rcases he with he | he <;> simp [he]
  · have hw : m.write (.put key value) = { m with root := root } := insert_of_insert? hins
    refine ⟨by rw [hw, List.append_nil], by simp, by simp, by simp, ?_⟩
    intro e he
    rw [ht, List.mem_append, List.mem_cons] at he
    rw [hw, hr]
    rcases he with he | rfl | he
    · exact .inr ⟨e, by simp [he], rfl, .inl rfl⟩
    · exact .inr ⟨_, List.mem_append_right _ List.mem_cons_self, rfl, .inl rfl⟩
    · exact .inr ⟨e, by simp [he], rfl, .inl rfl⟩

/-- entries that follow each other have keys that follow each other -/
theorem adjacent_of_entries (h : m.Sound) {a b : List Entry} {e f : Entry} (hm : m.root.entries = a ++ e :: f :: b) :
    Bindings.Adjacent m.toList e.key f.key := by
  have ho := h.redBlack.ordered
  rw [Tree.Ordered, hm] at ho
  obtain ⟨hbefore, hafter⟩ := Tree.bracket_of_ordered ho
  have hf := (Tree.bracket_of_ordered (a := a ++ [e]) (b := b) (by simpa using ho)).2
  have hkeys : m.toList.map Prod.fst = m.root.entries.map Entry.key := by
    rw [toList, Tree.toList, List.map_map]
    rfl
  rw [hm] at hkeys
  refine ⟨hafter f List.mem_cons_self, by simp [hkeys], by simp [hkeys], ?_⟩
  intro key hkey hlt hgt
  rw [hkeys] at hkey
  obtain ⟨g, hg, rfl⟩ := List.mem_map.mp hkey
  rw [List.mem_append, List.mem_cons, List.mem_cons] at hg
  rcases hg with hg | rfl | rfl | hg
  · exact Bytes.lt_asymm hlt (hbefore g hg)
  · exact Bytes.lt_irrefl _ hlt
  · exact Bytes.lt_irrefl _ hgt
  · exact Bytes.lt_asymm hgt (hf g hg)

theorem delete_shift (h : m.Sound) (key : Bytes) : ∃ gone, Shift m (.delete key) gone := by
  rcases erase_cases h key with ⟨he, -⟩ | ⟨n, root, he, -, hkey, hchild, hsingle⟩
  · have hw : m.write (.delete key) = m := congrArg Prod.snd (erase_of_erase? he)
    refine ⟨[], by rw [hw, List.append_nil], by simp, by simp, by simp, ?_⟩
    intro e hmem
    rw [hw]
    exact .inr ⟨e, hmem, rfl, .inl rfl⟩
  · have hw : m.write (.delete key) = { m with root := root, size := m.size - 1, detached := m.detached ++ [n] } :=
      congrArg Prod.snd (erase_of_erase? he)
    have hroot : (m.write (.delete key)).root = root := by rw [hw]
    have hgone : ∃ x ∈ [n], x.entry = n.entry := ⟨n, List.mem_singleton_self n, rfl⟩
    generalize hes : m.root.entries = es at hkey
    generalize hfs : root.entries = fs at hkey
    refine ⟨[n], by rw [hw], ?_, ?_, by simpa using hsingle, ?_⟩
    · intro x hx
      obtain rfl := List.mem_singleton.mp hx
      rw [hes]
      cases hkey with
      | here => simp
      | next => simp
    · intro x hx s i hi
      obtain rfl := List.mem_singleton.mp hx
      have hmem := hchild s i hi
      rw [← hroot] at hmem
      exact hmem
    · intro e hmem
      rw [hroot, hfs]
      rw [hes] at hmem
      cases hkey with
      | here =>
        rw [List.mem_append, List.mem_cons] at hmem
        rcases hmem with hmem | rfl | hmem
        · exact .inr ⟨e, by simp [hmem], rfl, .inl rfl⟩
        · exact .inl hgone
        · exact .inr ⟨e, by simp [hmem], rfl, .inl rfl⟩
      | next hk =>
        rw [List.mem_append, List.mem_cons, List.mem_cons] at hmem
        rcases hmem with hmem | rfl | rfl | hmem
        · exact .inr ⟨e, by simp [hmem], rfl, .inl rfl⟩
        · refine .inr ⟨_, List.mem_append_right _ List.mem_cons_self, rfl, .inr ⟨by rw [hk], ?_⟩⟩
          exact adjacent_of_entries (f := n.entry) h hes
        · exact .inl hgone
        · exact .inr ⟨e, by simp [hmem], rfl, .inl rfl⟩

/-- **One write.** Whatever is written, it at most takes nodes out as they are, and leaves all others in the tree. -/
theorem exists_shift (h : m.Sound) (w : Write) : ∃ gone, Shift m w gone := by
  cases w with
  | put key value => exact ⟨[], put_shift h key value⟩
  | delete key => exact delete_shift h key

/-! ## Nodes by number -/

/-- each entry of the tree is held by a node of the tree -/
theorem Sound.node?_of_mem (h : m.Sound) {e : Entry} (he : e ∈ m.root.entries) :
    ∃ n ∈ m.root.nodes, m.node? e.id = some n ∧ n.entry = e := by
  rw [← Tree.map_entry_nodes] at he
  obtain ⟨n, hn, rfl⟩ := List.mem_map.mp he
  exact ⟨n, hn, h.node?_eq (List.mem_append_left _ hn), rfl⟩

/-- a node in the tree is found in the tree -/
theorem Sound.mem_of_has (h : m.Sound) {i : NodeId} {n : Node} (hn : m.node? i = some n) (hi : m.Has i) :
    n ∈ m.root.nodes := by
  obtain ⟨e, he, rfl⟩ := List.mem_map.mp hi
  obtain ⟨n', hmem, hn', -⟩ := h.node?_of_mem he
  exact Option.some.inj (hn'.symm.trans hn) ▸ hmem

/-- a node in the tree holds a binding -/
theorem bound_of_mem {n : Node} (hn : n ∈ m.root.nodes) : (n.entry.key, n.entry.value) ∈ m.toList := by
  have he : n.entry ∈ m.root.entries := Tree.entry_mem hn
  exact List.mem_map_of_mem he

theorem id_of_node? {i : NodeId} {n : Node} (hn : m.node? i = some n) : n.entry.id = i := by
  simpa using List.find?_some hn

/-- a node is never lost, and its key changes only when the key is deleted: the next key takes its place -/
theorem node?_write (h : m.Sound) (w : Write) {i : NodeId} {n : Node} (hn : m.node? i = some n) :
    ∃ n', (m.write w).node? i = some n' ∧
      (n'.entry.key = n.entry.key ∨ w = .delete n.entry.key ∧ Bindings.Adjacent m.toList n.entry.key n'.entry.key) := by
  obtain ⟨gone, hshift⟩ := exists_shift h w
  have hw := write_sound h w
  obtain rfl := id_of_node? hn
  have hdet : ∀ x ∈ m.detached ++ gone, (m.write w).node? x.entry.id = some x := by
    intro x hx
    exact hw.node?_eq (List.mem_append_right _ (hshift.detached ▸ hx))
  rcases List.mem_append.mp (List.mem_of_find?_eq_some hn) with hroot | hgone
  · have he : n.entry ∈ m.root.entries := Tree.entry_mem hroot
    rcases hshift.kept _ he with ⟨x, hx, hxe⟩ | ⟨f, hf, hid, hkey⟩
    · exact ⟨x, hxe ▸ hdet x (List.mem_append_right _ hx), .inl (by rw [hxe])⟩
    · obtain ⟨n', -, hn', rfl⟩ := hw.node?_of_mem hf
      exact ⟨n', hid ▸ hn', hkey⟩
  · exact ⟨n, hdet n (List.mem_append_left _ hgone), .inl rfl⟩

end SortedMap

end MeteredStore
