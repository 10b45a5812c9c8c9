/-
How much a cursor can still answer.

A link leads down the tree, or through detached nodes and then down the tree. A detached node has a child on one side at most,
so what a link leads to is never more than all the nodes there are (`span_le`), though a stack may hold one node twice and
lead to it by several ways. A node on the stack stands for itself and for what it leads to onwards (`load`). A step gives up
one node and pushes less than it stands for, so the load of a stack falls with each answer (`load_next`).

Main statement: `drain_yields`, whatever has become of the map under a cursor, draining it is stepping it to the end.
-/
import MeteredStore.Proofs.Live.Links

namespace MeteredStore

/-- the number of nodes that a link leads to, each counted as often as there are ways to it. The detached nodes among which it
may lead are given oldest first -/
def Tree.span (root : Tree) : List Node → Option NodeId → Nat
  | _, none => 0
  | detached, some i =>
    match root.subtree? i with
    | some t => t.size
    | none =>
      match detached with
      | [] => 0
      | n :: later =>
        if n.entry.id = i then root.span later n.left + 1 + root.span later n.right else root.span later (some i)

namespace Tree

variable {root t : Tree} {i : NodeId}

@[simp] theorem span_none (root : Tree) (detached : List Node) : root.span detached none = 0 := by unfold span; rfl

theorem span_of_subtree? (h : root.subtree? i = some t) (detached : List Node) : root.span detached (some i) = t.size := by
  unfold span
  simp only [h]

theorem span_cons (h : root.subtree? i = none) (n : Node) (later : List Node) : root.span (n :: later) (some i) =
    if n.entry.id = i then root.span later n.left + 1 + root.span later n.right else root.span later (some i) := by
  rw [span, h]

end Tree

namespace SortedMap

variable {m : SortedMap} {i j : NodeId} {n : Node} {d : Direction}

/-! ## What a link leads to -/

theorem span_topId (h : m.Sound) {t : Tree} {p : Path} (hp : p.fill t = m.root) (detached : List Node) :
    m.root.span detached t.topId = t.size := by
  cases t with
  | leaf => exact Tree.span_none m.root detached
  | node c l e r =>
    refine Tree.span_of_subtree? ?_ detached
    rw [← hp]
    exact Tree.subtree?_top (hp ▸ h.distinct)

/-- a link to the tree or to the last detached nodes leads past those before -/
theorem span_append (h : m.Sound) {front gone : List Node} (hd : front ++ gone <:+ m.detached) {link : Option NodeId}
    (hlink : ∀ i ∈ link, Live.Known m gone i) : m.root.span (front ++ gone) link = m.root.span gone link := by
  induction front with
  | nil => rfl
  | cons x front ih =>
    rw [List.cons_append] at hd ⊢
    rw [← ih ((List.suffix_cons x _).trans hd)]
    cases link with
    | none => rw [Tree.span_none, Tree.span_none]
    | some i =>
      cases ht : m.root.subtree? i with
      | some t => rw [Tree.span_of_subtree? ht, Tree.span_of_subtree? ht]
      | none =>
        rcases hlink i rfl with hi | ⟨y, hy, rfl⟩
        · obtain ⟨t, ht'⟩ := h.exists_subtree? hi
          rw [ht] at ht'
          cases ht'
        · have hids : (m.detached.map fun n => n.entry.id).Nodup := (List.nodup_append.mp h.nodup).2.1
          have hnodup := hids.sublist (hd.sublist.map fun n => n.entry.id)
          rw [List.map_cons, List.nodup_cons] at hnodup
          have hne : x.entry.id ≠ y.entry.id :=
            fun he => hnodup.1 (he ▸ List.mem_map_of_mem (List.mem_append_right _ hy))
          rw [Tree.span_cons ht, if_neg hne]

/-- a detached node has a child on one side at most, so links lead to no more nodes than there are -/
theorem span_le {gone : List Node} (h : m.Trailing gone) (link : Option NodeId) :
    m.root.span gone link ≤ m.root.size + gone.length := by
  generalize m.root = root
  fun_induction Tree.span root gone link with
  | case1 => exact Nat.zero_le _
  | case2 gone i t ht =>
    obtain ⟨p, rfl, -⟩ := Tree.exists_fill_of_subtree? ht
    exact Nat.le_add_right_of_le (Tree.size_le_fill p t)
  | case3 => exact Nat.zero_le _
  | case4 x later hout ihl ihr =>
    obtain ⟨hsingle, -, hlater⟩ := h
    have hl := ihl hlater
    have hr := ihr hlater
    rw [List.length_cons]
    rcases hsingle with hnone | hnone
    · rw [hnone, Tree.span_none]
      omega
    · rw [hnone, Tree.span_none]
      omega
  | case5 i hout x later hne ih =>
    have hi := ih h.2.2
    rw [List.length_cons]
    omega

theorem Trailing.suffix {front gone : List Node} (h : m.Trailing (front ++ gone)) : m.Trailing gone := by
  induction front with
  | nil => exact h
  | cons x front ih => exact ih h.2.2

/-- the nodes that all links of the map lead to -/
def span (m : SortedMap) (link : Option NodeId) : Nat := m.root.span m.detached link

theorem span_of_mem_root (h : m.Sound) (hn : n ∈ m.root.nodes) :
    m.span (some n.entry.id) = m.span n.left + 1 + m.span n.right := by
  obtain ⟨p, l, r, hp, hl, hr⟩ := Tree.exists_part hn
  have hpart : ∀ s, m.span ((Tree.node n.color l n.entry r).child s).topId =
      ((Tree.node n.color l n.entry r).child s).size := by
    intro s
    obtain ⟨f, hf⟩ := Tree.exists_fill_child n.color l r n.entry s
    exact span_topId h (p := f :: p) (by rw [Path.fill_cons, hf, hp]) m.detached
  have hleft : m.span l.topId = l.size := hpart .left
  have hright : m.span r.topId = r.size := hpart .right
  rw [hl, hr, hleft, hright]
  exact span_topId h hp m.detached

theorem span_of_mem_detached (h : m.Sound) (htrail : m.Trailing m.detached) (hn : n ∈ m.detached) :
    m.span (some n.entry.id) = m.span n.left + 1 + m.span n.right := by
  obtain ⟨front, later, hd⟩ := List.append_of_mem hn
  have hout : m.root.subtree? n.entry.id = none := by
    refine Tree.subtree?_eq_none fun hi => ?_
    exact (List.nodup_append.mp h.nodup).2.2 _ hi _ (List.mem_map_of_mem hn) rfl
  obtain ⟨-, hchild, -⟩ : m.Trailing (n :: later) := Trailing.suffix (hd ▸ htrail)
  have hlater : ∀ s, m.span (n.child s) = m.root.span later (n.child s) := by
    intro s
    have hd' : m.detached = front ++ [n] ++ later := by rw [hd, List.append_assoc]; rfl
    rw [span, hd']
    exact span_append h (hd' ▸ List.suffix_rfl) (hchild s)
  have hself : m.span (some n.entry.id) = m.root.span (n :: later) (some n.entry.id) := by
    rw [span, hd]
    refine span_append h (hd ▸ List.suffix_rfl) ?_
    intro i hi
    obtain rfl := Option.some.inj hi
    exact .inr ⟨n, List.mem_cons_self, rfl⟩
  rw [hself, Tree.span_cons hout, if_pos rfl]
  exact congrArg₂ (fun x y => x + 1 + y) (hlater .left).symm (hlater .right).symm

/-- a node leads to itself and to what its children lead to -/
theorem span_node (h : m.Sound) (htrail : m.Trailing m.detached) (hn : m.node? i = some n) (s : Side) :
    m.span (some i) = m.span (n.child s) + 1 + m.span (n.child s.opposite) := by
  have hsides : m.span (some i) = m.span n.left + 1 + m.span n.right := by
    obtain rfl := id_of_node? hn
    rcases List.mem_append.mp (List.mem_of_find?_eq_some hn) with hmem | hmem
    · exact span_of_mem_root h hmem
    · exact span_of_mem_detached h htrail hmem
  rw [hsides]
  cases s with
  | left => rfl
  | right =>
    rw [Nat.add_right_comm, Nat.add_comm (m.span n.left), Nat.add_right_comm]
    rfl

/-! ## What a stack leads to -/

/-- how many answers a node on a stack stands for at most: itself and what it leads to onwards -/
def load (m : SortedMap) (d : Direction) (i : NodeId) : Nat :=
  match m.node? i with
  | none => 0
  | some n => 1 + m.span (n.child d.onward)

theorem load_of_node? (hn : m.node? i = some n) (d : Direction) : m.load d i = 1 + m.span (n.child d.onward) := by
  rw [load, hn]

/-- a node stands for no more answers than there are nodes -/
theorem load_le (h : m.Sound) (htrail : m.Trailing m.detached) (d : Direction) (i : NodeId) : m.load d i ≤ m.nodes.length := by
  cases hn : m.node? i with
  | none =>
    rw [load, hn]
    exact Nat.zero_le _
  | some n =>
    have hspan := span_le htrail (some i)
    have hnode := span_node h htrail hn d.onward
    have hlength : m.nodes.length = m.root.size + m.detached.length := by
      rw [nodes, List.length_append, ← List.length_map Node.entry, Tree.map_entry_nodes, Tree.length_entries]
    rw [span] at hnode
    rw [load_of_node? hn, hlength]
    omega

end SortedMap

namespace Cursor

variable {m : SortedMap} {b : Bounds} {d : Direction}

/-- how many answers a stack stands for at most -/
def stackLoad (m : SortedMap) (d : Direction) (stack : List NodeId) : Nat := (stack.map (m.load d)).sum

theorem stackLoad_cons (m : SortedMap) (d : Direction) (i : NodeId) (stack : List NodeId) :
    stackLoad m d (i :: stack) = m.load d i + stackLoad m d stack := by
  rw [stackLoad, List.map_cons, List.sum_cons]
  rfl

theorem stackLoad_pushTree (h : m.Sound) {t : Tree} {p : Path} (hp : p.fill t = m.root) (stack : List NodeId) :
    stackLoad m d (pushTree b d t stack) ≤ t.size + stackLoad m d stack := by
  induction t generalizing p stack with
  | leaf => exact Nat.le_add_left _ _
  | node c l e r ihl ihr =>
    have hpart : ∀ s, ∃ q : Path, q.fill ((Tree.node c l e r).child s) = m.root := by
      intro s
      obtain ⟨f, hf⟩ := Tree.exists_fill_child c l r e s
      exact ⟨f :: p, by rw [Path.fill_cons, hf, hp]⟩
    have ih : ∀ s stack, stackLoad m d (pushTree b d ((Tree.node c l e r).child s) stack) ≤
        ((Tree.node c l e r).child s).size + stackLoad m d stack := by
      intro s stack
      obtain ⟨q, hq⟩ := hpart s
      cases s with
      | left => exact ihl hq stack
      | right => exact ihr hq stack
    have hsize : (Tree.node c l e r).size = ((Tree.node c l e r).child d.onward.opposite).size + 1 +
        ((Tree.node c l e r).child d.onward).size := by
      cases d with
      | ascending => rfl
      | descending =>
        rw [Tree.size, Nat.add_right_comm, Nat.add_comm l.size, Nat.add_right_comm]
        rfl
    have hload : m.load d e.id = 1 + ((Tree.node c l e r).child d.onward).size := by
      obtain ⟨q, hq⟩ := hpart d.onward
      have hspan : m.span ((Tree.node c l e r).child d.onward).topId = _ := SortedMap.span_topId h hq m.detached
      rw [SortedMap.load_of_node? (h.node?_fill hp), ← hspan]
      cases d <;> rfl
    rw [pushTree_node]
    cases b.isNear d e.key with
    | true =>
      have hi := ih d.onward stack
      rw [if_pos rfl]
      omega
    | false =>
      have hi := ih d.onward.opposite (e.id :: stack)
      rw [stackLoad_cons, hload] at hi
      rw [if_neg (by simp)]
      omega

/-- what is pushed stands for no more than what the link leads to -/
theorem stackLoad_pushLink (h : m.Sound) (htrail : m.Trailing m.detached) {gone : List Node} (hsub : gone ⊆ m.detached)
    (link : Option NodeId) (stack : List NodeId) :
    stackLoad m d (pushLink m.root b d gone link stack) ≤ m.span link + stackLoad m d stack := by
  generalize hr : m.root = root
  fun_induction pushLink root b d gone link stack with
  | case1 => exact Nat.le_add_left _ _
  | case2 gone i stack t ht =>
    obtain ⟨p, hp, htop⟩ := Tree.exists_fill_of_subtree? ht
    have hspan : m.span t.topId = t.size := SortedMap.span_topId h (hp.trans hr.symm) m.detached
    rw [← htop, hspan]
    exact stackLoad_pushTree h (hp.trans hr.symm) stack
  | case3 => exact Nat.le_add_left _ _
  | case4 stack x later hnear hout ih =>
    -- the node is detached and near: it is left out
    obtain ⟨hmem, hrest⟩ := List.cons_subset.mp hsub
    have hnode := SortedMap.span_node h htrail (h.node?_eq (List.mem_append_right _ hmem)) d.onward
    have hi := ih hrest
    omega
  | case5 stack x later hnear hout ih =>
    -- the node is detached and pushed: it takes what it leads to onwards
    obtain ⟨hmem, hrest⟩ := List.cons_subset.mp hsub
    have hn := h.node?_eq (List.mem_append_right _ hmem)
    have hnode := SortedMap.span_node h htrail hn d.onward
    have hi := ih hrest
    rw [stackLoad_cons, SortedMap.load_of_node? hn] at hi
    omega
  | case6 i stack hout x later hne ih => exact ih (List.cons_subset.mp hsub).2

/-! ## Stepping to the end -/

/-- the load of a cursor's stack falls with each answer -/
theorem load_next (h : m.Sound) (htrail : m.Trailing m.detached) {c c' : Cursor} {pair : Bytes × Bytes}
    (hc : c.next m = (some pair, c')) :
    stackLoad m c'.direction c'.stack < stackLoad m c.direction c.stack := by
  rcases next_cases m c with hn | ⟨i, stack, n, hs, hi, -, hn⟩
  · rw [hn] at hc
    cases hc
  · rw [hn] at hc
    obtain rfl := congrArg Prod.snd hc
    have hpush := stackLoad_pushLink (b := c.bounds) (d := c.direction) h htrail (List.Subset.refl m.detached)
      (n.child c.direction.onward) stack
    rw [hs, stackLoad_cons, SortedMap.load_of_node? hi]
    simp only
    omega

theorem stackLoad_le_supply (h : m.Sound) (htrail : m.Trailing m.detached) (c : Cursor) :
    stackLoad m c.direction c.stack ≤ c.supply m := by
  have hsum : (c.stack.map (m.load c.direction)).sum ≤ (c.stack.map (m.load c.direction)).length • m.nodes.length := by
    apply List.sum_le_card_nsmul
    intro x hx
    obtain ⟨i, -, rfl⟩ := List.mem_map.mp hx
    exact SortedMap.load_le h htrail c.direction i
  rwa [List.length_map, smul_eq_mul] at hsum

end Cursor

/-! ## Answers up to the end -/

/-- stepped again and again, it gives these pairs and then finds nothing -/
inductive Yields {σ : Type} (next : σ → Option (Bytes × Bytes) × σ) : σ → List (Bytes × Bytes) → σ → Prop where
  | done {s t : σ} (h : next s = (none, t)) : Yields next s [] t
  | more {s t u : σ} {pair : Bytes × Bytes} {pairs : List (Bytes × Bytes)} (h : next s = (some pair, t))
      (rest : Yields next t pairs u) : Yields next s (pair :: pairs) u

/-- what loses some of a bounded load with each answer comes to an end -/
theorem exists_yields {σ : Type} {next : σ → Option (Bytes × Bytes) × σ} (Q : σ → Prop) (load : σ → Nat)
    (hnext : ∀ s t pair, Q s → next s = (some pair, t) → Q t ∧ load t < load s) {s : σ} (h : Q s) :
    ∃ pairs t, Yields next s pairs t ∧ pairs.length ≤ load s := by
  induction hl : load s using Nat.strongRecOn generalizing s with
  | ind l ih =>
    subst hl
    rcases hs : next s with ⟨found, t⟩
    cases found with
    | none => exact ⟨[], t, .done hs, Nat.zero_le _⟩
    | some pair =>
      obtain ⟨hQ, hlt⟩ := hnext s t pair h hs
      obtain ⟨pairs, u, hy, hlen⟩ := ih (load t) hlt hQ rfl
      exact ⟨pair :: pairs, u, .more hs hy, Nat.lt_of_le_of_lt hlen hlt⟩

namespace Cursor

theorem take_of_yields {m : SortedMap} {c c' : Cursor} {pairs : List (Bytes × Bytes)}
    (h : Yields (next m) c pairs c') {n : Nat} (hn : pairs.length < n) : c.take m n = (pairs, c') := by
  induction h generalizing n with
  | done hc =>
    obtain ⟨n, rfl⟩ := Nat.exists_eq_add_one.mpr (Nat.zero_lt_of_lt hn)
    rw [take, hc]
  | more hc _ ih =>
    obtain ⟨n, rfl⟩ := Nat.exists_eq_add_one.mpr (Nat.zero_lt_of_lt hn)
    rw [take, hc]
    simp only [ih (Nat.lt_of_succ_lt_succ hn)]

/-- **Walks end.** Whatever has become of the map under a cursor: stepped again and again it comes to an end, and draining it
takes what the steps would have answered. -/
theorem drain_yields {m : SortedMap} (h : m.Sound) (htrail : m.Trailing m.detached) (c : Cursor) :
    Yields (next m) c (c.drain m).1 (c.drain m).2 ∧ (c.drain m).1.length ≤ c.supply m := by
  obtain ⟨pairs, c', hy, hlen⟩ := @exists_yields Cursor (next m) (fun _ => True) (fun c => stackLoad m c.direction c.stack)
    (fun c c' pair _ hc => ⟨trivial, load_next h htrail hc⟩) (s := c) trivial
  have hle := Nat.le_trans hlen (stackLoad_le_supply h htrail c)
  rw [drain, take_of_yields hy (Nat.lt_succ_of_le hle)]
  exact ⟨hy, hle⟩

end Cursor

end MeteredStore
