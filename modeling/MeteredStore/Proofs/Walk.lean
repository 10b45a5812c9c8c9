/-
A walk over a map that stands still meets exactly the keys in its range.

The nodes on a cursor's stack stand for what is still to come: each for itself and for the part of the tree on its onward
side, the top one first (`Ahead`). Pushing the way into a tree leaves out the near side of the range and nothing else
(`pushTree_ahead`), and a step takes the first entry to come off the list or finds it beyond the range (`next_ahead`).

Main statements: `range_eq`, draining a cursor over a sound map gives the bindings in range; `walk_exact`, the same step by
step, with the order of the answers.
-/
import MeteredStore.Cursor
import MeteredStore.Proofs.Contents

namespace MeteredStore

/-- in a walk, the first key comes before the second -/
def Direction.Before : Direction → Bytes → Bytes → Prop
  | .ascending, j, k => j < k
  | .descending, j, k => k < j

namespace Bounds

variable {b : Bounds} {d : Direction} {j k : Bytes}

/-- what comes before a near key is near as well -/
theorem isNear_of_before (h : d.Before j k) (hk : b.isNear d k = true) : b.isNear d j = true := by
  obtain ⟨start, stop⟩ := b
  cases d with
  | ascending =>
    cases start with
    | none => simp [isNear, precedes] at hk
    | some s =>
      simp only [isNear, precedes, decide_eq_true_eq] at hk ⊢
      exact Bytes.lt_trans h hk
  | descending =>
    cases stop with
    | none => simp [isNear, follows] at hk
    | some s =>
      simp only [isNear, follows, Bool.not_eq_true', decide_eq_false_iff_not] at hk ⊢
      exact fun hj => hk (Bytes.lt_trans h hj)

/-- what comes after a far key is far as well -/
theorem isFar_of_before (h : d.Before j k) (hj : b.isFar d j = true) : b.isFar d k = true := by
  obtain ⟨start, stop⟩ := b
  cases d with
  | ascending =>
    cases stop with
    | none => simp [isFar, follows] at hj
    | some s =>
      simp only [isFar, follows, Bool.not_eq_true', decide_eq_false_iff_not] at hj ⊢
      exact fun hk => hj (Bytes.lt_trans h hk)
  | descending =>
    cases start with
    | none => simp [isFar, precedes] at hj
    | some s =>
      simp only [isFar, precedes, decide_eq_true_eq] at hj ⊢
      exact Bytes.lt_trans h hj

/-- a key is in the range if it is not before the start and is before the stop -/
theorem contains_iff (b : Bounds) (key : Bytes) :
    b.contains key = true ↔ (∀ s ∈ b.start, ¬ key < s) ∧ ∀ s ∈ b.stop, key < s := by
  obtain ⟨start, stop⟩ := b
  cases start <;> cases stop <;> simp [contains, precedes, follows]

end Bounds

namespace Tree

/-! ## The order of a walk -/

/-- the entries in the order of a walk -/
def along (d : Direction) (t : Tree) : List Entry :=
  match d with
  | .ascending => t.entries
  | .descending => t.entries.reverse

/-- the top entry and the entries that a walk meets after it -/
def onwards (d : Direction) : Tree → List Entry
  | leaf => []
  | node c l e r => e :: ((node c l e r).child d.onward).along d

theorem along_node (d : Direction) (c : Color) (l r : Tree) (e : Entry) :
    (node c l e r).along d = ((node c l e r).child d.onward.opposite).along d ++ (node c l e r).onwards d := by
  cases d <;> simp [along, onwards, child, Direction.onward, Side.opposite, entries]

theorem pairwise_along {t : Tree} (h : t.Ordered) (d : Direction) :
    (t.along d).Pairwise fun e f => d.Before e.key f.key := by
  cases d with
  | ascending => exact h
  | descending => exact List.pairwise_reverse.mpr h

theorem ordered_child {c : Color} {l r : Tree} {e : Entry} (h : (node c l e r).Ordered) (s : Side) :
    ((node c l e r).child s).Ordered := by
  obtain ⟨hl, hr, -⟩ := List.pairwise_append.mp h
  cases s with
  | left => exact hl
  | right => exact (List.pairwise_cons.mp hr).2

theorem exists_fill_child (c : Color) (l r : Tree) (e : Entry) (s : Side) :
    ∃ f : Frame, f.fill ((node c l e r).child s) = node c l e r :=
  ⟨_, fill_down (down_node s c l r e)⟩

/-- a walk meets the top entry after the near side, and before the onward side -/
theorem bracket_along {c : Color} {l r : Tree} {e : Entry} (h : (node c l e r).Ordered) (d : Direction) :
    (∀ f ∈ ((node c l e r).child d.onward.opposite).along d, d.Before f.key e.key) ∧
      ∀ f ∈ ((node c l e r).child d.onward).along d, d.Before e.key f.key := by
  have hp := pairwise_along h d
  rw [along_node] at hp
  obtain ⟨-, h₂, h₃⟩ := List.pairwise_append.mp hp
  exact ⟨fun f hf => h₃ f hf e List.mem_cons_self, (List.pairwise_cons.mp h₂).1⟩

/-! ## Finding a part of a tree by the number of its top -/

theorem subtree?_eq_none {t : Tree} {i : NodeId} (h : i ∉ t.entries.map Entry.id) : t.subtree? i = none := by
  induction t with
  | leaf => rfl
  | node c l e r ihl ihr =>
    simp only [entries, List.map_append, List.map_cons, List.mem_append, List.mem_cons, not_or] at h
    rw [subtree?, if_neg (fun he => h.2.1 he.symm), ihl h.1, ihr h.2.2]

theorem distinct_hole {f : Frame} {t : Tree} (h : (f.fill t).Distinct) :
    t.Distinct ∧ (∀ e ∈ t.entries, e.id ≠ f.entry.id) ∧ ∀ e ∈ t.entries, e.id ∉ f.sibling.entries.map Entry.id := by
  obtain ⟨s, c, e, b⟩ := f
  cases s with
  | left =>
    obtain ⟨ht, hb, hlt⟩ := List.pairwise_append.mp h
    refine ⟨ht, fun x hx => hlt x hx e List.mem_cons_self, ?_⟩
    intro x hx hm
    obtain ⟨y, hy, hxy⟩ := List.mem_map.mp hm
    exact hlt x hx y (List.mem_cons_of_mem _ hy) hxy.symm
  | right =>
    obtain ⟨hb, ht, hlt⟩ := List.pairwise_append.mp h
    obtain ⟨het, ht⟩ := List.pairwise_cons.mp ht
    refine ⟨ht, fun x hx => (het x hx).symm, ?_⟩
    intro x hx hm
    obtain ⟨y, hy, hxy⟩ := List.mem_map.mp hm
    exact hlt y hy x (List.mem_cons_of_mem _ hx) hxy

theorem subtree?_frame {f : Frame} {t : Tree} {i : NodeId} (h : (f.fill t).Distinct) (hi : i ∈ t.entries.map Entry.id) :
    (f.fill t).subtree? i = t.subtree? i := by
  obtain ⟨e, he, rfl⟩ := List.mem_map.mp hi
  obtain ⟨-, hne, hsib⟩ := distinct_hole h
  have hs := subtree?_eq_none (hsib e he)
  have hn := (hne e he).symm
  obtain ⟨s, c, x, b⟩ := f
  simp only at hs hn
  cases s with
  | left =>
    simp only [Frame.fill, subtree?, if_neg hn, hs]
    cases t.subtree? e.id <;> rfl
  | right => simp only [Frame.fill, subtree?, if_neg hn, hs]

theorem distinct_of_fill {p : Path} {t : Tree} (h : (p.fill t).Distinct) : t.Distinct := by
  rw [Distinct, Path.entries_fill] at h
  exact (List.pairwise_append.mp (List.pairwise_append.mp h).1).2.1

theorem ordered_of_fill {p : Path} {t : Tree} (h : (p.fill t).Ordered) : t.Ordered := by
  rw [Ordered, Path.entries_fill] at h
  exact (List.pairwise_append.mp (List.pairwise_append.mp h).1).2.1

theorem subtree?_fill {p : Path} {t : Tree} {i : NodeId} (h : (p.fill t).Distinct) (hi : i ∈ t.entries.map Entry.id) :
    (p.fill t).subtree? i = t.subtree? i := by
  induction p generalizing t with
  | nil => rfl
  | cons f p ih =>
    rw [Path.fill_cons, ih h, subtree?_frame (distinct_of_fill h) hi]
    rw [Frame.entries_fill, List.map_append, List.map_append, List.mem_append, List.mem_append]
    exact .inl (.inr hi)

/-- a node of a tree with distinct numbers is found by its number -/
theorem subtree?_top {p : Path} {c : Color} {l r : Tree} {e : Entry} (h : (p.fill (node c l e r)).Distinct) :
    (p.fill (node c l e r)).subtree? e.id = some (node c l e r) := by
  rw [subtree?_fill h (by simp [entries])]
  simp [subtree?]

theorem mem_nodes_fill {p : Path} {t : Tree} {n : Node} (h : n ∈ t.nodes) : n ∈ (p.fill t).nodes := by
  induction p generalizing t with
  | nil => exact h
  | cons f p ih =>
    refine ih ?_
    obtain ⟨s, c, e, b⟩ := f
    cases s <;> simp [Frame.fill, nodes, h]

end Tree

namespace SortedMap

variable {m : SortedMap}

theorem map_id_nodes (m : SortedMap) : m.nodes.map (fun n => n.entry.id) = m.ids := by
  rw [nodes, List.map_append, ids, ← Tree.map_entry_nodes, List.map_map]
  rfl

/-- a node of the map is found by its number -/
theorem Sound.node?_eq (h : m.Sound) {n : Node} (hn : n ∈ m.nodes) : m.node? n.entry.id = some n := by
  have hnodup : (m.nodes.map fun n => n.entry.id).Nodup := by rw [map_id_nodes]; exact h.nodup
  cases hf : m.node? n.entry.id with
  | none => exact absurd (List.find?_eq_none.mp hf n hn) (by simp)
  | some k =>
    have hk : k.entry.id = n.entry.id := by simpa using List.find?_some hf
    exact congrArg some (List.inj_on_of_nodup_map hnodup (List.mem_of_find?_eq_some hf) hn hk)

end SortedMap

namespace Cursor

/-! ## What is still to come -/

theorem pushTree_node (b : Bounds) (d : Direction) (c : Color) (l r : Tree) (e : Entry) (stack : List NodeId) :
    pushTree b d (.node c l e r) stack =
      if b.isNear d e.key then pushTree b d ((Tree.node c l e r).child d.onward) stack
      else pushTree b d ((Tree.node c l e r).child d.onward.opposite) (e.id :: stack) := by
  cases d <;> rfl

/-- pushing the way into a tree leaves out what is near, and nothing else -/
theorem pushTree_ahead (b : Bounds) (d : Direction) {t : Tree} (ht : t.Ordered) (stack : List NodeId) :
    ∃ us : List Tree, (pushTree b d t stack).map some = us.map Tree.topId ++ stack.map some ∧
      (∀ u ∈ us, ∃ p : Path, p.fill u = t) ∧
      us.flatMap (Tree.onwards d) = (t.along d).filter fun e => !b.isNear d e.key := by
  induction t generalizing stack with
  | leaf => exact ⟨[], rfl, by simp, by cases d <;> rfl⟩
  | node c l e r ihl ihr =>
    have ih : ∀ s stack, ∃ us : List Tree,
        (pushTree b d ((Tree.node c l e r).child s) stack).map some = us.map Tree.topId ++ stack.map some ∧
        (∀ u ∈ us, ∃ p : Path, p.fill u = (Tree.node c l e r).child s) ∧
        us.flatMap (Tree.onwards d) = (((Tree.node c l e r).child s).along d).filter fun e => !b.isNear d e.key := by
      rintro (_ | _) stack
      · exact ihl (Tree.ordered_child ht .left) stack
      · exact ihr (Tree.ordered_child ht .right) stack
    have hpart : ∀ s u, (∃ p : Path, p.fill u = (Tree.node c l e r).child s) → ∃ p : Path, p.fill u = .node c l e r := by
      rintro s u ⟨p, hp⟩
      obtain ⟨f, hf⟩ := Tree.exists_fill_child c l r e s
      exact ⟨p ++ [f], by rw [Path.fill_append, hp]; exact hf⟩
    obtain ⟨hbefore, hafter⟩ := Tree.bracket_along ht d
    rw [pushTree_node, Tree.along_node, List.filter_append]
    cases hn : b.isNear d e.key with
    | true =>
      -- the top entry is near, and so is all that comes before it
      obtain ⟨us, hus, hparts, hall⟩ := ih d.onward stack
      have hnil : ((((Tree.node c l e r).child d.onward.opposite).along d).filter fun e => !b.isNear d e.key) = [] :=
        List.filter_eq_nil_iff.mpr fun f hf => by simp [Bounds.isNear_of_before (hbefore f hf) hn]
      refine ⟨us, hus, fun u hu => hpart _ u (hparts u hu), ?_⟩
      rw [hall, hnil, Tree.onwards, List.filter_cons_of_neg (by simp [hn]), List.nil_append]
    | false =>
      -- the top entry is not near, and neither is anything after it
      obtain ⟨us, hus, hparts, hall⟩ := ih d.onward.opposite (e.id :: stack)
      have hself : ((Tree.node c l e r).onwards d).filter (fun e => !b.isNear d e.key) =
          (Tree.node c l e r).onwards d := by
        apply List.filter_eq_self.mpr
        intro f hf
        rcases List.mem_cons.mp hf with rfl | hf
        · simp [hn]
        · cases hf' : b.isNear d f.key with
          | false => rfl
          | true => simpa [hn] using Bounds.isNear_of_before (hafter f hf) hf'
      refine ⟨us ++ [.node c l e r], ?_, ?_, ?_⟩
      · simpa [Tree.topId] using hus
      · intro u hu
        rcases List.mem_append.mp hu with hu | hu
        · exact hpart _ u (hparts u hu)
        · exact ⟨[], List.mem_singleton.mp hu⟩
      · rw [List.flatMap_append, hall, hself]
        simp

/-- what is still to come on a walk: the nodes on the stack stand for it, each for itself and its onward side; it is in the
order of the walk, and nothing of it is near -/
structure Ahead (m : SortedMap) (c : Cursor) (todo : List Entry) : Prop where
  parts : ∃ us : List Tree, c.stack.map some = us.map Tree.topId ∧ (∀ u ∈ us, ∃ p : Path, p.fill u = m.root) ∧
    us.flatMap (Tree.onwards c.direction) = todo
  order : todo.Pairwise fun e f => c.direction.Before e.key f.key
  near : ∀ e ∈ todo, c.bounds.isNear c.direction e.key = false

theorem start_ahead {m : SortedMap} (h : m.Sound) (b : Bounds) (d : Direction) :
    Ahead m (start m b d) ((m.root.along d).filter fun e => !b.isNear d e.key) := by
  obtain ⟨us, hus, hparts, hall⟩ := pushTree_ahead b d h.redBlack.ordered []
  refine ⟨⟨us, by simpa [start] using hus, hparts, hall⟩, (Tree.pairwise_along h.redBlack.ordered d).filter _, ?_⟩
  intro e he
  have hn := (List.mem_filter.mp he).2
  simpa [start] using hn

/-- a link to a part of the tree is followed into that part -/
theorem pushLink_topId {root u : Tree} {p : Path} (hp : p.fill u = root) (hd : root.Distinct) (b : Bounds) (d : Direction)
    (detached : List Node) (stack : List NodeId) :
    pushLink root b d detached u.topId stack = pushTree b d u stack := by
  cases u with
  | leaf => simp [Tree.topId, pushLink, pushTree]
  | node c l e r =>
    have hs : root.subtree? e.id = some (.node c l e r) := by
      rw [← hp]
      exact Tree.subtree?_top (hp ▸ hd)
    cases detached <;> simp only [Tree.topId, pushLink, hs]

/-- a stack that stands for nothing is empty -/
theorem stack_of_ahead_nil {m : SortedMap} {c : Cursor} (h : Ahead m c []) : c.stack = [] := by
  obtain ⟨us, hus, -, hall⟩ := h.parts
  cases us with
  | nil => simpa using hus
  | cons u us =>
    cases u with
    | leaf => cases hs : c.stack <;> simp [hs, Tree.topId] at hus
    | node col l e r => simp [Tree.onwards] at hall

/-- a step takes the first entry to come off the list, unless it is beyond the range -/
theorem next_ahead {m : SortedMap} (hm : m.Sound) {c : Cursor} {e : Entry} {todo : List Entry} (h : Ahead m c (e :: todo)) :
    if c.bounds.isFar c.direction e.key then c.next m = (none, c.stop)
    else ∃ stack, c.next m = (some (e.key, e.value), { c with stack := stack }) ∧
      Ahead m { c with stack := stack } todo := by
  obtain ⟨⟨us, hus, hparts, hall⟩, horder, hnear⟩ := h
  obtain ⟨b, d, stack⟩ := c
  simp only at hus hall horder hnear ⊢
  cases us with
  | nil => simp at hall
  | cons u us =>
    cases u with
    | leaf => cases stack <;> simp [Tree.topId] at hus
    | node col l x r =>
      cases stack with
      | nil => simp at hus
      | cons i stack =>
        simp only [List.map_cons, List.cons.injEq, Tree.topId, Option.some.injEq] at hus
        simp only [List.flatMap_cons, Tree.onwards, List.cons_append, List.cons.injEq] at hall
        obtain ⟨rfl, hus⟩ := hus
        obtain ⟨rfl, hall⟩ := hall
        obtain ⟨p, hp⟩ := hparts _ List.mem_cons_self
        have hmem : (⟨col, x, l.topId, r.topId⟩ : Node) ∈ m.nodes := by
          refine List.mem_append_left _ (hp ▸ Tree.mem_nodes_fill ?_)
          simp [Tree.nodes]
        have hnode := hm.node?_eq hmem
        have hchild : Node.child ⟨col, x, l.topId, r.topId⟩ d.onward = ((Tree.node col l x r).child d.onward).topId := by
          cases d <;> rfl
        obtain ⟨f, hf⟩ := Tree.exists_fill_child col l r x d.onward
        have hpart : Path.fill (f :: p) ((Tree.node col l x r).child d.onward) = m.root := by
          rw [Path.fill_cons, hf, hp]
        split
        · next hfar => simp only [next, hnode, hfar, if_true]
        · next hfar =>
          obtain ⟨vs, hvs, hvparts, hvall⟩ := pushTree_ahead b d
            (Tree.ordered_child (Tree.ordered_of_fill (hp ▸ hm.redBlack.ordered)) d.onward) stack
          refine ⟨pushTree b d ((Tree.node col l x r).child d.onward) stack, ?_, ⟨vs ++ us, ?_, ?_, ?_⟩,
            ?_, ?_⟩
          · simp only [next, hnode, hfar, hchild, pushLink_topId hpart hm.distinct]
            rfl
          · rw [hvs, hus, List.map_append]
          · intro u hu
            rcases List.mem_append.mp hu with hu | hu
            · obtain ⟨q, hq⟩ := hvparts u hu
              exact ⟨q ++ f :: p, by rw [Path.fill_append, hq, hpart]⟩
            · exact hparts u (List.mem_cons_of_mem _ hu)
          · rw [List.flatMap_append, hvall, ← hall]
            refine congrArg (· ++ _) (List.filter_eq_self.mpr ?_)
            intro f hf
            simpa using hnear f (List.mem_cons_of_mem _ (hall ▸ List.mem_append_left _ hf))
          · exact (List.pairwise_cons.mp horder).2
          · exact fun f hf => hnear f (List.mem_cons_of_mem _ hf)

/-! ## The answers of a walk -/

/-- the answer to the step with number `n`, counted from zero, on a map that stands still -/
def answer (m : SortedMap) : Nat → Cursor → Option (Bytes × Bytes)
  | 0, c => (c.next m).1
  | n + 1, c => answer m n (c.next m).2

theorem answer_of_done {m : SortedMap} {c : Cursor} (h : c.stack = []) (n : Nat) : answer m n c = none := by
  induction n with
  | zero => rw [answer, next_of_done h]
  | succ n ih => rw [answer, next_of_done h]; exact ih

/-- once a key is beyond the range, all that follow are -/
theorem filter_far {b : Bounds} {d : Direction} {e : Entry} {todo : List Entry}
    (h : (e :: todo).Pairwise fun e f => d.Before e.key f.key) (he : b.isFar d e.key = true) :
    (e :: todo).filter (fun e => !b.isFar d e.key) = [] := by
  apply List.filter_eq_nil_iff.mpr
  intro f hf
  rcases List.mem_cons.mp hf with rfl | hf
  · simp [he]
  · simp [Bounds.isFar_of_before ((List.pairwise_cons.mp h).1 f hf) he]

/-- a walk answers what is ahead of it as far as it is not beyond the range, and then no more -/
theorem answer_ahead {m : SortedMap} (hm : m.Sound) {c : Cursor} {todo : List Entry} (h : Ahead m c todo) (n : Nat) :
    answer m n c = ((todo.filter fun e => !c.bounds.isFar c.direction e.key).map fun e => (e.key, e.value))[n]? := by
  induction todo generalizing c n with
  | nil => simp [answer_of_done (stack_of_ahead_nil h)]
  | cons e todo ih =>
    have hnext := next_ahead hm h
    split at hnext
    · next hfar =>
      rw [filter_far h.order hfar]
      cases n with
      | zero => simp [answer, hnext]
      | succ n =>
        rw [answer, hnext, answer_of_done rfl]
        rfl
    · next hfar =>
      obtain ⟨stack, hstep, hahead⟩ := hnext
      rw [List.filter_cons_of_pos (by simpa using hfar)]
      cases n with
      | zero => simp [answer, hstep]
      | succ n =>
        rw [answer, hstep]
        exact ih hahead n

/-- what is ahead of a new cursor and not beyond the range is what the map has in the range -/
theorem filter_start (m : SortedMap) (b : Bounds) (d : Direction) :
    ((((m.root.along d).filter fun e => !b.isNear d e.key).filter fun e => !b.isFar d e.key).map
      fun e => (e.key, e.value)) = Bindings.range m.toList b d := by
  have hin : (fun e : Entry => !b.isFar d e.key && !b.isNear d e.key) = fun e => b.contains e.key := by
    funext e
    rw [Bounds.contains_eq b d, Bool.and_comm]
  rw [List.filter_filter]
  cases d with
  | ascending => simp [hin, Bindings.range, Tree.along, SortedMap.toList, Tree.toList, List.filter_map, Function.comp_def]
  | descending => simp [hin, Bindings.range, Tree.along, SortedMap.toList, Tree.toList, List.filter_map, Function.comp_def]

theorem answer_start {m : SortedMap} (hm : m.Sound) (b : Bounds) (d : Direction) (n : Nat) :
    answer m n (start m b d) = (Bindings.range m.toList b d)[n]? := by
  rw [answer_ahead hm (start_ahead hm b d) n, ← filter_start]
  rfl

/-! ## Taking all that is left -/

theorem take_ahead {m : SortedMap} (hm : m.Sound) {c : Cursor} {todo : List Entry} (h : Ahead m c todo) {n : Nat}
    (hn : (todo.filter fun e => !c.bounds.isFar c.direction e.key).length < n) :
    (c.take m n).1 = ((todo.filter fun e => !c.bounds.isFar c.direction e.key).map fun e => (e.key, e.value)) ∧
      (c.take m n).2.stack = [] := by
  induction todo generalizing c n with
  | nil =>
    have hs := stack_of_ahead_nil h
    cases n with
    | zero => simp at hn
    | succ n => simp [take, next_of_done hs, hs]
  | cons e todo ih =>
    cases n with
    | zero => simp at hn
    | succ n =>
      have hnext := next_ahead hm h
      split at hnext
      · next hfar =>
        rw [filter_far h.order hfar]
        simp [take, hnext, stop]
      · next hfar =>
        obtain ⟨stack, hstep, hahead⟩ := hnext
        rw [List.filter_cons_of_pos (by simpa using hfar)] at hn ⊢
        obtain ⟨htake, hdone⟩ := ih hahead (Nat.lt_of_succ_lt_succ hn)
        refine ⟨?_, ?_⟩
        · simp only [take, hstep, htake, List.map_cons]
        · simp only [take, hstep, hdone]

theorem length_onwards_le {m : SortedMap} {u : Tree} {p : Path} (hp : p.fill u = m.root) (d : Direction) :
    (u.onwards d).length ≤ m.nodes.length := by
  have hroot : u.entries.length ≤ m.nodes.length := by
    rw [SortedMap.nodes, List.length_append, ← hp, ← List.length_map (f := Node.entry), Tree.map_entry_nodes,
      Path.entries_fill]
    simp only [List.length_append]
    omega
  refine Nat.le_trans ?_ hroot
  cases u with
  | leaf => exact Nat.zero_le _
  | node c l e r =>
    have hlen : (Tree.along d (.node c l e r)).length = (Tree.node c l e r).entries.length := by
      cases d <;> simp [Tree.along]
    rw [← hlen, Tree.along_node, List.length_append]
    exact Nat.le_add_left _ _

theorem length_ahead_le {m : SortedMap} {c : Cursor} {todo : List Entry} (h : Ahead m c todo) :
    todo.length ≤ c.supply m := by
  obtain ⟨us, hus, hparts, rfl⟩ := h.parts
  have hlen : c.stack.length = us.length := by simpa using congrArg List.length hus
  rw [supply, hlen, List.length_flatMap]
  calc (us.map fun u => (u.onwards c.direction).length).sum
      ≤ (us.map fun u => (u.onwards c.direction).length).length • m.nodes.length := by
        apply List.sum_le_card_nsmul
        intro x hx
        obtain ⟨u, hu, rfl⟩ := List.mem_map.mp hx
        obtain ⟨p, hp⟩ := hparts u hu
        exact length_onwards_le hp c.direction
    _ = us.length * m.nodes.length := by rw [List.length_map, smul_eq_mul]

/-- draining takes everything in range that is ahead -/
theorem drain_ahead {m : SortedMap} (hm : m.Sound) {c : Cursor} {todo : List Entry} (h : Ahead m c todo) :
    (c.drain m).1 = ((todo.filter fun e => !c.bounds.isFar c.direction e.key).map fun e => (e.key, e.value)) ∧
      (c.drain m).2.stack = [] := by
  exact take_ahead hm h (Nat.lt_succ_of_le (Nat.le_trans (List.length_filter_le _ _) (length_ahead_le h)))

end Cursor

namespace SortedMap

/-- a range of a sound map has the bindings in range, in the order of the walk -/
theorem range_eq {m : SortedMap} (hm : m.Sound) (b : Bounds) (d : Direction) :
    m.range b d = Bindings.range m.toList b d := by
  rw [range, (Cursor.drain_ahead hm (Cursor.start_ahead hm b d)).1, ← Cursor.filter_start]
  rfl

theorem mem_range {l : Bindings} {b : Bounds} {d : Direction} {p : Bytes × Bytes} :
    p ∈ Bindings.range l b d ↔ p ∈ l ∧ (∀ s ∈ b.start, ¬ p.1 < s) ∧ ∀ s ∈ b.stop, p.1 < s := by
  rw [← Bounds.contains_iff]
  cases d <;> simp [Bindings.range, List.mem_filter]

theorem pairwise_range {l : Bindings} (h : l.Sorted) (b : Bounds) (d : Direction) :
    (Bindings.range l b d).Pairwise fun p q => d.Before p.1 q.1 := by
  cases d with
  | ascending => exact List.Pairwise.filter _ h
  | descending => exact List.pairwise_reverse.mpr (List.Pairwise.filter _ h)

end SortedMap

/-- **Walks are exact.** On every map that writes lead to, and for any bounds, open, inverted or at stored keys: step `n` of
a cursor answers the `n`-th of the bindings in range, and the end once there are no more. They are exactly the bindings
from the start on and before the stop, in strictly increasing or strictly decreasing order of their keys; downwards they
come in the exact reverse of the order upwards. -/
theorem walk_exact (ws : List SortedMap.Write) (b : Bounds) :
    let m := SortedMap.written ws
    (∀ d, ∃ pairs : List (Bytes × Bytes),
      (∀ n, Cursor.answer m n (Cursor.start m b d) = pairs[n]?) ∧
      (∀ p, p ∈ pairs ↔ p ∈ m.toList ∧ (∀ s ∈ b.start, ¬ p.1 < s) ∧ ∀ s ∈ b.stop, p.1 < s) ∧
      pairs.Pairwise (fun p q => d.Before p.1 q.1) ∧ ((Cursor.start m b d).drain m).1 = pairs) ∧
    ((Cursor.start m b .descending).drain m).1 = ((Cursor.start m b .ascending).drain m).1.reverse := by
  intro m
  have hm : m.Sound := SortedMap.sound_written ws
  refine ⟨fun d => ⟨Bindings.range m.toList b d, Cursor.answer_start hm b d, fun p => SortedMap.mem_range,
    SortedMap.pairwise_range hm.sorted b d, SortedMap.range_eq hm b d⟩, ?_⟩
  exact (SortedMap.range_eq hm b .descending).trans (congrArg List.reverse (SortedMap.range_eq hm b .ascending).symm)

end MeteredStore
