/-
A cursor on a map that goes on changing.

`Live` is a map with a cursor on it; an event writes to the map or steps the cursor, in any order (`after`). A step answers
what its top node holds at that moment, or ends the walk (`next_cases`).

Main statements: `mem_pushLink`, what a step pushes are nodes of the map that are not on the near side at that moment, and
they are reached from the link by links; `sound_after`, the map stays sound.
-/
import MeteredStore.Proofs.Nodes

namespace MeteredStore

/-! ## Maps and cursors over time -/

inductive Event where
  /-- the map is written to -/
  | write (w : SortedMap.Write)
  /-- the cursor is stepped -/
  | next
deriving DecidableEq, Repr

structure Live where
  map : SortedMap
  cursor : Cursor
deriving DecidableEq, Repr

namespace Live

def step (l : Live) : Event → Live
  | .write w => { l with map := l.map.write w }
  | .next => { l with cursor := (l.cursor.next l.map).2 }

/-- what a step of the cursor answers now -/
def answer (l : Live) : Option (Bytes × Bytes) := (l.cursor.next l.map).1

/-- the node whose turn is next -/
def top? (l : Live) : Option NodeId := l.cursor.stack.head?

/-- the cursor is made on the map that some writes lead to, and then events happen in order -/
def after (ws : List SortedMap.Write) (b : Bounds) (d : Direction) (es : List Event) : Live :=
  es.foldl step ⟨SortedMap.written ws, Cursor.start (SortedMap.written ws) b d⟩

end Live

namespace Cursor

/-! ## What a step pushes -/

theorem mem_pushTree {b : Bounds} {d : Direction} {t : Tree} {stack : List NodeId} {j : NodeId}
    (h : j ∈ pushTree b d t stack) : j ∈ stack ∨ ∃ e ∈ t.entries, e.id = j ∧ b.isNear d e.key = false := by
  induction t generalizing stack with
  | leaf => exact .inl h
  | node c l e r ihl ihr =>
    have ih : ∀ s stack, j ∈ pushTree b d ((Tree.node c l e r).child s) stack →
        j ∈ stack ∨ ∃ f ∈ (Tree.node c l e r).entries, f.id = j ∧ b.isNear d f.key = false := by
      intro s stack hj
      have hpart := (Tree.sublist_child (.node c l e r) s).subset
      have hall : j ∈ stack ∨ ∃ f ∈ ((Tree.node c l e r).child s).entries, f.id = j ∧ b.isNear d f.key = false := by
        cases s with
        | left => exact ihl hj
        | right => exact ihr hj
      rcases hall with hj | ⟨f, hf, hid⟩
      · exact .inl hj
      · exact .inr ⟨f, hpart hf, hid⟩
    rw [pushTree_node] at h
    cases hn : b.isNear d e.key with
    | true =>
      rw [hn, if_pos rfl] at h
      exact ih _ _ h
    | false =>
      rw [hn, if_neg (by simp)] at h
      rcases ih _ _ h with hj | hj
      · rcases List.mem_cons.mp hj with rfl | hj
        · exact .inr ⟨e, by simp [Tree.entries], rfl, hn⟩
        · exact .inl hj
      · exact .inr hj

/-- a push adds nodes of the map that are not on the near side; they share whatever all nodes of the tree have and what
detached nodes hand down along their links -/
theorem mem_pushLink {m : SortedMap} {b : Bounds} {d : Direction} {detached : List Node} {link : Option NodeId}
    {stack : List NodeId} {j : NodeId} (h : j ∈ pushLink m.root b d detached link stack) (hd : detached ⊆ m.detached)
    {P : NodeId → Prop} (hlink : ∀ i ∈ link, P i) (hroot : ∀ i, m.Has i → P i)
    (hchild : ∀ n ∈ m.detached, P n.entry.id → ∀ s, ∀ i ∈ n.child s, P i) :
    j ∈ stack ∨ P j ∧ ∃ n ∈ m.nodes, n.entry.id = j ∧ b.isNear d n.entry.key = false := by
  generalize hr : m.root = root at h
  fun_induction pushLink root b d detached link stack with
  | case1 => exact .inl h
  | case2 detached stack i t ht =>
    rcases mem_pushTree h with hj | ⟨e, he, rfl, hn⟩
    · exact .inl hj
    · have hmem := Tree.mem_of_subtree? ht he
      rw [← hr] at hmem
      refine .inr ⟨hroot _ (List.mem_map_of_mem hmem), ?_⟩
      rw [← Tree.map_entry_nodes] at hmem
      obtain ⟨n, hnode, rfl⟩ := List.mem_map.mp hmem
      exact ⟨n, List.mem_append_left _ hnode, rfl, hn⟩
  | case3 => exact .inl h
  | case4 stack n later hnear hout ih =>
    -- the node is detached and near: the way goes on below it
    obtain ⟨hn, hlater⟩ := List.cons_subset.mp hd
    exact ih hlater (hchild n hn (hlink _ rfl) _) h
  | case5 stack n later hnear hout ih =>
    -- the node is detached and pushed
    obtain ⟨hn, hlater⟩ := List.cons_subset.mp hd
    have hP := hlink _ rfl
    rcases ih hlater (hchild n hn hP _) h with hj | hj
    · rcases List.mem_cons.mp hj with rfl | hj
      · exact .inr ⟨hP, n, List.mem_append_right _ hn, rfl, by simpa using hnear⟩
      · exact .inl hj
    · exact .inr hj
  | case6 i stack hout n later hne ih => exact ih (List.cons_subset.mp hd).2 hlink h

/-! ## A step -/

/-- a step ends the walk, or it answers what the top node holds and pushes the way to the nodes that come next -/
theorem next_cases (m : SortedMap) (c : Cursor) :
    c.next m = (none, c.stop) ∨
      ∃ i stack n, c.stack = i :: stack ∧ m.node? i = some n ∧ c.bounds.isFar c.direction n.entry.key = false ∧
        c.next m = (some (n.entry.key, n.entry.value), { c with
          stack := pushLink m.root c.bounds c.direction m.detached (n.child c.direction.onward) stack }) := by
  obtain ⟨b, d, stack⟩ := c
  cases stack with
  | nil => exact .inl rfl
  | cons i stack =>
    cases hn : m.node? i with
    | none => exact .inl (by simp only [next, hn])
    | some n =>
      cases hf : b.isFar d n.entry.key with
      | true => exact .inl (by simp only [next, hn, hf, if_true])
      | false =>
        refine .inr ⟨i, stack, n, rfl, hn, hf, ?_⟩
        simp only [next, hn, hf, Bool.false_eq_true, if_false]

/-- a step keeps the bounds and the direction -/
theorem course_next (m : SortedMap) (c : Cursor) : (c.next m).2.bounds = c.bounds ∧ (c.next m).2.direction = c.direction := by
  rcases next_cases m c with h | ⟨i, stack, n, -, -, -, h⟩
  · rw [h]
    exact ⟨rfl, rfl⟩
  · rw [h]
    exact ⟨rfl, rfl⟩

end Cursor

namespace Live

variable {ws : List SortedMap.Write} {b : Bounds} {d : Direction} {es : List Event}

theorem after_concat (e : Event) : after ws b d (es ++ [e]) = (after ws b d es).step e := by
  rw [after, List.foldl_append]
  rfl

theorem map_after_write (w : SortedMap.Write) :
    (after ws b d (es ++ [.write w])).map = (after ws b d es).map.write w := by
  rw [after_concat]
  rfl

theorem map_after_next : (after ws b d (es ++ [.next])).map = (after ws b d es).map := by
  rw [after_concat]
  rfl

theorem sound_after (ws : List SortedMap.Write) (b : Bounds) (d : Direction) (es : List Event) :
    (after ws b d es).map.Sound := by
  induction es using List.reverseRecOn with
  | nil => exact SortedMap.sound_written ws
  | append_singleton es e ih =>
    cases e with
    | write w =>
      rw [map_after_write]
      exact SortedMap.write_sound ih w
    | next =>
      rw [map_after_next]
      exact ih

/-- a cursor keeps its bounds and its direction -/
theorem course_after (ws : List SortedMap.Write) (b : Bounds) (d : Direction) (es : List Event) :
    (after ws b d es).cursor.bounds = b ∧ (after ws b d es).cursor.direction = d := by
  induction es using List.reverseRecOn with
  | nil => exact ⟨rfl, rfl⟩
  | append_singleton es e ih =>
    rw [after_concat]
    cases e with
    | write w => exact ih
    | next =>
      obtain ⟨hb, hd⟩ := Cursor.course_next (after ws b d es).map (after ws b d es).cursor
      exact ⟨hb.trans ih.1, hd.trans ih.2⟩

/-- an answer is what the top node holds at that moment, and its key is not on the far side -/
theorem answer_eq_some {pair : Bytes × Bytes} (h : (after ws b d es).answer = some pair) :
    ∃ i n, (after ws b d es).top? = some i ∧ i ∈ (after ws b d es).cursor.stack ∧
      (after ws b d es).map.node? i = some n ∧ pair = (n.entry.key, n.entry.value) ∧ b.isFar d n.entry.key = false := by
  obtain ⟨hb, hd⟩ := course_after ws b d es
  rw [answer] at h
  rcases Cursor.next_cases (after ws b d es).map (after ws b d es).cursor with hn | ⟨i, stack, n, hs, hi, hf, hn⟩
  · rw [hn] at h
    cases h
  · rw [hn] at h
    rw [hb, hd] at hf
    exact ⟨i, n, by rw [top?, hs]; rfl, by rw [hs]; exact List.mem_cons_self, hi, (Option.some.inj h).symm, hf⟩

/-- what is on the stack after a step was there before it, or has just been pushed: then it is a node of the map that is
not on the near side, and it has what all nodes of the tree and of the stack have and hand down along their links -/
theorem mem_stack_next {j : NodeId} (h : j ∈ (after ws b d (es ++ [.next])).cursor.stack) {P : NodeId → Prop}
    (hstack : ∀ i ∈ (after ws b d es).cursor.stack, P i) (hroot : ∀ i, (after ws b d es).map.Has i → P i)
    (hchild : ∀ n ∈ (after ws b d es).map.nodes, P n.entry.id → ∀ s, ∀ i ∈ n.child s, P i) :
    j ∈ (after ws b d es).cursor.stack ∨
      P j ∧ ∃ n, (after ws b d es).map.node? j = some n ∧ b.isNear d n.entry.key = false := by
  obtain ⟨hb, hd⟩ := course_after ws b d es
  rw [after_concat, step] at h
  rcases Cursor.next_cases (after ws b d es).map (after ws b d es).cursor with hn | ⟨i, stack, n, hs, hi, -, hn⟩
  · rw [hn] at h
    cases h
  · rw [hn, hb, hd] at h
    have hlink : ∀ k ∈ n.child d.onward, P k := by
      refine hchild n (List.mem_of_find?_eq_some hi) ?_ d.onward
      rw [SortedMap.id_of_node? hi]
      exact hstack i (by rw [hs]; exact List.mem_cons_self)
    have hdet : ∀ x ∈ (after ws b d es).map.detached, P x.entry.id → ∀ s, ∀ i ∈ x.child s, P i := by
      intro x hx
      exact hchild x (List.mem_append_right _ hx)
    rcases Cursor.mem_pushLink h (List.Subset.refl _) hlink hroot hdet with hj | ⟨hP, x, hx, rfl, hnear⟩
    · exact .inl (by rw [hs]; exact List.mem_cons_of_mem i hj)
    · exact .inr ⟨hP, x, (sound_after ws b d es).node?_eq hx, hnear⟩

end Live

end MeteredStore
