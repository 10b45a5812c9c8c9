/-
Where the answers of a live cursor come from.

A cursor starts in the tree and goes on by links. Links of nodes in the tree lead into the tree. A node that is taken out
while a cursor is about keeps its last entry, which was a binding until then, and its links, which led into the tree at that
moment. So whatever a cursor comes to is in the tree, or has been taken out of it since the cursor was made (`Since`), and
holds what was bound then.

Main statement: `answer_bound`, every pair that a cursor answers has been a binding of the map since the cursor was made,
and is one now if its node is in the tree.
-/
import MeteredStore.Proofs.Live.Basic

namespace MeteredStore

namespace Live

variable {ws : List SortedMap.Write} {b : Bounds} {d : Direction} {es : List Event}

/-- the pair has been a binding of the map since the cursor was made -/
def Bound (ws : List SortedMap.Write) (b : Bounds) (d : Direction) (es : List Event) (pair : Bytes × Bytes) : Prop :=
  ∃ front, front <+: es ∧ pair ∈ (after ws b d front).map.toList

theorem Bound.concat {pair : Bytes × Bytes} (h : Bound ws b d es pair) (e : Event) : Bound ws b d (es ++ [e]) pair := by
  obtain ⟨front, hfront, hmem⟩ := h
  exact ⟨front, hfront.trans (List.prefix_append es [e]), hmem⟩

/-- the node is in the tree, or among these -/
def Known (m : SortedMap) (gone : List Node) (i : NodeId) : Prop := m.Has i ∨ ∃ n ∈ gone, n.entry.id = i

/-- the nodes taken out since the cursor was made: they hold what has been bound since, and they lead to the tree or to each
other; so does the stack -/
structure Since (ws : List SortedMap.Write) (b : Bounds) (d : Direction) (es : List Event) (gone : List Node) : Prop where
  detached : (after ws b d es).map.detached = (SortedMap.written ws).detached ++ gone
  bound : ∀ n ∈ gone, Bound ws b d es (n.entry.key, n.entry.value)
  child : ∀ n ∈ gone, ∀ s, ∀ i ∈ n.child s, Known (after ws b d es).map gone i
  stack : ∀ i ∈ (after ws b d es).cursor.stack, Known (after ws b d es).map gone i

theorem since_start : Since ws b d [] [] := by
  refine ⟨(List.append_nil _).symm, by simp, by simp, ?_⟩
  intro i hi
  rcases Cursor.mem_pushTree hi with hi | ⟨e, he, rfl, -⟩
  · cases hi
  · exact .inl (List.mem_map_of_mem he)

/-- a node that is known stays known: it is in the tree still, or it has just been taken out -/
theorem known_write {m : SortedMap} {w : SortedMap.Write} {gone more : List Node} (h : m.Shift w more) {i : NodeId}
    (hi : Known m gone i) : Known (m.write w) (gone ++ more) i := by
  rcases hi with hi | ⟨n, hn, rfl⟩
  · obtain ⟨e, he, rfl⟩ := List.mem_map.mp hi
    rcases h.kept e he with ⟨n, hn, rfl⟩ | ⟨f, hf, hid, -⟩
    · exact .inr ⟨n, List.mem_append_right _ hn, rfl⟩
    · exact .inl (List.mem_map.mpr ⟨f, hf, hid⟩)
  · exact .inr ⟨n, List.mem_append_left _ hn, rfl⟩

theorem Since.write {gone : List Node} (h : Since ws b d es gone) (w : SortedMap.Write) :
    ∃ gone, Since ws b d (es ++ [.write w]) gone := by
  obtain ⟨more, hshift⟩ := SortedMap.exists_shift (sound_after ws b d es) w
  refine ⟨gone ++ more, ?_⟩
  refine ⟨?_, ?_, ?_, ?_⟩
  · rw [map_after_write, hshift.detached, h.detached, List.append_assoc]
  · intro n hn
    rcases List.mem_append.mp hn with hn | hn
    · exact (h.bound n hn).concat _
    · exact ⟨es, List.prefix_append es _, List.mem_map_of_mem (hshift.entry n hn)⟩
  · rw [map_after_write]
    intro n hn s i hi
    rcases List.mem_append.mp hn with hn | hn
    · exact known_write hshift (h.child n hn s i hi)
    · exact .inl (hshift.child n hn s i hi)
  · rw [map_after_write, after_concat]
    intro i hi
    exact known_write hshift (h.stack i hi)

/-- a known node is found in the tree or among those taken out since; one taken out before the cursor was made is not known -/
theorem mem_of_known {m : SortedMap} (hm : m.Sound) {gone : List Node} (hsub : gone ⊆ m.detached) {i : NodeId} {n : Node}
    (hn : m.node? i = some n) (hi : Known m gone i) : n ∈ m.root.nodes ∨ n ∈ gone := by
  rcases hi with hi | ⟨x, hx, rfl⟩
  · exact .inl (hm.mem_of_has hn hi)
  · have hx' := hm.node?_eq (List.mem_append_right _ (hsub hx))
    obtain rfl : x = n := Option.some.inj (hx'.symm.trans hn)
    exact .inr hx

theorem Since.subset {gone : List Node} (h : Since ws b d es gone) : gone ⊆ (after ws b d es).map.detached := by
  rw [h.detached]
  exact List.subset_append_right _ _

theorem Since.next {gone : List Node} (h : Since ws b d es gone) : Since ws b d (es ++ [.next]) gone := by
  have hm := sound_after ws b d es
  refine ⟨by rw [map_after_next, h.detached], fun n hn => (h.bound n hn).concat _, by rw [map_after_next]; exact h.child, ?_⟩
  rw [map_after_next]
  intro i hi
  -- the links of a known node lead to known nodes
  have hclosed : ∀ n ∈ (after ws b d es).map.nodes, Known (after ws b d es).map gone n.entry.id →
      ∀ s, ∀ j ∈ n.child s, Known (after ws b d es).map gone j := by
    intro n hn hk s j hj
    rcases mem_of_known hm h.subset (hm.node?_eq hn) hk with hroot | hgone
    · exact .inl (Tree.child_of_mem_nodes hroot hj)
    · exact h.child n hgone s j hj
  rcases mem_stack_next hi h.stack (fun _ => .inl) hclosed with hi | ⟨hi, -⟩
  · exact h.stack i hi
  · exact hi

theorem exists_since (ws : List SortedMap.Write) (b : Bounds) (d : Direction) (es : List Event) :
    ∃ gone, Since ws b d es gone := by
  induction es using List.reverseRecOn with
  | nil => exact ⟨[], since_start⟩
  | append_singleton es e ih =>
    obtain ⟨gone, h⟩ := ih
    cases e with
    | write w => exact h.write w
    | next => exact ⟨gone, h.next⟩

/-- **Walks invent nothing.** On every map that writes lead to, for any bounds, in both directions, and whatever is written
to the map between the steps: a pair that a cursor answers is what the node at the top of its stack holds. It has been a
binding of the map at some moment since the cursor was made, and if the node is in the tree, it is one now. -/
theorem answer_bound (ws : List SortedMap.Write) (b : Bounds) (d : Direction) (es : List Event) {pair : Bytes × Bytes}
    (h : (after ws b d es).answer = some pair) :
    (∃ front, front <+: es ∧ pair ∈ (after ws b d front).map.toList) ∧
      ∃ i n, (after ws b d es).top? = some i ∧ (after ws b d es).map.node? i = some n ∧
        pair = (n.entry.key, n.entry.value) ∧ ((after ws b d es).map.Has i → pair ∈ (after ws b d es).map.toList) := by
  have hm := sound_after ws b d es
  obtain ⟨i, n, htop, hi, hn, rfl, -⟩ := answer_eq_some h
  obtain ⟨gone, hsince⟩ := exists_since ws b d es
  refine ⟨?_, i, n, htop, hn, rfl, fun hhas => SortedMap.bound_of_mem (hm.mem_of_has hn hhas)⟩
  rcases mem_of_known hm hsince.subset hn (hsince.stack i hi) with hroot | hgone
  · exact ⟨es, List.prefix_refl es, SortedMap.bound_of_mem hroot⟩
  · exact hsince.bound n hgone

/-- a node that has been taken out answers what was bound then, and not what is bound now -/
theorem answer_bound_detached :
    let ws : List SortedMap.Write := [.put [1] [10], .put [2] [20]]
    let es : List Event := [.write (.delete [1]), .write (.put [1] [11])]
    let l := after ws .all .ascending es
    l.answer = some ([1], [10]) ∧ l.map.toList = [([1], [11]), ([2], [20])] ∧
      (∃ front, front <+: es ∧ ([1], [10]) ∈ (after ws .all .ascending front).map.toList) ∧
      ∃ i, l.top? = some i ∧ ¬ l.map.Has i := by
  intro ws es l
  have h : l.answer = some ([1], [10]) := by decide +kernel
  have hlist : l.map.toList = [([1], [11]), ([2], [20])] := by decide +kernel
  obtain ⟨hfront, i, n, htop, -, -, hhas⟩ := answer_bound ws .all .ascending es h
  refine ⟨h, hlist, hfront, i, htop, ?_⟩
  intro hi
  have hmem : ([1], [10]) ∈ l.map.toList := hhas hi
  rw [hlist] at hmem
  exact absurd hmem (by decide)

end Live

end MeteredStore
