/-
How the nodes on a cursor's stack lie to each other.

While the map stands still, a node on the stack lies on the near side of the node below it: upwards in its left part, downwards
in its right part (`Nested`). A push keeps this (`nested_pushTree`), and so does a step (`Nested.next`).

Main statement: `Nested.length_le`, the stack is no longer than the tree is high.
-/
import MeteredStore.Proofs.Live.Links

namespace MeteredStore

namespace Tree

variable {t u v : Tree} {s : Side}

/-- the first tree is a part of the second -/
def Part (u t : Tree) : Prop := ∃ p : Path, p.fill u = t

theorem Part.refl (t : Tree) : t.Part t := ⟨[], rfl⟩

theorem Part.trans (h : u.Part v) (k : v.Part t) : u.Part t := by
  obtain ⟨p, rfl⟩ := h
  obtain ⟨q, rfl⟩ := k
  exact ⟨p ++ q, Path.fill_append p q u⟩

theorem part_child (t : Tree) (s : Side) : (t.child s).Part t := by
  cases t with
  | leaf => exact .refl _
  | node c l e r =>
    obtain ⟨f, hf⟩ := exists_fill_child c l r e s
    exact ⟨[f], hf⟩

theorem height_child_lt {c : Color} {l r : Tree} {e : Entry} : ((node c l e r).child s).height < (node c l e r).height := by
  cases s <;> simp only [child, height] <;> omega

theorem Part.height_le (h : u.Part t) : u.height ≤ t.height := by
  obtain ⟨p, rfl⟩ := h
  induction p generalizing u with
  | nil => exact Nat.le_refl _
  | cons f p ih =>
    have hf : u.height < (f.fill u).height := by
      obtain ⟨s, c, e, b⟩ := f
      cases s <;> simp only [Frame.fill, height] <;> omega
    exact Nat.le_trans (Nat.le_of_lt hf) ih

end Tree

namespace Cursor

variable {m : SortedMap} {c : Cursor} {b : Bounds} {d : Direction} {us : List Tree} {stack : List NodeId}

/-- the first tree lies on the near side of the top of the second -/
def Beside (d : Direction) (u v : Tree) : Prop := u.Part (v.child d.onward.opposite)

/-- the nodes on a stack are tops of parts of the map, each on the near side of the one below it -/
structure Nested (m : SortedMap) (d : Direction) (stack : List NodeId) (us : List Tree) : Prop where
  tops : stack.map some = us.map Tree.topId
  parts : ∀ u ∈ us, u.Part m.root
  chain : us.IsChain (Beside d)

/-- pushing the way into a part beside the top of the stack leaves the stack nested -/
theorem nested_pushTree {t : Tree} (h : Nested m d stack us) (ht : t.Part m.root) (hbeside : ∀ v ∈ us.head?, Beside d t v) :
    ∃ us, Nested m d (pushTree b d t stack) us := by
  induction t generalizing stack us with
  | leaf => exact ⟨us, h⟩
  | node col l e r ihl ihr =>
    have hpart : ∀ s, ((Tree.node col l e r).child s).Part m.root := fun s => (Tree.part_child _ s).trans ht
    have ih : ∀ s stack us, Nested m d stack us → (∀ v ∈ us.head?, Beside d ((Tree.node col l e r).child s) v) →
        ∃ us, Nested m d (pushTree b d ((Tree.node col l e r).child s) stack) us := by
      intro s stack us h hs
      cases s with
      | left => exact ihl h (hpart .left) hs
      | right => exact ihr h (hpart .right) hs
    rw [pushTree_node]
    split
    · exact ih _ stack us h fun v hv => (Tree.part_child _ _).trans (hbeside v hv)
    · refine ih _ (e.id :: stack) (.node col l e r :: us) ⟨?_, ?_, List.isChain_cons.mpr ⟨hbeside, h.chain⟩⟩ ?_
      · rw [List.map_cons, List.map_cons, h.tops, Tree.topId]
      · exact List.forall_mem_cons.mpr ⟨ht, h.parts⟩
      · rintro v ⟨⟩
        exact .refl _

theorem nested_start (m : SortedMap) (b : Bounds) (d : Direction) : ∃ us, Nested m d (start m b d).stack us := by
  have hnil : Nested m d [] [] := ⟨rfl, by simp, .nil⟩
  exact nested_pushTree hnil (.refl _) (by simp)

theorem Nested.next (hm : m.Sound) (h : Nested m c.direction c.stack us) :
    ∃ us, Nested m c.direction (c.next m).2.stack us := by
  rcases next_cases m c with hnext | ⟨i, stack, n, hstack, hn, -, hnext⟩
  · rw [hnext]
    exact ⟨[], rfl, by simp, .nil⟩
  · rw [hnext]
    obtain ⟨htops, hparts, hchain⟩ := h
    rw [hstack] at htops
    cases us with
    | nil => simp at htops
    | cons u us =>
      cases u with
      | leaf => simp [Tree.topId] at htops
      | node col l e r =>
        simp only [List.map_cons, List.cons.injEq, Tree.topId, Option.some.injEq] at htops
        obtain ⟨rfl, htops⟩ := htops
        obtain ⟨hpart, hparts⟩ := List.forall_mem_cons.mp hparts
        obtain ⟨hbeside, hchain⟩ := List.isChain_cons.mp hchain
        obtain ⟨p, hp⟩ := hpart
        obtain rfl := Option.some.inj (hn.symm.trans (hm.node?_fill hp))
        have hchild : Node.child ⟨col, e, l.topId, r.topId⟩ c.direction.onward =
            ((Tree.node col l e r).child c.direction.onward).topId := by
          cases c.direction <;> rfl
        obtain ⟨q, hq⟩ := (Tree.part_child (.node col l e r) c.direction.onward).trans ⟨p, hp⟩
        rw [hchild, pushLink_topId hq hm.distinct]
        exact nested_pushTree ⟨htops, hparts, hchain⟩ ⟨q, hq⟩ fun v hv => (Tree.part_child _ _).trans (hbeside v hv)

/-- a node on the stack is the higher in the tree the deeper it lies, and there is room above it for the nodes below it -/
theorem height_add_length_le {u : Tree} (hparts : ∀ v ∈ u :: us, v.Part m.root) (hchain : (u :: us).IsChain (Beside d))
    (hnodes : ∀ v ∈ us, v ≠ .leaf) : u.height + us.length ≤ m.root.height := by
  induction us generalizing u with
  | nil => exact (hparts u List.mem_cons_self).height_le
  | cons v us ih =>
    obtain ⟨hbeside, hchain⟩ := List.isChain_cons.mp hchain
    have hroom := ih (fun w hw => hparts w (List.mem_cons_of_mem _ hw)) hchain fun w hw => hnodes w (List.mem_cons_of_mem _ hw)
    have hlow := (hbeside v rfl).height_le
    cases v with
    | leaf => exact absurd rfl (hnodes _ List.mem_cons_self)
    | node col l e r =>
      have hlt := Tree.height_child_lt (s := d.onward.opposite) (c := col) (l := l) (r := r) (e := e)
      rw [List.length_cons]
      omega

/-- **A stack is short**: no longer than the tree is high. -/
theorem Nested.length_le (h : Nested m d stack us) : stack.length ≤ m.root.height := by
  obtain ⟨htops, hparts, hchain⟩ := h
  have hnodes : ∀ v ∈ us, v ≠ .leaf := by
    rintro v hv rfl
    have hmem : (none : Option NodeId) ∈ us.map Tree.topId := List.mem_map.mpr ⟨.leaf, hv, rfl⟩
    rw [← htops] at hmem
    simp at hmem
  have hlen : stack.length = us.length := by simpa using congrArg List.length htops
  rw [hlen]
  cases us with
  | nil => exact Nat.zero_le _
  | cons u us =>
    have hroom := height_add_length_le hparts hchain fun v hv => hnodes v (List.mem_cons_of_mem _ hv)
    cases u with
    | leaf => exact absurd rfl (hnodes _ List.mem_cons_self)
    | node col l e r =>
      rw [Tree.height] at hroom
      rw [List.length_cons]
      omega

end Cursor

namespace Live

/-- the steps of a cursor on a map that stands still -/
theorem after_replicate (ws : List SortedMap.Write) (b : Bounds) (d : Direction) (n : Nat) :
    (after ws b d (List.replicate n .next)).map = SortedMap.written ws := by
  induction n with
  | zero => rfl
  | succ n ih => rw [List.replicate_succ', map_after_next, ih]

theorem nested_replicate (ws : List SortedMap.Write) (b : Bounds) (d : Direction) (n : Nat) :
    ∃ us, Cursor.Nested (SortedMap.written ws) d (after ws b d (List.replicate n .next)).cursor.stack us := by
  induction n with
  | zero => exact Cursor.nested_start _ b d
  | succ n ih =>
    obtain ⟨us, h⟩ := ih
    have hmap := after_replicate ws b d n
    have hd := (course_after ws b d (List.replicate n .next)).2
    rw [List.replicate_succ', after_concat, step, hmap]
    generalize (after ws b d (List.replicate n .next)).cursor = c at h hd ⊢
    subst hd
    exact h.next (SortedMap.sound_written ws)

end Live

end MeteredStore
