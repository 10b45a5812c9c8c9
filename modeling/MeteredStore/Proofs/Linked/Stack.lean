/-
What the stack of a cursor stands for.

While nothing is written, each cell on the stack stands for itself and for the tree on its onward side (`Linked.onwards`), the
top one first. Pushing the way into a tree adds cells that stand for all of the tree but what is near (`Holds.push_stands`). A
step keeps the nodes on the stack nested, and what they stand for in order (`Orderly.next`), so cells and map answer alike
(`Holds.answer`).

Main statement: `stack_stands`, for the cells that any puts and deletes lead to, any bounds, both directions and any number of
steps:
- from the bottom of the stack up, each cell lies in the left tree of the one below it when the walk goes upwards, and in the
  right tree when it goes downwards;
- the keys go down or up accordingly, and none is on the near side of the range;
- to push the way into the tree below any cell adds cells that stand in the same way for all of this tree that is not near, so it
  leaves out nothing that is in the range.
-/
import MeteredStore.Proofs.Linked.Treelike
import MeteredStore.Proofs.Live.Nested

namespace MeteredStore

namespace Tree

variable {t u : Tree} {i : NodeId}

theorem Part.exists_way (h : u.Part t) : ∃ way, t.under way = u := by
  obtain ⟨p, rfl⟩ := h
  exact ⟨p.way, p.under_way u⟩

/-- the top of a part is a node of the tree -/
theorem Part.mem_ids (h : u.Part t) (hi : u.topId = some i) : i ∈ t.entries.map Entry.id := by
  obtain ⟨way, rfl⟩ := h.exists_way
  exact mem_of_under hi

end Tree

namespace Cursor

variable {m : SortedMap} {c : Cursor} {b : Bounds} {d : Direction} {us : List Tree} {stack : List NodeId} {i : NodeId}

/-! ## Stacks that are in order -/

/-- what a push adds does not depend on what is there -/
theorem pushTree_append (b : Bounds) (d : Direction) (t : Tree) (stack : List NodeId) :
    pushTree b d t stack = pushTree b d t [] ++ stack := by
  induction t generalizing stack with
  | leaf => rfl
  | node c l e r ihl ihr =>
    have ih : ∀ s stack, pushTree b d ((Tree.node c l e r).child s) stack =
        pushTree b d ((Tree.node c l e r).child s) [] ++ stack := by
      intro s stack
      cases s with
      | left => exact ihl stack
      | right => exact ihr stack
    rw [pushTree_node, pushTree_node]
    split
    · exact ih _ stack
    · rw [ih _ (e.id :: stack), ih _ [e.id], List.append_assoc, List.singleton_append]

/-- in the order of the walk, what is not beyond the range comes before what is -/
theorem filter_eq_takeWhile {todo : List Entry} (h : todo.Pairwise fun e f => d.Before e.key f.key) :
    (todo.filter fun e => !b.isFar d e.key) = todo.takeWhile fun e => !b.isFar d e.key := by
  induction todo with
  | nil => rfl
  | cons e todo ih =>
    cases hfar : b.isFar d e.key with
    | true => rw [filter_far h hfar, List.takeWhile_cons_of_neg (by simp [hfar])]
    | false =>
      have htail := ih (List.pairwise_cons.mp h).2
      simp only [List.filter_cons, List.takeWhile_cons, hfar, htail, Bool.not_false, if_true]

/-- the nodes on the stack are nested, and what they stand for comes in order -/
structure Orderly (m : SortedMap) (c : Cursor) : Prop where
  nested : ∃ us, Nested m c.direction c.stack us
  ahead : ∃ todo, Ahead m c todo

theorem orderly_start (hm : m.Sound) (b : Bounds) (d : Direction) : Orderly m (start m b d) :=
  ⟨nested_start m b d, _, start_ahead hm b d⟩

theorem Orderly.next (hm : m.Sound) (h : Orderly m c) : Orderly m (c.next m).2 := by
  obtain ⟨⟨us, hnested⟩, todo, hahead⟩ := h
  constructor
  · rw [(course_next m c).2]
    exact hnested.next hm
  · cases todo with
    | nil =>
      rw [next_of_done (stack_of_ahead_nil hahead)]
      exact ⟨[], hahead⟩
    | cons e todo =>
      have hnext := next_ahead hm hahead
      split at hnext
      · rw [hnext]
        exact ⟨[], ⟨[], rfl, by simp, rfl⟩, .nil, by simp⟩
      · obtain ⟨stack, hstep, hahead⟩ := hnext
        rw [hstep]
        exact ⟨todo, hahead⟩

theorem Nested.exists_part (h : Nested m d stack us) (hi : i ∈ stack) : ∃ u ∈ us, u.topId = some i ∧ u.Part m.root := by
  have htop : some i ∈ us.map Tree.topId := by
    rw [← h.tops]
    exact List.mem_map_of_mem hi
  obtain ⟨u, hu, hui⟩ := List.mem_map.mp htop
  exact ⟨u, hu, hui, h.parts u hu⟩

theorem Nested.has (h : Nested m d stack us) (hi : i ∈ stack) : m.Has i := by
  obtain ⟨u, -, hui, hpart⟩ := h.exists_part hi
  exact hpart.mem_ids hui

end Cursor

namespace Linked

variable {h : Linked} {m : SortedMap} {n : Nat} {rest : Bag} {t u v : Tree} {p : Path} {us : List Tree} {stack : List NodeId}
  {b : Bounds} {d : Direction} {i j : NodeId} {x : Cell} {c : Cursor}

/-! ## Stacks of cells -/

/-- the tree below a cell -/
def subtree (h : Linked) (i : NodeId) : Tree := h.treeAt h.cells.length (some i)

/-- what a walk meets from a cell on in the tree below it: the entry of the cell, and then all those on its onward side -/
def onwards (h : Linked) (d : Direction) (i : NodeId) : List Entry := (h.subtree i).onwards d

/-- the first cell lies on the near side of the second: a way down from the child there leads to it -/
def Beside (h : Linked) (d : Direction) (i j : NodeId) : Prop :=
  ∃ c way, h.cell? j = some c ∧ h.follow way (c.child d.onward.opposite) = some i

/-- the cells on a stack, the top one first, are nested on the near side, and none of them is near -/
structure Stands (h : Linked) (b : Bounds) (d : Direction) (stack : List NodeId) : Prop where
  attached : ∀ i ∈ stack, h.Attached i
  /-- upwards each cell lies in the left tree of the one below it, downwards in the right tree -/
  nested : stack.IsChain (h.Beside d)
  /-- the keys come in the order of the walk: upwards the topmost is the smallest, downwards the greatest -/
  order : stack.Pairwise fun i j => ∀ x y, h.cell? i = some x → h.cell? j = some y → d.Before x.key y.key
  near : ∀ i ∈ stack, ∀ x, h.cell? i = some x → b.isNear d x.key = false

/-- the pairs that the cells on a stack stand for, up to the first key beyond the range -/
def pending (h : Linked) (b : Bounds) (d : Direction) (stack : List NodeId) : List (Bytes × Bytes) :=
  ((stack.flatMap (h.onwards d)).takeWhile fun e => !b.isFar d e.key).map fun e => (e.key, e.value)

/-- the cursor after some steps, with nothing written between them -/
def steps (h : Linked) : Nat → Cursor → Option Cursor
  | 0, c => some c
  | n + 1, c => do h.steps n (← h.next c).2

/-- the answer to the step with number `n`, counted from zero -/
def answer (h : Linked) : Nat → Cursor → Option (Option (Bytes × Bytes))
  | 0, c => (h.next c).map Prod.fst
  | n + 1, c => do h.answer n (← h.next c).2

/-! ## Trees below cells -/

theorem Shows.subtree_eq (hs : h.Shows n rest t p) (ht : t.topId = some i) : h.subtree i = t := by
  have hlength := hs.length_le
  rw [subtree, ← ht]
  exact treeAt_of_has hs.has (by omega)

theorem mem_onwards (hx : h.cell? i = some x) (d : Direction) : ⟨i, x.key, x.value⟩ ∈ h.onwards d i := by
  obtain ⟨hlt, -⟩ := List.getElem?_eq_some_iff.mp hx
  obtain ⟨n, hn⟩ := Nat.exists_eq_add_one.mpr (Nat.zero_lt_of_lt hlt)
  rw [onwards, subtree, hn, treeAt, hx]
  exact List.mem_cons_self

namespace Shows

variable (hs : h.Shows n rest t [])
include hs

/-- parts of the tree are known by the cells at their tops -/
theorem map_subtree (htops : stack.map some = us.map Tree.topId) (hparts : ∀ u ∈ us, u.Part t) : stack.map h.subtree = us := by
  induction us generalizing stack with
  | nil => rw [List.map_eq_nil_iff.mp htops, List.map_nil]
  | cons u us ih =>
    rw [List.map_cons] at htops
    obtain ⟨i, stack, rfl, hi, htops⟩ := List.map_eq_cons_iff.mp htops
    obtain ⟨⟨p, rfl⟩, hparts⟩ := List.forall_mem_cons.mp hparts
    rw [List.map_cons, (shows_root.mp hs).subtree_eq hi.symm, ih htops hparts]

theorem flatMap_onwards (htops : stack.map some = us.map Tree.topId) (hparts : ∀ u ∈ us, u.Part t) (d : Direction) :
    stack.flatMap (h.onwards d) = us.flatMap (Tree.onwards d) := by
  rw [← hs.map_subtree htops hparts, List.flatMap_map]
  rfl

/-- a part below a part, and the way down to it in memory -/
theorem beside (hv : v.Part t) (hu : Cursor.Beside d u v) (hi : u.topId = some i) (hj : v.topId = some j) : h.Beside d i j := by
  obtain ⟨p, rfl⟩ := hv
  obtain ⟨way, hway⟩ := Tree.Part.exists_way hu
  have hplace := shows_root.mp hs
  obtain ⟨c, hc, -, hchild, -⟩ := hplace.read hj
  obtain ⟨color, l, e, r, rfl, rfl⟩ := Tree.exists_node_of_topId hj
  refine ⟨c, way, hc, ?_⟩
  rw [hchild, follow_eq (hplace.has.child _), hway, hi]

/-- nodes that are nested, and stand for what comes in order and is not near -/
theorem stands (hn : Cursor.Nested m d stack us) (ht : m.root = t)
    (horder : (stack.flatMap (h.onwards d)).Pairwise fun e f => d.Before e.key f.key)
    (hnear : ∀ e ∈ stack.flatMap (h.onwards d), b.isNear d e.key = false) : h.Stands b d stack := by
  subst ht
  have hmap := hs.map_subtree hn.tops hn.parts
  constructor
  case attached =>
    intro i hi
    exact hs.attached_iff.mpr (hn.has hi)
  case nested =>
    -- the chain of parts is a chain of the trees below the cells, and each of these is the part at whose top the cell is
    have hchain := hn.chain
    rw [← hmap, List.isChain_map] at hchain
    refine hchain.imp_of_mem_imp ?_
    intro i j hi hj hbeside
    obtain ⟨u, -, hu, p, hp⟩ := hn.exists_part hi
    obtain ⟨v, -, hv, hpart⟩ := hn.exists_part hj
    obtain ⟨q, hq⟩ := id hpart
    rw [(shows_root.mp (hp ▸ hs)).subtree_eq hu, (shows_root.mp (hq ▸ hs)).subtree_eq hv] at hbeside
    exact hs.beside hpart hbeside hu hv
  case order =>
    obtain ⟨-, hpairs⟩ := List.pairwise_flatMap.mp horder
    refine hpairs.imp ?_
    intro i j hij x y hx hy
    exact hij _ (mem_onwards hx d) _ (mem_onwards hy d)
  case near =>
    intro i hi x hx
    exact hnear _ (List.mem_flatMap.mpr ⟨i, hi, mem_onwards hx d⟩)

end Shows

/-! ## Cursors while nothing is written -/

namespace Holds

variable (hm : h.Holds m) (hs : m.Sound) (htrail : m.Trailing m.detached)
include hm hs htrail

theorem next_orderly (hc : Cursor.Orderly m c) : h.next c = some (c.next m) := by
  obtain ⟨us, hnested⟩ := hc.nested
  refine hm.next hs htrail ?_
  intro i hi
  exact .inl (hnested.has hi)

/-- the answers are those of the map -/
theorem answer (hc : Cursor.Orderly m c) (k : Nat) : h.answer k c = some (Cursor.answer m k c) := by
  induction k generalizing c with
  | zero =>
    rw [Linked.answer, hm.next_orderly hs htrail hc]
    rfl
  | succ k ih =>
    rw [Linked.answer, hm.next_orderly hs htrail hc]
    exact ih (hc.next hs)

/-- so are the steps, and the stack stays in order -/
theorem steps (hc : Cursor.Orderly m c) (k : Nat) :
    ∃ c', h.steps k c = some c' ∧ (List.replicate k .next).foldl Live.step ⟨m, c⟩ = ⟨m, c'⟩ ∧ Cursor.Orderly m c' := by
  induction k generalizing c with
  | zero => exact ⟨c, rfl, rfl, hc⟩
  | succ k ih =>
    obtain ⟨c', hsteps, hlive, hc'⟩ := ih (hc.next hs)
    refine ⟨c', ?_, hlive, hc'⟩
    rw [Linked.steps, hm.next_orderly hs htrail hc]
    exact hsteps

/-- a cursor answers what its stack stands for -/
theorem stands (hc : Cursor.Orderly m c) :
    h.Stands c.bounds c.direction c.stack ∧ ∀ k, h.answer k c = some (h.pending c.bounds c.direction c.stack)[k]? := by
  obtain ⟨rest, hshow, -⟩ := hm.shows
  obtain ⟨us, hnested⟩ := hc.nested
  obtain ⟨todo, hahead⟩ := hc.ahead
  -- what is ahead on the map is what the stack stands for in memory
  obtain ⟨vs, htops, hparts, hall⟩ := hahead.parts
  rw [← hshow.flatMap_onwards htops hparts] at hall
  subst hall
  refine ⟨hshow.stands hnested rfl hahead.order hahead.near, ?_⟩
  intro k
  rw [hm.answer hs htrail hc, Cursor.answer_ahead hs hahead, Cursor.filter_eq_takeWhile hahead.order, pending]

/-- a push from the top of a part is the push of this part -/
theorem push_part (b : Bounds) (d : Direction) (stack : List NodeId) (ht : t.Part m.root) (hi : t.topId = some i) :
    h.push b d (some i) stack = some (Cursor.pushTree b d t [] ++ stack) := by
  obtain ⟨p, hp⟩ := id ht
  have hlink : ∀ j ∈ some i, Live.Known m m.detached j := by
    rintro j ⟨⟩
    exact .inl (ht.mem_ids hi)
  rw [hm.push hs htrail hlink, ← hi, Cursor.pushLink_topId hp hs.distinct, Cursor.pushTree_append]

/-- **A push leaves out what is near.** From a cell on, it adds cells of the tree there, and they stand for all entries of this
tree but the near ones, each once and in the order of the walk. -/
theorem push_stands (b : Bounds) (d : Direction) (stack : List NodeId) (hi : h.Attached i) :
    ∃ pushed, h.push b d (some i) stack = some (pushed ++ stack) ∧ h.Stands b d pushed ∧
      (∀ j ∈ pushed, ∃ way, h.follow way (some i) = some j) ∧
      pushed.flatMap (h.onwards d) = ((h.subtree i).along d).filter fun e => !b.isNear d e.key := by
  obtain ⟨rest, hshow, -⟩ := hm.shows
  obtain ⟨t, ht⟩ := hs.exists_subtree? (hshow.attached_iff.mp hi)
  obtain ⟨p, hp, htop⟩ := Tree.exists_fill_of_subtree? ht
  have hpart : t.Part m.root := ⟨p, hp⟩
  have hplace : h.Shows m.size rest t p := shows_root.mp (hp ▸ hshow)
  have hordered : t.Ordered := Tree.ordered_of_fill (hp ▸ hs.redBlack.ordered)
  obtain ⟨vs, htops, hbelow, hall⟩ := Cursor.pushTree_ahead b d hordered []
  rw [List.map_nil, List.append_nil] at htops
  have hparts : ∀ v ∈ vs, v.Part m.root := fun v hv => Tree.Part.trans (hbelow v hv) hpart
  have hcovers : (Cursor.pushTree b d t []).flatMap (h.onwards d) = (t.along d).filter fun e => !b.isNear d e.key := by
    rw [hshow.flatMap_onwards htops hparts, hall]
  refine ⟨Cursor.pushTree b d t [], hm.push_part hs htrail b d stack hpart htop, ?stands, ?reached, ?covers⟩
  case stands =>
    have hnil : Cursor.Nested m d [] [] := ⟨rfl, by simp, .nil⟩
    obtain ⟨us, hnested⟩ := Cursor.nested_pushTree (b := b) hnil hpart (by simp)
    refine hshow.stands hnested rfl ?_ ?_
    · rw [hcovers]
      exact (Tree.pairwise_along hordered d).filter _
    · intro e he
      rw [hcovers] at he
      simpa using (List.mem_filter.mp he).2
  case reached =>
    intro j hj
    have hmem : some j ∈ vs.map Tree.topId := htops ▸ List.mem_map_of_mem hj
    obtain ⟨v, hv, hvj⟩ := List.mem_map.mp hmem
    obtain ⟨way, hway⟩ := Tree.Part.exists_way (hbelow v hv)
    refine ⟨way, ?_⟩
    rw [← htop, follow_eq hplace.has, hway, hvj]
  case covers => rw [hcovers, hplace.subtree_eq htop]

end Holds

/-- **A stack stands for what is still to come.** On the cells that any puts and deletes lead to, while nothing is written, the
cells on the stack of a cursor are nested in one another's trees. The answers still to come are exactly the pairs of the topmost
cell and of the tree on its onward side, then those of the next cell, and so on, up to the first key beyond the range. -/
theorem stack_stands (ws : List SortedMap.Write) :
    ∃ h, written ws = some h ∧ h.Holds (SortedMap.written ws) ∧
      (∀ b d n, ∃ stack, (h.start b d).bind (h.steps n) = some ⟨b, d, stack⟩ ∧
        (Live.after ws b d (List.replicate n .next)).cursor = ⟨b, d, stack⟩ ∧ h.Stands b d stack ∧
        ∀ k, h.answer k ⟨b, d, stack⟩ = some (h.pending b d stack)[k]?) ∧
      ∀ b d stack, h.push b d none stack = some stack ∧ ∀ i, h.Attached i →
        ∃ pushed, h.push b d (some i) stack = some (pushed ++ stack) ∧ h.Stands b d pushed ∧
          (∀ j ∈ pushed, ∃ way, h.follow way (some i) = some j) ∧
          pushed.flatMap (h.onwards d) = ((h.subtree i).along d).filter fun e => !b.isNear d e.key := by
  obtain ⟨h, hwritten, hm⟩ := written_holds ws
  have hs := SortedMap.sound_written ws
  have htrail := SortedMap.trailing_written ws
  refine ⟨h, hwritten, hm, ?_, ?_⟩
  · intro b d n
    obtain ⟨c, hsteps, hlive, hc⟩ := hm.steps hs htrail (Cursor.orderly_start hs b d) n
    have hafter : Live.after ws b d (List.replicate n .next) = ⟨SortedMap.written ws, c⟩ := hlive
    obtain ⟨hb, hd⟩ := Live.course_after ws b d (List.replicate n .next)
    rw [hafter] at hb hd
    obtain ⟨b', d', stack⟩ := c
    obtain rfl : b' = b := hb
    obtain rfl : d' = d := hd
    refine ⟨stack, ?_, congrArg Live.cursor hafter, hm.stands hs htrail hc⟩
    rw [hm.start hs htrail, Option.bind_some]
    exact hsteps
  · intro b d stack
    refine ⟨rfl, ?_⟩
    intro i hi
    exact hm.push_stands hs htrail b d stack hi

-- the root is near, so it is left out; the greatest key is beyond the range, so it is cut off
example : ((written [.put [2] [], .put [1] [], .put [4] [], .put [3] [], .put [5] []]).bind fun h =>
    (h.start ⟨some [3], some [5]⟩ .ascending).map fun c => (c.stack, (h.pending c.bounds c.direction c.stack).map Prod.fst)) =
      some ([3, 2], [[3], [4]]) := by
  decide

end Linked

end MeteredStore
