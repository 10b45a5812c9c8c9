/-
What a write finds on its way.

Each read of a cell and each link that is followed can fail, and a loop can go on for ever; then a write has no outcome. Since
every write has one (`put_holds`, `delete_holds`), all that it looks for is there. The relations here tell what that is:
`InsertBody` and `DeleteBody` go through one turn of a repair, memory by memory, and name each cell that is found; `Runs`
goes through a loop, turn by turn, to the end.

Main statement: `writes_run`, on the cells that any writes lead to, every further write runs through. Its searches and repairs
end, and at each turn
- a red parent has a parent;
- a cell that is short of a black has a sibling, also after a red one has come up;
- the nephew that is painted is there;
- every rotation has a child that comes up;
- the root is there that is painted at last.
-/
import MeteredStore.Proofs.Linked.Written

namespace MeteredStore.Linked

/-! ## Loops -/

/-- a loop runs to its end: no turn fails, each is as `body` says, and `last` holds when no turn is due any more -/
inductive Runs {α : Type} (turn : α → Option (Option α)) (body : α → α → Prop) (last : α → Prop) : α → Prop where
  | done {a : α} (hturn : turn a = some none) (hlast : last a) : Runs turn body last a
  | more {a b : α} (hturn : turn a = some (some b)) (hbody : body a b) (rest : Runs turn body last b) :
      Runs turn body last a

theorem runs_of_turns {α β : Type} {turn : α → Option (Option α)} {finish : α → Option β} {body : α → α → Prop}
    {last : α → Prop} (hbody : ∀ a b, turn a = some (some b) → body a b) (hlast : ∀ a b, finish a = some b → last a)
    {n : Nat} {a : α} {b : β} (h : turns turn finish n a = some b) : Runs turn body last a := by
  induction n generalizing a with
  | zero => cases h
  | succ n ih =>
    rw [turns, Option.bind_eq_bind, Option.bind_eq_some_iff] at h
    obtain ⟨r, hr, h⟩ := h
    cases r with
    | none => exact .done hr (hlast a b h)
    | some c => exact .more hr (hbody a c hr) (ih h)

/-! ## Rotations -/

/-- there is a child that comes up when cell `i` is rotated towards side `s` -/
def Pivot (h : Linked) (i : NodeId) (s : Side) : Prop :=
  ∃ c j d, h.cell? i = some c ∧ c.child s.opposite = some j ∧ h.cell? j = some d

variable {h h' : Linked} {i j : NodeId} {s : Side}

theorem pivot_of_rotate (hr : h.rotate i s = some h') : h.Pivot i s := by
  simp only [rotate, Option.bind_eq_bind, Option.bind_eq_some_iff] at hr
  obtain ⟨c, hc, j, hj, d, hd, -⟩ := hr
  exact ⟨c, j, d, hc, hj, hd⟩

/-! ## Turns after inserting -/

/-- a cell with a red parent, and the parent of that -/
structure Kin (h : Linked) (i parent grand : NodeId) (p g : Cell) : Prop where
  node : ∃ c, h.cell? i = some c ∧ c.parent = some parent
  parent : h.cell? parent = some p
  red : p.color = .red
  above : p.parent = some grand
  grand : h.cell? grand = some g

/-- a turn of the repair after inserting, through the memories that it writes; to paint a cell is to find it -/
inductive InsertBody : NodeId × Linked → NodeId × Linked → Prop where
  | recolor {h a b c : Linked} {i parent grand uncle : NodeId} {p g : Cell} (kin : h.Kin i parent grand p g)
      (huncle : g.child (g.sideOf parent).opposite = some uncle) (h₁ : h.paint parent .black = some a)
      (h₂ : a.paint uncle .black = some b) (h₃ : b.paint grand .red = some c) : InsertBody (i, h) (grand, c)
  | outer {h a b c : Linked} {i parent grand : NodeId} {p g : Cell} (kin : h.Kin i parent grand p g)
      (h₁ : h.paint parent .black = some a) (h₂ : a.paint grand .red = some b)
      (hpivot : b.Pivot grand (g.sideOf parent).opposite) (h₃ : b.rotate grand (g.sideOf parent).opposite = some c) :
      InsertBody (i, h) (i, c)
  | inner {h a b c d : Linked} {i parent grand risen : NodeId} {p g q : Cell} (kin : h.Kin i parent grand p g)
      (hpivot : h.Pivot parent (g.sideOf parent)) (h₁ : h.rotate parent (g.sideOf parent) = some a)
      (hq : a.cell? parent = some q) (hrisen : q.parent = some risen) (h₂ : a.paint risen .black = some b)
      (h₃ : b.paint grand .red = some c) (hpivot' : c.Pivot grand (g.sideOf parent).opposite)
      (h₄ : c.rotate grand (g.sideOf parent).opposite = some d) : InsertBody (i, h) (parent, d)

theorem insertBody_of_turn (ht : h.insertTurn i = some (some (j, h'))) : InsertBody (i, h) (j, h') := by
  unfold insertTurn at ht
  simp only [Option.bind_eq_bind, Option.bind_eq_some_iff] at ht
  obtain ⟨c, hc, ht⟩ := ht
  split at ht
  · cases ht
  · next parent hparent =>
    simp only [Option.bind_eq_some_iff] at ht
    obtain ⟨p, hp, ht⟩ := ht
    split at ht
    · cases ht
    · next hred =>
      simp only [Option.bind_eq_some_iff] at ht
      obtain ⟨grand, hgrand, g, hg, ht⟩ := ht
      have hcolor : p.color = .red := by
        cases hcolor : p.color with
        | red => rfl
        | black => exact absurd hcolor hred
      have kin : h.Kin i parent grand p g := ⟨⟨c, hc, hparent⟩, hp, hcolor, hgrand, hg⟩
      split at ht
      · simp only [Option.bind_eq_some_iff] at ht
        obtain ⟨a, ha, uncle, huncle, b, hb, d, hd, ht⟩ := ht
        cases ht
        exact .recolor kin huncle ha hb hd
      · split at ht
        · simp only [Option.bind_eq_some_iff] at ht
          obtain ⟨a, ha, q, hq, risen, hrisen, b, hb, d, hd, e, he, ht⟩ := ht
          cases ht
          exact .inner kin (pivot_of_rotate ha) ha hq hrisen hb hd (pivot_of_rotate he) he
        · simp only [Option.bind_eq_some_iff] at ht
          obtain ⟨a, ha, b, hb, d, hd, ht⟩ := ht
          cases ht
          exact .outer kin ha hb (pivot_of_rotate hd) hd

/-! ## Turns before unlinking -/

/-- a red sibling comes up over the parent -/
inductive LiftBody (h : Linked) (parent : NodeId) (side : Side) : Linked → Prop where
  | red {a b c : Linked} {p : Cell} {sibling : NodeId} (hp : h.cell? parent = some p)
      (hsibling : p.child side.opposite = some sibling) (h₁ : h.paint sibling .black = some a)
      (h₂ : a.paint parent .red = some b) (hpivot : b.Pivot parent side) (h₃ : b.rotate parent side = some c) :
      LiftBody h parent side c
  | black {p : Cell} (hp : h.cell? parent = some p) (hblack : h.isRed (p.child side.opposite) = false) :
      LiftBody h parent side h

/-- the near child of a sibling comes up in its place, unless the far one is red -/
inductive StraightenBody (h : Linked) (sibling : NodeId) (d : Cell) (side : Side) : Linked → Prop where
  | far (hred : h.isRed (d.child side.opposite) = true) : StraightenBody h sibling d side h
  | near {a b c : Linked} {nephew : NodeId} (hnephew : d.child side = some nephew)
      (h₁ : h.paint nephew .black = some a) (h₂ : a.paint sibling .red = some b) (hpivot : b.Pivot sibling side.opposite)
      (h₃ : b.rotate sibling side.opposite = some c) : StraightenBody h sibling d side c

/-- the rest of a turn: there is a sibling, and either it turns red, or it comes up over the parent and has a far child -/
inductive ResolveBody (h : Linked) (parent : NodeId) (side : Side) : NodeId × Linked → Prop where
  | climb {a : Linked} {p d : Cell} {sibling : NodeId} (hp : h.cell? parent = some p)
      (hsibling : p.child side.opposite = some sibling) (hd : h.cell? sibling = some d)
      (hblack : ∀ s, h.isRed (d.child s) = false) (h₁ : h.paint sibling .red = some a) : ResolveBody h parent side (parent, a)
  | rotate {a b c e f : Linked} {p d q t : Cell} {sibling top nephew root : NodeId} (hp : h.cell? parent = some p)
      (hsibling : p.child side.opposite = some sibling) (hd : h.cell? sibling = some d)
      (hstraighten : StraightenBody h sibling d side a) (hq : a.cell? parent = some q)
      (htop : q.child side.opposite = some top) (h₁ : a.paint top q.color = some b) (h₂ : b.paint parent .black = some c)
      (ht : c.cell? top = some t) (hnephew : t.child side.opposite = some nephew) (h₃ : c.paint nephew .black = some e)
      (hpivot : e.Pivot parent side) (h₄ : e.rotate parent side = some f) (hroot : f.root = some root) :
      ResolveBody h parent side (root, f)

/-- a turn of the repair before unlinking, through the memories that it writes: the cell has a parent and a sibling, and there
is a sibling again when a red one has come up -/
inductive DeleteBody : NodeId × Linked → NodeId × Linked → Prop where
  | turn {h a : Linked} {r : NodeId × Linked} {i parent sibling : NodeId} {c p d : Cell} (hc : h.cell? i = some c)
      (hparent : c.parent = some parent) (hp : h.cell? parent = some p)
      (hsibling : p.child (p.sideOf i).opposite = some sibling) (hd : h.cell? sibling = some d)
      (hlift : LiftBody h parent (p.sideOf i) a) (hresolve : ResolveBody a parent (p.sideOf i) r) : DeleteBody (i, h) r

theorem liftBody_of_lift {parent : NodeId} {side : Side} (hl : h.liftSibling parent side = some h') :
    LiftBody h parent side h' := by
  simp only [liftSibling, Option.bind_eq_bind, Option.bind_eq_some_iff] at hl
  obtain ⟨p, hp, hl⟩ := hl
  split at hl
  · simp only [Option.bind_eq_some_iff] at hl
    obtain ⟨sibling, hsibling, a, ha, b, hb, hl⟩ := hl
    exact .red hp hsibling ha hb (pivot_of_rotate hl) hl
  · next hblack =>
    cases hl
    exact .black hp (by simpa using hblack)

theorem straightenBody_of_straighten {parent sibling : NodeId} {p d : Cell} {side : Side} (hp : h.cell? parent = some p)
    (hsibling : p.child side.opposite = some sibling) (hd : h.cell? sibling = some d)
    (hs : h.straightenSibling parent side = some h') : StraightenBody h sibling d side h' := by
  simp only [straightenSibling, hp, hsibling, hd, Option.bind_eq_bind, Option.bind_some] at hs
  split at hs
  · next hred =>
    cases hs
    exact .far hred
  · simp only [Option.bind_eq_some_iff] at hs
    obtain ⟨nephew, hnephew, a, ha, b, hb, hs⟩ := hs
    exact .near hnephew ha hb (pivot_of_rotate hs) hs

theorem resolveBody_of_resolve {parent : NodeId} {side : Side} {r : NodeId × Linked}
    (hr : h.resolve parent side = some r) : ResolveBody h parent side r := by
  simp only [resolve, Option.bind_eq_bind, Option.bind_eq_some_iff] at hr
  obtain ⟨p, hp, sibling, hsibling, d, hd, hr⟩ := hr
  split at hr
  · next hblack =>
    simp only [Bool.and_eq_true, Bool.not_eq_true'] at hblack
    simp only [Option.bind_eq_some_iff] at hr
    obtain ⟨a, ha, hr⟩ := hr
    cases hr
    refine .climb hp hsibling hd ?_ ha
    rintro (_ | _)
    · exact hblack.1
    · exact hblack.2
  · simp only [Option.bind_eq_some_iff] at hr
    obtain ⟨a, ha, q, hq, top, htop, b, hb, c, hc, t, ht, nephew, hnephew, e, he, f, hf, root, hroot, hr⟩ := hr
    cases hr
    exact .rotate hp hsibling hd (straightenBody_of_straighten hp hsibling hd ha) hq htop hb hc ht hnephew he
      (pivot_of_rotate hf) hf hroot

/-- a sibling is there before a red one comes up, because there is one afterwards -/
theorem exists_sibling {parent : NodeId} {side : Side} {a : Linked} {r : NodeId × Linked} (hl : LiftBody h parent side a)
    (hr : ResolveBody a parent side r) :
    ∃ p sibling d, h.cell? parent = some p ∧ p.child side.opposite = some sibling ∧ h.cell? sibling = some d := by
  cases hl with
  | black hp hblack =>
    cases hr with
    | climb hp hsibling hd => exact ⟨_, _, _, hp, hsibling, hd⟩
    | rotate hp hsibling hd => exact ⟨_, _, _, hp, hsibling, hd⟩
  | red hp hsibling h₁ =>
    rw [paint, modify, Option.bind_eq_bind, Option.bind_eq_some_iff] at h₁
    obtain ⟨d, hd, -⟩ := h₁
    exact ⟨_, _, d, hp, hsibling, hd⟩

theorem deleteBody_of_turn (ht : h.deleteTurn i = some (some (j, h'))) : DeleteBody (i, h) (j, h') := by
  simp only [deleteTurn, Option.bind_eq_bind, Option.bind_eq_some_iff] at ht
  obtain ⟨c, hc, ht⟩ := ht
  split at ht
  · cases ht
  · simp only [Option.bind_eq_some_iff] at ht
    obtain ⟨parent, hparent, p, hp, a, ha, r, hr, ht⟩ := ht
    cases ht
    have hlift := liftBody_of_lift ha
    have hresolve := resolveBody_of_resolve hr
    obtain ⟨p', sibling, d, hp', hsibling, hd⟩ := exists_sibling hlift hresolve
    obtain rfl := Option.some.inj (hp.symm.trans hp')
    exact .turn hc hparent hp hsibling hd hlift hresolve

/-! ## Whole writes -/

variable {key value : Bytes} {k : Linked}

theorem exists_grow (hp : h.put key value = some h') : ∃ g, h.grow key value = some g := by
  simp only [put, Option.bind_eq_bind, Option.bind_eq_some_iff] at hp
  obtain ⟨⟨found, parent⟩, hdescend, hp⟩ := hp
  cases found with
  | some i => exact ⟨none, by simp only [grow, hdescend, Option.bind_eq_bind, Option.bind_some]; rfl⟩
  | none =>
    simp only [Option.bind_eq_some_iff] at hp
    obtain ⟨a, ha, -⟩ := hp
    exact ⟨_, by simp only [grow, hdescend, ha, Option.bind_eq_bind, Option.bind_some]; rfl⟩

/-- a put runs through -/
structure PutRuns (h : Linked) (key value : Bytes) : Prop where
  ends : ∃ h', h.put key value = some h'
  search : Runs (h.searchTurn key) (fun _ _ => True) (fun _ => True) (h.root, none)
  grows : ∃ g, h.grow key value = some g
  /-- the repair from a new cell on runs through, and there is a root to paint at last -/
  repair : ∀ i k, h.grow key value = some (some (i, k)) → h.put key value = k.fixInsert i ∧
    Runs (fun s => s.2.insertTurn s.1) InsertBody (fun s => ∃ r c, s.2.root = some r ∧ s.2.cell? r = some c) (i, k)

theorem runs_search {r : Option NodeId × Option NodeId} (hd : h.descend key = some r) :
    Runs (h.searchTurn key) (fun _ _ => True) (fun _ => True) (h.root, none) :=
  runs_of_turns (fun _ _ _ => trivial) (fun _ _ _ => trivial) hd

theorem cell_of_paint {c : Color} (hp : h.paint i c = some h') : ∃ x, h.cell? i = some x := by
  rw [paint, modify, Option.bind_eq_bind, Option.bind_eq_some_iff] at hp
  obtain ⟨x, hx, -⟩ := hp
  exact ⟨x, hx⟩

theorem runs_fixInsert (hf : k.fixInsert i = some h') : Runs (fun s => s.2.insertTurn s.1) InsertBody
    (fun s => ∃ r c, s.2.root = some r ∧ s.2.cell? r = some c) (i, k) := by
  refine runs_of_turns ?_ ?_ hf
  · rintro ⟨i, h⟩ ⟨j, h'⟩ ht
    exact insertBody_of_turn ht
  · rintro ⟨i, h⟩ h' hlast
    simp only [Option.bind_eq_bind, Option.bind_eq_some_iff] at hlast
    obtain ⟨r, hr, hp⟩ := hlast
    obtain ⟨c, hc⟩ := cell_of_paint hp
    exact ⟨r, c, hr, hc⟩

theorem putRuns_of_put (hp : h.put key value = some h') : h.PutRuns key value := by
  refine ⟨⟨h', hp⟩, ?_, exists_grow hp, ?_⟩
  · rw [put, Option.bind_eq_bind, Option.bind_eq_some_iff] at hp
    obtain ⟨r, hr, -⟩ := hp
    exact runs_search hr
  · intro i k hg
    have hput := put_of_grow hg
    exact ⟨hput, runs_fixInsert (hput.symm.trans hp)⟩

/-- a delete runs through -/
structure DeleteRuns (h : Linked) (key : Bytes) : Prop where
  ends : ∃ r, h.delete key = some r
  search : Runs (h.searchTurn key) (fun _ _ => True) (fun _ => True) (h.root, none)
  /-- the way from a right child to the next cell in order ends -/
  successor : ∀ i parent c l r, h.descend key = some (some i, parent) → h.cell? i = some c → c.left = some l →
    c.right = some r → Runs (fun i => (h.cell? i).map Cell.left) (fun _ _ => True) (fun _ => True) r
  /-- there is a cell to unlink, and if a repair from there is due, it runs through -/
  repair : ∀ i parent, h.descend key = some (some i, parent) → ∃ j k c, h.doomOf i = some (j, k) ∧ k.cell? j = some c ∧
    h.delete key = (k.unlink j).map (fun h => (true, { h with size := h.size - 1 })) ∧
    (c.color = .black → k.isRed (c.left <|> c.right) = false →
      Runs (fun s => s.2.deleteTurn s.1) DeleteBody (fun s => ∃ c, s.2.cell? s.1 = some c) (j, k))

theorem runs_fixDelete (hf : k.fixDelete i = some h') :
    Runs (fun s => s.2.deleteTurn s.1) DeleteBody (fun s => ∃ c, s.2.cell? s.1 = some c) (i, k) := by
  refine runs_of_turns ?_ ?_ hf
  · rintro ⟨i, h⟩ ⟨j, h'⟩ ht
    exact deleteBody_of_turn ht
  · rintro ⟨i, h⟩ h' hlast
    exact cell_of_paint hlast

theorem runs_unlink (hu : k.unlink i = some h') : ∃ c, k.cell? i = some c ∧
    (c.color = .black → k.isRed (c.left <|> c.right) = false →
      Runs (fun s => s.2.deleteTurn s.1) DeleteBody (fun s => ∃ c, s.2.cell? s.1 = some c) (i, k)) := by
  simp only [unlink, Option.bind_eq_bind, Option.bind_eq_some_iff] at hu
  obtain ⟨c, hc, hu⟩ := hu
  refine ⟨c, hc, ?_⟩
  intro hblack hchild
  rw [if_pos hblack] at hu
  cases hj : (c.left <|> c.right) with
  | none =>
    simp only [hj, Option.bind_eq_some_iff] at hu
    obtain ⟨a, ha, -⟩ := hu
    exact runs_fixDelete ha
  | some j =>
    rw [hj] at hchild
    simp only [hj, hchild, Bool.false_eq_true, if_false, Option.bind_eq_some_iff] at hu
    obtain ⟨a, ha, -⟩ := hu
    exact runs_fixDelete ha

theorem runs_leftmost {l r : NodeId} {c : Cell} (hc : h.cell? i = some c) (hl : c.left = some l) (hr : c.right = some r)
    (hd : h.deleteCell i = some h') : Runs (fun i => (h.cell? i).map Cell.left) (fun _ _ => True) (fun _ => True) r := by
  simp only [deleteCell, hc, hl, hr, Option.bind_eq_bind, Option.bind_some, Option.bind_eq_some_iff] at hd
  obtain ⟨next, hnext, -⟩ := hd
  exact runs_of_turns (fun _ _ _ => trivial) (fun _ _ _ => trivial) hnext

theorem deleteRuns_of_delete {r : Bool × Linked} (hd : h.delete key = some r) : h.DeleteRuns key := by
  have hcell : ∀ i parent, h.descend key = some (some i, parent) → h.delete key =
      (h.deleteCell i).map fun h => (true, { h with size := h.size - 1 }) := by
    intro i parent hdescend
    simp only [delete, hdescend, Option.bind_eq_bind, Option.bind_some]
    cases h.deleteCell i <;> rfl
  refine ⟨⟨r, hd⟩, ?_, ?_, ?_⟩
  · rw [delete, Option.bind_eq_bind, Option.bind_eq_some_iff] at hd
    obtain ⟨place, hplace, -⟩ := hd
    exact runs_search hplace
  · intro i parent c l r' hdescend hc hl hr
    rw [hcell i parent hdescend, Option.map_eq_some_iff] at hd
    obtain ⟨a, ha, -⟩ := hd
    exact runs_leftmost hc hl hr ha
  · intro i parent hdescend
    have hdelete := hcell i parent hdescend
    rw [hdelete, Option.map_eq_some_iff] at hd
    obtain ⟨a, ha, -⟩ := hd
    rw [deleteCell_eq] at ha hdelete
    obtain ⟨⟨j, k⟩, hdoom, hunlink⟩ := Option.bind_eq_some_iff.mp ha
    obtain ⟨c, hc, hruns⟩ := runs_unlink hunlink
    exact ⟨j, k, c, hdoom, hc, by rw [hdelete, hdoom]; rfl, hruns⟩

/-- **Writes run through.** On the cells that any puts and deletes lead to, every further put and delete comes to its end,
whatever its key: no cell is missing that it looks for, and no loop goes on for ever. On the tree itself, too, nothing is
missing. -/
theorem writes_run (ws : List SortedMap.Write) :
    ∃ h, written ws = some h ∧ (∀ key value, h.PutRuns key value) ∧ (∀ key, h.DeleteRuns key) ∧
      ∀ key value, (∃ m, (SortedMap.written ws).insert? key value = .ok m) ∧ ∃ r, (SortedMap.written ws).erase? key = .ok r := by
  obtain ⟨h, hws, hholds⟩ := written_holds ws
  have hs := SortedMap.sound_written ws
  refine ⟨h, hws, ?_, ?_, ?_⟩
  · intro key value
    obtain ⟨h', hput, -⟩ := put_holds hholds hs key value
    exact putRuns_of_put hput
  · intro key
    obtain ⟨h', hdelete, -⟩ := delete_holds hholds hs key
    exact deleteRuns_of_delete hdelete
  · intro key value
    exact ⟨⟨_, (SortedMap.insert_sound hs key value).1⟩, _, (SortedMap.erase_sound hs key).1⟩

end MeteredStore.Linked
