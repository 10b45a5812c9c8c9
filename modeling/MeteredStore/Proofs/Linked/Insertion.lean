/-
Linked cells follow the tree: inserting.

A turn of the repair takes cells that show a tree in repair to cells that show the tree after the turn of `Insertion.step`
(`insertTurn_spec`), so the whole loop takes them to the tree that `Insertion.finish?` gives (`fixInsert_spec`). `grow` is what a
put of a new key does before its repair (`grow_spec`).

Main statement: `put_spec`, putting a pair into cells that show a red-black tree ends, and the cells show the tree of
`Tree.insert?`.
-/
import MeteredStore.Proofs.Insertion
import MeteredStore.Proofs.Linked.Cells

namespace MeteredStore.Linked

variable {h : Linked} {n : Nat} {rest : Bag} {i : NodeId} {t : Tree} {p : Path}

/-! ## Turns -/

theorem insertTurn_of_black (hs : h.Shows n rest t p) (ht : t.topId = some i) (hc : Path.topColor p = .black) :
    h.insertTurn i = some none := by
  cases t with
  | leaf => simp [Tree.topId] at ht
  | node c l e r =>
    obtain rfl : e.id = i := by simpa [Tree.topId] using ht
    have r₀ := hs.top
    cases p with
    | nil => simp only [insertTurn, r₀, Option.bind_eq_bind, Option.bind_some]; rfl
    | cons f p =>
      have hf : f.color = .black := hc
      have r₁ := hs.above
      simp only [insertTurn, r₀, r₁, Option.bind_eq_bind, Option.bind_some, Path.topId_cons, Frame.cell_color, hf, if_true]
      rfl

/-- an outer rotation: the top frame of a hole takes the place of the one above it -/
theorem Shows.rotate_outer {f g : Frame} (hs : h.Shows n rest t (f :: g :: p)) (hside : f.side = g.side) :
    ∃ h', h.rotate g.entry.id g.side.opposite = some h' ∧
      h'.Shows n rest t (⟨f.side, f.color, f.entry, g.fill f.sibling⟩ :: p) := by
  rw [shows_swap] at hs
  obtain ⟨h', hr, hs'⟩ := hs.rotate_above (congrArg Side.opposite hside)
  refine ⟨h', by rw [← hside]; exact hr, ?_⟩
  rw [shows_swap]
  exact shows_fill.mpr hs'

/-- what every turn reads first: the node, its parent and its grandparent -/
theorem insertTurn_eq {parent grand : Frame} {top : Path} (hs : h.Shows n rest t (parent :: grand :: top))
    (ht : t.topId = some i) (hp : parent.color = .red) :
    h.insertTurn i =
      if grand.sibling.color = .red then do
        let h ← h.paint parent.entry.id .black
        let h ← h.paint (← grand.sibling.topId) .black
        let h ← h.paint grand.entry.id .red
        return some (grand.entry.id, h)
      else if parent.side ≠ grand.side then do
        let h ← h.rotate parent.entry.id grand.side
        let c ← h.cell? parent.entry.id
        let risen ← c.parent
        let h ← h.paint risen .black
        let h ← h.paint grand.entry.id .red
        let h ← h.rotate grand.entry.id grand.side.opposite
        return some (parent.entry.id, h)
      else do
        let h ← h.paint parent.entry.id .black
        let h ← h.paint grand.entry.id .red
        let h ← h.rotate grand.entry.id grand.side.opposite
        return some (i, h) := by
  have hg : h.Shows n rest (parent.fill t) (grand :: top) := shows_fill.mpr hs
  have hparent : (parent.fill t).topId = some parent.entry.id := parent.topId_fill t
  cases t with
  | leaf => simp [Tree.topId] at ht
  | node c l e r =>
    obtain rfl : e.id = i := by simpa [Tree.topId] using ht
    have r₀ := hs.top
    have r₁ := hs.above
    have r₂ := hg.above
    have hside := hg.sideOf hparent
    have hred := hg.isRed_sibling
    have hchild : (parent.cell (Tree.node c l e r).topId (some grand.entry.id)).child grand.side.opposite = some e.id ↔
        parent.side ≠ grand.side := by
      have hne := hs.sibling_ne ht
      have hopp := parent.cell_child_opposite (Tree.node c l e r).topId (some grand.entry.id)
      have hhole := parent.cell_child (Tree.node c l e r).topId (some grand.entry.id)
      cases hp : parent.side <;> cases hg : grand.side <;> simp_all [Side.opposite, Tree.topId]
    simp only [insertTurn, r₀, r₁, r₂, hp, hside, hred, hchild, Option.bind_eq_bind, Option.bind_some, Path.topId_cons,
      Frame.cell_color, Frame.cell_parent, Frame.cell_child_opposite, reduceCtorEq, if_false, decide_eq_true_eq]

/-- a turn on the cells is a turn on the tree, with the same rotations -/
theorem insertTurn_spec {s u : Insertion} {turn : Insertion.Turn} (hstep : s.step = .ok (some (turn, u)))
    (hs : h.Shows n rest s.focus s.path) (ht : s.focus.topId = some i) :
    ∃ j h', h.insertTurn i = some (some (j, h')) ∧ u.focus.topId = some j ∧ h'.Shows n rest u.focus u.path ∧
      Reshaped turn.rotations h h' := by
  obtain ⟨parent, grand, top, hpath, hp⟩ := Insertion.exists_kin hstep
  obtain ⟨focus, path⟩ := s
  obtain rfl : path = parent :: grand :: top := hpath
  simp only at hs ht
  rw [insertTurn_eq hs ht hp]
  cases hu : grand.sibling.color with
  | red =>
    rw [Insertion.step_recolor hp hu, Except.ok.injEq, Option.some.injEq, Prod.mk.injEq] at hstep
    obtain ⟨rfl, rfl⟩ := hstep
    obtain ⟨l, e, r, huncle⟩ := Tree.exists_node_of_red hu
    have hid : grand.sibling.topId = some e.id := by rw [huncle]; rfl
    obtain ⟨h₁, e₁, hs₁⟩ := hs.paint_above .black
    obtain ⟨h₂, e₂, hs₂⟩ := (shows_fill.mpr hs₁).paint_sibling hid .black
    obtain ⟨h₃, e₃, hs₃⟩ := hs₂.paint_above .red
    have e₃ : h₂.paint grand.entry.id .red = some h₃ := e₃
    refine ⟨grand.entry.id, h₃, ?_, Frame.topId_fill _ _, shows_fill.mpr hs₃, .paint e₁ (.paint e₂ (.paint e₃ (.refl h₃)))⟩
    simp [hid, e₁, e₂, e₃]
  | black =>
    by_cases hside : parent.side = grand.side
    · rw [Insertion.step_rotate hp hu hside, Except.ok.injEq, Option.some.injEq, Prod.mk.injEq] at hstep
      obtain ⟨rfl, rfl⟩ := hstep
      obtain ⟨h₁, e₁, hs₁⟩ := hs.paint_above .black
      obtain ⟨h₂, e₂, hs₂⟩ := (shows_fill.mpr hs₁).paint_above .red
      obtain ⟨h₃, e₃, hs₃⟩ := (shows_fill.mp hs₂).rotate_outer hside
      have e₃ : h₂.rotate grand.entry.id grand.side.opposite = some h₃ := e₃
      refine ⟨i, h₃, ?_, ht, hs₃, .paint e₁ (.paint e₂ (.rotate e₃ (.refl h₃)))⟩
      simp [hside, e₁, e₂, e₃]
    · obtain ⟨c, l, e, r, rfl, rfl⟩ := Tree.exists_node_of_topId ht
      rw [Insertion.step_rotateTwice hp hu hside, Except.ok.injEq, Option.some.injEq, Prod.mk.injEq] at hstep
      obtain ⟨rfl, rfl⟩ := hstep
      have hopp : parent.side = grand.side.opposite := by
        cases hps : parent.side <;> cases hgs : grand.side <;> simp_all [Side.opposite]
      rw [← Tree.fill_down (Tree.down_node grand.side c l r e), shows_fill] at hs
      obtain ⟨h₁, e₁, hs₁⟩ := hs.rotate_above (by rw [hopp, Side.opposite_opposite])
      obtain ⟨h₂, e₂, hs₂⟩ := (shows_fill.mpr hs₁).paint_above .black
      obtain ⟨h₃, e₃, hs₃⟩ := (shows_fill.mpr hs₂).paint_above .red
      obtain ⟨h₄, e₄, hs₄⟩ := (shows_fill.mp hs₃).rotate_outer rfl
      have r₁ := hs₁.above
      have e₁ : h.rotate parent.entry.id grand.side = some h₁ := e₁
      have e₂ : h₁.paint e.id .black = some h₂ := e₂
      have e₃ : h₂.paint grand.entry.id .red = some h₃ := e₃
      have e₄ : h₃.rotate grand.entry.id grand.side.opposite = some h₄ := e₄
      refine ⟨parent.entry.id, h₄, ?_, Frame.topId_fill _ _, hs₄,
        .rotate e₁ (.paint e₂ (.paint e₃ (.rotate e₄ (.refl h₄))))⟩
      simp [hside, e₁, r₁, e₂, e₃, e₄]

/-! ## The whole repair -/

theorem turns_insert {s : Insertion} {k m : Nat} (hsound : s.Sound k) (hs : h.Shows n rest s.focus s.path)
    (ht : s.focus.topId = some i) (hm : s.path.length < m) :
    ∃ h' root, s.finish? = .ok root ∧
      turns (fun s => s.2.insertTurn s.1) (fun s => do s.2.paint (← s.2.root) .black) m (i, h) = some h' ∧
      h'.Shows n rest root [] := by
  induction m generalizing s h i with
  | zero => exact absurd hm (Nat.not_lt_zero _)
  | succ m ih =>
    rcases Insertion.step_sound hsound with ⟨hstep, hc⟩ | ⟨turn, u, hstep, hu, -, -⟩
    · have hleaf : s.tree ≠ .leaf := Path.fill_ne_leaf (fun hl => by simpa [hl, Tree.color] using hsound.red) _
      have hpaint := Tree.paint?_eq_some hleaf .black
      have hroot : h.Shows n rest s.tree [] := shows_root.mpr hs
      obtain ⟨j, hj⟩ := Tree.exists_topId hleaf
      obtain ⟨h', e', hs'⟩ := hroot.paint hj .black
      refine ⟨h', s.tree.paint .black, ?_, ?_, hs'⟩
      · simp only [Insertion.finish?, Insertion.settle_of_none hstep, hpaint, bind, Except.bind]
      · have hr : h.root = some j := hroot.root.trans hj
        rw [turns_of_none (insertTurn_of_black hs ht hc)]
        simp only [hr, e', Option.bind_eq_bind, Option.bind_some]
    · obtain ⟨j, h₁, e₁, htu, hs₁, -⟩ := insertTurn_spec hstep hs ht
      have hlt := Insertion.length_path_step hstep
      obtain ⟨h', root, hfin, hfix, hs'⟩ := ih hu hs₁ htu (by omega)
      refine ⟨h', root, (Insertion.finish?_of_step hstep).trans hfin, ?_, hs'⟩
      rw [turns_of_some e₁]
      exact hfix

/-- the loop on the cells ends with the tree that the repair of the tree ends with -/
theorem fixInsert_spec {s : Insertion} {k : Nat} (hsound : s.Sound k) (hs : h.Shows n rest s.focus s.path)
    (ht : s.focus.topId = some i) :
    ∃ h' root, s.finish? = .ok root ∧ h.fixInsert i = some h' ∧ h'.Shows n rest root [] := by
  have hm := hs.length_le
  exact turns_insert hsound hs ht (by rw [limit]; omega)

/-! ## A new cell -/

/-- the key is on the side of the hole -/
theorem side_of_bracket {key : Bytes} {f : Frame} (hb : Path.Bracket key (f :: p)) :
    (if key < f.entry.key then Side.left else .right) = f.side := by
  obtain ⟨s, c, e, b⟩ := f
  cases s with
  | left => exact if_pos (hb.2 e (by simp [Path.after, Frame.after]))
  | right => exact if_neg (Bytes.lt_asymm (hb.1 e (by simp [Path.before, Frame.before])))

theorem Is.link {key : Bytes} {b : Bag} (hi : h.Is (p.rootId none) n (p.cells none + b)) (hb : Path.Bracket key p)
    (i : NodeId) :
    ∃ h', h.link key p.topId i = some h' ∧ h'.Is (p.rootId (some i)) n (p.cells (some i) + b) := by
  cases p with
  | nil => exact ⟨{ h with root := some i }, rfl, rfl, hi.size, hi.contents⟩
  | cons f p =>
    rw [Path.cells, add_assoc] at hi
    obtain ⟨h', hm, hi'⟩ := hi.modify fun c => c.setChild f.side (some i)
    have hcell : h.cell? f.entry.id = some (f.cell none (Path.topId p)) := hi.cell (by simp)
    refine ⟨h', ?_, by rwa [Path.cells, add_assoc, ← Frame.cell_setChild]⟩
    simp only [Path.topId_cons, Linked.link, hcell, Option.bind_eq_bind, Option.bind_some, Frame.cell_key,
      side_of_bracket hb, setChild, hm]

/-- the search for a key and, if it is absent, a new cell where the search ends: the cell and the memory that a repair starts
from -/
def grow (h : Linked) (key value : Bytes) : Option (Option (NodeId × Linked)) := do
  match ← h.descend key with
  | (some _, _) => return none
  | (none, parent) =>
    let i := h.cells.length
    let h := h.append ⟨key, value, .red, none, none, parent⟩
    let h ← h.link key parent i
    return some (i, { h with size := h.size + 1 })

/-- a put of an absent key makes a cell and repairs from there -/
theorem put_of_grow {key value : Bytes} {k : Linked} (hg : h.grow key value = some (some (i, k))) :
    h.put key value = k.fixInsert i := by
  simp only [grow, Option.bind_eq_bind, Option.bind_eq_some_iff] at hg
  obtain ⟨⟨found, parent⟩, hdescend, hg⟩ := hg
  cases found with
  | some i => cases hg
  | none =>
    simp only [Option.bind_eq_some_iff] at hg
    obtain ⟨a, ha, hg⟩ := hg
    cases hg
    simp only [put, hdescend, ha, Option.bind_eq_bind, Option.bind_some]

/-- a key that is not there gets a new red cell where its search ends -/
theorem grow_spec (hs : h.Shows n rest t []) (ht : t.Ordered) {key : Bytes} (hd : t.descend key [] = (.leaf, p))
    (value : Bytes) : ∃ k, h.grow key value = some (some (h.cells.length, k)) ∧
      k.Shows (n + 1) rest (Tree.single ⟨h.cells.length, key, value⟩) p := by
  have hdesc := hs.descend key
  have hplace := hs.shows_descend key
  have hb := Path.bracket_descend ht (Path.bracket_nil key)
  simp only [hd] at hdesc hplace hb
  -- the new cell names its parent before the parent names it
  obtain ⟨k, e, hk⟩ := Is.link (b := (Tree.single ⟨h.cells.length, key, value⟩).cells (Path.topId p) + rest)
    ((Is.append hplace ⟨key, value, .red, none, none, Path.topId p⟩).perm (by
      simp only [Tree.cells, Tree.single, Tree.topId]; abel)) hb h.cells.length
  refine ⟨{ k with size := k.size + 1 }, ?_, hk.root, congrArg (· + 1) hk.size, hk.contents.trans (by rw [add_left_comm]; rfl)⟩
  simp only [grow, hdesc, Tree.topId, e, Option.bind_eq_bind, Option.bind_some]
  rfl

/-- **Putting on cells.** On cells that show a red-black tree, putting a pair ends, and the cells show the tree with the
pair put into it; a new node has the number of the next cell. -/
theorem put_spec (hs : h.Shows n rest t []) (ht : t.RedBlack) (key value : Bytes) :
    ∃ h' new root, t.insert? h.cells.length key value = .ok (new, root) ∧ h.put key value = some h' ∧
      h'.Shows (if new then n + 1 else n) rest root [] := by
  have hdesc := hs.descend key
  have hs' := hs.shows_descend key
  have hfill := Tree.fill_descend key t []
  cases hd : t.descend key [] with
  | mk found path =>
    simp only [hd] at hdesc hs' hfill
    cases found with
    | leaf =>
      obtain ⟨m, hm⟩ := ht.balanced
      obtain ⟨k, hgrow, hk⟩ := grow_spec hs ht.ordered hd value
      have hsound : Insertion.Sound ⟨Tree.single ⟨h.cells.length, key, value⟩, path⟩ m :=
        Insertion.sound_single (hfill.symm ▸ ht.colored) (hfill.symm ▸ hm) _
      obtain ⟨h', root, hfin, hfix, hshow⟩ := fixInsert_spec hsound hk rfl
      exact ⟨h', true, root, by simp only [Tree.insert?, hd, hfin], (put_of_grow hgrow).trans hfix, hshow⟩
    | node c l e r =>
      obtain ⟨h', e', hs'⟩ := hs'.modify (g := fun c => { c with value := value })
        (d := { e with value := value }) rfl fun _ _ _ => rfl
      refine ⟨h', false, path.fill (.node c l { e with value := value } r), by simp only [Tree.insert?, hd], ?_, ?_⟩
      · simp only [put, hdesc, Tree.topId, e', Option.bind_eq_bind, Option.bind_some]
      · exact shows_root.mpr hs'

end MeteredStore.Linked
