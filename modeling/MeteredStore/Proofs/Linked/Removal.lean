/-
Linked cells follow the tree: deleting.

A turn of the repair takes cells that show a tree in repair to cells that show the tree after the turn of `Removal.step`
(`deleteTurn_spec`), so the whole loop takes them to the tree that `Removal.finish?` gives (`fixDelete_spec`). `doomOf` is the
choice of the cell to unlink (`doomOf_spec`). That cell stays in memory as it was when it was unlinked.

Main statement: `delete_spec`, deleting a key from cells that show a red-black tree ends, and the cells show the tree of
`Tree.erase?`.
-/
import MeteredStore.Proofs.Linked.Cells
import MeteredStore.Proofs.Removal

namespace MeteredStore

namespace Removal

/-- what hangs below the path of the current node, the doomed node in it -/
def current (s : Removal) : Tree := Path.fill s.below.reverse s.doomed

theorem current_cons (d : Tree) (f : Frame) (below : List Frame) (above : Path) :
    current ⟨d, f :: below, above⟩ = f.fill (current ⟨d, below, above⟩) := by
  simp [current, Path.fill_append]

theorem current_append (d : Tree) (p : Path) (below : List Frame) (above : Path) :
    current ⟨d, p.reverse ++ below, above⟩ = p.fill (current ⟨d, below, above⟩) := by
  simp [current, Path.fill_append]

theorem color_current (s : Removal) : s.current.color = s.color := by
  obtain ⟨d, below, above⟩ := s
  cases below with
  | nil => rfl
  | cons f below => rw [current_cons, Frame.color_fill]; rfl

theorem current_blacken (s : Removal) : s.blacken.current = s.current.paint .black := by
  obtain ⟨d, below, above⟩ := s
  cases below with
  | nil => rfl
  | cons f below =>
    obtain ⟨side, c, e, b⟩ := f
    simp only [blacken, current_cons]
    cases side <;> rfl

theorem above_blacken (s : Removal) : s.blacken.above = s.above := by
  obtain ⟨d, below, above⟩ := s
  cases below <;> rfl

/-- no turn is due at a red node and at the root only -/
theorem done_of_step {s : Removal} (h : s.step = .ok none) : s.current.color = .red ∨ s.above = [] := by
  rw [color_current]
  cases hc : s.color with
  | red => exact .inl rfl
  | black =>
    cases ha : s.above with
    | nil => exact .inr rfl
    | cons f p =>
      simp only [step, hc, ha] at h
      split at h
      · split at h
        · simp at h
        · next lower upper _ =>
          cases hr : s.resolve true lower (upper :: p) <;> simp [hr, Except.map] at h
      · cases hr : s.resolve false f p <;> simp [hr, Except.map] at h

end Removal

namespace Frame

theorem lower_of_sink? {f lower upper : Frame} (h : f.sink? = some (lower, upper)) :
    lower.side = f.side ∧ lower.entry = f.entry := by
  simp only [sink?, Option.bind_eq_bind, Option.pure_def, Option.bind_eq_some_iff, Option.some.injEq, Prod.mk.injEq] at h
  obtain ⟨d, -, rfl, -⟩ := h
  exact ⟨rfl, rfl⟩

end Frame

namespace Tree

@[simp] theorem topId_paint (c : Color) (t : Tree) : (t.paint c).topId = t.topId := by cases t <;> rfl

theorem topId_paintChild? {s : Side} {c : Color} {t u : Tree} (h : t.paintChild? s c = some u) : u.topId = t.topId := by
  cases t with
  | leaf => simp [paintChild?, down] at h
  | node d l e r =>
    simp only [paintChild?, down_node, Option.bind_eq_bind, Option.bind_some, Option.pure_def, Option.bind_eq_some_iff,
      Option.some.injEq] at h
    obtain ⟨v, -, rfl⟩ := h
    exact Frame.topId_fill _ v

theorem leftmost_append (t : Tree) (p q : Path) :
    t.leftmost (p ++ q) = ((t.leftmost p).1, (t.leftmost p).2 ++ q) := by
  fun_induction Tree.leftmost t p with
  | case1 => rfl
  | case2 => rfl
  | case3 c cl ll el rl e r p ih => exact ih

end Tree

namespace Linked

variable {h : Linked} {n : Nat} {rest : Bag} {i : NodeId} {t : Tree} {p : Path} {f : Frame}

theorem shows_current (s : Removal) : h.Shows n rest s.current s.above ↔ h.Shows n rest s.doomed s.place :=
  shows_append _ _

theorem Shows.isRed_child (hs : h.Shows n rest t p) (s : Side) :
    h.isRed (t.child s).topId = decide ((t.child s).color = .red) := by
  cases t with
  | leaf => rfl
  | node c l e r =>
    rw [← Tree.fill_down (Tree.down_node s c l r e), shows_fill] at hs
    exact hs.isRed

theorem Shows.paint_child {u : Tree} {s : Side} {c : Color} (hs : h.Shows n rest t p) (hu : t.paintChild? s c = some u) :
    ∃ j h', (t.child s).topId = some j ∧ h.paint j c = some h' ∧ h'.Shows n rest u p := by
  cases t with
  | leaf => simp [Tree.paintChild?, Tree.down] at hu
  | node d l e r =>
    rw [← Tree.fill_down (Tree.down_node s d l r e), shows_fill] at hs
    cases hc : (Tree.node d l e r).child s with
    | leaf => simp [Tree.paintChild?, Tree.down_node, hc, Tree.paint?] at hu
    | node d' l' e' r' =>
      rw [hc] at hs
      obtain ⟨h', e₁, hs'⟩ := hs.paint rfl c
      refine ⟨e'.id, h', rfl, e₁, ?_⟩
      have he : Frame.fill ⟨s, d, e, (Tree.node d l e r).child s.opposite⟩ (.node c l' e' r') = u := by
        simpa [Tree.paintChild?, Tree.down_node, hc, Tree.paint?] using hu
      exact he ▸ shows_fill.mpr hs'

/-- rotating the node above a hole towards the hole -/
theorem Shows.sink {lower upper : Frame} (hs : h.Shows n rest t (f :: p)) (hf : f.sink? = some (lower, upper)) :
    ∃ h', h.rotate f.entry.id f.side = some h' ∧ h'.Shows n rest t (lower :: upper :: p) := by
  have hr : (f.fill t).rotate? f.side = some (upper.fill (lower.fill t)) := by rw [Frame.rotate?_fill, hf]; rfl
  obtain ⟨h', e', hs'⟩ := (shows_fill.mpr hs).rotate (f.topId_fill t) hr
  exact ⟨h', e', shows_fill.mp (shows_fill.mp hs')⟩

/-! ## A turn -/

theorem mem_cells_of_rootId {hole : Option NodeId} (hr : Path.rootId (f :: p) hole = some i) :
    ∃ c, (c, i) ∈ Path.cells (f :: p) hole := by
  induction p generalizing f hole with
  | nil =>
    obtain rfl : f.entry.id = i := by simpa [Path.rootId] using hr
    exact ⟨_, Multiset.mem_add.mpr (.inl (Multiset.mem_singleton_self _))⟩
  | cons g p ih =>
    obtain ⟨c, hc⟩ := ih hr
    exact ⟨c, Multiset.mem_add.mpr (.inr (Multiset.mem_add.mpr (.inr hc)))⟩

/-- a node below a path is not the root -/
theorem root_ne (hs : h.Shows n rest t (f :: p)) (ht : t.topId = some i) : h.root ≠ some i := by
  intro hroot
  obtain ⟨c, hc⟩ := mem_cells_of_topId (some f.entry.id) ht
  obtain ⟨d, hd⟩ := mem_cells_of_rootId (hs.root.symm.trans hroot)
  exact Is.ne hs hc (Multiset.mem_add.mpr (.inl hd)) rfl

theorem deleteTurn_of_done (hs : h.Shows n rest t p) (ht : t.topId = some i) (hc : t.color = .red ∨ p = []) :
    h.deleteTurn i = some none := by
  cases t with
  | leaf => simp [Tree.topId] at ht
  | node c l e r =>
    obtain rfl : e.id = i := by simpa [Tree.topId] using ht
    have hdone : h.root = some e.id ∨ c = .red := by
      rcases hc with hc | rfl
      · exact .inr hc
      · exact .inl hs.root
    simp only [deleteTurn, hs.top, hdone, Option.bind_eq_bind, Option.bind_some, if_true]
    rfl

/-- a sibling that is not red stays where it is -/
theorem liftSibling_of_black (hs : h.Shows n rest t (f :: p)) (hc : f.sibling.color = .black) :
    h.liftSibling f.entry.id f.side = some h := by
  have hred := hs.isRed_sibling
  simp only [liftSibling, hs.above, Frame.cell_child_opposite, hred, hc, Option.bind_eq_bind, Option.bind_some]
  rfl

/-- a red sibling comes up -/
theorem liftSibling_of_red {lower upper : Frame} (hs : h.Shows n rest t (f :: p)) (hc : f.sibling.color = .red)
    (hf : ((f.paint .red).paintSibling .black).sink? = some (lower, upper)) :
    ∃ h', h.liftSibling f.entry.id f.side = some h' ∧ h'.Shows n rest t (lower :: upper :: p) ∧ Reshaped 1 h h' := by
  obtain ⟨l, e, r, hsib⟩ := Tree.exists_node_of_red hc
  have hid : f.sibling.topId = some e.id := by rw [hsib]; rfl
  have hred : h.isRed (some e.id) = true := by rw [← hid, hs.isRed_sibling, hc]; rfl
  obtain ⟨h₁, e₁, hs₁⟩ := hs.paint_sibling hid .black
  obtain ⟨h₂, e₂, hs₂⟩ := hs₁.paint_above .red
  obtain ⟨h₃, e₃, hs₃⟩ := Shows.sink (f := (f.paint .red).paintSibling .black) hs₂ hf
  have e₂ : h₁.paint f.entry.id .red = some h₂ := e₂
  have e₃ : h₂.rotate f.entry.id f.side = some h₃ := e₃
  refine ⟨h₃, ?_, hs₃, .paint e₁ (.paint e₂ (.rotate e₃ (.refl h₃)))⟩
  simp [liftSibling, hs.above, Frame.cell_child_opposite, hid, hred, e₁, e₂, e₃]

/-- the sibling gets a red child on its far side -/
theorem straightenSibling_spec {u : Tree} (hs : h.Shows n rest t (f :: p)) (hleaf : f.sibling ≠ .leaf)
    (hu : Removal.straighten? f = .ok u) :
    ∃ h', h.straightenSibling f.entry.id f.side = some h' ∧ h'.Shows n rest t ({ f with sibling := u } :: p) ∧
      Reshaped (decide ((f.sibling.child f.side.opposite).color = .black)).toNat h h' := by
  obtain ⟨j, hid⟩ := Tree.exists_topId hleaf
  have hs₀ := shows_swap.mp hs
  obtain ⟨c, r₀, -, hchild, -⟩ := hs₀.read hid
  have hfar := hs₀.isRed_child f.side.opposite
  simp only [Removal.straighten?] at hu
  split at hu
  · next hred =>
    obtain rfl : f.sibling = u := by simpa using hu
    refine ⟨h, ?_, hs, ?_⟩
    · simp [straightenSibling, hs.above, hid, r₀, hchild, hfar, hred]
    · rw [hred]
      exact .refl h
  · next hred =>
    split at hu
    · simp at hu
    · next sib hpaint =>
      split at hu
      · simp at hu
      · next risen hrot =>
        obtain rfl : risen = u := by simpa using hu
        obtain ⟨k, h₁, hk, e₁, hs₁⟩ := hs₀.paint_child hpaint
        have hid₁ : sib.topId = some j := (Tree.topId_paintChild? hpaint).trans hid
        obtain ⟨h₂, e₂, hs₂⟩ := hs₁.paint hid₁ .red
        obtain ⟨h₃, e₃, hs₃⟩ := hs₂.rotate ((Tree.topId_paint _ _).trans hid₁) hrot
        refine ⟨h₃, ?_, shows_swap.mpr hs₃, ?_⟩
        · simp [straightenSibling, hs.above, hid, r₀, hchild, hfar, hred, hk, e₁, e₂, e₃]
        · rw [decide_eq_true (Color.eq_black_of_ne hred)]
          exact .paint e₁ (.paint e₂ (.rotate e₃ (.refl h₃)))

/-- the cells show whether the sibling has a red child -/
theorem isRed_nephews (hs : h.Shows n rest f.sibling p) {c : Cell} (hc : ∀ s, c.child s = (f.sibling.child s).topId) :
    (!h.isRed c.left && !h.isRed c.right) =
      decide ((f.sibling.child f.side).color = .black ∧ (f.sibling.child f.side.opposite).color = .black) := by
  have hl : c.left = (f.sibling.child .left).topId := hc .left
  have hr : c.right = (f.sibling.child .right).topId := hc .right
  rw [hl, hr, hs.isRed_child, hs.isRed_child]
  have hboth : ∀ a b : Color, (!decide (a = .red) && !decide (b = .red)) = decide (a = .black ∧ b = .black) := by
    rintro (_ | _) (_ | _) <;> rfl
  cases f.side with
  | left => exact hboth _ _
  | right => exact (hboth _ _).trans (decide_eq_decide.mpr and_comm)

/-- without a red nephew the sibling turns red, and the parent is next -/
theorem resolve_climb (hs : h.Shows n rest t (f :: p)) (hleaf : f.sibling ≠ .leaf)
    (hblack : (f.sibling.child f.side).color = .black ∧ (f.sibling.child f.side.opposite).color = .black) :
    ∃ h', h.resolve f.entry.id f.side = some (f.entry.id, h') ∧ h'.Shows n rest ((f.paintSibling .red).fill t) p ∧
      Reshaped 0 h h' := by
  obtain ⟨i, hid⟩ := Tree.exists_topId hleaf
  obtain ⟨c, r₀, -, hchild, -⟩ := (shows_swap.mp hs).read hid
  have hboth := isRed_nephews (shows_swap.mp hs) hchild
  obtain ⟨h₁, e₁, hs₁⟩ := hs.paint_sibling hid .red
  refine ⟨h₁, ?_, shows_fill.mpr hs₁, .paint e₁ (.refl h₁)⟩
  rw [decide_eq_true hblack] at hboth
  simp only [resolve, hs.above, Frame.cell_child_opposite, hid, r₀, hboth, e₁, if_true, Option.bind_eq_bind,
    Option.bind_some]
  rfl

/-- with a red nephew the sibling comes up over the parent, in the parent's colour, and the root is next -/
theorem resolve_rotate {sib sib' : Tree} {lower upper : Frame} (hs : h.Shows n rest t (f :: p))
    (hleaf : f.sibling ≠ .leaf)
    (hred : ¬((f.sibling.child f.side).color = .black ∧ (f.sibling.child f.side.opposite).color = .black))
    (hu : Removal.straighten? f = .ok sib) (hpaint : (sib.paint f.color).paintChild? f.side.opposite .black = some sib')
    (hsink : ({ f with color := .black, sibling := sib' } : Frame).sink? = some (lower, upper)) :
    ∃ m h', h.resolve f.entry.id f.side = some (m, h') ∧ (Path.fill (lower :: upper :: p) t).topId = some m ∧
      h'.Shows n rest (Path.fill (lower :: upper :: p) t) [] ∧
      Reshaped ((decide ((f.sibling.child f.side.opposite).color = .black)).toNat + 1) h h' := by
  obtain ⟨i, hid⟩ := Tree.exists_topId hleaf
  obtain ⟨c, r₀, -, hchild, -⟩ := (shows_swap.mp hs).read hid
  have hboth := isRed_nephews (shows_swap.mp hs) hchild
  have hsib : sib ≠ .leaf := fun hl => by simp [hl, Tree.paint, Tree.paintChild?, Tree.down] at hpaint
  obtain ⟨j, hj⟩ := Tree.exists_topId hsib
  obtain ⟨h₁, e₁, hs₁, hr₁⟩ := straightenSibling_spec hs hleaf hu
  obtain ⟨h₂, e₂, hs₂⟩ := hs₁.paint_sibling hj f.color
  obtain ⟨h₃, e₃, hs₃⟩ := hs₂.paint_above .black
  replace e₃ : h₂.paint f.entry.id .black = some h₃ := e₃
  replace hs₃ : h₃.Shows n rest t (⟨f.side, .black, f.entry, sib.paint f.color⟩ :: p) := hs₃
  obtain ⟨k, h₄, hk, e₄, hs₄⟩ := (shows_swap.mp hs₃).paint_child hpaint
  obtain ⟨h₅, e₅, hs₅⟩ := Shows.sink (f := { f with color := .black, sibling := sib' }) (shows_swap.mpr hs₄) hsink
  replace e₅ : h₄.rotate f.entry.id f.side = some h₅ := e₅
  have hs₆ : h₅.Shows n rest (Path.fill (lower :: upper :: p) t) [] := by
    rw [shows_root]
    exact hs₅
  -- what is read on the way, in the order of the reads
  have r₁ := hs₁.above
  have hsib := Frame.cell_child_opposite { f with sibling := sib } t.topId p.topId
  have hcolor := Frame.cell_color { f with sibling := sib } t.topId p.topId
  obtain ⟨d, r₃, -, hd, -⟩ := (shows_swap.mp hs₃).read ((Tree.topId_paint _ _).trans hj)
  replace hd : d.child f.side.opposite = some k := (hd _).trans hk
  obtain ⟨m, hm⟩ := Tree.exists_topId (Path.fill_ne_leaf (Frame.fill_ne_leaf lower t) (upper :: p))
  refine ⟨m, h₅, ?_, hm, hs₆, hr₁.trans (.paint e₂ (.paint e₃ (.paint e₄ (.rotate e₅ (.refl h₅)))))⟩
  rw [decide_eq_false hred] at hboth
  simp only [resolve, hs.above, Frame.cell_child_opposite, hid, r₀, hboth, e₁, r₁, hsib, hcolor, hj, e₂, e₃, r₃, hd, e₄,
    e₅, hs₆.root, Path.rootId, Path.fill_cons lower, hm, Option.bind_eq_bind, Option.bind_some]
  rfl

/-- the rest of a turn on the cells is the rest of the turn on the tree -/
theorem resolve_spec {s u : Removal} {lowered : Bool} {turn : Removal.Turn} (hr : s.resolve lowered f p = .ok (turn, u))
    (hs : h.Shows n rest s.current (f :: p)) :
    ∃ j h' r, h.resolve f.entry.id f.side = some (j, h') ∧ u.current.topId = some j ∧
      h'.Shows n rest u.current u.above ∧ Reshaped r h h' ∧ turn.rotations = lowered.toNat + r := by
  simp only [Removal.resolve] at hr
  split at hr
  · simp at hr
  next hleaf =>
  split at hr
  · next hblack =>
    simp only [Except.ok.injEq, Prod.mk.injEq] at hr
    obtain ⟨rfl, rfl⟩ := hr
    obtain ⟨h₁, e₁, hs₁, hr₁⟩ := resolve_climb hs hleaf hblack
    refine ⟨f.entry.id, h₁, 0, e₁, ?_, ?_, hr₁, rfl⟩
    · rw [Removal.current_cons]
      exact Frame.topId_fill _ _
    · rw [Removal.current_cons]
      exact hs₁
  · next hred =>
    split at hr
    · simp at hr
    next sib hu =>
    split at hr
    · simp at hr
    next sib' hpaint =>
    split at hr
    · simp at hr
    next lower upper hsink =>
    simp only [Except.ok.injEq, Prod.mk.injEq] at hr
    obtain ⟨rfl, rfl⟩ := hr
    obtain ⟨m, h₁, e₁, hm, hs₁, hr₁⟩ := resolve_rotate hs hleaf hred hu hpaint hsink
    refine ⟨m, h₁, _, e₁, ?_, ?_, hr₁, Nat.add_assoc ..⟩
    · rw [Removal.current_append]
      exact hm
    · rw [Removal.current_append]
      exact hs₁

/-- below a node, a turn at a black node lets a red sibling come up first -/
theorem deleteTurn_eq (hs : h.Shows n rest t (f :: p)) (ht : t.topId = some i) (hc : t.color = .black) :
    h.deleteTurn i =
      ((h.liftSibling f.entry.id f.side).bind fun h => h.resolve f.entry.id f.side).map some := by
  obtain ⟨c, r₀, hcol, -, hpar⟩ := hs.read ht
  have hblack : c.color ≠ .red := by rw [hcol, hc]; decide
  simp only [deleteTurn, r₀, root_ne hs ht, hblack, hpar, Path.topId_cons, hs.above, hs.sideOf ht, or_self, if_false,
    Option.bind_eq_bind, Option.bind_some]
  cases h.liftSibling f.entry.id f.side with
  | none => rfl
  | some h₁ => simp only [Option.bind_some]; cases h₁.resolve f.entry.id f.side <;> rfl

/-- a turn on the cells is a turn on the tree, with the same rotations -/
theorem deleteTurn_spec {s u : Removal} {turn : Removal.Turn} (hstep : s.step = .ok (some (turn, u)))
    (hs : h.Shows n rest s.current s.above) (ht : s.current.topId = some i) :
    ∃ j h', h.deleteTurn i = some (some (j, h')) ∧ u.current.topId = some j ∧ h'.Shows n rest u.current u.above ∧
      Reshaped turn.rotations h h' := by
  obtain ⟨d, below, above⟩ := s
  simp only at hs
  cases hc : Removal.color ⟨d, below, above⟩ with
  | red => simp [Removal.step, hc] at hstep
  | black =>
    cases above with
    | nil => simp [Removal.step, hc] at hstep
    | cons parent top =>
      have hturn := deleteTurn_eq hs ht ((Removal.color_current _).trans hc)
      simp only [Removal.step, hc] at hstep
      split at hstep
      · next hred =>
        split at hstep
        · simp at hstep
        next lower upper hsink =>
        obtain ⟨h₁, e₁, hs₁, hr₁⟩ := liftSibling_of_red hs hred hsink
        obtain ⟨hside, hentry⟩ : lower.side = parent.side ∧ lower.entry = parent.entry :=
          Frame.lower_of_sink? (f := (parent.paint .red).paintSibling .black) hsink
        cases hr : Removal.resolve ⟨d, below, parent :: top⟩ true lower (upper :: top) with
        | error e => simp [hr, Except.map] at hstep
        | ok r =>
          obtain ⟨turn', u'⟩ := r
          obtain ⟨j, h', r', e', hj, hs', hr', hrot⟩ := resolve_spec hr hs₁
          rw [hside, hentry] at e'
          simp only [hr, Except.map, Except.ok.injEq, Option.some.injEq, Prod.mk.injEq] at hstep
          obtain ⟨rfl, rfl⟩ := hstep
          exact ⟨j, h', by simp [hturn, e₁, e'], hj, hs', hrot ▸ hr₁.trans hr'⟩
      · next hnred =>
        have hsib : parent.sibling.color = .black := Color.eq_black_of_ne hnred
        have e₁ := liftSibling_of_black hs hsib
        cases hr : Removal.resolve ⟨d, below, parent :: top⟩ false parent top with
        | error e => simp [hr, Except.map] at hstep
        | ok r =>
          obtain ⟨turn', u'⟩ := r
          obtain ⟨j, h', r', e', hj, hs', hr', hrot⟩ := resolve_spec hr hs
          simp only [hr, Except.map, Except.ok.injEq, Option.some.injEq, Prod.mk.injEq] at hstep
          obtain ⟨rfl, rfl⟩ := hstep
          exact ⟨j, h', by simp [hturn, e₁, e'], hj, hs', by rwa [hrot, Bool.toNat_false, Nat.zero_add]⟩

/-! ## The whole repair -/

theorem turns_delete {s u : Removal} {m : Nat} (hfin : s.finish? = .ok u) (hs : h.Shows n rest s.current s.above)
    (ht : s.current.topId = some i) (hm : s.measure < m) :
    ∃ h', turns (fun s => s.2.deleteTurn s.1) (fun s => s.2.paint s.1 .black) m (i, h) = some h' ∧
      h'.Shows n rest u.doomed u.place := by
  induction m generalizing s h i with
  | zero => exact absurd hm (Nat.not_lt_zero _)
  | succ m ih =>
    cases hstep : s.step with
    | error e =>
      simp [Removal.finish?, Removal.settle_of_error hstep, Except.map] at hfin
    | ok r =>
      cases r with
      | none =>
        rw [Removal.finish?_of_none hstep, Except.ok.injEq] at hfin
        subst hfin
        obtain ⟨h', e', hs'⟩ := hs.paint ht .black
        refine ⟨h', ?_, ?_⟩
        · rw [turns_of_none (deleteTurn_of_done hs ht (Removal.done_of_step hstep))]
          exact e'
        · rw [← shows_current, Removal.current_blacken, Removal.above_blacken]
          exact hs'
      | some r =>
        obtain ⟨turn, v⟩ := r
        obtain ⟨j, h₁, e₁, htv, hs₁, -⟩ := deleteTurn_spec hstep hs ht
        have hlt := Removal.measure_step hstep
        rw [Removal.finish?_of_step hstep] at hfin
        obtain ⟨h', e', hs'⟩ := ih hfin hs₁ htv (by omega)
        refine ⟨h', ?_, hs'⟩
        rw [turns_of_some e₁]
        exact e'

/-- the loop on the cells ends with the tree that the repair of the tree ends with -/
theorem fixDelete_spec {s u : Removal} (hfin : s.finish? = .ok u) (hs : h.Shows n rest s.doomed s.place)
    (ht : s.current.topId = some i) : ∃ h', h.fixDelete i = some h' ∧ h'.Shows n rest u.doomed u.place := by
  rw [← shows_current] at hs
  have hm := hs.length_le
  have hone : 0 < s.current.entries.length := Tree.length_entries_pos ht
  refine turns_delete hfin hs ht ?_
  rw [Removal.measure, limit]
  split <;> omega

/-! ## Unlinking a cell -/

/-- the only child, as the cell has it -/
theorem topId_onlyChild (c : Color) (l r : Tree) (e : Entry) :
    (l.topId <|> r.topId) = (Tree.node c l e r).onlyChild.topId := by
  cases l <;> rfl

theorem Shows.isRed_onlyChild {c : Color} {l r : Tree} {e : Entry} (hs : h.Shows n rest (.node c l e r) p) :
    h.isRed (Tree.node c l e r).onlyChild.topId = decide ((Tree.node c l e r).onlyChild.color = .red) := by
  rcases Tree.onlyChild_eq c l r e with ho | ho <;> rw [ho]
  · exact hs.isRed_child .left
  · exact hs.isRed_child .right

theorem Shows.paint_onlyChild {c : Color} {l r : Tree} {e : Entry} (hs : h.Shows n rest (.node c l e r) p)
    (ho : l = .leaf ∨ r = .leaf) (hi : (Tree.node c l e r).onlyChild.topId = some i) (c' : Color) :
    ∃ h', h.paint i c' = some h' ∧ h'.Shows n rest (.node c (l.paint c') e (r.paint c')) p := by
  cases l with
  | leaf =>
    obtain ⟨h', e', hs'⟩ := Shows.paint ((shows_fill (f := ⟨.right, c, e, .leaf⟩)).mp hs) hi c'
    exact ⟨h', e', shows_fill.mpr hs'⟩
  | node cl ll el rl =>
    obtain rfl : r = .leaf := ho.resolve_left (by simp)
    obtain ⟨h', e', hs'⟩ := Shows.paint ((shows_fill (f := ⟨.left, c, e, .leaf⟩)).mp hs) hi c'
    exact ⟨h', e', shows_fill.mpr hs'⟩

/-- a red cell needs no repair -/
theorem unlink_red {l r : Tree} {e : Entry} (ho : l = .leaf ∨ r = .leaf) (hs : h.Shows n rest (.node .red l e r) p) :
    ∃ h', h.unlink e.id = some h' ∧
      h'.Shows n ({(⟨e.key, e.value, .red, l.topId, r.topId, p.topId⟩, e.id)} + rest)
        (p.fill (Tree.node .red l e r).onlyChild) [] := by
  have r₀ := hs.top
  obtain ⟨h', e', hs'⟩ := hs.replace ho
  refine ⟨h', ?_, shows_root.mpr hs'⟩
  simp only [unlink, r₀, topId_onlyChild .red l r e, e', reduceCtorEq, if_false, Option.bind_eq_bind, Option.bind_some]

/-- a black cell with a red child leaves its colour to the child -/
theorem unlink_redChild {l r : Tree} {e : Entry} (ho : l = .leaf ∨ r = .leaf)
    (hchild : (Tree.node .black l e r).onlyChild.color = .red) (hs : h.Shows n rest (.node .black l e r) p) :
    ∃ h', h.unlink e.id = some h' ∧
      h'.Shows n ({(⟨e.key, e.value, .black, l.topId, r.topId, p.topId⟩, e.id)} + rest)
        (p.fill ((Tree.node .black l e r).onlyChild.paint .black)) [] := by
  have r₀ := hs.top
  have hred := hs.isRed_onlyChild
  obtain ⟨j, hj⟩ : ∃ j, (Tree.node .black l e r).onlyChild.topId = some j :=
    Tree.exists_topId fun hl => by simp [hl, Tree.color] at hchild
  obtain ⟨h₁, e₁, hs₁⟩ := hs.paint_onlyChild ho hj .black
  obtain ⟨h₂, e₂, hs₂⟩ := hs₁.replace (ho.imp (by rintro rfl; rfl) (by rintro rfl; rfl))
  have honly : (Tree.node .black (l.paint .black) e (r.paint .black)).onlyChild =
      (Tree.node .black l e r).onlyChild.paint .black := by cases l <;> rfl
  rw [honly, Tree.topId_paint, hj] at e₂
  rw [honly, Tree.topId_paint, Tree.topId_paint] at hs₂
  refine ⟨h₂, ?_, shows_root.mpr hs₂⟩
  rw [hj] at hred
  simp only [unlink, r₀, topId_onlyChild .black l r e, hj, hred, decide_eq_true hchild, e₁, e₂, if_true,
    Option.bind_eq_bind, Option.bind_some]

/-- a black cell without a red child is unlinked after the repair, from where the repair has left it -/
theorem unlink_black {s : Removal} {l r : Tree} {e : Entry} (ho : l = .leaf ∨ r = .leaf)
    (hchild : (Tree.node .black l e r).onlyChild.color ≠ .red)
    (hfin : (Removal.mk (.node .black l e r) [] p).finish? = .ok s) (hd : s.doomed = .node .black l e r)
    (hs : h.Shows n rest (.node .black l e r) p) :
    ∃ h', h.unlink e.id = some h' ∧
      h'.Shows n ({(⟨e.key, e.value, .black, l.topId, r.topId, s.place.topId⟩, e.id)} + rest)
        (s.place.fill (Tree.node .black l e r).onlyChild) [] := by
  have r₀ := hs.top
  have hred := hs.isRed_onlyChild
  obtain ⟨h₁, e₁, hs₁⟩ := fixDelete_spec (i := e.id) hfin hs rfl
  rw [hd] at hs₁
  obtain ⟨h₂, e₂, hs₂⟩ := hs₁.replace ho
  refine ⟨h₂, ?_, shows_root.mpr hs₂⟩
  simp only [unlink, r₀, topId_onlyChild .black l r e, Option.bind_eq_bind, Option.bind_some]
  cases hj : (Tree.node .black l e r).onlyChild.topId with
  | none =>
    rw [hj] at e₂
    simp only [e₁, e₂, if_true, Option.bind_some]
  | some j =>
    rw [hj] at e₂ hred
    simp only [hred, decide_eq_false hchild, Bool.false_eq_true, e₁, e₂, if_true, if_false, Option.bind_some]

/-- a cell with at most one child is unlinked, and stays in memory -/
theorem unlink_spec {c : Color} {l r root : Tree} {e : Entry} (ho : l = .leaf ∨ r = .leaf)
    (hu : (Tree.node c l e r).unlink? p = .ok (.node c l e r, root)) (hs : h.Shows n rest (.node c l e r) p) :
    ∃ h' parent, h.unlink e.id = some h' ∧
      h'.Shows n ({(⟨e.key, e.value, c, l.topId, r.topId, parent⟩, e.id)} + rest) root [] := by
  simp only [Tree.unlink?] at hu
  cases c with
  | red =>
    simp only [Tree.color_node, if_true, Except.ok.injEq, Prod.mk.injEq, true_and] at hu
    obtain ⟨h', e', hs'⟩ := unlink_red ho hs
    exact ⟨h', p.topId, e', hu ▸ hs'⟩
  | black =>
    simp only [Tree.color_node, reduceCtorEq, if_false] at hu
    by_cases hchild : (Tree.node .black l e r).onlyChild.color = .red
    · rw [if_pos hchild, Except.ok.injEq, Prod.mk.injEq] at hu
      obtain ⟨h', e', hs'⟩ := unlink_redChild ho hchild hs
      exact ⟨h', p.topId, e', hu.2 ▸ hs'⟩
    · rw [if_neg hchild] at hu
      split at hu
      · simp at hu
      · next s hfin =>
        rw [Except.ok.injEq, Prod.mk.injEq] at hu
        obtain ⟨h', e', hs'⟩ := unlink_black ho hchild hfin hu.1 hs
        exact ⟨h', s.place.topId, e', hu.2 ▸ hs'⟩

/-! ## Deleting a key -/

/-- the cell to unlink so that the pair of cell `i` goes, and the memory to unlink it from: the cell itself or, with two
children, the one that is next in order, after its pair has been written over -/
def doomOf (h : Linked) (i : NodeId) : Option (NodeId × Linked) := do
  let c ← h.cell? i
  match c.left, c.right with
  | some _, some r =>
    let next ← h.leftmost r
    let d ← h.cell? next
    let h ← h.modify i fun c => { c with key := d.key, value := d.value }
    return (next, h)
  | _, _ => return (i, h)

/-- the cell to unlink when the key of cell `i` goes: that cell, or the next one, whose pair is written over it first -/
theorem deleteCell_eq (h : Linked) (i : NodeId) : h.deleteCell i = (h.doomOf i).bind fun s => s.2.unlink s.1 := by
  unfold deleteCell doomOf
  cases hc : h.cell? i with
  | none => rfl
  | some c =>
    simp only [Option.bind_eq_bind, Option.bind_some]
    cases c.left with
    | none => rfl
    | some l =>
      cases c.right with
      | none => rfl
      | some r =>
        simp only [Option.bind_assoc]
        rfl

/-- the cell to unlink is the one of the node to take out, when the pair of that node is written over the found one -/
theorem doomOf_spec {c d : Color} {l r ld rd : Tree} {e s : Entry} {place : Path}
    (hdoom : (Tree.node c l e r).doom p = (.node d ld s rd, place)) (hs : h.Shows n rest (.node c l e r) p) :
    ∃ k, h.doomOf e.id = some (s.id, k) ∧ k.Shows n rest (.node d ld s rd) place := by
  have r₀ := hs.top
  cases l with
  | leaf =>
    simp only [Tree.doom, Prod.mk.injEq, Tree.node.injEq] at hdoom
    obtain ⟨⟨rfl, rfl, rfl, rfl⟩, rfl⟩ := hdoom
    exact ⟨h, by simp only [doomOf, r₀, Tree.topId, Option.bind_eq_bind, Option.bind_some]; rfl, hs⟩
  | node cl ll el rl =>
    cases r with
    | leaf =>
      simp only [Tree.doom, Prod.mk.injEq, Tree.node.injEq] at hdoom
      obtain ⟨⟨rfl, rfl, rfl, rfl⟩, rfl⟩ := hdoom
      exact ⟨h, by simp only [doomOf, r₀, Tree.topId, Option.bind_eq_bind, Option.bind_some]; rfl, hs⟩
    | node cr lr er rr =>
      obtain ⟨d', s', rd', below, hlm, -⟩ := Tree.leftmost_spec (t := .node cr lr er rr) (by simp) []
      rw [List.append_nil] at hlm
      simp only [Tree.doom, hlm, Prod.mk.injEq, Tree.node.injEq] at hdoom
      obtain ⟨⟨rfl, rfl, rfl, rfl⟩, rfl⟩ := hdoom
      have hfill := Tree.fill_leftmost (.node cr lr er rr) []
      rw [hlm] at hfill
      have hnext : ∀ (h : Linked) (e : Entry),
          h.Shows n rest (.node c (.node cl ll el rl) e (.node cr lr er rr)) p →
            h.Shows n rest (.node d' .leaf s' rd') (below ++ ⟨.right, c, e, .node cl ll el rl⟩ :: p) := by
        intro h e hs
        rw [← shows_append, hfill]
        exact (shows_fill (f := ⟨.right, c, e, .node cl ll el rl⟩)).mp hs
      have hleft := Shows.leftmost ((shows_fill (f := ⟨.right, c, e, .node cl ll el rl⟩)).mp hs) rfl
      rw [← List.nil_append (_ :: p), Tree.leftmost_append, hlm] at hleft
      have r₁ := (hnext h e hs).top
      obtain ⟨k, e₁, hs₁⟩ := hs.modify (g := fun c => { c with key := s'.key, value := s'.value })
        (d := { e with key := s'.key, value := s'.value }) rfl fun _ _ _ => rfl
      refine ⟨k, ?_, hnext k _ hs₁⟩
      simp only [doomOf, r₀, Tree.topId, hleft, r₁, e₁, Option.bind_eq_bind, Option.bind_some]
      rfl

/-- the cell that goes is the one of the node to take out -/
theorem deleteCell_spec {c d : Color} {l r ld rd root : Tree} {e s : Entry} {place : Path}
    (hdoom : (Tree.node c l e r).doom p = (.node d ld s rd, place)) (ho : ld = .leaf ∨ rd = .leaf)
    (hu : (Tree.node d ld s rd).unlink? place = .ok (.node d ld s rd, root)) (hs : h.Shows n rest (.node c l e r) p) :
    ∃ h' parent, h.deleteCell e.id = some h' ∧
      h'.Shows n ({(⟨s.key, s.value, d, ld.topId, rd.topId, parent⟩, s.id)} + rest) root [] := by
  obtain ⟨k, hk, hs₁⟩ := doomOf_spec hdoom hs
  obtain ⟨h', parent, e', hs'⟩ := unlink_spec ho hu hs₁
  exact ⟨h', parent, by rw [deleteCell_eq, hk]; exact e', hs'⟩

/-- **Deleting on cells.** On cells that show a red-black tree, deleting a key ends, and the cells show the tree without
the key; the cell that was unlinked stays in memory. -/
theorem delete_spec (hs : h.Shows n rest t []) (ht : t.RedBlack) (key : Bytes) :
    (t.erase? key = .ok none ∧ h.delete key = some (false, h)) ∨
      ∃ c l e r root h' parent, t.erase? key = .ok (some (.node c l e r, root)) ∧ h.delete key = some (true, h') ∧
        h'.Shows (n - 1) ({(⟨e.key, e.value, c, l.topId, r.topId, parent⟩, e.id)} + rest) root [] := by
  have hdesc := hs.descend key
  have hs' := hs.shows_descend key
  have hfill := Tree.fill_descend key t []
  cases hd : t.descend key [] with
  | mk found path =>
    simp only [hd] at hdesc hs' hfill
    cases found with
    | leaf =>
      refine .inl ⟨by simp only [Tree.erase?, hd], ?_⟩
      simp only [delete, hdesc, Tree.topId, Option.bind_eq_bind, Option.bind_some]
      rfl
    | node c l e r =>
      right
      have hcol : (path.fill (.node c l e r)).Colored := by rw [hfill]; exact ht.colored
      obtain ⟨d, ld, s, rd, place, hdoom, hone, hplace, -⟩ := Tree.doom_spec hcol
      obtain ⟨root, hun, -, -⟩ := Tree.unlink?_spec hone hplace
      obtain ⟨h₁, parent, e₁, hs₁⟩ := deleteCell_spec hdoom hone hun hs'
      refine ⟨d, ld, s, rd, root, { h₁ with size := h₁.size - 1 }, parent, ?_, ?_, ?_⟩
      · simp only [Tree.erase?, hd, hdoom, hun, Except.map]
      · simp only [delete, hdesc, Tree.topId, e₁, Option.bind_eq_bind, Option.bind_some]
        rfl
      · exact ⟨hs₁.root, congrArg (· - 1) hs₁.size, hs₁.contents⟩

end Linked

end MeteredStore
