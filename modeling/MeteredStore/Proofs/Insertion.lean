/-
Inserting into a red-black tree gives a red-black tree.

A tree in repair has one fault at most: the node in focus is red, and so may be the node above it (`Sound`). Each turn
moves the fault up two levels or ends it (`step_sound`), so the repair comes to an end and needs nothing that is missing
(`settle_sound`). No turn changes the order of the entries.

Main statement: `insert?_spec`, putting a key into a red-black tree gives a red-black tree in which the entry of the key is
the only new one, or the only one with a new value.
-/
import MeteredStore.Proofs.Place
import MeteredStore.Tree.Insertion

namespace MeteredStore

namespace Insertion

/-- the only possible fault is that the red node in focus hangs from a red one or is the root; `n` black nodes on every
way down -/
structure Sound (s : Insertion) (n : Nat) : Prop where
  red : s.focus.color = .red
  focus : s.focus.NoRedRed
  path : Path.NoRedRed s.path
  height : ∃ h, s.focus.BlackHeight h ∧ Path.BlackHeight s.path h n
  root : Path.rootColor s.path .black = .black

/-! ## What a turn does -/

theorem step_of_black {s : Insertion} (h : Path.topColor s.path = .black) : s.step = .ok none := by
  obtain ⟨focus, path⟩ := s
  cases path with
  | nil => rfl
  | cons f p => simp_all [step]

/-- what a turn with a black uncle makes of node, parent and grandparent: a frame with the new focus in its hole -/
def turned? (parent grand : Frame) (focus : Tree) : Option (Frame × Tree) := do
  let hanging ← straighten? grand.side parent focus
  let family ← ((grand.paint .red).fill (hanging.paint .black)).rotate? grand.side.opposite
  family.down grand.side

/-- a turn below a red node that hangs from another node -/
theorem step_eq_turned? (parent grand : Frame) (top : Path) (focus : Tree) (hp : parent.color = .red) :
    step ⟨focus, parent :: grand :: top⟩ =
      if grand.sibling.color = .red then
        .ok (some (.recolor, ⟨((grand.paint .red).paintSibling .black).fill ((parent.paint .black).fill focus), top⟩))
      else
        (turned? parent grand focus).elim (.error .pivotMissing) fun r =>
          .ok (some (if parent.side = grand.side then .rotate else .rotateTwice, ⟨r.2, r.1 :: top⟩)) := by
  unfold step
  simp only [hp]
  split
  · rfl
  · cases hturned : turned? parent grand focus with
    | none =>
      unfold turned? at hturned
      rw [hturned]
      rfl
    | some r =>
      unfold turned? at hturned
      rw [hturned]
      rfl

/-- a red node above the focus is not the root -/
theorem exists_grand {s : Insertion} {n : Nat} (h : s.Sound n) (hr : Path.topColor s.path = .red) :
    ∃ parent grand top, s.path = parent :: grand :: top ∧ parent.color = .red ∧ grand.color = .black := by
  obtain ⟨focus, path⟩ := s
  have hp := h.path
  have hroot := h.root
  cases path with
  | nil => simp [Path.topColor] at hr
  | cons parent path =>
    cases path with
    | nil => simp_all [Path.rootColor]
    | cons grand top => exact ⟨parent, grand, top, rfl, hr, (hp.2.1 hr).2⟩

/-- where a turn is due, a red node hangs from another node -/
theorem exists_kin {s : Insertion} {r : Turn × Insertion} (h : s.step = .ok (some r)) :
    ∃ parent grand top, s.path = parent :: grand :: top ∧ parent.color = .red := by
  obtain ⟨focus, path⟩ := s
  cases path with
  | nil => cases h
  | cons parent path =>
    cases hp : parent.color with
    | black => simp [step, hp] at h
    | red =>
      cases path with
      | nil => simp [step, hp] at h
      | cons grand top => exact ⟨parent, grand, top, rfl, hp⟩

/-- under a red uncle the turn recolours, and the grandparent is in focus next -/
theorem step_recolor {focus : Tree} {parent grand : Frame} {top : Path} (hp : parent.color = .red)
    (hu : grand.sibling.color = .red) :
    step ⟨focus, parent :: grand :: top⟩ =
      .ok (some (.recolor, ⟨((grand.paint .red).paintSibling .black).fill ((parent.paint .black).fill focus), top⟩)) := by
  simp [step, hp, hu]

/-- an outer grandchild stays in focus, under its parent, which takes the grandparent's place -/
theorem step_rotate {focus : Tree} {parent grand : Frame} {top : Path} (hp : parent.color = .red)
    (hu : grand.sibling.color = .black) (hs : parent.side = grand.side) :
    step ⟨focus, parent :: grand :: top⟩ =
      .ok (some (.rotate,
        ⟨focus, ⟨parent.side, .black, parent.entry, (grand.paint .red).fill parent.sibling⟩ :: top⟩)) := by
  obtain ⟨s, c, e, b⟩ := parent
  obtain ⟨s', c', e', b'⟩ := grand
  obtain rfl : s = s' := hs
  cases s <;> simp_all [step, straighten?, Frame.fill, Frame.paint, Tree.rotate?, Tree.down, Tree.paint, Side.opposite]

/-- an inner grandchild takes the grandparent's place, and its parent is in focus next -/
theorem step_rotateTwice {c : Color} {l r : Tree} {e : Entry} {parent grand : Frame} {top : Path}
    (hp : parent.color = .red) (hu : grand.sibling.color = .black) (hs : parent.side ≠ grand.side) :
    step ⟨.node c l e r, parent :: grand :: top⟩ =
      .ok (some (.rotateTwice,
        ⟨parent.fill ((Tree.node c l e r).child grand.side),
          ⟨grand.side, .black, e, (grand.paint .red).fill ((Tree.node c l e r).child grand.side.opposite)⟩ :: top⟩)) := by
  obtain ⟨s, c, e, b⟩ := parent
  obtain ⟨s', c', e', b'⟩ := grand
  cases s <;> cases s' <;>
    simp_all [step, straighten?, Frame.fill, Frame.paint, Tree.rotate?, Tree.down, Tree.paint, Tree.child, Side.opposite]

/-! ## What a turn keeps -/

theorem sound_recolor {focus : Tree} {parent grand : Frame} {top : Path} {n : Nat}
    (h : Sound ⟨focus, parent :: grand :: top⟩ n) (hp : parent.color = .red) (hu : grand.sibling.color = .red) :
    Sound ⟨((grand.paint .red).paintSibling .black).fill ((parent.paint .black).fill focus), top⟩ n := by
  obtain ⟨hsp, hcp, hsg, hcg, htop⟩ := h.path
  obtain ⟨k, hk, hkp, hkg, hkt⟩ := h.height
  have hg : grand.color = .black := (hcp hp).2
  simp only [Frame.raise, hp, hg] at hkp hkg hkt
  refine ⟨Frame.color_fill _ _, ?_, htop, ⟨k + 1, ?_, hkt⟩, ?_⟩
  · rw [Frame.noRedRed_fill, Frame.noRedRed_fill, Frame.color_fill]
    refine ⟨⟨h.focus, hsp, fun h => by cases h⟩, Tree.noRedRed_paint_black hsg, fun _ => ⟨rfl, Tree.color_paint_black _⟩⟩
  · rw [Frame.blackHeight_fill]
    refine ⟨k + 1, rfl, ?_, Tree.blackHeight_paint_black hu hkg⟩
    rw [Frame.blackHeight_fill]
    exact ⟨k, rfl, hk, hkp⟩
  · cases top with
    | nil => rfl
    | cons f p => exact h.root

theorem sound_rotate {focus : Tree} {parent grand : Frame} {top : Path} {n : Nat}
    (h : Sound ⟨focus, parent :: grand :: top⟩ n) (hp : parent.color = .red) (hu : grand.sibling.color = .black) :
    Sound ⟨focus, ⟨parent.side, .black, parent.entry, (grand.paint .red).fill parent.sibling⟩ :: top⟩ n := by
  obtain ⟨hsp, hcp, hsg, hcg, htop⟩ := h.path
  obtain ⟨k, hk, hkp, hkg, hkt⟩ := h.height
  have hg : grand.color = .black := (hcp hp).2
  simp only [Frame.raise, hp, hg] at hkp hkg hkt
  refine ⟨h.red, h.focus, ⟨?_, by simp, htop⟩, ⟨k, hk, ?_, hkt⟩, ?_⟩
  · rw [Frame.noRedRed_fill]
    exact ⟨hsp, hsg, fun _ => ⟨(hcp hp).1, hu⟩⟩
  · rw [Frame.blackHeight_fill]
    exact ⟨k, rfl, hkp, hkg⟩
  · cases top with
    | nil => rfl
    | cons f p => exact h.root

theorem sound_rotateTwice {l r : Tree} {e : Entry} {parent grand : Frame} {top : Path} {n : Nat}
    (h : Sound ⟨.node .red l e r, parent :: grand :: top⟩ n) (hp : parent.color = .red)
    (hu : grand.sibling.color = .black) (s : Side) :
    Sound ⟨parent.fill ((Tree.node .red l e r).child s),
      ⟨s, .black, e, (grand.paint .red).fill ((Tree.node .red l e r).child s.opposite)⟩ :: top⟩ n := by
  obtain ⟨hsp, hcp, hsg, hcg, htop⟩ := h.path
  obtain ⟨k, hk, hkp, hkg, hkt⟩ := h.height
  have hg : grand.color = .black := (hcp hp).2
  simp only [Frame.raise, hp, hg] at hkp hkg hkt
  have hchild : ∀ s, ((Tree.node .red l e r).child s).NoRedRed ∧ ((Tree.node .red l e r).child s).color = .black ∧
      ((Tree.node .red l e r).child s).BlackHeight k := by
    obtain ⟨hc, hl, hr⟩ := h.focus
    rintro (_ | _)
    · exact ⟨hl, (hc rfl).1, hk.1⟩
    · exact ⟨hr, (hc rfl).2, hk.2⟩
  refine ⟨(Frame.color_fill _ _).trans hp, ?_, ⟨?_, by simp, htop⟩, ⟨k, ?_, ?_, hkt⟩, ?_⟩
  · rw [Frame.noRedRed_fill]
    exact ⟨(hchild s).1, hsp, fun _ => ⟨(hchild s).2.1, (hcp hp).1⟩⟩
  · rw [Frame.noRedRed_fill]
    exact ⟨(hchild s.opposite).1, hsg, fun _ => ⟨(hchild s.opposite).2.1, hu⟩⟩
  · rw [Frame.blackHeight_fill]
    exact ⟨k, by simp [Frame.raise, hp], (hchild s).2.2, hkp⟩
  · rw [Frame.blackHeight_fill]
    exact ⟨k, rfl, (hchild s.opposite).2.2, hkg⟩
  · cases top with
    | nil => rfl
    | cons f p => exact h.root

/-- every turn keeps `Sound` and the order of the entries; one that rotates puts a black node above the focus -/
theorem step_sound {s : Insertion} {n : Nat} (h : s.Sound n) :
    (s.step = .ok none ∧ Path.topColor s.path = .black) ∨
      ∃ turn t, s.step = .ok (some (turn, t)) ∧ t.Sound n ∧ t.tree.entries = s.tree.entries ∧
        (turn ≠ .recolor → Path.topColor t.path = .black) := by
  cases hc : Path.topColor s.path with
  | black => exact .inl ⟨step_of_black hc, rfl⟩
  | red =>
    right
    obtain ⟨parent, grand, top, hpath, hp, hg⟩ := exists_grand h hc
    obtain ⟨focus, path⟩ := s
    obtain rfl : path = parent :: grand :: top := hpath
    cases hu : grand.sibling.color with
    | red =>
      refine ⟨_, _, step_recolor hp hu, sound_recolor h hp hu, ?_, fun hn => absurd rfl hn⟩
      simp [tree, Path.entries_fill, Frame.entries_fill, Frame.before, Frame.after, Frame.paint, Frame.paintSibling]
    | black =>
      by_cases hs : parent.side = grand.side
      · refine ⟨_, _, step_rotate hp hu hs, sound_rotate h hp hu, ?_, fun _ => rfl⟩
        cases hside : grand.side <;>
          simp [tree, Path.entries_fill, Frame.entries_fill, Frame.before, Frame.after, Frame.paint, hs, hside]
      · obtain ⟨l, e, r, rfl⟩ := Tree.exists_node_of_red h.red
        refine ⟨_, _, step_rotateTwice hp hu hs, sound_rotateTwice h hp hu grand.side, ?_, fun _ => rfl⟩
        cases hside : grand.side <;> cases hside' : parent.side <;>
          simp_all [tree, Path.entries_fill, Frame.entries_fill, Frame.before, Frame.after, Frame.paint, Tree.child,
            Side.opposite, Tree.entries]

/-! ## The whole repair -/

theorem settle_of_none {s : Insertion} (h : s.step = .ok none) : s.settle = .ok ([], s) := by
  rw [settle]
  split <;> simp_all

theorem settle_of_error {s : Insertion} {f : Fault} (h : s.step = .error f) : s.settle = .error f := by
  rw [settle]
  split <;> simp_all

theorem settle_of_some {s t : Insertion} {turn : Turn} (h : s.step = .ok (some (turn, t))) :
    s.settle = t.settle.map fun (turns, u) => (turn :: turns, u) := by
  rw [settle]
  split
  · simp_all
  · simp_all
  · next ht =>
    simp only [h, Except.ok.injEq, Option.some.injEq, Prod.mk.injEq] at ht
    obtain ⟨rfl, rfl⟩ := ht
    cases t.settle <;> rfl

/-- the repair is over where it is over after a turn -/
theorem finish?_of_step {s t : Insertion} {turn : Turn} (h : s.step = .ok (some (turn, t))) : s.finish? = t.finish? := by
  rw [finish?, finish?, settle_of_some h]
  cases t.settle <;> rfl

/-- the repair ends, under a black node, and nothing that it needs is missing -/
theorem settle_sound {s : Insertion} {n : Nat} (h : s.Sound n) :
    ∃ turns t, s.settle = .ok (turns, t) ∧ t.Sound n ∧ Path.topColor t.path = .black ∧
      t.tree.entries = s.tree.entries := by
  induction hl : s.path.length using Nat.strong_induction_on generalizing s with
  | _ k ih =>
    rcases step_sound h with ⟨hs, hc⟩ | ⟨turn, t, hs, ht, he, -⟩
    · exact ⟨[], s, settle_of_none hs, h, hc, rfl⟩
    · obtain ⟨turns, u, hu, hsu, hcu, heu⟩ := ih _ (hl ▸ length_path_step hs) ht rfl
      exact ⟨turn :: turns, u, by rw [settle_of_some hs, hu]; rfl, hsu, hcu, heu.trans he⟩

/-- at the end the tree is red-black, and has as many black nodes on every way down as before, or one more -/
theorem finish?_sound {s : Insertion} {n : Nat} (h : s.Sound n) :
    ∃ root, s.finish? = .ok root ∧ root.color = .black ∧ root.NoRedRed ∧
      (root.BlackHeight n ∨ root.BlackHeight (n + 1)) ∧ root.entries = s.tree.entries := by
  obtain ⟨turns, t, hs, ht, hc, he⟩ := settle_sound h
  obtain ⟨k, hk, hkp⟩ := ht.height
  have hred : t.tree.NoRedRed := (Path.noRedRed_fill _ _).mpr ⟨ht.focus, fun hr => by simp [hc] at hr, ht.path⟩
  have hblack : t.tree.BlackHeight n := (Path.blackHeight_fill _ _ _).mpr ⟨k, hk, hkp⟩
  have hleaf : t.tree ≠ .leaf := Path.fill_ne_leaf (fun hl => by simpa [hl, Tree.color] using ht.red) _
  refine ⟨t.tree.paint .black, ?_, Tree.color_paint_black _, Tree.noRedRed_paint_black hred, ?_, ?_⟩
  · simp only [finish?, hs, bind, Except.bind, Tree.paint?_eq_some hleaf]
  · cases hcol : t.tree.color with
    | red => exact .inr (Tree.blackHeight_paint_black hcol hblack)
    | black => exact .inl (by rwa [Tree.paint_of_color hcol])
  · rw [Tree.entries_paint, he]

/-- a new node at an empty place can be repaired -/
theorem sound_single {p : Path} {n : Nat} (h : (p.fill .leaf).Colored) (hn : (p.fill .leaf).BlackHeight n) (e : Entry) :
    Sound ⟨Tree.single e, p⟩ n := by
  obtain ⟨k, hk, hp⟩ := (Path.blackHeight_fill _ _ _).mp hn
  obtain ⟨-, -, hpath⟩ := (Path.noRedRed_fill _ _).mp h.noRedRed
  have hroot := h.black
  rw [Path.color_fill] at hroot
  obtain rfl : k = 0 := hk
  exact ⟨rfl, ⟨fun _ => ⟨rfl, rfl⟩, trivial, trivial⟩, hpath, ⟨0, ⟨rfl, rfl⟩, hp⟩, hroot⟩

end Insertion

namespace Tree

/-- **Insertion.** Putting a pair into a red-black tree never fails and gives a red-black tree. Between the smaller and the
greater keys, the entry of the key is new, or it is the old one with the new value. -/
theorem insert?_spec {t : Tree} (ht : t.RedBlack) (i : NodeId) (key value : Bytes) :
    ∃ new root, t.insert? i key value = .ok (new, root) ∧ root.RedBlack ∧
      ∃ a b, (∀ e ∈ a, e.key < key) ∧ (∀ e ∈ b, key < e.key) ∧
        ((new = true ∧ t.entries = a ++ b ∧ root.entries = a ++ ⟨i, key, value⟩ :: b) ∨
          ∃ e, new = false ∧ e.key = key ∧ t.entries = a ++ e :: b ∧
            root.entries = a ++ { e with value := value } :: b) := by
  obtain ⟨ha, hb⟩ := Path.bracket_descend ht.ordered (Path.bracket_nil key)
  cases hd : t.descend key [] with
  | mk found path =>
    have hfill : path.fill found = t := by simpa [hd] using fill_descend key t []
    simp only [hd] at ha hb
    subst hfill
    have ho := ht.ordered
    rw [Ordered, Path.entries_fill] at ho
    cases found with
    | leaf =>
      obtain ⟨n, hn⟩ := ht.balanced
      obtain ⟨root, hfin, hcol, hnr, hbh, he⟩ := Insertion.finish?_sound (Insertion.sound_single ht.colored hn ⟨i, key, value⟩)
      have he : root.entries = path.before ++ ⟨i, key, value⟩ :: path.after := by
        rw [he, Insertion.tree, Path.entries_fill]
        simp [single, entries]
      refine ⟨true, root, by simp [insert?, hd, hfin], ⟨hcol, hnr, ?_, ?_⟩, path.before, path.after, ha, hb, .inl ?_⟩
      · rcases hbh with hbh | hbh
        · exact ⟨_, hbh⟩
        · exact ⟨_, hbh⟩
      · rw [Ordered, he]
        exact ordered_insert (by simpa [entries] using ho) ha hb rfl
      · exact ⟨rfl, by simp [Path.entries_fill, entries], he⟩
    | node c l e r =>
      have hkey : e.key = key := descend_key hd
      have ho : (path.before ++ l.entries ++ e :: (r.entries ++ path.after)).Pairwise fun e f => e.key < f.key := by
        simpa [entries] using ho
      obtain ⟨hl, hr⟩ := bracket_of_ordered ho
      rw [hkey] at hl hr
      refine ⟨false, path.fill (node c l { e with value := value } r), by simp [insert?, hd],
        (Path.colored_overwrite ht.colored _).redBlack ?_, path.before ++ l.entries, r.entries ++ path.after, hl, hr,
        .inr ⟨e, rfl, hkey, ?_, ?_⟩⟩
      · rw [Ordered, Path.entries_fill, entries]
        have hab := ho.sublist (List.Sublist.append_left (List.sublist_cons_self e _) _)
        simpa using ordered_insert hab hl hr (e := { e with value := value }) hkey
      · simp [Path.entries_fill, entries]
      · simp [Path.entries_fill, entries]

end Tree

end MeteredStore
