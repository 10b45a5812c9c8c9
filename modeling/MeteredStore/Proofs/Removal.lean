/-
Erasing from a red-black tree gives a red-black tree.

While a black node without children is about to be taken out, the tree is looked at as if it were out already: then the
ways down through the current node are one black node short, and nothing else is wrong (`Short`). A turn moves the
shortage up, to a node which the repair ends by painting it black, or makes up for it (`step_short`). The doomed node, the
order of the entries and the places of all others stay as they are.

Main statements: `unlink?_spec`, a node with at most one child is taken out and the tree stays red-black; `erase?_spec`,
erasing a key takes out exactly its entry.
-/
import MeteredStore.Proofs.Place
import MeteredStore.Tree.Removal

namespace MeteredStore

namespace Removal

/-- what hangs below the path of the current node, the doomed node taken out of it -/
def rest (s : Removal) : Tree := Path.fill s.below.reverse .leaf

/-- the ways down through the current node are one black node short of `n`, and nothing else is wrong, except that a red
current node may have red children: it is about to become black -/
structure Short (s : Removal) (n : Nat) : Prop where
  doomed : s.doomed.color = .black
  lower : (s.rest.paint .black).NoRedRed
  upper : Path.NoRedRed s.above
  join : Path.topColor s.above = .red → s.color = .black
  height : ∃ h, s.rest.BlackHeight h ∧ Path.BlackHeight s.above (h + 1) n
  root : Path.rootColor s.above s.color = .black

/-- a black node without children is about to leave its place short of one black node -/
theorem short_leaf {p : Path} {e : Entry} {n : Nat} (h : (p.fill (.node .black .leaf e .leaf)).Colored)
    (hn : (p.fill (.node .black .leaf e .leaf)).BlackHeight n) : Short ⟨.node .black .leaf e .leaf, [], p⟩ n := by
  obtain ⟨k, hk, hp⟩ := (Path.blackHeight_fill _ _ _).mp hn
  obtain ⟨-, -, hpath⟩ := (Path.noRedRed_fill _ _).mp h.noRedRed
  have hroot := h.black
  rw [Path.color_fill] at hroot
  obtain ⟨j, rfl, rfl, -⟩ := Tree.exists_blackHeight_black hk
  exact ⟨rfl, trivial, hpath, fun _ => rfl, ⟨0, rfl, hp⟩, hroot⟩

/-- nothing is wrong any more, and the walk is at the root -/
structure Whole (s : Removal) (n : Nat) : Prop where
  doomed : s.doomed.color = .black
  above : s.above = []
  noRedRed : s.rest.NoRedRed
  height : s.rest.BlackHeight n
  root : s.color = .black

theorem rest_cons (d : Tree) (f : Frame) (below : List Frame) (above : Path) :
    rest ⟨d, f :: below, above⟩ = f.fill (rest ⟨d, below, above⟩) := by
  simp [rest, Path.fill_append]

theorem rest_append (d : Tree) (p : Path) (below : List Frame) (above : Path) :
    rest ⟨d, p.reverse ++ below, above⟩ = p.fill (rest ⟨d, below, above⟩) := by
  simp [rest, Path.fill_append]

theorem color_rest {s : Removal} (h : s.doomed.color = .black) : s.rest.color = s.color := by
  obtain ⟨d, below, above⟩ := s
  cases below with
  | nil => exact h.symm
  | cons f below => rw [rest_cons, Frame.color_fill]; rfl

/-! ## A red sibling comes up first -/

theorem sink?_red {parent : Frame} {l r : Tree} {e : Entry} (hs : parent.sibling = .node .red l e r) :
    ((parent.paint .red).paintSibling .black).sink? =
      some (⟨parent.side, .red, parent.entry, parent.sibling.child parent.side⟩,
        ⟨parent.side, .black, e, parent.sibling.child parent.side.opposite⟩) := by
  obtain ⟨s, c, e', b⟩ := parent
  obtain rfl : b = .node .red l e r := hs
  cases s <;> rfl

theorem short_lower {s : Removal} {n : Nat} {parent : Frame} {top : Path} {l r : Tree} {e : Entry}
    (h : Short ⟨s.doomed, s.below, parent :: top⟩ n) (hs : parent.sibling = .node .red l e r) (hc : s.color = .black) :
    Short ⟨s.doomed, s.below, ⟨parent.side, .red, parent.entry, parent.sibling.child parent.side⟩ ::
      ⟨parent.side, .black, e, parent.sibling.child parent.side.opposite⟩ :: top⟩ n := by
  obtain ⟨hsp, hcp, htop⟩ := h.upper
  obtain ⟨k, hk, hks, hkt⟩ := h.height
  have hsred : parent.sibling.color = .red := by rw [hs]; rfl
  have hp : parent.color = .black := by
    cases hp : parent.color with
    | black => rfl
    | red => simpa [hsred] using (hcp hp).1
  have hchild := Tree.color_child hsp hsred
  refine ⟨h.doomed, h.lower, ⟨Tree.noRedRed_child hsp _, fun _ => ⟨hchild _, rfl⟩, Tree.noRedRed_child hsp _, by simp, htop⟩,
    fun _ => hc, ⟨k, hk, Tree.blackHeight_child_of_red hks hsred _, Tree.blackHeight_child_of_red hks hsred _, ?_⟩, ?_⟩
  · simpa [Frame.raise, hp] using hkt
  · have := h.root
    simpa [Path.rootColor, hp] using this

/-! ## The sibling gets a red child on its far side -/

/-- a sibling that has a red child can be turned so that its far child is red -/
theorem straighten?_spec {parent : Frame} {h : Nat} (hr : parent.sibling.NoRedRed) (hc : parent.sibling.color = .black)
    (hh : parent.sibling.BlackHeight (h + 1))
    (hred : ¬ ((parent.sibling.child parent.side).color = .black ∧
      (parent.sibling.child parent.side.opposite).color = .black)) :
    ∃ u, straighten? parent = .ok u ∧ u.NoRedRed ∧ u.color = .black ∧ u.BlackHeight (h + 1) ∧
      (u.child parent.side.opposite).color = .red ∧ u.entries = parent.sibling.entries := by
  cases hf : (parent.sibling.child parent.side.opposite).color with
  | red => exact ⟨parent.sibling, by simp [straighten?, hf], hr, hc, hh, hf, rfl⟩
  | black =>
    have hn : (parent.sibling.child parent.side).color = .red := by
      cases hn : (parent.sibling.child parent.side).color with
      | red => rfl
      | black => exact absurd ⟨hn, hf⟩ hred
    obtain ⟨s, c, e, b⟩ := parent
    cases b with
    | leaf => simp [Tree.BlackHeight] at hh
    | node d l eb r =>
      obtain rfl : d = .black := hc
      obtain ⟨-, hl, hr⟩ := hr
      cases s with
      | left =>
        obtain ⟨a, e', b, rfl⟩ := Tree.exists_node_of_red hn
        obtain ⟨hab, ha, hb⟩ := hl
        obtain ⟨ca, cb⟩ := hab rfl
        refine ⟨.node .black a e' (.node .red b eb r), ?_, ⟨by simp, ha, fun _ => ⟨cb, hf⟩, hb, hr⟩, rfl,
          ⟨hh.1.1, hh.1.2, hh.2⟩, rfl, by simp [Tree.entries]⟩
        simp_all [straighten?, Tree.paintChild?, Tree.down, Tree.paint?, Tree.paint, Tree.rotate?, Frame.fill,
          Side.opposite, Tree.child]
      | right =>
        obtain ⟨a, e', b, rfl⟩ := Tree.exists_node_of_red hn
        obtain ⟨hab, ha, hb⟩ := hr
        obtain ⟨ca, cb⟩ := hab rfl
        refine ⟨.node .black (.node .red l eb a) e' b, ?_, ⟨by simp, ⟨fun _ => ⟨hf, ca⟩, hl, ha⟩, hb⟩, rfl,
          ⟨⟨hh.1, hh.2.1⟩, hh.2.2⟩, rfl, by simp [Tree.entries]⟩
        simp_all [straighten?, Tree.paintChild?, Tree.down, Tree.paint?, Tree.paint, Tree.rotate?, Frame.fill,
          Side.opposite, Tree.child]

/-! ## The rest of a turn -/

/-- the state after the last turn of a repair: the parent hangs from a sibling that has taken its colour and its place -/
def lifted (s : Removal) (parent : Frame) (u : Tree) (e : Entry) (top : Path) : Removal :=
  { s with
    below := (⟨parent.side, .black, parent.entry, u.child parent.side⟩ ::
      ⟨parent.side, parent.color, e, (u.child parent.side.opposite).paint .black⟩ :: top : Path).reverse ++ s.below,
    above := [] }

theorem resolve_climb {s : Removal} {lowered : Bool} {parent : Frame} {top : Path} (hs : parent.sibling ≠ .leaf)
    (hc : (parent.sibling.child parent.side).color = .black ∧
      (parent.sibling.child parent.side.opposite).color = .black) :
    s.resolve lowered parent top =
      .ok (.climb lowered, { s with below := parent.paintSibling .red :: s.below, above := top }) := by
  simp [resolve, hs, hc]

theorem resolve_rotate {s : Removal} {lowered : Bool} {parent : Frame} {top : Path} {c : Color} {l r : Tree} {e : Entry}
    (hs : parent.sibling ≠ .leaf)
    (hc : ¬ ((parent.sibling.child parent.side).color = .black ∧
      (parent.sibling.child parent.side.opposite).color = .black))
    (hu : straighten? parent = .ok (.node c l e r))
    (hred : ((Tree.node c l e r).child parent.side.opposite).color = .red) :
    s.resolve lowered parent top =
      .ok (.rotate lowered ((parent.sibling.child parent.side.opposite).color = .black),
        s.lifted parent (.node c l e r) e top) := by
  obtain ⟨side, cp, ep, b⟩ := parent
  simp only [resolve, if_neg hs, if_neg hc, hu]
  cases side with
  | left =>
    obtain ⟨a, e', b, rfl⟩ := Tree.exists_node_of_red hred
    rfl
  | right =>
    obtain ⟨a, e', b, rfl⟩ := Tree.exists_node_of_red hred
    rfl

theorem short_climb {s : Removal} {n : Nat} {parent : Frame} {top : Path} (h : Short ⟨s.doomed, s.below, parent :: top⟩ n)
    (hb : s.color = .black) (hs : parent.sibling.color = .black)
    (hc : (parent.sibling.child parent.side).color = .black ∧
      (parent.sibling.child parent.side.opposite).color = .black) :
    Short ⟨s.doomed, parent.paintSibling .red :: s.below, top⟩ n := by
  obtain ⟨hsp, hcp, htop⟩ := h.upper
  obtain ⟨k, hk, hks, hkt⟩ := h.height
  have hrest : (rest ⟨s.doomed, s.below, parent :: top⟩).color = .black := (color_rest h.doomed).trans hb
  have hlower := h.lower
  rw [Tree.paint_of_color hrest] at hlower
  have hsib : (parent.sibling.paint .red).NoRedRed := by
    cases hsib : parent.sibling with
    | leaf => trivial
    | node d l e r =>
      rw [hsib] at hsp hc
      refine ⟨?_, hsp.2⟩
      intro _
      cases hside : parent.side <;> simp_all [Tree.child, Side.opposite]
  refine ⟨h.doomed, ?_, htop, ?_, ⟨parent.raise k, ?_, ?_⟩, h.root⟩
  · obtain ⟨side, cp, ep, b⟩ := parent
    rw [rest_cons]
    cases side with
    | left => exact ⟨by simp, hlower, hsib⟩
    | right => exact ⟨by simp, hsib, hlower⟩
  · intro hr
    cases hp : parent.color with
    | black => exact hp
    | red => simpa [hr] using (hcp hp).2
  · rw [rest_cons, Frame.blackHeight_fill]
    exact ⟨k, rfl, hk, Tree.blackHeight_paint_red hs hks⟩
  · cases hp : parent.color <;> simpa [Frame.raise, hp] using hkt

theorem whole_lifted {s : Removal} {n : Nat} {parent : Frame} {top : Path} {u : Tree} {e : Entry}
    (h : Short ⟨s.doomed, s.below, parent :: top⟩ n) (hb : s.color = .black) (hu : u.NoRedRed) (huc : u.color = .black)
    (huh : ∀ k, parent.sibling.BlackHeight (k + 1) → u.BlackHeight (k + 1))
    (hfar : (u.child parent.side.opposite).color = .red) : Whole (s.lifted parent u e top) n := by
  obtain ⟨hsp, hcp, htop⟩ := h.upper
  obtain ⟨k, hk, hks, hkt⟩ := h.height
  have hrest : (rest ⟨s.doomed, s.below, parent :: top⟩).color = .black := (color_rest h.doomed).trans hb
  have hlower := h.lower
  rw [Tree.paint_of_color hrest] at hlower
  have hku := huh k hks
  have hnear := Tree.blackHeight_child_of_black hku huc parent.side
  have hfarh := Tree.blackHeight_paint_black hfar (Tree.blackHeight_child_of_black hku huc parent.side.opposite)
  refine ⟨h.doomed, rfl, ?_, ?_, ?_⟩
  · rw [lifted, rest_append]
    refine (Path.noRedRed_fill _ _).mpr ⟨hlower, by simp, Tree.noRedRed_child hu _, by simp,
      Tree.noRedRed_paint_black (Tree.noRedRed_child hu _), fun hr => ⟨Tree.color_paint_black _, (hcp hr).2⟩, htop⟩
  · rw [lifted, rest_append]
    exact (Path.blackHeight_fill _ _ _).mpr ⟨k, hk, hnear, hfarh, hkt⟩
  · rw [← color_rest (s := s.lifted parent u e top) h.doomed, lifted, rest_append, Path.color_fill]
    exact h.root

/-! ## A turn -/

theorem alike_lower {parent : Frame} {top : Path} {c c₁ c₂ : Color} {l r : Tree} {e : Entry}
    (hs : parent.sibling = .node c l e r) :
    Path.Alike (⟨parent.side, c₁, parent.entry, parent.sibling.child parent.side⟩ ::
      ⟨parent.side, c₂, e, parent.sibling.child parent.side.opposite⟩ :: top) (parent :: top) := by
  obtain ⟨side, cp, ep, b⟩ := parent
  obtain rfl : b = .node c l e r := hs
  cases side <;>
    simp [Path.Alike, Path.before, Path.after, Frame.before, Frame.after, Tree.child, Side.opposite, Tree.entries]

theorem alike_climb (s : Removal) (parent : Frame) (top : Path) (c : Color) :
    Path.Alike (place ⟨s.doomed, parent.paintSibling c :: s.below, top⟩) (s.below.reverse ++ parent :: top) := by
  obtain ⟨side, cp, ep, b⟩ := parent
  simp only [place, List.reverse_cons, List.append_assoc, List.singleton_append]
  apply Path.Alike.append_left
  cases side <;> simp [Path.Alike, Path.before, Path.after, Frame.before, Frame.after, Frame.paintSibling]

theorem alike_lifted (s : Removal) {parent : Frame} {top : Path} {c : Color} {l r : Tree} {e : Entry}
    (he : (Tree.node c l e r).entries = parent.sibling.entries) :
    Path.Alike (s.lifted parent (.node c l e r) e top).place (s.below.reverse ++ parent :: top) := by
  obtain ⟨side, cp, ep, b⟩ := parent
  simp only [place, lifted, List.reverse_append, List.reverse_reverse, List.append_nil]
  apply Path.Alike.append_left
  simp only at he
  cases side <;>
    simp [Path.Alike, Path.before, Path.after, Frame.before, Frame.after, Tree.child, Side.opposite, ← he, Tree.entries]

/-- with a sibling that is not red, the rest of a turn moves the shortage up or makes up for it -/
theorem resolve_short {s : Removal} {n : Nat} {parent : Frame} {top : Path} (lowered : Bool)
    (h : Short ⟨s.doomed, s.below, parent :: top⟩ n) (hb : s.color = .black) (hs : parent.sibling.color = .black) :
    ∃ turn t, s.resolve lowered parent top = .ok (turn, t) ∧ (t.Short n ∨ t.Whole n) ∧ t.doomed = s.doomed ∧
      Path.Alike t.place (s.below.reverse ++ parent :: top) := by
  obtain ⟨k, hk, hks, hkt⟩ := h.height
  have hleaf : parent.sibling ≠ .leaf := fun hl => by simp [hl, Tree.BlackHeight] at hks
  by_cases hc : (parent.sibling.child parent.side).color = .black ∧
      (parent.sibling.child parent.side.opposite).color = .black
  · exact ⟨_, _, resolve_climb hleaf hc, .inl (short_climb h hb hs hc), rfl, alike_climb s parent top .red⟩
  · obtain ⟨u, hu, hur, huc, huh, hfar, hue⟩ := straighten?_spec h.upper.1 hs hks hc
    cases u with
    | leaf => simp [Tree.BlackHeight] at huh
    | node c l e r =>
      refine ⟨_, _, resolve_rotate hleaf hc hu hfar, .inr ?_, rfl, alike_lifted s hue⟩
      refine whole_lifted h hb hur huc ?_ hfar
      intro j hj
      have : j + 1 = k + 1 := (Tree.eq_leftBlacks hj).trans (Tree.eq_leftBlacks hks).symm
      exact this ▸ huh

/-- every turn moves the shortage up or makes up for it -/
theorem step_short {s : Removal} {n : Nat} (h : s.Short n) :
    (s.step = .ok none ∧ (s.color = .red ∨ s.above = [])) ∨
      ∃ turn t, s.step = .ok (some (turn, t)) ∧ (t.Short n ∨ t.Whole n) ∧ t.doomed = s.doomed ∧
        Path.Alike t.place s.place := by
  obtain ⟨d, below, above⟩ := s
  cases hc : color ⟨d, below, above⟩ with
  | red => exact .inl ⟨by simp [step, hc], .inl rfl⟩
  | black =>
    cases above with
    | nil => exact .inl ⟨by simp [step, hc], .inr rfl⟩
    | cons parent top =>
      right
      cases hs : parent.sibling.color with
      | black =>
        obtain ⟨turn, t, ht, hst, hd, hp⟩ := resolve_short false h hc hs
        exact ⟨turn, t, by simp [step, hc, hs, ht, Except.map], hst, hd, hp⟩
      | red =>
        obtain ⟨l, e, r, hnode⟩ := Tree.exists_node_of_red hs
        have hblack : (parent.sibling.child parent.side).color = .black := Tree.color_child h.upper.1 hs _
        have hlow := short_lower (s := ⟨d, below, parent :: top⟩) h hnode hc
        obtain ⟨turn, t, ht, hst, hd, hp⟩ := resolve_short true hlow hc hblack
        refine ⟨turn, t, ?_, hst, hd, hp.trans ((alike_lower hnode).append_left _)⟩
        simp only [step, hc, hs, if_true, sink?_red hnode, ht, Except.map]

/-! ## The whole repair -/

/-- nothing is left to do once the shortage is made up for -/
theorem step_whole {s : Removal} {n : Nat} (h : s.Whole n) : s.step = .ok none := by
  obtain ⟨d, below, above⟩ := s
  obtain rfl : above = [] := h.above
  have hc := h.root
  simp only [step, hc]

theorem settle_of_none {s : Removal} (h : s.step = .ok none) : s.settle = .ok ([], s) := by
  rw [settle]
  split <;> simp_all

theorem settle_of_error {s : Removal} {f : Fault} (h : s.step = .error f) : s.settle = .error f := by
  rw [settle]
  split <;> simp_all

theorem settle_of_some {s t : Removal} {turn : Turn} (h : s.step = .ok (some (turn, t))) :
    s.settle = t.settle.map fun (turns, u) => (turn :: turns, u) := by
  rw [settle]
  split
  · simp_all
  · simp_all
  · next ht =>
    simp only [h, Except.ok.injEq, Option.some.injEq, Prod.mk.injEq] at ht
    obtain ⟨rfl, rfl⟩ := ht
    cases t.settle <;> rfl

theorem finish?_of_none {s : Removal} (h : s.step = .ok none) : s.finish? = .ok s.blacken := by
  rw [finish?, settle_of_none h]
  rfl

/-- the repair is over where it is over after a turn -/
theorem finish?_of_step {s t : Removal} {turn : Turn} (h : s.step = .ok (some (turn, t))) : s.finish? = t.finish? := by
  rw [finish?, finish?, settle_of_some h]
  cases t.settle <;> rfl

/-- the repair ends, at a red node or at the root, and nothing that it needs is missing -/
theorem settle_short {s : Removal} {n : Nat} (h : s.Short n ∨ s.Whole n) :
    ∃ turns t, s.settle = .ok (turns, t) ∧ ((t.Short n ∧ (t.color = .red ∨ t.above = [])) ∨ t.Whole n) ∧
      t.doomed = s.doomed ∧ Path.Alike t.place s.place := by
  induction hm : s.measure using Nat.strong_induction_on generalizing s with
  | _ k ih =>
    rcases h with h | h
    · rcases step_short h with ⟨hs, hc⟩ | ⟨turn, t, hs, ht, hd, hp⟩
      · exact ⟨[], s, settle_of_none hs, .inl ⟨h, hc⟩, rfl, rfl, rfl⟩
      · obtain ⟨turns, u, hu, hsu, hdu, hpu⟩ := ih _ (hm ▸ measure_step hs) ht rfl
        exact ⟨turn :: turns, u, by rw [settle_of_some hs, hu]; rfl, hsu, hdu.trans hd, hpu.trans hp⟩
    · exact ⟨[], s, settle_of_none (step_whole h), .inr h, rfl, rfl, rfl⟩

theorem place_blacken (s : Removal) : Path.Alike s.blacken.place s.place := by
  obtain ⟨d, below, above⟩ := s
  cases below with
  | nil => exact ⟨rfl, rfl⟩
  | cons f below =>
    simp only [place, blacken, List.reverse_cons, List.append_assoc, List.singleton_append]
    apply Path.Alike.append_left
    simp [Path.Alike, Path.before, Path.after, Frame.before, Frame.after, Frame.paint]

/-- the end of the repair, the doomed node taken out: the current node is black -/
theorem fill_place_blacken (s : Removal) : s.blacken.place.fill .leaf = s.above.fill (s.rest.paint .black) := by
  obtain ⟨d, below, above⟩ := s
  cases below with
  | nil => rfl
  | cons f below =>
    obtain ⟨side, c, e, b⟩ := f
    simp only [blacken, place, Path.fill_append, rest_cons]
    congr 1
    simp only [List.reverse_cons, Path.fill_append]
    cases side <;> rfl

theorem doomed_blacken {s : Removal} (h : s.doomed.color = .black) : s.blacken.doomed = s.doomed := by
  obtain ⟨d, below, above⟩ := s
  cases below with
  | nil => exact Tree.paint_of_color h
  | cons f below => rfl

/-- a shortage below a red node is made up for when the node turns black; a shortage of the whole tree is none -/
theorem fill_of_short {s : Removal} {n : Nat} (h : s.Short n) (hc : s.color = .red ∨ s.above = []) :
    (s.above.fill (s.rest.paint .black)).color = .black ∧ (s.above.fill (s.rest.paint .black)).NoRedRed ∧
      ∃ m, (s.above.fill (s.rest.paint .black)).BlackHeight m ∧ (m = n ∨ m + 1 = n) := by
  obtain ⟨k, hk, hkn⟩ := h.height
  refine ⟨?_, ?_, ?_⟩
  · have hroot := h.root
    rw [Path.color_fill, Tree.color_paint_black]
    cases hu : s.above with
    | nil => rfl
    | cons f p => rw [hu] at hroot; exact hroot
  · exact (Path.noRedRed_fill _ _).mpr ⟨h.lower, fun _ => Tree.color_paint_black _, h.upper⟩
  · cases hr : s.color with
    | red =>
      have hkr := Tree.blackHeight_paint_black ((color_rest h.doomed).trans hr) hk
      exact ⟨n, (Path.blackHeight_fill _ _ _).mpr ⟨_, hkr, hkn⟩, .inl rfl⟩
    | black =>
      have habove : s.above = [] := hc.resolve_left fun hr' => by simp [hr] at hr'
      rw [habove] at hkn ⊢
      rw [Tree.paint_of_color ((color_rest h.doomed).trans hr)]
      exact ⟨k, hk, .inr hkn⟩

theorem fill_of_whole {s : Removal} {n : Nat} (h : s.Whole n) :
    (s.above.fill (s.rest.paint .black)).color = .black ∧ (s.above.fill (s.rest.paint .black)).NoRedRed ∧
      ∃ m, (s.above.fill (s.rest.paint .black)).BlackHeight m ∧ (m = n ∨ m + 1 = n) := by
  have hc := (color_rest h.doomed).trans h.root
  rw [h.above, Path.fill_nil, Tree.paint_of_color hc]
  exact ⟨hc, h.noRedRed, n, h.height, .inl rfl⟩

/-- at the end nothing is wrong with the tree from which the doomed node is taken out -/
theorem finish?_short {s : Removal} {n : Nat} (h : s.Short n) :
    ∃ t, s.finish? = .ok t ∧ t.doomed = s.doomed ∧ Path.Alike t.place s.place ∧ (t.place.fill .leaf).color = .black ∧
      (t.place.fill .leaf).NoRedRed ∧ ∃ m, (t.place.fill .leaf).BlackHeight m ∧ (m = n ∨ m + 1 = n) := by
  obtain ⟨turns, t, hs, ht, hd, hp⟩ := settle_short (.inl h)
  have hdoomed : t.doomed.color = .black := by rw [hd]; exact h.doomed
  refine ⟨t.blacken, by simp [finish?, hs, Except.map], (doomed_blacken hdoomed).trans hd, (place_blacken t).trans hp, ?_⟩
  rw [fill_place_blacken]
  rcases ht with ⟨ht, hc⟩ | ht
  · exact fill_of_short ht hc
  · exact fill_of_whole ht

end Removal

namespace Tree

/-! ## Taking out a node -/

theorem onlyChild_eq (c : Color) (l r : Tree) (e : Entry) :
    (node c l e r).onlyChild = l ∨ (node c l e r).onlyChild = r := by
  cases l with
  | leaf => exact .inr rfl
  | node cl ll el rl => exact .inl rfl

theorem entries_onlyChild {c : Color} {l r : Tree} {e : Entry} (h : l = leaf ∨ r = leaf) :
    (node c l e r).onlyChild.entries = l.entries ++ r.entries := by
  cases l with
  | leaf => rfl
  | node cl ll el rl =>
    obtain rfl : r = leaf := h.resolve_left (by simp)
    simp [onlyChild, entries]

/-- a tree without black nodes on its ways down is a single red node or none -/
theorem eq_leaf_of_black {t : Tree} (hc : t.color = .black) (hh : t.BlackHeight 0) : t = leaf := by
  cases t with
  | leaf => rfl
  | node c l e r =>
    obtain rfl : c = .black := hc
    exact hh.elim

/-- a black node with at most one child, which is not red, has no child at all -/
theorem children_of_black {l r : Tree} {e : Entry} {k : Nat} (h : l = leaf ∨ r = leaf)
    (hk : (node .black l e r).BlackHeight (k + 1)) (hc : (node .black l e r).onlyChild.color = .black) :
    k = 0 ∧ l = leaf ∧ r = leaf := by
  rcases h with rfl | rfl
  · obtain rfl : k = 0 := hk.1
    exact ⟨rfl, rfl, eq_leaf_of_black hc hk.2⟩
  · obtain rfl : k = 0 := hk.2
    cases l with
    | leaf => exact ⟨rfl, rfl, rfl⟩
    | node cl ll el rl => exact ⟨rfl, eq_leaf_of_black hc hk.1, rfl⟩

/-- **Taking out a node.** A node with at most one child can be taken out of a tree that keeps the colour rules; they are
kept, and so are all other entries. -/
theorem unlink?_spec {c : Color} {l r : Tree} {e : Entry} {path : Path} (h : l = leaf ∨ r = leaf)
    (ht : (path.fill (node c l e r)).Colored) :
    ∃ root, (node c l e r).unlink? path = .ok (node c l e r, root) ∧ root.Colored ∧
      root.entries = path.before ++ (l.entries ++ r.entries) ++ path.after := by
  obtain ⟨n, k, hk, hp⟩ := (Path.balanced_fill _ _).mp ht.balanced
  obtain ⟨hred, htop, hpath⟩ := (Path.noRedRed_fill _ _).mp ht.noRedRed
  have hroot := ht.black
  rw [Path.color_fill] at hroot
  rw [← entries_onlyChild (c := c) (e := e) h]
  have hchild : (node c l e r).onlyChild.NoRedRed := by
    rcases onlyChild_eq c l r e with ho | ho <;> rw [ho]
    · exact hred.2.1
    · exact hred.2.2
  cases c with
  | red =>
    -- a red node is not the root, and its child, if any, is black
    have hblack : (node .red l e r).onlyChild.color = .black := by
      rcases onlyChild_eq .red l r e with ho | ho <;> rw [ho]
      · exact (hred.1 rfl).1
      · exact (hred.1 rfl).2
    have hheight : (node .red l e r).onlyChild.BlackHeight k := by
      rcases onlyChild_eq .red l r e with ho | ho <;> rw [ho]
      · exact hk.1
      · exact hk.2
    refine ⟨path.fill (node .red l e r).onlyChild, by simp [unlink?], ⟨?_, ?_, ?_⟩, Path.entries_fill _ _⟩
    · have hne : path ≠ [] := fun hn => by simp [hn, Path.rootColor, color] at hroot
      rw [Path.color_fill, Path.rootColor_congr hne]
      exact hroot
    · exact (Path.noRedRed_fill _ _).mpr ⟨hchild, fun _ => hblack, hpath⟩
    · exact (Path.balanced_fill _ _).mpr ⟨n, k, hheight, hp⟩
  | black =>
    obtain ⟨j, rfl, -⟩ := exists_blackHeight_black hk
    cases hc : (node .black l e r).onlyChild.color with
    | red =>
      -- the red child turns black and takes the place
      have hheight : (node .black l e r).onlyChild.BlackHeight j := by
        rcases onlyChild_eq .black l r e with ho | ho <;> rw [ho]
        · exact hk.1
        · exact hk.2
      refine ⟨path.fill ((node .black l e r).onlyChild.paint .black), ?_, ⟨?_, ?_, ?_⟩, ?_⟩
      · simp [unlink?, hc]
      · rw [Path.color_fill, color_paint_black]
        exact hroot
      · exact (Path.noRedRed_fill _ _).mpr ⟨noRedRed_paint_black hchild, fun _ => color_paint_black _, hpath⟩
      · exact (Path.balanced_fill _ _).mpr ⟨n, _, blackHeight_paint_black hc hheight, hp⟩
      · rw [Path.entries_fill, entries_paint]
    | black =>
      obtain ⟨rfl, rfl, rfl⟩ := children_of_black h hk hc
      have hn := (Path.blackHeight_fill _ _ _).mpr ⟨_, hk, hp⟩
      obtain ⟨t, hfin, hd, hplace, hcol, hnr, m, hm, -⟩ := Removal.finish?_short (Removal.short_leaf ht hn)
      refine ⟨t.place.fill leaf, ?_, ⟨hcol, hnr, m, hm⟩, ?_⟩
      · simp [unlink?, onlyChild, color, hfin, hd]
      · rw [Path.entries_fill, hplace.1, hplace.2]
        rfl

/-! ## Choosing the node -/

/-- the leftmost node has no left child, and everything else is to the right of its place -/
theorem leftmost_spec {t : Tree} (ht : t ≠ leaf) (p : Path) :
    ∃ c e r q, t.leftmost p = (node c leaf e r, q ++ p) ∧ Path.before q = [] := by
  fun_induction leftmost t p with
  | case1 => exact absurd rfl ht
  | case2 => exact ⟨_, _, _, [], rfl, rfl⟩
  | case3 =>
    rename_i ih
    obtain ⟨c, e, r, q, hq, hb⟩ := ih (by simp)
    refine ⟨c, e, r, q ++ [_], by rw [hq, List.append_assoc, List.singleton_append], ?_⟩
    rw [Path.before_append, hb]
    rfl

/-- the node to take out has at most one child. It is the top node, or the next one in order, whose pair is written over the
top one -/
theorem doom_spec {c : Color} {l r : Tree} {e : Entry} {path : Path} (ht : (path.fill (node c l e r)).Colored) :
    ∃ d ld s rd place, (node c l e r).doom path = (node d ld s rd, place) ∧ (ld = leaf ∨ rd = leaf) ∧
      (place.fill (node d ld s rd)).Colored ∧
      ((s = e ∧ place.before ++ (ld.entries ++ rd.entries) ++ place.after =
          path.before ++ l.entries ++ (r.entries ++ path.after)) ∨
        ∃ rest, r.entries = s :: rest ∧ place.before ++ (ld.entries ++ rd.entries) ++ place.after =
          path.before ++ l.entries ++ { e with key := s.key, value := s.value } :: (rest ++ path.after)) := by
  cases l with
  | leaf => exact ⟨c, leaf, e, r, path, rfl, .inl rfl, ht, .inl ⟨rfl, by simp [entries]⟩⟩
  | node cl ll el rl =>
    cases r with
    | leaf => exact ⟨c, _, e, leaf, path, rfl, .inr rfl, ht, .inl ⟨rfl, by simp [entries]⟩⟩
    | node cr lr er rr =>
      obtain ⟨d, s, rd, below, hlm, hb⟩ := leftmost_spec (t := node cr lr er rr) (by simp) []
      rw [List.append_nil] at hlm
      have hfill := fill_leftmost (node cr lr er rr) []
      rw [hlm] at hfill
      refine ⟨d, leaf, s, rd, _, by simp only [doom, hlm]; rfl, .inl rfl, ?_, .inr ⟨rd.entries ++ below.after, ?_, ?_⟩⟩
      · rw [Path.fill_append, hfill]
        exact Path.colored_overwrite ht _
      · rw [← Path.fill_nil (node cr lr er rr), ← hfill, Path.entries_fill, hb]
        simp [entries]
      · simp [Path.before_append, Path.after_append, hb, Path.before, Path.after, Frame.before, Frame.after, entries]

/-! ## Erasing a key -/

/-- what erasing a key does to the entries: the entry of the key goes with its node, or it takes over the pair of the next
entry, and the node of that one goes; `d` is the entry of the node that goes -/
inductive Erased (key : Bytes) (d : Entry) : List Entry → List Entry → Prop where
  | here {a b : List Entry} : d.key = key → Erased key d (a ++ d :: b) (a ++ b)
  | next {a b : List Entry} {e : Entry} : e.key = key →
      Erased key d (a ++ e :: d :: b) (a ++ { e with key := d.key, value := d.value } :: b)

/-- **Erasure.** Erasing a key from a red-black tree never fails. An absent key changes nothing; for a key that is present,
the tree stays red-black and loses the entry of the key, and nothing else. What hung below the node that goes, on one side
at most, stays in the tree. -/
theorem erase?_spec {t : Tree} (ht : t.RedBlack) (key : Bytes) :
    (t.erase? key = .ok none ∧ ∀ e ∈ t.entries, e.key ≠ key) ∨
      ∃ c l d r root, t.erase? key = .ok (some (node c l d r, root)) ∧ root.RedBlack ∧
        Erased key d t.entries root.entries ∧ (∀ e ∈ l.entries ++ r.entries, e ∈ root.entries) ∧ (l = leaf ∨ r = leaf) := by
  obtain ⟨ha, hb⟩ := Path.bracket_descend ht.ordered (Path.bracket_nil key)
  cases hd : t.descend key [] with
  | mk found path =>
    have hfill : path.fill found = t := by simpa [hd] using fill_descend key t []
    simp only [hd] at ha hb
    subst hfill
    have ho := ht.ordered
    rw [Ordered, Path.entries_fill] at ho
    cases found with
    | leaf =>
      refine .inl ⟨by simp only [erase?, hd], ?_⟩
      intro e he hk
      simp only [Path.entries_fill, entries, List.append_nil, List.mem_append] at he
      rcases he with he | he
      · exact Bytes.lt_irrefl key (hk ▸ ha e he)
      · exact Bytes.lt_irrefl key (hk ▸ hb e he)
    | node c l e r =>
      right
      have hkey : e.key = key := descend_key hd
      obtain ⟨d, ld, s, rd, place, hdoom, hone, hcol, he⟩ := doom_spec ht.colored
      obtain ⟨root, hun, hroot, hre⟩ := unlink?_spec hone hcol
      have ho : (path.before ++ l.entries ++ e :: (r.entries ++ path.after)).Pairwise fun e f => e.key < f.key := by
        simpa [entries] using ho
      have hte : (path.fill (node c l e r)).entries = path.before ++ l.entries ++ e :: (r.entries ++ path.after) := by
        simp [Path.entries_fill, entries]
      refine ⟨d, ld, s, rd, root, by simp only [erase?, hd, hdoom, hun, Except.map], hroot.redBlack ?_, ?_, ?_, hone⟩
      · rw [Ordered, hre]
        rcases he with ⟨rfl, he⟩ | ⟨rest, hr, he⟩
        · rw [he]
          exact ho.sublist (List.Sublist.append_left (List.sublist_cons_self _ _) _)
        · rw [he]
          rw [hr] at ho
          have hs := bracket_of_ordered (a := path.before ++ l.entries ++ [e]) (e := s) (b := rest ++ path.after)
            (by simpa using ho)
          refine ordered_insert (ho.sublist ?_) (fun f hf => hs.1 f (List.mem_append_left _ hf)) hs.2 rfl
          exact List.Sublist.append_left ((List.sublist_cons_self s _).trans (List.sublist_cons_self e _)) _
      · rw [hre, hte]
        rcases he with ⟨rfl, he⟩ | ⟨rest, hr, he⟩
        · rw [he]
          exact .here hkey
        · rw [he, hr]
          exact .next hkey
      · intro f hf
        rw [hre]
        exact List.mem_append_left _ (List.mem_append_right _ hf)

end Tree

end MeteredStore
