/-
What a tree and a place in it have to do with each other.

A path is a tree with a hole. Its own share of each property of the whole tree is stated on the path alone: the entries on
either side of the hole (`before`, `after`), the number of black nodes that the frames add (`BlackHeight`), the reds among
the frames (`NoRedRed`). The lemmas named `_fill` put the two shares together, so a repair that changes a few frames has
only these frames to account for.

Main statements: `entries_fill`, `noRedRed_fill`, `blackHeight_fill`, `color_fill`; `bracket_descend`, a search leaves
smaller keys on the left of its place and greater ones on the right.
-/
import Mathlib.Tactic
import MeteredStore.Tree.Balance
import MeteredStore.Tree.Rotation

namespace MeteredStore

namespace Tree

/-! ## Recolouring the top -/

@[simp] theorem color_node (c : Color) (l r : Tree) (e : Entry) : (node c l e r).color = c := rfl

@[simp] theorem color_paint_black (t : Tree) : (t.paint .black).color = .black := by cases t <;> rfl

theorem noRedRed_paint_black {t : Tree} (h : t.NoRedRed) : (t.paint .black).NoRedRed := by
  cases t with
  | leaf => trivial
  | node c l e r => exact ⟨by simp, h.2⟩

/-- a red top turned black adds one to every way down -/
theorem blackHeight_paint_black {t : Tree} {h : Nat} (hr : t.color = .red) (ht : t.BlackHeight h) :
    (t.paint .black).BlackHeight (h + 1) := by
  cases t with
  | leaf => simp [color] at hr
  | node c l e r => cases c <;> simp_all [color, paint, BlackHeight]

/-- a black top turned red takes one from every way down -/
theorem blackHeight_paint_red {t : Tree} {h : Nat} (hb : t.color = .black) (ht : t.BlackHeight (h + 1)) :
    (t.paint .red).BlackHeight h := by
  cases t with
  | leaf => simp [BlackHeight] at ht
  | node c l e r => cases c <;> simp_all [color, paint, BlackHeight]

theorem paint?_eq_some {t : Tree} (h : t ≠ leaf) (c : Color) : t.paint? c = some (t.paint c) := by
  cases t with
  | leaf => exact absurd rfl h
  | node d l e r => rfl

theorem paint_of_color {t : Tree} {c : Color} (h : t.color = c) : t.paint c = t := by
  cases t with
  | leaf => rfl
  | node d l e r => rw [← h]; rfl

theorem exists_node_of_red {t : Tree} (h : t.color = .red) : ∃ l e r, t = node .red l e r := by
  cases t with
  | leaf => simp [color] at h
  | node c l e r => exact ⟨l, e, r, by rw [show c = .red from h]⟩

/-! ## Children -/

theorem down_node (s : Side) (c : Color) (l r : Tree) (e : Entry) :
    (node c l e r).down s = some (⟨s, c, e, (node c l e r).child s.opposite⟩, (node c l e r).child s) := by
  cases s <;> rfl

theorem noRedRed_child {t : Tree} (h : t.NoRedRed) (s : Side) : (t.child s).NoRedRed := by
  cases t with
  | leaf => trivial
  | node c l e r => cases s <;> [exact h.2.1; exact h.2.2]

theorem color_child {t : Tree} (h : t.NoRedRed) (hr : t.color = .red) (s : Side) : (t.child s).color = .black := by
  cases t with
  | leaf => rfl
  | node c l e r => cases s <;> [exact (h.1 hr).1; exact (h.1 hr).2]

theorem blackHeight_child_of_red {t : Tree} {h : Nat} (ht : t.BlackHeight h) (hr : t.color = .red) (s : Side) :
    (t.child s).BlackHeight h := by
  obtain ⟨l, e, r, rfl⟩ := exists_node_of_red hr
  cases s <;> [exact ht.1; exact ht.2]

theorem blackHeight_child_of_black {t : Tree} {h : Nat} (ht : t.BlackHeight (h + 1)) (hb : t.color = .black) (s : Side) :
    (t.child s).BlackHeight h := by
  cases t with
  | leaf => simp [BlackHeight] at ht
  | node c l e r =>
    obtain rfl : c = .black := hb
    cases s <;> [exact ht.1; exact ht.2]

/-- below a black node the ways down pass one black node less -/
theorem exists_blackHeight_black {l r : Tree} {e : Entry} {n : Nat} (h : (node .black l e r).BlackHeight n) :
    ∃ k, n = k + 1 ∧ l.BlackHeight k ∧ r.BlackHeight k := by
  cases n with
  | zero => exact h.elim
  | succ k => exact ⟨k, rfl, h⟩

theorem sublist_child (t : Tree) (s : Side) : (t.child s).entries.Sublist t.entries := by
  cases t with
  | leaf => exact List.Sublist.refl _
  | node c l e r =>
    cases s with
    | left => exact List.sublist_append_left _ _
    | right => exact (List.sublist_cons_self _ _).trans (List.sublist_append_right _ _)

theorem mem_of_topId {t : Tree} {i : NodeId} (h : t.topId = some i) : i ∈ t.entries.map Entry.id := by
  cases t with
  | leaf => simp [topId] at h
  | node c l e r =>
    obtain rfl : e.id = i := by simpa [topId] using h
    simp [entries]

/-! ## The colour rules -/

/-- what a red-black tree owes to its colours: the root is black, no red node has a red child, and every way down passes as
many black nodes -/
structure Colored (t : Tree) : Prop where
  black : t.color = .black
  noRedRed : t.NoRedRed
  balanced : ∃ n, t.BlackHeight n

theorem RedBlack.colored {t : Tree} (h : t.RedBlack) : t.Colored := ⟨h.black, h.noRedRed, h.balanced⟩

theorem Colored.redBlack {t : Tree} (h : t.Colored) (ho : t.Ordered) : t.RedBlack :=
  ⟨h.black, h.noRedRed, h.balanced, ho⟩

/-! ## Entries in order -/

/-- putting an entry between smaller and greater ones keeps the order -/
theorem ordered_insert {key : Bytes} {a b : List Entry} (h : (a ++ b).Pairwise fun e f => e.key < f.key)
    (ha : ∀ e ∈ a, e.key < key) (hb : ∀ e ∈ b, key < e.key) {e : Entry} (he : e.key = key) :
    (a ++ e :: b).Pairwise fun e f => e.key < f.key := by
  obtain ⟨h₁, h₂, h₃⟩ := List.pairwise_append.mp h
  refine List.pairwise_append.mpr ⟨h₁, List.pairwise_cons.mpr ⟨fun f hf => he ▸ hb f hf, h₂⟩, ?_⟩
  intro f hf g hg
  rcases List.mem_cons.mp hg with rfl | hg
  · exact he ▸ ha f hf
  · exact h₃ f hf g hg

/-- an entry stands between the smaller and the greater ones -/
theorem bracket_of_ordered {a b : List Entry} {e : Entry} (h : (a ++ e :: b).Pairwise fun e f => e.key < f.key) :
    (∀ f ∈ a, f.key < e.key) ∧ ∀ f ∈ b, e.key < f.key := by
  obtain ⟨-, h₂, h₃⟩ := List.pairwise_append.mp h
  exact ⟨fun f hf => h₃ f hf e List.mem_cons_self, (List.pairwise_cons.mp h₂).1⟩

end Tree

namespace Frame

/-- the entries that a frame has to the left of its hole -/
def before (f : Frame) : List Entry :=
  match f.side with
  | .left => []
  | .right => f.sibling.entries ++ [f.entry]

/-- the entries that a frame has to the right of its hole -/
def after (f : Frame) : List Entry :=
  match f.side with
  | .left => f.entry :: f.sibling.entries
  | .right => []

theorem entries_fill (f : Frame) (t : Tree) : (f.fill t).entries = f.before ++ t.entries ++ f.after := by
  obtain ⟨s, c, e, b⟩ := f
  cases s <;> simp [fill, before, after, Tree.entries]

theorem color_fill (f : Frame) (t : Tree) : (f.fill t).color = f.color := by
  obtain ⟨s, c, e, b⟩ := f
  cases s <;> rfl

theorem fill_ne_leaf (f : Frame) (t : Tree) : f.fill t ≠ .leaf := by
  obtain ⟨s, c, e, b⟩ := f
  cases s <;> simp [fill]

theorem noRedRed_fill (f : Frame) (t : Tree) :
    (f.fill t).NoRedRed ↔
      t.NoRedRed ∧ f.sibling.NoRedRed ∧ (f.color = .red → t.color = .black ∧ f.sibling.color = .black) := by
  obtain ⟨s, c, e, b⟩ := f
  cases s <;> simp only [fill, Tree.NoRedRed] <;> tauto

/-- the black nodes on a way down through a frame, given those below it -/
def raise (f : Frame) (h : Nat) : Nat :=
  match f.color with
  | .red => h
  | .black => h + 1

theorem blackHeight_fill (f : Frame) (t : Tree) (n : Nat) :
    (f.fill t).BlackHeight n ↔ ∃ h, f.raise h = n ∧ t.BlackHeight h ∧ f.sibling.BlackHeight h := by
  obtain ⟨s, c, e, b⟩ := f
  cases c with
  | red => cases s <;> simp only [fill, raise, Tree.BlackHeight, exists_eq_left, and_comm]
  | black =>
    cases n with
    | zero => cases s <;> simp [fill, raise, Tree.BlackHeight]
    | succ n =>
      cases s <;> simp only [fill, raise, Tree.BlackHeight, Nat.add_right_cancel_iff, exists_eq_left, and_comm]

end Frame

namespace Path

/-- the entries to the left of the hole -/
def before : Path → List Entry
  | [] => []
  | f :: p => before p ++ f.before

/-- the entries to the right of the hole -/
def after : Path → List Entry
  | [] => []
  | f :: p => f.after ++ after p

/-- colour of the node above the hole; above the root there is none, which counts as black -/
def topColor : Path → Color
  | [] => .black
  | f :: _ => f.color

/-- colour of the root, when a tree with a top of colour `c` hangs in the hole -/
def rootColor : Path → Color → Color
  | [], c => c
  | f :: p, _ => rootColor p f.color

/-- no red frame has a red sibling in it or a red frame around it -/
def NoRedRed : Path → Prop
  | [] => True
  | f :: p => f.sibling.NoRedRed ∧ (f.color = .red → f.sibling.color = .black ∧ topColor p = .black) ∧ NoRedRed p

/-- with `h` black nodes on every way down in the hole, every way down passes `n` -/
def BlackHeight : Path → Nat → Nat → Prop
  | [], h, n => h = n
  | f :: p, h, n => f.sibling.BlackHeight h ∧ BlackHeight p (f.raise h) n

@[simp] theorem topColor_cons (f : Frame) (p : Path) : topColor (f :: p) = f.color := rfl

/-! ## A tree in its place -/

theorem entries_fill (p : Path) (t : Tree) : (p.fill t).entries = before p ++ t.entries ++ after p := by
  induction p generalizing t with
  | nil => simp [before, after]
  | cons f p ih => simp [ih, Frame.entries_fill, before, after]

theorem before_append (p q : Path) : before (p ++ q) = before q ++ before p := by
  induction p with
  | nil => simp [before]
  | cons f p ih => simp [before, ih]

theorem after_append (p q : Path) : after (p ++ q) = after p ++ after q := by
  induction p with
  | nil => simp [after]
  | cons f p ih => simp [after, ih]

/-- the same entries on either side of the hole -/
def Alike (p q : Path) : Prop := before p = before q ∧ after p = after q

theorem Alike.trans {p q r : Path} (h : Alike p q) (k : Alike q r) : Alike p r := ⟨h.1.trans k.1, h.2.trans k.2⟩

/-- frames around the hole do not tell two paths apart -/
theorem Alike.append_left {p q : Path} (h : Alike p q) (r : Path) : Alike (r ++ p) (r ++ q) := by
  constructor
  · rw [before_append, before_append, h.1]
  · rw [after_append, after_append, h.2]

theorem color_fill (p : Path) (t : Tree) : (p.fill t).color = rootColor p t.color := by
  induction p generalizing t with
  | nil => rfl
  | cons f p ih => rw [fill_cons, ih, Frame.color_fill]; rfl

theorem fill_ne_leaf {t : Tree} (h : t ≠ .leaf) (p : Path) : p.fill t ≠ .leaf := by
  induction p generalizing t with
  | nil => exact h
  | cons f p ih => exact ih (f.fill_ne_leaf t)

/-- what hangs in the hole does not show at the root, unless it is the root -/
theorem rootColor_congr {p : Path} (hp : p ≠ []) (c d : Color) : rootColor p c = rootColor p d := by
  cases p with
  | nil => exact absurd rfl hp
  | cons f p => rfl

theorem noRedRed_fill (p : Path) (t : Tree) :
    (p.fill t).NoRedRed ↔ t.NoRedRed ∧ (topColor p = .red → t.color = .black) ∧ NoRedRed p := by
  induction p generalizing t with
  | nil => simp [topColor, NoRedRed]
  | cons f p ih =>
    rw [fill_cons, ih, Frame.noRedRed_fill, Frame.color_fill, topColor_cons, NoRedRed]
    cases f.color <;> cases topColor p <;> simp <;> tauto

theorem blackHeight_fill (p : Path) (t : Tree) (n : Nat) :
    (p.fill t).BlackHeight n ↔ ∃ h, t.BlackHeight h ∧ BlackHeight p h n := by
  induction p generalizing t with
  | nil => simp [BlackHeight]
  | cons f p ih =>
    rw [fill_cons, ih]
    simp only [BlackHeight, Frame.blackHeight_fill]
    constructor
    · rintro ⟨_, ⟨h, rfl, ht, hs⟩, hp⟩
      exact ⟨h, ht, hs, hp⟩
    · rintro ⟨h, ht, hs, hp⟩
      exact ⟨_, ⟨h, rfl, ht, hs⟩, hp⟩

theorem balanced_fill (p : Path) (t : Tree) :
    (∃ n, (p.fill t).BlackHeight n) ↔ ∃ n h, t.BlackHeight h ∧ BlackHeight p h n := by
  simp only [blackHeight_fill]

/-- the colour rules do not look at what the entries are -/
theorem colored_overwrite {p : Path} {c : Color} {l r : Tree} {e : Entry} (h : (p.fill (.node c l e r)).Colored)
    (f : Entry) : (p.fill (.node c l f r)).Colored := by
  obtain ⟨n, k, hk, hp⟩ := (balanced_fill _ _).mp h.balanced
  have hk' : (Tree.node c l f r).BlackHeight k := by
    cases c with
    | red => exact hk
    | black =>
      cases k with
      | zero => exact hk
      | succ k => exact hk
  have hred := (noRedRed_fill _ _).mp h.noRedRed
  have hroot := h.black
  rw [color_fill] at hroot
  exact ⟨by rw [color_fill]; exact hroot, (noRedRed_fill _ _).mpr hred, (balanced_fill _ _).mpr ⟨n, k, hk', hp⟩⟩

/-! ## Searching -/

/-- keys smaller than `key` on the left of the hole, greater ones on the right -/
def Bracket (key : Bytes) (p : Path) : Prop :=
  (∀ e ∈ before p, e.key < key) ∧ ∀ e ∈ after p, key < e.key

theorem bracket_descend {key : Bytes} {t : Tree} {p : Path} (ht : t.Ordered) (hp : Bracket key p) :
    Bracket key (t.descend key p).2 := by
  fun_induction Tree.descend key t p with
  | case1 => exact hp
  | case2 c l e r p hlt ih =>
    obtain ⟨hl, hr, hlr⟩ := List.pairwise_append.mp ht
    obtain ⟨her, hr⟩ := List.pairwise_cons.mp hr
    refine ih hl ⟨?_, ?_⟩
    · simpa [before, Frame.before] using hp.1
    · simp only [after, Frame.after, List.mem_append, List.mem_cons]
      rintro f ((rfl | hf) | hf)
      · exact hlt
      · exact Bytes.lt_trans hlt (her f hf)
      · exact hp.2 f hf
  | case3 c l e r p hnlt hlt ih =>
    obtain ⟨hl, hr, hlr⟩ := List.pairwise_append.mp ht
    obtain ⟨her, hr⟩ := List.pairwise_cons.mp hr
    refine ih hr ⟨?_, ?_⟩
    · simp only [before, Frame.before, List.mem_append, List.mem_singleton]
      rintro f (hf | hf | rfl)
      · exact hp.1 f hf
      · exact Bytes.lt_trans (hlr f hf e List.mem_cons_self) hlt
      · exact hlt
    · simpa [after, Frame.after] using hp.2
  | case4 => exact hp

theorem bracket_nil (key : Bytes) : Bracket key [] := by simp [Bracket, before, after]

end Path

end MeteredStore
