/-
What makes a tree a red-black tree.

The root is black, no red node has a red child, all ways down pass the same number of black nodes, and the keys increase
from left to right. Each condition is stated on its own, since a tree in repair breaks one of them in one place.

Main statement: `height_le`, a tree whose ways down pass `n` black nodes is at most `2 n + 1` nodes high, one less if its
top is black.
-/
import MeteredStore.Tree.Path

namespace MeteredStore.Tree

/-- no red node has a red child -/
def NoRedRed : Tree → Prop
  | leaf => True
  | node c l _ r => (c = .red → l.color = .black ∧ r.color = .black) ∧ l.NoRedRed ∧ r.NoRedRed

/-- every way down to an absent child passes `n` black nodes -/
def BlackHeight : Tree → Nat → Prop
  | leaf, n => n = 0
  | node .red l _ r, n => l.BlackHeight n ∧ r.BlackHeight n
  | node .black l _ r, n + 1 => l.BlackHeight n ∧ r.BlackHeight n
  | node .black _ _ _, 0 => False

/-- the keys increase from left to right -/
def Ordered (t : Tree) : Prop := t.entries.Pairwise fun e f => e.key < f.key

/-- no two nodes have the same number -/
def Distinct (t : Tree) : Prop := t.entries.Pairwise fun e f => e.id ≠ f.id

/-- all the rules at once -/
structure RedBlack (t : Tree) : Prop where
  black : t.color = .black
  noRedRed : t.NoRedRed
  balanced : ∃ n, t.BlackHeight n
  ordered : t.Ordered

instance decidableNoRedRed : (t : Tree) → Decidable t.NoRedRed
  | leaf => .isTrue trivial
  | node _ l _ r =>
    have := decidableNoRedRed l
    have := decidableNoRedRed r
    inferInstanceAs (Decidable (_ ∧ _ ∧ _))

instance decidableBlackHeight : (t : Tree) → (n : Nat) → Decidable (t.BlackHeight n)
  | leaf, n => inferInstanceAs (Decidable (n = 0))
  | node .red l _ r, n =>
    have := decidableBlackHeight l n
    have := decidableBlackHeight r n
    inferInstanceAs (Decidable (_ ∧ _))
  | node .black l _ r, n + 1 =>
    have := decidableBlackHeight l n
    have := decidableBlackHeight r n
    inferInstanceAs (Decidable (_ ∧ _))
  | node .black _ _ _, 0 => .isFalse id

instance (t : Tree) : Decidable t.Ordered := inferInstanceAs (Decidable (List.Pairwise _ _))

instance (t : Tree) : Decidable t.Distinct := inferInstanceAs (Decidable (List.Pairwise _ _))

/-- the number of black nodes on the leftmost way down; all others agree with it if any do -/
def leftBlacks : Tree → Nat
  | leaf => 0
  | node .red l _ _ => l.leftBlacks
  | node .black l _ _ => l.leftBlacks + 1

theorem eq_leftBlacks {t : Tree} {n : Nat} (h : t.BlackHeight n) : n = t.leftBlacks := by
  induction t generalizing n with
  | leaf => exact h
  | node c l e r ihl _ =>
    cases c with
    | red => exact ihl h.1
    | black =>
      cases n with
      | zero => exact h.elim
      | succ n => exact congrArg (· + 1) (ihl h.1)

theorem balanced_iff {t : Tree} : (∃ n, t.BlackHeight n) ↔ t.BlackHeight t.leftBlacks :=
  ⟨fun ⟨_, h⟩ => eq_leftBlacks h ▸ h, fun h => ⟨_, h⟩⟩

instance (t : Tree) : Decidable t.RedBlack :=
  decidable_of_iff (t.color = .black ∧ t.NoRedRed ∧ t.BlackHeight t.leftBlacks ∧ t.Ordered)
    ⟨fun ⟨a, b, c, d⟩ => ⟨a, b, balanced_iff.mpr c, d⟩, fun ⟨a, b, c, d⟩ => ⟨a, b, balanced_iff.mp c, d⟩⟩

/-- reds are at most every other node on a way down -/
theorem height_le {t : Tree} {n : Nat} (hr : t.NoRedRed) (hb : t.BlackHeight n) :
    t.height ≤ 2 * n + if t.color = .red then 1 else 0 := by
  induction t generalizing n with
  | leaf => simp [height]
  | node c l e r ihl ihr =>
    obtain ⟨hc, hl, hr⟩ := hr
    cases c with
    | red =>
      obtain ⟨cl, cr⟩ := hc rfl
      have := ihl hl hb.1
      have := ihr hr hb.2
      simp only [cl, cr, reduceCtorEq, if_false] at *
      simp only [height, color, if_true]
      omega
    | black =>
      cases n with
      | zero => exact hb.elim
      | succ n =>
        have hl := ihl hl hb.1
        have hr := ihr hr hb.2
        simp only [height, color, reduceCtorEq, if_false]
        split at hl <;> split at hr <;> omega

end MeteredStore.Tree
