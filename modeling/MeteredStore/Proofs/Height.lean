/-
How high a red-black tree can be.

Main statements: `two_pow_le_size`, a tree whose ways down pass `n` black nodes has at least `2 ^ n - 1` nodes;
`two_pow_height_le`, a red-black tree is at most twice as high as a full one with as many nodes.
-/
import Mathlib.Tactic
import MeteredStore.Tree.Balance

namespace MeteredStore.Tree

/-- a tree has room for all the black nodes that its ways down pass -/
theorem two_pow_le_size {t : Tree} {n : Nat} (hb : t.BlackHeight n) : 2 ^ n ≤ t.size + 1 := by
  induction t generalizing n with
  | leaf => simp [show n = 0 from hb]
  | node c l e r ihl ihr =>
    cases c with
    | red =>
      have := ihl hb.1
      simp only [size]
      omega
    | black =>
      cases n with
      | zero => exact hb.elim
      | succ n =>
        have := ihl hb.1
        have := ihr hb.2
        simp only [size, Nat.pow_succ]
        omega

theorem two_pow_height_le {t : Tree} (h : t.RedBlack) : 2 ^ t.height ≤ (t.size + 1) ^ 2 := by
  obtain ⟨n, hb⟩ := h.balanced
  have hh : t.height ≤ 2 * n := by simpa [h.black] using height_le h.noRedRed hb
  calc 2 ^ t.height ≤ 2 ^ (2 * n) := Nat.pow_le_pow_right (by decide) hh
    _ = (2 ^ n) ^ 2 := by rw [Nat.mul_comm, pow_mul]
    _ ≤ (t.size + 1) ^ 2 := Nat.pow_le_pow_left (two_pow_le_size hb) 2

end MeteredStore.Tree
