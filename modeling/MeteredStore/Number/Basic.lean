/-
Exact values of numbers, so that whole numbers and binary fractions can be compared.

A finite number is a sign and a whole number times a power of two; that is exact for both kinds. The sign stands apart
because a binary fraction has a zero of either sign, which are the same value and are written differently.

Main statement: `same_ofInt`, two whole numbers are the same value just when they are equal. What is not a number is the
same value as nothing, itself included (`not_same_undefined`).
-/
namespace MeteredStore

inductive Number where
  /-- `m` times two to the power `q`, below zero if `negative` -/
  | finite (negative : Bool) (m : Nat) (q : Int)
  | infinite (negative : Bool)
  /-- not a number -/
  | undefined
deriving DecidableEq, Repr

namespace Number

def ofInt (n : Int) : Number := .finite (n < 0) n.natAbs 0

def neg : Number → Number
  | finite s m q => finite (!s) m q
  | infinite s => infinite (!s)
  | undefined => undefined

def signed (negative : Bool) (m : Nat) : Int := if negative then -(m : Int) else m

/-- equal values -/
def same : Number → Number → Bool
  | finite s m q, finite t n r =>
    signed s (m * (2 : Nat).pow (q - r).toNat) = signed t (n * (2 : Nat).pow (r - q).toNat)
  | infinite s, infinite t => s = t
  | _, _ => false

theorem signed_natAbs (n : Int) : signed (n < 0) n.natAbs = n := by
  unfold signed
  split <;> rename_i h <;> rw [decide_eq_true_eq] at h <;> omega

theorem same_ofInt (m n : Int) : (ofInt m).same (ofInt n) = true ↔ m = n := by
  simp [ofInt, same, signed_natAbs]

theorem same_zeros (q r : Int) (s t : Bool) : (finite s 0 q).same (finite t 0 r) = true := by
  cases s <;> cases t <;> simp [same, signed]

theorem not_same_undefined (x : Number) : undefined.same x = false ∧ x.same undefined = false := by
  cases x <;> exact ⟨rfl, rfl⟩

end Number

end MeteredStore
