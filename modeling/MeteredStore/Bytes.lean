/-
Byte strings and the order in which a map keeps them.

Bytes are compared unsigned and lexicographically: the first difference decides, and a string comes before its proper
extensions. Main statement: `Bytes.lt_trichotomy`, any two strings are in exactly one of three relations, so a search
that goes left on `<`, right on `>` and stops otherwise stops only at its key.
-/
namespace MeteredStore

/-- a byte string, the type of keys and of values -/
abbrev Bytes := List UInt8

namespace Bytes

theorem lt_irrefl (a : Bytes) : ¬ a < a := List.lt_irrefl a

theorem lt_trans {a b c : Bytes} (h : a < b) (k : b < c) : a < c := List.lt_trans h k

theorem lt_asymm {a b : Bytes} (h : a < b) : ¬ b < a := fun k => lt_irrefl a (lt_trans h k)

theorem lt_trichotomy (a b : Bytes) : a < b ∨ a = b ∨ b < a := by
  by_cases h : a < b
  · exact .inl h
  · by_cases k : b < a
    · exact .inr (.inr k)
    · exact .inr (.inl (List.le_antisymm k h))

/-- the empty string comes before every other -/
theorem nil_lt_cons (x : UInt8) (a : Bytes) : ([] : Bytes) < x :: a := List.nil_lt_cons x a

/-- a string that is before in neither direction is the same string -/
theorem eq_of_not_lt {a b : Bytes} (h : ¬ a < b) (k : ¬ b < a) : a = b := by
  rcases lt_trichotomy a b with l | l | l
  · exact absurd l h
  · exact l
  · exact absurd l k

end Bytes

end MeteredStore
