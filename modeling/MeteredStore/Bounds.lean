/-
Half-open ranges of keys, and the two directions in which they are walked.

`start` is the first key of a range and `stop` the first key after it; an absent bound leaves its side open. Seen from a
walk, a range has a near side, where the walk comes from, and a far side, where it ends: `contains_eq`, a key is in the
range just when it is on neither side, whichever way the walk goes.
-/
import MeteredStore.Tree.Basic

namespace MeteredStore

inductive Direction where
  | ascending
  | descending
deriving DecidableEq, Repr

/-- the side of a node on which the keys lie that a walk meets after it -/
def Direction.onward : Direction → Side
  | .ascending => .right
  | .descending => .left

/-- keys from `start` on, before `stop` -/
structure Bounds where
  start : Option Bytes
  stop : Option Bytes
deriving DecidableEq, Repr

namespace Bounds

/-- no bound on either side -/
def all : Bounds := ⟨none, none⟩

/-- the key comes before the range -/
def precedes (b : Bounds) (key : Bytes) : Bool :=
  match b.start with
  | none => false
  | some s => key < s

/-- the key comes after the range -/
def follows (b : Bounds) (key : Bytes) : Bool :=
  match b.stop with
  | none => false
  | some s => !decide (key < s)

/-- the key is in the range -/
def contains (b : Bounds) (key : Bytes) : Bool := !b.precedes key && !b.follows key

/-- two bounds of which the first is not before the second, so that the range has no keys -/
def inverted (b : Bounds) : Bool :=
  match b.start, b.stop with
  | some s, some t => !decide (s < t)
  | _, _ => false

/-- the key lies on the side that a walk comes from -/
def isNear (b : Bounds) : Direction → Bytes → Bool
  | .ascending, key => b.precedes key
  | .descending, key => b.follows key

/-- the key lies on the side where a walk ends -/
def isFar (b : Bounds) : Direction → Bytes → Bool
  | .ascending, key => b.follows key
  | .descending, key => b.precedes key

theorem contains_eq (b : Bounds) (d : Direction) (key : Bytes) :
    b.contains key = (!b.isNear d key && !b.isFar d key) := by
  cases d
  · rfl
  · exact Bool.and_comm ..

theorem contains_all (key : Bytes) : all.contains key = true := rfl

theorem contains_of_inverted {b : Bounds} (h : b.inverted = true) (key : Bytes) : b.contains key = false := by
  obtain ⟨start, stop⟩ := b
  cases start with
  | none => simp [inverted] at h
  | some s =>
    cases stop with
    | none => simp [inverted] at h
    | some t =>
      simp only [inverted, Bool.not_eq_true', decide_eq_false_iff_not] at h
      by_cases hs : key < s
      · simp [contains, precedes, hs]
      · have ht : ¬ key < t := fun ht => hs <| by
          rcases Bytes.lt_trichotomy s t with k | rfl | k
          · exact absurd k h
          · exact ht
          · exact Bytes.lt_trans ht k
        simp [contains, follows, ht]

end Bounds

end MeteredStore
