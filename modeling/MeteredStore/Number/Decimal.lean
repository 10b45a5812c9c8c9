/-
Decimals, and the binary fractions next to them.

A binary fraction has 53 binary digits and ends at the place of two to the power -1074 at the latest; from two to the
power 1024 on there are none. A decimal is read as the fraction nearest to it, and of two equally near as the even one.

`roundDiv_near`: rounding a quotient is off by half a unit at most.
-/
import MeteredStore.Number.Basic

namespace MeteredStore

/-! ## Quotients -/

/-- the whole number nearest to a quotient, the even one of two that are equally near -/
def roundDiv (num den : Nat) : Nat :=
  let below := num / den
  let rest := 2 * (num % den)
  if rest < den ∨ (rest = den ∧ below % 2 = 0) then below else below + 1

theorem roundDiv_near (num den : Nat) (h : 0 < den) :
    2 * num ≤ 2 * (den * roundDiv num den) + den ∧ 2 * (den * roundDiv num den) ≤ 2 * num + den := by
  have hd := Nat.div_add_mod num den
  have hm := Nat.mod_lt num h
  unfold roundDiv
  simp only
  split
  · omega
  · rw [Nat.mul_add]
    omega

def binaryPlaces (n : Nat) : Nat := n.log2 + 1

def decimalPlaces (n : Nat) : Nat := (Nat.toDigits 10 n).length

/-- the least exponent whose power of a base is above a quotient, by the places that whole numbers take in that base; a
quotient below one is measured by its inverse -/
def magnitude (places : Nat → Nat) (num den : Nat) : Int :=
  if den ≤ num then places (num / den) else 1 - (places ((den - 1) / num) : Int)

/-- the binary fraction next to a quotient -/
def Number.nearest (num den : Nat) : Number :=
  let q := max (magnitude binaryPlaces num den - 53) (-1074)
  let m := roundDiv (num * (2 : Nat).pow (-q).toNat) (den * (2 : Nat).pow q.toNat)
  if (2 : Nat).pow 1024 ≤ m * (2 : Nat).pow q.toNat then .infinite false else .finite false m q

/-! ## Decimals -/

/-- `digits` times ten to the power `exponent` -/
structure Decimal where
  digits : Nat
  exponent : Int
deriving DecidableEq, Repr

/-- the place of the first digit: the power of ten that it counts -/
def Decimal.lead (d : Decimal) : Int := d.exponent + decimalPlaces d.digits - 1

/-- the binary fraction next to a decimal; far outside their range it is known without the quotient -/
def Decimal.toNumber (d : Decimal) : Number :=
  if d.digits = 0 ∨ d.lead < -400 then .finite false 0 0
  else if 400 < d.lead then .infinite false
  else .nearest (d.digits * (10 : Nat).pow d.exponent.toNat) ((10 : Nat).pow (-d.exponent).toNat)

/-! ## Numerals -/

/-- the number that digits write, at least one -/
def natural? (digits : List Char) : Option Nat :=
  if digits ≠ [] ∧ digits.all Char.isDigit then some (digits.foldl (fun n c => 10 * n + (c.toNat - 48)) 0) else none

/-- the power of ten at the end of a numeral: nothing, or digits behind an `e` and perhaps a sign -/
def exponent? : List Char → Option Int
  | [] => some 0
  | 'e' :: '-' :: digits => (natural? digits).map fun n => -(n : Int)
  | 'e' :: '+' :: digits => (natural? digits).map Int.ofNat
  | 'e' :: digits => (natural? digits).map Int.ofNat
  | _ => none

/-- digits with at most one point among them or beside them, then the power of ten -/
def Decimal.ofNumeral? (text : List Char) : Option Decimal := do
  let whole := text.takeWhile Char.isDigit
  let (places, rest) :=
    match text.dropWhile Char.isDigit with
    | '.' :: rest => (rest.takeWhile Char.isDigit, rest.dropWhile Char.isDigit)
    | rest => ([], rest)
  let digits ← natural? (whole ++ places)
  let exponent ← exponent? rest
  return ⟨digits, exponent - places.length⟩

namespace Number

def ofUnsigned? (text : List Char) : Option Number :=
  if text ∈ ["inf".toList, "infinity".toList] then some (.infinite false)
  else if text = "nan".toList then some .undefined
  else (Decimal.ofNumeral? text).map Decimal.toNumber

/-- reads a numeral, perhaps behind a sign; capital letters are as good as small ones, and blanks and underscores only
set things apart -/
def ofNumeral? (numeral : String) : Option Number :=
  match (numeral.toList.filter fun c => c != '_' && !c.isWhitespace).map Char.toLower with
  | '-' :: text => (ofUnsigned? text).map neg
  | '+' :: text => ofUnsigned? text
  | text => ofUnsigned? text

end Number

end MeteredStore
