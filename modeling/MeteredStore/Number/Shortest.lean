/-
Binary fractions in writing: with the fewest digits that read back.

On the grid of all decimals with n digits a value has two neighbours. `shortest?` takes n = 1, 2, ... until a neighbour
is read as the value; 17 digits are enough for 53 binary ones. Of two such neighbours the nearer one is taken, and of
two equally near the even one.

Main statements: `shortest?_reads_back`, what the search finds is read as the value it was found for, and
`coarser_fails`, no neighbour with fewer digits is.
-/
import MeteredStore.Number.Decimal

namespace MeteredStore

/-! ## Digits -/

/-- the neighbours of a quotient among the multiples of ten to the power `grid`, the nearer one first -/
def neighbours (num den : Nat) (grid : Int) : List Decimal :=
  let a := num * (10 : Nat).pow (-grid).toNat
  let b := den * (10 : Nat).pow grid.toNat
  [⟨roundDiv a b, grid⟩, ⟨a / b, grid⟩, ⟨a / b + 1, grid⟩]

/-- the neighbour with `n` digits that is read as `m` times two to the power `q` -/
def withDigits? (m : Nat) (q : Int) (n : Nat) : Option Decimal :=
  let num := m * (2 : Nat).pow q.toNat
  let den := (2 : Nat).pow (-q).toNat
  (neighbours num den (magnitude decimalPlaces num den - n)).find? fun d => d.toNumber.same (.finite false m q)

def shortest? (m : Nat) (q : Int) : Option Decimal := (List.range' 1 17).findSome? (withDigits? m q)

/-- `m` times two to the power `q`, digit for digit -/
def exact (m : Nat) (q : Int) : Decimal :=
  if 0 ≤ q then ⟨m * (2 : Nat).pow q.toNat, 0⟩ else ⟨m * (5 : Nat).pow (-q).toNat, q⟩

theorem withDigits?_reads_back {m : Nat} {q : Int} {n : Nat} {d : Decimal} (h : withDigits? m q n = some d) :
    d.toNumber.same (.finite false m q) = true := by
  exact List.find?_some (p := fun d : Decimal => d.toNumber.same (.finite false m q)) h

theorem shortest?_reads_back {m : Nat} {q : Int} {d : Decimal} (h : shortest? m q = some d) :
    d.toNumber.same (.finite false m q) = true := by
  obtain ⟨n, _, hn⟩ := List.exists_of_findSome?_eq_some h
  exact withDigits?_reads_back hn

theorem coarser_fails {m : Nat} {q : Int} {d : Decimal} (h : shortest? m q = some d) :
    ∃ n, withDigits? m q n = some d ∧ ∀ k, 1 ≤ k → k < n → withDigits? m q k = none := by
  obtain ⟨before, n, after, hl, hn, hb⟩ := List.findSome?_eq_some_iff.mp h
  refine ⟨n, hn, fun k h1 hk => hb k ?_⟩
  have hs : (before ++ n :: after).Pairwise (· < ·) := hl ▸ List.pairwise_lt_range'
  have hmem : k ∈ before ++ n :: after := by
    rw [← hl, List.mem_range'_1]
    have : n ∈ List.range' 1 17 := hl ▸ by simp
    rw [List.mem_range'_1] at this
    omega
  rcases List.mem_append.mp hmem with hk' | hk'
  · exact hk'
  · rcases List.mem_cons.mp hk' with rfl | hk'
    · omega
    · have := List.rel_of_pairwise_cons (List.pairwise_append.mp hs).2.1 hk'
      omega

/-! ## Layout -/

/-- digits from the place `lead` on, with a point behind the units, and a digit on either side of it -/
def positional (digits : List Char) (lead : Int) : List Char :=
  if lead < 0 then '0' :: '.' :: List.replicate (-lead - 1).toNat '0' ++ digits
  else
    let units := lead.toNat + 1
    let places := digits.drop units
    digits.take units ++ List.replicate (units - digits.length) '0' ++ '.' :: (if places = [] then ['0'] else places)

/-- digits with a point behind the first, if others follow, and the place of the first in two figures at least -/
def scientific (digits : List Char) (lead : Int) : List Char :=
  let places := digits.drop 1
  let power := Nat.toDigits 10 lead.natAbs
  digits.take 1 ++ (if places = [] then [] else '.' :: places) ++ 'e' :: (if lead < 0 then '-' else '+') ::
    List.replicate (2 - power.length) '0' ++ power

/-- a decimal without zeros at the end: by places from 0.0001 to below ten to the power 16, else with a power of ten -/
def Decimal.render (d : Decimal) : String :=
  let digits := ((Nat.toDigits 10 d.digits).reverse.dropWhile (· = '0')).reverse
  String.ofList (if -4 ≤ d.lead ∧ d.lead < 16 then positional digits d.lead else scientific digits d.lead)

/-- a number as a binary fraction is written -/
def Number.render : Number → String
  | finite s m q =>
    let d := if m = 0 then ⟨0, 0⟩ else (shortest? m q).getD (exact m q)
    (if s then "-" else "") ++ d.render
  | infinite s => if s then "-inf" else "inf"
  | undefined => "nan"

end MeteredStore
