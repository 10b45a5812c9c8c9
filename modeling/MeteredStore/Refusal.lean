/-
Why a call is refused.

Each reason is a constructor that carries what was wrong; `message` words it. A reason may be about a storage argument,
about the type of an argument or about its value: the three predicates at the end say which. What an argument raises itself
when it is read or compared is passed on as it is (`failed`), and is of none of these kinds.

Premises:
- a whole number of any size has a text; an interpreter may refuse to write one with more digits than its setting allows;
- an argument shows itself and names its type without failing (`Argument.render`, `typeName`), however deep it is nested;
- what equals a number is found by it, as equal keys of a dictionary are.
-/
import MeteredStore.Argument

namespace MeteredStore

/-- the four prices, in their order -/
inductive Price where
  | rangeSetup
  | iteratorExhausted
  | perKeyByte
  | perValueByte
deriving DecidableEq, Repr

namespace Price

def all : List Price := [rangeSetup, iteratorExhausted, perKeyByte, perValueByte]

def name : Price → String
  | rangeSetup => "range_setup"
  | iteratorExhausted => "iterator_exhausted"
  | perKeyByte => "per_key_byte"
  | perValueByte => "per_value_byte"

/-- what is charged when no price is given -/
def standard : Price → Nat
  | rangeSetup => 11
  | iteratorExhausted => 37
  | perKeyByte => 1
  | perValueByte => 1

theorem mem_all (p : Price) : p ∈ all := by cases p <;> decide

end Price

inductive Refusal where
  /-- a key or a bound that is not bytes-like -/
  | badKey (given : Argument)
  /-- a value that is not bytes-like -/
  | badValue (given : Argument)
  /-- neither of the two directions -/
  | badOrder (given : Argument)
  /-- an argument fails when it is read or compared -/
  | failed (f : Failure)
  | priceNotInteger (price : Price) (given : Argument)
  | priceNegative (price : Price) (given : Int)
  /-- prices named that there are not -/
  | unknownPrice (name : String)
  /-- a name that the call itself uses already -/
  | takenName (name : String)
  /-- more than the four prices; the count includes the new object itself -/
  | tooManyPrices (count : Nat)
  /-- prices do not change once they are made -/
  | fixedPrice (name : String)
  /-- something else in the place of prices -/
  | notPrices (given : Argument)
  /-- a new store needs an empty map -/
  | mapNotEmpty
  /-- a command names an object that does not exist -/
  | noSuchObject
deriving Repr

namespace Refusal

def message : Refusal → String
  | badKey a => "key must be bytes-like, got " ++ a.typeName
  | badValue a => "value must be bytes-like, got " ++ a.typeName
  | badOrder a => a.render ++ " is not a valid Order"
  | failed f => f.text
  | priceNotInteger p a => p.name ++ " must be an int, got " ++ a.render
  | priceNegative p n => p.name ++ " must be >= 0, got " ++ toString n
  | unknownPrice name => "GasConfig.__init__() got an unexpected keyword argument '" ++ name ++ "'"
  | takenName name => "GasConfig.__init__() got multiple values for argument '" ++ name ++ "'"
  | tooManyPrices n =>
    "GasConfig.__init__() takes from 1 to 5 positional arguments but " ++ toString n ++ " were given"
  | fixedPrice name => "cannot assign to field " ++ Text.quote name
  | notPrices a => "gas_config must be a GasConfig, got " ++ a.typeName
  | mapNotEmpty => "sorted_container must be empty"
  | noSuchObject => "no such object"

/-- an argument of a storage operation is at fault -/
def isStorage : Refusal → Bool
  | badKey _ | badValue _ => true
  | _ => false

/-- the type of an argument, or the form of a call, is at fault -/
def isType : Refusal → Bool
  | badKey _ | badValue _ | unknownPrice _ | takenName _ | tooManyPrices _ => true
  | _ => false

/-- a value is at fault -/
def isValue : Refusal → Bool
  | badOrder _ | priceNotInteger _ _ | priceNegative _ _ | notPrices _ | mapNotEmpty | noSuchObject => true
  | _ => false

end Refusal

namespace Argument

/-! ## Arguments that must be of one kind -/

/-- the bytes of an argument; `bad` is the reason to refuse one that does not pass for bytes -/
def read (bad : Argument → Refusal) (a : Argument) : Except Refusal Bytes :=
  match a.content? with
  | some content => content.mapError .failed
  | none => .error (bad a)

def asKey (a : Argument) : Except Refusal Bytes := a.read .badKey

def asValue (a : Argument) : Except Refusal Bytes := a.read .badValue

/-- a bound may be absent -/
def asBound : Argument → Except Refusal (Option Bytes)
  | nothing => .ok none
  | a => a.asKey.map some

/-- a direction that is not given is ascending; one that is given must equal one or two -/
def asDirection : Option Argument → Except Refusal Direction
  | none => .ok .ascending
  | some a =>
    match a.number with
    | .error f => .error (.failed f)
    | .ok none => .error (.badOrder a)
    | .ok (some x) =>
      if x.same (.ofInt 1) then .ok .ascending
      else if x.same (.ofInt 2) then .ok .descending
      else .error (.badOrder a)

end Argument

end MeteredStore
