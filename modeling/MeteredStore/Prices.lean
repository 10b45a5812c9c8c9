/-
Prices, and what an operation costs.

Costs depend on lengths alone: reading and removing charge for the bytes of the key, writing and a step of an iterator
for the bytes of key and value. Opening a range and asking an iterator that has run out have flat prices.

Prices are made by a call that gives the first few of the four in order, or some of them by name; the others are
standard. The form of the call is looked at first, then each price in turn: `ofCall_eq_ok_iff`, a call succeeds just when
its form is right and each price is a whole number, at least zero.
-/
import MeteredStore.Refusal

namespace MeteredStore

structure Prices where
  rangeSetup : Nat
  iteratorExhausted : Nat
  perKeyByte : Nat
  perValueByte : Nat
deriving DecidableEq, Repr

/-- the arguments of a call that makes prices -/
inductive PriceCall where
  | positional (given : List Argument)
  | named (given : List (String × Argument))
deriving Repr

namespace PriceCall

/-- position of a price among the four -/
def position : Price → Nat
  | .rangeSetup => 0
  | .iteratorExhausted => 1
  | .perKeyByte => 2
  | .perValueByte => 3

/-- the argument for each price -/
def argument (c : PriceCall) (p : Price) : Argument :=
  let given := match c with
    | positional given => given[position p]?
    | named given => given.lookup p.name
  given.getD (.int p.standard)

/-- the name by which a call passes the prices that it makes -/
def ownName : String := "self"

/-- refuses a call with too many prices, or with a name that is not one of theirs: the first such name -/
def checkForm : PriceCall → Except Refusal Unit
  | positional given => if given.length > 4 then .error (.tooManyPrices (given.length + 1)) else .ok ()
  | named given =>
    match given.find? fun (name, _) => Price.all.all fun p => p.name != name with
    | some (name, _) => .error (if name = ownName then .takenName name else .unknownPrice name)
    | none => .ok ()

end PriceCall

namespace Prices

/-- one price: a whole number, at least zero -/
def price (p : Price) : Argument → Except Refusal Nat
  | .int n => if n < 0 then .error (.priceNegative p n) else .ok n.toNat
  | a => .error (.priceNotInteger p a)

def ofCall (c : PriceCall) : Except Refusal Prices := do
  c.checkForm
  let rangeSetup ← price .rangeSetup (c.argument .rangeSetup)
  let iteratorExhausted ← price .iteratorExhausted (c.argument .iteratorExhausted)
  let perKeyByte ← price .perKeyByte (c.argument .perKeyByte)
  let perValueByte ← price .perValueByte (c.argument .perValueByte)
  return ⟨rangeSetup, iteratorExhausted, perKeyByte, perValueByte⟩

def standard : Prices :=
  ⟨Price.rangeSetup.standard, Price.iteratorExhausted.standard, Price.perKeyByte.standard, Price.perValueByte.standard⟩

def get (p : Prices) : Price → Nat
  | .rangeSetup => p.rangeSetup
  | .iteratorExhausted => p.iteratorExhausted
  | .perKeyByte => p.perKeyByte
  | .perValueByte => p.perValueByte

/-- prices cannot be changed, whatever the name -/
def assign (_ : Prices) (name : String) : Except Refusal Prices := .error (.fixedPrice name)

/-! ## Costs -/

def read (p : Prices) (key : Bytes) : Nat := key.length * p.perKeyByte

def write (p : Prices) (key value : Bytes) : Nat := key.length * p.perKeyByte + value.length * p.perValueByte

def remove (p : Prices) (key : Bytes) : Nat := key.length * p.perKeyByte

/-- for a pair that an iterator yields -/
def step (p : Prices) (key value : Bytes) : Nat := p.write key value

/-! ## Text -/

def render (p : Prices) : String :=
  "GasConfig(" ++ ", ".intercalate (Price.all.map fun q => q.name ++ "=" ++ toString (p.get q)) ++ ")"

/-! ## Making prices -/

theorem price_eq_ok_iff {p : Price} {a : Argument} {n : Nat} : price p a = .ok n ↔ a = .int n := by
  cases a <;> simp [price]
  next m =>
    constructor
    · intro h
      split at h
      · simp at h
      · simp only [Except.ok.injEq] at h
        omega
    · rintro rfl
      rw [if_neg (by omega)]
      simp

theorem ofCall_eq_ok_iff {c : PriceCall} {p : Prices} :
    ofCall c = .ok p ↔ c.checkForm = .ok () ∧ ∀ q, c.argument q = .int (p.get q) := by
  have hq : (∀ q, c.argument q = .int (p.get q)) ↔ price .rangeSetup (c.argument .rangeSetup) = .ok p.rangeSetup ∧
      price .iteratorExhausted (c.argument .iteratorExhausted) = .ok p.iteratorExhausted ∧
      price .perKeyByte (c.argument .perKeyByte) = .ok p.perKeyByte ∧
      price .perValueByte (c.argument .perValueByte) = .ok p.perValueByte := by
    simp only [price_eq_ok_iff]
    constructor
    · exact fun h => ⟨h .rangeSetup, h .iteratorExhausted, h .perKeyByte, h .perValueByte⟩
    · rintro ⟨h₁, h₂, h₃, h₄⟩ q
      cases q <;> assumption
  rw [hq]
  obtain ⟨a, b, d, e⟩ := p
  simp only [ofCall, bind, Except.bind, pure, Except.pure]
  cases c.checkForm <;> cases price .rangeSetup (c.argument .rangeSetup) <;>
    cases price .iteratorExhausted (c.argument .iteratorExhausted) <;>
    cases price .perKeyByte (c.argument .perKeyByte) <;>
    cases price .perValueByte (c.argument .perValueByte) <;> simp

end Prices

end MeteredStore
