/-
What one step of an iterator answers: a pair of key and value, or the mark that the iterator has run out, and in both
cases what the step cost. An item without a key is the mark; an empty key is a key.
-/
import MeteredStore.Text.Quoted

namespace MeteredStore

structure Item where
  key : Option Bytes
  value : Option Bytes
  gas : Int
deriving DecidableEq, Repr

namespace Item

def entry (key value : Bytes) (gas : Int) : Item := ⟨some key, some value, gas⟩

/-- the mark that an iterator has run out -/
def exhausted (gas : Int) : Item := ⟨none, none, gas⟩

def isExhausted (i : Item) : Bool := i.key.isNone

/-- key and value of an item that has a key -/
def pair? (i : Item) : Option (Bytes × Option Bytes) := i.key.map fun k => (k, i.value)

/-- bytes as items show them -/
def renderField : Option Bytes → String
  | none => "None"
  | some b => Text.quoteBytes b

def render (i : Item) : String :=
  "NextItem(key=" ++ renderField i.key ++ ", value=" ++ renderField i.value ++ ", gas=" ++ toString i.gas ++ ")"

@[simp] theorem isExhausted_entry (key value : Bytes) (gas : Int) : (entry key value gas).isExhausted = false := rfl

@[simp] theorem isExhausted_exhausted (gas : Int) : (exhausted gas).isExhausted = true := rfl

@[simp] theorem pair?_entry (key value : Bytes) (gas : Int) :
    (entry key value gas).pair? = some (key, some value) := rfl

end Item

end MeteredStore
