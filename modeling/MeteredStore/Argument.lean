/-
Arguments of any type.

Keys, values, bounds, directions and prices reach the library as arguments that may be of the wrong type. Bytes come in
three forms: a byte string, a buffer (which its owner may go on changing), and a view, which shows some of the bytes of a
byte string at even distances, forwards or backwards. `content?` reads all three alike. An argument may pass for one of the
three and still not be read: a view whose memory has been given back (`released`) fails, and so may types of one's own.

A truth value counts as the number zero or one, and an argument of any other type may equal a number too, so directions and
the keys of dictionaries are compared by `number`. To compare may fail as well, where the argument's type says how it is done.

`typeName` and `render` are how messages name an argument's type and show the argument. A dictionary has each key once:
`ofEntries` makes one from entries in which keys may recur (`keys_put`).
-/
import MeteredStore.Bounds
import MeteredStore.Number.Shortest
import MeteredStore.Text.Quoted

namespace MeteredStore

/-- what an argument raises when it is read or compared: the name of the error, and its text -/
structure Failure where
  name : String
  text : String
deriving DecidableEq, Repr

inductive Argument where
  /-- no argument at all -/
  | nothing
  | bool (b : Bool)
  /-- a whole number, whatever its own type is, but no truth value -/
  | int (n : Int)
  | text (s : String)
  /-- a binary fraction -/
  | float (x : Number)
  | bytes (b : Bytes)
  | buffer (b : Bytes)
  /-- shows a byte, leaves out `skip` bytes, shows the next, from the first byte on or from the last byte back -/
  | view (base : Bytes) (backward : Bool) (skip : Nat)
  | list (items : List Argument)
  | tuple (items : List Argument)
  /-- keys with their values, in the order in which the keys first came -/
  | dict (entries : List (Argument × Argument))
  /-- anything else: the name of its type, how it shows itself, what its bytes are or how reading them fails, if it passes for
  bytes, and what number it equals, if it equals one, or how comparing it fails -/
  | other (type shown : String) (content : Option (Except Failure Bytes)) (value : Except Failure (Option Number))
deriving Repr

namespace Argument

/-- every byte that follows `skip` others, after `wait` bytes -/
def spaced (skip : Nat) : Nat → Bytes → Bytes
  | _, [] => []
  | 0, x :: rest => x :: spaced skip skip rest
  | wait + 1, _ :: rest => spaced skip wait rest

/-- what reading an argument that passes for bytes comes to -/
def content? : Argument → Option (Except Failure Bytes)
  | bytes b => some (.ok b)
  | buffer b => some (.ok b)
  | view base backward skip => some (.ok (spaced skip 0 (if backward then base.reverse else base)))
  | other _ _ content _ => content
  | _ => none

/-- the bytes of an argument that can be read -/
def bytes? (a : Argument) : Option Bytes := a.content?.bind Except.toOption

/-- the value of a number or truth value, or of what equals a number -/
def number : Argument → Except Failure (Option Number)
  | bool b => .ok (some (.ofInt b.toNat))
  | int n => .ok (some (.ofInt n))
  | float x => .ok (some x)
  | other _ _ _ value => value
  | _ => .ok none

/-- a view whose memory has been given back: it is a view still, but it fails when it is read, and when it is first compared -/
def released : Argument :=
  let failure : Failure := ⟨"ValueError", "operation forbidden on released memoryview object"⟩
  other "memoryview" "<released memory>" (some (.error failure)) (.error failure)

def typeName : Argument → String
  | nothing => "NoneType"
  | bool _ => "bool"
  | int _ => "int"
  | text _ => "str"
  | float _ => "float"
  | bytes _ => "bytes"
  | buffer _ => "bytearray"
  | view _ _ _ => "memoryview"
  | list _ => "list"
  | tuple _ => "tuple"
  | dict _ => "dict"
  | other type _ _ _ => type

/-! ## Dictionaries -/

mutual

/-- the same as a key: texts and bytes by content, numbers and truth values by value, tuples item by item -/
def same : Argument → Argument → Bool
  | nothing, nothing => true
  | text s, text t => s = t
  | tuple xs, tuple ys => sameAll xs ys
  | a, b =>
    match a.bytes?, b.bytes?, a.number, b.number with
    | some x, some y, _, _ => x = y
    | _, _, .ok (some x), .ok (some y) => x.same y
    | _, _, _, _ => false

def sameAll : List Argument → List Argument → Bool
  | [], [] => true
  | x :: xs, y :: ys => same x y && sameAll xs ys
  | _, _ => false

end

/-- gives a key a value: in its place if the key is there, at the end otherwise -/
def put (key value : Argument) : List (Argument × Argument) → List (Argument × Argument)
  | [] => [(key, value)]
  | (k, v) :: entries => if same k key then (k, value) :: entries else (k, v) :: put key value entries

/-- the dictionary that results when entries are put one after the other -/
def ofEntries (entries : List (Argument × Argument)) : Argument :=
  dict (entries.foldl (fun d (key, value) => put key value d) [])

theorem keys_put (key value : Argument) (entries : List (Argument × Argument)) :
    (put key value entries).map Prod.fst =
      if entries.any fun (k, _) => same k key then entries.map Prod.fst else entries.map Prod.fst ++ [key] := by
  induction entries with
  | nil => rfl
  | cons e entries ih =>
    obtain ⟨k, v⟩ := e
    unfold put
    by_cases h : same k key = true
    · simp [h]
    · simp only [h, Bool.false_eq_true, if_false, List.map_cons, ih, List.any_cons, Bool.false_or]
      split <;> rfl

/-! ## Text -/

mutual

/-- an argument as messages show it -/
def render : Argument → String
  | nothing => "None"
  | bool b => if b then "True" else "False"
  | int n => toString n
  | text s => Text.quote s
  | float x => x.render
  | bytes b => Text.quoteBytes b
  | buffer b => "bytearray(" ++ Text.quoteBytes b ++ ")"
  | view _ _ _ => "<memory>"
  | list items => "[" ++ ", ".intercalate (renderAll items) ++ "]"
  | tuple [item] => "(" ++ render item ++ ",)"
  | tuple items => "(" ++ ", ".intercalate (renderAll items) ++ ")"
  | dict entries => "\x7b" ++ ", ".intercalate (renderEntries entries) ++ "\x7d"
  | other _ shown _ _ => shown

def renderAll : List Argument → List String
  | [] => []
  | item :: items => render item :: renderAll items

def renderEntries : List (Argument × Argument) → List String
  | [] => []
  | (key, value) :: entries => (render key ++ ": " ++ render value) :: renderEntries entries

end

theorem bytes?_view_forward (b : Bytes) : (view b false 0).bytes? = some b := by
  have h : ∀ b : Bytes, spaced 0 0 b = b := by
    intro b
    induction b with
    | nil => rfl
    | cons x rest ih => simp [spaced, ih]
  simp [bytes?, content?, Except.toOption, h]

end Argument

end MeteredStore
