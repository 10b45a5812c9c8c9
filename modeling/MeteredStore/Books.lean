/-
The books of a session: what a session comes to when maps are nothing but bindings.

For each map the books have its bindings, and for each store its prices and which map it is over. `enter` says what a command
changes in them, `answer` what it is answered, with every cost spelled out as lengths times prices. Queues, cursors
and iterators change nothing in the books and are not answered by them.
-/
import MeteredStore.Bindings
import MeteredStore.Session.Command

namespace MeteredStore

structure Books where
  maps : List Bindings
  stores : List Store
deriving DecidableEq, Repr

namespace Books

def empty : Books := ⟨[], []⟩

/-- the prices of a store, and the bindings of the map that it is over -/
def held (b : Books) (i : StoreId) : Option (Prices × Bindings) := do
  let store ← b.stores[i]?
  let bindings ← b.maps[store.map]?
  return (store.prices, bindings)

/-- the bindings that a map or store stands for -/
def seen (b : Books) : Object → Option Bindings
  | .map i => b.maps[i]?
  | .store i => (b.held i).map Prod.snd
  | _ => none

/-- changes the bindings of a map -/
def amend (b : Books) (i : MapId) (f : Bindings → Bindings) : Books := { b with maps := b.maps.modify i f }

/-- changes the bindings of the map that a store is over, at a bytes-like key -/
def amendAt (b : Books) (i : StoreId) (key : Argument) (f : Bytes → Bindings → Bindings) : Books :=
  match b.stores[i]?, key.asKey with
  | some store, .ok key => b.amend store.map (f key)
  | _, _ => b

/-- what a command changes -/
def enter (b : Books) : Command → Books
  | .newMap => { b with maps := b.maps ++ [[]] }
  | .newStore prices none =>
    match prices.resolve with
    | .ok p => ⟨b.maps ++ [[]], b.stores ++ [⟨p, b.maps.length⟩]⟩
    | .error _ => b
  | .newStore prices (some i) =>
    match prices.resolve, b.maps[i]? with
    | .ok p, some [] => { b with stores := b.stores ++ [⟨p, i⟩] }
    | _, _ => b
  | .put i key value => b.amend i fun x => x.insert key value
  | .delete i key => b.amend i fun x => x.erase key
  | .set i key value =>
    match value.asValue with
    | .ok value => b.amendAt i key fun key x => x.insert key value
    | .error _ => b
  | .remove i key => b.amendAt i key fun key x => x.erase key
  | _ => b

/-- the books after commands in order -/
def after (cs : List Command) : Books := cs.foldl enter empty

def reply (x : Option Bindings) (f : Bindings → Answer) : Except Refusal Answer :=
  match x with
  | some x => .ok (f x)
  | none => .error .noSuchObject

/-- the answer of a store: it is looked for first, and then the arguments are looked at -/
def replyAt (x : Option (Prices × Bindings)) (f : Prices → Bindings → Except Refusal Answer) : Except Refusal Answer :=
  match x with
  | some (p, x) => f p x
  | none => .error .noSuchObject

/-- what a command is answered that makes, reads or writes maps and stores -/
def answer (b : Books) : Command → Option (Except Refusal Answer)
  | .newMap => some (.ok (.made (.map b.maps.length)))
  | .newStore prices none => some (prices.resolve.map fun _ => .made (.store b.stores.length))
  | .newStore prices (some i) =>
    some (do
      let _ ← prices.resolve
      match b.maps[i]? with
      | none => .error .noSuchObject
      | some x => if x = [] then .ok (.made (.store b.stores.length)) else .error .mapNotEmpty)
  | .put i _ _ => some (reply b.maps[i]? fun _ => .done)
  | .delete i key => some (reply b.maps[i]? fun x => .flag (x.get? key).isSome)
  | .lookup i key => some (reply b.maps[i]? fun x => .found (x.get? key).isSome (x.get? key))
  | .mapSize i => some (reply b.maps[i]? fun x => .count x.length)
  | .get i key =>
    some (replyAt (b.held i) fun p x => do
      let key ← key.asKey
      return .reading (x.get? key) (key.length * p.perKeyByte))
  | .set i key value =>
    some (replyAt (b.held i) fun p _ => do
      let key ← key.asKey
      let value ← value.asValue
      return .count (key.length * p.perKeyByte + value.length * p.perValueByte))
  | .remove i key =>
    some (replyAt (b.held i) fun p _ => do
      let key ← key.asKey
      return .count (key.length * p.perKeyByte))
  | .has i key =>
    some (replyAt (b.held i) fun _ x => do
      let key ← key.asKey
      return .flag (x.get? key).isSome)
  | .storeSize i => some (replyAt (b.held i) fun _ x => .ok (.count x.length))
  | .items i => some (replyAt (b.held i) fun _ x => .ok (.pairs x))
  | _ => none

end Books

end MeteredStore
