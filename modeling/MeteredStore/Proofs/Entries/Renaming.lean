/-
Other keys in the same order, and any other values.

A search looks at which of two keys comes first and at nothing else, and no operation looks at a value. So with a strictly
increasing map `f` on keys and any map `g` on values: an operation on a map with its keys and values renamed, given renamed
keys and values, goes the same way, whatever the map, a fault included (`insert?_rename`, `erase?_rename`). A cursor with
renamed bounds stays at the same nodes (`next_rename`). Step by step a whole run goes the same way (`run_rename_from`).

Main statement: `run_rename`, calls on maps and cursors with other keys in the same order and any other values get the same
answers, renamed: the same presence, sizes and numbers, the same refusal, an absent value or pair where there was none. They
leave trees of the same shape and colours.
-/
import MeteredStore.Proofs.Entries.Repair
import MeteredStore.Session.Command

namespace MeteredStore

variable {f g : Bytes → Bytes}

/-! ## Renaming -/

/-- another key and another value at the same node -/
def Entry.rename (f g : Bytes → Bytes) (e : Entry) : Entry := ⟨e.id, f e.key, g e.value⟩

/-- other keys and values in the same nodes, those in the tree and those taken out -/
def SortedMap.rename (f g : Bytes → Bytes) (m : SortedMap) : SortedMap :=
  { m with root := m.root.map (Entry.rename f g), detached := m.detached.map (Node.map (Entry.rename f g)) }

def Bounds.rename (f : Bytes → Bytes) (b : Bounds) : Bounds := ⟨b.start.map f, b.stop.map f⟩

/-- other bounds, the same nodes on the stack -/
def Cursor.rename (f : Bytes → Bytes) (c : Cursor) : Cursor := { c with bounds := c.bounds.rename f }

@[simp] theorem Entry.id_rename (f g : Bytes → Bytes) (e : Entry) : (e.rename f g).id = e.id := rfl

@[simp] theorem Entry.key_rename (f g : Bytes → Bytes) (e : Entry) : (e.rename f g).key = f e.key := rfl

section Increasing

variable (hf : ∀ a b, a < b → f a < f b)

include hf

theorem Bytes.lt_iff_of_increasing (a b : Bytes) : f a < f b ↔ a < b := by
  refine ⟨fun h => ?_, hf a b⟩
  rcases lt_trichotomy a b with hlt | rfl | hgt
  · exact hlt
  · exact absurd h (lt_irrefl _)
  · exact absurd h (lt_asymm (hf b a hgt))

/-! ## Trees -/

namespace Tree

theorem descend_rename (key : Bytes) (t : Tree) (p : Path) :
    (t.map (Entry.rename f g)).descend (f key) (List.map (Frame.map (Entry.rename f g)) p) =
      Prod.map (map (Entry.rename f g)) (List.map (Frame.map (Entry.rename f g))) (t.descend key p) := by
  have hlt := Bytes.lt_iff_of_increasing hf
  fun_induction descend key t p with
  | case1 p => rfl
  | case2 c l e r p h ih =>
    simp only [map_node, descend, Entry.key_rename, hlt, h, if_true]
    exact ih
  | case3 c l e r p h k ih =>
    simp only [map_node, descend, Entry.key_rename, hlt, h, k, if_true, if_false]
    exact ih
  | case4 c l e r p h k =>
    simp only [map_node, descend, Entry.key_rename, hlt, h, k, if_false]
    rfl

theorem descend_rename_nil (key : Bytes) (t : Tree) :
    (t.map (Entry.rename f g)).descend (f key) [] =
      Prod.map (map (Entry.rename f g)) (List.map (Frame.map (Entry.rename f g))) (t.descend key []) :=
  descend_rename hf key t []

theorem insert?_rename (i : NodeId) (key value : Bytes) (t : Tree) :
    (t.map (Entry.rename f g)).insert? i (f key) (g value) =
      (t.insert? i key value).map (Prod.map id (map (Entry.rename f g))) := by
  have hdesc := descend_rename_nil (g := g) hf key t
  rw [insert?, insert?, hdesc]
  rcases t.descend key [] with ⟨found, path⟩
  cases found with
  | leaf =>
    have hfinish := Insertion.finish?_map (Entry.rename f g) ⟨single ⟨i, key, value⟩, path⟩
    simp only [Prod.map, map_leaf]
    rw [show (Insertion.mk (single ⟨i, f key, g value⟩) (List.map (Frame.map (Entry.rename f g)) path)) =
      Insertion.map (Entry.rename f g) ⟨single ⟨i, key, value⟩, path⟩ from rfl, hfinish]
    cases (Insertion.mk (single ⟨i, key, value⟩) path).finish? <;> rfl
  | node c l e r =>
    have hfill := Path.fill_map (Entry.rename f g) path (.node c l { e with value := value } r)
    simp only [Prod.map, map_node]
    exact congrArg (fun t => Except.ok (false, t)) hfill

omit hf in
theorem doom_rename (t : Tree) (p : Path) :
    (t.map (Entry.rename f g)).doom (List.map (Frame.map (Entry.rename f g)) p) =
      Prod.map (map (Entry.rename f g)) (List.map (Frame.map (Entry.rename f g))) (t.doom p) := by
  cases t with
  | leaf => rfl
  | node c l e r =>
    cases l with
    | leaf => rfl
    | node cl ll el rl =>
      cases r with
      | leaf => rfl
      | node cr lr er rr =>
        have hleft := leftmost_map (Entry.rename f g) (.node cr lr er rr) []
        simp only [map_node, List.map_nil] at hleft
        simp only [map_node, doom, hleft]
        rcases (Tree.node cr lr er rr).leftmost [] with ⟨next, below⟩
        cases next with
        | leaf => rfl
        | node cs ls es rs =>
          simp only [Prod.map, map_node, List.map_append, List.map_cons]
          rfl

theorem erase?_rename (key : Bytes) (t : Tree) :
    (t.map (Entry.rename f g)).erase? (f key) =
      (t.erase? key).map (Option.map (Prod.map (map (Entry.rename f g)) (map (Entry.rename f g)))) := by
  have hdesc := descend_rename_nil (g := g) hf key t
  rw [erase?, erase?, hdesc]
  rcases t.descend key [] with ⟨found, path⟩
  cases found with
  | leaf => rfl
  | node c l e r =>
    have hdoom := doom_rename (f := f) (g := g) (.node c l e r) path
    simp only [Prod.map, map_node] at hdoom ⊢
    rw [hdoom]
    rcases (Tree.node c l e r).doom path with ⟨doomed, place⟩
    simp only [unlink?_map]
    cases doomed.unlink? place <;> rfl

end Tree

/-! ## Maps -/

namespace SortedMap

variable {m : SortedMap}

theorem get?_rename (key : Bytes) : (m.rename f g).get? (f key) = (m.get? key).map g := by
  have hdesc := Tree.descend_rename_nil (g := g) hf key m.root
  simp only [get?, rename, hdesc]
  rcases m.root.descend key [] with ⟨found, path⟩
  cases found <;> rfl

theorem contains_rename (key : Bytes) : (m.rename f g).contains (f key) = m.contains key := by
  rw [contains_eq, contains_eq, get?_rename hf, Option.isSome_map]

theorem insert_rename (key value : Bytes) : (m.rename f g).insert (f key) (g value) = (m.insert key value).rename f g := by
  have hins := Tree.insert?_rename (g := g) hf m.fresh key value m.root
  simp only [insert, insert?, rename, hins]
  cases m.root.insert? m.fresh key value with
  | error e => rfl
  | ok r =>
    obtain ⟨new, root⟩ := r
    cases new <;> rfl

theorem erase_rename (key : Bytes) : (m.rename f g).erase (f key) = Prod.map id (rename f g) (m.erase key) := by
  have herase := Tree.erase?_rename (g := g) hf key m.root
  simp only [erase, erase?, rename, herase]
  cases m.root.erase? key with
  | error e => rfl
  | ok r =>
    cases r with
    | none => rfl
    | some found =>
      obtain ⟨doomed, root⟩ := found
      have htop := Tree.top?_map (Entry.id_rename f g) doomed
      simp only [Except.map, Option.map_some, Prod.map, htop]
      cases doomed.top? <;> simp [rename]

omit hf in
theorem nodes_rename : (m.rename f g).nodes = m.nodes.map (Node.map (Entry.rename f g)) := by
  rw [nodes, nodes, List.map_append, ← Tree.nodes_map (Entry.id_rename f g)]
  rfl

omit hf in
theorem node?_rename (i : NodeId) : (m.rename f g).node? i = (m.node? i).map (Node.map (Entry.rename f g)) := by
  rw [node?, node?, nodes_rename, List.find?_map]
  rfl

end SortedMap

/-! ## Cursors -/

namespace Bounds

theorem isNear_rename (b : Bounds) (d : Direction) (key : Bytes) : (b.rename f).isNear d (f key) = b.isNear d key := by
  obtain ⟨start, stop⟩ := b
  cases d
  · cases start <;> simp [rename, isNear, precedes, Bytes.lt_iff_of_increasing hf]
  · cases stop <;> simp [rename, isNear, follows, Bytes.lt_iff_of_increasing hf]

theorem isFar_rename (b : Bounds) (d : Direction) (key : Bytes) : (b.rename f).isFar d (f key) = b.isFar d key := by
  obtain ⟨start, stop⟩ := b
  cases d
  · cases stop <;> simp [rename, isFar, follows, Bytes.lt_iff_of_increasing hf]
  · cases start <;> simp [rename, isFar, precedes, Bytes.lt_iff_of_increasing hf]

end Bounds

namespace Cursor

variable {m : SortedMap}

theorem start_rename (b : Bounds) (d : Direction) : start (m.rename f g) (b.rename f) d = (start m b d).rename f := by
  have hpush := pushTree_map (Entry.id_rename f g) (fun e => Bounds.isNear_rename hf b d e.key) m.root []
  rw [start, start, rename]
  exact congrArg (Cursor.mk (b.rename f) d) hpush

theorem next_rename (c : Cursor) :
    (c.rename f).next (m.rename f g) = Prod.map (Option.map (Prod.map f g)) (rename f) (c.next m) := by
  obtain ⟨b, d, stack⟩ := c
  cases stack with
  | nil => rfl
  | cons i stack =>
    have hnode := SortedMap.node?_rename (f := f) (g := g) (m := m) i
    simp only [next, rename, hnode]
    cases m.node? i with
    | none => rfl
    | some n =>
      have hfar := Bounds.isFar_rename hf b d n.entry.key
      have hpush := pushLink_map (Entry.id_rename f g) (fun e => Bounds.isNear_rename hf b d e.key) m.root m.detached
        (n.child d.onward) stack
      simp only [Option.map_some, Node.child_map, SortedMap.rename]
      rw [show (n.map (Entry.rename f g)).entry.key = f n.entry.key from rfl, hfar, hpush]
      cases b.isFar d n.entry.key <;> rfl

theorem take_rename (n : Nat) (c : Cursor) :
    (c.rename f).take (m.rename f g) n = Prod.map (List.map (Prod.map f g)) (rename f) (c.take m n) := by
  induction n generalizing c with
  | zero => rfl
  | succ n ih =>
    rw [take, take, next_rename hf]
    rcases c.next m with ⟨found, c'⟩
    cases found with
    | none => rfl
    | some pair =>
      simp only [Prod.map, Option.map_some, ih]
      rfl

theorem drain_rename (c : Cursor) :
    (c.rename f).drain (m.rename f g) = Prod.map (List.map (Prod.map f g)) (rename f) (c.drain m) := by
  have hsupply : (c.rename f).supply (m.rename f g) = c.supply m := by
    rw [supply, supply, SortedMap.nodes_rename, List.length_map]
    rfl
  rw [drain, drain, hsupply, take_rename hf]

end Cursor

end Increasing

/-! ## Sessions -/

/-- a call on a map or on a cursor -/
inductive MapCall where
  | newMap
  | put (map : MapId) (key value : Bytes)
  | delete (map : MapId) (key : Bytes)
  | lookup (map : MapId) (key : Bytes)
  | size (map : MapId)
  | tree (map : MapId)
  | newCursor (map : MapId) (bounds : Bounds) (order : Option Argument)
  | walk (map : MapId)
  | next (cursor : CursorId)
  | drain (cursor : CursorId)

namespace MapCall

def command : MapCall → Command
  | newMap => .newMap
  | put map key value => .put map key value
  | delete map key => .delete map key
  | lookup map key => .lookup map key
  | size map => .mapSize map
  | tree map => .tree map
  | newCursor map bounds order => .newCursor map bounds order
  | walk map => .walk (.map map)
  | next cursor => .next (.cursor cursor)
  | drain cursor => .drain (.cursor cursor)

/-- the same call with other keys, bounds and values -/
def rename (f g : Bytes → Bytes) : MapCall → MapCall
  | put map key value => put map (f key) (g value)
  | delete map key => delete map (f key)
  | lookup map key => lookup map (f key)
  | newCursor map bounds order => newCursor map (bounds.rename f) order
  | c => c

end MapCall

/-- the answer of a call on a map or a cursor with other keys and values -/
def Answer.rename (f g : Bytes → Bytes) : Answer → Answer
  | .found present value => .found present (value.map g)
  | .tree t => .tree (t.map (Entry.rename f g))
  | .pair p => .pair (p.map (Prod.map f g))
  | .pairs ps => .pairs (ps.map (Prod.map f g))
  | a => a

def LiveCursor.rename (f : Bytes → Bytes) (c : LiveCursor) : LiveCursor := { c with cursor := c.cursor.rename f }

namespace Session

/-- other keys and values in all maps, other bounds for all cursors -/
def rename (f g : Bytes → Bytes) (s : Session) : Session :=
  { s with maps := s.maps.map (SortedMap.rename f g), cursors := s.cursors.map (LiveCursor.rename f) }

theorem find_map {α β : Type} (h : α → β) (xs : List α) (i : Nat) : find (xs.map h) i = (find xs i).map h := by
  rw [find, find, List.getElem?_map]
  cases xs[i]? <;> rfl

theorem setMap_rename (s : Session) (i : MapId) (m : SortedMap) :
    (s.rename f g).setMap i (m.rename f g) = (s.setMap i m).rename f g := by
  simp only [setMap, rename, List.map_set]

theorem setCursor_rename (s : Session) (i : CursorId) (c : LiveCursor) :
    (s.rename f g).setCursor i (c.rename f) = (s.setCursor i c).rename f g := by
  simp only [setCursor, rename, List.map_set]

variable (hf : ∀ a b, a < b → f a < f b)

include hf

theorem newCursor_rename (s : Session) (i : MapId) (b : Bounds) (d : Direction) :
    (s.rename f g).newCursor i (b.rename f) d = (s.newCursor i b d).map (Prod.map id (rename f g)) := by
  simp only [newCursor, rename, find_map]
  cases find s.maps i with
  | error r => rfl
  | ok m =>
    simp only [Except.map, bind, Except.bind, Cursor.start_rename hf, addCursor, List.length_map]
    simp [pure, Except.pure, rename, LiveCursor.rename]

theorem nextOfCursor_rename (s : Session) (i : CursorId) :
    (s.rename f g).nextOfCursor i = Prod.map (Option.map (Prod.map f g)) (rename f g) (s.nextOfCursor i) := by
  have hcursor : (s.rename f g).cursors[i]? = s.cursors[i]?.map (LiveCursor.rename f) := List.getElem?_map
  rw [nextOfCursor, nextOfCursor, hcursor]
  cases s.cursors[i]? with
  | none => rfl
  | some c =>
    have hmap : (s.rename f g).maps[c.map]? = s.maps[c.map]?.map (SortedMap.rename f g) := List.getElem?_map
    simp only [Option.map_some, LiveCursor.rename, hmap]
    cases s.maps[c.map]? with
    | none => rfl
    | some m =>
      simp only [Option.map_some, Cursor.next_rename hf, Prod.map]
      exact congrArg (Prod.mk _) (setCursor_rename s i { c with cursor := (c.cursor.next m).2 })

theorem drainCursor_rename (s : Session) (i : CursorId) :
    (s.rename f g).drainCursor i = Prod.map (List.map (Prod.map f g)) (rename f g) (s.drainCursor i) := by
  have hcursor : (s.rename f g).cursors[i]? = s.cursors[i]?.map (LiveCursor.rename f) := List.getElem?_map
  rw [drainCursor, drainCursor, hcursor]
  cases s.cursors[i]? with
  | none => rfl
  | some c =>
    have hmap : (s.rename f g).maps[c.map]? = s.maps[c.map]?.map (SortedMap.rename f g) := List.getElem?_map
    simp only [Option.map_some, LiveCursor.rename, hmap]
    cases s.maps[c.map]? with
    | none => rfl
    | some m =>
      simp only [Option.map_some, Cursor.drain_rename hf, Prod.map]
      exact congrArg (Prod.mk _) (setCursor_rename s i { c with cursor := (c.cursor.drain m).2 })

theorem attempt_rename (s : Session) (c : MapCall) :
    (s.rename f g).attempt (c.rename f g).command =
      (s.attempt c.command).map (Prod.map (Answer.rename f g) (rename f g)) := by
  have hfind : ∀ i, find (s.rename f g).maps i = (find s.maps i).map (SortedMap.rename f g) := fun i => find_map _ _ i
  cases c with
  | newMap => simp [MapCall.rename, MapCall.command, attempt, addMap, rename, Except.map, Answer.rename, SortedMap.rename,
      SortedMap.empty]
  | put map key value =>
    simp only [MapCall.rename, MapCall.command, attempt, hfind]
    cases find s.maps map with
    | error r => rfl
    | ok m =>
      simp only [Except.map, bind, Except.bind, pure, Except.pure, SortedMap.insert_rename hf, setMap_rename]
      rfl
  | delete map key =>
    simp only [MapCall.rename, MapCall.command, attempt, hfind]
    cases find s.maps map with
    | error r => rfl
    | ok m =>
      simp only [Except.map, bind, Except.bind, pure, Except.pure, SortedMap.erase_rename hf, Prod.map, setMap_rename]
      rfl
  | lookup map key =>
    simp only [MapCall.rename, MapCall.command, attempt, hfind]
    cases find s.maps map with
    | error r => rfl
    | ok m =>
      simp only [Except.map, bind, Except.bind, pure, Except.pure, SortedMap.contains_rename hf, SortedMap.get?_rename hf]
      rfl
  | size map =>
    simp only [MapCall.rename, MapCall.command, attempt, hfind]
    cases find s.maps map <;> rfl
  | tree map =>
    simp only [MapCall.rename, MapCall.command, attempt, hfind]
    cases find s.maps map <;> rfl
  | newCursor map bounds order =>
    simp only [MapCall.rename, MapCall.command, attempt]
    cases Argument.asDirection order with
    | error r => rfl
    | ok d =>
      simp only [bind, Except.bind, newCursor_rename hf]
      cases s.newCursor map bounds d <;> rfl
  | walk map =>
    have hcursor : (s.rename f g).newCursor map .all .ascending =
        (s.newCursor map .all .ascending).map (Prod.map id (rename f g)) := newCursor_rename hf s map .all .ascending
    simp only [MapCall.rename, MapCall.command, attempt, walk, mapOf, bind, Except.bind, hcursor]
    cases s.newCursor map .all .ascending <;> rfl
  | next cursor =>
    simp only [MapCall.rename, MapCall.command, attempt, nextOfCursor_rename hf]
    rfl
  | drain cursor =>
    simp only [MapCall.rename, MapCall.command, attempt, drainCursor_rename hf]
    rfl

/-- one call goes the same way -/
theorem step_rename (s : Session) (c : MapCall) :
    (s.rename f g).step (c.rename f g).command =
      Prod.map (Except.map (Answer.rename f g)) (rename f g) (s.step c.command) := by
  rw [step, step, attempt_rename hf]
  cases s.attempt c.command <;> rfl

/-- any number of calls go the same way, from any session on -/
theorem run_rename_from (s : Session) (cs : List MapCall) :
    (s.rename f g).run (cs.map fun c => (c.rename f g).command) =
      Prod.map (List.map (Except.map (Answer.rename f g))) (rename f g) (s.run (cs.map MapCall.command)) := by
  induction cs generalizing s with
  | nil => rfl
  | cons c cs ih =>
    rw [List.map_cons, List.map_cons, run, run, step_rename hf]
    simp only [Prod.map, ih]
    rfl

/-- **Keys count by their order only, and values not at all.** Let any calls be made on maps and on cursors, from nothing on.
With every key and bound `k` replaced by `f k`, for any strictly increasing `f`, and every value `v` by `g v`, for any `g`, each
call gets the answer that it got before, renamed, and each map has a tree with the same nodes of the same colours in their
places. -/
theorem run_rename (g : Bytes → Bytes) (cs : List MapCall) :
    let old := empty.run (cs.map MapCall.command)
    let new := empty.run (cs.map fun c => (c.rename f g).command)
    new.1 = old.1.map (Except.map (Answer.rename f g)) ∧ new.2 = old.2.rename f g ∧
      ∀ i : MapId, new.2.maps[i]?.map SortedMap.root = old.2.maps[i]?.map fun m => m.root.map (Entry.rename f g) := by
  intro old new
  have h : new = Prod.map (List.map (Except.map (Answer.rename f g))) (rename f g) old := run_rename_from hf empty cs
  rw [h]
  refine ⟨rfl, rfl, fun i => ?_⟩
  simp only [Prod.map, rename, List.getElem?_map, Option.map_map]
  rfl

omit hf in
/-- keys that all get one byte more in front, and values that all become empty -/
theorem run_rename_prefixed :
    let f : Bytes → Bytes := fun k => 7 :: k
    let g : Bytes → Bytes := fun _ => []
    let cs : List MapCall := [.newMap, .put 0 [2] [20], .put 0 [] [10], .newCursor 0 ⟨some [], some [2]⟩ none, .delete 0 [2],
      .next 0, .next 0]
    (∀ a b, a < b → f a < f b) ∧ (empty.run (cs.map fun c => (c.rename f g).command)).1 =
      (empty.run (cs.map MapCall.command)).1.map (Except.map (Answer.rename f g)) := by
  intro f g cs
  have hf : ∀ a b, a < b → f a < f b := fun a b h => List.cons_lt_cons_iff.mpr (.inr ⟨rfl, h⟩)
  exact ⟨hf, (run_rename hf g cs).1⟩

end Session

end MeteredStore
