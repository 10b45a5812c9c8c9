/-
A map answers as a plain finite map would.

A plain finite map is nothing but the rule that takes each key to its value, if it has one (`Rule`); its size is the number
of keys that have one. The same calls are answered by it, by a map, and by the cells that link to one another. `Agree` says that
a sound map holds the bindings of a rule, and cells that hold the map answer as it does (`Agree.serve_cells`).

Main statement: `serve_eq`, over any sequence of calls on a new map, or on no cells to begin with, all answers are those of the
rule: the value put last and not deleted since, membership, whether a deleted key was there, the number of bindings. After
each call the map, and the tree that the cells form, list the bindings of the rule, each key once, in increasing order.
-/
import MeteredStore.Proofs.Linked.Treelike

namespace MeteredStore

/-- a call on a map -/
inductive Call where
  | put (key value : Bytes)
  | delete (key : Bytes)
  | get (key : Bytes)
  | has (key : Bytes)
  | size
deriving DecidableEq, Repr

/-- the answer to a call -/
inductive Reply where
  | done
  | flag (b : Bool)
  | value (v : Option Bytes)
  | count (n : Nat)
deriving DecidableEq, Repr

/-- answers calls one after the other -/
def serve {σ : Type} (call : σ → Call → Reply × σ) (s : σ) : List Call → List Reply × σ
  | [] => ([], s)
  | c :: cs =>
    let (reply, s) := call s c
    let (replies, s) := serve call s cs
    (reply :: replies, s)

def SortedMap.call (m : SortedMap) : Call → Reply × SortedMap
  | .put key value => (.done, m.insert key value)
  | .delete key =>
    let (present, m) := m.erase key
    (.flag present, m)
  | .get key => (.value (m.get? key), m)
  | .has key => (.flag (m.contains key), m)
  | .size => (.count m.size, m)

namespace Linked

/-- one call on linked cells, which has no outcome if what it does has none -/
def call (h : Linked) : Call → Option (Reply × Linked)
  | .put key value => do return (.done, ← h.put key value)
  | .delete key => do
    let (present, h) ← h.delete key
    return (.flag present, h)
  | .get key => do return (.value (← h.get? key), h)
  | .has key => do return (.flag (← h.contains key), h)
  | .size => return (.count h.size, h)

/-- answers calls one after the other -/
def serve (h : Linked) : List Call → Option (List Reply × Linked)
  | [] => return ([], h)
  | c :: cs => do
    let (reply, h) ← h.call c
    let (replies, h) ← h.serve cs
    return (reply :: replies, h)

/-- one call: cells that hold a map answer as it does, and hold it again -/
theorem Holds.call {h : Linked} {m : SortedMap} (hm : h.Holds m) (hs : m.Sound) (c : Call) :
    ∃ h', h.call c = some ((m.call c).1, h') ∧ h'.Holds (m.call c).2 := by
  cases c with
  | put key value =>
    obtain ⟨h', hput, hm'⟩ := put_holds hm hs key value
    exact ⟨h', by rw [Linked.call, hput]; rfl, hm'⟩
  | delete key =>
    obtain ⟨h', hdel, hm'⟩ := delete_holds hm hs key
    exact ⟨h', by rw [Linked.call, hdel]; rfl, hm'⟩
  | get key => exact ⟨h, by rw [Linked.call, hm.get?]; rfl, hm⟩
  | has key => exact ⟨h, by rw [Linked.call, hm.contains]; rfl, hm⟩
  | size =>
    obtain ⟨rest, hshow, -⟩ := hm.shows
    exact ⟨h, by rw [Linked.call, hshow.size]; rfl, hm⟩

theorem Holds.toList {h : Linked} {m : SortedMap} (hm : h.Holds m) : h.tree.toList = m.toList := by
  obtain ⟨rest, hshow, -⟩ := hm.shows
  rw [hshow.tree_eq, SortedMap.toList]

end Linked

/-- a plain finite map: the value of each key -/
abbrev Rule := Bytes → Option Bytes

namespace Rule

def empty : Rule := fun _ => none

/-- the number of keys that have a value -/
noncomputable def size (f : Rule) : Nat := Set.ncard {key | f key ≠ none}

noncomputable def call (f : Rule) : Call → Reply × Rule
  | .put key value => (.done, Function.update f key (some value))
  | .delete key => (.flag (f key).isSome, Function.update f key none)
  | .get key => (.value (f key), f)
  | .has key => (.flag (f key).isSome, f)
  | .size => (.count f.size, f)

end Rule

/-- a sound map that holds the bindings of a rule -/
structure Agree (m : SortedMap) (f : Rule) : Prop where
  sound : m.Sound
  get : ∀ key, Bindings.get? m.toList key = f key

namespace Agree

variable {m : SortedMap} {f : Rule}

theorem empty : Agree .empty .empty := ⟨SortedMap.sound_empty, fun _ => rfl⟩

theorem mem_iff (h : Agree m f) (key value : Bytes) : (key, value) ∈ m.toList ↔ f key = some value := by
  rw [Bindings.mem_iff_get? h.sound.sorted, h.get]

theorem size (h : Agree m f) : m.size = f.size := by
  have hset : {key | f key ≠ none} = ((m.toList.map Prod.fst).toFinset : Set Bytes) := by
    ext key
    simp only [Set.mem_ofPred_eq, List.coe_toFinset, List.mem_map, Prod.exists, exists_and_right, exists_eq_right,
      h.mem_iff, Option.ne_none_iff_exists']
  have hnodup : (m.toList.map Prod.fst).Nodup := by
    refine List.pairwise_map.mpr (h.sound.sorted.imp ?_)
    intro p q hlt heq
    exact Bytes.lt_irrefl _ (heq ▸ hlt)
  rw [Rule.size, hset, Set.ncard_coe_finset, List.toFinset_card_of_nodup hnodup, List.length_map, h.sound.length_toList]

theorem put (h : Agree m f) (key value : Bytes) : Agree (m.insert key value) (Function.update f key (some value)) := by
  obtain ⟨-, hs, hl⟩ := SortedMap.insert_sound h.sound key value
  refine ⟨hs, ?_⟩
  intro other
  rw [hl, Bindings.get?_insert, h.get, Function.update_apply]
  simp only [eq_comm]

theorem delete (h : Agree m f) (key : Bytes) : Agree (m.erase key).2 (Function.update f key none) := by
  obtain ⟨-, hs, -, hl⟩ := SortedMap.erase_sound h.sound key
  refine ⟨hs, ?_⟩
  intro other
  rw [hl, Bindings.get?_erase, h.get, Function.update_apply]
  simp only [eq_comm]

/-- one call: the same answer, and again the same bindings -/
theorem call (h : Agree m f) (c : Call) : (m.call c).1 = (f.call c).1 ∧ Agree (m.call c).2 (f.call c).2 := by
  have hget : ∀ key, m.get? key = f key := fun key => (h.sound.get?_toList key).trans (h.get key)
  have hhas : ∀ key, m.contains key = (f key).isSome := fun key => by rw [SortedMap.contains_eq, hget]
  cases c with
  | put key value => exact ⟨rfl, h.put key value⟩
  | delete key =>
    obtain ⟨-, -, hflag, -⟩ := SortedMap.erase_sound h.sound key
    exact ⟨congrArg Reply.flag (hflag.trans (hhas key)), h.delete key⟩
  | get key => exact ⟨congrArg Reply.value (hget key), h⟩
  | has key => exact ⟨congrArg Reply.flag (hhas key), h⟩
  | size => exact ⟨congrArg Reply.count h.size, h⟩

/-- any sequence of calls -/
theorem serve (h : Agree m f) (cs : List Call) :
    (serve SortedMap.call m cs).1 = (MeteredStore.serve Rule.call f cs).1 ∧
      Agree (MeteredStore.serve SortedMap.call m cs).2 (MeteredStore.serve Rule.call f cs).2 := by
  induction cs generalizing m f with
  | nil => exact ⟨rfl, h⟩
  | cons c cs ih =>
    obtain ⟨hr, hc⟩ := h.call c
    obtain ⟨hrs, hcs⟩ := ih hc
    exact ⟨congrArg₂ List.cons hr hrs, hcs⟩

/-- any sequence of calls on cells that hold the map -/
theorem serve_cells {k : Linked} (h : Agree m f) (hk : k.Holds m) (cs : List Call) :
    ∃ k', k.serve cs = some ((MeteredStore.serve Rule.call f cs).1, k') ∧
      k'.Holds (MeteredStore.serve SortedMap.call m cs).2 := by
  induction cs generalizing m f k with
  | nil => exact ⟨k, rfl, hk⟩
  | cons c cs ih =>
    obtain ⟨hr, hc⟩ := h.call c
    obtain ⟨k', hcall, hk'⟩ := hk.call h.sound c
    obtain ⟨k'', hserve, hk''⟩ := ih hc hk'
    refine ⟨k'', ?_, hk''⟩
    rw [Linked.serve, hcall, hr]
    simp only [bind, Option.bind, hserve]
    rfl

end Agree

/-- **A map is its bindings.** Over any sequence of calls on a new map, and over the same calls on linked cells, every answer is
the one that a plain finite map gives. After each call the map and the tree of the cells list exactly the bindings of the plain
map, each key once, in increasing order. -/
theorem serve_eq (cs : List Call) :
    (serve SortedMap.call .empty cs).1 = (serve Rule.call .empty cs).1 ∧
      ∀ n, let m := (serve SortedMap.call .empty (cs.take n)).2
        let f := (serve Rule.call .empty (cs.take n)).2
        m.toList.Pairwise (fun p q => p.1 < q.1) ∧ (∀ key value, (key, value) ∈ m.toList ↔ f key = some value) ∧
          ∃ h, Linked.empty.serve (cs.take n) = some ((serve Rule.call .empty (cs.take n)).1, h) ∧ h.Holds m ∧
            h.tree.toList = m.toList := by
  refine ⟨(Agree.empty.serve cs).1, ?_⟩
  intro n
  have h := (Agree.empty.serve (cs.take n)).2
  obtain ⟨k, hserve, hk⟩ := Agree.empty.serve_cells Linked.holds_empty (cs.take n)
  exact ⟨h.sound.sorted, h.mem_iff, k, hserve, hk, hk.toList⟩

end MeteredStore
