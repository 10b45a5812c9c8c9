/-
What a map holds, and what reading and writing have to do with it.

A sound map is a red-black tree whose nodes have numbers of their own, with the number of its nodes beside it. Reading
answers from its bindings (`get?_toList`), and writing changes them as it would change a list of bindings
(`insert_sound`, `erase_sound`); neither ever lacks a node that it needs. So every map that writes can lead to is sound
(`sound_written`).
-/
import MeteredStore.Proofs.Insertion
import MeteredStore.Proofs.Removal
import MeteredStore.SortedMap
import MeteredStore.Bindings

namespace MeteredStore

namespace Bindings

/-! ## Sorted bindings -/

theorem mem_iff_get? {b : Bindings} (h : b.Sorted) (key value : Bytes) : (key, value) ∈ b ↔ b.get? key = some value := by
  induction b with
  | nil => simp [get?]
  | cons p b ih =>
    obtain ⟨k, v⟩ := p
    obtain ⟨hk, hb⟩ := List.pairwise_cons.mp h
    rw [get?, List.mem_cons, ih hb, Prod.mk.injEq]
    by_cases hkey : k = key
    · subst hkey
      have hnone : get? b k ≠ some value := fun hg => Bytes.lt_irrefl k (hk _ ((ih hb).mpr hg))
      simp [hnone, eq_comm]
    · have : key ≠ k := fun h => hkey h.symm
      simp [hkey, this]

theorem get?_eq_none {b : Bindings} {key : Bytes} (h : ∀ p ∈ b, p.1 ≠ key) : b.get? key = none := by
  induction b with
  | nil => rfl
  | cons p b ih =>
    obtain ⟨k, v⟩ := p
    rw [get?, if_neg (h (k, v) List.mem_cons_self)]
    exact ih fun q hq => h q (List.mem_cons_of_mem _ hq)

/-- a new binding goes between the smaller and the greater keys -/
theorem insert_between {a b : Bindings} {key : Bytes} (value : Bytes) (ha : ∀ p ∈ a, p.1 < key)
    (hb : ∀ p ∈ b, key < p.1) : (a ++ b).insert key value = a ++ (key, value) :: b := by
  induction a with
  | nil =>
    cases b with
    | nil => rfl
    | cons q b => simp [insert, hb q List.mem_cons_self]
  | cons p a ih =>
    have hp := ha p List.mem_cons_self
    have ih := ih fun q hq => ha q (List.mem_cons_of_mem _ hq)
    simp [insert, hp, Bytes.lt_asymm hp, ih]

/-- the new value of a key takes the place of the old one -/
theorem insert_at {a b : Bindings} {key : Bytes} (old value : Bytes) (ha : ∀ p ∈ a, p.1 < key) :
    (a ++ (key, old) :: b).insert key value = a ++ (key, value) :: b := by
  induction a with
  | nil => simp [insert, Bytes.lt_irrefl]
  | cons p a ih =>
    have hp := ha p List.mem_cons_self
    have ih := ih fun q hq => ha q (List.mem_cons_of_mem _ hq)
    simp [insert, hp, Bytes.lt_asymm hp, ih]

theorem erase_of_absent {b : Bindings} {key : Bytes} (h : ∀ p ∈ b, p.1 ≠ key) : b.erase key = b :=
  List.filter_eq_self.mpr fun p hp => by simpa using h p hp

theorem erase_at {a b : Bindings} {key value : Bytes} (h : Sorted (a ++ (key, value) :: b)) :
    (a ++ (key, value) :: b).erase key = a ++ b := by
  obtain ⟨-, h₂, h₃⟩ := List.pairwise_append.mp h
  have ha : a.erase key = a := erase_of_absent fun p hp hk =>
    Bytes.lt_irrefl key (by simpa [hk] using h₃ p hp (key, value) List.mem_cons_self)
  have hb : b.erase key = b := erase_of_absent fun p hp hk =>
    Bytes.lt_irrefl key (by simpa [hk] using (List.pairwise_cons.mp h₂).1 p hp)
  have hk : erase ((key, value) :: b) key = b.erase key := by simp [erase]
  rw [erase, List.filter_append]
  exact congrArg₂ (· ++ ·) ha (hk.trans hb)

end Bindings

namespace Tree

theorem sorted_toList {t : Tree} (h : t.Ordered) : Bindings.Sorted t.toList := List.pairwise_map.mpr h

theorem length_toList (t : Tree) : t.toList.length = t.size := by rw [toList, List.length_map, length_entries]

/-- an erased entry takes its binding with it and leaves the others in order -/
theorem erase_of_erased {key : Bytes} {d : Entry} {x y : List Entry} (h : Erased key d x y)
    (hs : Bindings.Sorted (x.map fun e => (e.key, e.value))) :
    (y.map fun e => (e.key, e.value)) = Bindings.erase (x.map fun e => (e.key, e.value)) key := by
  cases h with
  | here hk =>
    simp only [List.map_append, List.map_cons, hk] at hs ⊢
    exact (Bindings.erase_at hs).symm
  | next hk =>
    simp only [List.map_append, List.map_cons, hk] at hs ⊢
    exact (Bindings.erase_at hs).symm

theorem exists_mem_of_erased {key : Bytes} {d : Entry} {x y : List Entry} (h : Erased key d x y) :
    ∃ e ∈ x, e.key = key := by
  cases h with
  | here hk => exact ⟨d, by simp, hk⟩
  | next hk => exact ⟨_, by simp, hk⟩

/-- the numbers in use lose the one of the erased entry -/
theorem perm_of_erased {key : Bytes} {d : Entry} {x y : List Entry} (h : Erased key d x y) :
    (x.map Entry.id).Perm (d.id :: y.map Entry.id) := by
  cases h with
  | here =>
    simp only [List.map_append, List.map_cons]
    exact List.perm_middle
  | next =>
    rename_i a b e hk
    have hmid : (a.map Entry.id ++ [e.id] ++ d.id :: b.map Entry.id).Perm
        (d.id :: (a.map Entry.id ++ [e.id] ++ b.map Entry.id)) := List.perm_middle
    simpa using hmid

end Tree

namespace SortedMap

/-- the numbers of all nodes that were ever made and are known still -/
def ids (m : SortedMap) : List NodeId := m.root.entries.map Entry.id ++ m.detached.map fun n => n.entry.id

/-- a red-black tree with the number of its nodes; no two nodes, in the tree or taken out, have the same number -/
structure Sound (m : SortedMap) : Prop where
  redBlack : m.root.RedBlack
  size : m.size = m.root.size
  nodup : m.ids.Nodup
  fresh : ∀ i ∈ m.ids, i < m.fresh

theorem sound_empty : empty.Sound where
  redBlack := ⟨rfl, trivial, ⟨0, rfl⟩, List.Pairwise.nil⟩
  size := rfl
  nodup := List.nodup_nil
  fresh := by simp [ids, empty, Tree.entries]

namespace Sound

variable {m : SortedMap}

theorem sorted (h : m.Sound) : Bindings.Sorted m.toList := Tree.sorted_toList h.redBlack.ordered

theorem length_toList (h : m.Sound) : m.toList.length = m.size := by rw [h.size]; exact Tree.length_toList _

theorem distinct (h : m.Sound) : m.root.Distinct :=
  List.pairwise_map.mp (List.nodup_append.mp h.nodup).1

/-! ## Reading -/

theorem get?_toList (h : m.Sound) (key : Bytes) : m.get? key = Bindings.get? m.toList key := by
  obtain ⟨ha, hb⟩ := Path.bracket_descend h.redBlack.ordered (Path.bracket_nil key)
  have hfill := Tree.fill_descend key m.root []
  rw [Path.fill_nil] at hfill
  unfold get?
  cases hd : m.root.descend key [] with
  | mk found path =>
    rw [hd] at ha hb hfill
    cases found with
    | leaf =>
      refine (Bindings.get?_eq_none fun p hp hk => ?_).symm
      simp only [toList, Tree.toList, ← hfill, Path.entries_fill, Tree.entries, List.append_nil, List.mem_map,
        List.mem_append] at hp
      obtain ⟨e, he | he, rfl⟩ := hp
      · exact Bytes.lt_irrefl key (hk ▸ ha e he)
      · exact Bytes.lt_irrefl key (hk ▸ hb e he)
    | node c l e r =>
      refine ((Bindings.mem_iff_get? h.sorted _ _).mp ?_).symm
      rw [← Tree.descend_key hd]
      refine List.mem_map.mpr ⟨e, ?_, rfl⟩
      rw [← hfill, Path.entries_fill]
      simp [Tree.entries]

theorem contains_toList (h : m.Sound) (key : Bytes) : m.contains key = (Bindings.get? m.toList key).isSome := by
  rw [contains_eq, h.get?_toList]

end Sound

/-! ## Writing -/

/-- what writing a pair leads to: a new node, or the old one of the key with the new value -/
theorem insert_cases {m : SortedMap} (h : m.Sound) (key value : Bytes) :
    ∃ root a b, root.RedBlack ∧ (∀ e ∈ a, e.key < key) ∧ (∀ e ∈ b, key < e.key) ∧
      ((m.insert? key value = .ok { m with root := root, size := m.size + 1, fresh := m.fresh + 1 } ∧
          m.root.entries = a ++ b ∧ root.entries = a ++ ⟨m.fresh, key, value⟩ :: b) ∨
        ∃ e, m.insert? key value = .ok { m with root := root } ∧ e.key = key ∧ m.root.entries = a ++ e :: b ∧
          root.entries = a ++ { e with value := value } :: b) := by
  obtain ⟨new, root, hins, hroot, a, b, ha, hb, hcase⟩ := Tree.insert?_spec h.redBlack m.fresh key value
  refine ⟨root, a, b, hroot, ha, hb, ?_⟩
  rcases hcase with ⟨rfl, ht, hr⟩ | ⟨e, rfl, hk, ht, hr⟩
  · exact .inl ⟨by simp only [insert?, hins], ht, hr⟩
  · exact .inr ⟨e, by simp only [insert?, hins], hk, ht, hr⟩

theorem insert_of_insert? {m n : SortedMap} {key value : Bytes} (h : m.insert? key value = .ok n) :
    m.insert key value = n := by
  simp only [insert, h]

/-- writing a pair never fails, keeps the map sound, and binds the value to the key -/
theorem insert_sound {m : SortedMap} (h : m.Sound) (key value : Bytes) :
    m.insert? key value = .ok (m.insert key value) ∧ (m.insert key value).Sound ∧
      (m.insert key value).toList = Bindings.insert m.toList key value := by
  obtain ⟨root, a, b, hroot, ha, hb, ⟨hins, ht, hr⟩ | ⟨e, hins, hk, ht, hr⟩⟩ := insert_cases h key value
  · rw [insert_of_insert? hins]
    have hids : (ids { m with root := root, size := m.size + 1, fresh := m.fresh + 1 }).Perm (m.fresh :: m.ids) := by
      simp only [ids, ht, hr, List.map_append, List.map_cons, List.append_assoc, List.cons_append]
      exact List.perm_middle
    refine ⟨hins, ⟨hroot, ?_, ?_, ?_⟩, ?_⟩
    · have hsize := h.size
      rw [← Tree.length_entries, ht, List.length_append] at hsize
      rw [← Tree.length_entries, hr, List.length_append, List.length_cons, hsize]
      rfl
    · exact hids.nodup_iff.mpr (List.nodup_cons.mpr ⟨fun hi => Nat.lt_irrefl _ (h.fresh _ hi), h.nodup⟩)
    · intro i hi
      rcases List.mem_cons.mp (hids.subset hi) with rfl | hi
      · exact Nat.lt_succ_self _
      · exact Nat.lt_succ_of_lt (h.fresh i hi)
    · simp only [toList, Tree.toList, ht, hr, List.map_append, List.map_cons]
      refine (Bindings.insert_between value ?_ ?_).symm
      · simpa using ha
      · simpa using hb
  · rw [insert_of_insert? hins]
    have hids : ids { m with root := root } = m.ids := by
      simp only [ids, ht, hr, List.map_append, List.map_cons]
    refine ⟨hins, ⟨hroot, ?_, hids ▸ h.nodup, hids ▸ h.fresh⟩, ?_⟩
    · have hsize := h.size
      rw [← Tree.length_entries, ht] at hsize
      rw [← Tree.length_entries, hr, hsize, List.length_append, List.length_append, List.length_cons, List.length_cons]
    · simp only [toList, Tree.toList, ht, hr, hk, List.map_append, List.map_cons]
      refine (Bindings.insert_at e.value value ?_).symm
      simpa using ha

theorem erase_of_erase? {m : SortedMap} {key : Bytes} {r : Bool × SortedMap} (h : m.erase? key = .ok r) :
    m.erase key = r := by
  simp only [erase, h]

/-- what erasing a key leads to: nothing, or a tree without the entry of the key and one more node taken out, with at most
one child, which stays in the tree -/
theorem erase_cases {m : SortedMap} (h : m.Sound) (key : Bytes) :
    (m.erase? key = .ok (false, m) ∧ ∀ e ∈ m.root.entries, e.key ≠ key) ∨
      ∃ n root, m.erase? key =
          .ok (true, { m with root := root, size := m.size - 1, detached := m.detached ++ [n] }) ∧
        root.RedBlack ∧ Tree.Erased key n.entry m.root.entries root.entries ∧
        (∀ s, ∀ i ∈ n.child s, i ∈ root.entries.map Entry.id) ∧ (n.left = none ∨ n.right = none) := by
  rcases Tree.erase?_spec h.redBlack key with ⟨he, hk⟩ | ⟨c, l, d, r, root, he, hroot, hkey, hbelow, hone⟩
  · exact .inl ⟨by simp only [erase?, he], hk⟩
  · refine .inr ⟨⟨c, d, l.topId, r.topId⟩, root, by simp only [erase?, he]; rfl, hroot, hkey, ?_,
      hone.imp (congrArg Tree.topId) (congrArg Tree.topId)⟩
    have hids : ∀ i ∈ (l.entries ++ r.entries).map Entry.id, i ∈ root.entries.map Entry.id :=
      List.map_subset _ hbelow
    rw [List.map_append] at hids
    rintro (_ | _) i hi
    · exact hids i (List.mem_append_left _ (Tree.mem_of_topId hi))
    · exact hids i (List.mem_append_right _ (Tree.mem_of_topId hi))

/-- erasing a key never fails, keeps the map sound, tells whether the key was there, and takes its binding out -/
theorem erase_sound {m : SortedMap} (h : m.Sound) (key : Bytes) :
    m.erase? key = .ok (m.erase key) ∧ (m.erase key).2.Sound ∧ (m.erase key).1 = m.contains key ∧
      (m.erase key).2.toList = Bindings.erase m.toList key := by
  rcases erase_cases h key with ⟨he, hk⟩ | ⟨n, root, he, hroot, hkey, -⟩
  · rw [erase_of_erase? he, h.contains_toList]
    have hk' : ∀ p ∈ m.toList, p.1 ≠ key := by simpa [toList, Tree.toList] using hk
    exact ⟨he, h, by rw [Bindings.get?_eq_none hk']; rfl, (Bindings.erase_of_absent hk').symm⟩
  · rw [erase_of_erase? he, h.contains_toList]
    have hperm := Tree.perm_of_erased hkey
    have hids : (ids { m with root := root, size := m.size - 1, detached := m.detached ++ [n] }).Perm m.ids := by
      simp only [ids, List.map_append, List.map_cons, List.map_nil]
      refine List.Perm.trans ?_ (hperm.append_right _).symm
      rw [← List.append_assoc]
      exact List.perm_append_comm
    refine ⟨he, ⟨hroot, ?_, hids.nodup_iff.mpr h.nodup, fun i hi => h.fresh i (hids.subset hi)⟩, ?_, ?_⟩
    · have hlen := hperm.length_eq
      simp only [List.length_map, List.length_cons, Tree.length_entries] at hlen
      simp only [h.size]
      omega
    · obtain ⟨e, hmem, hk⟩ := Tree.exists_mem_of_erased hkey
      have hget := (Bindings.mem_iff_get? h.sorted key e.value).mp (List.mem_map.mpr ⟨e, hmem, by rw [hk]⟩)
      rw [hget]
      rfl
    · exact Tree.erase_of_erased hkey h.sorted

/-! ## Every map that writes can lead to -/

/-- one change of a map -/
inductive Write where
  | put (key value : Bytes)
  | delete (key : Bytes)
deriving DecidableEq, Repr

def write (m : SortedMap) : Write → SortedMap
  | .put key value => m.insert key value
  | .delete key => (m.erase key).2

/-- the map after writes in order, from the empty one on -/
def written (ws : List Write) : SortedMap := ws.foldl write empty

theorem write_sound {m : SortedMap} (h : m.Sound) (w : Write) : (m.write w).Sound := by
  cases w with
  | put key value => exact (insert_sound h key value).2.1
  | delete key => exact (erase_sound h key).2.1

theorem foldl_write_sound {m : SortedMap} (h : m.Sound) (ws : List Write) : (ws.foldl write m).Sound := by
  induction ws generalizing m with
  | nil => exact h
  | cons w ws ih => exact ih (write_sound h w)

theorem sound_written (ws : List Write) : (written ws).Sound := foldl_write_sound sound_empty ws

end SortedMap

end MeteredStore
