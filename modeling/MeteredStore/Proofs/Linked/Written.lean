/-
Linked cells through any writes.

Cells hold an ordered map when they show its tree, count its nodes, and are besides only the nodes taken out of it, each as
it was when it was taken out, up to its parent (`Holds`). Every write takes cells that hold a map to cells that hold the map
after the write (`write_holds`), and tells the same (`delete_holds`). Reading makes the search that the writes make, and reads
what the map reads (`Holds.get?`, `Holds.contains`).

Main statement: `written_valid`, after any puts and deletes from nothing on, the cells that can be reached are a red-black
tree with all links in order (`Linked.Valid` lists the rules), and they are the nodes of the ordered map.
-/
import MeteredStore.Linked.Reading
import MeteredStore.Proofs.Contents
import MeteredStore.Proofs.Linked.Insertion
import MeteredStore.Proofs.Linked.Removal
import MeteredStore.Proofs.Linked.Ways

namespace MeteredStore

/-- what a cell says apart from its parent -/
def Cell.record (c : Cell) (i : NodeId) : Node := ⟨c.color, ⟨i, c.key, c.value⟩, c.left, c.right⟩

namespace Linked

/-- the cells are the nodes of an ordered map -/
structure Holds (h : Linked) (m : SortedMap) : Prop where
  /-- the number of the next node is the number of the next cell -/
  fresh : h.cells.length = m.fresh
  /-- those that can be reached are the tree, and the others are the nodes taken out -/
  shows : ∃ rest, h.Shows m.size rest m.root [] ∧ rest.map (fun x => x.1.record x.2) = (m.detached : Multiset Node)

theorem holds_empty : empty.Holds SortedMap.empty := ⟨rfl, 0, ⟨rfl, rfl, rfl⟩, rfl⟩

/-! ## One write -/

variable {h : Linked} {m : SortedMap}

/-- every cell is a node of the tree or one of the rest -/
theorem Shows.length_cells {n : Nat} {rest : Bag} {t : Tree} (hs : h.Shows n rest t []) :
    h.cells.length = t.size + rest.card := by
  have ht : (t.cells none).card = t.size := by
    rw [← Multiset.card_map Prod.snd, map_snd_cells, Multiset.coe_card, List.length_map, Tree.length_entries]
  rw [Linked.length_cells, hs.contents, Multiset.card_add, Path.topId_nil, ht, Path.cells, zero_add]

theorem put_holds (hm : h.Holds m) (hs : m.Sound) (key value : Bytes) :
    ∃ h', h.put key value = some h' ∧ h'.Holds (m.insert key value) := by
  obtain ⟨rest, hshow, hrest⟩ := hm.shows
  obtain ⟨h', new, root, hins, hput, hshow'⟩ := put_spec hshow hs.redBlack key value
  rw [hm.fresh] at hins
  have hsound := (SortedMap.insert_sound hs key value).2.1
  have hlen := hm.fresh
  rw [hshow.length_cells, ← hs.size] at hlen
  refine ⟨h', hput, ?_⟩
  cases new with
  | false =>
    have hmap : m.insert key value = { m with root := root } := by
      simp only [SortedMap.insert, SortedMap.insert?, hins]
    rw [hmap] at hsound ⊢
    refine ⟨?_, rest, hshow', hrest⟩
    rw [hshow'.length_cells, ← hsound.size]
    exact hlen
  | true =>
    have hmap : m.insert key value = { m with root := root, size := m.size + 1, fresh := m.fresh + 1 } := by
      simp only [SortedMap.insert, SortedMap.insert?, hins]
    rw [hmap] at hsound ⊢
    refine ⟨?_, rest, hshow', hrest⟩
    rw [hshow'.length_cells, ← hsound.size]
    simp only
    omega

theorem delete_holds (hm : h.Holds m) (hs : m.Sound) (key : Bytes) :
    ∃ h', h.delete key = some ((m.erase key).1, h') ∧ h'.Holds (m.erase key).2 := by
  obtain ⟨rest, hshow, hrest⟩ := hm.shows
  rcases delete_spec hshow hs.redBlack key with ⟨he, hdel⟩ | ⟨c, l, e, r, root, h', parent, he, hdel, hshow'⟩
  · have hmap : m.erase key = (false, m) := by simp only [SortedMap.erase, SortedMap.erase?, he]
    rw [hmap]
    exact ⟨h, hdel, hm⟩
  · have hmap : m.erase key = (true, { m with
        root := root, size := m.size - 1, detached := m.detached ++ [⟨c, e, l.topId, r.topId⟩] }) := by
      simp only [SortedMap.erase, SortedMap.erase?, he]
      rfl
    have hsound := (SortedMap.erase_sound hs key).2.1
    have hlen := hm.fresh
    have hpos : m.root.size ≠ 0 := by
      intro hz
      cases hroot : m.root with
      | leaf => simp [hroot, Tree.erase?, Tree.descend] at he
      | node c l e r => simp [hroot, Tree.size] at hz
    rw [hmap] at hsound ⊢
    refine ⟨h', hdel, ?_, _, hshow', ?_⟩
    · have hsize := hs.size
      have hsize' := hsound.size
      rw [hshow.length_cells] at hlen
      rw [hshow'.length_cells, Multiset.card_add, Multiset.card_singleton]
      simp only at hsize' ⊢
      omega
    · rw [Multiset.map_add, hrest, add_comm, Multiset.map_singleton]
      rfl

/-! ## Reading -/

/-- a search on cells reads what the search on the map reads -/
theorem Holds.get? (hm : h.Holds m) (key : Bytes) : h.get? key = some (m.get? key) := by
  obtain ⟨rest, hshow, -⟩ := hm.shows
  have hfound := hshow.shows_descend key
  simp only [Linked.get?, hshow.descend, SortedMap.get?]
  cases hd : m.root.descend key [] with
  | mk found path =>
    rw [hd] at hfound
    cases found with
    | leaf => rfl
    | node c l e r => simp [Tree.topId, Shows.top hfound]

theorem Holds.contains (hm : h.Holds m) (key : Bytes) : h.contains key = some (m.contains key) := by
  obtain ⟨rest, hshow, -⟩ := hm.shows
  simp only [Linked.contains, hshow.descend, SortedMap.contains]
  cases (m.root.descend key []).1 <;> rfl

/-! ## All writes -/

/-- one change of the cells -/
def write (h : Linked) : SortedMap.Write → Option Linked
  | .put key value => h.put key value
  | .delete key => (h.delete key).map Prod.snd

/-- the cells after writes in order, from none on -/
def written (ws : List SortedMap.Write) : Option Linked := ws.foldlM write empty

theorem write_holds (hm : h.Holds m) (hs : m.Sound) (w : SortedMap.Write) :
    ∃ h', h.write w = some h' ∧ h'.Holds (m.write w) := by
  cases w with
  | put key value => exact put_holds hm hs key value
  | delete key =>
    obtain ⟨h', hdel, hm'⟩ := delete_holds hm hs key
    exact ⟨h', by rw [write, hdel]; rfl, hm'⟩

theorem foldlM_write_holds (hm : h.Holds m) (hs : m.Sound) (ws : List SortedMap.Write) :
    ∃ h', ws.foldlM write h = some h' ∧ h'.Holds (ws.foldl SortedMap.write m) := by
  induction ws generalizing h m with
  | nil => exact ⟨h, rfl, hm⟩
  | cons w ws ih =>
    obtain ⟨h₁, e₁, hm₁⟩ := write_holds hm hs w
    obtain ⟨h', e', hm'⟩ := ih hm₁ (SortedMap.write_sound hs w)
    exact ⟨h', by rw [List.foldlM_cons, e₁]; exact e', hm'⟩

/-- whatever is written, the cells are the nodes of the ordered map -/
theorem written_holds (ws : List SortedMap.Write) : ∃ h, written ws = some h ∧ h.Holds (SortedMap.written ws) :=
  foldlM_write_holds holds_empty SortedMap.sound_empty ws

theorem Holds.valid (hm : h.Holds m) (hs : m.Sound) : h.Valid := by
  obtain ⟨rest, hshow, -⟩ := hm.shows
  rw [hs.size] at hshow
  exact valid_of_shows hshow hs.redBlack

/-- **All links are in order.** Whatever is put and deleted, in whatever order, every operation comes to an end, and
afterwards the cells that can be reached are a red-black tree with all its links in order. These cells are the nodes of the
ordered map, whose tree is red-black. -/
theorem written_valid (ws : List SortedMap.Write) :
    ∃ h, written ws = some h ∧ h.Valid ∧ h.Holds (SortedMap.written ws) ∧ (SortedMap.written ws).root.RedBlack := by
  obtain ⟨h, e, hm⟩ := written_holds ws
  have hs := SortedMap.sound_written ws
  exact ⟨h, e, hm.valid hs, hm, hs.redBlack⟩

end Linked

end MeteredStore
