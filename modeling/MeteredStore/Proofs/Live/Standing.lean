/-
A walk while the keys stand still.

A write may leave the keys of a map as they are: a put of a key that is there, a delete of one that is not (`Quiet`). It then
changes the value in one node at most, and nothing else about any node: in the tree (`write_quiet`) and on the cells
(`Linked.write_quiet`). What is ahead of a cursor stays ahead of it, with the values of the moment (`Ahead.map`), and each step
takes one key off it (`Awaits`).

Main statement: `standing_exact`, a cursor on any map that writes lead to answers exactly the keys from the start on and before
the stop, each once, in the order of the walk, each with the value that the map has for it at that moment, and then the end. The
size of the map stays, and so does all that the cells say apart from values.
-/
import MeteredStore.Proofs.Entries.Trees
import MeteredStore.Proofs.Linked.Written
import MeteredStore.Proofs.Live.Links

namespace MeteredStore

/-! ## Writes that leave the keys as they are -/

/-- the new value at its key, any other entry as it is -/
def Entry.overwrite (key value : Bytes) (e : Entry) : Entry := if e.key = key then { e with value := value } else e

/-- all that a cell says but its value -/
def Cell.outline (c : Cell) : Cell := { c with value := [] }

/-- the same size and the same cells, but for their values: all keys, colours and links are as they were -/
structure Linked.SameOutline (h h' : Linked) : Prop where
  root : h'.root = h.root
  size : h'.size = h.size
  cells : h'.cells.map Cell.outline = h.cells.map Cell.outline

namespace Entry

variable {key value : Bytes} {e : Entry}

@[simp] theorem id_overwrite : (e.overwrite key value).id = e.id := by
  unfold overwrite
  split <;> rfl

@[simp] theorem key_overwrite : (e.overwrite key value).key = e.key := by
  unfold overwrite
  split <;> rfl

theorem overwrite_of_ne (h : e.key ≠ key) : e.overwrite key value = e := if_neg h

theorem overwrite_of_eq (h : e.key = key) : e.overwrite key value = { e with value := value } := if_pos h

end Entry

/-- in a tree of which the keys increase, the new value goes into one node -/
theorem Path.map_overwrite {p : Path} {c : Color} {l r : Tree} {e : Entry} (h : (p.fill (.node c l e r)).Ordered)
    (value : Bytes) :
    (p.fill (.node c l e r)).map (Entry.overwrite e.key value) = p.fill (.node c l { e with value := value } r) := by
  have hentries : (p.fill (.node c l e r)).entries = (before p ++ l.entries) ++ e :: (r.entries ++ after p) := by
    simp [entries_fill, Tree.entries]
  rw [Tree.Ordered, hentries] at h
  obtain ⟨hbefore, hafter⟩ := Tree.bracket_of_ordered h
  have hne : ∀ f, f ∈ before p ++ l.entries ∨ f ∈ r.entries ++ after p → f.overwrite e.key value = f := by
    rintro f (hf | hf) <;> refine Entry.overwrite_of_ne fun heq => ?_
    · exact Bytes.lt_irrefl _ (heq ▸ hbefore f hf)
    · exact Bytes.lt_irrefl _ (heq ▸ hafter f hf)
  simp only [List.mem_append] at hne
  have hp : List.map (Frame.map (Entry.overwrite e.key value)) p = p :=
    Path.map_eq_self fun f hf => hne f ((List.mem_append.mp hf).imp .inl .inr)
  have hl : l.map (Entry.overwrite e.key value) = l := Tree.map_eq_self fun f hf => hne f (.inl (.inr hf))
  have hr : r.map (Entry.overwrite e.key value) = r := Tree.map_eq_self fun f hf => hne f (.inr (.inl hf))
  rw [← Path.fill_map, hp, Tree.map_node, hl, hr, Entry.overwrite_of_eq rfl]

namespace SortedMap

variable {m : SortedMap}

/-- the keys of a map in order -/
def keys (m : SortedMap) : List Bytes := m.toList.map Prod.fst

/-- the write leaves the keys as they are: a put of a key that is there, or a delete of one that is not -/
def Quiet (m : SortedMap) : Write → Prop
  | .put key _ => key ∈ m.keys
  | .delete key => key ∉ m.keys

instance (m : SortedMap) : (w : Write) → Decidable (m.Quiet w)
  | .put key _ => inferInstanceAs (Decidable (key ∈ m.keys))
  | .delete key => inferInstanceAs (Decidable (key ∉ m.keys))

/-- the value that a write leaves in a node -/
def Write.revalue : Write → Entry → Entry
  | .put key value => Entry.overwrite key value
  | .delete _ => id

@[simp] theorem Write.id_revalue (w : Write) (e : Entry) : (w.revalue e).id = e.id := by
  cases w with
  | put key value => exact Entry.id_overwrite
  | delete key => rfl

@[simp] theorem Write.key_revalue (w : Write) (e : Entry) : (w.revalue e).key = e.key := by
  cases w with
  | put key value => exact Entry.key_overwrite
  | delete key => rfl

theorem mem_keys {key : Bytes} : key ∈ m.keys ↔ ∃ e ∈ m.root.entries, e.key = key := by
  rw [keys, toList, Tree.toList, List.map_map]
  exact List.mem_map

/-- the search for a key ends at its node just when the key is there -/
theorem Sound.descend_leaf (h : m.Sound) {key : Bytes} {path : Path} (hd : m.root.descend key [] = (.leaf, path)) :
    key ∉ m.keys := by
  obtain ⟨hbefore, hafter⟩ := Path.bracket_descend h.redBlack.ordered (Path.bracket_nil key)
  have hfill := Tree.fill_descend key m.root []
  rw [hd] at hbefore hafter hfill
  rw [mem_keys, ← show path.fill .leaf = m.root from hfill, Path.entries_fill]
  rintro ⟨e, he, rfl⟩
  simp only [Tree.entries, List.append_nil, List.mem_append] at he
  rcases he with he | he
  · exact Bytes.lt_irrefl _ (hbefore e he)
  · exact Bytes.lt_irrefl _ (hafter e he)

/-- **A quiet write** changes a value at most. -/
theorem write_quiet (h : m.Sound) {w : Write} (hw : m.Quiet w) : m.write w = { m with root := m.root.map w.revalue } := by
  cases w with
  | put key value =>
    cases hd : m.root.descend key [] with
    | mk found path =>
      cases found with
      | leaf => exact absurd hw (h.descend_leaf hd)
      | node c l e r =>
        have hfill : path.fill (.node c l e r) = m.root := by
          have hfill := Tree.fill_descend key m.root []
          rwa [hd] at hfill
        obtain rfl : e.key = key := Tree.descend_key hd
        have hins : m.insert? e.key value = .ok { m with root := path.fill (.node c l { e with value := value } r) } := by
          simp only [insert?, Tree.insert?, hd]
        rw [write, insert_of_insert? hins, Write.revalue, ← hfill, Path.map_overwrite (hfill ▸ h.redBlack.ordered)]
  | delete key =>
    rcases erase_cases h key with ⟨he, -⟩ | ⟨n, root, -, -, herased, -⟩
    · have hsame : m.root.map id = m.root := Tree.map_eq_self fun _ _ => rfl
      rw [write, erase_of_erase? he, Write.revalue, hsame]
    · exact absurd (mem_keys.mpr (Tree.exists_mem_of_erased herased)) hw

end SortedMap

namespace Linked

variable {h : Linked} {m : SortedMap} {i : NodeId}

theorem SameOutline.refl (h : Linked) : h.SameOutline h := ⟨rfl, rfl, rfl⟩

theorem SameOutline.trans {h h₁ h₂ : Linked} (s₁ : h.SameOutline h₁) (s₂ : h₁.SameOutline h₂) : h.SameOutline h₂ :=
  ⟨s₂.root.trans s₁.root, s₂.size.trans s₁.size, s₂.cells.trans s₁.cells⟩

theorem sameOutline_of_modify {f : Cell → Cell} {h' : Linked} (hm : h.modify i f = some h')
    (hf : ∀ c, (f c).outline = c.outline) : h.SameOutline h' := by
  rw [modify, Option.bind_eq_bind, Option.bind_eq_some_iff] at hm
  obtain ⟨c, hc, hm⟩ := hm
  obtain ⟨hlt, rfl⟩ := List.getElem?_eq_some_iff.mp hc
  cases hm
  refine ⟨rfl, rfl, ?_⟩
  rw [List.map_set, hf, ← List.getElem_map (f := Cell.outline) (h := by simpa using hlt), List.set_getElem_self]

/-- **A quiet write on cells** changes a value at most: every key, colour and link stays, those of unlinked cells too. -/
theorem write_quiet (hm : h.Holds m) (hs : m.Sound) {w : SortedMap.Write} (hw : m.Quiet w) {h' : Linked}
    (hwrite : h.write w = some h') : h.SameOutline h' := by
  obtain ⟨rest, hshow, -⟩ := hm.shows
  cases w with
  | put key value =>
    have hdesc := hshow.descend key
    cases hd : m.root.descend key [] with
    | mk found path =>
      cases found with
      | leaf => exact absurd hw (hs.descend_leaf hd)
      | node c l e r =>
        rw [hd] at hdesc
        simp only [write, put, hdesc, Tree.topId, Option.bind_eq_bind, Option.bind_some] at hwrite
        exact sameOutline_of_modify hwrite fun _ => rfl
  | delete key =>
    rcases delete_spec hshow hs.redBlack key with ⟨-, hdel⟩ | ⟨c, l, e, r, root, h'', parent, he, -, -⟩
    · simp only [write, hdel, Option.map_some, Option.some.injEq] at hwrite
      exact hwrite ▸ SameOutline.refl h
    · rcases SortedMap.erase_cases hs key with ⟨he', -⟩ | ⟨n, root', -, -, herased, -⟩
      · simp only [SortedMap.erase?, he] at he'
        cases he'
      · exact absurd (SortedMap.mem_keys.mpr (Tree.exists_mem_of_erased herased)) hw

end Linked

/-! ## What is ahead -/

namespace Cursor

variable {m : SortedMap} {c : Cursor} {todo : List Entry}

/-- what is ahead of a cursor are entries of the map -/
theorem Ahead.mem (h : Ahead m c todo) {e : Entry} (he : e ∈ todo) : e ∈ m.root.entries := by
  obtain ⟨us, -, hparts, rfl⟩ := h.parts
  obtain ⟨u, hu, he⟩ := List.mem_flatMap.mp he
  obtain ⟨p, hp⟩ := hparts u hu
  rw [← hp, Path.entries_fill, List.mem_append, List.mem_append]
  refine .inl (.inr ?_)
  cases u with
  | leaf => cases he
  | node col l x r =>
    have halong : e ∈ (Tree.node col l x r).along c.direction := by
      rw [Tree.along_node]
      exact List.mem_append_right _ he
    cases hd : c.direction with
    | ascending => rwa [hd] at halong
    | descending =>
      rw [hd] at halong
      exact List.mem_reverse.mp halong

/-- other values in the nodes of the map are other values ahead -/
theorem Ahead.map {φ : Entry → Entry} (hid : ∀ e, (φ e).id = e.id) (hkey : ∀ e, (φ e).key = e.key) (h : Ahead m c todo) :
    Ahead { m with root := m.root.map φ } c (todo.map φ) := by
  obtain ⟨⟨us, hus, hparts, rfl⟩, horder, hnear⟩ := h
  refine ⟨⟨us.map (Tree.map φ), ?_, ?_, ?_⟩, ?_, ?_⟩
  · rw [hus, List.map_map]
    exact List.map_congr_left fun u _ => (Tree.topId_map hid u).symm
  · intro u hu
    obtain ⟨v, hv, rfl⟩ := List.mem_map.mp hu
    obtain ⟨p, hp⟩ := hparts v hv
    exact ⟨_, by rw [Path.fill_map, hp]⟩
  · rw [List.flatMap_map, List.map_flatMap]
    simp only [Tree.onwards_map]
  · exact List.pairwise_map.mpr (horder.imp fun hlt => by simpa only [hkey] using hlt)
  · intro e he
    obtain ⟨f, hf, rfl⟩ := List.mem_map.mp he
    rw [hkey]
    exact hnear f hf

end Cursor

/-! ## Steps and writes in any order -/

/-- the write of an event that is one -/
def Event.write? : Event → Option SortedMap.Write
  | .write w => some w
  | .next => none

namespace Live

variable {ws : List SortedMap.Write} {b : Bounds} {d : Direction} {es : List Event} {l : Live} {keys : List Bytes}

/-- the writes among the events leave the keys as they are, each at its moment -/
def Still (ws : List SortedMap.Write) (b : Bounds) (d : Direction) (es : List Event) : Prop :=
  ∀ front w, front ++ [.write w] <+: es → (after ws b d front).map.Quiet w

/-- a step answers the key with the value that the map has for it now, or the end when there is no key -/
def Answers (l : Live) : Option Bytes → Prop
  | none => l.answer = none
  | some key => ∃ value, l.map.get? key = some value ∧ l.answer = some (key, value)

theorem still_nil : Still ws b d [] := by
  intro front w hfront
  simp at hfront

theorem Still.of_prefix {front : List Event} (h : Still ws b d es) (hfront : front <+: es) : Still ws b d front :=
  fun front' w hw => h front' w (hw.trans hfront)

theorem Still.next (h : Still ws b d es) : Still ws b d (es ++ [.next]) := by
  intro front w hfront
  rcases List.prefix_concat_iff.mp hfront with heq | hfront
  · simpa using (List.append_inj' heq rfl).2
  · exact h front w hfront

theorem Still.write (h : Still ws b d es) {w : SortedMap.Write} (hw : (after ws b d es).map.Quiet w) :
    Still ws b d (es ++ [.write w]) := by
  intro front w' hfront
  rcases List.prefix_concat_iff.mp hfront with heq | hfront
  · obtain ⟨rfl, hlast⟩ := List.append_inj' heq rfl
    cases hlast
    exact hw
  · exact h front w' hfront

/-- the keys that a cursor is to answer yet, in order: those ahead of it, as far as they are not beyond the range -/
def Awaits (l : Live) (keys : List Bytes) : Prop :=
  ∃ todo, Cursor.Ahead l.map l.cursor todo ∧
    (todo.filter fun e => !l.cursor.bounds.isFar l.cursor.direction e.key).map Entry.key = keys

/-- a quiet write leaves the keys to come as they are -/
theorem Awaits.write (h : l.Awaits keys) (hm : l.map.Sound) {w : SortedMap.Write} (hw : l.map.Quiet w) :
    (l.step (.write w)).Awaits keys := by
  obtain ⟨todo, hahead, rfl⟩ := h
  refine ⟨todo.map w.revalue, ?_, ?_⟩
  · rw [step, SortedMap.write_quiet hm hw]
    exact hahead.map w.id_revalue w.key_revalue
  · simp only [step, List.filter_map, List.map_map, Function.comp_def, SortedMap.Write.key_revalue]

/-- a step answers the first of the keys to come and leaves the others -/
theorem Awaits.next (h : l.Awaits keys) (hm : l.map.Sound) : l.Answers keys.head? ∧ (l.step .next).Awaits keys.tail := by
  obtain ⟨todo, hahead, rfl⟩ := h
  -- at the end of the walk nothing is ahead any more
  have hend : l.cursor.next l.map = (none, l.cursor.stop) → l.Answers none ∧ (l.step .next).Awaits [] := by
    intro hnext
    refine ⟨by rw [Answers, answer, hnext], [], ?_, rfl⟩
    rw [step, hnext]
    exact ⟨⟨[], rfl, by simp, rfl⟩, .nil, by simp⟩
  cases todo with
  | nil =>
    have hstack := Cursor.stack_of_ahead_nil hahead
    refine hend ?_
    rw [Cursor.next_of_done hstack, Cursor.stop, ← hstack]
  | cons e todo =>
    have hstep := Cursor.next_ahead hm hahead
    split at hstep
    · next hfar =>
      rw [Cursor.filter_far hahead.order hfar]
      exact hend hstep
    · next hfar =>
      obtain ⟨stack, hnext, hrest⟩ := hstep
      rw [List.filter_cons_of_pos (by simpa using hfar)]
      refine ⟨⟨e.value, ?_, by rw [answer, hnext]⟩, todo, ?_, ?_⟩
      · rw [hm.get?_toList, ← Bindings.mem_iff_get? hm.sorted]
        exact List.mem_map.mpr ⟨e, hahead.mem List.mem_cons_self, rfl⟩
      · rw [step, hnext]
        exact hrest
      · rw [step, hnext]
        rfl

theorem awaits_start (ws : List SortedMap.Write) (b : Bounds) (d : Direction) :
    (after ws b d []).Awaits ((Bindings.range (SortedMap.written ws).toList b d).map Prod.fst) := by
  refine ⟨_, Cursor.start_ahead (SortedMap.sound_written ws) b d, ?_⟩
  rw [← Cursor.filter_start, List.map_map]
  rfl

/-- while the keys stand still, a cursor has so many of its keys yet to answer as it has not been asked for -/
theorem awaits_after (h : Still ws b d es) :
    (after ws b d es).Awaits (((Bindings.range (SortedMap.written ws).toList b d).map Prod.fst).drop (es.count .next)) := by
  induction es using List.reverseRecOn with
  | nil => exact awaits_start ws b d
  | append_singleton es e ih =>
    have hprev := ih (h.of_prefix (List.prefix_append es [e]))
    have hm := sound_after ws b d es
    rw [after_concat]
    cases e with
    | write w =>
      rw [List.count_append, List.count_singleton, if_neg (by simp)]
      exact hprev.write hm (h es w (List.prefix_refl _))
    | next =>
      rw [List.count_append, List.count_singleton_self, ← List.tail_drop]
      exact (hprev.next hm).2

/-- while the keys stand still, the cells keep all but their values -/
theorem sameOutline_after (h : Still ws b d es) {cells : Linked} (hcells : cells.Holds (SortedMap.written ws)) :
    ∃ cells', (es.filterMap Event.write?).foldlM Linked.write cells = some cells' ∧ cells'.Holds (after ws b d es).map ∧
      cells.SameOutline cells' := by
  induction es using List.reverseRecOn with
  | nil => exact ⟨cells, rfl, hcells, .refl cells⟩
  | append_singleton es e ih =>
    obtain ⟨cells₁, hrun, hholds, hsame⟩ := ih (h.of_prefix (List.prefix_append es [e]))
    cases e with
    | write w =>
      obtain ⟨cells₂, hwrite, hholds₂⟩ := Linked.write_holds hholds (sound_after ws b d es) w
      have hquiet := Linked.write_quiet hholds (sound_after ws b d es) (h es w (List.prefix_refl _)) hwrite
      refine ⟨cells₂, ?_, by rwa [map_after_write], hsame.trans hquiet⟩
      rw [List.filterMap_append, List.foldlM_append, hrun]
      simpa [Event.write?] using hwrite
    | next =>
      refine ⟨cells₁, ?_, by rwa [map_after_next], hsame⟩
      rw [List.filterMap_append, List.foldlM_append, hrun]
      rfl

/-- **Walks are exact while the keys stand still.** For any bounds and in both directions, as long as puts are of keys that are
there and deletes of keys that are not: step `n` of a cursor answers the `n`-th of the keys that were in range when it was made,
with the value that the map has for it at the moment of the step. All the while every cell keeps its key, colour and links. -/
theorem standing_exact (ws : List SortedMap.Write) (b : Bounds) (d : Direction) {es : List Event} (h : Still ws b d es) :
    ∃ keys : List Bytes,
      (∀ key, key ∈ keys ↔ key ∈ (SortedMap.written ws).keys ∧ (∀ s ∈ b.start, ¬ key < s) ∧ ∀ s ∈ b.stop, key < s) ∧
      keys.Pairwise d.Before ∧
      (∀ front, front <+: es → (after ws b d front).Answers keys[front.count .next]?) ∧
      ∃ cells, Linked.written ws = some cells ∧ ∀ front, front <+: es → ∃ cells',
        (front.filterMap Event.write?).foldlM Linked.write cells = some cells' ∧ cells'.Holds (after ws b d front).map ∧
          cells.SameOutline cells' ∧ (after ws b d front).map.size = (SortedMap.written ws).size := by
  obtain ⟨cells, hwritten, hholds⟩ := Linked.written_holds ws
  have hm := SortedMap.sound_written ws
  refine ⟨(Bindings.range (SortedMap.written ws).toList b d).map Prod.fst, ?_, ?_, ?_, cells, hwritten, ?_⟩
  · intro key
    simp only [List.mem_map, SortedMap.keys, SortedMap.mem_range]
    grind
  · exact List.pairwise_map.mpr (SortedMap.pairwise_range hm.sorted b d)
  · intro front hfront
    have hnext := ((awaits_after (h.of_prefix hfront)).next (sound_after ws b d front)).1
    rwa [List.head?_drop] at hnext
  · intro front hfront
    obtain ⟨cells', hrun, hholds', hsame⟩ := sameOutline_after (h.of_prefix hfront) hholds
    refine ⟨cells', hrun, hholds', hsame, ?_⟩
    obtain ⟨rest, hshow, -⟩ := hholds.shows
    obtain ⟨rest', hshow', -⟩ := hholds'.shows
    rw [← hshow.size, ← hshow'.size, hsame.size]

/-- a pair that is written over before its turn, and a delete of a key that is not there -/
theorem standing_exact_overwritten :
    let ws : List SortedMap.Write := [.put [1] [10], .put [2] [20], .put [3] [30]]
    let b : Bounds := ⟨some [1], some [3]⟩
    let es : List Event := [.next, .write (.put [2] [21]), .write (.delete [9]), .next]
    Still ws b .ascending es ∧ (after ws b .ascending (es.take 3)).answer = some ([2], [21]) ∧
      ∃ keys : List Bytes, [2] ∈ keys ∧ [3] ∉ keys ∧
        ∀ front, front <+: es → (after ws b .ascending front).Answers keys[front.count .next]? := by
  intro ws b es
  have h : Still ws b .ascending es :=
    ((still_nil.next.write (w := .put [2] [21]) (by decide +kernel)).write (w := .delete [9]) (by decide +kernel)).next
  obtain ⟨keys, hkeys, -, hanswers, -⟩ := standing_exact ws b .ascending h
  refine ⟨h, by decide +kernel, keys, ?_, ?_, hanswers⟩
  · rw [hkeys]
    decide +kernel
  · rw [hkeys]
    decide +kernel

end Live

end MeteredStore
