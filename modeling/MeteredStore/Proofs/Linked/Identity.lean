/-
Which cell holds which pair.

A cell is attached when it can be reached from the root. Rotations and recolourings relink cells and write no pair, so what
all cells hold (`ledger`) changes by what an operation is about: a put adds one entry or changes the value in one, a delete
changes nothing, or writes the next pair over that of a cell with two children (`Tree.erase?_found` tells which). The cells
that are not attached are the rest of the memory (`Shows.mem_rest_iff`); no operation looks at the rest, and none takes a cell
out of it (`Shows.write`).

Main statement: `written_framed`, whatever has been written, the next write changes the pairs and the attached cells only in
these ways, whatever else it relinks and recolours. It attaches and unlinks one cell at most, and a cell that is not attached
stays as it is for ever.
-/
import MeteredStore.Proofs.Linked.Walking

namespace MeteredStore

/-! ## The node that goes -/

namespace Tree

variable {t : Tree} {c : Color} {l r : Tree} {e f : Entry} {key : Bytes} {path : Path}

/-- a key is the key of one entry only -/
theorem eq_of_key (ht : t.Ordered) (he : e ∈ t.entries) (hf : f ∈ t.entries) (hk : e.key = f.key) : e = f := by
  obtain ⟨a, b, hab⟩ := List.append_of_mem he
  rw [Ordered, hab] at ht
  obtain ⟨hbefore, hafter⟩ := bracket_of_ordered ht
  rw [hab, List.mem_append, List.mem_cons] at hf
  rcases hf with hf | rfl | hf
  · exact absurd (hbefore f hf) (hk ▸ Bytes.lt_irrefl _)
  · rfl
  · exact absurd (hafter f hf) (hk ▸ Bytes.lt_irrefl _)

/-- with at most one child the found node itself is taken out, with two children one that is on its right -/
theorem doom_found (h : (path.fill (node c l e r)).Colored) :
    ∃ d ld s rd place, (node c l e r).doom path = (node d ld s rd, place) ∧ (ld = leaf ∨ rd = leaf) ∧
      (place.fill (node d ld s rd)).Colored ∧ ((l = leaf ∨ r = leaf) ∧ s = e ∨ l ≠ leaf ∧ r ≠ leaf ∧ s ∈ r.entries) := by
  obtain ⟨d, ld, s, rd, place, hdoom, hone, hcol, hs⟩ := doom_spec h
  refine ⟨d, ld, s, rd, place, hdoom, hone, hcol, ?_⟩
  cases l with
  | leaf =>
    simp only [doom, Prod.mk.injEq, node.injEq] at hdoom
    exact .inl ⟨.inl rfl, hdoom.1.2.2.1.symm⟩
  | node cl ll el rl =>
    cases r with
    | leaf =>
      simp only [doom, Prod.mk.injEq, node.injEq] at hdoom
      exact .inl ⟨.inr rfl, hdoom.1.2.2.1.symm⟩
    | node cr lr er rr =>
      obtain ⟨d', s', rd', below, hlm, -⟩ := leftmost_spec (t := node cr lr er rr) (by simp) []
      rw [List.append_nil] at hlm
      simp only [doom, hlm, Prod.mk.injEq, node.injEq] at hdoom
      obtain ⟨⟨rfl, rfl, rfl, rfl⟩, rfl⟩ := hdoom
      have hfill := fill_leftmost (node cr lr er rr) []
      rw [hlm, Path.fill_nil] at hfill
      refine .inr ⟨by simp, by simp, ?_⟩
      rw [← hfill, Path.entries_fill]
      simp [entries]

/-- **Which node goes.** A found key with at most one child below it goes with its own node, and no entry changes. With two
children the next entry is written over it, and the node of that one goes. -/
theorem erase?_found (ht : t.RedBlack) (hd : t.descend key [] = (node c l e r, path)) :
    ∃ d ld s rd root a b, t.erase? key = .ok (some (node d ld s rd, root)) ∧ root.RedBlack ∧
      ((l = leaf ∨ r = leaf) ∧ s = e ∧ t.entries = a ++ e :: b ∧ root.entries = a ++ b ∨
        l ≠ leaf ∧ r ≠ leaf ∧ t.entries = a ++ e :: s :: b ∧
          root.entries = a ++ { e with key := s.key, value := s.value } :: b) := by
  have hfill : path.fill (node c l e r) = t := by simpa [hd] using fill_descend key t []
  have hentries : t.entries = path.before ++ l.entries ++ e :: (r.entries ++ path.after) := by
    rw [← hfill, Path.entries_fill]
    simp [entries]
  obtain ⟨d, ld, s, rd, place, hdoom, hone, hcol, hwhich⟩ := doom_found (hfill ▸ ht.colored)
  obtain ⟨root, hun, -, -⟩ := unlink?_spec hone hcol
  have herase : t.erase? key = .ok (some (node d ld s rd, root)) := by
    simp only [erase?, hd, hdoom, hun, Except.map]
  rcases erase?_spec ht key with ⟨hnone, -⟩ | ⟨d', l', s', r', root', hsome, hroot, herased, -, -⟩
  · rw [herase] at hnone
    cases hnone
  · rw [herase] at hsome
    cases hsome
    have he : e ∈ t.entries := by simp [hentries]
    obtain rfl : e.key = key := descend_key hd
    have hright : ∀ f ∈ r.entries, e.key < f.key := by
      intro f hf
      have ho := ht.ordered
      rw [Ordered, hentries] at ho
      exact (bracket_of_ordered ho).2 f (List.mem_append_left _ hf)
    have hafter : ∀ a b f, t.entries = a ++ e :: f :: b → e.key < f.key := by
      intro a b f hab
      have ho := ht.ordered
      rw [Ordered, hab] at ho
      exact (bracket_of_ordered ho).2 f List.mem_cons_self
    generalize hx : t.entries = x at herased
    generalize hy : root.entries = y at herased
    cases herased with
    | here hk =>
      rename_i a b
      refine ⟨d, ld, s, rd, root, a, b, herase, hroot, ?_⟩
      rcases hwhich with ⟨hone, rfl⟩ | ⟨-, -, hs⟩
      · exact .inl ⟨hone, rfl, rfl, hy⟩
      · exact absurd (hright s hs) (hk ▸ Bytes.lt_irrefl _)
    | next hk =>
      rename_i a b f
      obtain rfl : f = e := eq_of_key ht.ordered (by simp [hx]) he hk
      refine ⟨d, ld, s, rd, root, a, b, herase, hroot, ?_⟩
      rcases hwhich with ⟨-, rfl⟩ | ⟨hl, hr, -⟩
      · exact absurd (hafter a b s hx) (Bytes.lt_irrefl _)
      · exact .inr ⟨hl, hr, rfl, hy⟩

end Tree

namespace Linked

/-! ## What cells hold -/

variable {h h' : Linked} {i j : NodeId} {c : Cell} {n : Nat} {rest : Bag} {t : Tree}

/-- the cell can be reached from the root -/
def Attached (h : Linked) (i : NodeId) : Prop := ∃ way, h.reach way = some i

/-- the pair that a cell holds -/
def pair? (h : Linked) (i : NodeId) : Option (Bytes × Bytes) := (h.cell? i).map fun c => (c.key, c.value)

/-- some attached cell has the key -/
def Binds (h : Linked) (key : Bytes) : Prop := ∃ i c, h.Attached i ∧ h.cell? i = some c ∧ c.key = key

/-- cell `j` has the key that comes next after that of cell `i` among the keys of the attached cells -/
structure Precedes (h : Linked) (i j : NodeId) : Prop where
  attached : h.Attached j
  lt : ∀ c d, h.cell? i = some c → h.cell? j = some d → c.key < d.key
  nearest : ∀ k c d x, h.Attached k → h.cell? i = some c → h.cell? j = some d → h.cell? k = some x →
    c.key < x.key → ¬ x.key < d.key

/-- what all cells hold, with their numbers -/
def ledger (h : Linked) : Multiset Entry := h.contents.map fun x => (x.1.record x.2).entry

theorem mem_ledger {e : Entry} : e ∈ h.ledger ↔ h.pair? e.id = some (e.key, e.value) := by
  obtain ⟨i, key, value⟩ := e
  rw [ledger, Multiset.mem_map, pair?, Option.map_eq_some_iff]
  constructor
  · rintro ⟨⟨c, j⟩, hc, he⟩
    cases he
    exact ⟨c, mem_contents.mp hc, rfl⟩
  · rintro ⟨c, hc, he⟩
    cases he
    exact ⟨(c, i), mem_contents.mpr hc, rfl⟩

/-- a cell holds the same pair when the same entries have its number -/
theorem pair?_congr (hl : ∀ e : Entry, e.id = i → (e ∈ h'.ledger ↔ e ∈ h.ledger)) : h'.pair? i = h.pair? i := by
  apply Option.ext
  rintro ⟨key, value⟩
  rw [← mem_ledger (e := ⟨i, key, value⟩), ← mem_ledger (e := ⟨i, key, value⟩), hl _ rfl]

theorem card_ledger (h : Linked) : h.ledger.card = h.cells.length := by
  rw [ledger, Multiset.card_map, length_cells]

namespace Shows

/-- all cells hold the entries of the tree and what the rest holds -/
theorem ledger (hs : h.Shows n rest t []) :
    h.ledger = (t.entries : Multiset Entry) + rest.map fun x => (x.1.record x.2).entry := by
  have ht : (t.cells none).map (fun x => (x.1.record x.2).entry) = (t.entries : Multiset Entry) := by
    have hrecord := congrArg (Multiset.map Node.entry) (Tree.map_record_cells none t)
    rwa [Multiset.map_map, Multiset.map_coe, Tree.map_entry_nodes] at hrecord
  rw [Linked.ledger, hs.contents, Path.topId_nil, Path.cells, zero_add, Multiset.map_add, ht]

/-- the attached cells are the nodes of the tree -/
theorem attached_iff (hs : h.Shows n rest t []) : h.Attached i ↔ i ∈ t.entries.map Entry.id := by
  simp only [Attached, hs.reach]
  constructor
  · rintro ⟨way, hway⟩
    exact Tree.mem_of_under hway
  · exact Tree.exists_way

/-- the cells that are not attached are the rest -/
theorem mem_rest_iff (hs : h.Shows n rest t []) : (c, i) ∈ rest ↔ h.cell? i = some c ∧ ¬ h.Attached i := by
  have hcontents : h.contents = t.cells none + rest := by rw [hs.contents, Path.topId_nil, Path.cells, zero_add]
  have hids : i ∈ t.entries.map Entry.id ↔ ∃ c, (c, i) ∈ t.cells none := by
    rw [← Multiset.mem_coe, ← map_snd_cells none, Multiset.mem_map]
    simp
  rw [hs.attached_iff, hids, ← mem_contents, hcontents, Multiset.mem_add]
  constructor
  · intro hc
    refine ⟨.inr hc, ?_⟩
    rintro ⟨d, hd⟩
    exact Is.ne (hs.perm (by rw [Path.topId_nil, Path.cells, zero_add])) hd hc rfl
  · rintro ⟨hc | hc, hnot⟩
    · exact absurd ⟨c, hc⟩ hnot
    · exact hc

/-- an entry of the tree is what its cell holds -/
theorem exists_cell (hs : h.Shows n rest t []) {e : Entry} (he : e ∈ t.entries) :
    h.Attached e.id ∧ ∃ c, h.cell? e.id = some c ∧ c.key = e.key ∧ c.value = e.value := by
  have hpair : e ∈ h.ledger := by
    rw [hs.ledger]
    exact Multiset.mem_add.mpr (.inl he)
  rw [mem_ledger, pair?, Option.map_eq_some_iff] at hpair
  obtain ⟨c, hc, hp⟩ := hpair
  obtain ⟨hkey, hvalue⟩ := Prod.mk.inj hp
  exact ⟨hs.attached_iff.mpr (List.mem_map_of_mem he), c, hc, hkey, hvalue⟩

/-- what an attached cell holds is an entry of the tree -/
theorem exists_entry (hs : h.Shows n rest t []) (hi : h.Attached i) (hc : h.cell? i = some c) :
    ∃ e ∈ t.entries, e.id = i ∧ e.key = c.key := by
  obtain ⟨e, he, rfl⟩ := List.mem_map.mp (hs.attached_iff.mp hi)
  obtain ⟨-, d, hd, hk, -⟩ := hs.exists_cell he
  cases hc.symm.trans hd
  exact ⟨e, he, rfl, hk.symm⟩

theorem binds_iff (hs : h.Shows n rest t []) {key : Bytes} : h.Binds key ↔ ∃ e ∈ t.entries, e.key = key := by
  constructor
  · rintro ⟨i, c, hi, hc, rfl⟩
    obtain ⟨e, he, -, hk⟩ := hs.exists_entry hi hc
    exact ⟨e, he, hk⟩
  · rintro ⟨e, he, rfl⟩
    obtain ⟨hi, c, hc, hk, -⟩ := hs.exists_cell he
    exact ⟨e.id, c, hi, hc, hk⟩

/-- the search for the key of an attached cell ends at its node -/
theorem descend_attached (hs : h.Shows n rest t []) (ht : t.RedBlack) (hi : h.Attached i) (hc : h.cell? i = some c) :
    ∃ color l e r path, t.descend c.key [] = (.node color l e r, path) ∧ e.id = i ∧ c.left = l.topId ∧ c.right = r.topId := by
  obtain ⟨e, he, rfl, hk⟩ := hs.exists_entry hi hc
  have hfound := hs.shows_descend c.key
  have hfill := Tree.fill_descend c.key t []
  obtain ⟨hbefore, hafter⟩ := Path.bracket_descend ht.ordered (Path.bracket_nil c.key)
  cases hd : t.descend c.key [] with
  | mk found path =>
    simp only [hd] at hfound hfill hbefore hafter
    cases found with
    | leaf =>
      rw [← show path.fill .leaf = t from hfill, Path.entries_fill] at he
      simp only [Tree.entries, List.append_nil, List.mem_append] at he
      rcases he with he | he
      · exact absurd (hbefore e he) (hk ▸ Bytes.lt_irrefl _)
      · exact absurd (hafter e he) (hk ▸ Bytes.lt_irrefl _)
    | node color l f r =>
      have hf : f ∈ t.entries := by
        rw [← show path.fill (.node color l f r) = t from hfill, Path.entries_fill]
        simp [Tree.entries]
      obtain rfl : f = e := Tree.eq_of_key ht.ordered hf he ((Tree.descend_key hd).trans hk.symm)
      cases hc.symm.trans hfound.top
      exact ⟨color, l, f, r, path, rfl, rfl, rfl, rfl⟩

/-- a node that goes is no longer attached, and is the only one -/
theorem attached_of_perm {n' : Nat} {rest' : Bag} {t' : Tree} (hs : h.Shows n rest t []) (hs' : h'.Shows n' rest' t' [])
    (hp : (t.entries.map Entry.id).Perm (j :: t'.entries.map Entry.id)) (k : NodeId) :
    h'.Attached k ↔ h.Attached k ∧ k ≠ j := by
  have hn := hp.nodup_iff.mp hs.nodup_ids
  rw [hs.attached_iff, hs'.attached_iff, hp.mem_iff, List.mem_cons]
  constructor
  · intro hk
    exact ⟨.inr hk, fun he => (List.nodup_cons.mp hn).1 (he ▸ hk)⟩
  · rintro ⟨hk, hne⟩
    exact hk.resolve_left hne

/-! ## Putting -/

theorem put_new (hs : h.Shows n rest t []) (ht : t.RedBlack) (key value : Bytes) (hkey : ¬ h.Binds key) :
    ∃ h', h.put key value = some h' ∧ h'.cells.length = h.cells.length + 1 ∧
      h'.pair? h.cells.length = some (key, value) ∧ h'.Attached h.cells.length ∧
      ∀ i < h.cells.length, h'.pair? i = h.pair? i ∧ (h'.Attached i ↔ h.Attached i) := by
  obtain ⟨h', new, root, hins, hput, hs'⟩ := put_spec hs ht key value
  obtain ⟨new', root', hins', -, a, b, -, -, hcase⟩ := Tree.insert?_spec ht h.cells.length key value
  cases hins.symm.trans hins'
  rcases hcase with ⟨-, ha, hb⟩ | ⟨e, -, hk, ha, -⟩
  · have hledger : h'.ledger = ⟨h.cells.length, key, value⟩ ::ₘ h.ledger := by
      rw [hs'.ledger, hs.ledger, ha, hb, ← Multiset.cons_add, Multiset.cons_coe, Multiset.coe_eq_coe.mpr List.perm_middle]
    refine ⟨h', hput, ?_, ?_, ?_, ?_⟩
    · rw [← card_ledger, hledger, Multiset.card_cons, card_ledger]
    · exact mem_ledger.mp (hledger ▸ Multiset.mem_cons_self _ _)
    · rw [hs'.attached_iff, hb]
      simp
    · intro i hi
      constructor
      · apply pair?_congr
        rintro e rfl
        rw [hledger, Multiset.mem_cons]
        exact or_iff_right fun he => Nat.lt_irrefl _ (he ▸ hi)
      · rw [hs.attached_iff, hs'.attached_iff, ha, hb]
        simp [Nat.ne_of_lt hi]
  · exact absurd (hs.binds_iff.mpr ⟨e, by simp [ha], hk⟩) hkey

theorem put_found (hs : h.Shows n rest t []) (ht : t.RedBlack) (hi : h.Attached i) (hc : h.cell? i = some c) (value : Bytes) :
    (∀ j d, h.Attached j → h.cell? j = some d → d.key = c.key → j = i) ∧
      h.put c.key value = some { h with cells := h.cells.set i { c with value := value } } := by
  constructor
  · intro j d hj hd hkey
    obtain ⟨e, he, rfl, hke⟩ := hs.exists_entry hi hc
    obtain ⟨f, hf, rfl, hkf⟩ := hs.exists_entry hj hd
    rw [Tree.eq_of_key ht.ordered hf he (hkf.trans (hkey.trans hke.symm))]
  · obtain ⟨color, l, e, r, path, hd, rfl, -⟩ := hs.descend_attached ht hi hc
    have hdesc := hs.descend c.key
    rw [hd] at hdesc
    simp [Linked.put, hdesc, Tree.topId, Linked.modify, hc]

/-! ## Deleting -/

theorem delete_absent (hs : h.Shows n rest t []) (ht : t.RedBlack) (key : Bytes) (hkey : ¬ h.Binds key) :
    h.delete key = some (false, h) := by
  rcases delete_spec hs ht key with ⟨-, hdel⟩ | ⟨c, l, e, r, root, h', parent, he, -⟩
  · exact hdel
  · rcases Tree.erase?_spec ht key with ⟨hnone, -⟩ | ⟨c', l', d, r', root', -, -, herased, -⟩
    · cases he.symm.trans hnone
    · exact absurd (hs.binds_iff.mpr (Tree.exists_mem_of_erased herased)) hkey

/-- the number of children decides which cell goes -/
theorem delete_found (hs : h.Shows n rest t []) (ht : t.RedBlack) (hi : h.Attached i) (hc : h.cell? i = some c) :
    ∃ h' x s root a b, h.delete c.key = some (true, h') ∧ h'.Shows (n - 1) ({x} + rest) root [] ∧
      (x.1.record x.2).entry = s ∧
      ((c.left = none ∨ c.right = none) ∧ s.id = i ∧ t.entries = a ++ s :: b ∧ root.entries = a ++ b ∨
        c.left ≠ none ∧ c.right ≠ none ∧ ∃ e, e.id = i ∧ t.entries = a ++ e :: s :: b ∧
          root.entries = a ++ { e with key := s.key, value := s.value } :: b) := by
  obtain ⟨color, l, e, r, path, hd, rfl, hl, hr⟩ := hs.descend_attached ht hi hc
  obtain ⟨d, ld, s, rd, root, a, b, herase, -, hcase⟩ := Tree.erase?_found ht hd
  rcases delete_spec hs ht c.key with ⟨hnone, -⟩ | ⟨d', l', s', r', root', h', parent, hsome, hdel, hs'⟩
  · cases herase.symm.trans hnone
  · cases herase.symm.trans hsome
    have hleaf : ∀ u : Tree, u.topId = none ↔ u = .leaf := by
      rintro (_ | _) <;> simp [Tree.topId]
    refine ⟨h', _, s, root, a, b, hdel, hs', rfl, ?_⟩
    rw [hl, hr, Ne, Ne, hleaf, hleaf]
    rcases hcase with ⟨hone, rfl, ha, hb⟩ | ⟨hnl, hnr, ha, hb⟩
    · exact .inl ⟨hone, rfl, ha, hb⟩
    · exact .inr ⟨hnl, hnr, e, rfl, ha, hb⟩

theorem delete_single (hs : h.Shows n rest t []) (ht : t.RedBlack) (hi : h.Attached i) (hc : h.cell? i = some c)
    (hone : c.left = none ∨ c.right = none) :
    ∃ h', h.delete c.key = some (true, h') ∧ h'.cells.length = h.cells.length ∧ (∀ k, h'.pair? k = h.pair? k) ∧
      ∀ k, h'.Attached k ↔ h.Attached k ∧ k ≠ i := by
  obtain ⟨h', x, s, root, a, b, hdel, hs', hx, hcase⟩ := hs.delete_found ht hi hc
  rcases hcase with ⟨-, rfl, ha, hb⟩ | ⟨hl, hr, -⟩
  · have hledger : h'.ledger = h.ledger := by
      rw [hs'.ledger, hs.ledger, ha, hb, Multiset.map_add, Multiset.map_singleton, hx,
        Multiset.coe_eq_coe.mpr List.perm_middle, ← Multiset.cons_coe, Multiset.singleton_add, Multiset.add_cons,
        Multiset.cons_add]
    refine ⟨h', hdel, ?_, ?_, ?_⟩
    · rw [← card_ledger, hledger, card_ledger]
    · intro k
      exact pair?_congr fun e _ => by rw [hledger]
    · apply hs.attached_of_perm hs'
      rw [ha, hb, List.map_append, List.map_append, List.map_cons]
      exact List.perm_middle
  · rcases hone with hone | hone
    · exact absurd hone hl
    · exact absurd hone hr

/-- neighbours in the tree have keys that follow each other -/
theorem precedes (hs : h.Shows n rest t []) (ht : t.RedBlack) {a b : List Entry} {e s : Entry}
    (ha : t.entries = a ++ e :: s :: b) : h.Precedes e.id s.id := by
  have ho := ht.ordered
  rw [Tree.Ordered, ha] at ho
  obtain ⟨hbefore, hafter⟩ := Tree.bracket_of_ordered ho
  have hb := (Tree.bracket_of_ordered (a := a ++ [e]) (b := b) (by simpa using ho)).2
  obtain ⟨-, c', hc', hkc, -⟩ := hs.exists_cell (e := e) (by simp [ha])
  obtain ⟨hj, d', hd', hkd, -⟩ := hs.exists_cell (e := s) (by simp [ha])
  constructor
  case attached => exact hj
  case lt =>
    intro c d hc hd
    cases hc'.symm.trans hc
    cases hd'.symm.trans hd
    rw [hkc, hkd]
    exact hafter s List.mem_cons_self
  case nearest =>
    intro k c d x hk hc hd hx hlt hgt
    cases hc'.symm.trans hc
    cases hd'.symm.trans hd
    obtain ⟨f, hf, rfl, hkf⟩ := hs.exists_entry hk hx
    rw [hkc, ← hkf] at hlt
    rw [hkd, ← hkf] at hgt
    rw [ha, List.mem_append, List.mem_cons, List.mem_cons] at hf
    rcases hf with hf | rfl | rfl | hf
    · exact Bytes.lt_asymm hlt (hbefore f hf)
    · exact Bytes.lt_irrefl _ hlt
    · exact Bytes.lt_irrefl _ hgt
    · exact Bytes.lt_asymm hgt (hb f hf)

theorem delete_double (hs : h.Shows n rest t []) (ht : t.RedBlack) (hi : h.Attached i) (hc : h.cell? i = some c)
    (hl : c.left ≠ none) (hr : c.right ≠ none) :
    ∃ h' j, h.delete c.key = some (true, h') ∧ h.Precedes i j ∧ h'.cells.length = h.cells.length ∧
      h'.pair? i = h.pair? j ∧ (∀ k, k ≠ i → h'.pair? k = h.pair? k) ∧ ∀ k, h'.Attached k ↔ h.Attached k ∧ k ≠ j := by
  obtain ⟨h', x, s, root, a, b, hdel, hs', hx, hcase⟩ := hs.delete_found ht hi hc
  rcases hcase with ⟨hone, -⟩ | ⟨-, -, e, rfl, ha, hb⟩
  · rcases hone with hone | hone
    · exact absurd hone hl
    · exact absurd hone hr
  · -- both ledgers are the same entries beside the one of the cell that takes over
    obtain ⟨same, hold, hnew⟩ : ∃ same, h.ledger = e ::ₘ s ::ₘ same ∧
        h'.ledger = { e with key := s.key, value := s.value } ::ₘ s ::ₘ same := by
      refine ⟨((a ++ b : List Entry) : Multiset Entry) + rest.map (fun x => (x.1.record x.2).entry), ?_, ?_⟩
      · rw [hs.ledger, ha, Multiset.coe_eq_coe.mpr List.perm_middle, ← Multiset.cons_coe,
          Multiset.coe_eq_coe.mpr List.perm_middle, ← Multiset.cons_coe, Multiset.cons_add, Multiset.cons_add]
      · rw [hs'.ledger, hb, Multiset.map_add, Multiset.map_singleton, hx, Multiset.coe_eq_coe.mpr List.perm_middle,
          ← Multiset.cons_coe, Multiset.singleton_add, Multiset.cons_add, Multiset.add_cons]
    refine ⟨h', s.id, hdel, hs.precedes ht ha, ?_, ?_, ?_, ?_⟩
    · rw [← card_ledger, hnew, ← card_ledger, hold]
      simp only [Multiset.card_cons]
    · have hi' := mem_ledger.mp (hnew ▸ Multiset.mem_cons_self { e with key := s.key, value := s.value } _)
      have hj := mem_ledger.mp (hold ▸ Multiset.mem_cons_of_mem (Multiset.mem_cons_self s same))
      exact hi'.trans hj.symm
    · intro k hk
      apply pair?_congr
      rintro f rfl
      have hold' : f ∈ h.ledger ↔ f ∈ s ::ₘ same := by
        rw [hold, Multiset.mem_cons]
        exact or_iff_right fun he => hk (congrArg Entry.id he)
      rw [hold', hnew, Multiset.mem_cons]
      exact or_iff_right fun he => hk (by rw [he])
    · apply hs.attached_of_perm hs'
      have hmid : (a.map Entry.id ++ [e.id] ++ s.id :: b.map Entry.id).Perm
          (s.id :: (a.map Entry.id ++ [e.id] ++ b.map Entry.id)) := List.perm_middle
      rw [ha, hb]
      simpa using hmid

/-! ## Cells that are not attached -/

/-- a write takes no cell out of the rest, and changes none there -/
theorem write (hs : h.Shows n rest t []) (ht : t.RedBlack) (w : SortedMap.Write) :
    ∃ h' n' gone t', h.write w = some h' ∧ h'.Shows n' (gone + rest) t' [] ∧ t'.RedBlack := by
  cases w with
  | put key value =>
    obtain ⟨h', new, root, hins, hput, hs'⟩ := put_spec hs ht key value
    obtain ⟨new', root', hins', hroot, -⟩ := Tree.insert?_spec ht h.cells.length key value
    cases hins.symm.trans hins'
    exact ⟨h', _, 0, root, hput, by rwa [zero_add], hroot⟩
  | delete key =>
    rcases delete_spec hs ht key with ⟨-, hdel⟩ | ⟨c, l, e, r, root, h', parent, he, hdel, hs'⟩
    · exact ⟨h, n, 0, t, by rw [Linked.write, hdel]; rfl, by rwa [zero_add], ht⟩
    · rcases Tree.erase?_spec ht key with ⟨hnone, -⟩ | ⟨c', l', d, r', root', hsome, hroot, -⟩
      · cases he.symm.trans hnone
      · cases he.symm.trans hsome
        exact ⟨h', _, _, root, by rw [Linked.write, hdel]; rfl, hs', hroot⟩

theorem foldlM_write (hs : h.Shows n rest t []) (ht : t.RedBlack) (ws : List SortedMap.Write) :
    ∃ h' n' gone t', ws.foldlM Linked.write h = some h' ∧ h'.Shows n' (gone + rest) t' [] := by
  induction ws generalizing h n rest t with
  | nil => exact ⟨h, n, 0, t, rfl, by rwa [zero_add]⟩
  | cons w ws ih =>
    obtain ⟨h₁, n₁, gone₁, t₁, e₁, hs₁, ht₁⟩ := hs.write ht w
    obtain ⟨h', n', gone, t', e', hs'⟩ := ih hs₁ ht₁
    exact ⟨h', n', gone + gone₁, t', by rw [List.foldlM_cons, e₁]; exact e', by rwa [add_assoc]⟩

/-- a cell that is not attached stays as it is, and is not attached again -/
theorem unlinked (hs : h.Shows n rest t []) (ht : t.RedBlack) (hi : ¬ h.Attached i) (hc : h.cell? i = some c)
    (ws : List SortedMap.Write) :
    ∃ h', ws.foldlM Linked.write h = some h' ∧ h'.cell? i = some c ∧ ¬ h'.Attached i := by
  obtain ⟨h', n', gone, t', e', hs'⟩ := hs.foldlM_write ht ws
  have hrest : (c, i) ∈ gone + rest := Multiset.mem_add.mpr (.inr (hs.mem_rest_iff.mpr ⟨hc, hi⟩))
  exact ⟨h', e', hs'.mem_rest_iff.mp hrest⟩

end Shows

/-! ## Every heap that writes can lead to -/

/-- what the next write does to the pairs that cells hold and to which cells are attached, and what no write does -/
structure Framed (h : Linked) : Prop where
  /-- a put of a new key makes one cell; all others hold what they held, and are attached just when they were -/
  put_new : ∀ key value, ¬ h.Binds key → ∃ h', h.put key value = some h' ∧ h'.cells.length = h.cells.length + 1 ∧
    h'.pair? h.cells.length = some (key, value) ∧ h'.Attached h.cells.length ∧
    ∀ i < h.cells.length, h'.pair? i = h.pair? i ∧ (h'.Attached i ↔ h.Attached i)
  /-- a put of a key that is there writes the value into the one attached cell that has the key, and writes nothing else -/
  put_found : ∀ i c value, h.Attached i → h.cell? i = some c →
    (∀ j d, h.Attached j → h.cell? j = some d → d.key = c.key → j = i) ∧
      h.put c.key value = some { h with cells := h.cells.set i { c with value := value } }
  /-- a delete of an absent key changes nothing -/
  delete_absent : ∀ key, ¬ h.Binds key → h.delete key = some (false, h)
  /-- a delete at a cell with at most one child changes no pair; this cell is no longer attached -/
  delete_single : ∀ i c, h.Attached i → h.cell? i = some c → c.left = none ∨ c.right = none →
    ∃ h', h.delete c.key = some (true, h') ∧ h'.cells.length = h.cells.length ∧ (∀ k, h'.pair? k = h.pair? k) ∧
      ∀ k, h'.Attached k ↔ h.Attached k ∧ k ≠ i
  /-- a delete at a cell with two children writes the pair of the next one into it; that one is no longer attached -/
  delete_double : ∀ i c, h.Attached i → h.cell? i = some c → c.left ≠ none → c.right ≠ none →
    ∃ h' j, h.delete c.key = some (true, h') ∧ h.Precedes i j ∧ h'.cells.length = h.cells.length ∧
      h'.pair? i = h.pair? j ∧ (∀ k, k ≠ i → h'.pair? k = h.pair? k) ∧ ∀ k, h'.Attached k ↔ h.Attached k ∧ k ≠ j
  /-- a cell that is not attached stays as it is through all writes, and is not attached again -/
  unlinked : ∀ i c (ws : List SortedMap.Write), ¬ h.Attached i → h.cell? i = some c →
    ∃ h', ws.foldlM write h = some h' ∧ h'.cell? i = some c ∧ ¬ h'.Attached i

/-- **Pairs stay with their cells.** Whatever has been put and deleted, the next put or delete writes a pair only into the cell
it makes, into the one cell that has the key, or, when the key to delete is in a cell with two children, the next pair into this
cell. All other cells keep their pairs, and a cell once unlinked keeps all that it says for ever. -/
theorem written_framed (ws : List SortedMap.Write) : ∃ h, written ws = some h ∧ h.Framed := by
  obtain ⟨h, hwritten, hm⟩ := written_holds ws
  have ht := (SortedMap.sound_written ws).redBlack
  obtain ⟨rest, hs, -⟩ := hm.shows
  refine ⟨h, hwritten, ?_⟩
  constructor
  case put_new => exact hs.put_new ht
  case put_found => exact fun i c value hi hc => hs.put_found ht hi hc value
  case delete_absent => exact hs.delete_absent ht
  case delete_single => exact fun i c => hs.delete_single ht
  case delete_double => exact fun i c => hs.delete_double ht
  case unlinked => exact fun i c ws hi hc => hs.unlinked ht hi hc ws

-- cell 0 takes over the pair of cell 2, which keeps its own
example : (((written [.put [2] [5], .put [1] [6], .put [3] [7]]).bind fun h => h.delete [2]).map fun r =>
    [r.2.pair? 0, r.2.pair? 1, r.2.pair? 2]) = some [some ([3], [7]), some ([1], [6]), some ([3], [7])] := by
  decide +kernel

end Linked

end MeteredStore
