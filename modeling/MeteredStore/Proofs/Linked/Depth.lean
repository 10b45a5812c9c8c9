/-
How far down an operation goes.

The cells on a way down are the nodes on that way in the tree (`Has.passed`), so there are no more of them than the tree is
high. The cells that a search looks at are a way down (`trail_search`), and so are those that a delete looks at: it goes on
below the cell it has found, to the right and then to the left (`exists_deleteWay`). A loop takes no more turns than it comes
to states (`turns_of_trail`), so a search takes one turn for each cell that it looks at and at most one more.

Main statement: `ways_short`, on the cells that any puts and deletes lead to, with `h.size` bindings,
- no way down from the root has more than `depth` cells on it, where `2 ^ depth` is at most `(h.size + 1) ^ 2`, so that `depth`
  is at most twice the logarithm of `h.size + 1`;
- the search that `put`, `get?`, `contains` and `delete` make looks at no more cells, and neither does a delete in its search
  and on its way to the pair next in order together;
- the loops of both are over after as many turns, and one more to see that none is due;
- the stack of a cursor has no more cells on it, for any bounds, in both directions and after any number of steps on a map that
  stands still.
-/
import Mathlib.Analysis.SpecialFunctions.Log.Base
import MeteredStore.Linked.Reading
import MeteredStore.Proofs.Height
import MeteredStore.Proofs.Linked.Written
import MeteredStore.Proofs.Live.Nested

namespace MeteredStore

namespace Tree

/-! ## Ways down in a tree -/

/-- the numbers of the nodes on a way down, as far as it leads to nodes, both ends included -/
def passed : List Side → Tree → List NodeId
  | _, leaf => []
  | [], node _ _ e _ => [e.id]
  | s :: way, node c l e r => e.id :: passed way ((node c l e r).child s)

@[simp] theorem passed_leaf (way : List Side) : leaf.passed way = [] := by cases way <;> rfl

/-- the height of a tree is at most twice the logarithm of its size -/
theorem height_le_logb {t : Tree} (h : t.RedBlack) : (t.height : ℝ) ≤ 2 * Real.logb 2 (t.size + 1) := by
  have hpow : (2 : ℝ) ^ t.height ≤ (t.size + 1) ^ 2 := by exact_mod_cast two_pow_height_le h
  calc (t.height : ℝ) = Real.logb 2 (2 ^ t.height) := by
        rw [Real.logb_pow, Real.logb_self_eq_one one_lt_two, mul_one]
    _ ≤ Real.logb 2 ((t.size + 1) ^ 2) := Real.logb_le_logb_of_le one_lt_two (by positivity) hpow
    _ = 2 * Real.logb 2 (t.size + 1) := by
        rw [Real.logb_pow]
        norm_num

theorem length_passed_le (t : Tree) (way : List Side) : (t.passed way).length ≤ t.height := by
  induction way generalizing t with
  | nil => cases t <;> simp [passed, height]
  | cons s way ih =>
    cases t with
    | leaf => simp
    | node c l e r => exact Nat.succ_le_of_lt (Nat.lt_of_le_of_lt (ih _) height_child_lt)

theorem passed_append (t : Tree) (way below : List Side) (s : Side) :
    t.passed (way ++ s :: below) = t.passed way ++ ((t.under way).child s).passed below := by
  induction way generalizing t with
  | nil => cases t <;> simp [passed, under, child]
  | cons s' way ih =>
    cases t with
    | leaf => simp [under_leaf, child]
    | node c l e r => exact congrArg (e.id :: ·) (ih _)

end Tree

namespace Linked

variable {h : Linked} {m : SortedMap} {n : Nat} {rest : Bag} {t : Tree} {p : Path} {i : NodeId} {parent : Option NodeId}

/-! ## Loops -/

/-- a loop that comes to its end does so in as many turns as it comes to states -/
theorem turns_of_trail {α β : Type} {turn : α → Option (Option α)} {last : α → Option β} {n k : Nat} {a : α} {b : β}
    (h : turns turn last n a = some b) (hk : (trail turn n a).length ≤ k) : turns turn last k a = some b := by
  induction n generalizing a k with
  | zero => cases h
  | succ n ih =>
    cases hturn : turn a with
    | none => simp [turns, hturn] at h
    | some next =>
      cases next with
      | none =>
        rw [trail_of_none hturn] at hk
        obtain ⟨k, rfl⟩ := Nat.exists_eq_add_one.mpr hk
        rwa [turns_of_none hturn] at h ⊢
      | some c =>
        rw [trail_of_some hturn, List.length_cons] at hk
        obtain ⟨k, rfl⟩ := Nat.exists_eq_add_one.mpr (Nat.zero_lt_of_lt hk)
        rw [turns_of_some hturn] at h ⊢
        exact ih h (Nat.le_of_succ_le_succ hk)

/-- a search comes to one state for each cell that it looks at, and to one more if it ends where there is no cell -/
theorem length_trail_search (h : Linked) (key : Bytes) (n : Nat) (place : Option NodeId × Option NodeId) :
    (trail (h.searchTurn key) n place).length ≤ ((trail (h.searchTurn key) n place).filterMap Prod.fst).length + 1 := by
  induction n generalizing place with
  | zero => exact Nat.zero_le _
  | succ n ih =>
    obtain ⟨i, parent⟩ := place
    cases hturn : h.searchTurn key (i, parent) with
    | none => simp [trail, hturn]
    | some next =>
      cases next with
      | none => simp [trail, hturn]
      | some place =>
        cases i with
        | none => cases hturn
        | some i =>
          rw [trail_of_some hturn]
          exact Nat.succ_le_succ (ih place)

/-! ## Ways down -/

/-- the cells on a way down are the nodes on it -/
theorem Has.passed (ht : h.Has parent t) (way : List Side) : h.passed way t.topId = t.passed way := by
  induction way generalizing t parent with
  | nil => cases t <;> rfl
  | cons s way ih =>
    cases t with
    | leaf => rfl
    | node c l e r =>
      have hs : (h.cell? e.id).bind (fun c => c.child s) = ((Tree.node c l e r).child s).topId := by
        rw [ht.top]
        cases s <;> rfl
      simp only [Linked.passed, Tree.topId, Tree.passed, hs]
      exact congrArg (e.id :: ·) (ih (ht.child s))

/-- what a search looks at is a way down, to the place where the search in the tree ends -/
theorem trail_search (hs : h.Shows n rest t p) (key : Bytes) {k : Nat} (hk : t.entries.length < k) :
    ∃ way, (trail (h.searchTurn key) k (t.topId, p.topId)).filterMap Prod.fst = t.passed way ∧
      t.under way = (t.descend key p).1 := by
  obtain ⟨k, rfl⟩ := Nat.exists_eq_add_one.mpr (Nat.zero_lt_of_lt hk)
  fun_induction Tree.descend key t p generalizing k with
  | case1 p =>
    refine ⟨[], ?_, rfl⟩
    rw [trail_of_none rfl]
    rfl
  | case2 c l e r p hlt ih =>
    have hturn : h.searchTurn key (some e.id, p.topId) = some (some (l.topId, some e.id)) := by
      simp [searchTurn, hs.top, hlt]
    simp only [Tree.entries, List.length_append, List.length_cons] at hk
    obtain ⟨k, rfl⟩ := Nat.exists_eq_add_one.mpr (show 0 < k by omega)
    obtain ⟨way, hway, hunder⟩ := ih (shows_fill.mp hs) k (by omega)
    refine ⟨.left :: way, ?_, hunder⟩
    rw [Tree.topId, trail_of_some hturn]
    exact congrArg (e.id :: ·) hway
  | case3 c l e r p hnlt hlt ih =>
    have hturn : h.searchTurn key (some e.id, p.topId) = some (some (r.topId, some e.id)) := by
      simp [searchTurn, hs.top, hnlt, hlt]
    simp only [Tree.entries, List.length_append, List.length_cons] at hk
    obtain ⟨k, rfl⟩ := Nat.exists_eq_add_one.mpr (show 0 < k by omega)
    obtain ⟨way, hway, hunder⟩ := ih (shows_fill.mp hs) k (by omega)
    refine ⟨.right :: way, ?_, hunder⟩
    rw [Tree.topId, trail_of_some hturn]
    exact congrArg (e.id :: ·) hway
  | case4 c l e r p hnlt hngt =>
    have hturn : h.searchTurn key (some e.id, p.topId) = some none := by
      simp [searchTurn, hs.top, hnlt, hngt]
    refine ⟨[], ?_, rfl⟩
    rw [Tree.topId, trail_of_none hturn]
    rfl

/-- following left links is a way down -/
theorem trail_left (hs : h.Shows n rest t p) (ht : t.topId = some i) {k : Nat} (hk : t.entries.length < k) :
    ∃ way, trail (fun i => (h.cell? i).map Cell.left) k i = t.passed way := by
  obtain ⟨k, rfl⟩ := Nat.exists_eq_add_one.mpr (Nat.zero_lt_of_lt hk)
  fun_induction Tree.leftmost t p generalizing i k with
  | case1 p => simp [Tree.topId] at ht
  | case2 c e r p =>
    obtain rfl : e.id = i := by simpa [Tree.topId] using ht
    have hturn : (h.cell? e.id).map Cell.left = some none := by rw [hs.top]; rfl
    exact ⟨[], trail_of_none hturn⟩
  | case3 c cl ll el rl e r p ih =>
    obtain rfl : e.id = i := by simpa [Tree.topId] using ht
    have hturn : (h.cell? e.id).map Cell.left = some (some el.id) := by rw [hs.top]; rfl
    rw [Tree.entries, List.length_append, List.length_cons] at hk
    obtain ⟨k, rfl⟩ := Nat.exists_eq_add_one.mpr (show 0 < k by omega)
    obtain ⟨way, hway⟩ := ih (shows_fill.mp hs) rfl k (by omega)
    refine ⟨.left :: way, ?_⟩
    rw [trail_of_some hturn]
    exact congrArg (e.id :: ·) hway

theorem exists_searched (hs : h.Shows n rest t []) (key : Bytes) :
    ∃ way, h.searched key = t.passed way ∧ t.under way = (t.descend key []).1 := by
  have hlen := hs.length_le
  rw [searched, show h.root = t.topId from hs.root]
  exact trail_search hs key (by rw [limit]; omega)

/-- what a delete looks at before it changes anything is one way down -/
theorem exists_deleteWay (hs : h.Shows n rest t []) (key : Bytes) : ∃ way, h.deleteWay key = t.passed way := by
  obtain ⟨way, hway, hunder⟩ := exists_searched hs key
  have hfound := hs.shows_descend key
  rw [deleteWay, hs.descend, hway]
  rw [← hunder] at hfound ⊢
  cases hu : t.under way with
  | leaf => exact ⟨way, List.append_nil _⟩
  | node c l e r =>
    rw [hu] at hfound
    simp only [Tree.topId, followed, hfound.top]
    cases l with
    | leaf => exact ⟨way, List.append_nil _⟩
    | node cl ll el rl =>
      cases r with
      | leaf => exact ⟨way, List.append_nil _⟩
      | node cr lr er rr =>
        -- the cell has two children: the way goes on to the right
        have hright := (shows_fill (f := ⟨.right, c, e, .node cl ll el rl⟩)).mp hfound
        have hlen := hright.length_le
        obtain ⟨below, hbelow⟩ := trail_left hright rfl (k := h.limit) (by rw [limit]; omega)
        refine ⟨way ++ .right :: below, ?_⟩
        rw [Tree.passed_append, hu]
        exact congrArg (t.passed way ++ ·) hbelow

/-- from a cell that a search has found, a delete that goes on to the right comes to a cell -/
theorem Shows.exists_leftmost (hs : h.Shows n rest t []) {key : Bytes} {c : Cell} {j : NodeId}
    (hi : h.descend key = some (some i, parent)) (hc : h.cell? i = some c) (hright : c.right = some j) :
    ∃ next, h.leftmost j = some next := by
  have hfound := hs.shows_descend key
  have hid : (t.descend key []).1.topId = some i := congrArg Prod.fst (Option.some.inj (hs.descend key ▸ hi))
  cases hn : (t.descend key []).1 with
  | leaf =>
    rw [hn] at hid
    cases hid
  | node k l e r =>
    rw [hn] at hfound hid
    obtain rfl : e.id = i := Option.some.inj hid
    obtain rfl := Option.some.inj (hfound.top.symm.trans hc)
    have hbelow := (shows_fill (f := ⟨.right, k, e, l⟩)).mp hfound
    cases r with
    | leaf => cases hright
    | node cr lr er rr =>
      obtain ⟨cd, d, rd, below, hlast, -⟩ := Tree.leftmost_spec (t := .node cr lr er rr) (by simp)
        (⟨.right, k, e, l⟩ :: (t.descend key []).2)
      refine ⟨d.id, ?_⟩
      rw [hbelow.leftmost hright, hlast]
      rfl

/-- **Ways down are short.** On the cells that any puts and deletes lead to, no way down from the root has more cells on it than
twice the logarithm of one more than the number of bindings. No search and no delete looks at more of them, and no cursor has
more of them on its stack while the map stands still. -/
theorem ways_short (ws : List SortedMap.Write) :
    ∃ (h : Linked) (depth : Nat), written ws = some h ∧ h.Holds (SortedMap.written ws) ∧
      h.size = (SortedMap.written ws).toList.length ∧
      2 ^ depth ≤ (h.size + 1) ^ 2 ∧ (depth : ℝ) ≤ 2 * Real.logb 2 (h.size + 1) ∧
      (∀ way, (h.passed way h.root).length ≤ depth) ∧
      (∀ key, (h.searched key).length ≤ depth ∧ (h.deleteWay key).length ≤ depth) ∧
      (∀ key, turns (h.searchTurn key) some (depth + 1) (h.root, none) = h.descend key) ∧
      (∀ key i parent c j, h.descend key = some (some i, parent) → h.cell? i = some c → c.left ≠ none → c.right = some j →
        turns (fun i => (h.cell? i).map Cell.left) some depth j = h.leftmost j) ∧
      ∀ b d n, (Live.after ws b d (List.replicate n .next)).cursor.stack.length ≤ depth := by
  obtain ⟨h, hwritten, hholds⟩ := written_holds ws
  have hs := SortedMap.sound_written ws
  have hredBlack := hs.redBlack
  obtain ⟨rest, hshow, -⟩ := hholds.shows
  have hsize : h.size = (SortedMap.written ws).root.size := hshow.size.trans hs.size
  have hmem := hshow.has
  have hlooked : ∀ key, (h.searched key).length ≤ (SortedMap.written ws).root.height ∧
      (h.deleteWay key).length ≤ (SortedMap.written ws).root.height := by
    intro key
    obtain ⟨way, hway, -⟩ := exists_searched hshow key
    obtain ⟨way', hway'⟩ := exists_deleteWay hshow key
    rw [hway, hway']
    exact ⟨Tree.length_passed_le _ way, Tree.length_passed_le _ way'⟩
  refine ⟨h, (SortedMap.written ws).root.height, hwritten, hholds, ?_, ?_, ?_, ?_, hlooked, ?_, ?_, ?_⟩
  · rw [hsize, SortedMap.toList, Tree.toList, List.length_map, Tree.length_entries]
  · rw [hsize]
    exact Tree.two_pow_height_le hredBlack
  · rw [hsize]
    exact Tree.height_le_logb hredBlack
  · intro way
    rw [show h.root = (SortedMap.written ws).root.topId from hshow.root, hmem.passed way]
    exact Tree.length_passed_le _ way
  · intro key
    have hdescend := hshow.descend key
    have htrail := Nat.le_trans (length_trail_search h key h.limit (h.root, none)) (Nat.succ_le_succ (hlooked key).1)
    rw [hdescend]
    exact turns_of_trail hdescend htrail
  · intro key i parent c j hi hc hleft hright
    obtain ⟨next, hnext⟩ := hshow.exists_leftmost hi hc hright
    obtain ⟨k, hk⟩ := Option.ne_none_iff_exists'.mp hleft
    have hfollowed : h.followed i = trail (fun i => (h.cell? i).map Cell.left) h.limit j := by
      simp only [followed, hc, hk, hright]
    have hway : h.deleteWay key = h.searched key ++ h.followed i := by simp only [deleteWay, hi]
    have htrail := (hlooked key).2
    rw [hway, List.length_append, hfollowed] at htrail
    rw [hnext]
    exact turns_of_trail hnext (Nat.le_trans (Nat.le_add_left _ _) htrail)
  · intro b d n
    obtain ⟨us, hnested⟩ := Live.nested_replicate ws b d n
    exact hnested.length_le

end Linked

end MeteredStore
