/-
What scans cost.

A write is charged when it is made, and a step of a scan is charged for the pair that it answers. The two agree as long as all
writes to the map go through one store: what was charged for the last write of a key is what its binding costs (`Booked`), and
every command keeps that (`booked_step`), whatever becomes of the tree. The answers of a scan are the bindings in range and the
mark at the end (`run_advances`), so that their costs are a sum over bindings (`Bindings.cost`), which has no direction.

Main statement: `scan_charges`, on a store to whose map nothing was ever written but through it,
- each binding of the map costs what was charged when its key was last set;
- a range with bounds and an order that are accepted, opened and advanced until its first mark, answers items that cost together
  what was charged for the bindings in range; without bounds that is all bindings;
- a range that is cut in two costs as much as its parts;
- no answer of any session tells gas below zero.
-/
import MeteredStore.Proofs.Iterators.Snapshot
import MeteredStore.Proofs.Invariants

namespace MeteredStore

/-! ## What was charged -/

/-- the map that a command writes to, when these are the stores; a store does not write if it refuses an argument -/
def Command.target (stores : List Store) : Command → Option MapId
  | .put m _ _ => some m
  | .delete m _ => some m
  | .set i key value => if key.asKey.isOk && value.asValue.isOk then stores[i]?.map Store.map else none
  | .remove i key => if key.asKey.isOk then stores[i]?.map Store.map else none
  | _ => none

/-- the store that a command writes through -/
def Command.writer : Command → Option StoreId
  | .set i _ _ => some i
  | .remove i _ => some i
  | _ => none

/-- what was last charged for a write of the key through a store, after one more command and its answer -/
def charge (i : StoreId) (key : Bytes) (old : Option Nat) : Command × Except Refusal Answer → Option Nat
  | (.set j k _, .ok (.count gas)) => if j = i ∧ k.asKey.toOption = some key then some gas else old
  | _ => old

/-- what was charged for the last write of the key through a store, over commands with their answers -/
def lastCharge (i : StoreId) (key : Bytes) (history : List (Command × Except Refusal Answer)) : Option Nat :=
  history.foldl (charge i key) none

/-- the gas that an answer tells; a count is what a write or a removal has cost, or a size -/
def Answer.charges : Answer → List Int
  | .count n => [n]
  | .reading _ gas => [gas]
  | .opened _ gas _ => [gas]
  | .item x => [x.gas]
  | .items xs => xs.map Item.gas
  | _ => []

/-- the gas that is told, if anything is answered -/
def told : Except Refusal Answer → List Int
  | .ok a => a.charges
  | .error _ => []

theorem charge_of_ne {i : StoreId} {c : Command} (hc : ∀ k v, c ≠ .set i k v) (key : Bytes) (old : Option Nat)
    (a : Except Refusal Answer) : charge i key old (c, a) = old := by
  unfold charge
  split
  · next j k v gas he =>
    cases he
    refine if_neg ?_
    rintro ⟨rfl, -⟩
    exact hc k v rfl
  · rfl

theorem charge_of_error (i : StoreId) (key : Bytes) (old : Option Nat) (c : Command) (r : Refusal) :
    charge i key old (c, .error r) = old := by
  unfold charge
  split
  · next he => cases he
  · rfl

namespace Bindings

/-- each binding costs what was charged for its key -/
def Booked (p : Prices) (paid : Bytes → Option Nat) (b : Bindings) : Prop := ∀ q ∈ b, paid q.1 = some (p.write q.1 q.2)

/-- the bindings in range, at what was charged for their keys -/
def cost (paid : Bytes → Option Nat) (b : Bindings) (r : Bounds) : Nat :=
  ((b.filter fun q => r.contains q.1).map fun q => (paid q.1).getD 0).sum

variable {p : Prices} {paid : Bytes → Option Nat} {b : Bindings} {key value : Bytes}

theorem booked_insert (h : b.Booked p paid) (hb : b.Sorted) :
    (b.insert key value).Booked p fun k => if k = key then some (p.write key value) else paid k := by
  rintro ⟨k, v⟩ hq
  have hget := (mem_iff_get? (sorted_insert hb key value) k v).mp hq
  rw [get?_insert] at hget
  by_cases hk : k = key
  · subst hk
    rw [if_pos rfl, Option.some.injEq] at hget
    simp only [if_true, hget]
  · rw [if_neg fun he => hk he.symm] at hget
    simp only [hk, if_false]
    exact h _ ((mem_iff_get? hb k v).mpr hget)

theorem booked_erase (h : b.Booked p paid) : (b.erase key).Booked p paid := fun q hq => h q (List.mem_of_mem_filter hq)

end Bindings

/-! ## One command -/

namespace Books

variable {b : Books} {j : MapId} {x : Bindings} {c : Command}

/-- what a command makes of the bindings of a map -/
inductive Entered (b : Books) (j : MapId) (c : Command) : Bindings → Prop where
  | same {x : Bindings} : b.maps[j]? = some x → Entered b j c x
  | new : Entered b j c []
  | erased {x : Bindings} (key : Bytes) : b.maps[j]? = some x → Entered b j c (x.erase key)
  | inserted {x : Bindings} (key value : Bytes) : b.maps[j]? = some x → c.target b.stores = some j →
      (∀ i, c.writer = some i → ∃ k v, c = .set i k v) → Entered b j c (x.insert key value)

theorem getElem?_amend (b : Books) (i j : MapId) (f : Bindings → Bindings) :
    (b.amend i f).maps[j]? = if i = j then b.maps[j]?.map f else b.maps[j]? := by
  rw [amend, List.getElem?_modify]
  split <;> simp

/-- the bindings of a map that is amended, or of another -/
theorem amended {i : MapId} {f : Bindings → Bindings} (hx : (b.amend i f).maps[j]? = some x) :
    b.maps[j]? = some x ∨ ∃ x₀, i = j ∧ b.maps[j]? = some x₀ ∧ x = f x₀ := by
  rw [getElem?_amend] at hx
  split at hx
  · next hij =>
    rw [Option.map_eq_some_iff] at hx
    obtain ⟨x₀, hx₀, rfl⟩ := hx
    exact .inr ⟨x₀, hij, hx₀, rfl⟩
  · exact .inl hx

theorem amendedAt {i : StoreId} {k : Argument} {f : Bytes → Bindings → Bindings} (hx : (b.amendAt i k f).maps[j]? = some x) :
    b.maps[j]? = some x ∨
      ∃ x₀ z key, b.stores[i]? = some z ∧ z.map = j ∧ k.asKey = .ok key ∧ b.maps[j]? = some x₀ ∧ x = f key x₀ := by
  unfold amendAt at hx
  split at hx
  · next z key hz hk =>
    refine (amended hx).imp_right ?_
    rintro ⟨x₀, hj, hx₀, rfl⟩
    exact ⟨x₀, z, key, hz, hj, hk, hx₀, rfl⟩
  · exact .inl hx

theorem added (hx : (b.maps ++ [[]])[j]? = some x) : b.maps[j]? = some x ∨ x = [] := by
  rw [List.getElem?_append] at hx
  split at hx
  · exact .inl hx
  · exact .inr (List.mem_singleton.mp (List.mem_of_getElem? hx))

theorem entered (hx : (b.enter c).maps[j]? = some x) : b.Entered j c x := by
  cases c with
  | newMap =>
    rcases added hx with hx | rfl
    · exact .same hx
    · exact .new
  | newStore prices map =>
    cases map with
    | none =>
      cases hp : prices.resolve with
      | error r =>
        simp only [enter, hp] at hx
        exact .same hx
      | ok p =>
        simp only [enter, hp] at hx
        rcases added hx with hx | rfl
        · exact .same hx
        · exact .new
    | some m =>
      simp only [enter] at hx
      split at hx <;> exact .same hx
  | put m key value =>
    rcases amended hx with hx | ⟨x₀, rfl, hx₀, rfl⟩
    · exact .same hx
    · exact .inserted key value hx₀ rfl (by simp [Command.writer])
  | delete m key =>
    rcases amended hx with hx | ⟨x₀, rfl, hx₀, rfl⟩
    · exact .same hx
    · exact .erased key hx₀
  | set i k v =>
    cases hv : v.asValue with
    | error r =>
      simp only [enter, hv] at hx
      exact .same hx
    | ok value =>
      simp only [enter, hv] at hx
      rcases amendedAt hx with hx | ⟨x₀, z, key, hz, rfl, hk, hx₀, rfl⟩
      · exact .same hx
      · refine .inserted key value hx₀ ?_ ?_
        · simp [Command.target, hk, hv, hz, Except.isOk, Except.toBool]
        · rintro j hj
          cases hj
          exact ⟨k, v, rfl⟩
  | remove i k =>
    rcases amendedAt hx with hx | ⟨x₀, z, key, hz, rfl, hk, hx₀, rfl⟩
    · exact .same hx
    · exact .erased key hx₀
  | _ => exact .same hx

end Books

namespace Session

variable {s : Session} {b : Books} {i : StoreId} {y : Store} {paid : Bytes → Option Nat} {c : Command}

/-- a write through a store is refused, or it is charged by the prices of the store and binds the value to the key -/
theorem set_cases (hs : s.Shown b) (i : StoreId) (k v : Argument) :
    ((∃ r, (s.step (.set i k v)).1 = .error r) ∧ b.enter (.set i k v) = b) ∨
      ∃ z key value, b.stores[i]? = some z ∧ k.asKey = .ok key ∧
        (s.step (.set i k v)).1 = .ok (.count (z.prices.write key value)) ∧
        b.enter (.set i k v) = b.amend z.map fun x => x.insert key value := by
  have hanswer := (step_meets hs (.set i k v)).2
  rcases hs.find_store i with ⟨-, hstore, hheld⟩ | ⟨z, m, -, hstore, -, -, hheld⟩
  · left
    refine ⟨⟨_, hanswer (.error .noSuchObject) ?_⟩, ?_⟩
    · simp only [Books.answer, hheld]
      rfl
    · cases hv : v.asValue <;> simp only [Books.enter, hv, Books.amendAt, hstore]
  · cases hk : k.asKey with
    | error r =>
      left
      refine ⟨⟨_, hanswer (.error r) ?_⟩, ?_⟩
      · simp only [Books.answer, hheld, Books.replyAt, hk]
        rfl
      · cases hv : v.asValue <;> simp only [Books.enter, hv, Books.amendAt, hstore, hk]
    | ok key =>
      cases hv : v.asValue with
      | error r =>
        left
        refine ⟨⟨_, hanswer (.error r) ?_⟩, ?_⟩
        · simp only [Books.answer, hheld, Books.replyAt, hk, hv]
          rfl
        · simp only [Books.enter, hv]
      | ok value =>
        right
        refine ⟨z, key, value, hstore, rfl, hanswer _ ?_, ?_⟩
        · simp only [Books.answer, hheld, Books.replyAt, hk, hv]
          rfl
        · simp only [Books.enter, hv, Books.amendAt, hstore, hk]

/-- the bindings of a map in the books are sorted -/
theorem Shown.sorted (hs : s.Shown b) {j : MapId} {x : Bindings} (hx : b.maps[j]? = some x) : x.Sorted := by
  rcases hs.find_map j with ⟨-, hnone⟩ | ⟨m, -, -, hsound, hsome⟩
  · rw [hnone] at hx
    cases hx
  · cases hsome.symm.trans hx
    exact hsound.sorted

/-- **One command** keeps what was charged in step with the bindings, if it does not write to the map past the store. -/
theorem booked_step (hs : s.Shown b) (hy : ∀ z, b.stores[i]? = some z → z = y)
    (hc : c.target b.stores = some y.map → c.writer = some i)
    (h : ∀ x, b.maps[y.map]? = some x → x.Booked y.prices paid) :
    ∀ x, (b.enter c).maps[y.map]? = some x → x.Booked y.prices fun key => charge i key (paid key) (c, (s.step c).1) := by
  intro x hx
  by_cases hset : ∃ k v, c = .set i k v
  · obtain ⟨k, v, rfl⟩ := hset
    rcases set_cases hs i k v with ⟨⟨r, hr⟩, henter⟩ | ⟨z, key, value, hz, hk, hanswer, henter⟩
    · rw [henter] at hx
      simp only [hr, charge_of_error]
      exact h x hx
    · obtain rfl := hy z hz
      rw [henter, Books.getElem?_amend, if_pos rfl, Option.map_eq_some_iff] at hx
      obtain ⟨x₀, hx₀, rfl⟩ := hx
      have hcharge : (fun k' => charge i k' (paid k') (.set i k v, (s.step (.set i k v)).1)) =
          fun k' => if k' = key then some (z.prices.write key value) else paid k' := by
        funext k'
        simp [hanswer, charge, hk, Except.toOption, eq_comm]
      rw [hcharge]
      exact Bindings.booked_insert (h x₀ hx₀) (hs.sorted hx₀)
  · simp only [charge_of_ne fun k v he => hset ⟨k, v, he⟩]
    cases Books.entered hx with
    | same hx => exact h x hx
    | new => simp [Bindings.Booked]
    | erased key hx₀ => exact Bindings.booked_erase (h _ hx₀)
    | inserted key value hx₀ htarget hwriter => exact absurd (hwriter i (hc htarget)) hset

/-! ## Runs -/

/-- a store stays what it is -/
theorem stable_store (i : StoreId) (y : Store) : Stable fun s => s.stores[i]? = some y where
  map _ h := h
  store _ _ h := (List.getElem?_append_left (List.getElem?_eq_some_iff.mp h).1).trans h
  queue _ _ h := h
  cursor _ _ _ _ _ h _ := h
  iterator _ _ h _ := h
  record _ _ _ h := h
  write _ _ _ _ h _ := h
  hand _ _ _ _ h _ := h
  next s c h := by rwa [(nextOfCursor_kept s c).stores]
  left _ _ _ _ _ h _ _ _ := h
  exhaust s j _ h _ _ := by rwa [(exhaust_kept s j).stores]

theorem target_of_target {stores stores' : List Store} {j : MapId}
    (hstores : ∀ (i : StoreId) z, stores[i]? = some z → stores'[i]? = some z) (h : c.target stores = some j) :
    c.target stores' = some j := by
  have hmap : ∀ i : StoreId, stores[i]?.map Store.map = some j → stores'[i]?.map Store.map = some j := by
    intro i hi
    obtain ⟨z, hz, rfl⟩ := Option.map_eq_some_iff.mp hi
    exact Option.map_eq_some_iff.mpr ⟨z, hstores i z hz, rfl⟩
  cases c with
  | set i k v | remove i k =>
    simp only [Command.target] at h ⊢
    split at h
    · next hargs =>
      rw [if_pos hargs]
      exact hmap i h
    · cases h
  | _ => exact h

/-- **A whole run** keeps what was charged in step with the bindings, if it does not write to the map past the store. -/
theorem booked_run (hs : s.Shown b) {cs : List Command} (hy : (s.run cs).2.stores[i]? = some y)
    (hcs : ∀ c ∈ cs, c.target (s.run cs).2.stores = some y.map → c.writer = some i)
    (h : ∀ x, b.maps[y.map]? = some x → x.Booked y.prices paid) :
    ∀ x, (cs.foldl Books.enter b).maps[y.map]? = some x →
      x.Booked y.prices fun key => (cs.zip (s.run cs).1).foldl (charge i key) (paid key) := by
  induction cs generalizing s b paid with
  | nil => exact h
  | cons c cs ih =>
    have hlater : ∀ (j : StoreId) z, b.stores[j]? = some z → (s.run (c :: cs)).2.stores[j]? = some z := by
      intro j z hz
      rw [← hs.stores] at hz
      exact (stable_store j z).run hz (c :: cs)
    have hfirst := booked_step (i := i) (c := c) hs ?_ ?_ h
    · exact ih (step_meets hs c).1 hy (fun d hd => hcs d (List.mem_cons_of_mem c hd)) hfirst
    · intro z hz
      exact Option.some.inj ((hlater i z hz).symm.trans hy)
    · intro htarget
      exact hcs c List.mem_cons_self (target_of_target hlater htarget)

/-! ## Scans -/

/-- the item that a scan answers for a pair, or the mark at its end -/
def scanned (p : Prices) (q : Option (Bytes × Bytes)) : Item :=
  q.elim (.exhausted p.iteratorExhausted) fun q =>
    .entry q.1 q.2 (q.1.length * p.perKeyByte + q.2.length * p.perValueByte : Nat)

/-- advancing an iterator over a list of its own again and again answers what is on the list, one after the other -/
theorem run_advances {k : IteratorId} {p : Prices} {pairs : List (Bytes × Bytes)} {n : Nat} (h : s.At k (Left p pairs n))
    (j : Nat) : (s.run (List.replicate j (.advance k))).1 =
      (List.range' n j).map fun a => .ok (.item (scanned p pairs[a]?)) := by
  induction j generalizing s n with
  | zero => rfl
  | succ j ih =>
    have hnext : (s.step (.advance k)).2.At k (Left p pairs (n + 1)) := by
      rw [step_advance]
      exact (pull_left h).2
    have hrun : (s.run (.advance k :: List.replicate j (.advance k))).1 =
        (s.step (.advance k)).1 :: ((s.step (.advance k)).2.run (List.replicate j (.advance k))).1 := rfl
    rw [List.replicate_succ, List.range'_succ, List.map_cons, hrun, advance_left h, ih hnext]
    rfl

theorem map_scanned (p : Prices) (pairs : List (Bytes × Bytes)) {α : Type} (f : Item → α) :
    (List.range' 0 (pairs.length + 1)).map (fun a => f (scanned p pairs[a]?)) =
      pairs.map (fun q => f (scanned p (some q))) ++ [f (scanned p none)] := by
  apply List.ext_getElem
  · simp
  · intro a h₁ h₂
    rw [List.getElem_map, List.getElem_range', List.getElem_append]
    split
    · next h => simp at h; simp [h]
    · next h => simp at h; simp [h]

/-- opened by the command and advanced until the first mark, a range answers items that cost so much together, and all of it
costs the opening and the mark besides -/
def Scans (s : Session) (c : Command) (p : Prices) (total : Nat) : Prop :=
  ∃ (shown : Bool) (items : List Item), (∀ x ∈ items, x.isExhausted = false) ∧ (items.map Item.gas).sum = total ∧
    let answers := (s.run (c :: List.replicate (items.length + 1) (.advance s.iterators.length))).1
    answers = .ok (.opened s.iterators.length p.rangeSetup shown) ::
      (items ++ [Item.exhausted p.iteratorExhausted]).map (fun x => .ok (.item x)) ∧
    (answers.flatMap told).sum = p.rangeSetup + p.iteratorExhausted + total

theorem flatMap_told (items : List Item) :
    (items.map fun x => (.ok (.item x) : Except Refusal Answer)).flatMap told = items.map Item.gas := by
  induction items with
  | nil => rfl
  | cons x items ih => rw [List.map_cons, List.flatMap_cons, ih]; rfl

/-- a range over these pairs -/
theorem scans_of_left {t : Session} {c : Command} {p : Prices} {pairs : List (Bytes × Bytes)} {shown : Bool} {total : Nat}
    (hc : s.step c = (.ok (.opened s.iterators.length p.rangeSetup shown), t)) (ht : t.At s.iterators.length (Left p pairs 0))
    (htotal : (pairs.map fun q => (scanned p (some q)).gas).sum = total) : s.Scans c p total := by
  have hanswers : (s.run (c :: List.replicate (pairs.length + 1) (.advance s.iterators.length))).1 =
      .ok (.opened s.iterators.length p.rangeSetup shown) ::
        (pairs.map (fun q => scanned p (some q)) ++ [Item.exhausted p.iteratorExhausted]).map (fun x => .ok (.item x)) := by
    have hrun : (s.run (c :: List.replicate (pairs.length + 1) (.advance s.iterators.length))).1 =
        (s.step c).1 :: ((s.step c).2.run (List.replicate (pairs.length + 1) (.advance s.iterators.length))).1 := rfl
    rw [hrun, hc, run_advances ht, map_scanned p pairs fun x => Except.ok (Answer.item x), List.map_append, List.map_map]
    rfl
  refine ⟨shown, pairs.map fun q => scanned p (some q), ?_, ?_, ?_⟩
  · intro x hx
    obtain ⟨q, -, rfl⟩ := List.mem_map.mp hx
    rfl
  · rw [List.map_map, ← htotal]
    rfl
  · rw [List.length_map]
    refine ⟨hanswers, ?_⟩
    have hmark : (Item.exhausted p.iteratorExhausted).gas = p.iteratorExhausted := rfl
    rw [hanswers, List.flatMap_cons, flatMap_told, List.map_append, List.map_map, List.sum_append, List.sum_append]
    simp only [told, Answer.charges, List.map_cons, List.map_nil, List.sum_cons, List.sum_nil, hmark, add_zero]
    rw [show (pairs.map (Item.gas ∘ fun q => scanned p (some q))).sum = (total : Int) from htotal]
    omega

end Session

/-! ## Sums over bindings -/

namespace Bounds

variable {mid key : Bytes}

/-- a key before the place where a range is cut is in the first part, if it is in the range -/
theorem contains_before (start : Option Bytes) {stop : Option Bytes} (hstop : ∀ e ∈ stop, ¬ e < mid) (h : key < mid) :
    contains ⟨start, some mid⟩ key = contains ⟨start, stop⟩ key ∧ contains ⟨some mid, stop⟩ key = false := by
  have hfollows : follows ⟨start, stop⟩ key = false := by
    cases stop with
    | none => rfl
    | some e =>
      have he : key < e := by
        rcases Bytes.lt_trichotomy mid e with hlt | rfl | hlt
        · exact Bytes.lt_trans h hlt
        · exact h
        · exact absurd hlt (hstop e rfl)
      simp [follows, he]
  constructor
  · rw [contains, contains, hfollows]
    simp [precedes, follows, h]
  · simp [contains, precedes, h]

/-- any other key is in the second part, if it is in the range -/
theorem contains_after (stop : Option Bytes) {start : Option Bytes} (hstart : ∀ a ∈ start, ¬ mid < a) (h : ¬ key < mid) :
    contains ⟨start, some mid⟩ key = false ∧ contains ⟨some mid, stop⟩ key = contains ⟨start, stop⟩ key := by
  have hprecedes : precedes ⟨start, stop⟩ key = false := by
    cases start with
    | none => rfl
    | some a =>
      have ha : ¬ key < a := by
        intro hlt
        rcases Bytes.lt_trichotomy a mid with hmid | rfl | hmid
        · exact h (Bytes.lt_trans hlt hmid)
        · exact h hlt
        · exact hstart a rfl hmid
      simp [precedes, ha]
  constructor
  · simp [contains, follows, h]
  · rw [contains, contains, hprecedes]
    simp [precedes, follows, h]

end Bounds

namespace Bindings

variable {p : Prices} {paid : Bytes → Option Nat} {b : Bindings}

/-- in either direction a scan costs what was charged for the bindings in range -/
theorem sum_range (h : b.Booked p paid) (r : Bounds) (d : Direction) :
    ((b.range r d).map fun q => (Session.scanned p (some q)).gas).sum = b.cost paid r := by
  have hascending : ((b.filter fun q => r.contains q.1).map fun q => (Session.scanned p (some q)).gas) =
      ((b.filter fun q => r.contains q.1).map fun q => (paid q.1).getD 0).map Nat.cast := by
    rw [List.map_map]
    apply List.map_congr_left
    intro q hq
    simp [h q (List.mem_of_mem_filter hq), Session.scanned, Item.entry, Prices.write]
  cases d with
  | ascending => rw [range, hascending, ← Nat.cast_list_sum, cost]
  | descending => rw [range, List.map_reverse, List.sum_reverse, hascending, ← Nat.cast_list_sum, cost]

theorem cost_all (paid : Bytes → Option Nat) (b : Bindings) : b.cost paid .all = (b.map fun q => (paid q.1).getD 0).sum := by
  have hall : b.filter (fun q => Bounds.all.contains q.1) = b := List.filter_eq_self.mpr fun q _ => Bounds.contains_all q.1
  rw [cost, hall]

theorem cost_cons (paid : Bytes → Option Nat) (q : Bytes × Bytes) (b : Bindings) (r : Bounds) :
    cost paid (q :: b) r = (if r.contains q.1 then (paid q.1).getD 0 else 0) + cost paid b r := by
  rw [cost, List.filter_cons]
  split
  · rfl
  · exact (Nat.zero_add _).symm

/-- a range that is cut in two costs as much as its parts -/
theorem cost_split (paid : Bytes → Option Nat) (b : Bindings) {start stop : Option Bytes} {mid : Bytes}
    (hstart : ∀ a ∈ start, ¬ mid < a) (hstop : ∀ e ∈ stop, ¬ e < mid) :
    b.cost paid ⟨start, some mid⟩ + b.cost paid ⟨some mid, stop⟩ = b.cost paid ⟨start, stop⟩ := by
  induction b with
  | nil => rfl
  | cons q b ih =>
    rw [cost_cons, cost_cons, cost_cons, ← ih]
    by_cases hq : q.1 < mid
    · obtain ⟨hfirst, hsecond⟩ := Bounds.contains_before start hstop hq
      rw [hfirst, hsecond]
      simp only [Bool.false_eq_true, if_false]
      omega
    · obtain ⟨hfirst, hsecond⟩ := Bounds.contains_after stop hstart hq
      rw [hfirst, hsecond]
      simp only [Bool.false_eq_true, if_false]
      omega

end Bindings

/-! ## What answers tell -/

namespace Session

variable {s : Session}

/-- an answer, if there is one, tells no gas below zero -/
def Fair (r : Except Refusal (Answer × Session)) : Prop := ∀ a t, r = .ok (a, t) → ∀ g ∈ a.charges, 0 ≤ g

theorem fair_ok {a : Answer} {t : Session} (h : ∀ g ∈ a.charges, 0 ≤ g) : Fair (.ok (a, t)) := by
  intro a' t' he
  cases he
  exact h

theorem fair_bind {α : Type} {x : Except Refusal α} {f : α → Except Refusal (Answer × Session)} (h : ∀ v, Fair (f v)) :
    Fair (x >>= f) := by
  intro a t ha
  obtain ⟨v, -, hv⟩ := exists_of_bind ha
  exact h v a t hv

theorem gas_price (p : Prices) (q : Option (Bytes × Bytes)) : 0 ≤ (price p q).gas := by
  cases q <;> exact Int.natCast_nonneg _

theorem fair_attempt (s : Session) (c : Command) : Fair (s.attempt c) := by
  cases c with
  | newMap | newQueue => exact fair_ok (by simp [Answer.charges])
  | newStore | walk | newExhausted | put | delete | lookup | mapSize | tree | storeSize | items | describe | prices
  | isExhausted => exact fair_bind fun v => fair_ok (by simp [Answer.charges])
  | newIterator | newCursor | get | set | remove | has | range =>
    exact fair_bind fun v => fair_bind fun w => fair_ok (by simp [Answer.charges])
  | advance i =>
    cases hi : s.iterators[i]? with
    | none => simp [Fair, attempt, advance, hi]
    | some it =>
      simp only [attempt, advance, hi]
      exact fair_ok (by simp [Answer.charges, gas_price])
  | advanceAll i =>
    cases hi : s.iterators[i]? with
    | none => simp [Fair, attempt, advanceAll, hi]
    | some it =>
      simp only [attempt, advanceAll, hi]
      refine fair_ok ?_
      intro g hg
      obtain ⟨x, hx, rfl⟩ := List.mem_map.mp hg
      rcases List.mem_append.mp hx with hx | hx
      · obtain ⟨q, -, rfl⟩ := List.mem_map.mp hx
        exact gas_price _ _
      · rw [List.mem_singleton.mp hx]
        exact gas_price _ _
  | next o | drain o =>
    cases o with
    | map | store =>
      intro a t h
      cases h
    | queue | cursor | iterator => exact fair_ok (by simp [Answer.charges])

theorem told_step (s : Session) (c : Command) : ∀ g ∈ told (s.step c).1, 0 ≤ g := by
  cases h : s.attempt c with
  | error r =>
    rw [step_of_error h]
    simp [told]
  | ok x =>
    rw [step_of_ok h]
    exact fair_attempt s c x.1 x.2 h

/-- no command, in whatever session, is answered with gas below zero -/
theorem told_nonneg (s : Session) (cs : List Command) : ∀ a ∈ (s.run cs).1, ∀ g ∈ told a, 0 ≤ g := by
  induction cs generalizing s with
  | nil =>
    intro a ha
    cases ha
  | cons c cs ih =>
    intro a ha
    rcases List.mem_cons.mp ha with rfl | ha
    · exact told_step s c
    · exact ih (s.step c).2 a ha

/-! ## Scans of a store -/

/-- the iterator that a range opens has all its pairs before it -/
theorem left_of_opened {t : Session} {p : Prices} {x : Bindings} {r : Bounds} {d : Direction}
    (h : t.iterators = s.iterators ++ [⟨p, .pairs (x.range r d), r.inverted⟩]) :
    t.At s.iterators.length (Left p (x.range r d) 0) := by
  refine ⟨_, by rw [h, List.getElem?_concat_length], rfl, rfl, ?_⟩
  intro hinverted
  rw [range_of_inverted hinverted]
  exact Nat.le_refl 0

/-- **Scans cost what the writes were charged.** On a store of any session, to whose map nothing was ever written but through
it, the items of a range cost together what was charged for the bindings in range when their keys were last set, whichever the
order. With the opening and the mark that is all that the scan costs. -/
theorem scan_charges (cs : List Command) {i : StoreId} {y : Store} (hy : (empty.run cs).2.stores[i]? = some y)
    (honly : ∀ c ∈ cs, c.target (empty.run cs).2.stores = some y.map → c.writer = some i) :
    let s := (empty.run cs).2
    let paid := fun key => lastCharge i key (cs.zip (empty.run cs).1)
    ∃ m, s.maps[y.map]? = some m ∧
      (∀ q ∈ m.toList, paid q.1 = some (y.prices.write q.1 q.2)) ∧
      (∀ start stop order r d, Argument.asDirection order = .ok d → start.asBound = .ok r.start → stop.asBound = .ok r.stop →
        s.Scans (.range i start stop order) y.prices (Bindings.cost paid m.toList r)) ∧
      Bindings.cost paid m.toList .all = (m.toList.map fun q => (paid q.1).getD 0).sum ∧
      (∀ start mid stop, (∀ a ∈ start, ¬ mid < a) → (∀ e ∈ stop, ¬ e < mid) →
        Bindings.cost paid m.toList ⟨start, some mid⟩ + Bindings.cost paid m.toList ⟨some mid, stop⟩ =
          Bindings.cost paid m.toList ⟨start, stop⟩) ∧
      ∀ ds, ∀ a ∈ (empty.run ds).1, ∀ g ∈ told a, 0 ≤ g := by
  intro s paid
  have hshown : s.Shown (Books.after cs) := run_shown shown_empty cs
  obtain ⟨m, hm, -, hheld⟩ := hshown.held hy
  have hmap : (Books.after cs).maps[y.map]? = some m.toList := by
    rw [← hshown.contents, List.getElem?_map, hm]
    rfl
  have hbooked : Bindings.Booked y.prices paid m.toList := by
    refine booked_run shown_empty hy honly ?_ m.toList hmap
    intro x hx
    cases hx
  refine ⟨m, hm, hbooked, ?_, Bindings.cost_all paid m.toList, ?_, told_nonneg empty⟩
  · intro start stop order r d hd hstart hstop
    obtain ⟨t, hopen, hiterators⟩ := hshown.open_range hheld hd hstart hstop
    exact scans_of_left (step_of_ok hopen) (left_of_opened hiterators) (Bindings.sum_range hbooked r d)
  · intro start mid stop hstart hstop
    exact Bindings.cost_split paid m.toList hstart hstop

/-- one key is set twice, and another is removed and set again -/
theorem scan_charges_overwritten :
    let s := (empty.run [.newStore (.call (.positional [.int 100, .int 9, .int 0, .int 7])) none,
      .set 0 (.bytes [1]) (.bytes [10]), .set 0 (.bytes [2]) (.bytes [20]), .set 0 (.bytes [1]) (.bytes [11, 12, 13]),
      .remove 0 (.bytes [2]), .set 0 (.bytes [2]) (.bytes [])]).2
    s.Scans (.range 0 .nothing .nothing (some (.int 2))) ⟨100, 9, 0, 7⟩ 21 ∧
      (s.run [.range 0 .nothing .nothing (some (.int 2)), .advance 0, .advance 0, .advance 0]).1.map told =
        [[100], [0], [21], [9]] := by
  intro s
  have hstore : s.stores[0]? = some ⟨⟨100, 9, 0, 7⟩, 0⟩ := by decide +kernel
  have horder : Argument.asDirection (some (.int 2)) = .ok .descending := rfl
  obtain ⟨m, hm, -, hscans, hall, -⟩ := scan_charges _ hstore (by decide +kernel)
  have hlist : m.toList = [([1], [11, 12, 13]), ([2], [])] := by
    have h : s.maps[0]?.map SortedMap.toList = some [([1], [11, 12, 13]), ([2], [])] := by decide +kernel
    rw [hm] at h
    exact Option.some.inj h
  have hscan := hscans .nothing .nothing _ .all .descending horder rfl rfl
  rw [hall, hlist] at hscan
  exact ⟨hscan, by decide +kernel⟩

end Session

end MeteredStore
