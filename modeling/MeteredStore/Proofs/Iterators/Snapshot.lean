/-
Ranges are snapshots.

The pairs of a range are taken from the map when it is opened. From then on the iterator has a list of its own (`Left`), and
each time it is asked it gives the next one (`pull_left`). Writes do not touch it, and others who ask it take pairs away from
each other, but never one twice or out of turn.

Main statement: `range_snapshot`, what a range answers at any later moment, whatever has happened in between, and that
opening and asking it changes no map and no store.
-/
import MeteredStore.Proofs.Iterators.Asked
import MeteredStore.Proofs.Views

namespace MeteredStore.Session

variable {s : Session} {i : IteratorId} {p : Prices} {pairs : List (Bytes × Bytes)} {n : Nat}

/-! ## An iterator over a list of its own -/

/-- an iterator over these pairs that has been asked so many times -/
structure Left (p : Prices) (pairs : List (Bytes × Bytes)) (n : Nat) (it : StorageIterator) : Prop where
  prices : it.prices = p
  source : it.source = .pairs (pairs.drop n)
  exhausted : it.exhausted = true → pairs.length ≤ n

/-- to ask it is to get the next pair -/
theorem pull_left (h : s.At i (Left p pairs n)) : (s.pull i).1 = pairs[n]? ∧ (s.pull i).2.At i (Left p pairs (n + 1)) := by
  obtain ⟨it, hi, hp, hsource, hexhausted⟩ := h
  obtain ⟨hfound, x, hx, hi'⟩ := pull_own hi hsource fun he => List.drop_eq_nil_of_le (hexhausted he)
  refine ⟨hfound.trans List.head?_drop, _, hi', hp, congrArg Source.pairs List.tail_drop, ?_⟩
  intro he
  exact Nat.le_succ_of_le (List.drop_eq_nil_iff.mp (hx he))

theorem carries_left (i : IteratorId) (p : Prices) (pairs : List (Bytes × Bytes)) : Carries i (Left p pairs) :=
  fun _ _ h => (pull_left h).2

/-- to advance it is to get the next pair, with what its lengths cost, or the mark at the end -/
theorem advance_left (h : s.At i (Left p pairs n)) :
    (s.step (.advance i)).1 = .ok (.item (pairs[n]?.elim (.exhausted p.iteratorExhausted) fun q =>
      .entry q.1 q.2 (q.1.length * p.perKeyByte + q.2.length * p.perValueByte : Nat))) := by
  obtain ⟨hpair, -⟩ := pull_left h
  obtain ⟨it, hi, hp, -, -⟩ := h
  have hstep : (s.step (.advance i)).1 = .ok (.item (price it.prices (s.pull i).1)) := by
    simp only [step, attempt, advance, hi]
  rw [hstep, hpair, hp]
  cases pairs[n]? with
  | none => rfl
  | some q => rfl

/-! ## Ranges -/

/-- an iterator that gives these pairs in turn, each to whoever asks next, and then says that it has run out; no asking it
changes a map or a store -/
structure Snapshot (s : Session) (i : IteratorId) (p : Prices) (pairs : List (Bytes × Bytes)) : Prop where
  /-- to advance it, whatever has happened, is to get the next pair after those that have been asked for -/
  answers : ∀ cs, ((s.run cs).2.step (.advance i)).1 =
    .ok (.item (pairs[s.asked i cs]?.elim (.exhausted p.iteratorExhausted) fun q =>
      .entry q.1 q.2 (q.1.length * p.perKeyByte + q.2.length * p.perValueByte : Nat)))
  /-- to advance it is to ask it once -/
  advances : ∀ cs, s.asked i (cs ++ [.advance i]) = s.asked i cs + 1
  /-- if it is not shared with others and all that is done with it is to advance it, that is all the asking -/
  alone : ∀ cs : List Command, (∀ c ∈ cs, c.taps i = false) → s.asked i cs = cs.countP (Command.advances i)
  /-- maps and stores stay as they are -/
  keeps : ∀ cs, ∀ c ∈ [Command.advance i, .advanceAll i, .isExhausted i, .next (.iterator i), .drain (.iterator i)],
    Kept (s.run cs).2 ((s.run cs).2.step c).2

theorem snapshot_of_left (h : s.At i (Left p pairs 0)) (halone : s.Alone i) : s.Snapshot i p pairs := by
  have hcarries := carries_left i p pairs
  have hrun : ∀ cs, (s.run cs).2.At i (Left p pairs (s.asked i cs)) := by
    intro cs
    have hcs := h.run hcarries cs
    rwa [Nat.zero_add] at hcs
  refine ⟨fun cs => advance_left (hrun cs), ?_, fun cs => halone.asked h hcarries, fun cs => ask_kept (s.run cs).2 i⟩
  intro cs
  obtain ⟨it, hi, -⟩ := hrun cs
  rw [asked_append, asked, askedBy, comesTo_self hi]
  rfl

/-- **Ranges are snapshots.** A range of any store, in any session, with bounds and an order that are accepted: it is opened at
the price for that, on the bindings that the map of the store has between the bounds at that moment, in the order of the walk,
and on none if the bounds are inverted. Whatever happens afterwards, these are what it gives; and neither to open it nor to
ask it changes any map or store. -/
theorem range_snapshot (cs : List Command) {i : StoreId} {y : Store} (hy : (empty.run cs).2.stores[i]? = some y)
    {start stop : Argument} {order : Option Argument} {r : Bounds} {d : Direction} (hd : Argument.asDirection order = .ok d)
    (hstart : start.asBound = .ok r.start) (hstop : stop.asBound = .ok r.stop) :
    let s := (empty.run cs).2
    let t := (s.step (.range i start stop order)).2
    ∃ m, s.maps[y.map]? = some m ∧
      let pairs := Bindings.range m.toList r d
      (s.step (.range i start stop order)).1 = .ok (.opened s.iterators.length y.prices.rangeSetup r.inverted) ∧
      Kept s t ∧ t.Snapshot s.iterators.length y.prices pairs ∧
      (∀ q, q ∈ pairs ↔ q ∈ m.toList ∧ (∀ a ∈ r.start, ¬ q.1 < a) ∧ ∀ e ∈ r.stop, q.1 < e) ∧
      pairs.Pairwise (fun q q' => d.Before q.1 q'.1) ∧ (r.inverted = true → pairs = []) := by
  intro s t
  have hshown : s.Shown (Books.after cs) := run_shown shown_empty cs
  obtain ⟨m, hm, hsound, hheld⟩ := hshown.held hy
  obtain ⟨u, hopen, hiterators⟩ := hshown.open_range hheld hd hstart hstop
  have hstep := step_of_ok hopen
  have ht : t = u := congrArg Prod.snd hstep
  refine ⟨m, hm, congrArg Prod.fst hstep, ?_, ?_, fun q => SortedMap.mem_range, SortedMap.pairwise_range hsound.sorted r d,
    fun h => range_of_inverted h _ d⟩
  · rw [ht]
    exact range_kept hopen
  · have hleft : u.At s.iterators.length (Left y.prices (Bindings.range m.toList r d) 0) := by
      refine ⟨⟨y.prices, .pairs (Bindings.range m.toList r d), r.inverted⟩, ?_, rfl, rfl, ?_⟩
      · rw [hiterators]
        exact List.getElem?_concat_length
      · intro hinv
        rw [range_of_inverted hinv]
        exact Nat.le_refl 0
    have halone : u.Alone s.iterators.length := by
      apply alone_new
      rw [hiterators, List.length_append]
      exact Nat.le_refl _
    rw [ht]
    exact snapshot_of_left hleft halone

/-- a key is written over and another removed; the range gives them as they were -/
theorem range_snapshot_written :
    let s := (empty.run [.newStore .standard none, .set 0 (.bytes [1]) (.bytes [10]), .set 0 (.bytes [2]) (.bytes [20, 21])]).2
    let t := (s.step (.range 0 .nothing .nothing none)).2
    let u := (t.run [.set 0 (.bytes [1]) (.bytes [11]), .advance 0, .remove 0 (.bytes [2])]).2
    u.maps.map SortedMap.toList = [[([1], [11])]] ∧ (u.step (.advance 0)).1 = .ok (.item (.entry [2] [20, 21] 3)) := by
  intro s t u
  have hstore : s.stores[0]? = some ⟨Prices.standard, 0⟩ := by decide +kernel
  have horder : Argument.asDirection none = .ok .ascending := rfl
  have hbound : Argument.asBound .nothing = .ok none := rfl
  obtain ⟨m, hm, -, -, hsnapshot, -⟩ := range_snapshot _ hstore (r := .all) horder hbound hbound
  have hlist : m.toList = [([1], [10]), ([2], [20, 21])] := by
    have h : s.maps[0]?.map SortedMap.toList = some [([1], [10]), ([2], [20, 21])] := by decide +kernel
    rw [hm] at h
    exact Option.some.inj h
  have hnumber : s.iterators.length = 0 := by decide +kernel
  rw [hlist, hnumber] at hsnapshot
  have hasked := hsnapshot.alone [.set 0 (.bytes [1]) (.bytes [11]), .advance 0, .remove 0 (.bytes [2])] (by decide)
  have hanswer := hsnapshot.answers [.set 0 (.bytes [1]) (.bytes [11]), .advance 0, .remove 0 (.bytes [2])]
  rw [hasked] at hanswer
  exact ⟨by decide +kernel, hanswer⟩

end MeteredStore.Session
