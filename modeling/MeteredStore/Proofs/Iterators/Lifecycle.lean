/-
The life of an iterator.

An iterator gives pairs until it finds that its source has run out, says so once, and is idle from then on. Whoever asks, and
by whichever command, it is the same state that goes on: each time it is asked it either hands over the pair that it has just
drawn from its source, or it ends, or it is idle (`ask_cases`). `Life` is what all these times amount to, and it goes on with
each pull (`traces_life`); one that is born exhausted is idle from the start, and logs nothing. `Serves` is what the commands on
an iterator answer at any moment, in terms of the times that they ask it: to advance it, to ask for the next pair and to drain
it are ways of asking, and answer what it gives, to advance it at its own prices.

Main statement: `iterators_live`, how iterators are born, and what every one of them does from any moment on.
-/
import MeteredStore.Proofs.Iterators.Ending

namespace MeteredStore

/-! ## Each time it is asked -/

namespace Ask

/-- it draws a pair from its source, and gives just this -/
def yields (pair : Bytes × Bytes) : Ask := ⟨some (some pair), some pair, []⟩

/-- it finds that nothing is left, and logs it -/
def ends : Ask := ⟨some none, none, [.iteratorExhausted]⟩

/-- it does not look at its source -/
def idle : Ask := ⟨none, none, []⟩

/-- the item that its prices make of it -/
def item (p : Prices) (a : Ask) : Item :=
  a.given.elim (.exhausted p.iteratorExhausted) fun q =>
    .entry q.1 q.2 (q.1.length * p.perKeyByte + q.2.length * p.perValueByte : Nat)

theorem item_eq (p : Prices) (a : Ask) : a.item p = Session.price p a.given := by
  unfold item
  cases a.given <;> rfl

/-- the item is the mark just when nothing is given, be the key empty or not, and else it has the pair -/
theorem item_marks (p : Prices) (a : Ask) :
    (a.item p).isExhausted = a.given.isNone ∧ (a.item p).pair? = a.given.map fun q => (q.1, some q.2) := by
  unfold item
  cases a.given <;> exact ⟨rfl, rfl⟩

end Ask

namespace Session

variable {s t : Session} {i j : IteratorId} {it : StorageIterator} {c : Command} {p : Prices} {born : Bool} {l : List Ask}

theorem exhaust_log (hi : s.iterators[i]? = some it) : (s.exhaust i).log = s.log ++ [.iteratorExhausted] := by
  simp only [exhaust, hi, record, setIterator]

/-- **One time.** An iterator that has run out is idle and leaves everything as it is. Any other takes from its source: it
gives what it gets there and goes on, or it ends. -/
theorem ask_cases (hi : s.iterators[i]? = some it) :
    (it.exhausted = true ∧ s.ask i = .idle ∧ s.pull i = (none, s)) ∨
      (it.exhausted = false ∧ ∃ pair, (s.take i it).1 = some pair ∧ s.ask i = .yields pair ∧
        s.pull i = (some pair, (s.take i it).2)) ∨
      (it.exhausted = false ∧ (s.take i it).1 = none ∧ s.ask i = .ends ∧ s.pull i = (none, (s.take i it).2.exhaust i)) := by
  cases he : it.exhausted with
  | true =>
    refine .inl ⟨rfl, ?_, pull_of_exhausted hi he⟩
    simp [ask, draw, hi, he, pull_of_exhausted hi he, Ask.idle]
  | false =>
    have hpull := pull_eq hi he
    cases hfound : (s.take i it).1 with
    | some pair =>
      rw [hfound, Option.elim_some] at hpull
      refine .inr (.inl ⟨rfl, pair, rfl, ?_, hpull⟩)
      simp [ask, draw, hi, he, hpull, hfound, Ask.yields]
    | none =>
      rw [hfound, Option.elim_none] at hpull
      obtain ⟨hi', -⟩ := runOut_take hi hfound
      refine .inr (.inr ⟨rfl, rfl, ?_, hpull⟩)
      simp [ask, draw, hi, he, hpull, hfound, exhaust_log hi', Ask.ends]

@[simp] theorem given_ask (s : Session) (i : IteratorId) : (s.ask i).given = (s.pull i).1 := rfl

/-! ## All the times -/

/-- an iterator with these prices, after the times that it has been asked since some moment, when it had run out or not -/
structure Life (p : Prices) (born : Bool) (l : List Ask) (it : StorageIterator) : Prop where
  prices : it.prices = p
  /-- it has not run out: each time it gave what it drew -/
  going : it.exhausted = false → born = false ∧ ∃ pairs, l = List.map .yields pairs
  /-- it has run out: it has ended once, after the pairs, unless it had run out before, and was idle ever since -/
  ended : it.exhausted = true → ∃ n,
    born = true ∧ l = List.replicate n .idle ∨
      born = false ∧ ∃ pairs, l = List.map .yields pairs ++ .ends :: List.replicate n .idle

theorem life_new (it : StorageIterator) : Life it.prices it.exhausted [] it where
  prices := rfl
  going h := ⟨h, [], rfl⟩
  ended h := ⟨0, .inl ⟨h, rfl⟩⟩

theorem Life.yields (h : Life p born l it) (he : it.exhausted = false) (pair : Bytes × Bytes) (source : Source) :
    Life p born (l ++ [.yields pair]) { it with source := source } where
  prices := h.prices
  going _ := by
    obtain ⟨hborn, pairs, rfl⟩ := h.going he
    exact ⟨hborn, pairs ++ [pair], by rw [List.map_append]; rfl⟩
  ended hx := by
    rw [he] at hx
    cases hx

theorem Life.ends (h : Life p born l it) (he : it.exhausted = false) :
    Life p born (l ++ [.ends]) { it with exhausted := true } where
  prices := h.prices
  going hx := by cases hx
  ended _ := by
    obtain ⟨hborn, pairs, rfl⟩ := h.going he
    exact ⟨0, .inr ⟨hborn, pairs, rfl⟩⟩

theorem Life.idle (h : Life p born l it) (he : it.exhausted = true) : Life p born (l ++ [.idle]) it where
  prices := h.prices
  going hx := by
    rw [he] at hx
    cases hx
  ended _ := by
    obtain ⟨n, ⟨hborn, rfl⟩ | ⟨hborn, pairs, rfl⟩⟩ := h.ended he
    · exact ⟨n + 1, .inl ⟨hborn, List.replicate_succ'.symm⟩⟩
    · exact ⟨n + 1, .inr ⟨hborn, pairs, by rw [List.replicate_succ', List.append_assoc, List.cons_append]⟩⟩

/-- a life goes on with each pull -/
theorem traces_life (i : IteratorId) (p : Prices) (born : Bool) : Traces i (Life p born) := by
  intro s l ⟨it, hi, h⟩
  rcases ask_cases hi with ⟨he, hask, hpull⟩ | ⟨he, pair, hfound, hask, hpull⟩ | ⟨he, hfound, hask, hpull⟩
  · rw [hask, hpull]
    exact ⟨it, hi, h.idle he⟩
  · obtain ⟨source, htake, -⟩ := exists_take hi
    rw [hask, hpull]
    exact ⟨_, htake, h.yields he pair source⟩
  · obtain ⟨hi', -⟩ := runOut_take hi hfound
    rw [hask, hpull]
    exact ⟨_, (getElem?_exhaust_self _ i).trans (congrArg _ hi'), h.ends he⟩

/-! ## What is drawn -/

/-- what a source gives next, and what is left then: of a list the head, of a queue, a cursor or another iterator what the next
step of that one answers -/
def Draws (s : Session) (i : IteratorId) (it : StorageIterator) (found : Option (Bytes × Bytes)) (t : Session) : Prop :=
  match it.source with
  | .pairs left => found = left.head? ∧ t = s.setIterator i { it with source := .pairs left.tail }
  | .queue q => s.step (.next (.queue q)) = (.ok (.pair found), t)
  | .cursor c => s.step (.next (.cursor c)) = (.ok (.pair found), t)
  | .iterator j => j < i → s.step (.next (.iterator j)) = (.ok (.pair found), t)

theorem draws_take (hi : s.iterators[i]? = some it) : s.Draws i it (s.take i it).1 (s.take i it).2 := by
  obtain ⟨p, source, x⟩ := it
  unfold Draws take
  cases source with
  | pairs left =>
    cases left with
    | nil =>
      obtain ⟨hlt, hit⟩ := List.getElem?_eq_some_iff.mp hi
      have hself : s.setIterator i ⟨p, .pairs [], x⟩ = s := by rw [setIterator, ← hit, List.set_getElem_self]
      exact ⟨rfl, hself.symm⟩
    | cons pair left => exact ⟨rfl, rfl⟩
  | queue q => rfl
  | cursor c => rfl
  | iterator j =>
    intro hj
    simp only [hj, if_true]
    rfl

/-! ## Commands -/

/-- to take all that is left is to ask for each pair, and once more -/
theorem asks_of_yields {pairs : List (Bytes × Bytes)} (h : Yields (fun s => s.pull i) s pairs t)
    (hi : s.At i fun it => it.prices = p) {n : Nat} (hn : pairs.length < n) :
    (asksUpTo i n s i).map Ask.given = pairs.map some ++ [none] := by
  induction h generalizing n with
  | done hs =>
    obtain ⟨n, rfl⟩ := Nat.exists_eq_add_one.mpr (Nat.zero_lt_of_lt hn)
    obtain ⟨it, hi, -⟩ := hi
    rw [asksUpTo, asksAt, comesTo_self hi, hs, List.append_nil, if_pos rfl, List.map_singleton, given_ask, hs]
    rfl
  | @more s _ _ pair pairs hs _ ih =>
    obtain ⟨n, rfl⟩ := Nat.exists_eq_add_one.mpr (Nat.zero_lt_of_lt hn)
    have hnext := (stable_prices i p).pull hi i
    obtain ⟨it, hi, -⟩ := hi
    rw [hs] at hnext
    rw [asksUpTo, asksAt, comesTo_self hi, hs, if_pos rfl, List.map_append, List.map_singleton, given_ask, hs,
      ih hnext (Nat.lt_of_succ_lt_succ hn)]
    rfl

/-- what the commands on an iterator answer, in terms of the times that they ask it -/
structure Serves (s : Session) (i : IteratorId) (it : StorageIterator) : Prop where
  /-- unless it has run out, what it draws is what its source gives next, and its source is asked for nothing more -/
  draws : it.exhausted = false → ∃ found t, s.Draws i it found t ∧ (s.ask i).drawn = some found ∧
    (s.pull i).2 = if found.isSome then t else t.exhaust i
  /-- to advance it is to ask it once, at its own prices -/
  advance : s.asksBy i (.advance i) = [s.ask i] ∧
    s.step (.advance i) = (.ok (.item ((s.ask i).item it.prices)), (s.pull i).2)
  /-- the next pair is what that item has, if it is not the mark -/
  next : s.asksBy i (.next (.iterator i)) = [s.ask i] ∧
    s.step (.next (.iterator i)) = (.ok (.pair (s.ask i).given), (s.pull i).2) ∧
    ((s.ask i).item it.prices).isExhausted = (s.ask i).given.isNone ∧
    ((s.ask i).item it.prices).pair? = (s.ask i).given.map fun q => (q.1, some q.2)
  /-- to drain it is to ask it until it has run out, and hands over all that it gave -/
  drain : (s.step (.drain (.iterator i))).1 =
      .ok (.pairs ((s.asksBy i (.drain (.iterator i))).filterMap Ask.given)) ∧
    (s.step (.drain (.iterator i))).2.At i fun it => it.exhausted = true
  /-- to advance it to its end is to ask it just as often, and hands over an item for each time -/
  advanceAll : (s.step (.advanceAll i)).1 = .ok (.items ((s.asksBy i (.advanceAll i)).map (Ask.item it.prices))) ∧
    (s.step (.advanceAll i)).2.At i fun it => it.exhausted = true
  /-- it shows whether it has run out -/
  shows : s.step (.isExhausted i) = (.ok (.flag it.exhausted), s)
  /-- if it has, there is nothing more to get, and nothing changes or is logged -/
  silent : it.exhausted = true →
    s.step (.advance i) = (.ok (.item (.exhausted it.prices.iteratorExhausted)), s) ∧
    s.step (.advanceAll i) = (.ok (.items [.exhausted it.prices.iteratorExhausted]), s) ∧
    s.step (.next (.iterator i)) = (.ok (.pair none), s) ∧
    s.step (.drain (.iterator i)) = (.ok (.pairs []), s)

theorem step_advance_eq (hi : s.iterators[i]? = some it) :
    s.step (.advance i) = (.ok (.item ((s.ask i).item it.prices)), (s.pull i).2) := by
  rw [Ask.item_eq, given_ask]
  simp only [step, attempt, advance, hi]

theorem step_advanceAll_eq (hi : s.iterators[i]? = some it) :
    s.step (.advanceAll i) = (.ok (.items ((s.pullAll i).1.map (fun pair => price it.prices (some pair)) ++
      [price it.prices none])), (s.pullAll i).2) := by
  simp only [step, attempt, Session.advanceAll, hi]

/-- the times that an iterator is asked until it has run out: once for each pair, and once more -/
theorem Reached.asks_all (h : s.Reached) (hi : s.iterators[i]? = some it) :
    (asksUpTo i (s.supply i + 1) s i).map Ask.given = (s.pullAll i).1.map some ++ [none] := by
  obtain ⟨pairs, t, hy, hlen⟩ := h.exists_yields_pull i
  have hall : s.pullAll i = (pairs, t) := pullUpTo_of_yields hy (Nat.lt_succ_of_le hlen)
  rw [hall]
  exact asks_of_yields hy ⟨it, hi, rfl⟩ (Nat.lt_succ_of_le hlen)

theorem Reached.step_drain_eq (h : s.Reached) (hi : s.iterators[i]? = some it) : (s.step (.drain (.iterator i))).1 =
    .ok (.pairs ((s.asksBy i (.drain (.iterator i))).filterMap Ask.given)) := by
  have hgiven : (s.pullAll i).1 = (asksUpTo i (s.supply i + 1) s i).filterMap Ask.given := by
    calc
      (s.pullAll i).1 = ((s.pullAll i).1.map some ++ [none]).filterMap id := by simp [List.filterMap_map]
      _ = ((asksUpTo i (s.supply i + 1) s i).map Ask.given).filterMap id := by rw [h.asks_all hi]
      _ = (asksUpTo i (s.supply i + 1) s i).filterMap Ask.given := List.filterMap_map
  exact congrArg (fun pairs => Except.ok (Answer.pairs pairs)) hgiven

theorem Reached.step_items_eq (h : s.Reached) (hi : s.iterators[i]? = some it) : (s.step (.advanceAll i)).1 =
    .ok (.items ((s.asksBy i (.advanceAll i)).map (Ask.item it.prices))) := by
  have hitems : (asksUpTo i (s.supply i + 1) s i).map (Ask.item it.prices) =
      (s.pullAll i).1.map (fun pair => price it.prices (some pair)) ++ [price it.prices none] := by
    calc
      _ = ((asksUpTo i (s.supply i + 1) s i).map Ask.given).map (price it.prices) := by
        rw [List.map_map]
        exact List.map_congr_left fun a _ => a.item_eq it.prices
      _ = ((s.pullAll i).1.map some ++ [none]).map (price it.prices) := by rw [h.asks_all hi]
      _ = _ := by
        rw [List.map_append, List.map_map]
        rfl
  rw [step_advanceAll_eq hi, asksBy, hitems]

/-- to ask an iterator that has run out changes nothing -/
theorem step_of_exhausted (hi : s.iterators[i]? = some it) (he : it.exhausted = true) :
    s.step (.advance i) = (.ok (.item (.exhausted it.prices.iteratorExhausted)), s) ∧
      s.step (.advanceAll i) = (.ok (.items [.exhausted it.prices.iteratorExhausted]), s) ∧
      s.step (.next (.iterator i)) = (.ok (.pair none), s) ∧ s.step (.drain (.iterator i)) = (.ok (.pairs []), s) := by
  have hpull := pull_of_exhausted hi he
  have hall : s.pullAll i = ([], s) := by rw [pullAll, pullUpTo, hpull]
  refine ⟨?_, ?_, ?_, ?_⟩
  · rw [step_advance_eq hi, Ask.item_eq, given_ask, hpull]
    rfl
  · rw [step_advanceAll_eq hi, hall]
    rfl
  · simp only [step, attempt, hpull]
  · simp only [step, attempt, hall]

/-- what an iterator draws when it is asked -/
theorem exists_draws (hi : s.iterators[i]? = some it) (he : it.exhausted = false) :
    ∃ found t, s.Draws i it found t ∧ (s.ask i).drawn = some found ∧
      (s.pull i).2 = if found.isSome then t else t.exhaust i := by
  have hdraws := draws_take hi
  rcases ask_cases hi with ⟨hx, -⟩ | ⟨-, pair, hfound, hask, hpull⟩ | ⟨-, hfound, hask, hpull⟩
  · rw [he] at hx
    cases hx
  · exact ⟨_, _, hdraws, by rw [hask, hfound]; rfl, by rw [hpull, hfound]; rfl⟩
  · exact ⟨_, _, hdraws, by rw [hask, hfound]; rfl, by rw [hpull, hfound]; rfl⟩

theorem Reached.serves (h : s.Reached) (hi : s.iterators[i]? = some it) : s.Serves i it where
  draws := exists_draws hi
  advance := ⟨by rw [asksBy, asksAt, comesTo_self hi, if_pos rfl], step_advance_eq hi⟩
  next := ⟨by rw [asksBy, asksAt, comesTo_self hi, if_pos rfl], rfl, Ask.item_marks _ _⟩
  drain := ⟨h.step_drain_eq hi, h.exhausted_pullAll hi⟩
  advanceAll := by
    refine ⟨h.step_items_eq hi, ?_⟩
    rw [step_advanceAll]
    exact h.exhausted_pullAll hi
  shows := by
    simp only [step, attempt, find, hi]
    rfl
  silent := step_of_exhausted hi

/-! ## Births -/

theorem attempt_of_step {a : Answer} (h : s.step c = (.ok a, t)) : s.attempt c = .ok (a, t) := by
  unfold step at h
  split at h
  · cases h
  · next ha =>
    cases h
    exact ha

/-- how iterators come to be: at the prices and with the source that are asked for, and they have not run out, unless an
iterator is asked for that has, or a range with inverted bounds -/
structure Births (s : Session) : Prop where
  supplied : ∀ prices supplier i t, s.step (.newIterator prices supplier) = (.ok (.made (.iterator i)), t) →
    ∃ it u, t.iterators[i]? = some it ∧ resolvePrices prices = .ok it.prices ∧ s.sourceOf supplier = .ok (it.source, u) ∧
      it.exhausted = false
  empty : ∀ prices i t, s.step (.newExhausted prices) = (.ok (.made (.iterator i)), t) →
    ∃ it, t.iterators[i]? = some it ∧ resolvePrices prices = .ok it.prices ∧ it.exhausted = true
  range : ∀ store start stop order i gas shown t,
    s.step (.range store start stop order) = (.ok (.opened i gas shown), t) →
    ∃ it y, t.iterators[i]? = some it ∧ s.stores[store]? = some y ∧ it.prices = y.prices ∧ it.exhausted = shown ∧
      (shown = true ↔ ∃ a e, start.asBound = .ok (some a) ∧ stop.asBound = .ok (some e) ∧ ¬ a < e)

/-- a range is known to be empty just when its bounds are inverted -/
theorem range_isInverted {m : SortedMap} {start stop : Argument} {order : Option Argument} {r : Range}
    (h : Store.range m start stop order = .ok r) :
    r.isInverted = true ↔ ∃ a e, start.asBound = .ok (some a) ∧ stop.asBound = .ok (some e) ∧ ¬ a < e := by
  unfold Store.range at h
  obtain ⟨d, -, h⟩ := exists_of_bind h
  obtain ⟨from?, hstart, h⟩ := exists_of_bind h
  obtain ⟨to?, hstop, h⟩ := exists_of_bind h
  cases h
  rw [hstart, hstop]
  cases from? with
  | none => simp [Range.ofMap, Range.isInverted]
  | some a =>
    cases to? with
    | none => simp [Range.ofMap, Range.isInverted]
    | some e =>
      by_cases hlt : a < e
      · simp [Range.ofMap, Range.isInverted, hlt]
      · have hle : e ≤ a := List.not_lt.mp hlt
        simpa [Range.ofMap, Range.isInverted, hlt] using hle

theorem births (s : Session) : s.Births where
  supplied prices supplier i t h := by
    obtain ⟨p, hp, h⟩ := exists_of_bind (attempt_of_step h)
    obtain ⟨⟨source, u⟩, hs, h⟩ := exists_of_bind h
    cases h
    exact ⟨⟨p, source, false⟩, u, List.getElem?_concat_length, hp, hs, rfl⟩
  empty prices i t h := by
    obtain ⟨p, hp, h⟩ := exists_of_bind (attempt_of_step h)
    cases h
    exact ⟨⟨p, .pairs [], true⟩, List.getElem?_concat_length, hp, rfl⟩
  range store start stop order i gas shown t h := by
    obtain ⟨x, hx, h⟩ := exists_of_bind (attempt_of_step h)
    obtain ⟨r, hr, h⟩ := exists_of_bind h
    obtain ⟨y, hy, hx⟩ := exists_of_bind hx
    obtain ⟨m, -, hx⟩ := exists_of_bind hx
    cases hx
    have hshown := range_isInverted hr
    cases h
    cases r with
    | inverted a e =>
      exact ⟨⟨y.prices, .pairs [], true⟩, y, List.getElem?_concat_length, getElem?_of_find hy, rfl, rfl, hshown⟩
    | snapshot pairs =>
      exact ⟨⟨y.prices, .pairs pairs, false⟩, y, List.getElem?_concat_length, getElem?_of_find hy, rfl, rfl, hshown⟩

/-- **Iterators live once.** In any session, iterators are born as asked for. Whatever commands follow, on an iterator or on
what it takes from, in whichever order: all the times that it is asked, it first gives what it draws from its source, pair by
pair; then it finds nothing, and logs that, this once; and from then on it is idle. -/
theorem iterators_live (cs : List Command) :
    (empty.run cs).2.Births ∧ LogRecord.iteratorExhausted.text = "Range iterator exhausted" ∧
      ∀ i it, (empty.run cs).2.iterators[i]? = some it → ∀ ds,
        ∃ it', ((empty.run cs).2.run ds).2.iterators[i]? = some it' ∧
          Life it.prices it.exhausted ((empty.run cs).2.asks i ds) it' ∧ ((empty.run cs).2.run ds).2.Serves i it' := by
  refine ⟨births _, rfl, ?_⟩
  intro i it hi ds
  have hreached := reached_run cs
  obtain ⟨it', hi', hlife⟩ := At.trace (l := []) ⟨it, hi, life_new it⟩ (traces_life i it.prices it.exhausted) ds
  rw [List.nil_append] at hlife
  exact ⟨it', hi', hlife, (stable_reached.run hreached ds).serves hi'⟩

/-- a pair with an empty key and an empty value is given like any other, and what is left after it is drained -/
theorem iterators_live_mixed :
    let s := (empty.run [.newIterator none (.pairs [([], []), ([1], [2])])]).2
    let ds : List Command := [.next (.iterator 0), .drain (.iterator 0), .advance 0]
    s.asks 0 ds = [.yields ([], []), .yields ([1], [2]), .ends, .idle] ∧
      ∃ it, (s.run ds).2.iterators[0]? = some it ∧ Life Prices.standard false (s.asks 0 ds) it ∧
        (s.run ds).2.Serves 0 it := by
  intro s ds
  have hi : s.iterators[0]? = some ⟨Prices.standard, .pairs [([], []), ([1], [2])], false⟩ := by decide +kernel
  obtain ⟨-, -, hlives⟩ := iterators_live [.newIterator none (.pairs [([], []), ([1], [2])])]
  exact ⟨by decide +kernel, hlives 0 _ hi ds⟩

end Session

end MeteredStore
