/-
Ranges with inverted bounds.

A range could always be opened by walking the map (`walkedRange`): at the price for that, without a record, on an iterator
over the pairs that the walk gives. So it is opened, unless both bounds are given and the first is not before the second, also
when no key is in range; then it has run out only when it has been asked in vain. With inverted bounds it is opened at the same
price without a look at the map, on an iterator that has run out from the start, and there is a record of the bounds.

To walk the map for inverted bounds would have led to an iterator over an empty list, which finds that out when it is first
asked, and logs it. The two sessions are alike but for this iterator and for their logs (`alter`), and they stay so: commands
that ask no iterator look at neither (`attempt_alter`), and a pull that comes to the iterator gets nothing from it in both
(`Twins.pull`). `Shortcut` says what can be seen of the difference.

Main statement: `range_shortcut`, from whatever session a range is opened, which way it is opened, and what can be seen of that
through any commands afterwards.
-/
import MeteredStore.Proofs.Iterators.Lifecycle
import MeteredStore.Proofs.Views

namespace MeteredStore.Session

variable {s t u v : Session} {i k : IteratorId} {it : StorageIterator} {p : Prices} {front : List LogRecord} {n : Nat}

/-! ## Another iterator, another log -/

/-- another iterator in the place of one, and another beginning in the place of the first `n` records of the log -/
def alter (k : IteratorId) (it : StorageIterator) (front : List LogRecord) (n : Nat) (s : Session) : Session :=
  { s with iterators := s.iterators.set k it, log := front ++ s.log.drop n }

theorem record_alter (hn : n ≤ s.log.length) (r : LogRecord) :
    (s.alter k it front n).record r = (s.record r).alter k it front n := by
  simp only [alter, record, List.drop_append_of_le_length hn, List.append_assoc]

theorem addIterator_alter (hk : k < s.iterators.length) (x : StorageIterator) :
    (s.alter k it front n).addIterator x = Prod.map id (alter k it front n) (s.addIterator x) := by
  simp only [alter, addIterator, List.length_set, Prod.map, id, List.set_append_left _ _ hk]

theorem setIterator_alter (hi : i ≠ k) (x : StorageIterator) :
    (s.alter k it front n).setIterator i x = (s.setIterator i x).alter k it front n := by
  simp only [alter, setIterator, List.set_comm _ _ hi]

theorem nextOfQueue_alter (q : QueueId) :
    (s.alter k it front n).nextOfQueue q = Prod.map id (alter k it front n) (s.nextOfQueue q) := by
  simp only [nextOfQueue, alter]
  cases s.queues[q]? with
  | none => rfl
  | some left => cases left <;> rfl

theorem nextOfCursor_alter (c : CursorId) :
    (s.alter k it front n).nextOfCursor c = Prod.map id (alter k it front n) (s.nextOfCursor c) := by
  simp only [nextOfCursor, alter]
  cases s.cursors[c]? with
  | none => rfl
  | some l =>
    simp only
    cases s.maps[l.map]? <;> rfl

theorem drainCursor_alter (c : CursorId) :
    (s.alter k it front n).drainCursor c = Prod.map id (alter k it front n) (s.drainCursor c) := by
  simp only [drainCursor, alter]
  cases s.cursors[c]? with
  | none => rfl
  | some l =>
    simp only
    cases s.maps[l.map]? <;> rfl

theorem exhaust_alter (hi : i ≠ k) (hn : n ≤ s.log.length) :
    (s.alter k it front n).exhaust i = (s.exhaust i).alter k it front n := by
  have hget : (s.alter k it front n).iterators[i]? = s.iterators[i]? := List.getElem?_set_ne hi.symm
  simp only [exhaust, hget]
  cases s.iterators[i]? with
  | none => rfl
  | some x =>
    simp only [setIterator_alter hi]
    exact record_alter (s := s.setIterator i { x with exhausted := true }) hn _

/-- what goes the same way at every step goes the same way -/
theorem map_bind {α β : Type} {x : Except Refusal α} {φ : β → β} {f g : α → Except Refusal β}
    (h : ∀ a, g a = (f a).map φ) : x >>= g = (x >>= f).map φ := by
  cases x with
  | error r => rfl
  | ok a => exact h a

theorem newCursor_alter (m : MapId) (b : Bounds) (d : Direction) :
    (s.alter k it front n).newCursor m b d = (s.newCursor m b d).map (Prod.map id (alter k it front n)) :=
  map_bind fun _ => rfl

theorem walk_alter (o : Object) :
    (s.alter k it front n).walk o = (s.walk o).map (Prod.map id (alter k it front n)) := by
  have hmap : (s.alter k it front n).mapOf o = s.mapOf o := by cases o <;> rfl
  rw [walk, hmap]
  exact map_bind fun m => newCursor_alter m _ _

theorem sourceOf_alter (f : Supplier) :
    (s.alter k it front n).sourceOf f = (s.sourceOf f).map (Prod.map id (alter k it front n)) := by
  unfold sourceOf
  split
  · rfl
  · rfl
  · rfl
  · rfl
  · next o _ _ _ =>
    rw [walk_alter]
    cases s.walk o <;> rfl

theorem newStore_alter (p : StorePrices) (map : Option MapId) :
    (s.alter k it front n).newStore p map = (s.newStore p map).map (Prod.map id (alter k it front n)) := by
  apply map_bind
  intro p
  cases map with
  | none => rfl
  | some m =>
    apply map_bind
    intro m
    by_cases hm : m.size = 0
    · simp only [hm, if_true]
      rfl
    · simp only [hm, if_false]
      rfl

theorem openRange_alter (hk : k < s.iterators.length) (hn : n ≤ s.log.length) (p : Prices) (r : Range) :
    (s.alter k it front n).openRange p r = Prod.map id (alter k it front n) (s.openRange p r) := by
  cases r with
  | inverted start stop =>
    rw [openRange, record_alter hn]
    exact addIterator_alter (s := s.record _) hk _
  | snapshot pairs => exact addIterator_alter hk _

/-- commands that step nothing look at no iterator, except for the one that asks whether it has run out, and at no record -/
theorem attempt_alter (hk : k < s.iterators.length) (hn : n ≤ s.log.length) {c : Command} (hc : c.steps = none)
    (hne : c ≠ .isExhausted k) :
    (s.alter k it front n).attempt c = (s.attempt c).map (Prod.map id (alter k it front n)) := by
  cases c with
  | newMap | newQueue => rfl
  | newStore prices map =>
    simp only [attempt, newStore_alter]
    cases s.newStore prices map <;> rfl
  | newIterator prices supplier =>
    apply map_bind
    intro p
    rw [sourceOf_alter]
    cases hf : s.sourceOf supplier with
    | error r => rfl
    | ok r =>
      have ht : k < r.2.iterators.length := by rwa [(sourceOf_spec hf).1]
      simp only [Except.map, Prod.map, id, bind, Except.bind, addIterator_alter ht]
      rfl
  | newExhausted prices =>
    apply map_bind
    intro p
    rw [addIterator_alter hk]
    rfl
  | newCursor map bounds order =>
    apply map_bind
    intro d
    rw [newCursor_alter]
    cases s.newCursor map bounds d <;> rfl
  | walk through =>
    simp only [attempt, walk_alter]
    cases s.walk through <;> rfl
  | range store start stop order =>
    apply map_bind
    intro x
    apply map_bind
    intro r
    rw [openRange_alter hk hn]
    rfl
  | put | delete | lookup | mapSize | tree | storeSize | items | describe | prices => exact map_bind fun _ => rfl
  | get | set | remove | has => exact map_bind fun _ => map_bind fun _ => rfl
  | isExhausted j =>
    have hj : k ≠ j := by
      rintro rfl
      exact hne rfl
    have hget : find (s.alter k it front n).iterators j = find s.iterators j := by
      rw [find, find, alter, List.getElem?_set_ne hj]
    rw [attempt, hget]
    exact map_bind fun _ => rfl
  | advance | advanceAll | next | drain => cases hc

/-- the log only grows -/
theorem still_log (l : List LogRecord) : Still fun s => l <+: s.log where
  map _ h := h
  store _ _ h := h
  queue _ _ h := h
  cursor _ _ _ _ _ h _ := h
  iterator _ _ h _ := h
  record _ _ _ h := List.IsPrefix.trans h (List.prefix_append _ _)
  write _ _ _ _ h _ := h

/-! ## What advancing answers -/

theorem answer_advance (s : Session) (i : IteratorId) : (s.step (.advance i)).1 =
    (s.iterators[i]?.map StorageIterator.prices).elim (.error .noSuchObject) fun p => .ok (.item (price p (s.pull i).1)) := by
  cases hi : s.iterators[i]? with
  | none =>
    simp only [step, attempt, advance, hi]
    rfl
  | some it =>
    simp only [step, attempt, advance, hi]
    rfl

theorem answer_advanceAll (s : Session) (i : IteratorId) : (s.step (.advanceAll i)).1 =
    (s.iterators[i]?.map StorageIterator.prices).elim (.error .noSuchObject) fun p =>
      .ok (.items ((s.pullAll i).1.map (fun pair => price p (some pair)) ++ [price p none])) := by
  cases hi : s.iterators[i]? with
  | none =>
    simp only [step, attempt, advanceAll, hi]
    rfl
  | some it =>
    simp only [step, attempt, advanceAll, hi]
    rfl

/-! ## Two sessions -/

/-- two sessions, alike but for one iterator over an empty list and for their logs: in the first it has run out from the start,
and there is a note about that; in the second it has found out since (`x`), and has logged that, or it has not -/
structure Twins (k : IteratorId) (p : Prices) (base : List LogRecord) (note : LogRecord) (x : Bool) (s t : Session) :
    Prop where
  own : s.iterators[k]? = some ⟨p, .pairs [], true⟩
  alike : ∃ old, base ++ note :: old <+: s.log ∧
    t = s.alter k ⟨p, .pairs [], x⟩ (base ++ if x then old ++ [.iteratorExhausted] else []) (base ++ note :: old).length ∧
      (x = false → old = [])

namespace Twins

variable {base : List LogRecord} {note : LogRecord} {x : Bool}

/-- what is done to both in the same way -/
theorem of_alter {s' t' : Session} (h : Twins k p base note x s t) (hk : s'.iterators[k]? = s.iterators[k]?)
    (hlog : s.log <+: s'.log)
    (ht : ∀ front n, n ≤ s.log.length → t = s.alter k ⟨p, .pairs [], x⟩ front n → t' = s'.alter k ⟨p, .pairs [], x⟩ front n) :
    Twins k p base note x s' t' := by
  obtain ⟨old, hpre, halter, hx⟩ := h.alike
  exact ⟨hk.trans h.own, old, List.IsPrefix.trans hpre hlog, ht _ _ (List.IsPrefix.length_le hpre) halter, hx⟩

theorem exists_alter (h : Twins k p base note x s t) : ∃ front n, n ≤ s.log.length ∧ t = s.alter k ⟨p, .pairs [], x⟩ front n := by
  obtain ⟨old, hpre, halter, -⟩ := h.alike
  exact ⟨_, _, List.IsPrefix.length_le hpre, halter⟩

theorem lt (h : Twins k p base note x s t) : k < s.iterators.length := (List.getElem?_eq_some_iff.mp h.own).1

/-- all other iterators are the same -/
theorem getElem? (h : Twins k p base note x s t) (hi : i ≠ k) : t.iterators[i]? = s.iterators[i]? := by
  obtain ⟨front, n, -, rfl⟩ := h.exists_alter
  exact List.getElem?_set_ne hi.symm

theorem own' (h : Twins k p base note x s t) : t.iterators[k]? = some ⟨p, .pairs [], x⟩ := by
  obtain ⟨front, n, -, rfl⟩ := h.exists_alter
  exact List.getElem?_set_self h.lt

/-! ### Pulling -/

/-- what looks at no iterator and at no record goes the same way in both -/
theorem of_blind {α : Type} {f : Session → α × Session} (h : Twins k p base note x s t)
    (halter : ∀ front n, f (s.alter k ⟨p, .pairs [], x⟩ front n) = Prod.map id (alter k ⟨p, .pairs [], x⟩ front n) (f s))
    (hiterators : (f s).2.iterators = s.iterators) (hlog : (f s).2.log = s.log) :
    (f t).1 = (f s).1 ∧ Twins k p base note x (f s).2 (f t).2 := by
  constructor
  · obtain ⟨front, n, -, rfl⟩ := h.exists_alter
    rw [halter]
    rfl
  · refine h.of_alter (by rw [hiterators]) (by rw [hlog]) ?_
    rintro front n - rfl
    rw [halter]
    rfl

theorem nextOfQueue (h : Twins k p base note x s t) (q : QueueId) :
    (t.nextOfQueue q).1 = (s.nextOfQueue q).1 ∧ Twins k p base note x (s.nextOfQueue q).2 (t.nextOfQueue q).2 :=
  h.of_blind (f := fun s => s.nextOfQueue q) (fun _ _ => nextOfQueue_alter q) (iterators_nextOfQueue s q)
    (log_nextOfQueue s q)

theorem nextOfCursor (h : Twins k p base note x s t) (c : CursorId) :
    (t.nextOfCursor c).1 = (s.nextOfCursor c).1 ∧ Twins k p base note x (s.nextOfCursor c).2 (t.nextOfCursor c).2 :=
  h.of_blind (f := fun s => s.nextOfCursor c) (fun _ _ => nextOfCursor_alter c) (iterators_nextOfCursor s c)
    (log_nextOfCursor s c)

theorem drainQueue (h : Twins k p base note x s t) (q : QueueId) :
    (t.drainQueue q).1 = (s.drainQueue q).1 ∧ Twins k p base note x (s.drainQueue q).2 (t.drainQueue q).2 :=
  h.of_blind (f := fun s => s.drainQueue q) (fun _ _ => rfl) rfl rfl

theorem drainCursor (h : Twins k p base note x s t) (c : CursorId) :
    (t.drainCursor c).1 = (s.drainCursor c).1 ∧ Twins k p base note x (s.drainCursor c).2 (t.drainCursor c).2 :=
  h.of_blind (f := fun s => s.drainCursor c) (fun _ _ => drainCursor_alter c) (iterators_drainCursor s c)
    (log_drainCursor s c)

theorem setIterator (h : Twins k p base note x s t) (hi : i ≠ k) (it : StorageIterator) :
    Twins k p base note x (s.setIterator i it) (t.setIterator i it) := by
  refine h.of_alter (List.getElem?_set_ne hi) (List.prefix_refl _) ?_
  rintro front n - rfl
  exact setIterator_alter hi it

theorem exhaust (h : Twins k p base note x s t) (hi : i ≠ k) : Twins k p base note x (s.exhaust i) (t.exhaust i) := by
  have hlog : s.log <+: (s.exhaust i).log := by
    unfold Session.exhaust
    split
    · exact List.prefix_refl _
    · exact List.prefix_append _ _
  refine h.of_alter (getElem?_exhaust hi) hlog ?_
  rintro front n hn rfl
  exact exhaust_alter hi hn

/-- asked for the first time, the second one finds out and logs it -/
theorem pull_own (h : Twins k p base note x s t) :
    s.pull k = (none, s) ∧ (t.pull k).1 = none ∧ Twins k p base note true s (t.pull k).2 := by
  refine ⟨pull_of_exhausted h.own rfl, ?_⟩
  cases x with
  | true =>
    rw [pull_of_exhausted h.own' rfl]
    exact ⟨rfl, h⟩
  | false =>
    obtain ⟨old, ⟨new, hlog⟩, halter, hx⟩ := h.alike
    obtain rfl := hx rfl
    have hexhaust : t.exhaust k = (t.setIterator k ⟨p, .pairs [], true⟩).record .iteratorExhausted := by
      simp only [Session.exhaust, h.own']
    have hpull : t.pull k = (none, (t.setIterator k ⟨p, .pairs [], true⟩).record .iteratorExhausted) := by
      rw [pull_eq h.own' rfl, ← hexhaust]
      rfl
    have hrest : s.log.drop (base ++ [note]).length = new := by rw [← hlog, List.drop_left]
    have hall : s.log = base ++ note :: new := by rw [← hlog, List.append_assoc, List.singleton_append]
    rw [hpull]
    refine ⟨rfl, h.own, new, hall ▸ List.prefix_refl _, ?_, by simp⟩
    simp only [halter, alter, Session.setIterator, record, List.set_set, hrest, ← hall, List.drop_length,
      Bool.false_eq_true, if_false, if_true, List.append_nil, List.append_assoc]

/-- **One pull** gets the same from both. -/
theorem pull (h : Twins k p base note x s t) (i : IteratorId) :
    (t.pull i).1 = (s.pull i).1 ∧ ∃ x', Twins k p base note x' (s.pull i).2 (t.pull i).2 := by
  -- an iterator takes from one before it, so the induction is on the position
  induction i using Nat.strongRecOn with
  | ind i ih =>
    by_cases hik : i = k
    · subst hik
      obtain ⟨hs, ht, htwins⟩ := h.pull_own
      rw [hs]
      exact ⟨ht, true, htwins⟩
    · have hget := h.getElem? hik
      cases hi : s.iterators[i]? with
      | none =>
        rw [pull_of_none hi, pull_of_none (hget.trans hi)]
        exact ⟨rfl, x, h⟩
      | some it =>
        cases he : it.exhausted with
        | true =>
          rw [pull_of_exhausted hi he, pull_of_exhausted (hget.trans hi) he]
          exact ⟨rfl, x, h⟩
        | false =>
          have htake : (t.take i it).1 = (s.take i it).1 ∧ ∃ x', Twins k p base note x' (s.take i it).2 (t.take i it).2 := by
            unfold take
            cases it.source with
            | pairs left =>
              cases left with
              | nil => exact ⟨rfl, x, h⟩
              | cons pair left => exact ⟨rfl, x, h.setIterator hik _⟩
            | queue q =>
              obtain ⟨hfound, hnext⟩ := h.nextOfQueue q
              exact ⟨hfound, x, hnext⟩
            | cursor c =>
              obtain ⟨hfound, hnext⟩ := h.nextOfCursor c
              exact ⟨hfound, x, hnext⟩
            | iterator j =>
              by_cases hj : j < i
              · simp only [if_pos hj]
                exact ih j hj
              · simp only [if_neg hj]
                exact ⟨trivial, x, h⟩
          obtain ⟨hfound, x', htwins⟩ := htake
          rw [pull_eq hi he, pull_eq (hget.trans hi) he, hfound]
          cases (s.take i it).1 with
          | some pair => exact ⟨rfl, x', htwins⟩
          | none => exact ⟨rfl, x', htwins.exhaust hik⟩

theorem pullUpTo (h : Twins k p base note x s t) (n : Nat) (i : IteratorId) :
    (pullUpTo n t i).1 = (pullUpTo n s i).1 ∧ ∃ x', Twins k p base note x' (pullUpTo n s i).2 (pullUpTo n t i).2 := by
  induction n generalizing s t x with
  | zero => exact ⟨rfl, x, h⟩
  | succ n ih =>
    obtain ⟨hfound, x', htwins⟩ := h.pull i
    rw [Session.pullUpTo, Session.pullUpTo]
    rcases hs : s.pull i with ⟨found, s'⟩
    rcases ht : t.pull i with ⟨found', t'⟩
    rw [hs, ht] at hfound htwins
    obtain rfl : found' = found := hfound
    cases found' with
    | none => exact ⟨rfl, x', htwins⟩
    | some pair =>
      obtain ⟨hpairs, hmore⟩ := ih htwins
      exact ⟨congrArg (pair :: ·) hpairs, hmore⟩

/-- as many pairs are left to an iterator in both -/
theorem supply (h : Twins k p base note x s t) (i : IteratorId) : t.supply i = s.supply i := by
  induction i using Nat.strongRecOn with
  | ind i ih =>
    obtain ⟨front, n, -, halter⟩ := h.exists_alter
    have hmaps : t.maps = s.maps := by rw [halter]; rfl
    have hqueues : t.queues = s.queues := by rw [halter]; rfl
    have hcursors : t.cursors = s.cursors := by rw [halter]; rfl
    unfold Session.supply
    by_cases hik : i = k
    · subst hik
      rw [h.own, h.own']
    · rw [h.getElem? hik, hmaps, hqueues, hcursors]
      cases s.iterators[i]? with
      | none => rfl
      | some it =>
        simp only
        cases it.source with
        | pairs | queue | cursor => rfl
        | iterator j =>
          by_cases hj : j < i
          · simp only [if_pos hj]
            exact ih j hj
          · simp only [if_neg hj]

theorem pullAll (h : Twins k p base note x s t) (i : IteratorId) :
    (t.pullAll i).1 = (s.pullAll i).1 ∧ ∃ x', Twins k p base note x' (s.pullAll i).2 (t.pullAll i).2 := by
  rw [Session.pullAll, Session.pullAll, h.supply]
  exact h.pullUpTo _ i

/-! ### Commands -/

theorem getElem?_prices (h : Twins k p base note x s t) (i : IteratorId) :
    t.iterators[i]?.map StorageIterator.prices = s.iterators[i]?.map StorageIterator.prices := by
  by_cases hi : i = k
  · rw [hi, h.own, h.own']
    rfl
  · rw [h.getElem? hi]

/-- **One command** is answered the same way in both, unless it asks whether the iterator has run out. -/
theorem step (h : Twins k p base note x s t) (c : Command) :
    (c ≠ .isExhausted k → (t.step c).1 = (s.step c).1) ∧ ∃ x', Twins k p base note x' (s.step c).2 (t.step c).2 := by
  cases hc : c.steps with
  | none =>
    by_cases hne : c = .isExhausted k
    · subst hne
      have hs : (s.step (.isExhausted k)).2 = s := by simp only [Session.step, attempt, find, h.own]; rfl
      have ht : (t.step (.isExhausted k)).2 = t := by simp only [Session.step, attempt, find, h.own']; rfl
      rw [hs, ht]
      exact ⟨fun hne => absurd rfl hne, x, h⟩
    · have hstep : ∀ front n, n ≤ s.log.length → t = s.alter k ⟨p, .pairs [], x⟩ front n →
          t.step c = Prod.map id (alter k ⟨p, .pairs [], x⟩ front n) (s.step c) := by
        rintro front n hn rfl
        rw [Session.step, Session.step, attempt_alter h.lt hn hc hne]
        cases s.attempt c <;> rfl
      obtain ⟨front, n, hn, halter⟩ := h.exists_alter
      refine ⟨fun _ => by rw [hstep front n hn halter]; rfl, x, h.of_alter ?_ ?_ ?_⟩
      · rw [h.own]
        exact (still_iterator k _).step h.own hc
      · exact (still_log s.log).step (List.prefix_refl _) hc
      · intro front n hn halter
        rw [hstep front n hn halter]
        rfl
  | some o =>
    cases c with
    | advance i =>
      obtain ⟨hfound, x', htwins⟩ := h.pull i
      rw [step_advance, step_advance, answer_advance, answer_advance, h.getElem?_prices, hfound]
      exact ⟨fun _ => rfl, x', htwins⟩
    | advanceAll i =>
      obtain ⟨hpairs, x', htwins⟩ := h.pullAll i
      rw [step_advanceAll, step_advanceAll, answer_advanceAll, answer_advanceAll, h.getElem?_prices, hpairs]
      exact ⟨fun _ => rfl, x', htwins⟩
    | next o =>
      cases o with
      | queue q =>
        obtain ⟨hfound, htwins⟩ := h.nextOfQueue q
        exact ⟨fun _ => congrArg (fun q => Except.ok (Answer.pair q)) hfound, x, htwins⟩
      | cursor c =>
        obtain ⟨hfound, htwins⟩ := h.nextOfCursor c
        exact ⟨fun _ => congrArg (fun q => Except.ok (Answer.pair q)) hfound, x, htwins⟩
      | iterator i =>
        obtain ⟨hfound, htwins⟩ := h.pull i
        exact ⟨fun _ => congrArg (fun q => Except.ok (Answer.pair q)) hfound, htwins⟩
      | map | store => exact ⟨fun _ => rfl, x, h⟩
    | drain o =>
      cases o with
      | queue q =>
        obtain ⟨hpairs, htwins⟩ := h.drainQueue q
        exact ⟨fun _ => congrArg (fun ps => Except.ok (Answer.pairs ps)) hpairs, x, htwins⟩
      | cursor c =>
        obtain ⟨hpairs, htwins⟩ := h.drainCursor c
        exact ⟨fun _ => congrArg (fun ps => Except.ok (Answer.pairs ps)) hpairs, x, htwins⟩
      | iterator i =>
        obtain ⟨hpairs, htwins⟩ := h.pullAll i
        exact ⟨fun _ => congrArg (fun ps => Except.ok (Answer.pairs ps)) hpairs, htwins⟩
      | map | store => exact ⟨fun _ => rfl, x, h⟩
    | _ => cases hc

/-- **A whole run.** -/
theorem run (h : Twins k p base note x s t) (cs : List Command) : ∃ x', Twins k p base note x' (s.run cs).2 (t.run cs).2 := by
  induction cs generalizing s t x with
  | nil => exact ⟨x, h⟩
  | cons c cs ih =>
    obtain ⟨-, x', hstep⟩ := h.step c
    exact ih hstep

end Twins

/-! ## Opening a range -/

/-- a range opened by walking the map, whatever the bounds are -/
def walkedRange (s : Session) (i : StoreId) (start stop : Argument) (order : Option Argument) :
    Except Refusal (Answer × Session) := do
  let (store, m) ← s.storeWithMap i
  let d ← Argument.asDirection order
  let start ← start.asBound
  let stop ← stop.asBound
  let (k, s) := s.openRange store.prices (.snapshot (m.range ⟨start, stop⟩ d))
  return (.opened k store.prices.rangeSetup false, s)

/-- an iterator over an empty list has run out just when it has been asked -/
theorem carries_empty (k : IteratorId) (p : Prices) : Carries k fun n it => it = ⟨p, .pairs [], decide (0 < n)⟩ := by
  rintro s n ⟨it, hi, rfl⟩
  cases n with
  | zero =>
    refine ⟨_, ?_, rfl⟩
    rw [pull_eq hi rfl]
    exact (getElem?_exhaust_self s k).trans (congrArg _ hi)
  | succ n =>
    rw [pull_of_exhausted hi rfl]
    exact ⟨_, hi, rfl⟩

/-- what can be seen, through any commands, of a range that was opened without a look at the map (`u`), compared with the same
range opened by walking it (`t`), in a session `s` -/
structure Shortcut (s : Session) (k : IteratorId) (p : Prices) (start stop : Bytes) (u t : Session) : Prop where
  /-- every command is answered the same way, unless it asks whether the iterator has run out -/
  answers : ∀ cs c, c ≠ .isExhausted k → ((u.run cs).2.step c).1 = ((t.run cs).2.step c).1
  /-- in one it has from the start, in the other from the first time that it is asked -/
  flags : ∀ cs, ((u.run cs).2.step (.isExhausted k)).1 = .ok (.flag true) ∧
    ((t.run cs).2.step (.isExhausted k)).1 = .ok (.flag (decide (0 < t.asked k cs)))
  /-- the sessions are the same, but for this and for their logs -/
  same : ∀ cs, (t.run cs).2 = { (u.run cs).2 with
    iterators := (u.run cs).2.iterators.set k ⟨p, .pairs [], decide (0 < t.asked k cs)⟩
    log := (t.run cs).2.log }
  /-- as long as it has not been asked, one log has the record of the bounds, the other has nothing in its place -/
  before : ∀ cs, t.asked k cs = 0 → ∃ new, (u.run cs).2.log = s.log ++ .emptyRange start stop :: new ∧
    (t.run cs).2.log = s.log ++ new
  /-- the first advance is logged only where it finds that nothing is left -/
  first : ∀ cs, t.asked k cs = 0 → ((u.run cs).2.step (.advance k)).2.log = (u.run cs).2.log ∧
    ((t.run cs).2.step (.advance k)).2.log = (t.run cs).2.log ++ [.iteratorExhausted]
  /-- from then on this one record stands for the record of the bounds -/
  after : ∀ cs, 0 < t.asked k cs → ∃ old new, (u.run cs).2.log = s.log ++ .emptyRange start stop :: (old ++ new) ∧
    (t.run cs).2.log = s.log ++ (old ++ .iteratorExhausted :: new)

/-- as many records are logged after the note in both, but for the one of the iterator -/
theorem Twins.logs {base : List LogRecord} {note : LogRecord} {x : Bool} (h : Twins k p base note x u t) :
    ∃ old new, u.log = base ++ note :: (old ++ new) ∧
      t.log = base ++ ((if x then old ++ [.iteratorExhausted] else []) ++ new) ∧ (x = false → old = []) := by
  obtain ⟨old, ⟨new, hlog⟩, halter, hx⟩ := h.alike
  refine ⟨old, new, ?_, ?_, hx⟩
  · rw [← hlog, List.append_assoc, List.cons_append]
  · rw [halter, alter, ← hlog, List.drop_left, List.append_assoc]

theorem shortcut_of_twins {a e : Bytes} (h : Twins k p s.log (.emptyRange a e) false u t) : Shortcut s k p a e u t := by
  have hrun : ∀ cs, Twins k p s.log (.emptyRange a e) (decide (0 < t.asked k cs)) (u.run cs).2 (t.run cs).2 := by
    intro cs
    obtain ⟨x, hcs⟩ := h.run cs
    obtain ⟨it, hi, hit⟩ := At.run (n := 0) ⟨_, h.own', rfl⟩ (carries_empty k p) cs
    rw [hcs.own', Option.some.injEq] at hi
    rw [← hi, Nat.zero_add] at hit
    have hx : x = decide (0 < t.asked k cs) := congrArg StorageIterator.exhausted hit
    exact hx ▸ hcs
  constructor
  case answers =>
    intro cs c hne
    exact (((hrun cs).step c).1 hne).symm
  case flags =>
    intro cs
    constructor
    · simp only [step, attempt, find, (hrun cs).own]
      rfl
    · simp only [step, attempt, find, (hrun cs).own']
      rfl
  case same =>
    intro cs
    obtain ⟨front, n, -, halter⟩ := (hrun cs).exists_alter
    rw [halter]
    rfl
  case before =>
    intro cs hzero
    obtain ⟨old, new, hu, ht, hold⟩ := (hrun cs).logs
    have hx : decide (0 < t.asked k cs) = false := by simp [hzero]
    rw [hold hx, List.nil_append] at hu
    rw [hx] at ht
    exact ⟨new, hu, ht⟩
  case first =>
    intro cs hzero
    have hown := (hrun cs).own'
    rw [hzero] at hown
    constructor
    · rw [step_advance, pull_of_exhausted (hrun cs).own rfl]
    · rw [step_advance, pull_eq hown rfl]
      exact exhaust_log hown
  case after =>
    intro cs hpos
    obtain ⟨old, new, hu, ht, -⟩ := (hrun cs).logs
    rw [decide_eq_true hpos, if_pos rfl, List.append_assoc] at ht
    exact ⟨old, new, hu, ht⟩

/-- an iterator that has not run out at some moment has run out after any commands just if it has been asked in vain -/
theorem answer_isExhausted (hi : s.iterators[k]? = some it) (he : it.exhausted = false) (cs : List Command) :
    ((s.run cs).2.step (.isExhausted k)).1 = .ok (.flag ((s.asks k cs).any fun a => a.given.isNone)) := by
  obtain ⟨it', hi', hlife⟩ := At.trace (l := []) ⟨it, hi, life_new it⟩ (traces_life k it.prices it.exhausted) cs
  rw [List.nil_append] at hlife
  have hflag : it'.exhausted = (s.asks k cs).any fun a => a.given.isNone := by
    cases hx : it'.exhausted with
    | false =>
      obtain ⟨-, pairs, hasks⟩ := hlife.going hx
      simp [hasks, Ask.yields]
    | true =>
      obtain ⟨n, ⟨hborn, -⟩ | ⟨-, pairs, hasks⟩⟩ := hlife.ended hx
      · rw [he] at hborn
        cases hborn
      · simp [hasks, Ask.ends]
  rw [← hflag]
  simp only [step, attempt, find, hi']
  rfl

/-- **The shortcut for inverted bounds.** A range of any store in any session, with bounds and an order that are accepted, is
opened as by walking the map, unless the bounds are inverted. Then it is opened at the same price without a look at the map, and
through any commands this can be seen only by asking whether it has run out, and in the log. -/
theorem range_shortcut (cs : List Command) {i : StoreId} {y : Store} (hy : (empty.run cs).2.stores[i]? = some y)
    {start stop : Argument} {order : Option Argument} {r : Bounds} {d : Direction} (hd : Argument.asDirection order = .ok d)
    (hstart : start.asBound = .ok r.start) (hstop : stop.asBound = .ok r.stop) :
    let s := (empty.run cs).2
    let k := s.iterators.length
    ∃ m, s.maps[y.map]? = some m ∧
      let t := { s with iterators := s.iterators ++ [⟨y.prices, .pairs (m.range r d), false⟩] }
      s.walkedRange i start stop order = .ok (.opened k y.prices.rangeSetup false, t) ∧
      (r.inverted = false →
        s.attempt (.range i start stop order) = s.walkedRange i start stop order ∧
        ∀ ds, ((t.run ds).2.step (.isExhausted k)).1 = .ok (.flag ((t.asks k ds).any fun a => a.given.isNone))) ∧
      ∀ a e, r = ⟨some a, some e⟩ → ¬ a < e →
        let u := { s with
          iterators := s.iterators ++ [⟨y.prices, .pairs [], true⟩]
          log := s.log ++ [.emptyRange a e] }
        s.attempt (.range i start stop order) = .ok (.opened k y.prices.rangeSetup true, u) ∧ Shortcut s k y.prices a e u t := by
  intro s k
  have hshown : s.Shown (Books.after cs) := run_shown shown_empty cs
  obtain ⟨m, hm, hsound, -⟩ := hshown.held hy
  have hstore : s.storeWithMap i = .ok (y, m) := by
    simp only [storeWithMap, find, s, hy, bind, Except.bind]
    rw [hm]
    rfl
  have hrange : Store.range m start stop order = .ok (Range.ofMap m r.start r.stop d) := by
    simp only [Store.range, hd, hstart, hstop, bind, Except.bind]
    rfl
  have hwalked : s.walkedRange i start stop order = .ok (.opened k y.prices.rangeSetup false,
      { s with iterators := s.iterators ++ [⟨y.prices, .pairs (m.range r d), false⟩] }) := by
    simp only [walkedRange, hstore, hd, hstart, hstop, bind, Except.bind]
    rfl
  refine ⟨m, hm, hwalked, ?_, ?_⟩
  · intro hinv
    constructor
    · rw [hwalked]
      simp only [attempt, hstore, hrange, Range.ofMap_snapshot hinv, bind, Except.bind]
      rfl
    · have hk : (s.iterators ++ [⟨y.prices, .pairs (m.range r d), false⟩])[k]? = some ⟨y.prices, .pairs (m.range r d), false⟩ :=
        List.getElem?_concat_length
      exact answer_isExhausted hk rfl
  · rintro a e rfl hlt u
    constructor
    · simp only [attempt, hstore, hrange, Range.ofMap_inverted hlt, bind, Except.bind]
      rfl
    · have hempty : m.range ⟨some a, some e⟩ d = [] := by
        rw [SortedMap.range_eq hsound]
        exact range_of_inverted (by simp [Bounds.inverted, hlt]) _ d
      apply shortcut_of_twins
      rw [hempty]
      refine ⟨List.getElem?_concat_length, [], List.prefix_refl _, ?_, fun _ => rfl⟩
      simp [alter, u, k]

/-- bounds that are inverted, on a map that has a key below both; when the range is first advanced, one log gets nothing more -/
theorem range_shortcut_inverted :
    let s := (empty.run [.newStore .standard none, .set 0 (.bytes [1]) (.bytes [10])]).2
    ∃ t u, s.walkedRange 0 (.bytes [3]) (.bytes [2]) none = .ok (.opened 0 Prices.standard.rangeSetup false, t) ∧
      s.attempt (.range 0 (.bytes [3]) (.bytes [2]) none) = .ok (.opened 0 Prices.standard.rangeSetup true, u) ∧
      Shortcut s 0 Prices.standard [3] [2] u t ∧
      (u.step (.advance 0)).2.log = [.emptyRange [3] [2]] ∧ (t.step (.advance 0)).2.log = [.iteratorExhausted] := by
  intro s
  have hstore : s.stores[0]? = some ⟨Prices.standard, 0⟩ := by decide +kernel
  have hlog : s.log = [] := by decide +kernel
  have hnumber : s.iterators.length = 0 := by decide +kernel
  have horder : Argument.asDirection none = .ok .ascending := rfl
  have hstart : (Argument.bytes [3]).asBound = .ok (some [3]) := rfl
  have hstop : (Argument.bytes [2]).asBound = .ok (some [2]) := rfl
  obtain ⟨m, -, hwalked, -, hshort⟩ := range_shortcut _ hstore (r := ⟨some [3], some [2]⟩) horder hstart hstop
  obtain ⟨hopen, hshortcut⟩ := hshort [3] [2] rfl (by decide)
  rw [hnumber] at hwalked hopen hshortcut
  obtain ⟨hu, ht⟩ := hshortcut.first [] rfl
  rw [hlog] at hu ht
  exact ⟨_, _, hwalked, hopen, hshortcut, hu, ht⟩

end MeteredStore.Session
