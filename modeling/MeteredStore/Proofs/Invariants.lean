/-
What every command keeps.

Carrying out a command comes down to a few kinds of change: something new is added at the end, a map is written to, a queue
hands out a pair, a cursor is stepped, an iterator takes the next pair of its own list, or it is found that its source has run
out (`RunOut`). What the changes of the first two kinds keep is kept by all commands that step nothing (`Still.step`); what
all of them keep is kept by every command, and so it holds throughout every run.

Main statement: `Stable.run`, an invariant is checked once for each kind of change.
-/
import MeteredStore.Proofs.Contents
import MeteredStore.Proofs.Iterators.Asked

namespace MeteredStore

/-- the object that a command steps -/
def Command.steps : Command → Option Object
  | .advance i => some (.iterator i)
  | .advanceAll i => some (.iterator i)
  | .next o => some o
  | .drain o => some o
  | _ => none

namespace Session

/-! ## Kinds of change -/

/-- an iterator at position `i` that takes from this source gets nothing any more -/
def RunOut (s : Session) (i : IteratorId) : Source → Prop
  | .pairs left => left = []
  | .queue q => s.queues[q]?.getD [] = []
  | .cursor c => ∀ l, s.cursors[c]? = some l → s.maps[l.map]? = none ∨ l.cursor.stack = []
  | .iterator j => j < i → ∀ it, s.iterators[j]? = some it → it.exhausted = true

/-- a property that is kept when something is added or written to -/
structure Still (Q : Session → Prop) : Prop where
  map : ∀ s, Q s → Q (s.addMap SortedMap.empty).2
  store : ∀ s y, Q s → Q (s.addStore y).2
  queue : ∀ s pairs, Q s → Q (s.addQueue pairs).2
  cursor : ∀ s i m b d, Q s → s.maps[i]? = some m → Q (s.addCursor ⟨i, Cursor.start m b d⟩).2
  iterator : ∀ s it, Q s → (it.exhausted = true → it.source = .pairs []) → Q (s.addIterator it).2
  record : ∀ s start stop, Q s → Q (s.record (.emptyRange start stop))
  write : ∀ s i m w, Q s → s.maps[i]? = some m → Q (s.setMap i (m.write w))

/-- a property that is kept by every kind of change -/
structure Stable (Q : Session → Prop) : Prop extends Still Q where
  hand : ∀ s q pair left, Q s → s.queues[q]? = some (pair :: left) → Q (s.setQueue q left)
  next : ∀ s c, Q s → Q (s.nextOfCursor c).2
  left : ∀ s i it pair left, Q s → s.iterators[i]? = some it → it.exhausted = false → it.source = .pairs (pair :: left) →
    Q (s.setIterator i { it with source := .pairs left })
  exhaust : ∀ s i it, Q s → s.iterators[i]? = some it → s.RunOut i it.source → Q (s.exhaust i)

variable {Q : Session → Prop} {s t : Session} {i : IteratorId} {it : StorageIterator}

/-! ## Commands that step nothing -/

theorem getElem?_of_find {α : Type} {xs : List α} {i : Nat} {x : α} (h : find xs i = .ok x) : xs[i]? = some x := by
  unfold find at h
  split at h
  · next y hy =>
    cases h
    exact hy
  · cases h

namespace Still

theorem newCursor (hQ : Still Q) (h : Q s) {m : MapId} {b : Bounds} {d : Direction} {c : CursorId}
    (hc : s.newCursor m b d = .ok (c, t)) : Q t := by
  unfold Session.newCursor at hc
  obtain ⟨x, hx, hc⟩ := exists_of_bind hc
  cases hc
  exact hQ.cursor s m x b d h (getElem?_of_find hx)

theorem walk (hQ : Still Q) (h : Q s) {o : Object} {c : CursorId} (hc : s.walk o = .ok (c, t)) : Q t := by
  unfold Session.walk at hc
  obtain ⟨i, -, hc⟩ := exists_of_bind hc
  exact hQ.newCursor h hc

theorem sourceOf (hQ : Still Q) (h : Q s) {f : Supplier} {source : Source} (hs : s.sourceOf f = .ok (source, t)) : Q t := by
  rcases sourceOf_cases hs with ⟨rfl, -⟩ | ⟨o, c, hw, -⟩
  · exact h
  · exact hQ.walk h hw

theorem newStore (hQ : Still Q) (h : Q s) {p : StorePrices} {map : Option MapId} {i : StoreId}
    (hs : s.newStore p map = .ok (i, t)) : Q t := by
  unfold Session.newStore at hs
  obtain ⟨p, -, hs⟩ := exists_of_bind hs
  split at hs
  · cases hs
    exact hQ.store _ _ (hQ.map s h)
  · obtain ⟨m, -, hs⟩ := exists_of_bind hs
    split at hs
    · cases hs
      exact hQ.store s _ h
    · cases hs

theorem openRange (hQ : Still Q) (h : Q s) (p : Prices) (r : Range) : Q (s.openRange p r).2 := by
  cases r with
  | inverted start stop => exact hQ.iterator _ _ (hQ.record s start stop h) fun _ => rfl
  | snapshot pairs => exact hQ.iterator s _ h (by simp)

/-- a store writes to its map -/
theorem writeAt (hQ : Still Q) (h : Q s) {i : StoreId} {y : Store} {m : SortedMap}
    (hy : s.storeWithMap i = .ok (y, m)) (w : SortedMap.Write) : Q (s.setMap y.map (m.write w)) := by
  unfold storeWithMap at hy
  obtain ⟨y', -, hy⟩ := exists_of_bind hy
  obtain ⟨m', hm, hy⟩ := exists_of_bind hy
  cases hy
  exact hQ.write s _ m w h (getElem?_of_find hm)

theorem of_attempt (h : Q s) {c : Command} (hc : ∀ a t, s.attempt c = .ok (a, t) → Q t) : Q (s.step c).2 := by
  unfold Session.step
  split
  · exact h
  · next a t ht => exact hc a t ht

/-- a command that only reads the session -/
theorem of_read {α : Type} {x : Except Refusal α} {f : α → Except Refusal (Answer × Session)} (h : Q s) {c : Command}
    (hc : s.attempt c = x >>= f) (hf : ∀ v a t, f v = .ok (a, t) → t = s) : Q (s.step c).2 := by
  refine of_attempt h ?_
  intro a t ht
  rw [hc] at ht
  obtain ⟨v, -, ht⟩ := exists_of_bind ht
  rw [hf v a t ht]
  exact h

/-- **Commands that step nothing** keep what additions and writes keep. -/
theorem step (hQ : Still Q) (h : Q s) {c : Command} (hc : c.steps = none) : Q (s.step c).2 := by
  cases c with
  | newMap => exact hQ.map s h
  | newQueue pairs => exact hQ.queue s pairs h
  | newStore prices map =>
    refine of_attempt h fun a t ht => ?_
    obtain ⟨r, hr, ht⟩ := exists_of_bind ht
    cases ht
    exact hQ.newStore h hr
  | newIterator prices supplier =>
    refine of_attempt h fun a t ht => ?_
    obtain ⟨p, -, ht⟩ := exists_of_bind ht
    obtain ⟨r, hr, ht⟩ := exists_of_bind ht
    cases ht
    exact hQ.iterator _ _ (hQ.sourceOf h hr) (by simp)
  | newExhausted prices =>
    refine of_attempt h fun a t ht => ?_
    obtain ⟨p, -, ht⟩ := exists_of_bind ht
    cases ht
    exact hQ.iterator s _ h fun _ => rfl
  | newCursor map bounds order =>
    refine of_attempt h fun a t ht => ?_
    obtain ⟨d, -, ht⟩ := exists_of_bind ht
    obtain ⟨r, hr, ht⟩ := exists_of_bind ht
    cases ht
    exact hQ.newCursor h hr
  | walk through =>
    refine of_attempt h fun a t ht => ?_
    obtain ⟨r, hr, ht⟩ := exists_of_bind ht
    cases ht
    exact hQ.walk h hr
  | put map key value =>
    refine of_attempt h fun a t ht => ?_
    obtain ⟨m, hm, ht⟩ := exists_of_bind ht
    cases ht
    exact hQ.write s map m (.put key value) h (getElem?_of_find hm)
  | delete map key =>
    refine of_attempt h fun a t ht => ?_
    obtain ⟨m, hm, ht⟩ := exists_of_bind ht
    cases ht
    exact hQ.write s map m (.delete key) h (getElem?_of_find hm)
  | set store key value =>
    refine of_attempt h fun a t ht => ?_
    obtain ⟨x, hx, ht⟩ := exists_of_bind ht
    obtain ⟨r, hr, ht⟩ := exists_of_bind ht
    obtain ⟨k, -, hr⟩ := exists_of_bind hr
    obtain ⟨v, -, hr⟩ := exists_of_bind hr
    cases hr
    cases ht
    exact hQ.writeAt h hx (.put k v)
  | remove store key =>
    refine of_attempt h fun a t ht => ?_
    obtain ⟨x, hx, ht⟩ := exists_of_bind ht
    obtain ⟨r, hr, ht⟩ := exists_of_bind ht
    obtain ⟨k, -, hr⟩ := exists_of_bind hr
    cases hr
    cases ht
    exact hQ.writeAt h hx (.delete k)
  | range store start stop order =>
    refine of_attempt h fun a t ht => ?_
    obtain ⟨x, -, ht⟩ := exists_of_bind ht
    obtain ⟨r, -, ht⟩ := exists_of_bind ht
    cases ht
    exact hQ.openRange h x.1.prices r
  -- the rest look up a map, a store or an iterator and answer
  | lookup | mapSize | tree | storeSize | items | describe | prices | isExhausted =>
    refine of_read h rfl ?_
    intro v a t ht
    cases ht
    rfl
  | get | has =>
    refine of_read h rfl ?_
    intro v a t ht
    obtain ⟨r, -, ht⟩ := exists_of_bind ht
    cases ht
    rfl
  | advance | advanceAll | next | drain => cases hc

end Still

/-! ## Stepping -/

/-- an iterator that gives nothing has run out -/
theorem exhausted_of_pull (h : (s.pull i).1 = none) (hi : (s.pull i).2.iterators[i]? = some it) : it.exhausted = true := by
  cases hs : s.iterators[i]? with
  | none =>
    rw [pull_of_none hs, hs] at hi
    cases hi
  | some it' =>
    cases he : it'.exhausted with
    | true =>
      rw [pull_of_exhausted hs he, hs] at hi
      cases hi
      exact he
    | false =>
      rw [pull_eq hs he] at h hi
      cases hfound : (s.take i it').1 with
      | some pair =>
        rw [hfound] at h
        cases h
      | none =>
        rw [hfound, Option.elim_none, getElem?_exhaust_self, Option.map_eq_some_iff] at hi
        obtain ⟨it'', -, rfl⟩ := hi
        rfl

/-- a queue that hands out nothing has nothing left -/
theorem runOut_nextOfQueue {q : QueueId} (h : (s.nextOfQueue q).1 = none) (i : IteratorId) :
    (s.nextOfQueue q).2.RunOut i (.queue q) := by
  rcases s.nextOfQueue_cases q with ⟨hempty, hq⟩ | ⟨pair, left, -, hq⟩
  · rw [hq]
    exact hempty
  · rw [hq] at h
    cases h

/-- a cursor that gives nothing is at its end -/
theorem runOut_nextOfCursor {c : CursorId} (h : (s.nextOfCursor c).1 = none) (i : IteratorId) :
    (s.nextOfCursor c).2.RunOut i (.cursor c) := by
  intro l hl
  unfold nextOfCursor at h hl ⊢
  cases hc : s.cursors[c]? with
  | none =>
    simp only [hc] at hl
    cases hl
  | some l' =>
    simp only [hc] at h hl ⊢
    cases hm : s.maps[l'.map]? with
    | none =>
      simp only [hm, hc, Option.some.injEq] at hl ⊢
      exact .inl (hl ▸ hm)
    | some m =>
      obtain ⟨hlt, -⟩ := List.getElem?_eq_some_iff.mp hc
      simp only [hm, setCursor, List.getElem?_set_self hlt, Option.some.injEq] at h hl
      exact .inr (hl ▸ Cursor.stack_of_next_eq_none h)

/-- a source that gives nothing has run out, and the iterator is still what it was -/
theorem runOut_take (hi : s.iterators[i]? = some it) (h : (s.take i it).1 = none) :
    (s.take i it).2.iterators[i]? = some it ∧ (s.take i it).2.RunOut i it.source := by
  unfold take at h ⊢
  cases hsource : it.source with
  | pairs left =>
    cases left with
    | nil => exact ⟨hi, rfl⟩
    | cons pair left =>
      rw [hsource] at h
      cases h
  | queue q =>
    rw [hsource] at h
    exact ⟨(congrArg (·[i]?) (iterators_nextOfQueue s q)).trans hi, runOut_nextOfQueue h i⟩
  | cursor c =>
    rw [hsource] at h
    exact ⟨(congrArg (·[i]?) (iterators_nextOfCursor s c)).trans hi, runOut_nextOfCursor h i⟩
  | iterator j =>
    by_cases hj : j < i
    · simp only [hsource, hj, if_true] at h ⊢
      exact ⟨(getElem?_pull_of_lt s hj).trans hi, fun _ it' hit' => exhausted_of_pull h hit'⟩
    · simp only [hj, if_false]
      exact ⟨hi, fun hlt => absurd hlt hj⟩

namespace Stable

theorem nextOfQueue (hQ : Stable Q) (h : Q s) (q : QueueId) : Q (s.nextOfQueue q).2 := by
  rcases s.nextOfQueue_cases q with ⟨-, hq⟩ | ⟨pair, left, hleft, hq⟩
  · rw [hq]
    exact h
  · rw [hq]
    exact hQ.hand s q pair left h hleft

/-- to drain a queue is to let it hand out one pair after the other -/
theorem drainQueue (hQ : Stable Q) (h : Q s) (q : QueueId) : Q (s.drainQueue q).2 := by
  generalize hleft : s.queues[q]?.getD [] = left
  induction left generalizing s with
  | nil =>
    rw [drainQueue_of_nil hleft]
    exact h
  | cons pair left ih =>
    have hq : s.queues[q]? = some (pair :: left) := eq_some_of_getD hleft
    rw [drainQueue_of_cons hq]
    exact ih (hQ.hand s q pair left h hq) (by rw [getElem?_setQueue_self hq, Option.getD_some])

theorem take (hQ : Stable Q) (h : Q s) (hi : s.iterators[i]? = some it) (he : it.exhausted = false)
    (ih : ∀ j < i, Q (s.pull j).2) : Q (s.take i it).2 := by
  unfold Session.take
  cases hsource : it.source with
  | pairs left =>
    cases left with
    | nil => exact h
    | cons pair left => exact hQ.left s i it pair left h hi he hsource
  | queue q => exact hQ.nextOfQueue h q
  | cursor c => exact hQ.next s c h
  | iterator j =>
    by_cases hj : j < i
    · simp only [hj, if_true]
      exact ih j hj
    · simp only [hj, if_false]
      exact h

theorem pull (hQ : Stable Q) (h : Q s) (i : IteratorId) : Q (s.pull i).2 := by
  -- an iterator takes from one before it, so the induction is on the position
  induction i using Nat.strongRecOn with
  | ind i ih =>
    cases hi : s.iterators[i]? with
    | none =>
      rw [pull_of_none hi]
      exact h
    | some it =>
      cases he : it.exhausted with
      | true =>
        rw [pull_of_exhausted hi he]
        exact h
      | false =>
        have htake := hQ.take h hi he ih
        rw [pull_eq hi he]
        cases hfound : (s.take i it).1 with
        | some pair => exact htake
        | none =>
          obtain ⟨hi', hout⟩ := runOut_take hi hfound
          exact hQ.exhaust _ i it htake hi' hout

theorem pullUpTo (hQ : Stable Q) (h : Q s) (n : Nat) (i : IteratorId) : Q (pullUpTo n s i).2 :=
  pullUpTo_keeps (Q := Q) (fun _ ht => hQ.pull ht i) h n

theorem pullAll (hQ : Stable Q) (h : Q s) (i : IteratorId) : Q (s.pullAll i).2 := hQ.pullUpTo h _ i

/-- taking pairs from a cursor is stepping it -/
theorem setCursor_take (hQ : Stable Q) (h : Q s) {c : CursorId} {l : LiveCursor} {m : SortedMap}
    (hc : s.cursors[c]? = some l) (hm : s.maps[l.map]? = some m) (n : Nat) :
    Q (s.setCursor c { l with cursor := (l.cursor.take m n).2 }) := by
  induction n generalizing s l with
  | zero =>
    obtain ⟨hlt, hl⟩ := List.getElem?_eq_some_iff.mp hc
    have hself : s.setCursor c l = s := by rw [setCursor, ← hl, List.set_getElem_self]
    rw [Cursor.take]
    exact hself.symm ▸ h
  | succ n ih =>
    have hnext := hQ.next s c h
    rw [nextOfCursor, hc] at hnext
    simp only [hm] at hnext
    rw [Cursor.take]
    rcases hr : l.cursor.next m with ⟨found, cursor⟩
    rw [hr] at hnext
    cases found with
    | none => exact hnext
    | some pair =>
      obtain ⟨hlt, -⟩ := List.getElem?_eq_some_iff.mp hc
      have hmore := ih (l := { l with cursor := cursor }) hnext (List.getElem?_set_self hlt) hm
      simpa only [setCursor, List.set_set] using hmore

theorem drainCursor (hQ : Stable Q) (h : Q s) (c : CursorId) : Q (s.drainCursor c).2 := by
  unfold Session.drainCursor
  split
  · exact h
  · next l hl =>
    split
    · exact h
    · next m hm => exact hQ.setCursor_take h hl hm _

/-- **One command.** What every kind of change keeps, every command keeps. -/
theorem step (hQ : Stable Q) (h : Q s) (c : Command) : Q (s.step c).2 := by
  cases c with
  | advance j =>
    rw [step_advance]
    exact hQ.pull h j
  | advanceAll j =>
    rw [step_advanceAll]
    exact hQ.pullAll h j
  | next o =>
    cases o with
    | queue q => exact hQ.nextOfQueue h q
    | cursor c => exact hQ.next s c h
    | iterator i => exact hQ.pull h i
    | map | store => exact h
  | drain o =>
    cases o with
    | queue q => exact hQ.drainQueue h q
    | cursor c => exact hQ.drainCursor h c
    | iterator i => exact hQ.pullAll h i
    | map | store => exact h
  | _ => exact hQ.toStill.step h rfl

/-- **A whole run.** -/
theorem run (hQ : Stable Q) (h : Q s) (cs : List Command) : Q (s.run cs).2 := by
  induction cs generalizing s with
  | nil => exact h
  | cons c cs ih => exact ih (hQ.step h c)

end Stable

/-! ## What queues, cursors and iterators keep -/

theorem still_queue (q : QueueId) (left : List (Bytes × Bytes)) : Still fun s => s.queues[q]? = some left where
  map _ h := h
  store _ _ h := h
  queue _ _ h := (List.getElem?_append_left (List.getElem?_eq_some_iff.mp h).1).trans h
  cursor _ _ _ _ _ h _ := h
  iterator _ _ h _ := h
  record _ _ _ h := h
  write _ _ _ _ h _ := h

theorem still_cursor (c : CursorId) (l : LiveCursor) : Still fun s => s.cursors[c]? = some l where
  map _ h := h
  store _ _ h := h
  queue _ _ h := h
  cursor _ _ _ _ _ h _ := (List.getElem?_append_left (List.getElem?_eq_some_iff.mp h).1).trans h
  iterator _ _ h _ := h
  record _ _ _ h := h
  write _ _ _ _ h _ := h

theorem still_iterator (i : IteratorId) (it : StorageIterator) : Still fun s => s.iterators[i]? = some it where
  map _ h := h
  store _ _ h := h
  queue _ _ h := h
  cursor _ _ _ _ _ h _ := h
  iterator _ _ h _ := (List.getElem?_append_left (List.getElem?_eq_some_iff.mp h).1).trans h
  record _ _ _ h := h
  write _ _ _ _ h _ := h

theorem stable_const (p : Prop) : Stable fun _ => p where
  map _ h := h
  store _ _ h := h
  queue _ _ h := h
  cursor _ _ _ _ _ h _ := h
  iterator _ _ h _ := h
  record _ _ _ h := h
  write _ _ _ _ h _ := h
  hand _ _ _ _ h _ := h
  next _ _ h := h
  left _ _ _ _ _ h _ _ _ := h
  exhaust _ _ _ h _ _ := h

/-- what a queue has however much of it is left -/
theorem stable_queue (q : QueueId) {P : List (Bytes × Bytes) → Prop} (hhand : ∀ pair left, P (pair :: left) → P left) :
    Stable fun s => ∃ left, s.queues[q]? = some left ∧ P left where
  map s h := h
  store s y h := h
  queue s pairs h := by
    obtain ⟨left, hq, hP⟩ := h
    obtain ⟨hlt, -⟩ := List.getElem?_eq_some_iff.mp hq
    exact ⟨left, (List.getElem?_append_left hlt).trans hq, hP⟩
  cursor s k m b d h _ := h
  iterator s it h _ := h
  record s start stop h := h
  write s k m w h _ := h
  hand s r pair left h hr := by
    obtain ⟨left', hq, hP⟩ := h
    by_cases hqr : r = q
    · subst hqr
      obtain rfl := Option.some.inj (hr.symm.trans hq)
      exact ⟨left, List.getElem?_set_self (List.getElem?_eq_some_iff.mp hq).1, hhand pair left hP⟩
    · exact ⟨left', (List.getElem?_set_ne hqr).trans hq, hP⟩
  next s c h := by rwa [queues_nextOfCursor]
  left s i it pair left h _ _ _ := h
  exhaust s i it h _ _ := by rwa [queues_exhaust]

/-- what a cursor has wherever it is on its walk -/
theorem stable_walk (c : CursorId) {P : LiveCursor → Prop}
    (hnext : ∀ l m, P l → P { l with cursor := (l.cursor.next m).2 }) :
    Stable fun s => ∃ l, s.cursors[c]? = some l ∧ P l where
  map s h := h
  store s y h := h
  queue s pairs h := h
  cursor s k m b d h _ := by
    obtain ⟨l, hl, hP⟩ := h
    obtain ⟨hlt, -⟩ := List.getElem?_eq_some_iff.mp hl
    exact ⟨l, (List.getElem?_append_left hlt).trans hl, hP⟩
  iterator s it h _ := h
  record s start stop h := h
  write s k m w h _ := h
  hand s q pair left h _ := h
  next s c' h := by
    obtain ⟨l, hl, hP⟩ := h
    obtain ⟨hlt, -⟩ := List.getElem?_eq_some_iff.mp hl
    by_cases hc : c' = c
    · subst hc
      unfold nextOfCursor
      simp only [hl]
      split
      · exact ⟨l, hl, hP⟩
      · next m _ => exact ⟨_, List.getElem?_set_self hlt, hnext l m hP⟩
    · exact ⟨l, (getElem?_nextOfCursor hc).trans hl, hP⟩
  left s i it pair left h _ _ _ := h
  exhaust s i it h _ _ := by rwa [cursors_exhaust]

/-- a walk that is over stays over -/
theorem stable_finished (c : CursorId) : Stable fun s => ∃ l, s.cursors[c]? = some l ∧ l.cursor.stack = [] := by
  refine stable_walk c ?_
  intro l m hdone
  rw [Cursor.next_of_done hdone]
  exact hdone

/-- what an iterator has whether it has run out or not, and however much of its own list is left -/
theorem stable_at (i : IteratorId) {P : StorageIterator → Prop}
    (hleft : ∀ it pair left, P it → it.exhausted = false → it.source = .pairs (pair :: left) →
      P { it with source := .pairs left })
    (hexhaust : ∀ s it, P it → RunOut s i it.source → P { it with exhausted := true }) : Stable fun s => s.At i P where
  map s h := h
  store s y h := h
  queue s pairs h := h
  cursor s k m b d h _ := h
  iterator s it h _ := by
    obtain ⟨it', hi, hP⟩ := h
    obtain ⟨hlt, -⟩ := List.getElem?_eq_some_iff.mp hi
    exact ⟨it', (List.getElem?_append_left hlt).trans hi, hP⟩
  record s start stop h := h
  write s k m w h _ := h
  hand s q pair left h _ := h
  next s c h := by
    obtain ⟨it, hi, hP⟩ := h
    exact ⟨it, (congrArg (·[i]?) (iterators_nextOfCursor s c)).trans hi, hP⟩
  left s j it pair left h hj he hsource := by
    obtain ⟨it', hi, hP⟩ := h
    by_cases hij : j = i
    · subst hij
      obtain rfl := Option.some.inj (hj.symm.trans hi)
      exact ⟨_, List.getElem?_set_self (List.getElem?_eq_some_iff.mp hi).1, hleft it pair left hP he hsource⟩
    · exact ⟨it', (List.getElem?_set_ne hij).trans hi, hP⟩
  exhaust s j it h hi' hout := by
    obtain ⟨it', hi, hP⟩ := h
    by_cases hj : j = i
    · subst hj
      obtain rfl := Option.some.inj (hi'.symm.trans hi)
      exact ⟨{ it with exhausted := true }, (getElem?_exhaust_self s j).trans (by rw [hi]; rfl), hexhaust s it hP hout⟩
    · exact ⟨it', (getElem?_exhaust hj).trans hi, hP⟩

/-- an iterator that has run out stays so -/
theorem stable_exhausted (i : IteratorId) : Stable fun s => s.At i fun it => it.exhausted = true := by
  refine stable_at i ?_ fun _ _ _ _ => rfl
  intro it pair left he hopen
  rw [he] at hopen
  cases hopen

/-- an iterator keeps its prices -/
theorem stable_prices (i : IteratorId) (p : Prices) : Stable fun s => s.At i fun it => it.prices = p :=
  stable_at i (fun _ _ _ h _ _ => h) fun _ _ h _ => h

/-- an iterator that has run out has nothing left of a list of its own -/
theorem stable_emptied : Stable fun s => ∀ (i : IteratorId) it left, s.iterators[i]? = some it → it.exhausted = true →
    it.source = .pairs left → left = [] where
  map _ h := h
  store _ _ h := h
  queue _ _ h := h
  cursor _ _ _ _ _ h _ := h
  record _ _ _ h := h
  write _ _ _ _ h _ := h
  hand s q pair left h _ := h
  next s c h := by rwa [iterators_nextOfCursor]
  iterator s it h hit i it' left hi he hsource := by
    rcases List.mem_append.mp (List.mem_of_getElem? hi) with hmem | hnew
    · obtain ⟨j, hj⟩ := List.getElem?_of_mem hmem
      exact h j it' left hj he hsource
    · obtain rfl := List.mem_singleton.mp hnew
      rw [hit he] at hsource
      cases hsource
      rfl
  left s i it pair left h hi he _ j it' left' hj hx hsource := by
    by_cases hij : i = j
    · subst hij
      rw [setIterator, List.getElem?_set_self (List.getElem?_eq_some_iff.mp hi).1] at hj
      cases hj
      rw [he] at hx
      cases hx
    · exact h j it' left' ((List.getElem?_set_ne hij).symm.trans hj) hx hsource
  exhaust s i it h hi hout j it' left hj hx hsource := by
    by_cases hij : i = j
    · subst hij
      rw [getElem?_exhaust_self, hi] at hj
      cases hj
      rw [hsource] at hout
      exact hout
    · exact h j it' left ((getElem?_exhaust hij).symm.trans hj) hx hsource

end Session

end MeteredStore
