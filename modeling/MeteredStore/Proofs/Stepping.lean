/-
What stepping leaves alone.

Queues, cursors and iterators are stepped without a change to any map or store (`Kept`): an iterator may pull from another and
that one from a queue or a cursor, but only positions in lists and on stacks move.

Main statements: `pull_kept`, and from it the same for every way of taking items; `pullAll_pairs`, an iterator over a list of
pairs gives just these.
-/
import MeteredStore.Session.Command

namespace MeteredStore.Session

/-- the same maps and stores -/
structure Kept (s t : Session) : Prop where
  maps : t.maps = s.maps
  stores : t.stores = s.stores

theorem Kept.refl (s : Session) : Kept s s := ⟨rfl, rfl⟩

theorem Kept.trans {s t u : Session} (h : Kept s t) (k : Kept t u) : Kept s u :=
  ⟨k.maps.trans h.maps, k.stores.trans h.stores⟩

/-! ## One pair -/

/-- a queue that has nothing left hands nothing out, and any other its first pair -/
theorem nextOfQueue_cases (s : Session) (q : QueueId) :
    (s.queues[q]?.getD [] = [] ∧ s.nextOfQueue q = (none, s)) ∨
      ∃ pair left, s.queues[q]? = some (pair :: left) ∧ s.nextOfQueue q = (some pair, s.setQueue q left) := by
  unfold nextOfQueue
  cases hq : s.queues[q]? with
  | none => exact .inl ⟨rfl, rfl⟩
  | some left =>
    cases left with
    | nil => exact .inl ⟨rfl, rfl⟩
    | cons pair left => exact .inr ⟨pair, left, rfl, rfl⟩

/-- a queue that has something left is there -/
theorem eq_some_of_getD {s : Session} {q : QueueId} {pair : Bytes × Bytes} {left : List (Bytes × Bytes)}
    (h : s.queues[q]?.getD [] = pair :: left) : s.queues[q]? = some (pair :: left) := by
  cases hq : s.queues[q]? with
  | none =>
    rw [hq] at h
    cases h
  | some left' =>
    rw [hq, Option.getD_some] at h
    rw [h]

theorem getElem?_setQueue_self {s : Session} {q : QueueId} {left left' : List (Bytes × Bytes)} (h : s.queues[q]? = some left) :
    (s.setQueue q left').queues[q]? = some left' :=
  List.getElem?_set_self (List.getElem?_eq_some_iff.mp h).1

/-- to drain a queue that has nothing left changes nothing -/
theorem drainQueue_of_nil {s : Session} {q : QueueId} (h : s.queues[q]?.getD [] = []) : s.drainQueue q = ([], s) := by
  have hself : s.queues.set q [] = s.queues := by
    cases hq : s.queues[q]? with
    | none => exact List.set_eq_of_length_le (List.getElem?_eq_none_iff.mp hq)
    | some left =>
      obtain ⟨hlt, hleft⟩ := List.getElem?_eq_some_iff.mp hq
      rw [hq, Option.getD_some] at h
      rw [← hleft.trans h, List.set_getElem_self]
  rw [drainQueue, setQueue, h, hself]

/-- to drain any other is to let it hand out a pair, and to drain it then -/
theorem drainQueue_of_cons {s : Session} {q : QueueId} {pair : Bytes × Bytes} {left : List (Bytes × Bytes)}
    (h : s.queues[q]? = some (pair :: left)) :
    s.drainQueue q = (pair :: ((s.setQueue q left).drainQueue q).1, ((s.setQueue q left).drainQueue q).2) := by
  have hset : (s.setQueue q left).setQueue q [] = s.setQueue q [] := by simp only [setQueue, List.set_set]
  simp only [drainQueue, h, getElem?_setQueue_self h, hset, Option.getD_some]

/-- nothing but queues is changed -/
theorem exists_nextOfQueue (s : Session) (q : QueueId) : ∃ queues, (s.nextOfQueue q).2 = { s with queues := queues } := by
  rcases s.nextOfQueue_cases q with ⟨-, h⟩ | ⟨pair, left, -, h⟩
  · exact ⟨s.queues, congrArg Prod.snd h⟩
  · exact ⟨_, congrArg Prod.snd h⟩

theorem nextOfQueue_kept (s : Session) (q : QueueId) : Kept s (s.nextOfQueue q).2 := by
  obtain ⟨queues, h⟩ := s.exists_nextOfQueue q
  rw [h]
  exact ⟨rfl, rfl⟩

theorem nextOfCursor_kept (s : Session) (i : CursorId) : Kept s (s.nextOfCursor i).2 := by
  unfold nextOfCursor
  split
  · exact Kept.refl s
  · split
    · exact Kept.refl s
    · exact ⟨rfl, rfl⟩

theorem exhaust_kept (s : Session) (i : IteratorId) : Kept s (s.exhaust i) := by
  unfold exhaust
  split
  · exact Kept.refl s
  · exact ⟨rfl, rfl⟩

theorem pull_kept (s : Session) (i : IteratorId) : Kept s (s.pull i).2 := by
  induction i using Nat.strongRecOn generalizing s with
  | ind i ih =>
    unfold pull
    split
    · exact Kept.refl s
    · next it _ =>
      split
      · exact Kept.refl s
      · split
        next found t hsource =>
        -- whatever the source is, taking from it keeps maps and stores
        have ht : Kept s t := by
          obtain rfl : _ = t := congrArg Prod.snd hsource
          split
          · exact Kept.refl s
          · exact ⟨rfl, rfl⟩
          · exact nextOfQueue_kept s _
          · exact nextOfCursor_kept s _
          · next j _ =>
            split
            · next hj => exact ih j hj s
            · exact Kept.refl s
        cases found with
        | none => exact ht.trans (exhaust_kept t i)
        | some pair => exact ht

/-! ## Many pairs -/

/-- what every pull keeps is kept by pulling until nothing is left -/
theorem pullUpTo_keeps {i : IteratorId} {Q : Session → Prop} (hQ : ∀ s, Q s → Q (s.pull i).2) {s : Session} (h : Q s)
    (n : Nat) : Q (pullUpTo n s i).2 := by
  induction n generalizing s with
  | zero => exact h
  | succ n ih =>
    have hpull := hQ s h
    rw [pullUpTo]
    rcases hr : s.pull i with ⟨found, t⟩
    rw [hr] at hpull
    cases found with
    | none => exact hpull
    | some pair => exact ih hpull

theorem pullUpTo_kept (n : Nat) (s : Session) (i : IteratorId) : Kept s (pullUpTo n s i).2 :=
  pullUpTo_keeps (fun t h => h.trans (pull_kept t i)) (Kept.refl s) n

theorem pullAll_kept (s : Session) (i : IteratorId) : Kept s (s.pullAll i).2 := pullUpTo_kept _ s i

theorem advance_kept {s t : Session} {i : IteratorId} {item : Item} (h : s.advance i = some (item, t)) : Kept s t := by
  unfold advance at h
  split at h
  · simp at h
  · simp only [Option.some.injEq, Prod.mk.injEq] at h
    rw [← h.2]
    exact pull_kept s i

theorem advanceAll_kept {s t : Session} {i : IteratorId} {items : List Item} (h : s.advanceAll i = some (items, t)) :
    Kept s t := by
  unfold advanceAll at h
  split at h
  · simp at h
  · simp only [Option.some.injEq, Prod.mk.injEq] at h
    rw [← h.2]
    exact pullUpTo_kept _ s i

theorem drainQueue_kept (s : Session) (q : QueueId) : Kept s (s.drainQueue q).2 := ⟨rfl, rfl⟩

theorem drainCursor_kept (s : Session) (i : CursorId) : Kept s (s.drainCursor i).2 := by
  unfold drainCursor
  split
  · exact Kept.refl s
  · split
    · exact Kept.refl s
    · exact ⟨rfl, rfl⟩

/-- pulling from a list of pairs gives the pairs -/
theorem pullUpTo_pairs {s : Session} {i : IteratorId} {it : StorageIterator} {pairs : List (Bytes × Bytes)} {n : Nat}
    (hi : s.iterators[i]? = some it) (he : it.exhausted = false) (hp : it.source = .pairs pairs)
    (hn : pairs.length < n) : (pullUpTo n s i).1 = pairs := by
  induction pairs generalizing s it n with
  | nil =>
    obtain ⟨n, rfl⟩ : ∃ k, n = k + 1 := ⟨n - 1, (Nat.sub_add_cancel hn).symm⟩
    unfold pullUpTo pull
    simp [hi, he, hp]
  | cons pair pairs ih =>
    obtain ⟨n, rfl⟩ : ∃ k, n = k + 1 := ⟨n - 1, (Nat.sub_add_cancel (Nat.lt_of_le_of_lt (Nat.zero_le _) hn)).symm⟩
    have hpull : s.pull i = (some pair, s.setIterator i { it with source := .pairs pairs }) := by
      unfold pull
      simp [hi, he, hp]
    have hi' : (s.setIterator i { it with source := .pairs pairs }).iterators[i]? =
        some { it with source := .pairs pairs } := by
      obtain ⟨hlt, -⟩ := List.getElem?_eq_some_iff.mp hi
      simp [setIterator, hlt]
    rw [pullUpTo, hpull]
    exact congrArg (pair :: ·) (ih hi' he rfl (Nat.lt_of_succ_lt_succ hn))

theorem pullAll_pairs {s : Session} {i : IteratorId} {it : StorageIterator} {pairs : List (Bytes × Bytes)}
    (hi : s.iterators[i]? = some it) (he : it.exhausted = false) (hp : it.source = .pairs pairs) :
    (s.pullAll i).1 = pairs := by
  have hsupply : s.supply i = pairs.length := by
    unfold supply
    simp only [hi, hp]
  rw [pullAll, hsupply]
  exact pullUpTo_pairs hi he hp (Nat.lt_succ_self _)

theorem pullAll_of_exhausted {s : Session} {i : IteratorId} {it : StorageIterator} (hi : s.iterators[i]? = some it)
    (he : it.exhausted = true) : (s.pullAll i).1 = [] := by
  rw [pullAll, pullUpTo, pull_of_exhausted hi he]

/-! ## New cursors and iterators -/

/-- what has an outcome in the end has one on the way -/
theorem exists_of_bind {α β : Type} {x : Except Refusal α} {f : α → Except Refusal β} {b : β}
    (h : x >>= f = .ok b) : ∃ a, x = .ok a ∧ f a = .ok b := by
  cases x with
  | error r => cases h
  | ok a => exact ⟨a, rfl, h⟩

theorem newCursor_kept {s t : Session} {i : MapId} {b : Bounds} {d : Direction} {c : CursorId}
    (h : s.newCursor i b d = .ok (c, t)) : Kept s t := by
  unfold newCursor at h
  obtain ⟨m, -, h⟩ := exists_of_bind h
  cases h
  exact ⟨rfl, rfl⟩

theorem walk_kept {s t : Session} {o : Object} {c : CursorId} (h : s.walk o = .ok (c, t)) : Kept s t := by
  unfold walk at h
  obtain ⟨i, -, h⟩ := exists_of_bind h
  exact newCursor_kept h

/-- what hands out pairs is taken from as it is, and a map or a store is walked -/
theorem sourceOf_cases {s t : Session} {f : Supplier} {source : Source} (h : s.sourceOf f = .ok (source, t)) :
    (t = s ∧ ∀ i, source = .iterator i → f = .object (.iterator i)) ∨ ∃ o c, s.walk o = .ok (c, t) ∧ source = .cursor c := by
  unfold sourceOf at h
  split at h
  · cases h
    exact .inl ⟨rfl, by simp⟩
  · cases h
    exact .inl ⟨rfl, by simp⟩
  · cases h
    exact .inl ⟨rfl, by simp⟩
  · cases h
    exact .inl ⟨rfl, by simp⟩
  · obtain ⟨⟨c, u⟩, hw, h⟩ := exists_of_bind h
    cases h
    exact .inr ⟨_, c, hw, rfl⟩

theorem sourceOf_kept {s t : Session} {f : Supplier} {source : Source} (h : s.sourceOf f = .ok (source, t)) :
    Kept s t := by
  rcases sourceOf_cases h with ⟨rfl, -⟩ | ⟨o, c, hw, -⟩
  · exact Kept.refl t
  · exact walk_kept hw

theorem openRange_kept (s : Session) (p : Prices) (r : Range) : Kept s (s.openRange p r).2 := by
  cases r <;> exact ⟨rfl, rfl⟩

end MeteredStore.Session
