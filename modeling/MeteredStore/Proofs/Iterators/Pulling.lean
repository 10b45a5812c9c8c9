/-
One pull of an iterator.

An iterator that is pulled takes from its source, which may be another iterator, made before it, that is pulled in turn.
`comesTo` says which iterators a pull comes to in this way.

Main statements: `getElem?_pull`, a pull leaves each iterator as it is, or as a pull of that one does if it comes to it;
`Alone.comesTo`, a pull comes to an iterator that no other was made over only if it is that one.
-/
import MeteredStore.Proofs.Stepping

namespace MeteredStore.Session

variable {s t : Session} {i j : IteratorId} {it : StorageIterator}

/-! ## What a pull leaves -/

/-- the next pair from the source of an iterator that has not run out -/
def take (s : Session) (i : IteratorId) (it : StorageIterator) : Option (Bytes × Bytes) × Session :=
  match it.source with
  | .pairs [] => (none, s)
  | .pairs (pair :: left) => (some pair, s.setIterator i { it with source := .pairs left })
  | .queue q => s.nextOfQueue q
  | .cursor c => s.nextOfCursor c
  | .iterator j => if j < i then s.pull j else (none, s)

theorem pull_of_none (hi : s.iterators[i]? = none) : s.pull i = (none, s) := by
  unfold pull
  rw [hi]

/-- an iterator that has not run out takes from its source, and has run out if there is nothing -/
theorem pull_eq (hi : s.iterators[i]? = some it) (he : it.exhausted = false) :
    s.pull i = (s.take i it).1.elim (none, (s.take i it).2.exhaust i) fun pair => (some pair, (s.take i it).2) := by
  obtain ⟨p, source, x⟩ := it
  obtain rfl : x = false := he
  unfold pull
  simp only [hi, Bool.false_eq_true, if_false, take]
  cases source with
  | pairs left =>
    cases left with
    | nil => rfl
    | cons pair left => rfl
  | queue q => cases (s.nextOfQueue q).1 <;> rfl
  | cursor c => cases (s.nextOfCursor c).1 <;> rfl
  | iterator j => cases (if j < i then s.pull j else (none, s)).1 <;> rfl

theorem iterators_nextOfQueue (s : Session) (q : QueueId) : (s.nextOfQueue q).2.iterators = s.iterators := by
  obtain ⟨queues, h⟩ := s.exists_nextOfQueue q
  rw [h]

theorem cursors_nextOfQueue (s : Session) (q : QueueId) : (s.nextOfQueue q).2.cursors = s.cursors := by
  obtain ⟨queues, h⟩ := s.exists_nextOfQueue q
  rw [h]

theorem log_nextOfQueue (s : Session) (q : QueueId) : (s.nextOfQueue q).2.log = s.log := by
  obtain ⟨queues, h⟩ := s.exists_nextOfQueue q
  rw [h]

/-- a queue that hands out a pair leaves the others where they are -/
theorem getElem?_nextOfQueue {q r : QueueId} (h : q ≠ r) : (s.nextOfQueue q).2.queues[r]? = s.queues[r]? := by
  rcases s.nextOfQueue_cases q with ⟨-, hq⟩ | ⟨pair, left, -, hq⟩
  · rw [hq]
  · rw [hq]
    exact List.getElem?_set_ne h

theorem iterators_nextOfCursor (s : Session) (c : CursorId) : (s.nextOfCursor c).2.iterators = s.iterators := by
  unfold nextOfCursor
  split
  · rfl
  · split
    · rfl
    · rfl

theorem log_nextOfCursor (s : Session) (c : CursorId) : (s.nextOfCursor c).2.log = s.log := by
  unfold nextOfCursor
  split
  · rfl
  · split
    · rfl
    · rfl

/-- a cursor that is stepped leaves the others where they are -/
theorem getElem?_nextOfCursor {c d : CursorId} (h : c ≠ d) : (s.nextOfCursor c).2.cursors[d]? = s.cursors[d]? := by
  unfold nextOfCursor
  split
  · rfl
  · split
    · rfl
    · exact List.getElem?_set_ne h

theorem queues_nextOfCursor (s : Session) (c : CursorId) : (s.nextOfCursor c).2.queues = s.queues := by
  unfold nextOfCursor
  split
  · rfl
  · split
    · rfl
    · rfl

theorem queues_exhaust (s : Session) (i : IteratorId) : (s.exhaust i).queues = s.queues := by
  unfold exhaust
  split
  · rfl
  · rfl

theorem cursors_exhaust (s : Session) (i : IteratorId) : (s.exhaust i).cursors = s.cursors := by
  unfold exhaust
  split
  · rfl
  · rfl

theorem getElem?_exhaust (h : i ≠ j) : (s.exhaust i).iterators[j]? = s.iterators[j]? := by
  unfold exhaust
  split
  · rfl
  · exact List.getElem?_set_ne h

theorem getElem?_exhaust_self (s : Session) (i : IteratorId) :
    (s.exhaust i).iterators[i]? = s.iterators[i]?.map fun it => { it with exhausted := true } := by
  unfold exhaust
  cases hi : s.iterators[i]? with
  | none => exact hi
  | some it =>
    obtain ⟨hlt, -⟩ := List.getElem?_eq_some_iff.mp hi
    exact List.getElem?_set_self hlt

/-- an iterator over a list of its own gives the first pair that is left, and runs out when there is none -/
theorem pull_own {left : List (Bytes × Bytes)} (hi : s.iterators[i]? = some it) (hsource : it.source = .pairs left)
    (hempty : it.exhausted = true → left = []) :
    (s.pull i).1 = left.head? ∧ ∃ x, (x = true → left = []) ∧
      (s.pull i).2.iterators[i]? = some { it with source := .pairs left.tail, exhausted := x } := by
  obtain ⟨hlt, -⟩ := List.getElem?_eq_some_iff.mp hi
  obtain ⟨p, source, x⟩ := it
  obtain rfl : source = .pairs left := hsource
  cases x with
  | true =>
    obtain rfl := hempty rfl
    rw [pull_of_exhausted hi rfl]
    exact ⟨rfl, true, fun _ => rfl, hi⟩
  | false =>
    rw [pull_eq hi rfl, take]
    cases left with
    | nil => exact ⟨rfl, true, fun _ => rfl, (getElem?_exhaust_self s i).trans (by rw [hi]; rfl)⟩
    | cons pair left => exact ⟨rfl, false, by simp, List.getElem?_set_self hlt⟩

/-- a pull of one iterator comes to another: that one is pulled itself, or by the iterator that is taken from -/
def comesTo (s : Session) (i j : IteratorId) : Bool :=
  match s.iterators[j]? with
  | none => false
  | some it =>
    if j = i then true
    else if it.exhausted then false
    else
      match it.source with
      | .iterator k => if k < j then s.comesTo i k else false
      | _ => false
termination_by j

theorem comesTo_self (hi : s.iterators[i]? = some it) : s.comesTo i i = true := by
  unfold comesTo
  simp [hi]

/-- an iterator takes only from those before it -/
theorem le_of_comesTo (h : s.comesTo i j = true) : i ≤ j := by
  induction j using Nat.strongRecOn with
  | ind j ih =>
    unfold comesTo at h
    split at h
    · cases h
    · split at h
      · next hji => exact Nat.le_of_eq hji.symm
      · split at h
        · cases h
        · split at h
          · split at h
            · next hk => exact Nat.le_trans (ih _ hk h) (Nat.le_of_lt hk)
            · cases h
          · cases h

/-- what a pull of another iterator leaves -/
theorem getElem?_take (hj : s.iterators[j]? = some it) (he : it.exhausted = false) (hne : j ≠ i)
    (ih : ∀ k < j, (s.pull k).2.iterators[i]? =
      if s.comesTo i k then (s.pull i).2.iterators[i]? else s.iterators[i]?) :
    (s.take j it).2.iterators[i]? = if s.comesTo i j then (s.pull i).2.iterators[i]? else s.iterators[i]? := by
  unfold comesTo take
  simp only [hj, he, hne, Bool.false_eq_true, if_false]
  cases hsource : it.source with
  | pairs left =>
    cases left with
    | nil => rfl
    | cons pair left => exact List.getElem?_set_ne hne
  | queue q =>
    simp only [iterators_nextOfQueue]
    rfl
  | cursor c =>
    simp only [iterators_nextOfCursor]
    rfl
  | iterator k =>
    by_cases hk : k < j
    · simp only [hk, if_true]
      exact ih k hk
    · simp only [hk, if_false]
      rfl

/-- **One pull.** Whichever iterator is pulled: if that comes to an iterator, it is left as by a pull of its own, and else it
is left as it is. -/
theorem getElem?_pull (s : Session) (i j : IteratorId) :
    (s.pull j).2.iterators[i]? = if s.comesTo i j then (s.pull i).2.iterators[i]? else s.iterators[i]? := by
  -- an iterator takes from one before it, so the induction is on the position
  induction j using Nat.strongRecOn with
  | ind j ih =>
    by_cases hne : j = i
    · subst hne
      cases hj : s.iterators[j]? with
      | none => simp [comesTo, hj, pull_of_none hj]
      | some it => simp [comesTo, hj]
    · cases hj : s.iterators[j]? with
      | none => simp [comesTo, hj, pull_of_none hj]
      | some it =>
        cases he : it.exhausted with
        | true => simp [comesTo, hj, he, hne, pull_of_exhausted hj he]
        | false =>
          have htake := getElem?_take hj he hne ih
          rw [pull_eq hj he, ← htake]
          cases (s.take j it).1 with
          | none => exact getElem?_exhaust hne
          | some pair => rfl

/-- the iterators that one takes from do not change it -/
theorem getElem?_pull_of_lt (s : Session) (h : i < j) : (s.pull i).2.iterators[j]? = s.iterators[j]? := by
  have hnot : ¬ s.comesTo j i = true := fun hc => absurd (le_of_comesTo hc) (Nat.not_le.mpr h)
  rw [getElem?_pull, if_neg hnot]

/-! ## An iterator that no other was made over -/

/-- iterators that come after this one do not take from it -/
def Alone (s : Session) (i : IteratorId) : Prop :=
  ∀ (j : IteratorId) it, s.iterators[j]? = some it → it.source = .iterator i → j ≤ i

theorem alone_new (h : s.iterators.length ≤ i + 1) : s.Alone i := by
  intro j it hj _
  obtain ⟨hlt, -⟩ := List.getElem?_eq_some_iff.mp hj
  exact Nat.le_of_lt_succ (Nat.lt_of_lt_of_le hlt h)

/-- taking changes nothing about an iterator but the list that is left to it -/
theorem exists_take (hj : s.iterators[j]? = some it) :
    ∃ source, (s.take j it).2.iterators[j]? = some { it with source := source } ∧
      (source = it.source ∨ ∃ left, source = .pairs left) := by
  obtain ⟨hlt, -⟩ := List.getElem?_eq_some_iff.mp hj
  obtain ⟨p, source, x⟩ := it
  unfold take
  cases source with
  | pairs left =>
    cases left with
    | nil => exact ⟨_, hj, .inl rfl⟩
    | cons pair left => exact ⟨_, List.getElem?_set_self hlt, .inr ⟨left, rfl⟩⟩
  | queue q => exact ⟨_, (congrArg (·[j]?) (iterators_nextOfQueue s q)).trans hj, .inl rfl⟩
  | cursor c => exact ⟨_, (congrArg (·[j]?) (iterators_nextOfCursor s c)).trans hj, .inl rfl⟩
  | iterator k =>
    refine ⟨_, ?_, .inl rfl⟩
    by_cases hk : k < j
    · simp only [hk, if_true, getElem?_pull_of_lt s hk, hj]
    · simp only [hk, if_false, hj]

/-- a pull never makes an iterator take from another -/
theorem source_pull {it' : StorageIterator} (hj : (s.pull j).2.iterators[j]? = some it')
    (hsource : it'.source = .iterator i) : ∃ it, s.iterators[j]? = some it ∧ it.source = .iterator i := by
  cases hit : s.iterators[j]? with
  | none =>
    rw [pull_of_none hit, hit] at hj
    cases hj
  | some it =>
    refine ⟨it, rfl, ?_⟩
    cases he : it.exhausted with
    | true =>
      rw [pull_of_exhausted hit he, hit] at hj
      cases hj
      exact hsource
    | false =>
      obtain ⟨source, htake, hkept⟩ := exists_take hit
      -- found or not, it takes from there afterwards
      have hsame : it'.source = source := by
        rw [pull_eq hit he] at hj
        cases hfound : (s.take j it).1 with
        | none =>
          rw [hfound, Option.elim_none, getElem?_exhaust_self, htake] at hj
          cases hj
          rfl
        | some pair =>
          rw [hfound, Option.elim_some, htake] at hj
          cases hj
          rfl
      rcases hkept with h | ⟨left, h⟩
      · rw [← h, ← hsame, hsource]
      · rw [← hsame, hsource] at h
        cases h

theorem Alone.pull (h : s.Alone i) (j : IteratorId) : (s.pull j).2.Alone i := by
  intro k it' hk hsource
  rw [getElem?_pull] at hk
  split at hk
  · obtain ⟨it, hk, hsource⟩ := source_pull hk hsource
    exact h k it hk hsource
  · exact h k it' hk hsource

theorem Alone.comesTo (h : s.Alone i) (hne : j ≠ i) : s.comesTo i j = false := by
  induction j using Nat.strongRecOn with
  | ind j ih =>
    unfold Session.comesTo
    cases hj : s.iterators[j]? with
    | none => rfl
    | some it =>
      simp only [hne, if_false]
      cases he : it.exhausted with
      | true => rfl
      | false =>
        cases hsource : it.source with
        | pairs | queue | cursor => rfl
        | iterator k =>
          by_cases hk : k < j
          · have hki : k ≠ i := by
              rintro rfl
              exact absurd (h j it hj hsource) (Nat.not_le.mpr hk)
            simpa [hk] using ih k hk hki
          · simp [hk]

end MeteredStore.Session
