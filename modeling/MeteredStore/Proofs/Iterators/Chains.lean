/-
Chains of iterators.

An iterator may be made over another, and that one over a third. To ask the outermost is to ask inwards, as far as the members
have not run out. Where nothing is left at the base, those that were asked run out, from the inside out, and each logs it
(`Chain.pull`). Over a run, the records and the members that have not run out are one number together (`tally`): to run
out turns the one into the other, and nothing else that is done with the members moves it (`tally_run`).

Main statement: `chain_records`, for iterators in any session, each made over the next, and the last over a base that logs
nothing of its own, which is a list, a queue, a cursor, or an iterator that has run out:
- an iterator made over the outermost is one more of them;
- if the base has run out, one call on the outermost marks those that have not run out, from the outermost inwards up to the
  first that has. All others are as they were, and the base was asked only if these are all;
- over a run in which only these iterators are stepped, in whatever turn and by whatever calls, as many records are left as
  there are among them that had not run out before and have afterwards.
-/
import MeteredStore.Proofs.Iterators.Lifecycle

namespace MeteredStore

/-- the iterator that a source is, if it is one -/
def Source.iterators : Source → List IteratorId
  | .iterator j => [j]
  | _ => []

namespace Session

variable {s t : Session} {i j k : IteratorId} {it : StorageIterator} {base : Source} {ids : List IteratorId} {c : Command}

/-! ## Chains -/

/-- the iterator has not run out -/
def going (s : Session) (i : IteratorId) : Bool := s.iterators[i]?.any fun it => !it.exhausted

/-- the iterator has run out -/
def ended (s : Session) (i : IteratorId) : Bool := s.iterators[i]?.any fun it => it.exhausted

/-- iterators from the outermost inwards: each takes from the next, and the last takes from the base -/
inductive Chain (s : Session) (base : Source) : List IteratorId → Prop where
  | last {i : IteratorId} : s.At i (fun it => it.source = base) → (∀ j ∈ base.iterators, j < i) → Chain s base [i]
  | link {i j : IteratorId} {ids : List IteratorId} : s.At i (fun it => it.source = .iterator j) → j < i →
      Chain s base (j :: ids) → Chain s base (i :: j :: ids)

/-- a source that has run out: a list or queue with nothing left, a cursor that finds nothing more, an iterator that knows it -/
def Dry (s : Session) : Source → Prop
  | .pairs left => left = []
  | .queue q => (s.nextOfQueue q).1 = none
  | .cursor c => (s.nextOfCursor c).1 = none
  | .iterator j => s.ended j = true

/-- the session after the base has been asked in vain -/
def probe (s : Session) : Source → Session
  | .queue q => (s.nextOfQueue q).2
  | .cursor c => (s.nextOfCursor c).2
  | _ => s

/-- these run out, from the last to the first -/
def exhaustAll (s : Session) (ids : List IteratorId) : Session := ids.foldr (fun i t => t.exhaust i) s

theorem going_eq (hi : s.iterators[i]? = some it) : s.going i = !it.exhausted := by rw [going, hi, Option.any_some]

theorem ended_eq (hi : s.iterators[i]? = some it) : s.ended i = it.exhausted := by rw [ended, hi, Option.any_some]

theorem exists_of_going (h : s.going i = true) : ∃ it, s.iterators[i]? = some it ∧ it.exhausted = false := by
  rw [going, Option.any_eq_true] at h
  obtain ⟨it, hi, he⟩ := h
  exact ⟨it, hi, by simpa using he⟩

theorem ended_iff : s.ended i = true ↔ s.At i fun it => it.exhausted = true := by
  rw [ended, Option.any_eq_true]
  rfl

/-- each member takes from another one or from the base -/
theorem Chain.takes (h : s.Chain base ids) (hi : i ∈ ids) :
    s.At i fun it => it.source = base ∨ ∃ j ∈ ids, it.source = .iterator j := by
  induction h with
  | last hat _ =>
    rw [List.mem_singleton] at hi
    subst hi
    obtain ⟨it, hit, hsource⟩ := hat
    exact ⟨it, hit, .inl hsource⟩
  | @link i' j ids hat _ _ ih =>
    rcases List.mem_cons.mp hi with rfl | hi
    · obtain ⟨it, hit, hsource⟩ := hat
      exact ⟨it, hit, .inr ⟨j, List.mem_cons_of_mem _ List.mem_cons_self, hsource⟩⟩
    · obtain ⟨it, hit, hsource⟩ := ih hi
      refine ⟨it, hit, hsource.imp_right ?_⟩
      rintro ⟨k, hk, hsource⟩
      exact ⟨k, List.mem_cons_of_mem _ hk, hsource⟩

/-- members come before those that are made over them, and the base before all of them -/
theorem Chain.pairwise (h : s.Chain base ids) : (ids ++ base.iterators).Pairwise fun i j => j < i := by
  induction h with
  | last _ hbase =>
    rw [List.singleton_append, List.pairwise_cons]
    refine ⟨hbase, ?_⟩
    cases base <;> simp [Source.iterators]
  | @link i j ids _ hj _ ih =>
    rw [List.cons_append, List.pairwise_cons]
    refine ⟨?_, ih⟩
    intro k hk
    rcases List.mem_cons.mp hk with rfl | hk
    · exact hj
    · exact Nat.lt_trans (List.rel_of_pairwise_cons ih hk) hj

theorem Chain.mono (h : s.Chain base ids) (hst : ∀ i P, s.At i P → t.At i P) : t.Chain base ids := by
  induction h with
  | last hat hbase => exact .last (hst _ _ hat) hbase
  | link hat hj _ ih => exact .link (hst _ _ hat) hj ih

/-- to make an iterator over the outermost member is to make the chain longer -/
theorem Chain.made (h : s.Chain base (i :: ids)) {prices : Option PriceCall}
    (hmade : s.step (.newIterator prices (.object (.iterator i))) = (.ok (.made (.iterator k)), t)) :
    t.Chain base (k :: i :: ids) := by
  obtain ⟨it, hi, -⟩ := h.takes List.mem_cons_self
  have hlt : i < s.iterators.length := (List.getElem?_eq_some_iff.mp hi).1
  obtain ⟨p, -, hattempt⟩ := exists_of_bind (attempt_of_step hmade)
  cases hattempt
  refine .link ⟨_, List.getElem?_concat_length, rfl⟩ hlt (h.mono ?_)
  rintro j P ⟨it', hj, hP⟩
  exact ⟨it', (List.getElem?_append_left (List.getElem?_eq_some_iff.mp hj).1).trans hj, hP⟩

/-! ## One call -/

theorem take_dry (hsource : it.source = base) (hbase : ∀ j ∈ base.iterators, j < i)
    (hdry : s.Dry base) : s.take i it = (none, s.probe base) := by
  subst hsource
  unfold take
  cases hsource : it.source with
  | pairs left =>
    rw [hsource] at hdry
    obtain rfl : left = [] := hdry
    rfl
  | queue q =>
    rw [hsource] at hdry
    exact Prod.ext hdry rfl
  | cursor c =>
    rw [hsource] at hdry
    exact Prod.ext hdry rfl
  | iterator j =>
    rw [hsource] at hdry hbase
    obtain ⟨it', hj, he⟩ := ended_iff.mp hdry
    simp only [hbase j List.mem_cons_self, if_true, pull_of_exhausted hj he]
    rfl

/-- **One call.** To ask the outermost member of a chain over a base that has run out: nothing is found, the members up to the
first one that has run out before run out, and the base is asked if these are all. -/
theorem Chain.pull (h : s.Chain base (i :: ids)) (hdry : s.Dry base) :
    s.pull i = (none, (if (i :: ids).takeWhile s.going = i :: ids then s.probe base else s).exhaustAll
      ((i :: ids).takeWhile s.going)) := by
  induction ids generalizing i with
  | nil =>
    cases h with
    | last hat hbase =>
      obtain ⟨it, hi, hsource⟩ := hat
      cases he : it.exhausted with
      | true =>
        have hfront : [i].takeWhile s.going = [] := by simp [going_eq hi, he]
        rw [pull_of_exhausted hi he, hfront]
        rfl
      | false =>
        have hfront : [i].takeWhile s.going = [i] := by simp [going_eq hi, he]
        rw [pull_eq hi he, take_dry hsource hbase hdry, hfront, if_pos rfl]
        rfl
  | cons j ids ih =>
    cases h with
    | link hat hj h =>
      obtain ⟨it, hi, hsource⟩ := hat
      cases he : it.exhausted with
      | true =>
        have hfront : (i :: j :: ids).takeWhile s.going = [] := by simp [going_eq hi, he]
        rw [pull_of_exhausted hi he, hfront]
        rfl
      | false =>
        have hfront : (i :: j :: ids).takeWhile s.going = i :: (j :: ids).takeWhile s.going := by
          rw [List.takeWhile_cons_of_pos]
          rw [going_eq hi, he]
          rfl
        have htake : s.take i it = s.pull j := by simp only [take, hsource, hj, if_true]
        rw [pull_eq hi he, htake, ih h, hfront]
        simp only [List.cons.injEq, true_and]
        rfl

theorem iterators_probe (s : Session) (base : Source) : (s.probe base).iterators = s.iterators := by
  cases base with
  | queue q => exact iterators_nextOfQueue s q
  | cursor c => exact iterators_nextOfCursor s c
  | pairs | iterator => rfl

theorem log_probe (s : Session) (base : Source) : (s.probe base).log = s.log := by
  cases base with
  | queue q => exact log_nextOfQueue s q
  | cursor c => exact log_nextOfCursor s c
  | pairs | iterator => rfl

theorem probe_kept (s : Session) (base : Source) : Kept s (s.probe base) := by
  cases base with
  | queue q => exact nextOfQueue_kept s q
  | cursor c => exact nextOfCursor_kept s c
  | pairs | iterator => exact Kept.refl s

/-- these are marked, and no others -/
theorem getElem?_exhaustAll (s : Session) (ids : List IteratorId) (k : IteratorId) : (s.exhaustAll ids).iterators[k]? =
    if k ∈ ids then s.iterators[k]?.map fun it => { it with exhausted := true } else s.iterators[k]? := by
  induction ids with
  | nil => rfl
  | cons i ids ih =>
    have hcons : s.exhaustAll (i :: ids) = (s.exhaustAll ids).exhaust i := rfl
    rw [hcons]
    by_cases hk : i = k
    · subst hk
      rw [getElem?_exhaust_self, ih, if_pos List.mem_cons_self]
      split
      · rw [Option.map_map]
        rfl
      · rfl
    · rw [getElem?_exhaust hk, ih]
      simp only [List.mem_cons, Ne.symm hk, false_or]

/-- each of them logs it -/
theorem log_exhaustAll (h : ∀ i ∈ ids, i < s.iterators.length) :
    (s.exhaustAll ids).log = s.log ++ List.replicate ids.length .iteratorExhausted := by
  induction ids with
  | nil => exact (List.append_nil _).symm
  | cons i ids ih =>
    have hi : ∃ it, (s.exhaustAll ids).iterators[i]? = some it := by
      rw [getElem?_exhaustAll, List.getElem?_eq_getElem (h i List.mem_cons_self)]
      split <;> exact ⟨_, rfl⟩
    obtain ⟨it, hi⟩ := hi
    calc
      (s.exhaustAll (i :: ids)).log = ((s.exhaustAll ids).exhaust i).log := rfl
      _ = (s.exhaustAll ids).log ++ [.iteratorExhausted] := exhaust_log hi
      _ = s.log ++ List.replicate ids.length .iteratorExhausted ++ [.iteratorExhausted] := by
        rw [ih fun k hk => h k (List.mem_cons_of_mem i hk)]
      _ = s.log ++ List.replicate (i :: ids).length .iteratorExhausted := by
        rw [List.append_assoc, List.length_cons, List.replicate_succ']

theorem cursors_exhaustAll (s : Session) (ids : List IteratorId) : (s.exhaustAll ids).cursors = s.cursors := by
  induction ids with
  | nil => rfl
  | cons i ids ih => exact (cursors_exhaust _ i).trans ih

theorem exhaustAll_kept (s : Session) (ids : List IteratorId) : Kept s (s.exhaustAll ids) := by
  induction ids with
  | nil => exact Kept.refl s
  | cons i ids ih => exact ih.trans (exhaust_kept _ i)

/-- what is left when the outermost member of a chain over a base that has run out has been asked -/
structure Closed (s : Session) (base : Source) (ids : List IteratorId) (t : Session) : Prop where
  /-- there is a record for each member up to the first that had run out -/
  log : t.log = s.log ++ List.replicate (ids.takeWhile s.going).length .iteratorExhausted
  /-- these members have run out now, and all other iterators are as they were -/
  iterators : ∀ k, t.iterators[k]? = if k ∈ ids.takeWhile s.going then s.iterators[k]?.map fun it => { it with exhausted := true }
    else s.iterators[k]?
  /-- the base was asked if these are all -/
  cursors : t.cursors = (if ids.takeWhile s.going = ids then s.probe base else s).cursors
  kept : Kept s t

theorem Chain.closed (h : s.Chain base (i :: ids)) (hdry : s.Dry base) : Closed s base (i :: ids) (s.pull i).2 := by
  have hpull := h.pull hdry
  generalize hfront : (i :: ids).takeWhile s.going = front at hpull
  generalize hu : (if front = i :: ids then s.probe base else s) = u at hpull
  have hsame : u.iterators = s.iterators ∧ u.log = s.log ∧ Kept s u := by
    rw [← hu]
    split
    · exact ⟨iterators_probe s base, log_probe s base, probe_kept s base⟩
    · exact ⟨rfl, rfl, Kept.refl s⟩
  obtain ⟨hiterators, hlog, hkept⟩ := hsame
  have hthere : ∀ k ∈ front, k < u.iterators.length := by
    intro k hk
    rw [← hfront] at hk
    obtain ⟨it, hit, -⟩ := h.takes (List.IsPrefix.subset (List.takeWhile_prefix _) hk)
    rw [hiterators]
    exact (List.getElem?_eq_some_iff.mp hit).1
  rw [hpull]
  constructor
  case log => rw [log_exhaustAll hthere, hlog, hfront]
  case iterators =>
    intro k
    rw [getElem?_exhaustAll, hiterators, hfront]
  case cursors => rw [cursors_exhaustAll, hfront, hu]
  case kept => exact hkept.trans (exhaustAll_kept u front)

/-! ## Runs -/

/-- the records of iterators that have run out, and those of these iterators that have not -/
def tally (ids : List IteratorId) (s : Session) : Nat := s.log.count .iteratorExhausted + ids.countP s.going

/-- none of these iterators takes from an iterator that is not one of them, unless it has run out -/
def Within (s : Session) (ids : List IteratorId) : Prop :=
  ∀ i ∈ ids, s.At i fun it => it.exhausted = true ∨ ∀ j, it.source = .iterator j → j ∈ ids

theorem stable_within (ids : List IteratorId) (i : IteratorId) :
    Stable fun s => s.At i fun it => it.exhausted = true ∨ ∀ j, it.source = .iterator j → j ∈ ids := by
  refine stable_at i ?_ ?_
  · intro it pair left _ _ _
    right
    intro j hj
    cases hj
  · intro s it _ _
    exact .inl rfl

theorem Within.pull (h : s.Within ids) (i : IteratorId) : (s.pull i).2.Within ids :=
  fun k hk => (stable_within ids k).pull (h k hk) i

theorem Within.step (h : s.Within ids) (c : Command) : (s.step c).2.Within ids :=
  fun k hk => (stable_within ids k).step (h k hk) c

theorem going_exhaust (s : Session) (i : IteratorId) : (s.exhaust i).going i = false := by
  rw [going, getElem?_exhaust_self]
  cases s.iterators[i]? <;> rfl

theorem tally_congr (hlog : t.log.count .iteratorExhausted = s.log.count .iteratorExhausted)
    (hgoing : ∀ i ∈ ids, t.going i = s.going i) : tally ids t = tally ids s := by
  rw [tally, tally, hlog, List.countP_congr]
  intro i hi
  rw [hgoing i hi]

theorem tally_of_iterators (hlog : t.log = s.log) (hiterators : t.iterators = s.iterators) : tally ids t = tally ids s := by
  apply tally_congr (by rw [hlog])
  intro i _
  rw [going, going, hiterators]

/-- one that runs out counts as a record from then on -/
theorem tally_exhaust (hids : ids.Nodup) (hmem : i ∈ ids) (hgoing : s.going i = true) :
    tally ids (s.exhaust i) = tally ids s := by
  obtain ⟨it, hi, -⟩ := exists_of_going hgoing
  have hperm := List.perm_cons_erase hmem
  have hrest : (ids.erase i).countP (s.exhaust i).going = (ids.erase i).countP s.going := by
    apply List.countP_congr
    intro k hk
    have hne : i ≠ k := fun he => (hids.mem_erase_iff.mp hk).1 he.symm
    rw [going, going, getElem?_exhaust hne]
  have hbefore : ids.countP s.going = (ids.erase i).countP s.going + 1 := by
    rw [hperm.countP_eq, List.countP_cons_of_pos hgoing]
  have hafter : ids.countP (s.exhaust i).going = (ids.erase i).countP (s.exhaust i).going := by
    rw [hperm.countP_eq, List.countP_cons_of_neg (by rw [going_exhaust]; exact Bool.false_ne_true)]
  have hlog : (s.exhaust i).log.count .iteratorExhausted = s.log.count .iteratorExhausted + 1 := by
    rw [exhaust_log hi, List.count_append, List.count_singleton_self]
  rw [tally, tally, hlog, hafter, hrest, hbefore]
  omega

theorem tally_take (hi : s.iterators[i]? = some it)
    (ih : ∀ j < i, it.source = .iterator j → tally ids (s.pull j).2 = tally ids s) :
    tally ids (s.take i it).2 = tally ids s := by
  unfold take
  cases hsource : it.source with
  | pairs left =>
    cases left with
    | nil => rfl
    | cons pair left =>
      refine tally_congr rfl ?_
      intro k _
      by_cases hk : i = k
      · subst hk
        have hset : (s.setIterator i { it with source := .pairs left }).iterators[i]? = some { it with source := .pairs left } :=
          List.getElem?_set_self (List.getElem?_eq_some_iff.mp hi).1
        rw [going_eq hset, going_eq hi]
      · have hset : (s.setIterator i { it with source := .pairs left }).iterators[k]? = s.iterators[k]? :=
          List.getElem?_set_ne hk
        rw [going, going, hset]
  | queue q => exact tally_of_iterators (log_nextOfQueue s q) (iterators_nextOfQueue s q)
  | cursor c => exact tally_of_iterators (log_nextOfCursor s c) (iterators_nextOfCursor s c)
  | iterator j =>
    by_cases hj : j < i
    · simp only [hj, if_true]
      exact ih j hj hsource
    · simp only [hj, if_false]

/-- whichever of these iterators is pulled -/
theorem tally_pull (hids : ids.Nodup) (h : s.Within ids) (hmem : i ∈ ids) : tally ids (s.pull i).2 = tally ids s := by
  -- an iterator takes from one before it, so the induction is on the position
  induction i using Nat.strongRecOn with
  | ind i ih =>
    obtain ⟨it, hi, hwithin⟩ := h i hmem
    have htake : it.exhausted = false → tally ids (s.take i it).2 = tally ids s := by
      intro he
      apply tally_take hi
      intro j hj hsource
      rw [he] at hwithin
      exact ih j hj (hwithin.resolve_left Bool.false_ne_true j hsource)
    rcases ask_cases hi with ⟨-, -, hpull⟩ | ⟨he, pair, -, -, hpull⟩ | ⟨he, hfound, -, hpull⟩
    · rw [hpull]
    · rw [hpull]
      exact htake he
    · obtain ⟨hi', -⟩ := runOut_take hi hfound
      have hgoing : (s.take i it).2.going i = true := by rw [going_eq hi', he]; rfl
      rw [hpull]
      exact (tally_exhaust hids hmem hgoing).trans (htake he)

theorem tally_pullUpTo (hids : ids.Nodup) (h : s.Within ids) (hmem : i ∈ ids) (n : Nat) :
    tally ids (pullUpTo n s i).2 = tally ids s := by
  have hkeeps : ∀ t, t.Within ids ∧ tally ids t = tally ids s → (t.pull i).2.Within ids ∧ tally ids (t.pull i).2 = tally ids s :=
    fun t ht => ⟨ht.1.pull i, (tally_pull hids ht.1 hmem).trans ht.2⟩
  exact (pullUpTo_keeps hkeeps ⟨h, rfl⟩ n).2

/-- nothing that is added or written to leaves a record of the kind -/
theorem still_count (n : Nat) : Still fun s => s.log.count .iteratorExhausted = n where
  map _ h := h
  store _ _ h := h
  queue _ _ h := h
  cursor _ _ _ _ _ h _ := h
  iterator _ _ h _ := h
  record s start stop h := by
    rw [record, List.count_append, h]
    rfl
  write _ _ _ _ h _ := h

/-- **One command** that steps none but these iterators. -/
theorem tally_step (hids : ids.Nodup) (h : s.Within ids) (hc : ∀ k, c.steps = some (.iterator k) → k ∈ ids) :
    tally ids (s.step c).2 = tally ids s := by
  cases hsteps : c.steps with
  | none =>
    refine tally_congr ((still_count _).step rfl hsteps) ?_
    intro i hi
    obtain ⟨it, hit, -⟩ := h i hi
    rw [going_eq hit, going_eq ((still_iterator i it).step hit hsteps)]
  | some o =>
    cases c with
    | advance i =>
      rw [step_advance]
      exact tally_pull hids h (hc i rfl)
    | advanceAll i =>
      rw [step_advanceAll]
      exact tally_pullUpTo hids h (hc i rfl) _
    | next o =>
      cases o with
      | queue q => exact tally_of_iterators (log_nextOfQueue s q) (iterators_nextOfQueue s q)
      | cursor c => exact tally_of_iterators (log_nextOfCursor s c) (iterators_nextOfCursor s c)
      | iterator i => exact tally_pull hids h (hc i rfl)
      | map | store => rfl
    | drain o =>
      cases o with
      | cursor c => exact tally_of_iterators (log_drainCursor s c) (iterators_drainCursor s c)
      | iterator i => exact tally_pullUpTo hids h (hc i rfl) (s.supply i + 1)
      | map | store | queue => rfl
    | _ => cases hsteps

/-- **A whole run** that steps none but these iterators. -/
theorem tally_run (hids : ids.Nodup) (h : s.Within ids) {ds : List Command}
    (hds : ∀ c ∈ ds, ∀ k, c.steps = some (.iterator k) → k ∈ ids) : tally ids (s.run ds).2 = tally ids s := by
  induction ds generalizing s with
  | nil => rfl
  | cons c ds ih =>
    calc
      tally ids (s.run (c :: ds)).2 = tally ids (s.step c).2 :=
        ih (h.step c) fun d hd => hds d (List.mem_cons_of_mem c hd)
      _ = tally ids s := tally_step hids h (hds c List.mem_cons_self)

/-- what has not run out has not run out before, and the rest of what had not has run out since -/
theorem countP_going (hids : ∀ k ∈ ids, t.ended k = !t.going k ∧ (t.going k = true → s.going k = true)) :
    ids.countP s.going = ids.countP t.going + ids.countP fun k => s.going k && t.ended k := by
  induction ids with
  | nil => rfl
  | cons k ids ih =>
    obtain ⟨hended, hbefore⟩ := hids k List.mem_cons_self
    rw [List.countP_cons, List.countP_cons, List.countP_cons, ih fun j hj => hids j (List.mem_cons_of_mem k hj), hended]
    cases ht : t.going k with
    | true =>
      rw [hbefore ht]
      simp only [if_true, Bool.not_true, Bool.and_false, Bool.false_eq_true, if_false]
      omega
    | false =>
      simp only [Bool.not_false, Bool.and_true, Bool.false_eq_true, if_false]
      omega

theorem Within.going_run (h : s.Within ids) (ds : List Command) (hk : k ∈ ids) :
    (s.run ds).2.ended k = !(s.run ds).2.going k ∧ ((s.run ds).2.going k = true → s.going k = true) := by
  obtain ⟨it, hi, -⟩ := h k hk
  obtain ⟨it', hi', -⟩ := (stable_prices k it.prices).run ⟨it, hi, rfl⟩ ds
  rw [ended_eq hi', going_eq hi', going_eq hi, Bool.not_not]
  refine ⟨rfl, ?_⟩
  intro he'
  cases he : it.exhausted with
  | false => rfl
  | true =>
    obtain ⟨it'', hi'', he''⟩ := (stable_exhausted k).run ⟨it, hi, he⟩ ds
    cases hi'.symm.trans hi''
    rw [he''] at he'
    cases he'

/-- as many records as iterators that have run out on the way -/
theorem records_run (hids : ids.Nodup) (h : s.Within ids) {ds : List Command}
    (hds : ∀ c ∈ ds, ∀ k, c.steps = some (.iterator k) → k ∈ ids) :
    (s.run ds).2.log.count .iteratorExhausted =
      s.log.count .iteratorExhausted + ids.countP fun k => s.going k && (s.run ds).2.ended k := by
  have htally := tally_run hids h hds
  rw [tally, tally, countP_going fun k hk => h.going_run ds hk] at htally
  omega

/-! ## Chains in a session -/

theorem Chain.within (h : s.Chain base ids) (hbase : ∀ j ∈ base.iterators, s.ended j = true) :
    s.Within (ids ++ base.iterators) := by
  intro k hk
  rcases List.mem_append.mp hk with hk | hk
  · obtain ⟨it, hi, hsource⟩ := h.takes hk
    refine ⟨it, hi, .inr ?_⟩
    intro j hj
    rcases hsource with hsource | ⟨j', hj', hsource⟩
    · rw [← hsource, hj]
      exact List.mem_append_right _ List.mem_cons_self
    · cases hsource.symm.trans hj
      exact List.mem_append_left _ hj'
  · obtain ⟨it, hi, he⟩ := ended_iff.mp (hbase k hk)
    exact ⟨it, hi, .inl he⟩

/-- **Chains of iterators.** If the base of a chain has run out, one call on the outermost iterator answers the mark, at its own
price, and leaves as many records as there are iterators from the outermost inwards that have not run out, up to the first that
has. Over any run in which only these iterators are stepped, as many records are left as iterators have run out in it. -/
theorem chain_records (h : s.Chain base (i :: ids)) (hbase : ∀ j ∈ base.iterators, s.ended j = true) :
    (∀ prices k t, s.step (.newIterator prices (.object (.iterator i))) = (.ok (.made (.iterator k)), t) →
      t.Chain base (k :: i :: ids)) ∧
    (s.Dry base → ∃ it t, s.iterators[i]? = some it ∧
      s.step (.advance i) = (.ok (.item (.exhausted it.prices.iteratorExhausted)), t) ∧ Closed s base (i :: ids) t) ∧
    ∀ ds, (∀ c ∈ ds, ∀ k, c.steps = some (.iterator k) → k ∈ i :: ids) →
      (s.run ds).2.log.count .iteratorExhausted =
        s.log.count .iteratorExhausted + (i :: ids).countP fun k => s.going k && (s.run ds).2.ended k := by
  refine ⟨fun prices k t => h.made, ?_, ?_⟩
  · intro hdry
    obtain ⟨it, hi, -⟩ := h.takes List.mem_cons_self
    refine ⟨it, _, hi, ?_, h.closed hdry⟩
    rw [step_advance_eq hi, Ask.item_eq, given_ask, h.pull hdry]
    rfl
  · intro ds hds
    have hnodup : (i :: ids ++ base.iterators).Nodup := h.pairwise.imp Nat.ne_of_gt
    have hrecords := records_run hnodup (h.within hbase) fun c hc k hk => List.mem_append_left _ (hds c hc k hk)
    have hsilent : (base.iterators.countP fun k => s.going k && (s.run ds).2.ended k) = 0 := by
      rw [List.countP_eq_zero]
      intro j hj
      obtain ⟨it, hi, he⟩ := ended_iff.mp (hbase j hj)
      simp [going_eq hi, he]
    rwa [List.countP_append, hsilent, Nat.add_zero] at hrecords

/-- a chain of four, the inner two of which were drained before; the outer two run out with one call, or one after the other -/
theorem chain_records_drained :
    let s := (empty.run [.newIterator none (.pairs []), .newIterator none (.object (.iterator 0)),
      .newIterator none (.object (.iterator 1)), .newIterator (some (.positional [.int 0, .int 7])) (.object (.iterator 2)),
      .next (.iterator 1)]).2
    s.log = List.replicate 2 .iteratorExhausted ∧ [3, 2, 1, 0].takeWhile s.going = [3, 2] ∧
      (∃ t, s.step (.advance 3) = (.ok (.item (.exhausted 7)), t) ∧ Closed s (.pairs []) [3, 2, 1, 0] t) ∧
      (s.run [.drain (.iterator 2), .advance 1, .advanceAll 3]).2.log.count .iteratorExhausted = 4 := by
  intro s
  have hlog : s.log = List.replicate 2 .iteratorExhausted := by decide +kernel
  have houtermost : s.iterators[3]? = some ⟨⟨0, 7, 1, 1⟩, .iterator 2, false⟩ := by decide +kernel
  have hchain : s.Chain (.pairs []) [3, 2, 1, 0] := by
    refine .link ⟨_, houtermost, rfl⟩ (by decide) (.link ⟨⟨.standard, .iterator 1, false⟩, by decide +kernel, rfl⟩ (by decide)
      (.link ⟨⟨.standard, .iterator 0, true⟩, by decide +kernel, rfl⟩ (by decide)
        (.last ⟨⟨.standard, .pairs [], true⟩, by decide +kernel, rfl⟩ (by simp [Source.iterators]))))
  obtain ⟨-, hcall, hruns⟩ := chain_records hchain (by simp [Source.iterators])
  obtain ⟨it, t, hit, hstep, hclosed⟩ := hcall rfl
  cases houtermost.symm.trans hit
  have hrun := hruns [.drain (.iterator 2), .advance 1, .advanceAll 3] (by simp [Command.steps])
  refine ⟨hlog, by decide +kernel, ⟨t, hstep, hclosed⟩, hrun.trans ?_⟩
  rw [hlog]
  decide +kernel

end Session

end MeteredStore
