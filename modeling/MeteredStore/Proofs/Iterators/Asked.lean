/-
How often an iterator is asked.

An iterator is asked for a pair by those who advance it, and by iterators that were made over it; `asks` tells what each time
was like over a whole run, and `asked` counts the times. Nothing else touches an iterator that is there (`step_makes`):
commands on maps, stores, queues and cursors leave it as it is, and new iterators are added at the end.

Main statements: `At.trace`, what a pull of an iterator carries on from the pulls before it holds after any run, with all the
times it was asked; `At.run`, the same with their number; `Alone.asked`, an iterator that no other was made over is asked just
as often as it is advanced.
-/
import MeteredStore.Proofs.Iterators.Pulling

namespace MeteredStore

/-- the command asks an iterator for pairs -/
def Command.pulls : Command → Bool
  | .advance _ => true
  | .advanceAll _ => true
  | .next (.iterator _) => true
  | .drain (.iterator _) => true
  | _ => false

/-- the command makes an iterator over this one, or asks it for pairs otherwise than by advancing it -/
def Command.taps (i : IteratorId) : Command → Bool
  | .newIterator _ (.object (.iterator j)) => j = i
  | .advanceAll j => j = i
  | .next (.iterator j) => j = i
  | .drain (.iterator j) => j = i
  | _ => false

/-- the command advances this iterator -/
def Command.advances (i : IteratorId) : Command → Bool
  | .advance j => j = i
  | _ => false

/-- one time that an iterator is asked for a pair -/
structure Ask where
  /-- what it got from its source, if it looked there -/
  drawn : Option (Option (Bytes × Bytes))
  /-- what it gave -/
  given : Option (Bytes × Bytes)
  /-- what it logged itself, after whatever its source had logged -/
  logged : List LogRecord
deriving DecidableEq, Repr

namespace Session

variable {s t : Session} {i j : IteratorId} {it : StorageIterator} {c : Command}

/-! ## Counting -/

/-- how often an iterator is asked while another is pulled until nothing is left, at most so many times -/
def askedUpTo (i : IteratorId) : Nat → Session → IteratorId → Nat
  | 0, _, _ => 0
  | n + 1, s, j =>
    (s.comesTo i j).toNat +
      match s.pull j with
      | (none, _) => 0
      | (some _, t) => askedUpTo i n t j

/-- how often a command asks an iterator for a pair -/
def askedBy (s : Session) (i : IteratorId) : Command → Nat
  | .advance j => (s.comesTo i j).toNat
  | .next (.iterator j) => (s.comesTo i j).toNat
  | .advanceAll j => askedUpTo i (s.supply j + 1) s j
  | .drain (.iterator j) => askedUpTo i (s.supply j + 1) s j
  | _ => 0

/-- how often commands in order ask an iterator for a pair -/
def asked (s : Session) (i : IteratorId) : List Command → Nat
  | [] => 0
  | c :: cs => s.askedBy i c + (s.step c).2.asked i cs

theorem asked_append (s : Session) (i : IteratorId) (cs ds : List Command) :
    s.asked i (cs ++ ds) = s.asked i cs + (s.run cs).2.asked i ds := by
  induction cs generalizing s with
  | nil => exact (Nat.zero_add _).symm
  | cons c cs ih =>
    calc
      s.asked i (c :: cs ++ ds) = s.askedBy i c + ((s.step c).2.asked i cs + ((s.step c).2.run cs).2.asked i ds) :=
        congrArg (s.askedBy i c + ·) (ih (s.step c).2)
      _ = s.asked i (c :: cs) + (s.run (c :: cs)).2.asked i ds := (Nat.add_assoc _ _ _).symm

/-! ## What each time was like -/

/-- what the source of an iterator gives when the iterator is asked, unless it has run out -/
def draw (s : Session) (i : IteratorId) : Option (Option (Bytes × Bytes) × Session) :=
  s.iterators[i]?.bind fun it => if it.exhausted then none else some (s.take i it)

/-- what an iterator does when it is asked now -/
def ask (s : Session) (i : IteratorId) : Ask :=
  ⟨(s.draw i).map Prod.fst, (s.pull i).1,
    (s.pull i).2.log.drop (((s.draw i).map fun r => r.2.log).getD s.log).length⟩

/-- what an iterator does when another is pulled -/
def asksAt (s : Session) (i j : IteratorId) : List Ask := if s.comesTo i j then [s.ask i] else []

/-- what it does each time while another is pulled until nothing is left, at most so many times -/
def asksUpTo (i : IteratorId) : Nat → Session → IteratorId → List Ask
  | 0, _, _ => []
  | n + 1, s, j =>
    s.asksAt i j ++
      match s.pull j with
      | (none, _) => []
      | (some _, t) => asksUpTo i n t j

/-- what it does each time that a command asks it for a pair -/
def asksBy (s : Session) (i : IteratorId) : Command → List Ask
  | .advance j => s.asksAt i j
  | .next (.iterator j) => s.asksAt i j
  | .advanceAll j => asksUpTo i (s.supply j + 1) s j
  | .drain (.iterator j) => asksUpTo i (s.supply j + 1) s j
  | _ => []

/-- what it does each time that commands in order ask it for a pair -/
def asks (s : Session) (i : IteratorId) : List Command → List Ask
  | [] => []
  | c :: cs => s.asksBy i c ++ (s.step c).2.asks i cs

theorem length_asksAt (s : Session) (i j : IteratorId) : (s.asksAt i j).length = (s.comesTo i j).toNat := by
  unfold asksAt
  cases s.comesTo i j <;> rfl

theorem length_asksUpTo (i : IteratorId) (n : Nat) (s : Session) (j : IteratorId) :
    (asksUpTo i n s j).length = askedUpTo i n s j := by
  induction n generalizing s with
  | zero => rfl
  | succ n ih =>
    rw [asksUpTo, askedUpTo, List.length_append, length_asksAt]
    rcases s.pull j with ⟨found, t⟩
    cases found with
    | none => rfl
    | some pair => exact congrArg _ (ih t)

theorem length_asksBy (s : Session) (i : IteratorId) (c : Command) : (s.asksBy i c).length = s.askedBy i c := by
  cases c with
  | advance j => exact length_asksAt s i j
  | advanceAll j => exact length_asksUpTo i _ s j
  | next o =>
    cases o with
    | iterator j => exact length_asksAt s i j
    | map | store | queue | cursor => rfl
  | drain o =>
    cases o with
    | iterator j => exact length_asksUpTo i _ s j
    | map | store | queue | cursor => rfl
  | _ => rfl

/-- as many times as there are to tell of -/
theorem length_asks (s : Session) (i : IteratorId) (cs : List Command) : (s.asks i cs).length = s.asked i cs := by
  induction cs generalizing s with
  | nil => rfl
  | cons c cs ih => rw [asks, asked, List.length_append, length_asksBy, ih]

/-! ## Commands that pull nothing -/

/-- the iterators that are there stay as they are, and new ones are added at the end, over another if the command says so -/
def Makes (s : Session) (c : Command) (t : Session) : Prop :=
  ∃ more, t.iterators = s.iterators ++ more ∧ ∀ it ∈ more, ∀ i, it.source = .iterator i → c.taps i = true

theorem makes_none (h : t.iterators = s.iterators) : Makes s c t := ⟨[], by rw [h, List.append_nil], by simp⟩

theorem makes_one (h : t.iterators = s.iterators ++ [it]) (hit : ∀ i, it.source = .iterator i → c.taps i = true) :
    Makes s c t := by
  refine ⟨[it], h, ?_⟩
  intro it' hit'
  rw [List.mem_singleton.mp hit']
  exact hit

theorem makes_of_attempt (h : ∀ a t, s.attempt c = .ok (a, t) → Makes s c t) : Makes s c (s.step c).2 := by
  unfold step
  split
  · exact makes_none rfl
  · next a t ht => exact h a t ht

/-- a command that looks something up, and then leaves the iterators as they are -/
theorem makes_of_bind {α : Type} {x : Except Refusal α} {f : α → Except Refusal (Answer × Session)}
    (h : s.attempt c = x >>= f) (hf : ∀ v a t, x = .ok v → f v = .ok (a, t) → t.iterators = s.iterators) :
    Makes s c (s.step c).2 := by
  apply makes_of_attempt
  intro a t ht
  rw [h] at ht
  obtain ⟨v, hv, ht⟩ := exists_of_bind ht
  exact makes_none (hf v a t hv ht)

theorem makes_of_find {α : Type} {x : Except Refusal α} {f : α → Answer × Session}
    (h : s.attempt c = x >>= fun v => Except.ok (f v)) (hf : ∀ v, (f v).2.iterators = s.iterators) :
    Makes s c (s.step c).2 := by
  apply makes_of_bind h
  intro v a t _ hv
  rw [← hf v, Except.ok.inj hv]

theorem iterators_newCursor {m : MapId} {b : Bounds} {d : Direction} {c : CursorId} (h : s.newCursor m b d = .ok (c, t)) :
    t.iterators = s.iterators := by
  unfold newCursor at h
  obtain ⟨m, -, h⟩ := exists_of_bind h
  cases h
  rfl

theorem iterators_walk {o : Object} {c : CursorId} (h : s.walk o = .ok (c, t)) : t.iterators = s.iterators := by
  unfold walk at h
  obtain ⟨i, -, h⟩ := exists_of_bind h
  exact iterators_newCursor h

theorem sourceOf_spec {f : Supplier} {source : Source} (h : s.sourceOf f = .ok (source, t)) :
    t.iterators = s.iterators ∧ ∀ i, source = .iterator i → f = .object (.iterator i) := by
  rcases sourceOf_cases h with ⟨rfl, hsupplier⟩ | ⟨o, c, hw, rfl⟩
  · exact ⟨rfl, hsupplier⟩
  · exact ⟨iterators_walk hw, by simp⟩

theorem iterators_newStore {p : StorePrices} {map : Option MapId} {i : StoreId} (h : s.newStore p map = .ok (i, t)) :
    t.iterators = s.iterators := by
  unfold newStore at h
  obtain ⟨p, -, h⟩ := exists_of_bind h
  split at h
  · cases h
    rfl
  · obtain ⟨m, -, h⟩ := exists_of_bind h
    split at h
    · cases h
      rfl
    · cases h

theorem iterators_drainCursor (s : Session) (c : CursorId) : (s.drainCursor c).2.iterators = s.iterators := by
  unfold drainCursor
  split
  · rfl
  · split
    · rfl
    · rfl

theorem log_drainCursor (s : Session) (c : CursorId) : (s.drainCursor c).2.log = s.log := by
  unfold drainCursor
  split
  · rfl
  · split
    · rfl
    · rfl

/-- commands that ask no iterator for pairs leave those there are as they are -/
theorem step_makes (s : Session) (h : c.pulls = false) : Makes s c (s.step c).2 := by
  cases c with
  | newMap | newQueue => exact makes_none rfl
  | newStore prices map =>
    apply makes_of_bind rfl
    intro r a t hr h
    cases h
    exact iterators_newStore hr
  | newIterator prices supplier =>
    apply makes_of_attempt
    intro a t h
    unfold attempt at h
    obtain ⟨p, -, h⟩ := exists_of_bind h
    obtain ⟨r, hr, h⟩ := exists_of_bind h
    cases h
    obtain ⟨hsame, hsupplier⟩ := sourceOf_spec hr
    refine makes_one (congrArg (· ++ _) hsame) ?_
    intro i hi
    simp [hsupplier i hi, Command.taps]
  | newExhausted prices =>
    apply makes_of_attempt
    intro a t h
    unfold attempt at h
    obtain ⟨p, -, h⟩ := exists_of_bind h
    cases h
    exact makes_one rfl (by simp)
  | range store start stop order =>
    apply makes_of_attempt
    intro a t h
    unfold attempt at h
    obtain ⟨x, -, h⟩ := exists_of_bind h
    obtain ⟨r, -, h⟩ := exists_of_bind h
    cases h
    cases r with
    | inverted start stop => exact makes_one rfl (by simp)
    | snapshot pairs => exact makes_one rfl (by simp)
  | newCursor map bounds order =>
    apply makes_of_bind rfl
    intro d a t _ h
    obtain ⟨r, hr, h⟩ := exists_of_bind h
    cases h
    exact iterators_newCursor hr
  | walk through =>
    apply makes_of_bind rfl
    intro r a t hr h
    cases h
    exact iterators_walk hr
  -- the rest look up a map or store, and answer or write to the map
  | delete map key =>
    exact makes_of_find (f := fun m : SortedMap => (.flag (m.erase key).1, s.setMap map (m.erase key).2)) rfl fun _ => rfl
  | put | lookup | mapSize | tree | storeSize | items | describe | prices | isExhausted =>
    exact makes_of_find rfl fun _ => rfl
  | get | set | remove | has =>
    apply makes_of_bind rfl
    intro x a t _ h
    obtain ⟨r, -, h⟩ := exists_of_bind h
    cases h
    rfl
  | advance | advanceAll => cases h
  | next o =>
    cases o with
    | queue q => exact makes_none (iterators_nextOfQueue s q)
    | cursor c => exact makes_none (iterators_nextOfCursor s c)
    | iterator => cases h
    | map | store => exact makes_none rfl
  | drain o =>
    cases o with
    | cursor c => exact makes_none (iterators_drainCursor s c)
    | iterator => cases h
    | map | store | queue => exact makes_none rfl

theorem asksBy_of_not_pulls (h : c.pulls = false) : s.asksBy i c = [] := by
  cases c with
  | advance | advanceAll => cases h
  | next o | drain o =>
    cases o with
    | iterator => cases h
    | _ => rfl
  | _ => rfl

/-! ## Commands that pull -/

theorem step_advance (s : Session) (j : IteratorId) : (s.step (.advance j)).2 = (s.pull j).2 := by
  cases hj : s.iterators[j]? with
  | none => simp only [step, attempt, advance, hj, pull_of_none hj]
  | some it => simp only [step, attempt, advance, hj]

theorem step_advanceAll (s : Session) (j : IteratorId) : (s.step (.advanceAll j)).2 = (s.pullAll j).2 := by
  cases hj : s.iterators[j]? with
  | none => simp only [step, attempt, advanceAll, hj, pullAll, pullUpTo, pull_of_none hj]
  | some it => simp only [step, attempt, advanceAll, hj]

/-- one pull is pulling at most once -/
theorem pullUpTo_one (s : Session) (j : IteratorId) :
    (pullUpTo 1 s j).2 = (s.pull j).2 ∧ asksUpTo i 1 s j = s.asksAt i j := by
  rw [pullUpTo, asksUpTo]
  rcases s.pull j with ⟨found, t⟩
  cases found with
  | none => exact ⟨rfl, List.append_nil _⟩
  | some pair => exact ⟨rfl, List.append_nil _⟩

/-- commands that ask for pairs pull one iterator, some number of times -/
theorem step_pulls (s : Session) (h : c.pulls = true) :
    ∃ m j, (s.step c).2 = (pullUpTo m s j).2 ∧ s.asksBy i c = asksUpTo i m s j := by
  cases c with
  | advance j =>
    obtain ⟨hstate, hasked⟩ := pullUpTo_one (i := i) s j
    exact ⟨1, j, (step_advance s j).trans hstate.symm, hasked.symm⟩
  | advanceAll j => exact ⟨s.supply j + 1, j, step_advanceAll s j, rfl⟩
  | next o =>
    cases o with
    | iterator j =>
      obtain ⟨hstate, hasked⟩ := pullUpTo_one (i := i) s j
      exact ⟨1, j, hstate.symm, hasked.symm⟩
    | map | store | queue | cursor => cases h
  | drain o =>
    cases o with
    | iterator j => exact ⟨s.supply j + 1, j, rfl, rfl⟩
    | map | store | queue | cursor => cases h
  | _ => cases h

/-! ## What pulls carry on -/

/-- there is such an iterator, and it has the property -/
def At (s : Session) (i : IteratorId) (P : StorageIterator → Prop) : Prop := ∃ it, s.iterators[i]? = some it ∧ P it

/-- a pull of the iterator leads from what it has after some pulls to what it has after one more -/
def Traces (i : IteratorId) (P : List Ask → StorageIterator → Prop) : Prop :=
  ∀ s l, At s i (P l) → (s.pull i).2.At i (P (l ++ [s.ask i]))

/-- the same for what only the number of pulls tells -/
def Carries (i : IteratorId) (P : Nat → StorageIterator → Prop) : Prop :=
  ∀ s n, At s i (P n) → (s.pull i).2.At i (P (n + 1))

section Traces

variable {P : List Ask → StorageIterator → Prop} {l : List Ask}

theorem At.of_makes {P : StorageIterator → Prop} (h : s.At i P) (hst : Makes s c t) : t.At i P := by
  obtain ⟨it, hi, hit⟩ := h
  obtain ⟨more, hmore, -⟩ := hst
  obtain ⟨hlt, -⟩ := List.getElem?_eq_some_iff.mp hi
  refine ⟨it, ?_, hit⟩
  rw [hmore, List.getElem?_append_left hlt, hi]

theorem At.trace_pull (h : s.At i (P l)) (hP : Traces i P) (j : IteratorId) :
    (s.pull j).2.At i (P (l ++ s.asksAt i j)) := by
  have hj := getElem?_pull s i j
  unfold asksAt
  cases hc : s.comesTo i j with
  | false =>
    rw [hc, if_neg (by simp)] at hj
    obtain ⟨it, hi, hit⟩ := h
    exact ⟨it, hj.trans hi, by rwa [if_neg (by simp), List.append_nil]⟩
  | true =>
    rw [hc, if_pos rfl] at hj
    obtain ⟨it, hi, hit⟩ := hP s l h
    exact ⟨it, hj.trans hi, hit⟩

theorem At.trace_pullUpTo (h : s.At i (P l)) (hP : Traces i P) (m : Nat) (j : IteratorId) :
    (pullUpTo m s j).2.At i (P (l ++ asksUpTo i m s j)) := by
  induction m generalizing s l with
  | zero => rwa [asksUpTo, List.append_nil]
  | succ m ih =>
    have hpull := h.trace_pull hP j
    rw [Session.pullUpTo, asksUpTo]
    rcases hr : s.pull j with ⟨found, t⟩
    rw [hr] at hpull
    cases found with
    | none => rwa [List.append_nil]
    | some pair =>
      rw [← List.append_assoc]
      exact ih hpull

theorem At.trace_step (h : s.At i (P l)) (hP : Traces i P) (c : Command) :
    (s.step c).2.At i (P (l ++ s.asksBy i c)) := by
  cases hc : c.pulls with
  | false =>
    rw [asksBy_of_not_pulls hc, List.append_nil]
    exact h.of_makes (step_makes s hc)
  | true =>
    obtain ⟨m, j, hstate, hasks⟩ := step_pulls (i := i) s hc
    rw [hstate, hasks]
    exact h.trace_pullUpTo hP m j

/-- **A whole run.** What a pull of an iterator carries on is so after any commands, with all that it did when they asked the
iterator. -/
theorem At.trace (h : s.At i (P l)) (hP : Traces i P) (cs : List Command) : (s.run cs).2.At i (P (l ++ s.asks i cs)) := by
  induction cs generalizing s l with
  | nil => rwa [asks, List.append_nil]
  | cons c cs ih =>
    rw [asks, ← List.append_assoc]
    exact ih (h.trace_step hP c)

end Traces

variable {P : Nat → StorageIterator → Prop} {n : Nat}

theorem Carries.traces (hP : Carries i P) (n : Nat) : Traces i fun l => P (n + l.length) := by
  intro s l h
  have hlength : n + (l ++ [s.ask i]).length = n + l.length + 1 := by rw [List.length_append, ← Nat.add_assoc]; rfl
  show (s.pull i).2.At i (P (n + (l ++ [s.ask i]).length))
  rw [hlength]
  exact hP s _ h

theorem At.step (h : s.At i (P n)) (hP : Carries i P) (c : Command) : (s.step c).2.At i (P (n + s.askedBy i c)) := by
  have hstep := At.trace_step (l := []) h (hP.traces n) c
  rwa [List.nil_append, length_asksBy] at hstep

/-- what only the number of pulls tells is so after any commands, with the number of times that they asked the iterator -/
theorem At.run (h : s.At i (P n)) (hP : Carries i P) (cs : List Command) : (s.run cs).2.At i (P (n + s.asked i cs)) := by
  have hrun := At.trace (l := []) h (hP.traces n) cs
  rwa [List.nil_append, length_asks] at hrun

/-! ## An iterator that no other was made over -/

theorem Alone.askedUpTo (h : s.Alone i) (hne : j ≠ i) (n : Nat) : askedUpTo i n s j = 0 := by
  induction n generalizing s with
  | zero => rfl
  | succ n ih =>
    have hpull := h.pull j
    rw [Session.askedUpTo, h.comesTo hne]
    rcases hr : s.pull j with ⟨found, t⟩
    rw [hr] at hpull
    cases found with
    | none => rfl
    | some pair => simpa using ih hpull

theorem Alone.step (h : s.Alone i) (hc : c.taps i = false) : (s.step c).2.Alone i := by
  cases hp : c.pulls with
  | false =>
    obtain ⟨more, hmore, hnew⟩ := step_makes s hp
    intro j it hj hsource
    rw [hmore, List.getElem?_append] at hj
    split at hj
    · exact h j it hj hsource
    · rw [hnew it (List.mem_of_getElem? hj) i hsource] at hc
      cases hc
  | true =>
    obtain ⟨m, j, hstate, -⟩ := step_pulls (i := i) s hp
    rw [hstate]
    exact pullUpTo_keeps (Q := fun t => t.Alone i) (fun _ h => h.pull j) h m

theorem Alone.askedBy (h : s.Alone i) (hi : s.iterators[i]? = some it) {c : Command} (hc : c.taps i = false) :
    s.askedBy i c = (c.advances i).toNat := by
  cases c with
  | advance j =>
    by_cases hj : j = i
    · subst hj
      simp [Session.askedBy, Command.advances, comesTo_self hi]
    · simp [Session.askedBy, Command.advances, hj, h.comesTo hj]
  | advanceAll j =>
    have hj : j ≠ i := by simpa [Command.taps] using hc
    exact h.askedUpTo hj _
  | next o =>
    cases o with
    | iterator j =>
      have hj : j ≠ i := by simpa [Command.taps] using hc
      simp [Session.askedBy, Command.advances, h.comesTo hj]
    | map | store | queue | cursor => rfl
  | drain o =>
    cases o with
    | iterator j =>
      have hj : j ≠ i := by simpa [Command.taps] using hc
      exact h.askedUpTo hj _
    | map | store | queue | cursor => rfl
  | _ => rfl

/-- an iterator that no other was made over is asked just as often as it is advanced -/
theorem Alone.asked (h : s.Alone i) (hi : s.At i (P n)) (hP : Carries i P) {cs : List Command}
    (hcs : ∀ c ∈ cs, c.taps i = false) : s.asked i cs = cs.countP (Command.advances i) := by
  induction cs generalizing s n with
  | nil => rfl
  | cons c cs ih =>
    have hc : c.taps i = false := hcs c List.mem_cons_self
    have hrest : (s.step c).2.asked i cs = cs.countP (Command.advances i) :=
      ih (h.step hc) (hi.step hP c) fun d hd => hcs d (List.mem_cons_of_mem c hd)
    obtain ⟨it, hit, -⟩ := hi
    rw [Session.asked, h.askedBy hit hc, hrest, List.countP_cons, Nat.add_comm]
    cases c.advances i <;> rfl

end Session

end MeteredStore
