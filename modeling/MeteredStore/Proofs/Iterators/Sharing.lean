/-
Iterators that share what they take from.

Whoever of a family is asked, and however long the way down, it gets what the one at the bottom has next
(`Common.served_pull`), so that the family hands over, all together, what there was at the bottom (`Common.run_handed`). Who
finds that nothing is left has found it there, and then nobody has anything left (`Common.step_ends`).

Main statement: `shared_source`, whoever is asked in whichever order, the pairs that are handed over are the first ones of a
fixed list, and all of them as soon as anybody says that nothing is left. Who advances an iterator is charged by the prices of
that one (`Shares`).
-/
import MeteredStore.Proofs.Iterators.Families
import MeteredStore.Proofs.Iterators.Lifecycle

namespace MeteredStore

/-- the object that a command is called on -/
def Command.on : Command → Option Object
  | .isExhausted i => some (.iterator i)
  | c => c.steps

/-- the pair that an item has, if it is not the mark -/
def Item.keyValue? (i : Item) : Option (Bytes × Bytes) := i.pair?.bind fun q => q.2.map fun value => (q.1, value)

namespace Answer

/-- the pairs that an answer hands over -/
def gives : Answer → List (Bytes × Bytes)
  | .item i => i.keyValue?.toList
  | .items is => is.filterMap Item.keyValue?
  | .pair p => p.toList
  | .pairs ps => ps
  | _ => []

/-- the answer says that nothing is left -/
def ends : Answer → Bool
  | .item i => i.isExhausted
  | .items _ => true
  | .pair p => p.isNone
  | .pairs _ => true
  | .flag b => b
  | _ => false

end Answer

namespace Session

variable {s t : Session} {o x : Object} {i j : IteratorId} {it : StorageIterator} {c : Command} {L : List (Bytes × Bytes)}

theorem keyValue?_price (p : Prices) (found : Option (Bytes × Bytes)) : (price p found).keyValue? = found := by
  cases found <;> rfl

theorem isExhausted_price (p : Prices) (found : Option (Bytes × Bytes)) :
    (price p found).isExhausted = found.isNone := by
  cases found <;> rfl

/-! ## One pair -/

/-- who does not rest on an object takes nothing from there, and who does gets what it has next -/
structure Served (s : Session) (o : Object) (L : List (Bytes × Bytes)) (asked : Bool)
    (r : Option (Bytes × Bytes) × Session) : Prop where
  found : asked = true → r.1 = L.head?
  has : r.2.Has (if asked then L.tail else L) o

/-- to ask one object: it is the one at the bottom, or nothing is taken from there -/
theorem served_of {r : Option (Bytes × Bytes) × Session} (hself : x = o → r.1 = L.head? ∧ r.2.Has L.tail o)
    (hother : x ≠ o → r.2.Has L o) : Served s o L (decide (x = o)) r := by
  by_cases hx : x = o
  · rw [decide_eq_true hx]
    exact ⟨fun _ => (hself hx).1, (hself hx).2⟩
  · rw [decide_eq_false hx]
    exact ⟨by simp, hother hx⟩

theorem served_nextOfQueue (hL : s.Has L o) (q : QueueId) : Served s o L (decide (.queue q = o)) (s.nextOfQueue q) := by
  apply served_of
  · rintro rfl
    exact hL.nextOfQueue
  · intro hne
    refine hL.congr (nextOfQueue_kept s q).maps ?_ (fun c _ => by rw [cursors_nextOfQueue])
      fun b _ => by rw [iterators_nextOfQueue]
    rintro r rfl
    exact getElem?_nextOfQueue fun hr => hne (congrArg Object.queue hr)

theorem served_nextOfCursor (hL : s.Has L o) (c : CursorId) :
    Served s o L (decide (.cursor c = o)) (s.nextOfCursor c) := by
  apply served_of
  · rintro rfl
    exact hL.nextOfCursor
  · intro hne
    refine hL.congr (nextOfCursor_kept s c).maps (fun q _ => by rw [queues_nextOfCursor]) ?_
      fun b _ => by rw [iterators_nextOfCursor]
    rintro d rfl
    exact getElem?_nextOfCursor fun hd => hne (congrArg Object.cursor hd)

theorem served_take (hL : s.Has L o) (hj : s.iterators[j]? = some it) (hne : o ≠ .iterator j)
    (ih : ∀ k < j, Served s o L (s.rests o k) (s.pull k)) : Served s o L (s.rests o j) (s.take j it) := by
  rw [rests_eq hj hne]
  unfold take
  cases hsource : it.source with
  | pairs left =>
    cases left with
    | nil => exact ⟨by simp, hL⟩
    | cons pair left =>
      refine ⟨by simp, hL.congr rfl (fun _ _ => rfl) (fun _ _ => rfl) ?_⟩
      rintro b rfl
      exact List.getElem?_set_ne fun hb => hne (congrArg Object.iterator hb.symm)
  | queue q => exact served_nextOfQueue hL q
  | cursor c => exact served_nextOfCursor hL c
  | iterator k =>
    by_cases hk : k < j
    · simp only [hk, if_true]
      exact ih k hk
    · simp only [hk, if_false]
      exact ⟨by simp, hL⟩

/-- **One pair.** Whoever of a family is asked, over however many others it was made: it gets what the one at the bottom has
next. To ask anybody else takes nothing away. -/
theorem Common.served_pull (h : s.Common o) (hL : s.Has L o) (j : IteratorId) : Served s o L (s.rests o j) (s.pull j) := by
  -- an iterator takes from one before it, so the induction is on the position
  induction j using Nat.strongRecOn with
  | ind j ih =>
    by_cases hne : o = .iterator j
    · subst hne
      obtain ⟨hfound, hhas⟩ := hL.pull
      rw [rests_self]
      exact ⟨fun _ => hfound, hhas⟩
    · cases hj : s.iterators[j]? with
      | none =>
        rw [rests_of_none hj hne, pull_of_none hj]
        exact ⟨by simp, hL⟩
      | some it =>
        cases he : it.exhausted with
        | true =>
          rw [pull_of_exhausted hj he]
          cases hrests : s.rests o j with
          | false => exact ⟨by simp, hL⟩
          | true =>
            obtain rfl := hL.nil_of_finished (h.spent j it hj hrests he)
            exact ⟨fun _ => rfl, hL⟩
        | false =>
          have htake := served_take hL hj hne ih
          rw [pull_eq hj he]
          rcases hr : s.take j it with ⟨found, t⟩
          rw [hr] at htake
          cases found with
          | some pair => exact htake
          | none =>
            refine ⟨htake.found, htake.has.congr (exhaust_kept t j).maps (fun q _ => congrArg (·[q]?) (queues_exhaust t j))
              (fun d _ => congrArg (·[d]?) (cursors_exhaust t j)) ?_⟩
            rintro b rfl
            exact getElem?_exhaust fun hb => hne (congrArg Object.iterator hb.symm)

/-! ## One object after the other -/

/-- one step of an object -/
def nextOf (s : Session) : Object → Option (Bytes × Bytes) × Session
  | .queue q => s.nextOfQueue q
  | .cursor c => s.nextOfCursor c
  | .iterator i => s.pull i
  | _ => (none, s)

theorem stable_nextOf {Q : Session → Prop} (hQ : Stable Q) (h : Q s) (x : Object) : Q (s.nextOf x).2 := by
  cases x with
  | queue q => exact hQ.nextOfQueue h q
  | cursor c => exact hQ.next s c h
  | iterator i => exact hQ.pull h i
  | map | store => exact h

theorem family_nextOf (s : Session) (y o x : Object) : (s.nextOf y).2.family o x = s.family o x := by
  cases x with
  | iterator j =>
    cases y with
    | iterator i => exact rests_pull s i o j
    | queue q => exact rests_congr fun k _ => by rw [nextOf, feeds, feeds, iterators_nextOfQueue]
    | cursor c => exact rests_congr fun k _ => by rw [nextOf, feeds, feeds, iterators_nextOfCursor]
    | map | store => rfl
  | map | store | queue | cursor => rfl

theorem Common.served_nextOf (h : s.Common o) (hL : s.Has L o) (x : Object) : Served s o L (s.family o x) (s.nextOf x) := by
  cases x with
  | iterator j => exact h.served_pull hL j
  | queue q => exact served_nextOfQueue hL q
  | cursor c => exact served_nextOfCursor hL c
  | map | store =>
    cases o with
    | map | store => exact hL.elim
    | queue | cursor | iterator => exact ⟨by simp [family], hL⟩

/-- when one of a family gives nothing, the bottom has finished -/
theorem Common.finished_of_nextOf (h : (s.nextOf x).2.Common o) (hfamily : (s.nextOf x).2.family o x = true)
    (hx : (s.nextOf x).1 = none) : (s.nextOf x).2.Finished o := by
  cases x with
  | iterator j =>
    obtain ⟨it, hj⟩ := exists_of_rests h.based hfamily
    exact h.spent j it hj hfamily (exhausted_of_pull hx hj)
  | queue q =>
    obtain rfl := of_decide_eq_true hfamily
    obtain ⟨left, hq⟩ := h.based
    have hleft : (s.nextOfQueue q).2.queues[q]?.getD [] = [] := runOut_nextOfQueue hx 0
    rw [nextOf] at hq
    rw [hq, Option.getD_some] at hleft
    rw [hleft] at hq
    exact hq
  | cursor c =>
    obtain rfl := of_decide_eq_true hfamily
    obtain ⟨l, hl⟩ := h.based
    obtain ⟨m, hm, -⟩ := h.reached.cursors l (List.mem_of_getElem? hl)
    rcases runOut_nextOfCursor hx 0 l hl with hnone | hstack
    · rw [nextOf] at hm
      rw [hm] at hnone
      cases hnone
    · exact ⟨l, hl, hstack⟩
  | map | store =>
    obtain rfl := of_decide_eq_true hfamily
    exact h.based.elim

/-- whoever takes all that is left gets it if it is of the family, and else takes nothing away -/
theorem Common.served_all (h : s.Common o) (hL : s.Has L o) {pairs : List (Bytes × Bytes)}
    (hy : Yields (fun s => s.nextOf x) s pairs t) :
    (s.family o x = true → pairs = L ∧ t.Finished o) ∧ t.Has (if s.family o x then [] else L) o := by
  induction hy generalizing L with
  | @done s t hs =>
    have hserved := h.served_nextOf hL x
    have hnext := stable_nextOf (stable_common o) h x
    have hfamily := family_nextOf s x o x
    have hend := hnext.finished_of_nextOf
    rw [hs] at hserved hfamily hend
    obtain ⟨hfound, hhas⟩ := hserved
    cases hx : s.family o x with
    | false =>
      rw [hx] at hhas
      exact ⟨by simp, hhas⟩
    | true =>
      rw [hx] at hhas hfamily
      obtain rfl : L = [] := List.head?_eq_none_iff.mp (hfound hx).symm
      exact ⟨fun _ => ⟨rfl, hend hfamily rfl⟩, hhas⟩
  | @more s t u pair pairs hs _ ih =>
    have hserved := h.served_nextOf hL x
    have hnext := stable_nextOf (stable_common o) h x
    have hfamily := family_nextOf s x o x
    rw [hs] at hserved hnext hfamily
    obtain ⟨hfound, hhas⟩ := hserved
    obtain ⟨hpairs, hrest⟩ := ih hnext hhas
    rw [hfamily] at hpairs hrest
    cases hx : s.family o x with
    | false =>
      rw [hx] at hrest
      exact ⟨by simp, hrest⟩
    | true =>
      rw [hx] at hrest hpairs
      have hhead : L.head? = some pair := (hfound hx).symm
      obtain ⟨hall, hend⟩ := hpairs rfl
      exact ⟨fun _ => ⟨hall ▸ List.cons_head?_tail hhead, hend⟩, hrest⟩

/-! ## Commands -/

/-- the pairs that a command hands over from the family -/
def handedBy (s : Session) (o : Object) (c : Command) : List (Bytes × Bytes) :=
  match c.steps, (s.step c).1 with
  | some x, .ok a => if s.family o x then a.gives else []
  | _, _ => []

/-- the pairs that commands in order hand over from the family -/
def handed (s : Session) (o : Object) : List Command → List (Bytes × Bytes)
  | [] => []
  | c :: cs => s.handedBy o c ++ (s.step c).2.handed o cs

/-- what a command that steps an object does: it takes the next pair, or all that are left -/
inductive Stepped (s : Session) (x : Object) : List (Bytes × Bytes) → Bool → Session → Prop where
  | one : Stepped s x (s.nextOf x).1.toList (s.nextOf x).1.isNone (s.nextOf x).2
  | all {pairs : List (Bytes × Bytes)} {t : Session} (h : Yields (fun s => s.nextOf x) s pairs t) : Stepped s x pairs true t

/-- what is stepped when a command is answered -/
theorem Reached.stepped (h : s.Reached) (hc : c.steps = some x) {a : Answer} (ha : (s.step c).1 = .ok a) :
    Stepped s x a.gives a.ends (s.step c).2 := by
  cases c with
  | advance j =>
    cases hc
    cases hj : s.iterators[j]? with
    | none =>
      simp only [step, attempt, advance, hj] at ha
      cases ha
    | some it =>
      rw [step_advance_eq hj, Ask.item_eq, given_ask] at ha ⊢
      cases ha
      rw [Answer.gives, Answer.ends, keyValue?_price, isExhausted_price]
      exact .one
  | advanceAll j =>
    cases hc
    cases hj : s.iterators[j]? with
    | none =>
      simp only [step, attempt, advanceAll, hj] at ha
      cases ha
    | some it =>
      rw [step_advanceAll_eq hj] at ha ⊢
      cases ha
      have hgives : (Answer.items ((s.pullAll j).1.map (fun pair => price it.prices (some pair)) ++
          [price it.prices none])).gives = (s.pullAll j).1 := by
        rw [Answer.gives, List.filterMap_append, List.filterMap_map]
        simp [keyValue?_price]
      rw [hgives]
      exact .all (h.pullAll_yields j)
  | next =>
    cases hc
    cases x with
    | map | store => cases ha
    | queue | cursor | iterator =>
      cases ha
      exact .one
  | drain =>
    cases hc
    cases x with
    | map | store => cases ha
    | queue q =>
      cases ha
      exact .all (s.drainQueue_yields q)
    | cursor c =>
      cases ha
      exact .all (h.drainCursor_yields c)
    | iterator j =>
      cases ha
      exact .all (h.pullAll_yields j)
  | _ => cases hc

theorem Common.stepped (h : s.Common o) (hL : s.Has L o) {pairs : List (Bytes × Bytes)} {ended : Bool}
    (hs : Stepped s x pairs ended t) :
    ∃ left, L = (if s.family o x then pairs else []) ++ left ∧ t.Has left o ∧
      (s.family o x = true → ended = true → t.Finished o) := by
  cases hs with
  | one =>
    obtain ⟨hfound, hhas⟩ := h.served_nextOf hL x
    refine ⟨_, ?_, hhas, ?_⟩
    · cases hx : s.family o x with
      | false => rfl
      | true =>
        rw [hfound hx]
        cases L <;> rfl
    · intro hx hnone
      have hnext := stable_nextOf (stable_common o) h x
      exact hnext.finished_of_nextOf ((family_nextOf s x o x).trans hx) (Option.isNone_iff_eq_none.mp hnone)
  | all hy =>
    obtain ⟨hpairs, hhas⟩ := h.served_all hL hy
    refine ⟨_, ?_, hhas, ?_⟩
    · cases hx : s.family o x with
      | false => rfl
      | true =>
        rw [(hpairs hx).1]
        exact (List.append_nil L).symm
    · intro hx _
      exact (hpairs hx).2

/-! ## Runs -/

/-- if it is a cursor, then the map that it walks is the same after each of the commands -/
def Unwritten (s : Session) (o : Object) (cs : List Command) : Prop :=
  ∀ c l, o = .cursor c → s.cursors[c]? = some l → ∀ n ≤ cs.length, (s.run (cs.take n)).2.maps[l.map]? = s.maps[l.map]?

theorem Unwritten.tail {cs : List Command} (h : s.Unwritten o (c :: cs)) (hbased : s.Based o) :
    s.Unwritten o [c] ∧ (s.step c).2.Unwritten o cs := by
  refine ⟨?_, ?_⟩
  · intro d l ho hl n hn
    cases n with
    | zero => rfl
    | succ n =>
      obtain rfl : n = 0 := Nat.le_zero.mp (Nat.le_of_succ_le_succ hn)
      exact h d l ho hl 1 (Nat.succ_le_succ (Nat.zero_le _))
  · rintro d l' rfl hl' n hn
    obtain ⟨l, hl⟩ := hbased
    obtain ⟨l'', hl'', hmap⟩ := (stable_walk (P := fun l' => l'.map = l.map) d fun _ _ h => h).step ⟨l, hl, rfl⟩ c
    obtain rfl := Option.some.inj (hl'.symm.trans hl'')
    have hfirst := h d l rfl hl 1 (Nat.succ_le_succ (Nat.zero_le _))
    have hlater := h d l rfl hl (n + 1) (Nat.succ_le_succ hn)
    rw [hmap]
    exact hlater.trans hfirst.symm

/-- commands that step nothing leave what there is -/
theorem Has.step_still (hL : s.Has L o) (hc : c.steps = none) (hq : s.Unwritten o [c]) : (s.step c).2.Has L o := by
  cases o with
  | queue q => exact (still_queue q L).step hL hc
  | cursor d =>
    obtain ⟨l, m, e, hl, hm, hy⟩ := hL
    exact ⟨l, m, e, (still_cursor d l).step hl hc, (hq d l rfl hl 1 (Nat.le_refl 1)).trans hm, hy⟩
  | iterator b =>
    obtain ⟨it, hb, hit⟩ := hL
    exact ⟨it, (still_iterator b it).step hb hc, hit⟩
  | map | store => exact hL

/-- **One command.** What it hands over from the family is what comes first. -/
theorem Common.step_handed (h : s.Common o) (hL : s.Has L o) (c : Command) :
    ∃ left, L = s.handedBy o c ++ left ∧ (s.Unwritten o [c] → (s.step c).2.Has left o) := by
  cases hc : c.steps with
  | none =>
    refine ⟨L, ?_, hL.step_still hc⟩
    simp only [handedBy, hc, List.nil_append]
  | some x =>
    cases ha : (s.step c).1 with
    | error r =>
      refine ⟨L, ?_, fun _ => by rwa [step_refused ha]⟩
      simp only [handedBy, hc, ha, List.nil_append]
    | ok a =>
      obtain ⟨left, hleft, hhas, -⟩ := h.stepped hL (h.reached.stepped hc ha)
      refine ⟨left, ?_, fun _ => hhas⟩
      simpa only [handedBy, hc, ha] using hleft

/-- **A whole run.** What a family hands over comes first of what there was, and the rest is left. -/
theorem Common.run_handed (h : s.Common o) (hL : s.Has L o) {cs : List Command} (hq : s.Unwritten o cs) :
    ∃ left, L = s.handed o cs ++ left ∧ (s.run cs).2.Has left o := by
  induction cs generalizing s L with
  | nil => exact ⟨L, rfl, hL⟩
  | cons c cs ih =>
    obtain ⟨hone, hrest⟩ := hq.tail h.based
    obtain ⟨left, rfl, hhas⟩ := h.step_handed hL c
    obtain ⟨left', rfl, hhas'⟩ := ih ((stable_common o).step h c) (hhas hone) hrest
    exact ⟨left', (List.append_assoc _ _ _).symm, hhas'⟩

theorem handed_append (s : Session) (o : Object) (cs ds : List Command) :
    s.handed o (cs ++ ds) = s.handed o cs ++ (s.run cs).2.handed o ds := by
  induction cs generalizing s with
  | nil => rfl
  | cons c cs ih =>
    rw [List.cons_append, handed, handed, ih, List.append_assoc]
    rfl

/-! ## The end -/

/-- when the bottom has finished, a family hands over nothing any more, whatever happens -/
theorem Common.handed_of_finished (h : s.Common o) (hf : s.Finished o) (cs : List Command) : s.handed o cs = [] := by
  induction cs generalizing s with
  | nil => rfl
  | cons c cs ih =>
    obtain ⟨left, hnil, -⟩ := h.step_handed (h.has_nil hf) c
    rw [handed, (List.append_eq_nil_iff.mp hnil.symm).1, List.nil_append]
    exact ih ((stable_common o).step h c) ((stable_finished_object o).step hf c)

/-- when one of a family answers that nothing is left, all has been handed over and the bottom has finished -/
theorem Common.step_ends (h : s.Common o) (hL : s.Has L o) (hc : c.on = some x) (hx : s.family o x = true)
    {a : Answer} (ha : (s.step c).1 = .ok a) (hends : a.ends = true) :
    s.handedBy o c = L ∧ (s.step c).2.Finished o := by
  cases hsteps : c.steps with
  | some y =>
    have hy : y = x := by
      cases c with
      | advance | advanceAll | next | drain => exact Option.some.inj (hsteps.symm.trans hc)
      | _ => cases hsteps
    subst hy
    obtain ⟨left, hleft, hhas, hfinished⟩ := h.stepped hL (h.reached.stepped hsteps ha)
    have hover := hfinished hx hends
    obtain rfl := hhas.nil_of_finished hover
    refine ⟨?_, hover⟩
    simpa only [handedBy, hsteps, ha, List.append_nil] using hleft.symm
  | none =>
    cases c with
    | isExhausted j =>
      cases hc
      obtain ⟨it, hj⟩ := exists_of_rests h.based hx
      simp only [step, attempt, find, hj] at ha ⊢
      cases ha
      have hover := h.spent j it hj hx hends
      exact ⟨(hL.nil_of_finished hover).symm, hover⟩
    | advance | advanceAll | next | drain => cases hsteps
    | _ => cases hc

/-! ## Shared sources -/

/-- a queue, a cursor, or an iterator over a list of its own, such that no iterator that rests on it has run out so far -/
def Unspent (s : Session) (o : Object) : Prop :=
  ((∃ q left, o = .queue q ∧ s.queues[q]? = some left) ∨ (∃ c l, o = .cursor c ∧ s.cursors[c]? = some l) ∨
    ∃ i it left, o = .iterator i ∧ s.iterators[i]? = some it ∧ it.source = .pairs left) ∧
  ∀ j it, s.iterators[j]? = some it → s.rests o j = true → o ≠ .iterator j → it.exhausted = false

theorem Unspent.common (h : s.Unspent o) (hreached : s.Reached)
    (hemptied : ∀ (i : IteratorId) it left, s.iterators[i]? = some it → it.exhausted = true → it.source = .pairs left → left = []) :
    s.Common o where
  reached := hreached
  based := by
    obtain ⟨⟨q, left, rfl, hq⟩ | ⟨c, l, rfl, hl⟩ | ⟨i, it, left, rfl, hi, hsource⟩, -⟩ := h
    · exact ⟨left, hq⟩
    · exact ⟨l, hl⟩
    · exact ⟨it, hi, left, hsource, fun he => hemptied i it left hi he hsource⟩
  spent j it hj hrests he := by
    by_cases hne : o = .iterator j
    · subst hne
      exact ⟨it, hj, he⟩
    · rw [h.2 j it hj hrests hne] at he
      cases he

/-- what the family over an object does after some commands, when there was this list to begin with -/
structure Shares (s : Session) (o : Object) (L : List (Bytes × Bytes)) (cs : List Command) : Prop where
  /-- iterators that are made over one of the family are of the family -/
  made : ∀ prices x i t, (s.run cs).2.family o x = true →
    (s.run cs).2.step (.newIterator prices (.object x)) = (.ok (.made (.iterator i)), t) → t.family o (.iterator i) = true
  /-- what has been handed over is the beginning of the list -/
  handed : s.handed o cs <+: L
  /-- whoever is asked gives the pair that comes next, -/
  next : ∀ x, (s.run cs).2.family o x = true →
    ((s.run cs).2.step (.next x)).1 = .ok (.pair L[(s.handed o cs).length]?)
  /-- or all that is left; -/
  drain : ∀ x, (s.run cs).2.family o x = true →
    ((s.run cs).2.step (.drain x)).1 = .ok (.pairs (L.drop (s.handed o cs).length))
  /-- at the prices of the one that is asked -/
  advance : ∀ j it, (s.run cs).2.iterators[j]? = some it → (s.run cs).2.family o (.iterator j) = true →
    ((s.run cs).2.step (.advance j)).1 = .ok (.item (price it.prices L[(s.handed o cs).length]?))
  advanceAll : ∀ j it, (s.run cs).2.iterators[j]? = some it → (s.run cs).2.family o (.iterator j) = true →
    ((s.run cs).2.step (.advanceAll j)).1 =
      .ok (.items ((L.drop (s.handed o cs).length).map (fun q => price it.prices (some q)) ++ [price it.prices none]))
  /-- when any of them says that nothing is left, the list has been handed over, and nothing is got from anybody afterwards,
  whatever happens -/
  ends : ∀ c x a, c.on = some x → (s.run cs).2.family o x = true → ((s.run cs).2.step c).1 = .ok a → a.ends = true →
    ∀ ds, s.handed o (cs ++ c :: ds) = L ∧ ∀ y, (s.run (cs ++ c :: ds)).2.family o y = true →
      ((s.run (cs ++ c :: ds)).2.step (.next y)).1 = .ok (.pair none)

theorem Common.step_next (h : s.Common o) (hL : s.Has L o) (hx : s.family o x = true) :
    (s.step (.next x)).1 = .ok (.pair L.head?) := by
  have hfound := (h.served_nextOf hL x).found hx
  cases x with
  | queue | cursor | iterator => exact congrArg (fun found => Except.ok (Answer.pair found)) hfound
  | map | store =>
    obtain rfl := of_decide_eq_true hx
    exact h.based.elim

theorem Common.pullAll (h : s.Common o) (hL : s.Has L o) (hj : s.family o (.iterator j) = true) : (s.pullAll j).1 = L :=
  ((h.served_all hL (x := .iterator j) (h.reached.pullAll_yields j)).1 hj).1

theorem Common.step_drain (h : s.Common o) (hL : s.Has L o) (hx : s.family o x = true) :
    (s.step (.drain x)).1 = .ok (.pairs L) := by
  cases x with
  | queue q =>
    have hall := ((h.served_all hL (x := .queue q) (s.drainQueue_yields q)).1 hx).1
    exact congrArg (fun pairs => Except.ok (Answer.pairs pairs)) hall
  | cursor c =>
    have hall := ((h.served_all hL (x := .cursor c) (h.reached.drainCursor_yields c)).1 hx).1
    exact congrArg (fun pairs => Except.ok (Answer.pairs pairs)) hall
  | iterator j => exact congrArg (fun pairs => Except.ok (Answer.pairs pairs)) (h.pullAll hL hx)
  | map | store =>
    obtain rfl := of_decide_eq_true hx
    exact h.based.elim

/-- an iterator that is made over one of a family is of the family -/
theorem Common.made (h : s.Common o) {prices : Option PriceCall} (hx : s.family o x = true)
    (hstep : s.step (.newIterator prices (.object x)) = (.ok (.made (.iterator i)), t)) : t.family o (.iterator i) = true := by
  have hkept : ∀ k < s.iterators.length, t.rests o k = s.rests o k := by
    intro k hk
    have ht : (s.step (.newIterator prices (.object x))).2 = t := congrArg Prod.snd hstep
    rw [← ht]
    exact rests_of_keeps (fun k y hy => (stable_feeds k y).step hy _) hk
  obtain ⟨p, -, hmade⟩ := exists_of_bind (attempt_of_step hstep)
  obtain ⟨⟨source, u⟩, hsource, hmade⟩ := exists_of_bind hmade
  cases hmade
  show rests _ o u.iterators.length = true
  by_cases hne : o = .iterator u.iterators.length
  · rw [hne, rests_self]
  · rw [rests_eq List.getElem?_concat_length hne]
    cases x with
    | queue | cursor =>
      cases hsource
      exact hx
    | iterator k =>
      cases hsource
      obtain ⟨it, hk⟩ := exists_of_rests h.based hx
      obtain ⟨hlt, -⟩ := List.getElem?_eq_some_iff.mp hk
      simp only [hlt, if_true]
      exact (hkept k hlt).trans hx
    | map | store =>
      obtain rfl := of_decide_eq_true hx
      exact h.based.elim

/-- **Shared sources lose and duplicate nothing.** Let iterators be made over a queue, a cursor or an iterator over a list,
directly or over each other. Whatever commands follow, if they leave the map under the cursor as it is, the pairs that anybody
of them gives are those of one list, each once and in its order, and all of them once anybody says that nothing is left. -/
theorem shared_source (cs : List Command) {o : Object} (ho : (empty.run cs).2.Unspent o) :
    ∃ L, (empty.run cs).2.Has L o ∧ ∀ ds, (empty.run cs).2.Unwritten o ds → (empty.run cs).2.Shares o L ds := by
  have hcommon := ho.common (reached_run cs) (stable_emptied.run (by simp [empty]) cs)
  obtain ⟨L, hL⟩ := hcommon.exists_has
  refine ⟨L, hL, ?_⟩
  intro ds hds
  obtain ⟨left, hleft, hhas⟩ := hcommon.run_handed hL hds
  have hthere := (stable_common o).run hcommon ds
  have hnext : L[((empty.run cs).2.handed o ds).length]? = left.head? := by
    rw [hleft, List.getElem?_append_right (Nat.le_refl _), Nat.sub_self, List.head?_eq_getElem?]
  have hdrop : L.drop ((empty.run cs).2.handed o ds).length = left := by rw [hleft, List.drop_left]
  refine ⟨fun _ _ _ _ hx h => hthere.made hx h, ⟨left, hleft.symm⟩, ?_, ?_, ?_, ?_, ?_⟩
  · intro x hx
    rw [hnext]
    exact hthere.step_next hhas hx
  · intro x hx
    rw [hdrop]
    exact hthere.step_drain hhas hx
  · intro j it hj hx
    rw [hnext, step_advance_eq hj, Ask.item_eq, given_ask, ← (hthere.served_pull hhas j).found hx]
  · intro j it hj hx
    rw [hdrop, step_advanceAll_eq hj, hthere.pullAll hhas hx]
  · intro c x a hc hx ha hends es
    obtain ⟨hall, hover⟩ := hthere.step_ends hhas hc hx ha hends
    have hafter := (stable_common o).step hthere c
    refine ⟨?_, ?_⟩
    · rw [handed_append, handed, hall, hafter.handed_of_finished hover, List.append_nil]
      exact hleft.symm
    · intro y hy
      rw [(run_append _ ds (c :: es)).2] at hy ⊢
      have hlater := (stable_common o).run hafter es
      exact hlater.step_next (hlater.has_nil ((stable_finished_object o).run hover es)) hy

/-- Two families in one session. Two iterators take directly from a queue, a third takes from one of them, and the queue is
asked itself; an iterator over a cursor and the cursor are asked in between. The first family finds that nothing is left. -/
theorem shared_source_mixed :
    let s := (empty.run [.newQueue [([3], [30]), ([], []), ([5], [50])], .newMap, .put 0 [1] [10], .put 0 [] [7],
      .walk (.map 0)]).2
    let ds : List Command := [.newIterator none (.object (.queue 0)),
      .newIterator (some (.positional [.int 1, .int 2, .int 5, .int 7])) (.object (.queue 0)),
      .newIterator none (.object (.iterator 0)), .newIterator none (.object (.cursor 0)),
      .advance 0, .advance 3, .next (.queue 0), .newMap, .put 1 [9] [9], .advance 2]
    let L : List (Bytes × Bytes) := [([3], [30]), ([], []), ([5], [50])]
    (s.Unspent (.queue 0) ∧ s.Unwritten (.queue 0) ds ∧ s.Shares (.queue 0) L ds ∧ s.handed (.queue 0) ds = L ∧
      ((s.run ds).2.step (.advance 1)).1 = .ok (.item (.exhausted 2))) ∧
    s.Unspent (.cursor 0) ∧ s.Unwritten (.cursor 0) ds ∧ s.Shares (.cursor 0) [([], [7]), ([1], [10])] ds ∧
      s.handed (.cursor 0) ds = [([], [7])] := by
  intro s ds L
  have hnone : s.iterators = [] := by decide +kernel
  have hopen : ∀ o (j : IteratorId) it, s.iterators[j]? = some it → s.rests o j = true → o ≠ .iterator j →
      it.exhausted = false := by
    intro o j it hj
    rw [hnone] at hj
    cases hj
  refine ⟨?_, ?_⟩
  · have hqueue : s.queues[0]? = some L := by decide +kernel
    have hunspent : s.Unspent (.queue 0) := ⟨.inl ⟨0, L, rfl, hqueue⟩, hopen (.queue 0)⟩
    have hunwritten : s.Unwritten (.queue 0) ds := by
      intro c l hc
      cases hc
    obtain ⟨L', hL', hshares⟩ := shared_source _ hunspent
    obtain rfl : L' = L := Option.some.inj (hL'.symm.trans hqueue)
    have hshared := hshares ds hunwritten
    have hhanded : s.handed (.queue 0) ds = L := by decide +kernel
    have hj : (s.run ds).2.iterators[1]? = some ⟨⟨1, 2, 5, 7⟩, .queue 0, false⟩ := by decide +kernel
    have hadvance := hshared.advance 1 _ hj (by decide +kernel)
    rw [hhanded] at hadvance
    exact ⟨hunspent, hunwritten, hshared, hhanded, hadvance⟩
  · have hunspent : s.Unspent (.cursor 0) :=
      ⟨.inr (.inl ⟨0, _, rfl, List.getElem?_eq_getElem (by decide +kernel)⟩), hopen (.cursor 0)⟩
    have hunwritten : s.Unwritten (.cursor 0) ds := by
      intro c l hc hl
      obtain rfl : 0 = c := Object.cursor.inj hc
      have hmap : s.cursors[0]?.map LiveCursor.map = some 0 := by decide +kernel
      rw [hl] at hmap
      obtain hmap : l.map = 0 := Option.some.inj hmap
      rw [hmap]
      decide +kernel
    obtain ⟨L', hL', hshares⟩ := shared_source _ hunspent
    have hall : L' = [([], [7]), ([1], [10])] := by
      have hstart : s.Unwritten (.cursor 0) [] := by
        intro c l _ _ n hn
        obtain rfl := Nat.le_zero.mp hn
        rfl
      have hdrain : (s.step (.drain (.cursor 0))).1 = .ok (.pairs L') := (hshares [] hstart).drain (.cursor 0) rfl
      have hanswer : (s.step (.drain (.cursor 0))).1.toOption = some (.pairs [([], [7]), ([1], [10])]) := by decide +kernel
      rw [hdrain] at hanswer
      exact Answer.pairs.inj (Option.some.inj hanswer)
    subst hall
    exact ⟨hunspent, hunwritten, hshares ds hunwritten, by decide +kernel⟩

end Session

end MeteredStore
