/-
Iterators that rest on one object.

Any number of iterators may be made over a queue, a cursor or an iterator, directly or through one another: they all rest on
it (`rests`), and with it they are a family. At the bottom is the list that it has left (`Has`).

Main statement: `stable_common`, in whatever happens to a session, iterators of a family that have run out have found that out
at the bottom.
-/
import MeteredStore.Proofs.Iterators.Ending

namespace MeteredStore

/-- what a source takes from, unless it is a list of its own -/
def Source.object : Source → Option Object
  | .pairs _ => none
  | .queue q => some (.queue q)
  | .cursor c => some (.cursor c)
  | .iterator i => some (.iterator i)

namespace Session

variable {s t : Session} {o : Object} {i j k b : IteratorId} {it : StorageIterator} {L : List (Bytes × Bytes)}

/-! ## Families -/

/-- what an iterator takes from -/
def feeds (s : Session) (j : IteratorId) : Option Object := s.iterators[j]?.bind fun it => it.source.object

/-- an iterator is this object, or takes from it, directly or through others -/
def rests (s : Session) (o : Object) (j : IteratorId) : Bool :=
  if o = .iterator j then true
  else
    match s.feeds j with
    | none => false
    | some (.iterator k) => if k < j then s.rests o k else false
    | some x => x = o
termination_by j

/-- an object, and the iterators that rest on it -/
def family (s : Session) (o : Object) : Object → Bool
  | .iterator j => s.rests o j
  | x => x = o

@[simp] theorem rests_self (s : Session) (j : IteratorId) : s.rests (.iterator j) j = true := by
  unfold rests
  simp

theorem rests_of_none (hj : s.iterators[j]? = none) (hne : o ≠ .iterator j) : s.rests o j = false := by
  unfold rests feeds
  simp [hj, hne]

/-- another iterator rests on an object if it takes from there, or from one that does -/
theorem rests_eq (hj : s.iterators[j]? = some it) (hne : o ≠ .iterator j) :
    s.rests o j = match it.source with
      | .pairs _ => false
      | .queue q => decide (.queue q = o)
      | .cursor c => decide (.cursor c = o)
      | .iterator k => if k < j then s.rests o k else false := by
  rw [rests, feeds, hj, if_neg hne, Option.bind_some]
  cases it.source with
  | pairs | queue | cursor | iterator => rfl

theorem rests_congr (h : ∀ k ≤ j, t.feeds k = s.feeds k) : t.rests o j = s.rests o j := by
  induction j using Nat.strongRecOn with
  | ind j ih =>
    rw [rests, rests, h j (Nat.le_refl j)]
    split
    · rfl
    · split
      · rfl
      · next k _ =>
        by_cases hk : k < j
        · rw [if_pos hk, if_pos hk]
          exact ih k hk fun i hi => h i (Nat.le_trans hi (Nat.le_of_lt hk))
        · rw [if_neg hk, if_neg hk]
      · rfl

/-- an iterator goes on taking from where it does -/
theorem stable_feeds (k : IteratorId) (x : Option Object) : Stable fun s => s.At k fun it => it.source.object = x := by
  refine stable_at k ?_ fun _ _ h _ => h
  intro it pair left h _ hsource
  rw [hsource] at h
  exact h

theorem feeds_eq {x : Option Object} (h : s.At k fun it => it.source.object = x) : s.feeds k = x := by
  obtain ⟨it, hk, hx⟩ := h
  rw [feeds, hk]
  exact hx

/-- what rests on an object goes on resting there, and nothing else that is there begins to -/
theorem rests_of_keeps (h : ∀ k x, (s.At k fun it => it.source.object = x) → t.At k fun it => it.source.object = x)
    (hj : j < s.iterators.length) : t.rests o j = s.rests o j := by
  apply rests_congr
  intro k hk
  obtain ⟨it, hit⟩ : ∃ it, s.iterators[k]? = some it := ⟨_, List.getElem?_eq_getElem (Nat.lt_of_le_of_lt hk hj)⟩
  have hat : s.At k fun it' => it'.source.object = it.source.object := ⟨it, hit, rfl⟩
  rw [feeds_eq hat, feeds_eq (h k _ hat)]

theorem rests_pull (s : Session) (i : IteratorId) (o : Object) (j : IteratorId) :
    (s.pull i).2.rests o j = s.rests o j := by
  apply rests_congr
  intro k _
  cases hk : s.iterators[k]? with
  | none =>
    have hstill : (s.pull i).2.iterators[k]? = none := by rw [getElem?_pull, pull_of_none hk, hk, ite_self]
    rw [feeds, feeds, hk, hstill]
  | some it =>
    have hat : s.At k fun it' => it'.source.object = it.source.object := ⟨it, hk, rfl⟩
    rw [feeds_eq hat, feeds_eq ((stable_feeds k _).pull hat i)]

/-! ## At the bottom -/

/-- the pairs that a queue, a cursor, or an iterator over a list of its own has left -/
def Has (s : Session) (L : List (Bytes × Bytes)) : Object → Prop
  | .queue q => s.queues[q]? = some L
  | .cursor c => ∃ l m d, s.cursors[c]? = some l ∧ s.maps[l.map]? = some m ∧ Yields (Cursor.next m) l.cursor L d
  | .iterator b => s.At b fun it => it.source = .pairs L ∧ (it.exhausted = true → L = [])
  | _ => False

/-- it has been found that nothing is left -/
def Finished (s : Session) : Object → Prop
  | .queue q => s.queues[q]? = some []
  | .cursor c => ∃ l, s.cursors[c]? = some l ∧ l.cursor.stack = []
  | .iterator b => s.At b fun it => it.exhausted = true
  | _ => False

/-- there is such a queue or cursor, or such an iterator over a list of its own -/
def Based (s : Session) : Object → Prop
  | .queue q => ∃ left, s.queues[q]? = some left
  | .cursor c => ∃ l, s.cursors[c]? = some l
  | .iterator b => s.At b fun it => ∃ left, it.source = .pairs left ∧ (it.exhausted = true → left = [])
  | _ => False

theorem stable_finished_object (o : Object) : Stable fun s => s.Finished o := by
  cases o with
  | queue q => simpa only [Finished, exists_eq_right] using stable_queue (P := fun left => left = []) q (by simp)
  | cursor c => exact stable_finished c
  | iterator b => exact stable_exhausted b
  | map | store => exact stable_const False

theorem stable_based (o : Object) : Stable fun s => s.Based o := by
  cases o with
  | queue q => simpa only [Based, and_true] using stable_queue (P := fun _ => True) q fun _ _ _ => trivial
  | cursor c => simpa only [Based, and_true] using stable_walk (P := fun _ => True) c fun _ _ _ => trivial
  | iterator b =>
    refine stable_at b ?_ ?_
    · intro it pair left _ he _
      refine ⟨left, rfl, ?_⟩
      intro hx
      rw [he] at hx
      cases hx
    · rintro s it ⟨left, hsource, -⟩ hout
      rw [hsource] at hout
      exact ⟨left, hsource, fun _ => hout⟩
  | map | store => exact stable_const False

theorem Has.congr (h : s.Has L o) (hmaps : t.maps = s.maps) (hqueues : ∀ q, o = .queue q → t.queues[q]? = s.queues[q]?)
    (hcursors : ∀ c, o = .cursor c → t.cursors[c]? = s.cursors[c]?)
    (hiterators : ∀ b, o = .iterator b → t.iterators[b]? = s.iterators[b]?) : t.Has L o := by
  cases o with
  | queue q => exact (hqueues q rfl).trans h
  | cursor c =>
    obtain ⟨l, m, d, hl, hm, hy⟩ := h
    exact ⟨l, m, d, (hcursors c rfl).trans hl, by rw [hmaps]; exact hm, hy⟩
  | iterator b =>
    obtain ⟨it, hb, hit⟩ := h
    exact ⟨it, (hiterators b rfl).trans hb, hit⟩
  | map | store => exact h

/-- where nothing is left there is nothing to get -/
theorem Has.nil_of_finished (h : s.Has L o) (hf : s.Finished o) : L = [] := by
  cases o with
  | queue q => exact Option.some.inj (h.symm.trans hf)
  | cursor c =>
    obtain ⟨l, m, d, hl, -, hy⟩ := h
    obtain ⟨l', hl', hstack⟩ := hf
    obtain rfl := Option.some.inj (hl.symm.trans hl')
    cases hy with
    | done => rfl
    | more hnext _ =>
      rw [Cursor.next_of_done hstack] at hnext
      cases hnext
  | iterator b =>
    obtain ⟨it, hb, -, hempty⟩ := h
    obtain ⟨it', hb', he⟩ := hf
    obtain rfl := Option.some.inj (hb.symm.trans hb')
    exact hempty he
  | map | store => exact hf.elim

/-- a queue hands out the first of what it has left -/
theorem Has.nextOfQueue {q : QueueId} (h : s.Has L (.queue q)) :
    (s.nextOfQueue q).1 = L.head? ∧ (s.nextOfQueue q).2.Has L.tail (.queue q) := by
  have hq : s.queues[q]? = some L := h
  cases L with
  | nil =>
    rw [Session.nextOfQueue, hq]
    exact ⟨rfl, hq⟩
  | cons pair left =>
    rw [Session.nextOfQueue, hq]
    exact ⟨rfl, getElem?_setQueue_self hq⟩

/-- a cursor gives the first of what it has left -/
theorem Has.nextOfCursor {c : CursorId} (h : s.Has L (.cursor c)) :
    (s.nextOfCursor c).1 = L.head? ∧ (s.nextOfCursor c).2.Has L.tail (.cursor c) := by
  obtain ⟨l, m, d, hl, hm, hy⟩ := h
  obtain ⟨hlt, -⟩ := List.getElem?_eq_some_iff.mp hl
  rw [nextOfCursor_eq hl hm]
  cases hy with
  | done hnext =>
    have hstack : d.stack = [] := stack_of_yields (.done hnext)
    rw [hnext]
    exact ⟨rfl, _, m, d, List.getElem?_set_self hlt, hm, .done (Cursor.next_of_done hstack)⟩
  | more hnext hrest =>
    rw [hnext]
    exact ⟨rfl, _, m, d, List.getElem?_set_self hlt, hm, hrest⟩

/-- an iterator over a list of its own gives the first of what is left of it -/
theorem Has.pull (h : s.Has L (.iterator b)) : (s.pull b).1 = L.head? ∧ (s.pull b).2.Has L.tail (.iterator b) := by
  obtain ⟨it, hb, hsource, hempty⟩ := h
  obtain ⟨hfound, x, hx, hb'⟩ := pull_own hb hsource hempty
  refine ⟨hfound, _, hb', rfl, ?_⟩
  intro he
  rw [hx he]
  rfl

/-! ## What a family shares -/

/-- an object that iterators may rest on, in a session that can be reached -/
structure Common (s : Session) (o : Object) : Prop where
  reached : s.Reached
  based : s.Based o
  /-- an iterator of the family that has run out has found that out at the bottom -/
  spent : ∀ j it, s.iterators[j]? = some it → s.rests o j = true → it.exhausted = true → s.Finished o

/-- whoever is of a family is there -/
theorem exists_of_rests (h : s.Based o) (hrests : s.rests o j = true) : ∃ it, s.iterators[j]? = some it := by
  cases hj : s.iterators[j]? with
  | some it => exact ⟨it, rfl⟩
  | none =>
    by_cases ho : o = .iterator j
    · subst ho
      obtain ⟨it, hit, -⟩ := h
      rw [hj] at hit
      cases hit
    · rw [rests_of_none hj ho] at hrests
      cases hrests

/-- an iterator of the family whose source has run out: so has the bottom -/
theorem Common.finished_of_runOut (h : s.Common o) (hi : s.iterators[i]? = some it) (hrests : s.rests o i = true)
    (hne : o ≠ .iterator i) (hout : s.RunOut i it.source) : s.Finished o := by
  rw [rests_eq hi hne] at hrests
  cases hsource : it.source with
  | pairs left =>
    rw [hsource] at hrests
    cases hrests
  | queue q =>
    rw [hsource] at hrests hout
    obtain rfl := of_decide_eq_true hrests
    obtain ⟨left, hq⟩ := h.based
    have hleft : s.queues[q]?.getD [] = [] := hout
    rw [hq, Option.getD_some] at hleft
    rw [hleft] at hq
    exact hq
  | cursor c =>
    rw [hsource] at hrests hout
    obtain rfl := of_decide_eq_true hrests
    obtain ⟨l, hl⟩ := h.based
    obtain ⟨m, hm, -⟩ := h.reached.cursors l (List.mem_of_getElem? hl)
    rcases hout l hl with hnone | hstack
    · rw [hm] at hnone
      cases hnone
    · exact ⟨l, hl, hstack⟩
  | iterator k =>
    simp only [hsource] at hrests hout
    by_cases hk : k < i
    · rw [if_pos hk] at hrests
      obtain ⟨it', hk'⟩ := exists_of_rests h.based hrests
      exact h.spent k it' hk' hrests (hout hk it' hk')
    · rw [if_neg hk] at hrests
      cases hrests

/-- a change that leaves iterators as they are -/
theorem Common.of_iterators (h : s.Common o) (hreached : t.Reached) (hbased : t.Based o) (hsame : t.iterators = s.iterators)
    (hfinished : s.Finished o → t.Finished o) : t.Common o where
  reached := hreached
  based := hbased
  spent j it hj hrests he := by
    have hback : t.rests o j = s.rests o j := rests_congr fun k _ => by rw [feeds, feeds, hsame]
    rw [hsame] at hj
    rw [hback] at hrests
    exact hfinished (h.spent j it hj hrests he)

/-- a new iterator is not known to have run out, or takes from nowhere -/
theorem Common.addIterator (h : s.Common o) (hit : it.exhausted = true → it.source = .pairs []) :
    (s.addIterator it).2.Common o where
  reached := stable_reached.iterator s it h.reached hit
  based := (stable_based o).iterator s it h.based hit
  spent j it' hj hrests he := by
    have hfinished := (stable_finished_object o).iterator s it
    by_cases hlt : j < s.iterators.length
    · have hold : s.iterators[j]? = some it' := (List.getElem?_append_left hlt).symm.trans hj
      have hback : (s.addIterator it).2.rests o j = s.rests o j :=
        rests_of_keeps (fun k x hk => (stable_feeds k x).iterator s it hk hit) hlt
      rw [hback] at hrests
      exact hfinished (h.spent j it' hold hrests he) hit
    · have hnew : (s.iterators ++ [it])[j]? = some it' := hj
      rw [List.getElem?_append_right (Nat.le_of_not_lt hlt)] at hnew
      obtain rfl : it' = it := by simpa using List.mem_of_getElem? hnew
      have hne : o ≠ .iterator j := by
        rintro rfl
        obtain ⟨it', hit', -⟩ := h.based
        exact hlt (List.getElem?_eq_some_iff.mp hit').1
      rw [rests_eq hj hne, hit he] at hrests
      cases hrests

theorem Common.setIterator (h : s.Common o) {pair : Bytes × Bytes} {left : List (Bytes × Bytes)}
    (hi : s.iterators[i]? = some it) (he : it.exhausted = false) (hsource : it.source = .pairs (pair :: left)) :
    (s.setIterator i { it with source := .pairs left }).Common o where
  reached := stable_reached.left s i it pair left h.reached hi he hsource
  based := (stable_based o).left s i it pair left h.based hi he hsource
  spent j it' hj hrests hx := by
    obtain ⟨hlt, -⟩ := List.getElem?_eq_some_iff.mp hi
    have hne : i ≠ j := by
      rintro rfl
      rw [Session.setIterator, List.getElem?_set_self hlt] at hj
      cases hj
      rw [he] at hx
      cases hx
    have hold : s.iterators[j]? = some it' := (List.getElem?_set_ne hne).symm.trans hj
    rw [rests_of_keeps (fun k x hk => (stable_feeds k x).left s i it pair left hk hi he hsource)
      (List.getElem?_eq_some_iff.mp hold).1] at hrests
    exact (stable_finished_object o).left s i it pair left (h.spent j it' hold hrests hx) hi he hsource

theorem Common.exhaust (h : s.Common o) (hi : s.iterators[i]? = some it) (hout : s.RunOut i it.source) :
    (s.exhaust i).Common o where
  reached := stable_reached.exhaust s i it h.reached hi hout
  based := (stable_based o).exhaust s i it h.based hi hout
  spent j it' hj hrests hx := by
    have hfinished := (stable_finished_object o).exhaust s i it
    have hback : ∀ k < s.iterators.length, (s.exhaust i).rests o k = s.rests o k := fun k hk =>
      rests_of_keeps (fun k x hk => (stable_feeds k x).exhaust s i it hk hi hout) hk
    by_cases hij : i = j
    · subst hij
      by_cases hne : o = .iterator i
      · subst hne
        exact ⟨it', hj, hx⟩
      · rw [hback i (List.getElem?_eq_some_iff.mp hi).1] at hrests
        exact hfinished (h.finished_of_runOut hi hrests hne hout) hi hout
    · rw [getElem?_exhaust hij] at hj
      rw [hback j (List.getElem?_eq_some_iff.mp hj).1] at hrests
      exact hfinished (h.spent j it' hj hrests hx) hi hout

/-- **What the bottom has found, everybody has.** Iterators of a family that have run out have found that out at the bottom,
and this is kept by whatever happens. -/
theorem stable_common (o : Object) : Stable fun s => s.Common o where
  map s h := h.of_iterators (stable_reached.map s h.reached) ((stable_based o).map s h.based) rfl
    ((stable_finished_object o).map s)
  store s y h := h.of_iterators (stable_reached.store s y h.reached) ((stable_based o).store s y h.based) rfl
    ((stable_finished_object o).store s y)
  queue s pairs h := h.of_iterators (stable_reached.queue s pairs h.reached) ((stable_based o).queue s pairs h.based) rfl
    ((stable_finished_object o).queue s pairs)
  cursor s k m b d h hm := h.of_iterators (stable_reached.cursor s k m b d h.reached hm)
    ((stable_based o).cursor s k m b d h.based hm) rfl fun hf => (stable_finished_object o).cursor s k m b d hf hm
  iterator _ _ h hit := h.addIterator hit
  record s start stop h := h.of_iterators (stable_reached.record s start stop h.reached)
    ((stable_based o).record s start stop h.based) rfl ((stable_finished_object o).record s start stop)
  write s k m w h hm := h.of_iterators (stable_reached.write s k m w h.reached hm)
    ((stable_based o).write s k m w h.based hm) rfl fun hf => (stable_finished_object o).write s k m w hf hm
  hand s q pair left h hq := h.of_iterators (stable_reached.hand s q pair left h.reached hq)
    ((stable_based o).hand s q pair left h.based hq) rfl fun hf => (stable_finished_object o).hand s q pair left hf hq
  next s c h := h.of_iterators (stable_reached.next s c h.reached) ((stable_based o).next s c h.based)
    (iterators_nextOfCursor s c) ((stable_finished_object o).next s c)
  left _ _ _ _ _ h hi he hsource := h.setIterator hi he hsource
  exhaust _ _ _ h hi hout := h.exhaust hi hout

theorem Common.exists_has (h : s.Common o) : ∃ L, s.Has L o := by
  cases o with
  | queue q => exact h.based
  | cursor c =>
    obtain ⟨l, hl⟩ := h.based
    obtain ⟨m, hm, -⟩ := h.reached.cursors l (List.mem_of_getElem? hl)
    obtain ⟨hsound, htrail⟩ := h.reached.sound (List.mem_of_getElem? hm)
    exact ⟨_, l, m, _, hl, hm, (Cursor.drain_yields hsound htrail l.cursor).1⟩
  | iterator b =>
    obtain ⟨it, hb, left, hit⟩ := h.based
    exact ⟨left, it, hb, hit⟩
  | map | store => exact h.based.elim

/-- when the bottom has finished, nothing is left -/
theorem Common.has_nil (h : s.Common o) (hf : s.Finished o) : s.Has [] o := by
  cases o with
  | queue q => exact hf
  | cursor c =>
    obtain ⟨l, hl, hstack⟩ := hf
    obtain ⟨m, hm, -⟩ := h.reached.cursors l (List.mem_of_getElem? hl)
    exact ⟨l, m, _, hl, hm, .done (Cursor.next_of_done hstack)⟩
  | iterator b =>
    obtain ⟨it, hb, left, hsource, hempty⟩ := h.based
    obtain ⟨it', hb', he⟩ := hf
    obtain rfl := Option.some.inj (hb.symm.trans hb')
    obtain rfl := hempty he
    exact ⟨it, hb, hsource, hempty⟩
  | map | store => exact hf

end Session

end MeteredStore
