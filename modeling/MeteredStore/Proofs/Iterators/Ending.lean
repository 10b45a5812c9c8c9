/-
Walks end.

In any session, the maps are what writes lead to, and cursors hold on to nodes of their maps (`Reached`). So a cursor is on a
stack whose load falls with each answer, whatever has been written since it was made, and an iterator gives no more pairs
than what it takes from has left (`exists_yields_pull`). What has come to its end stays there (`stable_finished`,
`stable_exhausted`).

Main statement: `walks_end`, in any session no node leads back to itself over links, every step of every cursor ends, and
every cursor and iterator comes to its end and stays there.
-/
import MeteredStore.Proofs.Invariants
import MeteredStore.Proofs.Linked.Walking
import MeteredStore.Proofs.Live.Supply

namespace MeteredStore

/-- what is pushed are nodes of the map -/
theorem Cursor.known_next {m : SortedMap} (htrail : m.Trailing m.detached) {c : Cursor}
    (hc : ∀ i ∈ c.stack, Live.Known m m.detached i) : ∀ i ∈ (c.next m).2.stack, Live.Known m m.detached i := by
  intro j hj
  rcases next_cases m c with hn | ⟨i, stack, n, hstack, hi, -, hn⟩
  · rw [hn] at hj
    cases hj
  · rw [hn] at hj
    have hlink : ∀ k ∈ n.child c.direction.onward, Live.Known m m.detached k :=
      fun k => htrail.closed (List.mem_of_find?_eq_some hi)
    rcases mem_pushLink hj (List.Subset.refl _) hlink (fun _ => .inl) fun x hx _ s k hk => htrail.child hx hk with hj | ⟨hj, -⟩
    · exact hc j (by rw [hstack]; exact List.mem_cons_of_mem i hj)
    · exact hj

namespace Session

variable {s t : Session} {c : CursorId} {i j : IteratorId} {it : StorageIterator}

/-! ## What is reached -/

/-- each map is what writes lead to, and each cursor is over one of the maps and holds on to nodes of it -/
structure Reached (s : Session) : Prop where
  maps : ∀ m ∈ s.maps, ∃ ws, m = SortedMap.written ws
  cursors : ∀ l ∈ s.cursors, ∃ m, s.maps[l.map]? = some m ∧ ∀ i ∈ l.cursor.stack, Live.Known m m.detached i

theorem Reached.sound (h : s.Reached) {m : SortedMap} (hm : m ∈ s.maps) : m.Sound ∧ m.Trailing m.detached := by
  obtain ⟨ws, rfl⟩ := h.maps m hm
  exact ⟨SortedMap.sound_written ws, SortedMap.trailing_written ws⟩

theorem Reached.write (h : s.Reached) {k : MapId} {m : SortedMap} (hm : s.maps[k]? = some m) (w : SortedMap.Write) :
    (s.setMap k (m.write w)).Reached := by
  obtain ⟨hlt, -⟩ := List.getElem?_eq_some_iff.mp hm
  refine ⟨?_, ?_⟩
  · intro m' hm'
    rcases List.mem_or_eq_of_mem_set hm' with hm' | rfl
    · exact h.maps m' hm'
    · obtain ⟨ws, rfl⟩ := h.maps m (List.mem_of_getElem? hm)
      exact ⟨ws ++ [w], (SortedMap.written_concat ws w).symm⟩
  · intro l hl
    obtain ⟨m', hm', hstack⟩ := h.cursors l hl
    by_cases hk : k = l.map
    · subst hk
      obtain rfl := Option.some.inj (hm.symm.trans hm')
      refine ⟨m.write w, List.getElem?_set_self hlt, ?_⟩
      obtain ⟨gone, hshift⟩ := SortedMap.exists_shift (h.sound (List.mem_of_getElem? hm)).1 w
      rw [hshift.detached]
      exact fun i hi => Live.known_write hshift (hstack i hi)
    · exact ⟨m', (List.getElem?_set_ne hk).trans hm', hstack⟩

theorem Reached.next (h : s.Reached) (c : CursorId) : (s.nextOfCursor c).2.Reached := by
  unfold nextOfCursor
  split
  · exact h
  · next l hl =>
    split
    · exact h
    · next m hm =>
      refine ⟨h.maps, ?_⟩
      intro l' hl'
      rcases List.mem_or_eq_of_mem_set hl' with hl' | rfl
      · exact h.cursors l' hl'
      · obtain ⟨m', hm', hstack⟩ := h.cursors l (List.mem_of_getElem? hl)
        obtain rfl := Option.some.inj (hm.symm.trans hm')
        exact ⟨m, hm, Cursor.known_next (h.sound (List.mem_of_getElem? hm)).2 hstack⟩

theorem stable_reached : Stable Reached where
  map s h := by
    refine ⟨?_, ?_⟩
    · intro m hm
      rcases List.mem_append.mp hm with hm | hm
      · exact h.maps m hm
      · exact ⟨[], List.mem_singleton.mp hm⟩
    · intro l hl
      obtain ⟨m, hm, hstack⟩ := h.cursors l hl
      obtain ⟨hlt, -⟩ := List.getElem?_eq_some_iff.mp hm
      exact ⟨m, (List.getElem?_append_left hlt).trans hm, hstack⟩
  store s y h := ⟨h.maps, h.cursors⟩
  queue s pairs h := ⟨h.maps, h.cursors⟩
  cursor s k m b d h hm := by
    refine ⟨h.maps, ?_⟩
    intro l hl
    rcases List.mem_append.mp hl with hl | hl
    · exact h.cursors l hl
    · rw [List.mem_singleton.mp hl]
      refine ⟨m, hm, ?_⟩
      intro i hi
      rcases Cursor.mem_pushTree hi with hi | ⟨e, he, rfl, -⟩
      · cases hi
      · exact .inl (List.mem_map_of_mem he)
  iterator s it h _ := ⟨h.maps, h.cursors⟩
  record s start stop h := ⟨h.maps, h.cursors⟩
  write s k m w h hm := h.write hm w
  hand s q pair left h _ := ⟨h.maps, h.cursors⟩
  next s c h := h.next c
  left s i it pair left h _ _ _ := ⟨h.maps, h.cursors⟩
  exhaust s i it h _ _ := by
    unfold exhaust
    split
    · exact h
    · exact ⟨h.maps, h.cursors⟩

theorem reached_run (cs : List Command) : (empty.run cs).2.Reached :=
  stable_reached.run ⟨by simp [empty], by simp [empty]⟩ cs

/-! ## Stepping to the end -/

theorem pullUpTo_of_yields {pairs : List (Bytes × Bytes)} (h : Yields (fun s => s.pull i) s pairs t) {n : Nat}
    (hn : pairs.length < n) : pullUpTo n s i = (pairs, t) := by
  induction h generalizing n with
  | done hs =>
    obtain ⟨n, rfl⟩ := Nat.exists_eq_add_one.mpr (Nat.zero_lt_of_lt hn)
    rw [pullUpTo, hs]
  | more hs _ ih =>
    obtain ⟨n, rfl⟩ := Nat.exists_eq_add_one.mpr (Nat.zero_lt_of_lt hn)
    rw [pullUpTo, hs]
    simp only [ih (Nat.lt_of_succ_lt_succ hn)]

/-- a cursor in a session is stepped like a cursor on its map -/
theorem nextOfCursor_eq {l : LiveCursor} {m : SortedMap} (hc : s.cursors[c]? = some l) (hm : s.maps[l.map]? = some m) :
    s.nextOfCursor c = ((l.cursor.next m).1, s.setCursor c { l with cursor := (l.cursor.next m).2 }) := by
  simp only [nextOfCursor, hc, hm]

theorem yields_nextOfCursor {l : LiveCursor} {m : SortedMap} {d : Cursor} {pairs : List (Bytes × Bytes)}
    (hc : s.cursors[c]? = some l) (hm : s.maps[l.map]? = some m) (h : Yields (Cursor.next m) l.cursor pairs d) :
    Yields (fun s => s.nextOfCursor c) s pairs (s.setCursor c { l with cursor := d }) := by
  generalize he : l.cursor = e at h
  induction h generalizing s l with
  | done hs =>
    subst he
    exact .done (by rw [nextOfCursor_eq hc hm, hs])
  | @more d e _ pair pairs hs _ ih =>
    subst he
    obtain ⟨hlt, -⟩ := List.getElem?_eq_some_iff.mp hc
    refine .more (by rw [nextOfCursor_eq hc hm, hs]) ?_
    have hrest := ih (s := s.setCursor c { l with cursor := e }) (List.getElem?_set_self hlt) hm rfl
    simpa only [setCursor, List.set_set] using hrest

/-- draining a cursor of a session is stepping it to its end -/
theorem Reached.drainCursor_yields (h : s.Reached) (c : CursorId) :
    Yields (fun s => s.nextOfCursor c) s (s.drainCursor c).1 (s.drainCursor c).2 := by
  unfold drainCursor
  cases hc : s.cursors[c]? with
  | none => exact .done (by simp only [nextOfCursor, hc])
  | some l =>
    obtain ⟨m, hm, -⟩ := h.cursors l (List.mem_of_getElem? hc)
    obtain ⟨hsound, htrail⟩ := h.sound (List.mem_of_getElem? hm)
    simp only [hm]
    exact yields_nextOfCursor hc hm (Cursor.drain_yields hsound htrail l.cursor).1

theorem Reached.length_drainCursor_le (h : s.Reached) {l : LiveCursor} {m : SortedMap} (hc : s.cursors[c]? = some l)
    (hm : s.maps[l.map]? = some m) : (s.drainCursor c).1.length ≤ l.cursor.supply m := by
  obtain ⟨hsound, htrail⟩ := h.sound (List.mem_of_getElem? hm)
  have hlen := (Cursor.drain_yields hsound htrail l.cursor).2
  simpa only [drainCursor, hc, hm] using hlen

/-- an iterator that takes from something else gives what that gives, and has then run out -/
theorem yields_pull {next : Session → Option (Bytes × Bytes) × Session} {pairs : List (Bytes × Bytes)}
    (hi : s.iterators[i]? = some it) (he : it.exhausted = false) (h : Yields next s pairs t)
    (hnext : ∀ s : Session, s.iterators[i]? = some it → s.take i it = next s ∧ (next s).2.iterators[i]? = some it) :
    Yields (fun s => s.pull i) s pairs (t.exhaust i) := by
  induction h with
  | done hs =>
    refine .done ?_
    rw [pull_eq hi he, (hnext _ hi).1, hs]
    rfl
  | more hs _ ih =>
    obtain ⟨htake, hsame⟩ := hnext _ hi
    rw [hs] at htake hsame
    refine .more ?_ (ih hsame)
    rw [pull_eq hi he, htake]
    rfl

theorem yields_pull_pairs {pairs : List (Bytes × Bytes)} (hi : s.iterators[i]? = some it) (he : it.exhausted = false)
    (hp : it.source = .pairs pairs) : ∃ t, Yields (fun s => s.pull i) s pairs t := by
  induction pairs generalizing s it with
  | nil => exact ⟨s.exhaust i, .done (by rw [pull_eq hi he, take, hp]; rfl)⟩
  | cons pair pairs ih =>
    obtain ⟨hlt, -⟩ := List.getElem?_eq_some_iff.mp hi
    obtain ⟨t, ht⟩ := ih (s := s.setIterator i { it with source := .pairs pairs }) (List.getElem?_set_self hlt) he rfl
    exact ⟨t, .more (by rw [pull_eq hi he, take, hp]; rfl) ht⟩

/-- draining a queue is letting it hand out what it has left -/
theorem drainQueue_yields (s : Session) (q : QueueId) :
    Yields (fun s => s.nextOfQueue q) s (s.drainQueue q).1 (s.drainQueue q).2 := by
  generalize hleft : s.queues[q]?.getD [] = left
  induction left generalizing s with
  | nil =>
    rw [drainQueue_of_nil hleft]
    refine .done ?_
    rcases s.nextOfQueue_cases q with ⟨-, hnext⟩ | ⟨pair, left, hq, -⟩
    · exact hnext
    · rw [hq] at hleft
      cases hleft
  | cons pair left ih =>
    have hq : s.queues[q]? = some (pair :: left) := eq_some_of_getD hleft
    rw [drainQueue_of_cons hq]
    refine .more ?_ (ih (s.setQueue q left) (by rw [getElem?_setQueue_self hq, Option.getD_some]))
    simp only [nextOfQueue, hq]

/-- an iterator over a queue -/
theorem yields_pull_queue {q : QueueId} (hi : s.iterators[i]? = some it) (he : it.exhausted = false)
    (hsource : it.source = .queue q) : ∃ pairs t, Yields (fun s => s.pull i) s pairs t ∧ pairs.length ≤ s.supply i := by
  have hy := yields_pull hi he (s.drainQueue_yields q) fun s hi => by
    refine ⟨by rw [take, hsource], ?_⟩
    exact (congrArg (·[i]?) (iterators_nextOfQueue s q)).trans hi
  refine ⟨_, _, hy, ?_⟩
  unfold supply
  simp only [hi, hsource]
  exact Nat.le_refl _

/-- an iterator over a cursor -/
theorem Reached.yields_pull_cursor (h : s.Reached) (hi : s.iterators[i]? = some it) (he : it.exhausted = false)
    (hsource : it.source = .cursor c) : ∃ pairs t, Yields (fun s => s.pull i) s pairs t ∧ pairs.length ≤ s.supply i := by
  have hy := yields_pull hi he (h.drainCursor_yields c) fun s hi => by
    refine ⟨by rw [take, hsource], ?_⟩
    exact (congrArg (·[i]?) (iterators_nextOfCursor s c)).trans hi
  refine ⟨_, _, hy, ?_⟩
  unfold supply
  simp only [hi, hsource]
  cases hc : s.cursors[c]? with
  | none => simp only [drainCursor, hc, List.length_nil, Nat.le_refl]
  | some l =>
    obtain ⟨m, hm, -⟩ := h.cursors l (List.mem_of_getElem? hc)
    simp only [hm]
    exact h.length_drainCursor_le hc hm

/-- **Iterators end.** However an iterator was made, and whatever has been written under it: pulled again and again it comes
to an end, after no more pairs than it is supposed to have left -/
theorem Reached.exists_yields_pull (h : s.Reached) (i : IteratorId) :
    ∃ pairs t, Yields (fun s => s.pull i) s pairs t ∧ pairs.length ≤ s.supply i := by
  -- an iterator takes from one before it, so the induction is on the position
  induction i using Nat.strongRecOn with
  | ind i ih =>
    cases hi : s.iterators[i]? with
    | none => exact ⟨[], s, .done (pull_of_none hi), Nat.zero_le _⟩
    | some it =>
      cases he : it.exhausted with
      | true => exact ⟨[], s, .done (pull_of_exhausted hi he), Nat.zero_le _⟩
      | false =>
        cases hsource : it.source with
        | pairs left =>
          obtain ⟨t, ht⟩ := yields_pull_pairs hi he hsource
          have hsupply : s.supply i = left.length := by
            unfold supply
            simp only [hi, hsource]
          exact ⟨left, t, ht, Nat.le_of_eq hsupply.symm⟩
        | queue q => exact yields_pull_queue hi he hsource
        | cursor c => exact h.yields_pull_cursor hi he hsource
        | iterator j =>
          unfold supply
          simp only [hi, hsource]
          by_cases hj : j < i
          · obtain ⟨pairs, t, ht, hlen⟩ := ih j hj
            have hy := yields_pull hi he ht fun s hi =>
              ⟨by simp only [take, hsource, hj, if_true], (getElem?_pull_of_lt s hj).trans hi⟩
            exact ⟨pairs, _, hy, by simpa only [hj, if_true] using hlen⟩
          · refine ⟨[], s.exhaust i, .done ?_, Nat.zero_le _⟩
            rw [pull_eq hi he, take, hsource]
            simp only [hj, if_false, Option.elim_none]

theorem Reached.pullAll_yields (h : s.Reached) (i : IteratorId) :
    Yields (fun s => s.pull i) s (s.pullAll i).1 (s.pullAll i).2 := by
  obtain ⟨pairs, t, hy, hlen⟩ := h.exists_yields_pull i
  rw [pullAll, pullUpTo_of_yields hy (Nat.lt_succ_of_le hlen)]
  exact hy

/-! ## At the end -/

/-- stepped again and again, it gives some pairs and then the end, and is at its end from then on, whatever happens; draining
it does the same at once -/
def Ends (s : Session) (o : Object) : Prop :=
  ∃ pairs t, s.run (List.replicate (pairs.length + 1) (.next o)) =
      (pairs.map (fun pair => .ok (.pair (some pair))) ++ [.ok (.pair none)], t) ∧
    s.step (.drain o) = (.ok (.pairs pairs), t) ∧ ∀ cs, ((t.run cs).2.step (.next o)).1 = .ok (.pair none)

theorem run_of_yields {o : Object} {next : Session → Option (Bytes × Bytes) × Session} {pairs : List (Bytes × Bytes)}
    (hstep : ∀ s : Session, s.step (.next o) = (.ok (.pair (next s).1), (next s).2)) (h : Yields next s pairs t) :
    s.run (List.replicate (pairs.length + 1) (.next o)) =
      (pairs.map (fun pair => .ok (.pair (some pair))) ++ [.ok (.pair none)], t) := by
  induction h with
  | done hs =>
    simp only [List.length_nil, List.replicate_succ, List.replicate_zero, run, hstep, hs]
    rfl
  | more hs _ ih =>
    rw [List.length_cons, List.replicate_succ, run, hstep, hs]
    simp only [ih]
    rfl

/-- a walk that has come to its end is over -/
theorem stack_of_yields {m : SortedMap} {c d : Cursor} {pairs : List (Bytes × Bytes)} (h : Yields (Cursor.next m) c pairs d) :
    d.stack = [] := by
  induction h with
  | done hc => exact congrArg (fun r => r.2.stack) hc ▸ Cursor.stack_of_next_eq_none (congrArg Prod.fst hc)
  | more _ _ ih => exact ih

theorem Reached.cursor_ends (h : s.Reached) (hc : c < s.cursors.length) : s.Ends (.cursor c) := by
  refine ⟨(s.drainCursor c).1, (s.drainCursor c).2, run_of_yields (fun _ => rfl) (h.drainCursor_yields c), rfl, ?_⟩
  obtain ⟨m, hm, -⟩ := h.cursors _ (List.getElem_mem hc)
  obtain ⟨hsound, htrail⟩ := h.sound (List.mem_of_getElem? hm)
  have hdone := stack_of_yields (Cursor.drain_yields hsound htrail s.cursors[c].cursor).1
  have hl : s.cursors[c]? = some s.cursors[c] := List.getElem?_eq_getElem hc
  have hover : ∃ l, (s.drainCursor c).2.cursors[c]? = some l ∧ l.cursor.stack = [] := by
    simp only [drainCursor, hl, hm]
    exact ⟨_, List.getElem?_set_self hc, hdone⟩
  intro cs
  obtain ⟨l, hl, hstack⟩ := (stable_finished c).run hover cs
  have hnext : (((s.drainCursor c).2.run cs).2.nextOfCursor c).1 = none := by
    unfold nextOfCursor
    simp only [hl]
    split
    · rfl
    · rw [Cursor.next_of_done hstack]
  exact congrArg (fun pair => Except.ok (Answer.pair pair)) hnext

theorem exhausted_of_yields {pairs : List (Bytes × Bytes)} (h : Yields (fun s => s.pull i) s pairs t)
    (hi : t.iterators[i]? = some it) : it.exhausted = true := by
  induction h with
  | done hs => exact exhausted_of_pull (congrArg Prod.fst hs) ((congrArg (fun r => r.2.iterators[i]?) hs).trans hi)
  | more _ _ ih => exact ih hi

/-- an iterator that is pulled until nothing is left has run out -/
theorem Reached.exhausted_pullAll (h : s.Reached) (hi : s.iterators[i]? = some it) :
    (s.pullAll i).2.At i fun it => it.exhausted = true := by
  obtain ⟨it', hi', -⟩ := (stable_prices i it.prices).pullAll ⟨it, hi, rfl⟩ i
  exact ⟨it', hi', exhausted_of_yields (h.pullAll_yields i) hi'⟩

theorem Reached.iterator_ends (h : s.Reached) (hi : i < s.iterators.length) : s.Ends (.iterator i) := by
  refine ⟨(s.pullAll i).1, (s.pullAll i).2, run_of_yields (fun _ => rfl) (h.pullAll_yields i), rfl, ?_⟩
  intro cs
  obtain ⟨it, hit, he⟩ := (stable_exhausted i).run (h.exhausted_pullAll (List.getElem?_eq_getElem hi)) cs
  exact congrArg (fun r => Except.ok (Answer.pair r.1)) (pull_of_exhausted hit he)

/-- walks end -/
structure Ending (s : Session) : Prop where
  /-- each map is held by cells that writes lead to -/
  held : ∀ m ∈ s.maps, ∃ ws h, Linked.written ws = some h ∧ h.Holds m
  /-- no cell leads back to itself over left and right links, be it linked to the root or not -/
  acyclic : ∀ m ∈ s.maps, ∀ h : Linked, h.Holds m → ∀ i, ¬ Relation.TransGen h.Leads i i
  /-- on the cells, a cursor that is made comes to a first key, -/
  started : ∀ m ∈ s.maps, ∀ h : Linked, h.Holds m → ∀ b d, h.start b d = some (Cursor.start m b d)
  /-- and a cursor that is stepped comes to its next pair or its end -/
  stepped : ∀ l ∈ s.cursors, ∃ m, s.maps[l.map]? = some m ∧
    ∀ h : Linked, h.Holds m → h.next l.cursor = some (l.cursor.next m)
  cursors : ∀ c < s.cursors.length, s.Ends (.cursor c)
  iterators : ∀ i < s.iterators.length, s.Ends (.iterator i)

/-- **Walks end.** After any commands, whatever has been put and deleted under the cursors and iterators that there are: links
among all the cells that were ever made go in no circle, so that every way down comes to an end. Every cursor that is stepped
again and again, and every iterator over it, comes to its end after finitely many pairs; to drain it is the same. It stays at
its end, whatever is done afterwards. -/
theorem walks_end (cs : List Command) : (empty.run cs).2.Ending := by
  have h := reached_run cs
  refine ⟨?_, ?_, ?_, ?_, fun c => h.cursor_ends, fun i => h.iterator_ends⟩
  · intro m hm
    obtain ⟨ws, rfl⟩ := h.maps m hm
    obtain ⟨cells, hcells, hholds⟩ := Linked.written_holds ws
    exact ⟨ws, cells, hcells, hholds⟩
  · intro m hm cells hcells i
    obtain ⟨hsound, htrail⟩ := h.sound hm
    exact hcells.no_cycle hsound htrail i
  · intro m hm cells hcells b d
    obtain ⟨hsound, htrail⟩ := h.sound hm
    exact hcells.start hsound htrail b d
  · intro l hl
    obtain ⟨m, hm, hstack⟩ := h.cursors l hl
    obtain ⟨hsound, htrail⟩ := h.sound (List.mem_of_getElem? hm)
    exact ⟨m, hm, fun cells hcells => hcells.next hsound htrail hstack⟩

end Session

end MeteredStore
