/-
Which calls on a store are refused, and what a refused call leaves behind.

`Refused` says it in terms of the arguments alone, and which of them is named when there are several at fault:
- `get`, `has` and `remove` are refused when the key does not pass for bytes, or fails when it is read;
- `set` is refused when the key is so, and otherwise when the value is;
- `range` is refused when the direction equals neither one nor two, or fails when it is compared, and otherwise when a bound is
  neither absent nor to be read, the start before the stop.
Every other call is answered, also one with inverted bounds (`WellFormed`).

A call looks at its arguments before it does anything else, so what it does one thing after the other is what the command that
it stands for does at once or not at all (`perform_eq_step`). So refused commands may be taken out of a run (`run_remaining`).

Main statement: `calls_refused`, all of this for every session that commands lead to. Witness that reading may fail where the
type is right: `calls_refused_released`.
-/
import MeteredStore.Proofs.Arguments
import MeteredStore.Proofs.Views
import MeteredStore.Session.Effects

namespace MeteredStore

/-! ## Calls that are refused -/

namespace StoreCall

/-- the call is refused for this reason: what is wrong with the first of its arguments that is not taken, where a direction
comes before the bounds, a start before a stop, and a key before a value -/
inductive Refused : StoreCall → Refusal → Prop where
  | get {key : Argument} {r : Refusal} (h : key.Unfit .badKey r) : Refused (.get key) r
  | has {key : Argument} {r : Refusal} (h : key.Unfit .badKey r) : Refused (.has key) r
  | remove {key : Argument} {r : Refusal} (h : key.Unfit .badKey r) : Refused (.remove key) r
  | setKey {key value : Argument} {r : Refusal} (h : key.Unfit .badKey r) : Refused (.set key value) r
  | setValue {key value : Argument} {r : Refusal} (hkey : key.Reads) (h : value.Unfit .badValue r) : Refused (.set key value) r
  | order {start stop order : Argument} {r : Refusal} (h : order.UnfitOrder r) : Refused (.range start stop (some order)) r
  | start {start stop : Argument} {order : Option Argument} {r : Refusal} (horder : Argument.OrderLike order)
      (h : start.UnfitBound r) : Refused (.range start stop order) r
  | stop {start stop : Argument} {order : Option Argument} {r : Refusal} (horder : Argument.OrderLike order)
      (hstart : start.BoundLike) (h : stop.UnfitBound r) : Refused (.range start stop order) r

/-- all arguments are what they have to be -/
def WellFormed : StoreCall → Prop
  | .get key | .has key | .remove key => key.Reads
  | .set key value => key.Reads ∧ value.Reads
  | .range start stop order => Argument.OrderLike order ∧ start.BoundLike ∧ stop.BoundLike

variable {call : StoreCall} {r r' : Refusal}

theorem Refused.not_wellFormed (h : call.Refused r) : ¬ call.WellFormed := by
  cases h with
  | get h | has h | remove h => exact h.not_reads
  | setKey h => exact fun hw => h.not_reads hw.1
  | setValue _ h => exact fun hw => h.not_reads hw.2
  | order h => exact fun hw => h.not_orderLike hw.1
  | start _ h => exact fun hw => h.not_boundLike hw.2.1
  | stop _ _ h => exact fun hw => h.not_boundLike hw.2.2

/-- a call is refused for one reason at most -/
theorem Refused.unique (h : call.Refused r) (h' : call.Refused r') : r = r' := by
  cases h with
  | get h =>
    cases h' with
    | get h' => exact h.unique h'
  | has h =>
    cases h' with
    | has h' => exact h.unique h'
  | remove h =>
    cases h' with
    | remove h' => exact h.unique h'
  | setKey h =>
    cases h' with
    | setKey h' => exact h.unique h'
    | setValue hkey => exact absurd hkey h.not_reads
  | setValue hkey h =>
    cases h' with
    | setKey h' => exact absurd hkey h'.not_reads
    | setValue _ h' => exact h.unique h'
  | order h =>
    cases h' with
    | order h' => exact h.unique h'
    | start horder | stop horder => exact absurd horder h.not_orderLike
  | start horder h =>
    cases h' with
    | order h' => exact absurd horder h'.not_orderLike
    | start _ h' => exact h.2.unique h'.2
    | stop _ hstart => exact absurd hstart h.not_boundLike
  | stop horder hstart h =>
    cases h' with
    | order h' => exact absurd horder h'.not_orderLike
    | start _ h' => exact absurd hstart h'.not_boundLike
    | stop _ _ h' => exact h.2.unique h'.2

end StoreCall

/-! ## Effects -/

namespace Effect

variable {α β : Type}

/-- what a command that is tried leaves: its answer and the session after it, or the refusal and the session as it was -/
def outcome (s : Session) : Except Refusal (α × Session) → Except Interruption α × Session
  | .ok (a, t) => (.ok a, t)
  | .error r => (.error (.refused r), s)

/-- a check that goes through leaves the rest to be done, and one that fails leaves the session as it is -/
theorem check_bind {s : Session} {x : Except Refusal α} {f : α → Effect β} {y : α → Except Refusal (β × Session)}
    (h : ∀ a, (f a).on s = outcome s (y a)) : (check x >>= f).on s = outcome s (x >>= y) := by
  cases x with
  | ok a => exact h a
  | error r => rfl

theorem called_bind (i : StoreId) (f : Store × SortedMap → Effect β) (s : Session) :
    (called i >>= f).on s = (check (s.storeWithMap i) >>= f).on s := by
  rw [called, bind_assoc]
  rfl

theorem intact_bind {x : Except Fault α} {f : α → Effect β} {s : Session} {a : α} (h : x = .ok a) :
    (intact x >>= f).on s = (f a).on s := by
  subst h
  rfl

end Effect

namespace Session

open Effect

variable {s : Session} {b : Books} {i : StoreId}

theorem outcome_attempt (s : Session) (c : Command) :
    outcome s (s.attempt c) = ((s.step c).1.mapError .refused, (s.step c).2) := by
  cases h : s.attempt c with
  | error r =>
    rw [step_of_error h]
    rfl
  | ok r =>
    rw [step_of_ok h]
    rfl

/-- **A call looks before it does anything**: what it does one thing after the other is what the command that it stands for
does at once or not at all. -/
theorem Shown.perform_eq_step (h : s.Shown b) (i : StoreId) (call : StoreCall) :
    (call.perform i).on s = ((s.step (call.command i)).1.mapError .refused, (s.step (call.command i)).2) := by
  rw [← outcome_attempt]
  -- a store that is called has a map that is sound
  have hcalled : ∀ {f : Store × SortedMap → Effect Answer} {y : Store × SortedMap → Except Refusal (Answer × Session)},
      (∀ x m, m.Sound → (f (x, m)).on s = outcome s (y (x, m))) →
        (called i >>= f).on s = outcome s (s.storeWithMap i >>= y) := by
    intro f y hf
    rw [called_bind]
    rcases h.find_store i with ⟨hx, -⟩ | ⟨x, m, hx, -, -, hm, -⟩
    · rw [hx]
      rfl
    · rw [hx]
      exact hf x m hm
  cases call with
  | get key =>
    refine hcalled fun x m hm => ?_
    simp only [Store.get, bind_assoc, pure_bind]
    exact check_bind fun k => rfl
  | has key =>
    refine hcalled fun x m hm => ?_
    simp only [Store.has, bind_assoc, pure_bind]
    exact check_bind fun k => rfl
  | remove key =>
    refine hcalled fun x m hm => ?_
    simp only [Store.remove, bind_assoc, pure_bind]
    refine check_bind fun k => ?_
    rw [intact_bind (SortedMap.erase_sound hm k).1]
    rfl
  | set key value =>
    refine hcalled fun x m hm => ?_
    simp only [Store.set, bind_assoc, pure_bind]
    refine check_bind fun k => check_bind fun v => ?_
    rw [intact_bind (SortedMap.insert_sound hm k v).1]
    rfl
  | range start stop order =>
    refine hcalled fun x m hm => ?_
    simp only [Store.range, bind_assoc, pure_bind]
    refine check_bind fun d => check_bind fun k => check_bind fun l => ?_
    cases Range.ofMap m k l d <;> rfl

/-- a call that looks at a key and at nothing else -/
theorem spec_of_key {call : StoreCall} (key : Argument) (f : Bytes → Answer × Session)
    (hattempt : s.attempt (call.command i) = key.asKey.map f) (hrefused : ∀ r, key.Unfit .badKey r → call.Refused r)
    (hformed : key.Reads → call.WellFormed) :
    (∃ r, call.Refused r ∧ s.attempt (call.command i) = .error r) ∨
      (call.WellFormed ∧ ∃ a t, s.attempt (call.command i) = .ok (a, t)) := by
  rw [hattempt]
  rcases key.asKey_spec with ⟨hkey, k, hk⟩ | ⟨r, hkey, hk⟩
  · exact .inr ⟨hformed hkey, (f k).1, (f k).2, by rw [hk]; rfl⟩
  · exact .inl ⟨r, hrefused r hkey, by rw [hk]; rfl⟩

/-- a call on a store that exists is refused for a reason that its arguments give, or they give none and it is answered -/
theorem Shown.attempt_spec (h : s.Shown b) (hi : i < s.stores.length) (call : StoreCall) :
    (∃ r, call.Refused r ∧ s.attempt (call.command i) = .error r) ∨
      (call.WellFormed ∧ ∃ a t, s.attempt (call.command i) = .ok (a, t)) := by
  obtain ⟨x, m, hx⟩ : ∃ x m, s.storeWithMap i = .ok (x, m) := by
    rcases h.find_store i with ⟨-, hb, -⟩ | ⟨x, m, hx, -⟩
    · rw [← h.stores, List.getElem?_eq_none_iff] at hb
      exact absurd hi (Nat.not_lt.mpr hb)
    · exact ⟨x, m, hx⟩
  cases call with
  | get key =>
    refine spec_of_key key (fun k => (.reading (m.get? k) (x.prices.read k), s)) ?_ (fun _ => .get) id
    simp only [StoreCall.command, attempt, hx, Store.get]
    cases key.asKey <;> rfl
  | has key =>
    refine spec_of_key key (fun k => (.flag (m.contains k), s)) ?_ (fun _ => .has) id
    simp only [StoreCall.command, attempt, hx, Store.has]
    cases key.asKey <;> rfl
  | remove key =>
    refine spec_of_key key (fun k => (.count (x.prices.remove k), s.setMap x.map (m.erase k).2)) ?_ (fun _ => .remove) id
    simp only [StoreCall.command, attempt, hx, Store.remove]
    cases key.asKey <;> rfl
  | set key value =>
    rcases key.asKey_spec with ⟨hkey, k, hk⟩ | ⟨r, hkey, hk⟩
    · rcases value.asValue_spec with ⟨hvalue, v, hv⟩ | ⟨r, hvalue, hv⟩
      · refine .inr ⟨⟨hkey, hvalue⟩, ?_⟩
        simp only [StoreCall.command, attempt, hx, Store.set, hk, hv, bind, Except.bind]
        exact ⟨_, _, rfl⟩
      · refine .inl ⟨r, .setValue hkey hvalue, ?_⟩
        simp only [StoreCall.command, attempt, hx, Store.set, hk, hv, bind, Except.bind]
    · refine .inl ⟨r, .setKey hkey, ?_⟩
      simp only [StoreCall.command, attempt, hx, Store.set, hk, bind, Except.bind]
  | range start stop order =>
    rcases Argument.asDirection_spec order with ⟨horder, d, hd⟩ | ⟨a, r, rfl, ha, hd⟩
    · rcases start.asBound_spec with ⟨hstart, k, hk⟩ | ⟨r, hstart, hk⟩
      · rcases stop.asBound_spec with ⟨hstop, l, hl⟩ | ⟨r, hstop, hl⟩
        · refine .inr ⟨⟨horder, hstart, hstop⟩, ?_⟩
          simp only [StoreCall.command, attempt, hx, Store.range, hd, hk, hl, bind, Except.bind]
          exact ⟨_, _, rfl⟩
        · refine .inl ⟨r, .stop horder hstart hstop, ?_⟩
          simp only [StoreCall.command, attempt, hx, Store.range, hd, hk, hl, bind, Except.bind]
      · refine .inl ⟨r, .start horder hstart, ?_⟩
        simp only [StoreCall.command, attempt, hx, Store.range, hd, hk, bind, Except.bind]
    · refine .inl ⟨r, .order ha, ?_⟩
      simp only [StoreCall.command, attempt, hx, Store.range, hd, bind, Except.bind]

/-- a call on a store that exists leaves the session as it was, or it is answered -/
theorem Shown.perform_spec (h : s.Shown b) (hi : i < s.stores.length) (call : StoreCall) :
    (∃ r, call.Refused r ∧ (call.perform i).on s = (.error (.refused r), s)) ∨
      (call.WellFormed ∧ ∃ a t, (call.perform i).on s = (.ok a, t)) := by
  rw [h.perform_eq_step, ← outcome_attempt]
  rcases h.attempt_spec hi call with ⟨r, hr, hattempt⟩ | ⟨hformed, a, t, hattempt⟩
  · rw [hattempt]
    exact .inl ⟨r, hr, rfl⟩
  · rw [hattempt]
    exact .inr ⟨hformed, a, t, rfl⟩

/-! ## Runs without the calls that were refused -/

/-- the answers of a run and the commands that got them, without those commands that `p` selects and that were refused -/
def remaining (p : Command → Bool) (s : Session) (cs : List Command) : List (Except Refusal Answer × Command) :=
  ((s.run cs).1.zip cs).filter fun x => x.1.isOk || !p x.2

/-- commands that are refused might as well not be given -/
theorem run_remaining (p : Command → Bool) (s : Session) (cs : List Command) :
    s.run ((s.remaining p cs).map Prod.snd) = ((s.remaining p cs).map Prod.fst, (s.run cs).2) := by
  induction cs generalizing s with
  | nil => rfl
  | cons c cs ih =>
    have hrest := ih (s.step c).2
    have hzip : s.remaining p (c :: cs) = ((((s.step c).1, c) :: ((s.step c).2.run cs).1.zip cs).filter
        fun x => x.1.isOk || !p x.2) := rfl
    rw [hzip, List.filter_cons]
    split
    · -- the command stays
      simp only [List.map_cons, run]
      rw [remaining] at hrest
      rw [hrest]
    · next hout =>
      -- the command was refused, so the session is as it was
      have hsame : (s.step c).2 = s := by
        cases ha : (s.step c).1 with
        | error r => exact step_refused ha
        | ok a => simp [ha, Except.isOk, Except.toBool] at hout
      have hrun : (s.run (c :: cs)).2 = ((s.step c).2.run cs).2 := rfl
      rw [hrun, hsame]
      rw [remaining, hsame] at hrest
      exact hrest

/-- **Refused calls leave no trace.** In every session that commands lead to, a call on a store, with arguments of any type, is
refused for the reason that its arguments give, and else answered. A refused call has changed nothing when it ends: no map, no
iterator, no cursor, no log. A run without some of the calls that were refused in it has the same other answers and session. -/
theorem calls_refused (cs : List Command) :
    let s := (empty.run cs).2
    (∀ i < s.stores.length, ∀ call : StoreCall,
      (∀ r, ((call.perform i).on s).1 = .error (.refused r) ↔ call.Refused r) ∧
      ((∃ a, ((call.perform i).on s).1 = .ok a) ↔ call.WellFormed) ∧
      (∀ e, ((call.perform i).on s).1 = .error e → ((call.perform i).on s).2 = s) ∧
      (call.perform i).on s = ((s.step (call.command i)).1.mapError .refused, (s.step (call.command i)).2)) ∧
    (∀ order d, Argument.asDirection (some order) = .ok d ↔ order.Equals d.code) ∧
    (∀ a, (Refusal.badKey a).message = "key must be bytes-like, got " ++ a.typeName ∧
      (Refusal.badValue a).message = "value must be bytes-like, got " ++ a.typeName) ∧
    ∀ p, empty.run ((empty.remaining p cs).map Prod.snd) = ((empty.remaining p cs).map Prod.fst, s) := by
  intro s
  have hs := run_shown shown_empty cs
  refine ⟨fun i hi call => ?_, Argument.asDirection_eq_ok, fun a => ⟨rfl, rfl⟩, fun p => run_remaining p empty cs⟩
  have hstep := hs.perform_eq_step i call
  rcases hs.perform_spec hi call with ⟨r, hr, hperform⟩ | ⟨hformed, a, t, hperform⟩
  · rw [hperform] at hstep ⊢
    refine ⟨fun r' => ⟨?_, ?_⟩, ⟨?_, fun h => absurd h hr.not_wellFormed⟩, fun _ _ => rfl, hstep⟩
    · intro h
      cases h
      exact hr
    · intro h
      rw [hr.unique h]
    · rintro ⟨a, ha⟩
      cases ha
  · rw [hperform] at hstep ⊢
    refine ⟨fun r' => ⟨?_, fun h => absurd hformed h.not_wellFormed⟩, ⟨fun _ => hformed, fun _ => ⟨a, rfl⟩⟩, ?_, hstep⟩
    · intro h
      cases h
    · intro e h
      cases h

/-- a text for a value, and a view that has been given back for a key, between calls that are answered; then a range with a truth
value for its direction and a text for its end -/
theorem calls_refused_between :
    let cs : List Command := [.newStore .standard none, .set 0 (.bytes [1]) (.text "x"), .set 0 (.bytes [1]) (.bytes [2]),
      .get 0 .released, .get 0 (.bytes [1])]
    let call : StoreCall := .range (.bytes [3]) (.text "k") (some (.bool true))
    (empty.remaining (fun _ => true) cs).length = 3 ∧
      empty.run ((empty.remaining (fun _ => true) cs).map Prod.snd) =
        ((empty.remaining (fun _ => true) cs).map Prod.fst, (empty.run cs).2) ∧
      0 < (empty.run cs).2.stores.length ∧
      ((call.perform 0).on (empty.run cs).2).1 = .error (.refused (.badKey (.text "k"))) := by
  intro cs call
  obtain ⟨hcalls, hdirection, -, hremaining⟩ := calls_refused cs
  have hstore : 0 < (empty.run cs).2.stores.length := by decide +kernel
  have horder : Argument.OrderLike (some (.bool true)) := .inl ((hdirection (.bool true) .ascending).mp rfl)
  have htext : (Argument.text "k").UnfitBound (.badKey (.text "k")) := ⟨by simp, .type (by simp [Argument.BytesLike])⟩
  have hrefused : call.Refused (.badKey (.text "k")) := .stop horder (.inr ⟨[3], rfl⟩) htext
  exact ⟨by decide +kernel, hremaining _, hstore, ((hcalls 0 hstore call).1 _).mpr hrefused⟩

/-- bytes that lie apart are in no one piece of memory, and are a key all the same; a view that has been given back is no bad
key, and makes a range fail for its value though the direction is one; a direction that cannot be compared fails otherwise -/
theorem calls_refused_released :
    let s := (empty.run [.newStore .standard none]).2
    let apart : Argument := .view [1, 2, 3] false 1
    let signaling : Argument := .other "Decimal" "Decimal('sNaN')" none
      (.error ⟨"InvalidOperation", "[<class 'decimal.InvalidOperation'>]"⟩)
    (((StoreCall.get apart).perform 0).on s).1 = .ok (.reading none 2) ∧
      (∃ f : Failure, f.name = "ValueError" ∧ Argument.released.typeName = "memoryview" ∧
        (((StoreCall.get .released).perform 0).on s).1 = .error (.refused (.failed f)) ∧ (Argument.int 1).Equals 1 ∧
        (((StoreCall.range .released .nothing (some (.int 1))).perform 0).on s).1 = .error (.refused (.failed f))) ∧
      ∃ f : Failure, f.name = "InvalidOperation" ∧
        (((StoreCall.range .nothing .nothing (some signaling)).perform 0).on s).1 = .error (.refused (.failed f)) := by
  intro s apart signaling
  have hone : (Argument.int 1).Equals 1 := (Argument.asDirection_eq_ok (.int 1) .ascending).mp rfl
  exact ⟨rfl, ⟨⟨"ValueError", "operation forbidden on released memoryview object"⟩, rfl, rfl, rfl, hone, rfl⟩,
    ⟨"InvalidOperation", "[<class 'decimal.InvalidOperation'>]"⟩, rfl, rfl⟩

end Session

end MeteredStore
