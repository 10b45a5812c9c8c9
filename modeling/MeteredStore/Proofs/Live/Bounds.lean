/-
Do the keys of a live walk stay within its bounds?

The near bound is looked at when a node is pushed and the far bound when its turn comes. Between the two the node may get
another key, always a greater one: the next key in order, when its own is deleted (`node?_write`). So a node on the stack is
still not near, unless it has been carried over the near bound in this way (`stack_near`).

Upwards the near bound is the start, and greater keys do not come before it: `ascending_within`, all keys are within the
bounds. Downwards the near bound is the stop. `descending_overrun`, a key can be carried over it; `descending_within`, this
is the only way in which a key beyond the stop is answered, and no key before the start ever is.
-/
import MeteredStore.Proofs.Live.Basic

namespace MeteredStore

namespace Bounds

variable {b : Bounds} {key : Bytes}

theorem precedes_eq_false_iff : b.precedes key = false ↔ ∀ s ∈ b.start, ¬ key < s := by
  obtain ⟨start, stop⟩ := b
  cases start <;> simp [precedes]

theorem follows_eq {s : Bytes} (h : s ∈ b.stop) : b.follows key = !decide (key < s) := by
  obtain ⟨start, stop⟩ := b
  obtain rfl : stop = some s := h
  rfl

end Bounds

namespace Live

variable {ws : List SortedMap.Write} {b : Bounds} {d : Direction} {es : List Event} {i : NodeId}

/-- since the cursor was made, the key of the node has been deleted when it was not near and the next key was: that one
took its place -/
def Carried (ws : List SortedMap.Write) (b : Bounds) (d : Direction) (es : List Event) (i : NodeId) : Prop :=
  ∃ front n key, front ++ [.write (.delete n.entry.key)] <+: es ∧ (after ws b d front).map.node? i = some n ∧
    Bindings.Adjacent (after ws b d front).map.toList n.entry.key key ∧ b.isNear d n.entry.key = false ∧ b.isNear d key = true

theorem Carried.concat (h : Carried ws b d es i) (e : Event) : Carried ws b d (es ++ [e]) i := by
  obtain ⟨front, n, key, hfront, hrest⟩ := h
  exact ⟨front, n, key, hfront.trans (List.prefix_append es [e]), hrest⟩

/-- a greater key is not near in a walk upwards, if the smaller one is not -/
theorem not_carried_ascending : ¬ Carried ws b .ascending es i := by
  rintro ⟨front, n, key, -, -, hadj, hn, hk⟩
  rw [Bounds.isNear_of_before (d := .ascending) hadj.lt hk] at hn
  cases hn

/-- a write leaves a node where it is with respect to the near bound, or carries it over the bound -/
theorem near_write (w : SortedMap.Write) {n : Node} (hn : (after ws b d es).map.node? i = some n)
    (h : b.isNear d n.entry.key = false ∨ Carried ws b d es i) :
    ∃ n', (after ws b d (es ++ [.write w])).map.node? i = some n' ∧
      (b.isNear d n'.entry.key = false ∨ Carried ws b d (es ++ [.write w]) i) := by
  obtain ⟨n', hn', hkey⟩ := SortedMap.node?_write (sound_after ws b d es) w hn
  refine ⟨n', by rw [map_after_write]; exact hn', ?_⟩
  rcases h with h | h
  · rcases hkey with hkey | ⟨rfl, hadj⟩
    · exact .inl (hkey ▸ h)
    · cases hnear : b.isNear d n'.entry.key with
      | false => exact .inl rfl
      | true => exact .inr ⟨es, n, n'.entry.key, List.prefix_refl _, hn, hadj, h, hnear⟩
  · exact .inr (h.concat _)

/-- **What is on the stack.** Whatever has happened since the cursor was made, the nodes on its stack are nodes of the map,
and each has a key that is not near, or has been carried over the near bound. -/
theorem stack_near (es : List Event) : ∀ i ∈ (after ws b d es).cursor.stack, ∃ n, (after ws b d es).map.node? i = some n ∧
    (b.isNear d n.entry.key = false ∨ Carried ws b d es i) := by
  induction es using List.reverseRecOn with
  | nil =>
    intro i hi
    rcases Cursor.mem_pushTree hi with hi | ⟨e, he, rfl, hnear⟩
    · cases hi
    · obtain ⟨n, -, hn, rfl⟩ := (SortedMap.sound_written ws).node?_of_mem he
      exact ⟨n, hn, .inl hnear⟩
  | append_singleton es e ih =>
    intro i hi
    cases e with
    | write w =>
      rw [after_concat] at hi
      obtain ⟨n, hn, h⟩ := ih i hi
      exact near_write w hn h
    | next =>
      rw [map_after_next]
      rcases mem_stack_next hi (P := fun _ => True) (by simp) (by simp) (by simp) with hi | ⟨-, n, hn, hnear⟩
      · obtain ⟨n, hn, h⟩ := ih i hi
        exact ⟨n, hn, h.imp_right fun h => h.concat _⟩
      · exact ⟨n, hn, .inl hnear⟩

/-- an answer has a key that is not far, and not near either unless its node has been carried over the near bound -/
theorem answer_near {pair : Bytes × Bytes} (h : (after ws b d es).answer = some pair) :
    b.isFar d pair.1 = false ∧
      (b.isNear d pair.1 = false ∨ ∃ i, (after ws b d es).top? = some i ∧ Carried ws b d es i) := by
  obtain ⟨i, n, htop, hi, hn, rfl, hfar⟩ := answer_eq_some h
  obtain ⟨n', hn', hnear⟩ := stack_near es i hi
  obtain rfl : n' = n := Option.some.inj (hn'.symm.trans hn)
  refine ⟨hfar, ?_⟩
  rcases hnear with hnear | hcarried
  · exact .inl hnear
  · exact .inr ⟨i, htop, hcarried⟩

/-- **Walks upwards stay within their bounds.** On every map that writes lead to, for any bounds, and whatever is written to
the map between the steps, a cursor upwards answers no key before the start and none from the stop on. -/
theorem ascending_within (ws : List SortedMap.Write) (b : Bounds) (es : List Event) {pair : Bytes × Bytes}
    (h : (after ws b .ascending es).answer = some pair) :
    (∀ s ∈ b.start, ¬ pair.1 < s) ∧ ∀ s ∈ b.stop, pair.1 < s := by
  obtain ⟨hfar, hnear | ⟨i, -, hcarried⟩⟩ := answer_near h
  · rw [← Bounds.contains_iff, Bounds.contains_eq b .ascending, hnear, hfar]
    rfl
  · exact absurd hcarried not_carried_ascending

/-- a node that was overwritten and is answered after it -/
theorem ascending_within_overwritten :
    (after [.put [1] [10], .put [2] [20], .put [3] [30], .put [4] [40]] ⟨some [1], some [4]⟩ .ascending
      [.next, .write (.delete [2])]).answer = some ([3], [30]) ∧
      (∀ s ∈ some [1], ¬ ([3] : Bytes) < s) ∧ ∀ s ∈ some [4], ([3] : Bytes) < s :=
  have h : (after [.put [1] [10], .put [2] [20], .put [3] [30], .put [4] [40]] ⟨some [1], some [4]⟩ .ascending
      [.next, .write (.delete [2])]).answer = some ([3], [30]) := by decide +kernel
  ⟨h, ascending_within _ _ _ h⟩

/-- **Walks downwards can be carried over the stop.** A cursor downwards from before key 3 stands at key 2; key 2 is deleted;
the cursor answers key 3. -/
theorem descending_overrun :
    ¬ ∀ (ws : List SortedMap.Write) (b : Bounds) (es : List Event) (pair : Bytes × Bytes),
      (after ws b .descending es).answer = some pair → (∀ s ∈ b.start, ¬ pair.1 < s) ∧ ∀ s ∈ b.stop, pair.1 < s := by
  intro h
  have hpair : (after [.put [1] [10], .put [2] [20], .put [3] [30]] ⟨none, some [3]⟩ .descending
      [.write (.delete [2])]).answer = some ([3], [30]) := by decide +kernel
  have hstop := (h _ _ _ _ hpair).2 [3] rfl
  exact Bytes.lt_irrefl _ hstop

/-- **Walks downwards stay within their bounds but for this.** A cursor downwards answers no key before the start. It answers
a key from the stop on only from a node whose own key, the last one before the stop, was deleted since the cursor was made,
when there were keys from the stop on and the first of them took its place. -/
theorem descending_within (ws : List SortedMap.Write) (b : Bounds) (es : List Event) {pair : Bytes × Bytes}
    (h : (after ws b .descending es).answer = some pair) :
    (∀ s ∈ b.start, ¬ pair.1 < s) ∧ ∀ s ∈ b.stop, pair.1 < s ∨
      ∃ i front n key, (after ws b .descending es).top? = some i ∧ front ++ [.write (.delete n.entry.key)] <+: es ∧
        (after ws b .descending front).map.node? i = some n ∧
        Bindings.Adjacent (after ws b .descending front).map.toList n.entry.key key ∧ n.entry.key < s ∧ ¬ key < s := by
  obtain ⟨hfar, hnear⟩ := answer_near h
  refine ⟨Bounds.precedes_eq_false_iff.mp hfar, ?_⟩
  intro s hs
  rcases hnear with hnear | ⟨i, htop, front, n, key, hfront, hn, hadj, hin, hout⟩
  · rw [Bounds.isNear, Bounds.follows_eq hs] at hnear
    exact .inl (by simpa using hnear)
  · rw [Bounds.isNear, Bounds.follows_eq hs] at hin hout
    exact .inr ⟨i, front, n, key, htop, hfront, hn, hadj, by simpa using hin, by simpa using hout⟩

/-- what was deleted to carry the walk over the stop -/
theorem descending_within_carried :
    (after [.put [1] [10], .put [2] [20], .put [3] [30]] ⟨none, some [3]⟩ .descending [.write (.delete [2])]).answer =
      some ([3], [30]) ∧ ∃ (front : List Event) (n : Node) (key : Bytes),
        front ++ [.write (.delete n.entry.key)] <+: [.write (.delete [2])] ∧
        Bindings.Adjacent (after [.put [1] [10], .put [2] [20], .put [3] [30]] ⟨none, some [3]⟩ .descending front).map.toList
          n.entry.key key ∧ n.entry.key < [3] ∧ ¬ key < [3] := by
  have h : (after [.put [1] [10], .put [2] [20], .put [3] [30]] ⟨none, some [3]⟩ .descending
      [.write (.delete [2])]).answer = some ([3], [30]) := by decide +kernel
  refine ⟨h, ?_⟩
  rcases (descending_within _ _ _ h).2 [3] rfl with hlt | ⟨i, front, n, key, -, hfront, -, hadj, hn, hkey⟩
  · exact absurd hlt (Bytes.lt_irrefl _)
  · exact ⟨front, n, key, hfront, hadj, hn, hkey⟩

end Live

end MeteredStore
