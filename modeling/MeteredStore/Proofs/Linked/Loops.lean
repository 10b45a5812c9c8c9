/-
A loop beside a machine.

A loop on cells and a machine that repairs a tree go along with each other when, at the head of every turn, the cells are as
the state of the machine says, and each turn of the loop is a turn of the machine (`Along`). What is known of all turns of the
machine is then known of the loop: that it ends (`exists_along`, `Along.turns_eq`), how often it rotates (`Along.reshaped`),
and that turns which count are few when none comes after them (`Along.sum_le`).

`turns_map`: a loop on states that are read in another way is the same loop, if each turn is the same turn. `turns_of_le`: a
loop that may take enough turns is not cut short.
-/
import MeteredStore.Proofs.Linked.Cells

namespace MeteredStore.Linked

variable {α β σ τ : Type} {turn : α → Option (Option α)} {last : α → Option β} {like : α → σ → Prop}
  {makes : σ → τ → σ → Prop} {a b : α} {s u : σ} {ts : List τ} {n : Nat}

/-- a loop runs from one state to another, at which no turn is due. At the head of each turn, and at the end, it is `like` the
machine, which `makes` a turn of its own at each turn of the loop -/
inductive Along (turn : α → Option (Option α)) (like : α → σ → Prop) (makes : σ → τ → σ → Prop) :
    α → σ → List τ → α → σ → Prop where
  | done {a : α} {s : σ} (hlike : like a s) (hturn : turn a = some none) : Along turn like makes a s [] a s
  | more {a b c : α} {s u v : σ} {t : τ} {ts : List τ} (hlike : like a s) (hturn : turn a = some (some b))
      (hmakes : makes s t u) (rest : Along turn like makes b u ts c v) : Along turn like makes a s (t :: ts) c v

/-- the loop ends where no turn is due, if it may take that many turns -/
theorem Along.turns_eq (h : Along turn like makes a s ts b u) (hn : ts.length < n) : turns turn last n a = last b := by
  induction h generalizing n with
  | done _ hturn =>
    obtain ⟨n, rfl⟩ := Nat.exists_eq_add_one.mpr hn
    exact turns_of_none hturn
  | more _ hturn _ _ ih =>
    obtain ⟨n, rfl⟩ := Nat.exists_eq_add_one.mpr (Nat.zero_lt_of_lt hn)
    rw [turns_of_some hturn]
    exact ih (Nat.lt_of_succ_lt_succ hn)

/-- a loop whose turns are turns of a machine that comes to an end comes to an end with it -/
theorem exists_along (measure : σ → Nat)
    (hstep : ∀ a s, like a s → turn a = some none ∨
      ∃ b t u, turn a = some (some b) ∧ makes s t u ∧ like b u ∧ measure u < measure s) (h : like a s) :
    ∃ ts b u, Along turn like makes a s ts b u ∧ ts.length ≤ measure s := by
  induction hm : measure s using Nat.strong_induction_on generalizing a s with
  | _ m ih =>
    rcases hstep a s h with hturn | ⟨b, t, u, hturn, hmakes, hlike, hlt⟩
    · exact ⟨[], a, s, .done h hturn, Nat.zero_le _⟩
    · obtain ⟨ts, c, v, hrest, hlength⟩ := ih _ (hm ▸ hlt) hlike rfl
      exact ⟨t :: ts, c, v, .more h hturn hmakes hrest, Nat.succ_le_of_lt (Nat.lt_of_le_of_lt hlength (hm ▸ hlt))⟩

/-- turns that count are few, when each is the last one and counts for no more than `k` -/
theorem Along.sum_le {cost : τ → Nat} {k : Nat} (h : Along turn like makes a s ts b u)
    (hcost : ∀ a s t u, like a s → makes s t u → cost t = 0 ∨ cost t ≤ k ∧ ∀ t' v, ¬ makes u t' v) :
    (ts.map cost).sum ≤ k := by
  induction h with
  | done => exact Nat.zero_le k
  | more hlike _ hmakes rest ih =>
    rw [List.map_cons, List.sum_cons]
    rcases hcost _ _ _ _ hlike hmakes with hzero | ⟨hle, hlast⟩
    · rwa [hzero, Nat.zero_add]
    · cases rest with
      | done => exact hle
      | more _ _ hmakes' _ => exact absurd hmakes' (hlast _ _)

/-- the rotations of all turns together -/
theorem Along.reshaped {turn : NodeId × Linked → Option (Option (NodeId × Linked))} {like : NodeId × Linked → σ → Prop}
    {x y : NodeId × Linked} {cost : τ → Nat} (h : Along turn like makes x s ts y u)
    (hcost : ∀ x s y t u, like x s → turn x = some (some y) → makes s t u → Reshaped (cost t) x.2 y.2) :
    Reshaped (ts.map cost).sum x.2 y.2 := by
  induction h with
  | done => exact .refl _
  | more hlike hturn hmakes _ ih => exact (hcost _ _ _ _ _ hlike hturn hmakes).trans ih

/-- a loop that may take as many turns as are due takes no other turns when it may take more -/
theorem turns_of_le (due : Nat → α → Prop) (hturn : ∀ m a b, due m a → turn a = some (some b) → ∃ k < m, due k b) {m n' : Nat}
    (ha : due m a) (hm : m < n) (hn : n ≤ n') : turns turn last n' a = turns turn last n a := by
  induction n generalizing a m n' with
  | zero => exact absurd hm (Nat.not_lt_zero m)
  | succ n ih =>
    obtain ⟨n', rfl⟩ := Nat.exists_eq_add_one.mpr (Nat.zero_lt_of_lt hn)
    cases hr : turn a with
    | none => simp [turns, hr]
    | some r =>
      cases r with
      | none => rw [turns_of_none hr, turns_of_none hr]
      | some b =>
        obtain ⟨k, hk, hb⟩ := hturn m a b ha hr
        rw [turns_of_some hr, turns_of_some hr]
        exact ih hb (Nat.lt_of_lt_of_le hk (Nat.le_of_lt_succ hm)) (Nat.le_of_succ_le_succ hn)

/-- the same loop on the same states, read in another way -/
theorem turns_map (known : α → Prop) {f : α → α} {g : β → β}
    (hturn : ∀ a, known a → turn (f a) = (turn a).map (Option.map f))
    (hknown : ∀ a b, known a → turn a = some (some b) → known b)
    (hlast : ∀ a, known a → last (f a) = (last a).map g) (n : Nat) (ha : known a) :
    turns turn last n (f a) = (turns turn last n a).map g := by
  induction n generalizing a with
  | zero => rfl
  | succ n ih =>
    have hfirst := hturn a ha
    cases hr : turn a with
    | none =>
      rw [hr] at hfirst
      simp [turns, hr, hfirst]
    | some r =>
      rw [hr] at hfirst
      cases r with
      | none =>
        rw [turns_of_none hr, turns_of_none hfirst]
        exact hlast a ha
      | some b =>
        rw [turns_of_some hr, turns_of_some hfirst]
        exact ih (hknown a b ha hr)

end MeteredStore.Linked
