/-
Which arguments are well-formed.

A key or a value has to pass for bytes (`BytesLike`) and to be read (`Reads`), a bound may be absent as well, and a direction
has to equal one or two. Equality is that of exact values (`same_ofInt_iff`), so a truth value, a whole number, a binary
fraction and anything else that says so may all equal the number one. `Unfit`, `UnfitBound` and `UnfitOrder` say why an
argument is not taken: it is not what it has to be, or it fails itself.

Main statements: `asKey_spec`, `asValue_spec`, `asBound_spec` and `asDirection_spec`, an argument is taken just when it is
well-formed, and otherwise there is one reason why not; `asDirection_eq_ok`, a direction is the one whose number is equalled.
-/
import Mathlib.Tactic
import MeteredStore.Refusal

namespace MeteredStore

/-- the exact value of a finite number -/
def Number.value? : Number → Option ℚ
  | .finite negative m q => some (signed negative m * 2 ^ q)
  | _ => none

/-- the number of a direction -/
def Direction.code : Direction → ℚ
  | .ascending => 1
  | .descending => 2

namespace Argument

/-- a byte string, a buffer, a view of bytes however far apart, or what else passes for one of these -/
def BytesLike : Argument → Prop
  | .bytes _ | .buffer _ | .view _ _ _ => True
  | .other _ _ content _ => content.isSome
  | _ => False

/-- it passes for bytes, and can be read -/
def Reads (a : Argument) : Prop := ∃ b, a.content? = some (.ok b)

/-- it passes for bytes, and fails when it is read -/
def Fails (a : Argument) (f : Failure) : Prop := a.content? = some (.error f)

/-- the argument equals this number: it is the number, whole or broken, or a truth value that counts as it, or anything else
that says it equals it -/
def Equals (a : Argument) (x : ℚ) : Prop := ∃ n, a.number = .ok (some n) ∧ n.value? = some x

/-- why an argument is not taken, where `bad` is for those that do not pass for bytes -/
inductive Unfit (bad : Argument → Refusal) (a : Argument) : Refusal → Prop where
  | type (h : ¬ a.BytesLike) : Unfit bad a (bad a)
  | fails {f : Failure} (h : a.Fails f) : Unfit bad a (.failed f)

/-- why a bound is not taken; it may be absent -/
def UnfitBound (a : Argument) (r : Refusal) : Prop := a ≠ .nothing ∧ a.Unfit .badKey r

/-- why a direction is not taken -/
inductive UnfitOrder (a : Argument) : Refusal → Prop where
  | value {n : Option Number} (h : a.number = .ok n) (h₁ : ¬ a.Equals 1) (h₂ : ¬ a.Equals 2) : UnfitOrder a (.badOrder a)
  | fails {f : Failure} (h : a.number = .error f) : UnfitOrder a (.failed f)

/-- a bound may be absent -/
def BoundLike (a : Argument) : Prop := a = .nothing ∨ a.Reads

/-- a direction may be left out -/
def OrderLike : Option Argument → Prop
  | none => True
  | some a => a.Equals 1 ∨ a.Equals 2

end Argument

namespace Number

theorem signed_mul (negative : Bool) (a b : Nat) : signed negative (a * b) = signed negative a * b := by
  cases negative <;> simp [signed]

/-- numbers are compared by their exact values -/
theorem same_ofInt_iff (x : Number) (n : Int) : x.same (ofInt n) = true ↔ x.value? = some (n : ℚ) := by
  cases x with
  | infinite s => simp [same, value?, ofInt]
  | undefined => simp [same, value?]
  | finite s m q =>
    have hsame : (finite s m q).same (ofInt n) = true ↔ signed s m * 2 ^ q.toNat = n * 2 ^ (-q).toNat := by
      simp only [same, ofInt, sub_zero, zero_sub, decide_eq_true_eq, signed_mul, signed_natAbs]
      norm_cast
    rw [hsame, value?, Option.some.injEq]
    rcases Int.le_total 0 q with hq | hq
    · obtain ⟨k, rfl⟩ := Int.eq_ofNat_of_zero_le hq
      have hneg : (-(k : Int)).toNat = 0 := by omega
      rw [hneg, Int.toNat_natCast, pow_zero, mul_one, zpow_natCast]
      exact_mod_cast Iff.rfl
    · obtain ⟨k, hk⟩ := Int.eq_ofNat_of_zero_le (Int.neg_nonneg_of_nonpos hq)
      obtain rfl : q = -(k : Int) := by omega
      have hpos : (-(k : Int)).toNat = 0 := by omega
      rw [hpos, neg_neg, Int.toNat_natCast, pow_zero, mul_one, zpow_neg, zpow_natCast,
        mul_inv_eq_iff_eq_mul₀ (pow_ne_zero k two_ne_zero)]
      exact_mod_cast Iff.rfl

end Number

namespace Argument

variable {a : Argument}

theorem bytesLike_iff : a.BytesLike ↔ a.content?.isSome = true := by cases a <;> simp [BytesLike, content?]

theorem Unfit.not_reads {bad : Argument → Refusal} {r : Refusal} (h : a.Unfit bad r) : ¬ a.Reads := by
  rintro ⟨b, hb⟩
  cases h with
  | type h => exact h (bytesLike_iff.mpr (by rw [hb]; rfl))
  | fails h => cases h.symm.trans hb

/-- there is one reason at most -/
theorem Unfit.unique {bad : Argument → Refusal} {r r' : Refusal} (h : a.Unfit bad r) (h' : a.Unfit bad r') : r = r' := by
  have hfails : ∀ {f}, a.Fails f → a.BytesLike := fun hf => bytesLike_iff.mpr (by rw [hf]; rfl)
  cases h with
  | type h =>
    cases h' with
    | type => rfl
    | fails h' => exact absurd (hfails h') h
  | fails h =>
    cases h' with
    | type h' => exact absurd (hfails h) h'
    | fails h' =>
      cases h.symm.trans h'
      rfl

theorem read_spec (bad : Argument → Refusal) (a : Argument) :
    (a.Reads ∧ ∃ b, a.read bad = .ok b) ∨ ∃ r, a.Unfit bad r ∧ a.read bad = .error r := by
  cases h : a.content? with
  | none => exact .inr ⟨_, .type (by simp [bytesLike_iff, h]), by simp only [read, h]⟩
  | some content =>
    cases content with
    | ok b => exact .inl ⟨⟨b, h⟩, b, by simp only [read, h]; rfl⟩
    | error f => exact .inr ⟨_, .fails h, by simp only [read, h]; rfl⟩

theorem asKey_spec (a : Argument) : (a.Reads ∧ ∃ b, a.asKey = .ok b) ∨ ∃ r, a.Unfit .badKey r ∧ a.asKey = .error r :=
  a.read_spec .badKey

theorem asValue_spec (a : Argument) : (a.Reads ∧ ∃ b, a.asValue = .ok b) ∨ ∃ r, a.Unfit .badValue r ∧ a.asValue = .error r :=
  a.read_spec .badValue

theorem UnfitBound.not_boundLike {r : Refusal} (h : a.UnfitBound r) : ¬ a.BoundLike := by
  rintro (hnothing | hreads)
  · exact h.1 hnothing
  · exact h.2.not_reads hreads

theorem asBound_spec (a : Argument) : (a.BoundLike ∧ ∃ b, a.asBound = .ok b) ∨ ∃ r, a.UnfitBound r ∧ a.asBound = .error r := by
  by_cases hnothing : a = .nothing
  · subst hnothing
    exact .inl ⟨.inl rfl, none, rfl⟩
  · have has : a.asBound = a.asKey.map some := by cases a <;> simp_all [asBound]
    rw [has]
    rcases a.asKey_spec with ⟨h, b, hb⟩ | ⟨r, h, hb⟩
    · exact .inl ⟨.inr h, some b, by rw [hb]; rfl⟩
    · exact .inr ⟨r, ⟨hnothing, h⟩, by rw [hb]; rfl⟩

/-- what an argument that can be compared is taken for -/
theorem asDirection_of_number {n : Number} (h : a.number = .ok (some n)) : asDirection (some a) =
    if n.value? = some 1 then .ok .ascending else if n.value? = some 2 then .ok .descending else .error (.badOrder a) := by
  have hone : n.same (.ofInt 1) = true ↔ n.value? = some 1 := by simpa using n.same_ofInt_iff 1
  have htwo : n.same (.ofInt 2) = true ↔ n.value? = some 2 := by simpa using n.same_ofInt_iff 2
  simp only [asDirection, h, hone, htwo]

theorem equals_of_number {n : Number} (h : a.number = .ok (some n)) (x : ℚ) : a.Equals x ↔ n.value? = some x := by
  simp [Equals, h]

/-- a direction is found by what the argument equals -/
theorem asDirection_eq_ok (a : Argument) (d : Direction) : asDirection (some a) = .ok d ↔ a.Equals d.code := by
  cases hn : a.number with
  | error f => simp [asDirection, Equals, hn]
  | ok x =>
    cases x with
    | none => simp [asDirection, Equals, hn]
    | some n =>
      rw [asDirection_of_number hn, equals_of_number hn]
      split
      · next h => cases d <;> simp [h, Direction.code]
      · split
        · next h => cases d <;> simp [h, Direction.code]
        · cases d <;> simp_all [Direction.code]

theorem asDirection_spec (order : Option Argument) :
    (OrderLike order ∧ ∃ d, asDirection order = .ok d) ∨
      ∃ a r, order = some a ∧ a.UnfitOrder r ∧ asDirection order = .error r := by
  cases order with
  | none => exact .inl ⟨trivial, .ascending, rfl⟩
  | some a =>
    cases hd : asDirection (some a) with
    | ok d =>
      have horder := (asDirection_eq_ok a d).mp hd
      refine .inl ⟨?_, d, rfl⟩
      cases d with
      | ascending => exact .inl horder
      | descending => exact .inr horder
    | error r =>
      have hno : ∀ d : Direction, ¬ a.Equals d.code := by
        intro d h
        rw [(asDirection_eq_ok a d).mpr h] at hd
        cases hd
      refine .inr ⟨a, r, rfl, ?_, rfl⟩
      cases hn : a.number with
      | error f =>
        simp only [asDirection, hn] at hd
        cases hd
        exact .fails hn
      | ok x =>
        have hbad : asDirection (some a) = .error (.badOrder a) := by
          cases x with
          | none => simp only [asDirection, hn]
          | some n =>
            have hone : ¬ n.value? = some 1 := mt (equals_of_number hn 1).mpr (hno .ascending)
            have htwo : ¬ n.value? = some 2 := mt (equals_of_number hn 2).mpr (hno .descending)
            rw [asDirection_of_number hn, if_neg hone, if_neg htwo]
        cases hbad.symm.trans hd
        exact .value hn (hno .ascending) (hno .descending)

theorem UnfitOrder.not_orderLike {r : Refusal} (h : a.UnfitOrder r) : ¬ OrderLike (some a) := by
  cases h with
  | value _ h₁ h₂ =>
    rintro (h | h)
    · exact h₁ h
    · exact h₂ h
  | fails h =>
    rintro (⟨n, hn, -⟩ | ⟨n, hn, -⟩) <;> cases h.symm.trans hn

theorem UnfitOrder.unique {r r' : Refusal} (h : a.UnfitOrder r) (h' : a.UnfitOrder r') : r = r' := by
  cases h with
  | value h =>
    cases h' with
    | value => rfl
    | fails h' => cases h.symm.trans h'
  | fails h =>
    cases h' with
    | value h' => cases h.symm.trans h'
    | fails h' =>
      cases h.symm.trans h'
      rfl

example : asDirection (some (.bool true)) = .ok .ascending := rfl

example : asDirection (some (.float (.finite false 1 1))) = .ok .descending := rfl

example : asDirection (some .nothing) = .error (.badOrder .nothing) := rfl

end Argument

end MeteredStore
