/-
How a call that makes prices is answered.

A call gives some of the four prices, each in its place or by its name (`Gives`); the others are standard (`Field`). The form
of the call comes first: too many prices, or a name that is not one of theirs, are refused whatever the values are. Then the
prices are looked at in their order, and the first one that is no whole number, or is below zero, is the one that is named.
`Answers` says this without the order in which anything is computed.

Main statement: `ofCall_answers`, each call is answered as `Answers` says and in no other way. It makes prices just when its
form is right and each price that comes out is a whole number, at least zero; they are what was given, and standard otherwise.
-/
import Mathlib.Tactic
import MeteredStore.Prices

namespace MeteredStore

/-- a whole number, at least zero; a truth value is none -/
def Argument.IsPrice (a : Argument) : Prop := ∃ n : Nat, a = .int n

namespace PriceCall

/-! ## What a call gives -/

/-- the call gives this price: in its place among the four, or by its name; the first time counts -/
inductive Gives : PriceCall → Price → Argument → Prop where
  | place {given : List Argument} {k : Nat} {q : Price} {a : Argument} (hq : Price.all[k]? = some q)
      (ha : given[k]? = some a) : Gives (.positional given) q a
  | name {before after : List (String × Argument)} {q : Price} {a : Argument} (hfirst : ∀ x ∈ before, x.1 ≠ q.name) :
      Gives (.named (before ++ (q.name, a) :: after)) q a

/-- what a price comes out as: as it is given, or standard -/
inductive Field (c : PriceCall) (q : Price) : Argument → Prop where
  | given {a : Argument} (h : c.Gives q a) : Field c q a
  | standard (h : ∀ a, ¬ c.Gives q a) : Field c q (.int q.standard)

/-- the name of one of the four prices -/
def Known (name : String) : Prop := ∃ q : Price, q.name = name

/-- no more than four prices, or names of prices only -/
def Formed : PriceCall → Prop
  | .positional given => given.length ≤ 4
  | .named given => ∀ x ∈ given, Known x.1

/-- the prices that come before this one are all in order -/
def SoundBefore (c : PriceCall) (q : Price) : Prop :=
  ∃ before after, Price.all = before ++ q :: after ∧ ∀ p ∈ before, ∃ a, c.Field p a ∧ a.IsPrice

/-- how a call is answered -/
inductive Answers : PriceCall → Except Refusal Prices → Prop where
  | tooMany {given : List Argument} (h : 4 < given.length) :
      Answers (.positional given) (.error (.tooManyPrices (given.length + 1)))
  | unknown {before after : List (String × Argument)} {name : String} {a : Argument} (hbefore : ∀ x ∈ before, Known x.1)
      (hname : ¬ Known name) (hown : name ≠ ownName) :
      Answers (.named (before ++ (name, a) :: after)) (.error (.unknownPrice name))
  | taken {before after : List (String × Argument)} {a : Argument} (hbefore : ∀ x ∈ before, Known x.1) :
      Answers (.named (before ++ (ownName, a) :: after)) (.error (.takenName ownName))
  | notInteger {c : PriceCall} {q : Price} {a : Argument} (hform : c.Formed) (hsound : c.SoundBefore q) (ha : c.Field q a)
      (hint : ∀ n, a ≠ .int n) : Answers c (.error (.priceNotInteger q a))
  | negative {c : PriceCall} {q : Price} {n : Int} (hform : c.Formed) (hsound : c.SoundBefore q) (ha : c.Field q (.int n))
      (hn : n < 0) : Answers c (.error (.priceNegative q n))
  | made {c : PriceCall} {p : Prices} (hform : c.Formed) (h : ∀ q, c.Field q (.int (p.get q))) : Answers c (.ok p)

variable {c : PriceCall} {q : Price} {a : Argument}

/-! ## Reading a call -/

/-- the argument that is given for a price, if one is -/
def given? : PriceCall → Price → Option Argument
  | .positional given, q => given[position q]?
  | .named given, q => given.lookup q.name

theorem argument_eq (c : PriceCall) (q : Price) : c.argument q = (c.given? q).getD (.int q.standard) := by
  cases c <;> rfl

theorem all_getElem?_position (q : Price) : Price.all[position q]? = some q := by cases q <;> rfl

/-- the place of a price is its own -/
theorem eq_position {k : Nat} (h : Price.all[k]? = some q) : k = position q := by
  have hk : k < Price.all.length := (List.getElem?_eq_some_iff.mp h).1
  have hcases : k = 0 ∨ k = 1 ∨ k = 2 ∨ k = 3 := by
    simp only [Price.all, List.length_cons, List.length_nil] at hk
    omega
  rcases hcases with rfl | rfl | rfl | rfl <;> obtain rfl := Option.some.inj h <;> rfl

theorem gives_iff : c.Gives q a ↔ c.given? q = some a := by
  constructor
  · intro h
    cases h with
    | place hq ha =>
      rw [eq_position hq] at ha
      exact ha
    | name hfirst =>
      refine List.lookup_eq_some_iff.mpr ⟨_, _, rfl, ?_⟩
      intro x hx
      exact bne_iff_ne.mpr (hfirst x hx).symm
  · intro h
    cases c with
    | positional given => exact .place (all_getElem?_position q) h
    | named given =>
      obtain ⟨before, after, rfl, hfirst⟩ := List.lookup_eq_some_iff.mp h
      refine .name ?_
      intro x hx
      exact (bne_iff_ne.mp (hfirst x hx)).symm

/-- each price comes out as one argument, the one that is looked at -/
theorem field_iff : c.Field q a ↔ a = c.argument q := by
  rw [argument_eq]
  constructor
  · intro h
    cases h with
    | given h => rw [gives_iff.mp h, Option.getD_some]
    | standard h =>
      have hnone : c.given? q = none := Option.eq_none_iff_forall_ne_some.mpr fun a ha => h a (gives_iff.mpr ha)
      rw [hnone, Option.getD_none]
  · intro h
    cases hg : c.given? q with
    | some b =>
      rw [hg, Option.getD_some] at h
      exact .given (gives_iff.mpr (h ▸ hg))
    | none =>
      rw [hg, Option.getD_none] at h
      subst h
      refine .standard ?_
      intro b hb
      simp [gives_iff.mp hb] at hg

/-! ## The form of a call -/

theorem known_iff {name : String} : Known name ↔ (Price.all.all fun p => p.name != name) = false := by
  simp only [Known, List.all_eq_false, bne_iff_ne, ne_eq, Decidable.not_not]
  constructor
  · rintro ⟨q, hq⟩
    exact ⟨q, q.mem_all, hq⟩
  · rintro ⟨q, -, hq⟩
    exact ⟨q, hq⟩

theorem not_known_ownName : ¬ Known ownName := by
  rintro ⟨q, hq⟩
  cases q <;> exact absurd hq (by decide)

theorem checkForm_of_formed (h : c.Formed) : c.checkForm = .ok () := by
  cases c with
  | positional given => exact if_neg (Nat.not_lt.mpr h)
  | named given =>
    have hnone : given.find? (fun x => Price.all.all fun p => p.name != x.1) = none := by
      refine List.find?_eq_none.mpr ?_
      intro x hx
      simp [known_iff.mp (h x hx)]
    simp only [checkForm, hnone]

/-- a name that is not one of theirs, after names that are -/
theorem checkForm_of_stray {before after : List (String × Argument)} {name : String} (hbefore : ∀ x ∈ before, Known x.1)
    (hname : ¬ Known name) :
    (named (before ++ (name, a) :: after)).checkForm =
      .error (if name = ownName then .takenName name else .unknownPrice name) := by
  have hfind : (before ++ (name, a) :: after).find? (fun x => Price.all.all fun p => p.name != x.1) = some (name, a) := by
    refine List.find?_eq_some_iff_append.mpr ⟨?_, before, after, rfl, ?_⟩
    · rw [known_iff, Bool.not_eq_false] at hname
      exact hname
    · intro x hx
      simp [known_iff.mp (hbefore x hx)]
  simp only [checkForm, hfind]

theorem not_formed_of_stray {before after : List (String × Argument)} {name : String} (hname : ¬ Known name) :
    ¬ (named (before ++ (name, a) :: after)).Formed := by
  intro hform
  exact hname (hform (name, a) (List.mem_append_right _ List.mem_cons_self))

theorem exists_stray {given : List (String × Argument)} (h : ¬ (named given).Formed) :
    ∃ before name a after, given = before ++ (name, a) :: after ∧ (∀ x ∈ before, Known x.1) ∧ ¬ Known name := by
  cases hfind : given.find? (fun x => Price.all.all fun p => p.name != x.1) with
  | none =>
    refine absurd ?_ h
    intro x hx
    have hx := List.find?_eq_none.mp hfind x hx
    rw [Bool.not_eq_true] at hx
    exact known_iff.mpr hx
  | some stray =>
    obtain ⟨name, a⟩ := stray
    obtain ⟨hname, before, after, rfl, hbefore⟩ := List.find?_eq_some_iff_append.mp hfind
    refine ⟨before, name, a, after, rfl, ?_, ?_⟩
    · intro x hx
      have hx := hbefore x hx
      rw [Bool.not_eq_true'] at hx
      exact known_iff.mpr hx
    · rw [known_iff, hname]
      decide

end PriceCall

namespace Prices

open PriceCall

variable {c : PriceCall} {q : Price}

/-! ## The prices one after the other -/

theorem price_of_isPrice {a : Argument} (q : Price) (h : a.IsPrice) : ∃ n, price q a = .ok n := by
  obtain ⟨n, rfl⟩ := h
  exact ⟨n, price_eq_ok_iff.mpr rfl⟩

theorem price_of_negative {n : Int} (q : Price) (h : n < 0) : price q (.int n) = .error (.priceNegative q n) := if_pos h

theorem price_of_not_int {a : Argument} (q : Price) (h : ∀ n, a ≠ .int n) : price q a = .error (.priceNotInteger q a) := by
  cases a with
  | int n => exact absurd rfl (h n)
  | _ => rfl

/-- the first price at fault decides -/
theorem ofCall_of_fault {r : Refusal} (hform : c.Formed) (hsound : c.SoundBefore q)
    (hr : price q (c.argument q) = .error r) : ofCall c = .error r := by
  obtain ⟨before, after, hall, hbefore⟩ := hsound
  have hok : ∀ p ∈ before, ∃ n, price p (c.argument p) = .ok n := by
    intro p hp
    obtain ⟨a, ha, hprice⟩ := hbefore p hp
    rw [field_iff.mp ha] at hprice
    exact price_of_isPrice p hprice
  have hcheck := checkForm_of_formed hform
  -- one case for each number of prices before this one
  rcases before with _ | ⟨p₀, _ | ⟨p₁, _ | ⟨p₂, _ | ⟨p₃, _⟩⟩⟩⟩ <;>
    simp only [Price.all, List.cons_append, List.nil_append, List.cons.injEq] at hall
  · obtain ⟨rfl, -⟩ := hall
    simp only [ofCall, hcheck, hr, bind, Except.bind]
  · obtain ⟨rfl, rfl, -⟩ := hall
    obtain ⟨n₀, h₀⟩ := hok .rangeSetup (by simp)
    simp only [ofCall, hcheck, h₀, hr, bind, Except.bind]
  · obtain ⟨rfl, rfl, rfl, -⟩ := hall
    obtain ⟨n₀, h₀⟩ := hok .rangeSetup (by simp)
    obtain ⟨n₁, h₁⟩ := hok .iteratorExhausted (by simp)
    simp only [ofCall, hcheck, h₀, h₁, hr, bind, Except.bind]
  · obtain ⟨rfl, rfl, rfl, rfl, -⟩ := hall
    obtain ⟨n₀, h₀⟩ := hok .rangeSetup (by simp)
    obtain ⟨n₁, h₁⟩ := hok .iteratorExhausted (by simp)
    obtain ⟨n₂, h₂⟩ := hok .perKeyByte (by simp)
    simp only [ofCall, hcheck, h₀, h₁, h₂, hr, bind, Except.bind]
  · simp at hall

/-- every price in order, or a first one that is not -/
theorem sound_or_fault (c : PriceCall) :
    (∀ q, (c.argument q).IsPrice) ∨ ∃ q, c.SoundBefore q ∧ ¬ (c.argument q).IsPrice := by
  classical
  cases hfind : Price.all.find? fun q => decide ¬ (c.argument q).IsPrice with
  | none =>
    refine .inl ?_
    intro q
    simpa using List.find?_eq_none.mp hfind q q.mem_all
  | some q =>
    obtain ⟨hq, before, after, hall, hbefore⟩ := List.find?_eq_some_iff_append.mp hfind
    refine .inr ⟨q, ⟨before, after, hall, ?_⟩, of_decide_eq_true hq⟩
    intro p hp
    exact ⟨c.argument p, field_iff.mpr rfl, by simpa using hbefore p hp⟩

/-! ## Every call -/

theorem ofCall_of_answers {r : Except Refusal Prices} (h : c.Answers r) : ofCall c = r := by
  cases h with
  | tooMany h => simp only [ofCall, checkForm, h, if_true, bind, Except.bind]
  | unknown hbefore hname hown =>
    simp only [ofCall, checkForm_of_stray hbefore hname, hown, if_false, bind, Except.bind]
  | taken hbefore => simp only [ofCall, checkForm_of_stray hbefore not_known_ownName, if_true, bind, Except.bind]
  | notInteger hform hfirst ha hint =>
    rw [field_iff.mp ha] at hint ⊢
    exact ofCall_of_fault hform hfirst (price_of_not_int _ hint)
  | negative hform hfirst ha hn => exact ofCall_of_fault hform hfirst (field_iff.mp ha ▸ price_of_negative _ hn)
  | made hform h => exact ofCall_eq_ok_iff.mpr ⟨checkForm_of_formed hform, fun q => (field_iff.mp (h q)).symm⟩

/-- four prices that are in order are made -/
theorem exists_made (hform : c.Formed) (h : ∀ q, (c.argument q).IsPrice) : ∃ p, c.Answers (.ok p) := by
  choose n hn using h
  refine ⟨⟨n .rangeSetup, n .iteratorExhausted, n .perKeyByte, n .perValueByte⟩, .made hform ?_⟩
  intro q
  rw [field_iff, hn q]
  cases q <;> rfl

theorem answers_of_formed (hform : c.Formed) : ∃ r, c.Answers r := by
  rcases sound_or_fault c with hall | ⟨q, hfirst, hq⟩
  · obtain ⟨p, hp⟩ := exists_made hform hall
    exact ⟨_, hp⟩
  · by_cases hint : ∃ n, c.argument q = .int n
    · obtain ⟨n, hn⟩ := hint
      refine ⟨_, .negative hform hfirst (field_iff.mpr hn.symm) ?_⟩
      by_contra hneg
      exact hq ⟨n.toNat, by rw [hn, Int.toNat_of_nonneg (Int.not_lt.mp hneg)]⟩
    · exact ⟨_, .notInteger hform hfirst (field_iff.mpr rfl) (not_exists.mp hint)⟩

theorem exists_answers (c : PriceCall) : ∃ r, c.Answers r := by
  by_cases hform : c.Formed
  · exact answers_of_formed hform
  · cases c with
    | positional given => exact ⟨_, .tooMany (Nat.not_le.mp hform)⟩
    | named given =>
      obtain ⟨before, name, a, after, rfl, hbefore, hname⟩ := exists_stray hform
      by_cases hown : name = ownName
      · subst hown
        exact ⟨_, .taken hbefore⟩
      · exact ⟨_, .unknown hbefore hname hown⟩

/-- there are prices just when each price that comes out is one -/
theorem exists_ok_iff (c : PriceCall) : (∃ p, ofCall c = .ok p) ↔ c.Formed ∧ ∀ q, ∃ a, c.Field q a ∧ a.IsPrice := by
  constructor
  · rintro ⟨p, hp⟩
    obtain ⟨r, hr⟩ := exists_answers c
    obtain rfl := (ofCall_of_answers hr).symm.trans hp
    cases hr with
    | made hform h => exact ⟨hform, fun q => ⟨_, h q, _, rfl⟩⟩
  · rintro ⟨hform, h⟩
    obtain ⟨p, hp⟩ : ∃ p, c.Answers (.ok p) := by
      refine exists_made hform ?_
      intro q
      obtain ⟨a, ha, hprice⟩ := h q
      rwa [← field_iff.mp ha]
    exact ⟨p, ofCall_of_answers hp⟩

/-- a value is at fault when the form is right, and otherwise the form -/
theorem kind_of_answers {r : Refusal} (h : c.Answers (.error r)) :
    (r.isValue = true ↔ c.Formed) ∧ (r.isType = true ↔ ¬ c.Formed) := by
  cases h with
  | tooMany h => simp [Formed, h, Refusal.isValue, Refusal.isType]
  | unknown hbefore hname hown => simp [not_formed_of_stray hname, Refusal.isValue, Refusal.isType]
  | taken hbefore => simp [not_formed_of_stray not_known_ownName, Refusal.isValue, Refusal.isType]
  | notInteger hform hsound ha hint => simp [hform, Refusal.isValue, Refusal.isType]
  | negative hform hsound ha hn => simp [hform, Refusal.isValue, Refusal.isType]

/-- **How prices are made.** Each call is answered as `Answers` says, and in no other way. There are prices just when the form
of the call is right and each price that comes out is a whole number, at least zero. Of a call whose form is right, a value is
at fault, and of any other one its form, whatever its values are. What is said of a value names the price and shows the
value. -/
theorem ofCall_answers (c : PriceCall) :
    (∀ r, ofCall c = r ↔ c.Answers r) ∧
      ((∃ p, ofCall c = .ok p) ↔ c.Formed ∧ ∀ q, ∃ a, c.Field q a ∧ a.IsPrice) ∧
      (∀ r, ofCall c = .error r → (r.isValue = true ↔ c.Formed) ∧ (r.isType = true ↔ ¬ c.Formed)) ∧
      (∀ q a, (Refusal.priceNotInteger q a).message = q.name ++ " must be an int, got " ++ a.render) ∧
      ∀ q n, (Refusal.priceNegative q n).message = q.name ++ " must be >= 0, got " ++ toString n := by
  have hanswers : ∀ r, ofCall c = r ↔ c.Answers r := by
    intro r
    constructor
    · rintro rfl
      obtain ⟨r, hr⟩ := exists_answers c
      rwa [ofCall_of_answers hr]
    · exact ofCall_of_answers
  refine ⟨hanswers, exists_ok_iff c, ?_, fun q a => rfl, fun q n => rfl⟩
  intro r hr
  exact kind_of_answers ((hanswers _).mp hr)

example : ofCall (.named [("per_key_byte", .int (-1)), ("iterator_exhausted", .bool true)]) =
    .error (.priceNotInteger .iteratorExhausted (.bool true)) := rfl

example : ofCall (.positional [.int (-1), .nothing, .nothing, .nothing, .nothing]) = .error (.tooManyPrices 6) := rfl

end Prices

end MeteredStore
