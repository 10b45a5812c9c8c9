/-
The plain finite map: a list of bindings whose keys increase.

It answers the same questions as the tree without any of its shape, and is what the tree is measured against. Main
statements: `get?_insert` and `get?_erase`, what the two writes do to every key; `sorted_insert` and `sorted_erase`, they
keep the list sorted.
-/
import MeteredStore.Bounds

namespace MeteredStore

/-- bindings of values to keys; each key once, keys increasing -/
abbrev Bindings := List (Bytes × Bytes)

namespace Bindings

def get? : Bindings → Bytes → Option Bytes
  | [], _ => none
  | (k, v) :: b, key => if k = key then some v else get? b key

/-- binds the key at its place in the order, in place of what was bound to it -/
def insert : Bindings → Bytes → Bytes → Bindings
  | [], key, value => [(key, value)]
  | (k, v) :: b, key, value =>
    if key < k then (key, value) :: (k, v) :: b
    else if k < key then (k, v) :: insert b key value
    else (key, value) :: b

def erase (b : Bindings) (key : Bytes) : Bindings := b.filter fun p => p.1 ≠ key

/-- the bindings with keys in range, in the order of a walk -/
def range (b : Bindings) (r : Bounds) (d : Direction) : List (Bytes × Bytes) :=
  let inside := b.filter fun p => r.contains p.1
  match d with
  | .ascending => inside
  | .descending => inside.reverse

/-- each key once, keys increasing -/
def Sorted (b : Bindings) : Prop := b.Pairwise fun p q => p.1 < q.1

instance (b : Bindings) : Decidable b.Sorted := inferInstanceAs (Decidable (List.Pairwise _ _))

theorem get?_insert (b : Bindings) (key value other : Bytes) :
    (b.insert key value).get? other = if key = other then some value else b.get? other := by
  induction b with
  | nil => simp [insert, get?]
  | cons p b ih =>
    obtain ⟨k, v⟩ := p
    unfold insert
    split
    · simp [get?]
    · split
      · next hk =>
        simp only [get?, ih]
        by_cases hko : k = other
        · have : key ≠ other := fun h => Bytes.lt_irrefl k (by rw [h, ← hko] at hk; exact hk)
          simp [hko, this]
        · simp [hko]
      · next h₁ h₂ =>
        obtain rfl := Bytes.eq_of_not_lt h₁ h₂
        by_cases h : key = other <;> simp [get?, h]

theorem get?_erase (b : Bindings) (key other : Bytes) :
    (b.erase key).get? other = if key = other then none else b.get? other := by
  induction b with
  | nil => simp [erase, get?]
  | cons p b ih =>
    obtain ⟨k, v⟩ := p
    simp only [erase] at ih
    by_cases hk : k = key
    · subst hk
      simp only [erase, List.filter_cons, ne_eq, not_true, decide_false, Bool.false_eq_true, if_false, ih, get?]
      by_cases h : k = other <;> simp [h]
    · simp only [erase, List.filter_cons, ne_eq, hk, not_false_eq_true, decide_true, if_true, get?, ih]
      by_cases h : k = other
      · have : key ≠ other := fun h' => hk (h.trans h'.symm)
        simp [h, this]
      · simp [h]

theorem mem_insert {b : Bindings} {key value : Bytes} {p : Bytes × Bytes} (h : p ∈ b.insert key value) :
    p = (key, value) ∨ p ∈ b := by
  induction b with
  | nil => simpa [insert] using h
  | cons q b ih =>
    obtain ⟨k, v⟩ := q
    unfold insert at h
    split at h
    · simpa using h
    · split at h
      · rcases List.mem_cons.mp h with rfl | h
        · exact .inr List.mem_cons_self
        · exact (ih h).imp_right (List.mem_cons_of_mem _)
      · rcases List.mem_cons.mp h with rfl | h
        · exact .inl rfl
        · exact .inr (List.mem_cons_of_mem _ h)

theorem sorted_insert {b : Bindings} (h : b.Sorted) (key value : Bytes) : (b.insert key value).Sorted := by
  induction b with
  | nil => simp [insert, Sorted]
  | cons p b ih =>
    obtain ⟨k, v⟩ := p
    obtain ⟨hk, hb⟩ := List.pairwise_cons.mp h
    unfold insert
    split
    · next hlt =>
      refine List.pairwise_cons.mpr ⟨fun q hq => ?_, h⟩
      rcases List.mem_cons.mp hq with rfl | hq
      · exact hlt
      · exact Bytes.lt_trans hlt (hk q hq)
    · split
      · next hgt =>
        refine List.pairwise_cons.mpr ⟨fun q hq => ?_, ih hb⟩
        rcases mem_insert hq with rfl | hq
        · exact hgt
        · exact hk q hq
      · next h₁ h₂ =>
        obtain rfl := Bytes.eq_of_not_lt h₁ h₂
        exact List.pairwise_cons.mpr ⟨hk, hb⟩

theorem sorted_erase {b : Bindings} (h : b.Sorted) (key : Bytes) : (b.erase key).Sorted :=
  List.Pairwise.filter _ h

end Bindings

end MeteredStore
