/-
All handles are views of one map.

`Shown` ties a session to its books: a map may be written to through itself and through any store over it, in any order,
and whoever reads it finds just its bindings. What a store charges is told by its own prices and by the lengths of its
arguments, and a store can be made over a map just when the map has no bindings (`Views`).

`step_meets`: one command is answered as the books say and changes what they say. Main statement: `run_views`, after any
commands whatsoever all handles are views of the books, and commands whose arguments are buffers or views do the same as
with the bytes themselves.
-/
import MeteredStore.Books
import MeteredStore.Proofs.Stepping
import MeteredStore.Proofs.Walk

namespace MeteredStore

/-! ## Bytes-like arguments -/

/-- the bytes themselves in the place of a buffer or view -/
def Argument.plain (a : Argument) : Argument :=
  match a.bytes? with
  | some b => .bytes b
  | none => a

/-- the same command with the bytes themselves in the place of buffers and views -/
def Command.plain : Command → Command
  | .get i key => .get i key.plain
  | .set i key value => .set i key.plain value.plain
  | .remove i key => .remove i key.plain
  | .has i key => .has i key.plain
  | .range i start stop order => .range i start.plain stop.plain order
  | c => c

theorem Argument.content?_of_bytes? {a : Argument} {b : Bytes} (h : a.bytes? = some b) : a.content? = some (.ok b) := by
  obtain ⟨content, hcontent, hb⟩ := Option.bind_eq_some_iff.mp h
  cases content with
  | error f => cases hb
  | ok b' =>
    cases hb
    exact hcontent

/-- an argument that can be read has its bytes in its place, and any other stays as it is -/
theorem Argument.plain_cases (a : Argument) : a.plain = a ∨ ∃ b, a.content? = some (.ok b) ∧ a.plain = .bytes b := by
  cases h : a.bytes? with
  | none => exact .inl (by simp only [plain, h])
  | some b => exact .inr ⟨b, content?_of_bytes? h, by simp only [plain, h]⟩

theorem read_plain (bad : Argument → Refusal) (a : Argument) : a.plain.read bad = a.read bad := by
  rcases a.plain_cases with h | ⟨b, hb, h⟩
  · rw [h]
  · rw [h, Argument.read, Argument.read, hb]
    rfl

theorem asKey_plain (a : Argument) : a.plain.asKey = a.asKey := read_plain .badKey a

theorem asValue_plain (a : Argument) : a.plain.asValue = a.asValue := read_plain .badValue a

theorem asBound_plain (a : Argument) : a.plain.asBound = a.asBound := by
  rcases a.plain_cases with h | ⟨b, hb, h⟩
  · rw [h]
  · have hkey : a.asKey = .ok b := by rw [Argument.asKey, Argument.read, hb]; rfl
    rw [h]
    cases a with
    | nothing => cases hb
    | _ => exact (congrArg (Except.map some) hkey).symm

namespace Session

theorem attempt_plain (s : Session) (c : Command) : s.attempt c.plain = s.attempt c := by
  cases c <;> simp only [Command.plain, attempt, Store.get, Store.set, Store.remove, Store.has, Store.range, asKey_plain,
    asValue_plain, asBound_plain]

theorem run_plain (s : Session) (cs : List Command) : s.run (cs.map Command.plain) = s.run cs := by
  induction cs generalizing s with
  | nil => rfl
  | cons c cs ih => simp only [List.map_cons, run, step, attempt_plain, ih]

/-! ## What a session shows -/

/-- the maps have the bindings of the books, the stores are the same, and each is over a map that exists -/
structure Shown (s : Session) (b : Books) : Prop where
  contents : s.maps.map SortedMap.toList = b.maps
  stores : s.stores = b.stores
  sound : ∀ m ∈ s.maps, m.Sound
  homes : ∀ t ∈ s.stores, t.map < s.maps.length

theorem shown_empty : empty.Shown Books.empty := ⟨rfl, rfl, by simp [empty], by simp [empty]⟩

variable {s t : Session} {b : Books}

theorem Shown.kept (h : s.Shown b) (k : Kept s t) : t.Shown b :=
  ⟨by rw [k.maps]; exact h.contents, k.stores.trans h.stores, by rw [k.maps]; exact h.sound,
    by rw [k.maps, k.stores]; exact h.homes⟩

/-- a map is in the books when it exists, with its bindings -/
theorem Shown.find_map (h : s.Shown b) (i : MapId) :
    (find s.maps i = .error .noSuchObject ∧ b.maps[i]? = none) ∨
      ∃ m, find s.maps i = .ok m ∧ s.maps[i]? = some m ∧ m.Sound ∧ b.maps[i]? = some m.toList := by
  have hb : b.maps[i]? = s.maps[i]?.map SortedMap.toList := by rw [← h.contents, List.getElem?_map]
  cases hm : s.maps[i]? with
  | none => exact .inl ⟨by simp only [find, hm], by rw [hb, hm]; rfl⟩
  | some m => exact .inr ⟨m, by simp only [find, hm], rfl, h.sound m (List.mem_of_getElem? hm), by rw [hb, hm]; rfl⟩

/-- a store is in the books when it exists, and its map exists too -/
theorem Shown.find_store (h : s.Shown b) (i : StoreId) :
    (s.storeWithMap i = .error .noSuchObject ∧ b.stores[i]? = none ∧ b.held i = none) ∨
      ∃ x m, s.storeWithMap i = .ok (x, m) ∧ b.stores[i]? = some x ∧ s.maps[x.map]? = some m ∧ m.Sound ∧
        b.held i = some (x.prices, m.toList) := by
  cases hx : s.stores[i]? with
  | none =>
    have hb : b.stores[i]? = none := by rw [← h.stores, hx]
    refine .inl ⟨?_, hb, by simp only [Books.held, hb]; rfl⟩
    simp only [storeWithMap, find, hx]
    rfl
  | some x =>
    have hb : b.stores[i]? = some x := by rw [← h.stores, hx]
    rcases h.find_map x.map with ⟨hf, -⟩ | ⟨m, hf, hm, hs, hbm⟩
    · have hlt := h.homes x (List.mem_of_getElem? hx)
      simp [find, List.getElem?_eq_getElem hlt] at hf
    · refine .inr ⟨x, m, ?_, hb, hm, hs, by simp [Books.held, hb, hbm]⟩
      have hfx : find s.stores i = .ok x := by simp only [find, hx]
      simp only [storeWithMap, hfx, hf, bind, Except.bind]
      rfl

/-- what the books have for a store -/
theorem Shown.held (h : s.Shown b) {i : StoreId} {x : Store} (hx : s.stores[i]? = some x) :
    ∃ m, s.maps[x.map]? = some m ∧ m.Sound ∧ b.held i = some (x.prices, m.toList) := by
  rcases h.find_store i with ⟨-, hb, -⟩ | ⟨y, m, -, hb, hm, hsound, hheld⟩
  · rw [← h.stores, hx] at hb
    cases hb
  · rw [← h.stores, hx] at hb
    cases hb
    exact ⟨m, hm, hsound, hheld⟩

/-- a map that is replaced by one with other bindings -/
theorem Shown.setMap (h : s.Shown b) {i : MapId} {m n : SortedMap} {f : Bindings → Bindings} (hm : s.maps[i]? = some m)
    (hn : n.Sound) (hf : n.toList = f m.toList) : (s.setMap i n).Shown (b.amend i f) := by
  refine ⟨?_, h.stores, ?_, ?_⟩
  · apply List.ext_getElem?
    intro j
    simp only [Session.setMap, Books.amend, ← h.contents, List.getElem?_modify, List.getElem?_map, List.getElem?_set]
    by_cases hj : i = j
    · subst hj
      obtain ⟨hlt, rfl⟩ := List.getElem?_eq_some_iff.mp hm
      simp [hlt, hf]
    · simp [hj]
  · intro m' hm'
    rcases List.mem_or_eq_of_mem_set hm' with hm' | rfl
    · exact h.sound m' hm'
    · exact hn
  · simp only [Session.setMap, List.length_set]
    exact h.homes

theorem Shown.addMap (h : s.Shown b) : (s.addMap SortedMap.empty).2.Shown { b with maps := b.maps ++ [[]] } := by
  refine ⟨?_, h.stores, ?_, ?_⟩
  · simp only [Session.addMap, List.map_append, h.contents]
    rfl
  · intro m hm
    rcases List.mem_append.mp hm with hm | hm
    · exact h.sound m hm
    · rw [List.mem_singleton.mp hm]
      exact SortedMap.sound_empty
  · intro x hx
    have hlt := h.homes x hx
    simp only [Session.addMap, List.length_append]
    exact Nat.lt_add_right _ hlt

theorem Shown.addStore (h : s.Shown b) {x : Store} (hx : x.map < s.maps.length) :
    (s.addStore x).2.Shown { b with stores := b.stores ++ [x] } := by
  refine ⟨h.contents, congrArg (· ++ [x]) h.stores, h.sound, ?_⟩
  intro y hy
  rcases List.mem_append.mp hy with hy | hy
  · exact h.homes y hy
  · rw [List.mem_singleton.mp hy]
    exact hx

/-! ## One command -/

theorem step_of_error {c : Command} {r : Refusal} (h : s.attempt c = .error r) : s.step c = (.error r, s) := by
  simp only [step, h]

theorem step_of_ok {c : Command} {a : Answer} (h : s.attempt c = .ok (a, t)) : s.step c = (.ok a, t) := by
  simp only [step, h]

/-- the command is answered as the books say, and changes what they say -/
def Meets (s : Session) (b : Books) (c : Command) : Prop :=
  (s.step c).2.Shown (b.enter c) ∧ ∀ a ∈ b.answer c, (s.step c).1 = a

theorem meets_of_error {c : Command} {r : Refusal} (h : s.Shown b) (hs : s.attempt c = .error r) (hb : b.enter c = b)
    (ha : b.answer c = some (.error r)) : s.Meets b c := by
  rw [Meets, step_of_error hs, hb, ha]
  exact ⟨h, fun a ha => Option.some.inj ha⟩

theorem meets_of_ok {c : Command} {a : Answer} (hs : s.attempt c = .ok (a, t)) (ht : t.Shown (b.enter c))
    (ha : b.answer c = some (.ok a)) : s.Meets b c := by
  rw [Meets, step_of_ok hs, ha]
  exact ⟨ht, fun a ha => Option.some.inj ha⟩

theorem meets_of_kept {c : Command} (h : s.Shown b) (hk : Kept s (s.step c).2) (hb : b.enter c = b)
    (ha : b.answer c = none) : s.Meets b c := by
  rw [Meets, hb, ha]
  exact ⟨h.kept hk, by simp⟩

/-! ### Making maps and stores -/

theorem newMap_meets (h : s.Shown b) : s.Meets b .newMap := by
  have hlen : s.maps.length = b.maps.length := by rw [← h.contents, List.length_map]
  refine meets_of_ok rfl h.addMap ?_
  simp only [Books.answer, hlen]

theorem newStore_refused {prices : StorePrices} {r : Refusal} (h : s.Shown b) (hp : prices.resolve = .error r)
    (map : Option MapId) : s.Meets b (.newStore prices map) := by
  refine meets_of_error h (r := r) ?_ ?_ ?_
  · simp only [attempt, newStore, hp, bind, Except.bind]
  · cases map <;> simp only [Books.enter, hp]
  · cases map <;> simp only [Books.answer, hp, bind, Except.bind, Except.map]

/-- a store for which no map is given has a new one -/
theorem newStore_alone {prices : StorePrices} {p : Prices} (h : s.Shown b) (hp : prices.resolve = .ok p) :
    s.Meets b (.newStore prices none) := by
  have hstores : s.stores.length = b.stores.length := by rw [h.stores]
  have hmaps : s.maps.length = b.maps.length := by rw [← h.contents, List.length_map]
  have hs : s.attempt (.newStore prices none) =
      .ok (.made (.store s.stores.length), ((s.addMap SortedMap.empty).2.addStore ⟨p, s.maps.length⟩).2) := by
    simp only [attempt, newStore, hp, bind, Except.bind]
    rfl
  refine meets_of_ok hs ?_ ?_
  · simp only [Books.enter, hp, ← hmaps]
    exact h.addMap.addStore (by simp [addMap])
  · simp only [Books.answer, hp, hstores, Except.map]

/-- on a map that is given, a store can be made just when the map has no bindings: its size, which is what is asked for,
tells -/
theorem newStore_given {prices : StorePrices} {p : Prices} (h : s.Shown b) (hp : prices.resolve = .ok p) (i : MapId) :
    s.Meets b (.newStore prices (some i)) := by
  have hstores : s.stores.length = b.stores.length := by rw [h.stores]
  rcases h.find_map i with ⟨hf, hb⟩ | ⟨m, hf, hm, hsound, hb⟩
  · refine meets_of_error h (r := .noSuchObject) ?_ ?_ ?_
    · simp only [attempt, newStore, hp, hf, bind, Except.bind]
    · simp only [Books.enter, hp, hb]
    · simp only [Books.answer, hp, hb, bind, Except.bind]
  · have hlist := hsound.length_toList
    cases hl : m.toList with
    | nil =>
      have hsize : m.size = 0 := by rw [← hlist, hl]; rfl
      refine meets_of_ok (t := (s.addStore ⟨p, i⟩).2) (a := .made (.store s.stores.length)) ?_ ?_ ?_
      · simp only [attempt, newStore, hp, hf, hsize, if_true, bind, Except.bind]
        rfl
      · simp only [Books.enter, hp, hb, hl]
        exact h.addStore (List.getElem?_eq_some_iff.mp hm).1
      · simp only [Books.answer, hp, hb, hl, hstores, if_true, bind, Except.bind]
    | cons x l =>
      have hsize : m.size ≠ 0 := by rw [← hlist, hl]; simp
      refine meets_of_error h (r := .mapNotEmpty) ?_ ?_ ?_
      · simp only [attempt, newStore, hp, hf, hsize, if_false, bind, Except.bind]
      · simp only [Books.enter, hp, hb, hl]
      · simp only [Books.answer, hp, hb, hl, bind, Except.bind, reduceCtorEq, if_false]

theorem newStore_meets (h : s.Shown b) (prices : StorePrices) (map : Option MapId) :
    s.Meets b (.newStore prices map) := by
  cases hp : prices.resolve with
  | error r => exact newStore_refused h hp map
  | ok p =>
    cases map with
    | none => exact newStore_alone h hp
    | some i => exact newStore_given h hp i

/-! ### Through a map itself -/

theorem amend_of_none {i : MapId} (hb : b.maps[i]? = none) (f : Bindings → Bindings) : b.amend i f = b := by
  rw [Books.amend, List.modify_eq_self (List.getElem?_eq_none_iff.mp hb)]

/-- a command through a map: the map is looked for, and then nothing can go wrong -/
theorem meets_at_map {c : Command} {i : MapId} {f : SortedMap → Answer × Session} {g : Bindings → Answer}
    (h : s.Shown b) (hs : s.attempt c = find s.maps i >>= fun m => Except.ok (f m))
    (ha : b.answer c = some (Books.reply b.maps[i]? g)) (hnone : b.maps[i]? = none → b.enter c = b)
    (hsome : ∀ m, s.maps[i]? = some m → m.Sound → (f m).1 = g m.toList ∧ (f m).2.Shown (b.enter c)) :
    s.Meets b c := by
  rcases h.find_map i with ⟨hf, hb⟩ | ⟨m, hf, hm, hsound, hb⟩
  · refine meets_of_error h (r := .noSuchObject) ?_ (hnone hb) ?_
    · rw [hs, hf]
      rfl
    · rw [ha, hb]
      rfl
  · obtain ⟨hanswer, hshown⟩ := hsome m hm hsound
    refine meets_of_ok (t := (f m).2) (a := (f m).1) ?_ hshown ?_
    · rw [hs, hf]
      rfl
    · rw [ha, hb, hanswer]
      rfl

theorem put_meets (h : s.Shown b) (i : MapId) (key value : Bytes) : s.Meets b (.put i key value) := by
  refine meets_at_map (f := fun m => (.done, s.setMap i (m.insert key value))) h rfl rfl
    (fun hb => amend_of_none hb _) ?_
  intro m hm hs
  obtain ⟨-, hins, hlist⟩ := SortedMap.insert_sound hs key value
  exact ⟨rfl, h.setMap hm hins hlist⟩

theorem delete_meets (h : s.Shown b) (i : MapId) (key : Bytes) : s.Meets b (.delete i key) := by
  refine meets_at_map (f := fun m => (.flag (m.erase key).1, s.setMap i (m.erase key).2)) h rfl rfl
    (fun hb => amend_of_none hb _) ?_
  intro m hm hs
  obtain ⟨-, hers, hpresent, hlist⟩ := SortedMap.erase_sound hs key
  exact ⟨by rw [hpresent, hs.contains_toList], h.setMap hm hers hlist⟩

theorem lookup_meets (h : s.Shown b) (i : MapId) (key : Bytes) : s.Meets b (.lookup i key) := by
  refine meets_at_map (f := fun m => (.found (m.contains key) (m.get? key), s)) h rfl rfl (fun _ => rfl) ?_
  intro m _ hs
  exact ⟨by rw [hs.contains_toList, hs.get?_toList], h⟩

theorem mapSize_meets (h : s.Shown b) (i : MapId) : s.Meets b (.mapSize i) := by
  refine meets_at_map (f := fun m => (.count m.size, s)) h rfl rfl (fun _ => rfl) ?_
  intro m _ hs
  exact ⟨by rw [hs.length_toList], h⟩

/-! ### Through a store -/

/-- a command through a store: the store is looked for with its map, and then the arguments may be refused -/
theorem meets_at_store {c : Command} {i : StoreId} {f : Store → SortedMap → Except Refusal (Answer × Session)}
    {g : Prices → Bindings → Except Refusal Answer} (h : s.Shown b)
    (hs : s.attempt c = s.storeWithMap i >>= fun r => f r.1 r.2)
    (ha : b.answer c = some (Books.replyAt (b.held i) g)) (hnone : b.stores[i]? = none → b.enter c = b)
    (hsome : ∀ x m, b.stores[i]? = some x → s.maps[x.map]? = some m → m.Sound →
      (∃ r, f x m = .error r ∧ g x.prices m.toList = .error r ∧ b.enter c = b) ∨
        ∃ a t, f x m = .ok (a, t) ∧ g x.prices m.toList = .ok a ∧ t.Shown (b.enter c)) : s.Meets b c := by
  rcases h.find_store i with ⟨hf, hb, hheld⟩ | ⟨x, m, hf, hb, hm, hsound, hheld⟩
  · refine meets_of_error h (r := .noSuchObject) ?_ (hnone hb) ?_
    · rw [hs, hf]
      rfl
    · rw [ha, hheld]
      rfl
  · have hs' : s.attempt c = f x m := by
      rw [hs, hf]
      rfl
    have ha' : b.answer c = some (g x.prices m.toList) := by
      rw [ha, hheld]
      rfl
    rcases hsome x m hb hm hsound with ⟨r, hfr, hgr, henter⟩ | ⟨a, t, hfa, hga, hshown⟩
    · exact meets_of_error h (hs'.trans hfr) henter (by rw [ha', hgr])
    · exact meets_of_ok (hs'.trans hfa) hshown (by rw [ha', hga])

/-- a read through a store: what it finds in the map is what the books have for the store -/
theorem meets_of_read {c : Command} {i : StoreId} {f : Store → SortedMap → Except Refusal Answer}
    {g : Prices → Bindings → Except Refusal Answer} (h : s.Shown b)
    (hs : s.attempt c = s.storeWithMap i >>= fun r => (f r.1 r.2).map fun a => (a, s)) (hb : b.enter c = b)
    (ha : b.answer c = some (Books.replyAt (b.held i) g)) (hfg : ∀ x m, m.Sound → f x m = g x.prices m.toList) :
    s.Meets b c := by
  refine meets_at_store (f := fun x m => (f x m).map fun a => (a, s)) h hs ha (fun _ => hb) ?_
  intro x m _ _ hm
  rw [hfg x m hm, hb]
  cases hg : g x.prices m.toList with
  | error r => exact .inl ⟨r, rfl, rfl, rfl⟩
  | ok a => exact .inr ⟨a, s, rfl, rfl, h⟩

theorem get_meets (h : s.Shown b) (i : StoreId) (key : Argument) : s.Meets b (.get i key) := by
  refine meets_of_read (f := fun x m => (x.get m key).map fun r => .reading r.1 r.2) h ?_ rfl rfl ?_
  · simp only [attempt, bind, Except.bind]
    cases s.storeWithMap i with
    | error r => rfl
    | ok r => cases hg : r.1.get r.2 key <;> simp only [hg] <;> rfl
  · intro x m hm
    cases hk : key.asKey <;> simp only [Store.get, hk, hm.get?_toList, bind, Except.bind] <;> rfl

theorem has_meets (h : s.Shown b) (i : StoreId) (key : Argument) : s.Meets b (.has i key) := by
  refine meets_of_read (f := fun _ m => (Store.has m key).map .flag) h ?_ rfl rfl ?_
  · simp only [attempt, bind, Except.bind]
    cases s.storeWithMap i with
    | error r => rfl
    | ok r => cases hg : Store.has r.2 key <;> simp only [hg] <;> rfl
  · intro x m hm
    cases hk : key.asKey <;> simp only [Store.has, hk, hm.contains_toList, bind, Except.bind] <;> rfl

theorem storeSize_meets (h : s.Shown b) (i : StoreId) : s.Meets b (.storeSize i) := by
  refine meets_of_read (f := fun _ m => .ok (.count m.size)) h ?_ rfl rfl ?_
  · simp only [attempt, bind, Except.bind]
    cases s.storeWithMap i <;> rfl
  · intro x m hm
    rw [hm.length_toList]

theorem range_all (l : Bindings) : Bindings.range l Bounds.all .ascending = l :=
  List.filter_eq_self.mpr fun p _ => Bounds.contains_all p.1

theorem items_meets (h : s.Shown b) (i : StoreId) : s.Meets b (.items i) := by
  refine meets_of_read (f := fun _ m => .ok (.pairs (m.range Bounds.all .ascending))) h ?_ rfl rfl ?_
  · simp only [attempt, bind, Except.bind]
    cases s.storeWithMap i <;> rfl
  · intro x m hm
    rw [SortedMap.range_eq hm, range_all]

theorem set_meets (h : s.Shown b) (i : StoreId) (key value : Argument) : s.Meets b (.set i key value) := by
  refine meets_at_store
    (f := fun x m => (x.set m key value).map fun r => (.count r.1, s.setMap x.map r.2)) h ?_ rfl ?_ ?_
  · simp only [attempt, bind, Except.bind]
    cases s.storeWithMap i with
    | error r => rfl
    | ok r => cases hset : r.1.set r.2 key value <;> simp only [hset] <;> rfl
  · intro hb
    cases hv : value.asValue <;> simp only [Books.enter, Books.amendAt, hb, hv]
  · intro x m hb hm hs
    cases hk : key.asKey with
    | error r =>
      refine .inl ⟨r, ?_, rfl, ?_⟩
      · simp only [Store.set, hk, bind, Except.bind, Except.map]
      · cases hv : value.asValue <;> simp only [Books.enter, Books.amendAt, hb, hv, hk]
    | ok k =>
      cases hv : value.asValue with
      | error r =>
        refine .inl ⟨r, ?_, rfl, ?_⟩
        · simp only [Store.set, hk, hv, bind, Except.bind, Except.map]
        · simp only [Books.enter, hv]
      | ok v =>
        obtain ⟨-, hins, hlist⟩ := SortedMap.insert_sound hs k v
        refine .inr ⟨.count (k.length * x.prices.perKeyByte + v.length * x.prices.perValueByte),
          s.setMap x.map (m.insert k v), ?_, rfl, ?_⟩
        · simp only [Store.set, hk, hv, bind, Except.bind]
          rfl
        · simp only [Books.enter, Books.amendAt, hb, hk, hv]
          exact h.setMap hm hins hlist

theorem remove_meets (h : s.Shown b) (i : StoreId) (key : Argument) : s.Meets b (.remove i key) := by
  refine meets_at_store
    (f := fun x m => (x.remove m key).map fun r => (.count r.1, s.setMap x.map r.2)) h ?_ rfl ?_ ?_
  · simp only [attempt, bind, Except.bind]
    cases s.storeWithMap i with
    | error r => rfl
    | ok r => cases hrem : r.1.remove r.2 key <;> simp only [hrem] <;> rfl
  · intro hb
    simp only [Books.enter, Books.amendAt, hb]
  · intro x m hb hm hs
    cases hk : key.asKey with
    | error r =>
      refine .inl ⟨r, ?_, rfl, ?_⟩
      · simp only [Store.remove, hk, bind, Except.bind, Except.map]
      · simp only [Books.enter, Books.amendAt, hb, hk]
    | ok k =>
      obtain ⟨-, hers, -, hlist⟩ := SortedMap.erase_sound hs k
      refine .inr ⟨.count (k.length * x.prices.perKeyByte), s.setMap x.map (m.erase k).2, ?_, rfl, ?_⟩
      · simp only [Store.remove, hk, bind, Except.bind]
        rfl
      · simp only [Books.enter, Books.amendAt, hb, hk]
        exact h.setMap hm hers hlist

/-! ### Cursors, iterators and texts -/

theorem kept_of_attempt {c : Command} (h : ∀ a t, s.attempt c = .ok (a, t) → Kept s t) : Kept s (s.step c).2 := by
  unfold step
  split
  · exact Kept.refl s
  · next a t ht => exact h a t ht

/-- a command that only reads the session -/
theorem kept_of_read {α : Type} {x : Except Refusal α} {f : α → Answer} {a : Answer}
    (h : (x >>= fun v => Except.ok (f v, s)) = .ok (a, t)) : Kept s t := by
  obtain ⟨v, -, h⟩ := exists_of_bind h
  cases h
  exact Kept.refl s

theorem newIterator_kept {prices : Option PriceCall} {supplier : Supplier} {a : Answer}
    (h : s.attempt (.newIterator prices supplier) = .ok (a, t)) : Kept s t := by
  unfold attempt at h
  obtain ⟨p, -, h⟩ := exists_of_bind h
  obtain ⟨r, hsource, h⟩ := exists_of_bind h
  cases h
  exact (sourceOf_kept hsource).trans ⟨rfl, rfl⟩

theorem newExhausted_kept {prices : Option PriceCall} {a : Answer} (h : s.attempt (.newExhausted prices) = .ok (a, t)) :
    Kept s t := by
  unfold attempt at h
  obtain ⟨p, -, h⟩ := exists_of_bind h
  cases h
  exact ⟨rfl, rfl⟩

theorem cursor_kept {map : MapId} {bounds : Bounds} {order : Option Argument} {a : Answer}
    (h : s.attempt (.newCursor map bounds order) = .ok (a, t)) : Kept s t := by
  unfold attempt at h
  obtain ⟨d, -, h⟩ := exists_of_bind h
  obtain ⟨r, hc, h⟩ := exists_of_bind h
  cases h
  exact newCursor_kept hc

theorem range_kept {store : StoreId} {start stop : Argument} {order : Option Argument} {a : Answer}
    (h : s.attempt (.range store start stop order) = .ok (a, t)) : Kept s t := by
  unfold attempt at h
  obtain ⟨x, -, h⟩ := exists_of_bind h
  obtain ⟨r, -, h⟩ := exists_of_bind h
  cases h
  exact openRange_kept s x.1.prices r

theorem step_advance_kept (s : Session) (i : IteratorId) : Kept s (s.step (.advance i)).2 := by
  apply kept_of_attempt
  intro a t ht
  simp only [attempt] at ht
  split at ht
  · cases ht
  · next item u hu =>
    cases ht
    exact advance_kept hu

theorem step_advanceAll_kept (s : Session) (i : IteratorId) : Kept s (s.step (.advanceAll i)).2 := by
  apply kept_of_attempt
  intro a t ht
  simp only [attempt] at ht
  split at ht
  · cases ht
  · next items u hu =>
    cases ht
    exact advanceAll_kept hu

theorem step_isExhausted_kept (s : Session) (i : IteratorId) : Kept s (s.step (.isExhausted i)).2 := by
  apply kept_of_attempt
  intro a t ht
  exact kept_of_read ht

/-- whatever is asked of an iterator, maps and stores stay as they are -/
theorem ask_kept (s : Session) (i : IteratorId) :
    ∀ c ∈ [Command.advance i, .advanceAll i, .isExhausted i, .next (.iterator i), .drain (.iterator i)],
      Kept s (s.step c).2 := by
  intro c hc
  simp only [List.mem_cons, List.not_mem_nil, or_false] at hc
  rcases hc with rfl | rfl | rfl | rfl | rfl
  · exact step_advance_kept s i
  · exact step_advanceAll_kept s i
  · exact step_isExhausted_kept s i
  · exact pull_kept s i
  · exact pullAll_kept s i

/-- **One command.** Whatever the command, it is answered as the books say and changes what they say, and nothing else. -/
theorem step_meets (h : s.Shown b) (c : Command) : s.Meets b c := by
  cases c with
  | newMap => exact newMap_meets h
  | newStore prices map => exact newStore_meets h prices map
  | put map key value => exact put_meets h map key value
  | delete map key => exact delete_meets h map key
  | lookup map key => exact lookup_meets h map key
  | mapSize map => exact mapSize_meets h map
  | get store key => exact get_meets h store key
  | set store key value => exact set_meets h store key value
  | remove store key => exact remove_meets h store key
  | has store key => exact has_meets h store key
  | storeSize store => exact storeSize_meets h store
  | items store => exact items_meets h store
  | tree map => exact meets_of_kept h (kept_of_attempt fun a t ht => kept_of_read ht) rfl rfl
  | describe store => exact meets_of_kept h (kept_of_attempt fun a t ht => kept_of_read ht) rfl rfl
  | prices store => exact meets_of_kept h (kept_of_attempt fun a t ht => kept_of_read ht) rfl rfl
  | isExhausted iterator => exact meets_of_kept h (step_isExhausted_kept s iterator) rfl rfl
  | newIterator prices supplier =>
    exact meets_of_kept h (kept_of_attempt fun a t ht => newIterator_kept ht) rfl rfl
  | newExhausted prices => exact meets_of_kept h (kept_of_attempt fun a t ht => newExhausted_kept ht) rfl rfl
  | newQueue pairs => exact meets_of_kept h ⟨rfl, rfl⟩ rfl rfl
  | newCursor map bounds order => exact meets_of_kept h (kept_of_attempt fun a t ht => cursor_kept ht) rfl rfl
  | range store start stop order => exact meets_of_kept h (kept_of_attempt fun a t ht => range_kept ht) rfl rfl
  | walk through =>
    refine meets_of_kept h (kept_of_attempt ?_) rfl rfl
    intro a t ht
    unfold attempt at ht
    obtain ⟨r, hw, ht⟩ := exists_of_bind ht
    cases ht
    exact walk_kept hw
  | advance iterator => exact meets_of_kept h (step_advance_kept s iterator) rfl rfl
  | advanceAll iterator => exact meets_of_kept h (step_advanceAll_kept s iterator) rfl rfl
  | next o =>
    cases o with
    | queue q => exact meets_of_kept h (nextOfQueue_kept s q) rfl rfl
    | cursor c => exact meets_of_kept h (nextOfCursor_kept s c) rfl rfl
    | iterator i => exact meets_of_kept h (pull_kept s i) rfl rfl
    | map i => exact meets_of_kept h (Kept.refl s) rfl rfl
    | store i => exact meets_of_kept h (Kept.refl s) rfl rfl
  | drain o =>
    cases o with
    | queue q => exact meets_of_kept h (drainQueue_kept s q) rfl rfl
    | cursor c => exact meets_of_kept h (drainCursor_kept s c) rfl rfl
    | iterator i => exact meets_of_kept h (pullAll_kept s i) rfl rfl
    | map i => exact meets_of_kept h (Kept.refl s) rfl rfl
    | store i => exact meets_of_kept h (Kept.refl s) rfl rfl

/-! ## Iterations -/

theorem Shown.find_seen (h : s.Shown b) {o : Object} {x : Bindings} (hx : b.seen o = some x) :
    ∃ i m, s.mapOf o = .ok i ∧ find s.maps i = .ok m ∧ s.maps[i]? = some m ∧ m.Sound ∧ m.toList = x := by
  cases o with
  | map i =>
    rcases h.find_map i with ⟨-, hb⟩ | ⟨m, hf, hm, hs, hb⟩
    · simp [Books.seen, hb] at hx
    · exact ⟨i, m, rfl, hf, hm, hs, Option.some.inj (hb.symm.trans hx)⟩
  | store i =>
    rcases h.find_store i with ⟨-, -, hb⟩ | ⟨y, m, -, hy, hm, hs, hb⟩
    · simp [Books.seen, hb] at hx
    · have hfind : find s.stores i = .ok y := by simp only [find, h.stores, hy]
      refine ⟨y.map, m, ?_, by simp only [find, hm], hm, hs, by simpa [Books.seen, hb] using hx⟩
      simp only [mapOf, hfind, bind, Except.bind]
      rfl
  | queue q => simp [Books.seen] at hx
  | cursor c => simp [Books.seen] at hx
  | iterator i => simp [Books.seen] at hx

/-- a walk through a map or store that is carried to its end gives the bindings in order -/
theorem Shown.walk_shown (h : s.Shown b) {o : Object} {x : Bindings} (hx : b.seen o = some x) :
    (s.run [.walk o, .drain (.cursor s.cursors.length)]).1 =
      [.ok (.made (.cursor s.cursors.length)), .ok (.pairs x)] := by
  obtain ⟨i, m, hmap, hfind, hm, hs, rfl⟩ := h.find_seen hx
  have hwalk : s.attempt (.walk o) = .ok (.made (.cursor s.cursors.length),
      (s.addCursor ⟨i, Cursor.start m Bounds.all .ascending⟩).2) := by
    simp only [attempt, walk, newCursor, hmap, hfind, bind, Except.bind]
    rfl
  have hdrain : ((s.addCursor ⟨i, Cursor.start m Bounds.all .ascending⟩).2.drainCursor s.cursors.length).1 =
      m.toList := by
    have hrange := SortedMap.range_eq hs Bounds.all .ascending
    rw [range_all] at hrange
    simp only [drainCursor, addCursor, List.getElem?_concat_length, hm]
    exact hrange
  have hstep : ((s.addCursor ⟨i, Cursor.start m Bounds.all .ascending⟩).2.step
      (.drain (.cursor s.cursors.length))).1 = .ok (.pairs m.toList) :=
    congrArg (fun pairs => Except.ok (Answer.pairs pairs)) hdrain
  simp only [run, step_of_ok hwalk, hstep]

/-- no key is between inverted bounds -/
theorem range_of_inverted {r : Bounds} (h : r.inverted = true) (x : Bindings) (d : Direction) : x.range r d = [] := by
  have hout : (x.filter fun q => r.contains q.1) = [] :=
    List.filter_eq_nil_iff.mpr fun q _ => by simp [Bounds.contains_of_inverted h]
  cases d with
  | ascending => exact hout
  | descending => rw [Bindings.range, hout, List.reverse_nil]

/-- a range of a store is a new iterator over the bindings in range at that moment -/
theorem Shown.open_range (h : s.Shown b) {i : StoreId} {p : Prices} {x : Bindings} (hx : b.held i = some (p, x))
    {start stop : Argument} {order : Option Argument} {r : Bounds} {d : Direction} (hd : Argument.asDirection order = .ok d)
    (hstart : start.asBound = .ok r.start) (hstop : stop.asBound = .ok r.stop) :
    ∃ t, s.attempt (.range i start stop order) = .ok (.opened s.iterators.length p.rangeSetup r.inverted, t) ∧
      t.iterators = s.iterators ++ [⟨p, .pairs (x.range r d), r.inverted⟩] := by
  rcases h.find_store i with ⟨-, -, hb⟩ | ⟨y, m, hf, -, -, hs, hb⟩
  · simp [hb] at hx
  · obtain ⟨rfl, rfl⟩ : y.prices = p ∧ m.toList = x := by simpa [hb] using hx
    have hrange : Store.range m start stop order = .ok (Range.ofMap m r.start r.stop d) := by
      simp only [Store.range, hd, hstart, hstop, bind, Except.bind]
      rfl
    cases hinv : r.inverted with
    | false =>
      refine ⟨(s.openRange y.prices (.snapshot (m.range r d))).2, ?_, ?_⟩
      · simp only [attempt, hf, hrange, Range.ofMap_snapshot hinv, bind, Except.bind]
        rfl
      · rw [← SortedMap.range_eq hs]
        rfl
    | true =>
      obtain ⟨a, e, ha, he, hlt⟩ : ∃ a e, r.start = some a ∧ r.stop = some e ∧ ¬ a < e := by
        unfold Bounds.inverted at hinv
        split at hinv <;> simp_all
      refine ⟨(s.openRange y.prices (.inverted a e)).2, ?_, ?_⟩
      · simp only [attempt, hf, hrange, ha, he, Range.ofMap_inverted hlt, bind, Except.bind]
        rfl
      · rw [range_of_inverted hinv]
        rfl

/-- a range of a store that is carried to its end gives the bindings in range at the moment it was opened -/
theorem Shown.range_shown (h : s.Shown b) {i : StoreId} {p : Prices} {x : Bindings} (hx : b.held i = some (p, x))
    {start stop : Argument} {order : Option Argument} {r : Bounds} {d : Direction} (hd : Argument.asDirection order = .ok d)
    (hstart : start.asBound = .ok r.start) (hstop : stop.asBound = .ok r.stop) :
    (s.run [.range i start stop order, .drain (.iterator s.iterators.length)]).1 =
      [.ok (.opened s.iterators.length p.rangeSetup r.inverted), .ok (.pairs (x.range r d))] := by
  obtain ⟨t, hopen, ht⟩ := h.open_range hx hd hstart hstop
  have hi : t.iterators[s.iterators.length]? = some ⟨p, .pairs (x.range r d), r.inverted⟩ := by
    rw [ht]
    exact List.getElem?_concat_length
  have hdrain : (t.pullAll s.iterators.length).1 = x.range r d := by
    cases hinv : r.inverted with
    | false => exact pullAll_pairs hi hinv rfl
    | true =>
      rw [range_of_inverted hinv]
      exact pullAll_of_exhausted hi hinv
  have hstep : (t.step (.drain (.iterator s.iterators.length))).1 = .ok (.pairs (x.range r d)) :=
    congrArg (fun pairs => Except.ok (Answer.pairs pairs)) hdrain
  simp only [run, step_of_ok hopen, hstep]

/-! ## All commands -/

theorem run_shown (h : s.Shown b) (cs : List Command) : (s.run cs).2.Shown (cs.foldl Books.enter b) := by
  induction cs generalizing s b with
  | nil => exact h
  | cons c cs ih => exact ih (step_meets h c).1

/-- everything that can be asked of a session's maps and stores is told by its books -/
structure Views (s : Session) (b : Books) : Prop where
  /-- each map has the bindings of the books, each key once and in order -/
  contents : s.maps.map SortedMap.toList = b.maps ∧ ∀ x ∈ b.maps, x.Sorted
  /-- the stores are those of the books, each over a map that exists -/
  stores : s.stores = b.stores ∧ ∀ x ∈ b.stores, x.map < b.maps.length
  /-- commands that make, read or write maps and stores are answered as the books say -/
  answers : ∀ c, ∀ a ∈ b.answer c, (s.step c).1 = a
  /-- walks that are carried to their end give all bindings -/
  walks : ∀ o x, b.seen o = some x →
    (s.run [.walk o, .drain (.cursor s.cursors.length)]).1 =
      [.ok (.made (.cursor s.cursors.length)), .ok (.pairs x)]
  /-- ranges that are carried to their end give the bindings in range -/
  ranges : ∀ i p x, b.held i = some (p, x) → ∀ start stop order (r : Bounds) d,
    Argument.asDirection order = .ok d → start.asBound = .ok r.start → stop.asBound = .ok r.stop →
      (s.run [.range i start stop order, .drain (.iterator s.iterators.length)]).1 =
        [.ok (.opened s.iterators.length p.rangeSetup r.inverted), .ok (.pairs (x.range r d))]

theorem Shown.views (h : s.Shown b) : s.Views b := by
  refine ⟨⟨h.contents, ?_⟩, ⟨h.stores, ?_⟩, fun c => (step_meets h c).2, fun o x => h.walk_shown,
    fun i p x hx start stop order r d => h.range_shown hx⟩
  · intro x hx
    rw [← h.contents] at hx
    obtain ⟨m, hm, rfl⟩ := List.mem_map.mp hx
    exact (h.sound m hm).sorted
  · intro x hx
    rw [← h.contents, List.length_map]
    exact h.homes x (h.stores ▸ hx)

/-- **Many handles, one map.** After any commands whatsoever, in any order and on any handles, all reads through a map and
through the stores over it find the bindings that the writes through all of them have led to. It makes no difference to any
answer or to the session whether bytes are given as they are, in a buffer, or through a view. -/
theorem run_views (cs : List Command) :
    (empty.run cs).2.Views (Books.after cs) ∧ empty.run (cs.map Command.plain) = empty.run cs :=
  ⟨(run_shown shown_empty cs).views, run_plain empty cs⟩

end Session

end MeteredStore
