import Mathlib.Tactic

/-!
# Tables of slots with holes

A table is a list of slots; a slot is empty or holds a key with a value. An entry keeps its index
for as long as it lives, a removed entry leaves a hole, and a new entry takes the first hole or
else a new slot at the end. As long as no key sits in two slots (`Unique`), such a table is a finite
map (`lookup`), and the operations are the ones of maps: `lookup_setAt`, `lookup_insert`,
`lookup_clear`. Where an entry sits is not observable, but it does not move (`At.insert`,
`At.set_of_ne`).
-/

namespace SlotTable

variable {K V : Type*}

/-- Slot `i` holds the key `k` with the value `v`. -/
def At (s : List (Option (K × V))) (i : ℕ) (k : K) (v : V) : Prop := s[i]? = some (some (k, v))

/-- No key sits in two slots. -/
def Unique (s : List (Option (K × V))) : Prop :=
  ∀ ⦃i j k v w⦄, At s i k v → At s j k w → i = j

/-- The first slot with key `k`, and its value. -/
def find [DecidableEq K] (k : K) : List (Option (K × V)) → Option (ℕ × V)
  | [] => none
  | none :: s => (find k s).map fun p => (p.1 + 1, p.2)
  | some (k', v) :: s => if k' = k then some (0, v) else (find k s).map fun p => (p.1 + 1, p.2)

/-- The value of key `k`. -/
def lookup [DecidableEq K] (s : List (Option (K × V))) (k : K) : Option V := (find k s).map Prod.snd

/-- The first hole. -/
def firstHole : List (Option (K × V)) → Option ℕ
  | [] => none
  | none :: _ => some 0
  | some _ :: s => (firstHole s).map (· + 1)

/-- Put a new entry into the first hole, or into a new slot at the end. -/
def insert (s : List (Option (K × V))) (k : K) (v : V) : List (Option (K × V)) :=
  match firstHole s with
  | some i => s.set i (some (k, v))
  | none => s ++ [some (k, v)]

variable {s : List (Option (K × V))} {i j : ℕ} {k k' : K} {v w : V}

theorem at_nil : ¬ At ([] : List (Option (K × V))) i k v := by simp [At]

theorem At.lt (h : At s i k v) : i < s.length := (List.getElem?_eq_some_iff.1 h).1

theorem At.inj (h : At s i k v) (h' : At s i k' w) : k = k' ∧ v = w := by
  unfold At at h h'
  rw [h] at h'
  simpa using h'

/-- Overwriting a slot leaves the others. -/
theorem At.set_of_ne (h : At s i k v) {x : Option (K × V)} (hij : j ≠ i) : At (s.set j x) i k v := by
  rw [At, List.getElem?_set_ne hij]
  exact h

theorem at_set_iff {x : Option (K × V)} (hi : i < s.length) :
    At (s.set i x) j k v ↔ (j = i ∧ x = some (k, v)) ∨ (j ≠ i ∧ At s j k v) := by
  unfold At
  by_cases hij : j = i
  · subst hij
    simp [List.getElem?_set_self hi]
  · rw [List.getElem?_set_ne (Ne.symm hij)]
    simp [hij]

theorem at_append_iff :
    At (s ++ [some (k', w)]) j k v ↔ At s j k v ∨ (j = s.length ∧ k' = k ∧ w = v) := by
  unfold At
  rcases lt_trichotomy j s.length with hj | rfl | hj
  · rw [List.getElem?_append_left hj]
    simp [hj.ne]
  · rw [List.getElem?_append_right le_rfl]
    simp
  · rw [List.getElem?_eq_none (by simp; omega), List.getElem?_eq_none hj.le]
    simp [hj.ne']

/-- A slot of one key that is written leaves the entries of the others. -/
theorem at_set_of_ne {x : Option (K × V)} (h : At s i k v) (hk : k' ≠ k) (hx : ∀ w, x ≠ some (k', w))
    (j : ℕ) (w : V) : At (s.set i x) j k' w ↔ At s j k' w := by
  rw [at_set_iff h.lt]
  constructor
  · rintro (⟨-, hw⟩ | ⟨-, hj⟩)
    · exact absurd hw (hx w)
    · exact hj
  · intro hj
    exact Or.inr ⟨fun hji => hk (At.inj (hji ▸ hj) h).1, hj⟩

/-- The first hole is a slot that holds nothing. -/
theorem firstHole_eq_some (h : firstHole s = some i) : s[i]? = some none := by
  induction s generalizing i with
  | nil => cases h
  | cons x s ih =>
    cases x with
    | none => cases h; rfl
    | some p =>
      rw [firstHole, Option.map_eq_some_iff] at h
      obtain ⟨i', hi', rfl⟩ := h
      simpa using ih hi'

/-- Where a new entry goes: to a slot that holds nothing, or behind the last slot. -/
theorem insert_cases (s : List (Option (K × V))) (k : K) (v : V) :
    (∃ i, firstHole s = some i ∧ s[i]? = some none ∧ insert s k v = s.set i (some (k, v))) ∨
      (firstHole s = none ∧ insert s k v = s ++ [some (k, v)]) := by
  unfold insert
  cases h : firstHole s with
  | none => exact Or.inr ⟨rfl, rfl⟩
  | some i => exact Or.inl ⟨i, rfl, firstHole_eq_some h, rfl⟩

/-- The entries after an insertion: the old ones where they were, and the new one. -/
theorem at_insert (s : List (Option (K × V))) (k : K) (v : V) :
    ∃ i, (∀ k' w, ¬ At s i k' w) ∧
      ∀ j k' w, At (insert s k v) j k' w ↔ (j = i ∧ k = k' ∧ v = w) ∨ At s j k' w := by
  rcases insert_cases s k v with ⟨i, -, hi, he⟩ | ⟨-, he⟩
  · have hempty : ∀ k' w, ¬ At s i k' w := fun k' w h => by simp [At, hi] at h
    refine ⟨i, hempty, fun j k' w => ?_⟩
    rw [he, at_set_iff (List.getElem?_eq_some_iff.1 hi).1]
    constructor
    · rintro (⟨rfl, hx⟩ | ⟨-, h⟩)
      · cases hx
        exact Or.inl ⟨rfl, rfl, rfl⟩
      · exact Or.inr h
    · rintro (⟨rfl, rfl, rfl⟩ | h)
      · exact Or.inl ⟨rfl, rfl⟩
      · exact Or.inr ⟨fun hji => hempty k' w (hji ▸ h), h⟩
  · refine ⟨s.length, fun k' w h => h.lt.false, fun j k' w => ?_⟩
    rw [he, at_append_iff]
    tauto

/-- Entries do not move when a new one comes. -/
theorem At.insert (h : At s i k v) (k' : K) (w : V) : At (insert s k' w) i k v := by
  obtain ⟨j, -, hiff⟩ := at_insert s k' w
  exact (hiff i k v).2 (Or.inr h)

/-- A new value for a key that is present brings no second key. -/
theorem Unique.setAt (hU : Unique s) (h : At s i k v) (w : V) : Unique (s.set i (some (k, w))) := by
  intro a b k' x y ha hb
  rw [at_set_iff h.lt] at ha hb
  rcases ha with ⟨rfl, hx⟩ | ⟨hai, ha⟩ <;> rcases hb with ⟨rfl, hy⟩ | ⟨hbi, hb⟩
  · rfl
  · cases hx
    exact hU h hb
  · cases hy
    exact hU ha h
  · exact hU ha hb

/-- Removing an entry brings no second key. -/
theorem Unique.clear (hU : Unique s) (hi : i < s.length) : Unique (s.set i none) := by
  intro a b k' x y ha hb
  rw [at_set_iff hi] at ha hb
  rcases ha with ⟨-, hx⟩ | ⟨-, ha⟩
  · cases hx
  · rcases hb with ⟨-, hy⟩ | ⟨-, hb⟩
    · cases hy
    · exact hU ha hb

/-! ### The keys -/

/-- The keys of the entries. -/
def keys (s : List (Option (K × V))) : List K := s.filterMap (Option.map Prod.fst)

theorem mem_keys_iff : k ∈ keys s ↔ ∃ i v, At s i k v := by
  unfold keys At
  rw [List.mem_filterMap]
  constructor
  · rintro ⟨x, hx, hk⟩
    obtain ⟨p, rfl, rfl⟩ := Option.map_eq_some_iff.1 hk
    obtain ⟨i, hi⟩ := List.getElem?_of_mem hx
    exact ⟨i, p.2, hi⟩
  · rintro ⟨i, v, hi⟩
    exact ⟨some (k, v), List.mem_of_getElem? hi, rfl⟩

/-- No key comes twice. -/
theorem Unique.nodup_keys (hU : Unique s) : (keys s).Nodup := by
  induction s with
  | nil => exact List.nodup_nil
  | cons x s ih =>
    have hrest : Unique s := fun i j k v w hi hj =>
      Nat.succ_injective (hU (i := i + 1) (j := j + 1) (k := k) (v := v) (w := w) hi hj)
    rcases x with _ | ⟨k, v⟩
    · exact ih hrest
    · refine List.nodup_cons.2 ⟨fun hmem => ?_, ih hrest⟩
      obtain ⟨i, w, hi⟩ := mem_keys_iff.1 hmem
      exact absurd (hU (i := 0) (j := i + 1) (k := k) (v := v) (w := w) rfl hi) (by omega)

/-- A table without holes has a key in each slot. -/
theorem length_keys_of_firstHole (h : firstHole s = none) : (keys s).length = s.length := by
  induction s with
  | nil => rfl
  | cons x s ih =>
    rcases x with _ | ⟨k, v⟩
    · cases h
    · rw [firstHole, Option.map_eq_none_iff] at h
      exact congrArg (· + 1) (ih h)

theorem length_keys_append (s : List (Option (K × V))) (k : K) (v : V) :
    (keys (s ++ [some (k, v)])).length = (keys s).length + 1 := by
  rw [keys, List.filterMap_append, List.length_append]
  rfl

section Lookup

variable [DecidableEq K]

theorem find_eq_some (h : find k s = some (i, v)) : At s i k v := by
  induction s generalizing i with
  | nil => cases h
  | cons x s ih =>
    rcases x with _ | ⟨k', w⟩
    · rw [find, Option.map_eq_some_iff] at h
      obtain ⟨⟨i', v'⟩, hi', he⟩ := h
      cases he
      exact ih hi'
    · rw [find] at h
      split_ifs at h with hk
      · cases h
        subst hk
        rfl
      · rw [Option.map_eq_some_iff] at h
        obtain ⟨⟨i', v'⟩, hi', he⟩ := h
        cases he
        exact ih hi'

theorem find_eq_none (h : find k s = none) (i : ℕ) (v : V) : ¬ At s i k v := by
  induction s generalizing i with
  | nil => exact at_nil
  | cons x s ih =>
    rcases x with _ | ⟨k', w⟩
    · rw [find, Option.map_eq_none_iff] at h
      cases i with
      | zero => simp [At]
      | succ i => exact ih h i
    · rw [find] at h
      split_ifs at h with hk
      rw [Option.map_eq_none_iff] at h
      cases i with
      | zero =>
        rintro hat
        simp only [At, List.getElem?_cons_zero, Option.some.injEq, Prod.mk.injEq] at hat
        exact hk hat.1
      | succ i => exact ih h i

/-- In a table without double keys the entry of a key is found where it is. -/
theorem At.find (h : At s i k v) (hU : Unique s) : SlotTable.find k s = some (i, v) := by
  cases hf : SlotTable.find k s with
  | none => exact absurd h (find_eq_none hf i v)
  | some p =>
    have hp : At s p.1 k p.2 := find_eq_some hf
    have hi := hU hp h
    have hv := (At.inj (hi ▸ hp) h).2
    rw [← hi, ← hv]

theorem At.lookup (h : At s i k v) (hU : Unique s) : SlotTable.lookup s k = some v := by
  rw [SlotTable.lookup, h.find hU]
  rfl

theorem lookup_eq_some (h : lookup s k = some v) : ∃ i, At s i k v := by
  obtain ⟨p, hp, rfl⟩ := Option.map_eq_some_iff.1 h
  exact ⟨p.1, find_eq_some hp⟩

theorem lookup_eq_none_iff : lookup s k = none ↔ ∀ i v, ¬ At s i k v := by
  constructor
  · intro h
    exact find_eq_none (Option.map_eq_none_iff.1 h)
  · intro h
    cases hl : lookup s k with
    | none => rfl
    | some v =>
      obtain ⟨i, hi⟩ := lookup_eq_some hl
      exact absurd hi (h i v)

/-- Two tables with the same entries, up to where they sit, are the same map. -/
theorem lookup_congr {t : List (Option (K × V))} (hs : Unique s) (ht : Unique t)
    (h : ∀ v, (∃ i, At s i k v) ↔ ∃ i, At t i k v) : lookup s k = lookup t k := by
  ext v
  constructor
  · intro hv
    obtain ⟨i, hi⟩ := (h v).1 (lookup_eq_some hv)
    exact hi.lookup ht
  · intro hv
    obtain ⟨i, hi⟩ := (h v).2 (lookup_eq_some hv)
    exact hi.lookup hs

/-! ### The operations on the map -/

/-- A change to the slots of one key is an update of the map. -/
theorem lookup_eq_update {t : List (Option (K × V))} {x : Option V} (ht : Unique t) (hU : Unique s)
    (hk : lookup t k = x) (hne : ∀ k', k' ≠ k → ∀ j w, At t j k' w ↔ At s j k' w) :
    lookup t = Function.update (lookup s) k x := by
  funext k'
  by_cases hk' : k' = k
  · subst hk'
    rw [Function.update_self, hk]
  · rw [Function.update_of_ne hk']
    exact lookup_congr ht hU fun w => exists_congr fun j => hne k' hk' j w

/-- A new value for a key that is present. -/
theorem lookup_setAt (hU : Unique s) (h : At s i k v) (w : V) :
    lookup (s.set i (some (k, w))) = Function.update (lookup s) k (some w) := by
  have hU' := hU.setAt h w
  have hat : At (s.set i (some (k, w))) i k w := (at_set_iff h.lt).2 (Or.inl ⟨rfl, rfl⟩)
  refine lookup_eq_update hU' hU (hat.lookup hU') fun k' hk => at_set_of_ne h hk fun x hx => ?_
  cases hx
  exact hk rfl

/-- A new entry for a key that is absent. -/
theorem Unique.insert (hU : Unique s) (h : lookup s k = none) (v : V) : Unique (insert s k v) := by
  obtain ⟨i, -, hiff⟩ := at_insert s k v
  have habs := lookup_eq_none_iff.1 h
  intro a b k' x y ha hb
  rw [hiff] at ha hb
  rcases ha with ⟨rfl, rfl, -⟩ | ha <;> rcases hb with ⟨rfl, hk, -⟩ | hb
  · rfl
  · exact absurd hb (habs _ _)
  · subst hk
    exact absurd ha (habs _ _)
  · exact hU ha hb

theorem lookup_insert (hU : Unique s) (h : lookup s k = none) (v : V) :
    lookup (insert s k v) = Function.update (lookup s) k (some v) := by
  obtain ⟨i, -, hiff⟩ := at_insert s k v
  have hU' := hU.insert h v
  have hat : At (insert s k v) i k v := (hiff _ _ _).2 (Or.inl ⟨rfl, rfl, rfl⟩)
  refine lookup_eq_update hU' hU (hat.lookup hU') fun k' hk j w => ?_
  rw [hiff]
  constructor
  · rintro (⟨-, rfl, -⟩ | hj)
    · exact absurd rfl hk
    · exact hj
  · exact Or.inr

/-- Removing an entry. -/
theorem lookup_clear (hU : Unique s) (h : At s i k v) :
    lookup (s.set i none) = Function.update (lookup s) k none := by
  have hgone : lookup (s.set i none) k = none := by
    rw [lookup_eq_none_iff]
    intro j x hj
    rw [at_set_iff h.lt] at hj
    rcases hj with ⟨-, hx⟩ | ⟨hji, hj⟩
    · cases hx
    · exact hji (hU hj h)
  refine lookup_eq_update (hU.clear h.lt) hU hgone fun k' hk => at_set_of_ne h hk fun x hx => ?_
  cases hx

end Lookup

end SlotTable
