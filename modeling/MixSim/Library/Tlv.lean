import Mathlib.Tactic

/-!
# Type-length-value records

A decoder reads one record at the head of some bytes. All that is asked of it: it fails with a
negative code, a value starts behind the first byte, and it ends inside the bytes (`Decoder`). The
records of a region are decoded one after another, each from what is left of the region, up to the
first one of a type (`Decoder.first`); its value lies in the region (`Decoder.first_le`). A decoder
that does not mind what follows a record is `Stable`.
-/

namespace Tlv

/-- A record at the head of some bytes: its type, where its value starts, and how long that is. -/
structure Record where
  type : ℕ
  value : ℕ
  len : ℕ
  deriving DecidableEq

/-- The end of the value. -/
def Record.stop (t : Record) : ℕ := t.value + t.len

/-- A function that reads a record from bytes, and looks at nothing else. -/
structure Decoder where
  decode : List UInt8 → Except ℤ Record
  err_neg : ∀ {bs e}, decode bs = .error e → e < 0
  value_pos : ∀ {bs t}, decode bs = .ok t → 0 < t.value
  stop_le : ∀ {bs t}, decode bs = .ok t → t.stop ≤ bs.length

/-- A record is read in the same way whatever follows it. -/
def Decoder.Stable (D : Decoder) : Prop :=
  ∀ ⦃bs t⦄ (more : List UInt8), D.decode bs = .ok t → D.decode (bs ++ more) = .ok t

/-- The first record of a type in a region: where its value starts in the region, and its length.
Each record is read from what is left of the region. -/
def Decoder.first (D : Decoder) (type : ℕ) (bs : List UInt8) : Option (ℕ × ℕ) :=
  if bs = [] then none
  else
    match _h : D.decode bs with
    | .error _ => none
    | .ok t =>
        if t.type = type then some (t.value, t.len)
        else (D.first type (bs.drop t.stop)).map fun p => (t.stop + p.1, p.2)
termination_by bs.length
decreasing_by
  have hpos := D.value_pos _h
  have hle := D.stop_le _h
  rw [List.length_drop]
  unfold Record.stop at hle ⊢
  omega

section First

variable {D : Decoder} {type : ℕ} {bs : List UInt8} {t : Record} {o n : ℕ}

theorem Decoder.first_error {e : ℤ} (h : D.decode bs = .error e) : D.first type bs = none := by
  rw [Decoder.first]
  split_ifs
  · rfl
  · split
    · rfl
    · rename_i t ht
      rw [h] at ht
      cases ht

theorem Decoder.first_ok (h : D.decode bs = .ok t) : D.first type bs =
    if t.type = type then some (t.value, t.len)
    else (D.first type (bs.drop t.stop)).map fun p => (t.stop + p.1, p.2) := by
  have hne : bs ≠ [] := by
    rintro rfl
    have hpos := D.value_pos h
    have hle := D.stop_le h
    rw [Record.stop, List.length_nil] at hle
    omega
  rw [Decoder.first, if_neg hne]
  split
  · rename_i e he
    rw [h] at he
    cases he
  · rename_i t' ht
    rw [h] at ht
    cases ht
    rfl

/-- The value of the first record of a type lies in the region. -/
theorem Decoder.first_le (h : D.first type bs = some (o, n)) : o + n ≤ bs.length := by
  induction hlen : bs.length using Nat.strong_induction_on generalizing bs o with
  | _ k ih =>
    subst hlen
    rcases hd : D.decode bs with e | t
    · rw [first_error hd] at h
      cases h
    rw [first_ok hd] at h
    have hpos := D.value_pos hd
    have hle := D.stop_le hd
    split_ifs at h with htype
    · cases h
      exact hle
    · obtain ⟨⟨o', n'⟩, hrest, hp⟩ := Option.map_eq_some_iff.1 h
      cases hp
      have hdrop : (bs.drop t.stop).length = bs.length - t.stop := List.length_drop
      have hin := ih _ (by rw [hdrop]; unfold Record.stop at hle ⊢; omega) hrest rfl
      rw [hdrop] at hin
      omega

end First

/-- `n` bytes of a memory, from address `p` on. -/
def window (mem : ℕ → UInt8) (p n : ℕ) : List UInt8 := (List.range n).map fun i => mem (p + i)

@[simp] theorem length_window (mem : ℕ → UInt8) (p n : ℕ) : (window mem p n).length = n := by
  rw [window, List.length_map, List.length_range]

/-- A window is a shorter one and the rest. -/
theorem window_append (mem : ℕ → UInt8) (p : ℕ) {k n : ℕ} (h : k ≤ n) :
    window mem p n = window mem p k ++ window mem (p + k) (n - k) := by
  obtain ⟨m, rfl⟩ := Nat.exists_eq_add_of_le h
  rw [Nat.add_sub_cancel_left, window, List.range_add, List.map_append, List.map_map]
  simp [window, Function.comp_def, Nat.add_assoc]

theorem drop_window (mem : ℕ → UInt8) (p : ℕ) {k n : ℕ} (h : k ≤ n) :
    (window mem p n).drop k = window mem (p + k) (n - k) := by
  rw [window_append mem p h, List.drop_left' (length_window mem p k)]

end Tlv
