import Mathlib.Tactic

/-!
# Byte arrays as lists

Little-endian words (`ofLE`, `toLE`) and block copies into a fixed array (`splice`), with the
lemmas that read a copied array back.
-/

namespace Bytes

/-! ### Little-endian words -/

/-- The number written by a list of bytes, least significant first. -/
def ofLE : List UInt8 → ℕ
  | [] => 0
  | b :: bs => b.toNat + 256 * ofLE bs

/-- The `w` low bytes of a number, least significant first. -/
def toLE : ℕ → ℕ → List UInt8
  | 0, _ => []
  | w + 1, n => UInt8.ofNat n :: toLE w (n / 256)

@[simp] theorem length_toLE (w n : ℕ) : (toLE w n).length = w := by
  induction w generalizing n with
  | zero => rfl
  | succ w ih => simp [toLE, ih]

/-- Reading a stored word gives the number modulo the width of the word. -/
theorem ofLE_toLE (w n : ℕ) : ofLE (toLE w n) = n % 256 ^ w := by
  induction w generalizing n with
  | zero => simp [toLE, ofLE, Nat.mod_one]
  | succ w ih =>
    have hb : (UInt8.ofNat n).toNat = n % 256 := UInt8.toNat_ofNat'
    rw [toLE, ofLE, ih, hb, pow_succ', Nat.mod_mul]

/-- Storing the number that was read gives the bytes back. -/
theorem toLE_ofLE (l : List UInt8) : toLE l.length (ofLE l) = l := by
  induction l with
  | nil => rfl
  | cons b bs ih =>
    have hb : b.toNat < 256 := b.toNat_lt
    have hlow : UInt8.ofNat (b.toNat + 256 * ofLE bs) = b := by
      refine UInt8.toNat.inj ?_
      rw [UInt8.toNat_ofNat', Nat.add_mul_mod_self_left, Nat.mod_eq_of_lt hb]
    rw [List.length_cons, toLE, ofLE, hlow,
      show (b.toNat + 256 * ofLE bs) / 256 = ofLE bs by omega, ih]

/-- Words of one width that give the same number have the same bytes. -/
theorem ofLE_inj {l l' : List UInt8} (hlen : l.length = l'.length) (h : ofLE l = ofLE l') :
    l = l' := by
  rw [← toLE_ofLE l, ← toLE_ofLE l', hlen, h]

theorem ofLE_lt (l : List UInt8) : ofLE l < 256 ^ l.length := by
  induction l with
  | nil => simp [ofLE]
  | cons b bs ih =>
    have hb : b.toNat < 256 := b.toNat_lt
    rw [ofLE, List.length_cons, pow_succ]
    omega

/-! ### Block copies -/

section Splice

variable {α : Type*}

/-- Overwrite the part of `xs` from index `off` on with `src`. -/
def splice (xs : List α) (off : ℕ) (src : List α) : List α :=
  xs.take off ++ src ++ xs.drop (off + src.length)

/-- A copy that fits keeps the length of the array. -/
theorem length_splice {xs src : List α} {off : ℕ} (h : off + src.length ≤ xs.length) :
    (splice xs off src).length = xs.length := by
  simp only [splice, List.length_append, List.length_take, List.length_drop]
  omega

/-- The copied bytes are read back where they were written. -/
theorem splice_read (xs src : List α) {off : ℕ} (h : off ≤ xs.length) :
    ((splice xs off src).drop off).take src.length = src := by
  have hlen : (xs.take off).length = off := by simpa using h
  rw [splice, List.append_assoc, List.drop_append_of_le_length hlen.ge, List.drop_eq_nil_of_le hlen.le,
    List.nil_append, List.take_left']
  rfl

/-- A range that ends before the copied block is not changed. -/
theorem splice_read_before (xs src : List α) {off a n : ℕ} (h : off ≤ xs.length)
    (ha : a + n ≤ off) :
    ((splice xs off src).drop a).take n = (xs.drop a).take n := by
  have hlen : (xs.take off).length = off := by simpa using h
  rw [splice, List.append_assoc, List.drop_append_of_le_length (by omega), List.take_append_of_le_length
    (by rw [List.length_drop]; omega), List.drop_take, List.take_take, min_eq_left (by omega)]

/-- A range that starts after the copied block is not changed. -/
theorem splice_read_after (xs src : List α) {off a n : ℕ} (h : off + src.length ≤ xs.length)
    (ha : off + src.length ≤ a) :
    ((splice xs off src).drop a).take n = (xs.drop a).take n := by
  have hlen : (xs.take off ++ src).length = off + src.length := by simp; omega
  rw [splice, List.drop_append, List.drop_eq_nil_of_le (by omega), List.nil_append, hlen,
    List.drop_drop, show off + src.length + (a - (off + src.length)) = a by omega]

end Splice

end Bytes
