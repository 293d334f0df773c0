import Mathlib.Data.List.TakeWhile
import Mathlib.Tactic

/-!
# Text in C

A string in an array of bytes ends before the first zero byte (`cstr`). Decimal numbers are printed
as `%u` does it (`decimal`) and read back as `strtol` and `atoi` do it: white space, a sign, and the
digits up to the first byte that is none. What has been printed is read back (`atoi_decimal`), and a
number has at most `k` digits when it is below `10 ^ k` (`length_decimal_le`).
-/

namespace CText

/-- The string at the head of an array. -/
def cstr (bs : List UInt8) : List UInt8 := bs.takeWhile (· ≠ 0)

theorem cstr_eq_self {bs : List UInt8} (h : 0 ∉ bs) : cstr bs = bs := by
  refine List.takeWhile_eq_self_iff.2 fun b hb => ?_
  rw [decide_eq_true_iff]
  rintro rfl
  exact h hb

/-! ### Decimal numbers -/

/-- The code of a character. -/
def code (c : Char) : UInt8 := UInt8.ofNat c.toNat

/-- `%u`. -/
def decimal (n : ℕ) : List UInt8 := (Nat.toDigits 10 n).map code

/-- The digits `0` to `9`. -/
def isDigit (b : UInt8) : Bool := 48 ≤ b && b ≤ 57

/-- `isspace`. -/
def isSpace (b : UInt8) : Bool := b = 32 || (9 ≤ b && b ≤ 13)

/-- The number written by digits. -/
def digitsValue (bs : List UInt8) : ℕ := bs.foldl (fun v b => 10 * v + (b.toNat - 48)) 0

/-- The value of the digits at the head of a string. -/
def leadingValue (bs : List UInt8) : ℕ := digitsValue (bs.takeWhile isDigit)

/-- The value of a number that may have a sign. -/
def signedValue : List UInt8 → ℤ
  | [] => 0
  | b :: bs =>
      if b = 45 then -(leadingValue bs : ℤ)
      else if b = 43 then leadingValue bs
      else leadingValue (b :: bs)

/-- `strtol` in base 10, with a 64-bit `long`. -/
def strtol (bs : List UInt8) : ℤ :=
  max (-2 ^ 63) (min (signedValue (bs.dropWhile isSpace)) (2 ^ 63 - 1))

/-- `atoi`, which is `(int) strtol`. -/
def atoi (bs : List UInt8) : ℤ := Int.bmod (strtol bs) (2 ^ 32)

/-- The conversion of an `int` to `uint32_t`. -/
def toUInt32 (i : ℤ) : ℕ := (i % 2 ^ 32).toNat

section Decimal

variable {n k : ℕ}

theorem toNat_code {c : Char} (h : c.isDigit) : (code c).toNat = c.toNat ∧ isDigit (code c) = true := by
  have hc : 48 ≤ c.toNat ∧ c.toNat ≤ 57 := by
    simpa [Char.isDigit, UInt32.le_iff_toNat_le] using h
  have hnat : (code c).toNat = c.toNat := by
    rw [code, UInt8.toNat_ofNat']
    omega
  refine ⟨hnat, ?_⟩
  rw [isDigit, Bool.and_eq_true, decide_eq_true_iff, decide_eq_true_iff, UInt8.le_iff_toNat_le,
    UInt8.le_iff_toNat_le, hnat]
  exact hc

theorem isDigit_of_mem_decimal {b : UInt8} (h : b ∈ decimal n) : isDigit b = true := by
  obtain ⟨c, hc, rfl⟩ := List.mem_map.1 h
  exact (toNat_code (Nat.isDigit_of_mem_toDigits (by omega) le_rfl hc)).2

/-- Printed digits are read as the number. -/
theorem digitsValue_decimal (n : ℕ) : digitsValue (decimal n) = n := by
  have hfold : ∀ (cs : List Char) (v : ℕ), (∀ c ∈ cs, c.isDigit) →
      (cs.map code).foldl (fun v b => 10 * v + (b.toNat - 48)) v = Nat.ofDigitChars 10 cs v := by
    intro cs
    induction cs with
    | nil => intro v _; rfl
    | cons c cs ih =>
      intro v hcs
      rw [List.map_cons, List.foldl_cons, (toNat_code (hcs c List.mem_cons_self)).1,
        ih _ fun c hc => hcs c (List.mem_cons_of_mem _ hc)]
      rfl
  rw [digitsValue, decimal, hfold _ _ fun c hc => Nat.isDigit_of_mem_toDigits (by omega) le_rfl hc]
  exact Nat.ofDigitChars_ten_toDigits

theorem length_decimal_le (hk : 0 < k) : (decimal n).length ≤ k ↔ n < 10 ^ k := by
  rw [decimal, List.length_map]
  exact Nat.length_toDigits_le_iff (by omega) hk

theorem decimal_ne_nil (n : ℕ) : decimal n ≠ [] := by
  simp [decimal, Nat.toDigits_ne_nil]

/-- A digit is neither white space nor a sign. -/
theorem not_space_of_isDigit {b : UInt8} (hb : isDigit b = true) :
    isSpace b = false ∧ b ≠ 45 ∧ b ≠ 43 := by
  rw [isDigit, Bool.and_eq_true, decide_eq_true_iff, decide_eq_true_iff, UInt8.le_iff_toNat_le,
    UInt8.le_iff_toNat_le] at hb
  have h48 : 48 ≤ b.toNat := hb.1
  refine ⟨?_, ?_, ?_⟩
  · rw [isSpace, Bool.or_eq_false_iff, Bool.and_eq_false_iff, decide_eq_false_iff_not,
      decide_eq_false_iff_not, decide_eq_false_iff_not, UInt8.le_iff_toNat_le, UInt8.le_iff_toNat_le]
    refine ⟨?_, Or.inr ?_⟩
    · rintro rfl
      exact absurd h48 (by decide)
    · show ¬ b.toNat ≤ 13
      omega
  · rintro rfl
    exact absurd h48 (by decide)
  · rintro rfl
    exact absurd h48 (by decide)

/-- What has been printed is read back. -/
theorem atoi_decimal (hn : n < 2 ^ 31) : atoi (decimal n) = n := by
  have hall : (decimal n).takeWhile isDigit = decimal n :=
    List.takeWhile_eq_self_iff.2 fun b hb => isDigit_of_mem_decimal hb
  have hvalue : leadingValue (decimal n) = n := by rw [leadingValue, hall, digitsValue_decimal]
  have hstrtol : strtol (decimal n) = n := by
    rcases hd : decimal n with _ | ⟨b, bs⟩
    · exact absurd hd (decimal_ne_nil n)
    · have hb : isDigit b = true :=
        isDigit_of_mem_decimal (n := n) (by rw [hd]; exact List.mem_cons_self)
      obtain ⟨hs, hminus, hplus⟩ := not_space_of_isDigit hb
      have hskip : (b :: bs).dropWhile isSpace = b :: bs := by
        rw [List.dropWhile_cons, if_neg (by simp [hs])]
      rw [hd] at hvalue
      rw [strtol, hskip, signedValue, if_neg hminus, if_neg hplus, hvalue]
      omega
  rw [atoi, hstrtol, Int.bmod_eq_of_le]
  · omega
  · omega

theorem toUInt32_natCast (hn : n < 2 ^ 32) : toUInt32 n = n := by
  rw [toUInt32]
  omega

end Decimal

/-! ### Canonical decimals -/

/-- A non-empty string of digits, without a leading zero unless it is `0`. -/
structure Canonical (bs : List UInt8) : Prop where
  ne_nil : bs ≠ []
  digits : ∀ b ∈ bs, isDigit b = true
  head : bs.head? = some 48 → bs = [48]

section Canonical

variable {bs : List UInt8} {b : UInt8} {m n r : ℕ}

theorem code_digitChar (hr : r < 10) : code (Nat.digitChar r) = UInt8.ofNat (48 + r) := by
  revert r
  decide

theorem decimal_of_lt (hr : r < 10) : decimal r = [UInt8.ofNat (48 + r)] := by
  rw [decimal, Nat.toDigits_of_lt_base hr, List.map_singleton, code_digitChar hr]

/-- The last digit stands behind the digits of the tenth. -/
theorem decimal_append (hm : 0 < m) (hr : r < 10) :
    decimal (10 * m + r) = decimal m ++ [UInt8.ofNat (48 + r)] := by
  rw [decimal, ← Nat.toDigits_append_toDigits (by omega) hm hr, List.map_append, ← decimal,
    ← decimal, decimal_of_lt hr]

theorem digitsValue_append (bs : List UInt8) (b : UInt8) :
    digitsValue (bs ++ [b]) = 10 * digitsValue bs + (b.toNat - 48) := by
  rw [digitsValue, List.foldl_append]
  rfl

theorem isDigit_iff : isDigit b = true ↔ ∃ r < 10, b = UInt8.ofNat (48 + r) := by
  rw [isDigit, Bool.and_eq_true, decide_eq_true_iff, decide_eq_true_iff, UInt8.le_iff_toNat_le,
    UInt8.le_iff_toNat_le]
  constructor
  · intro h
    have hlo : 48 ≤ b.toNat := h.1
    have hhi : b.toNat ≤ 57 := h.2
    refine ⟨b.toNat - 48, by omega, ?_⟩
    rw [Nat.add_sub_cancel' hlo, UInt8.ofNat_toNat]
  · rintro ⟨r, hr, rfl⟩
    rw [UInt8.toNat_ofNat', Nat.mod_eq_of_lt (by omega)]
    exact ⟨Nat.le_add_right 48 r, show 48 + r ≤ 57 by omega⟩

/-- Only the digits of zero begin with a zero. -/
theorem head_decimal (h : (decimal n).head? = some 48) : n = 0 := by
  induction n using Nat.strong_induction_on with
  | _ n ih =>
    by_cases hn : n < 10
    · rw [decimal_of_lt hn, List.head?_cons, Option.some.injEq] at h
      have hnat := congrArg UInt8.toNat h
      rw [UInt8.toNat_ofNat', Nat.mod_eq_of_lt (by omega)] at hnat
      have h48 : (48 : UInt8).toNat = 48 := rfl
      omega
    · rw [← Nat.div_add_mod n 10, decimal_append (by omega) (Nat.mod_lt n (by omega)),
        List.head?_append_of_ne_nil _ (decimal_ne_nil _)] at h
      have := ih (n / 10) (by omega) h
      omega

/-- What is printed is canonical. -/
theorem canonical_decimal (n : ℕ) : Canonical (decimal n) := by
  refine ⟨decimal_ne_nil n, fun b hb => isDigit_of_mem_decimal hb, fun h => ?_⟩
  rw [head_decimal h]
  rfl

/-- A canonical decimal is what is printed for its value. -/
theorem decimal_digitsValue (h : Canonical bs) : decimal (digitsValue bs) = bs := by
  induction bs using List.reverseRecOn with
  | nil => exact absurd rfl h.ne_nil
  | append_singleton bs b ih =>
    obtain ⟨r, hr, rfl⟩ := isDigit_iff.1 (h.digits b (List.mem_append_right _ List.mem_cons_self))
    have hlast : (UInt8.ofNat (48 + r)).toNat - 48 = r := by
      rw [UInt8.toNat_ofNat', Nat.mod_eq_of_lt (by omega), Nat.add_sub_cancel_left]
    rw [digitsValue_append, hlast]
    rcases List.eq_nil_or_concat bs with rfl | ⟨bs', x, rfl⟩
    · have hzero : digitsValue [] = 0 := rfl
      rw [hzero, Nat.mul_zero, Nat.zero_add, decimal_of_lt hr, List.nil_append]
    · rw [List.concat_eq_append] at h ih ⊢
      have hne : bs' ++ [x] ≠ [] := by simp
      -- a longer numeral does not begin with a zero, so the rest is canonical
      have hhead : (bs' ++ [x]).head? ≠ some 48 := by
        intro h48
        have hone := h.head (by rw [List.head?_append_of_ne_nil _ hne, h48])
        have hlen := congrArg List.length hone
        simp at hlen
      have hrest : Canonical (bs' ++ [x]) :=
        ⟨hne, fun b hb => h.digits b (List.mem_append_left _ hb), fun h48 => absurd h48 hhead⟩
      have hpos : 0 < digitsValue (bs' ++ [x]) := by
        refine Nat.pos_of_ne_zero fun h0 => hhead ?_
        rw [← ih hrest, h0]
        rfl
      rw [decimal_append hpos hr, ih hrest]

theorem decimal_injective : Function.Injective decimal := fun m n h => by
  rw [← digitsValue_decimal m, h, digitsValue_decimal]

end Canonical

end CText
