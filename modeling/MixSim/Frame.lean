import MixSim.Library.Bytes

/-!
# Memory faults, machine integers and the frame `simple_name_data`

`simple_name_data` is the struct of `adaptor.h` and `ndn-app-mixsim.hpp`: two unsigned 32-bit
lengths and `buf[2040]`, 2048 bytes in all. It travels as raw memory (`memcpy` of a datagram into
the struct, `sendto` of the whole struct), so it is modelled as its 2048 bytes, with `nlen` and
`dlen` read as little-endian words, the byte order of every host the programs are built for.

A memory access outside an object, through a freed pointer or through `NULL` has no meaning in C.
The models stop there with a `Fault`.
-/

namespace MixSim

open Bytes

/-- What stops a program: a `NULL` from an allocator that is used all the same, an access outside
an object, an access to freed memory, a pointer that points to no object, an exception that nobody
catches. -/
inductive Fault
  | outOfMemory
  | outOfBounds
  | useAfterFree
  | badPointer
  | uncaught
  deriving DecidableEq, Repr

section Bind

variable {α β : Type} {x : Except Fault α} {g : α → Except Fault β}

theorem ok_bind (a : α) (g : α → Except Fault β) : (Except.ok a >>= g) = g a := rfl

theorem error_bind (e : Fault) (g : α → Except Fault β) : (Except.error e >>= g) = .error e := rfl

/-- A sequence succeeds when both parts do. -/
theorem bind_eq_ok {b : β} (h : x >>= g = .ok b) : ∃ a, x = .ok a ∧ g a = .ok b := by
  cases x with
  | error e => cases h
  | ok a => exact ⟨a, rfl, h⟩

/-- A sequence stops in one of its parts. -/
theorem bind_eq_error {e : Fault} (h : x >>= g = .error e) :
    x = .error e ∨ ∃ a, x = .ok a ∧ g a = .error e := by
  cases x with
  | error e' => cases h; exact Or.inl rfl
  | ok a => exact Or.inr ⟨a, rfl, h⟩

end Bind

/-- The conversion of an unsigned 32-bit number to `int`. -/
def asInt (n : ℕ) : ℤ :=
  if n % 2 ^ 32 < 2 ^ 31 then ((n % 2 ^ 32 : ℕ) : ℤ) else ((n % 2 ^ 32 : ℕ) : ℤ) - 2 ^ 32

theorem asInt_of_lt {n : ℕ} (h : n < 2 ^ 31) : asInt n = n := by
  have hn : n % 2 ^ 32 = n := Nat.mod_eq_of_lt (by omega)
  rw [asInt, hn, if_pos h]

/-- An unsigned number whose conversion is not negative is its conversion. -/
theorem eq_of_asInt {x n : ℕ} (hx : x < 2 ^ 32) (h : asInt x = n) : x = n := by
  rw [asInt, Nat.mod_eq_of_lt hx] at h
  split_ifs at h <;> omega

/-- The size of `simple_name_data`. -/
def frameSize : ℕ := 2048

/-- The size of its array `buf`. -/
def bufSize : ℕ := 2040

/-- `struct simple_name_data`, as the bytes it occupies. -/
structure SimpleNameData where
  bytes : List UInt8
  size_eq : bytes.length = frameSize
  deriving DecidableEq

namespace SimpleNameData

/-- The field `nlen`. -/
def nlen (d : SimpleNameData) : ℕ := ofLE (d.bytes.take 4)

/-- The field `dlen`. -/
def dlen (d : SimpleNameData) : ℕ := ofLE ((d.bytes.drop 4).take 4)

/-- The array `buf`. -/
def buf (d : SimpleNameData) : List UInt8 := d.bytes.drop 8

/-- The name in the frame: the first `nlen` bytes of `buf`. -/
def name (d : SimpleNameData) : List UInt8 := d.buf.take d.nlen

/-- The content in the frame: the `dlen` bytes of `buf` after the name. -/
def content (d : SimpleNameData) : List UInt8 := (d.buf.drop d.nlen).take d.dlen

/-- Name and content lie inside `buf`. -/
def Fits (d : SimpleNameData) : Prop := d.nlen + d.dlen ≤ bufSize

instance (d : SimpleNameData) : Decidable d.Fits := inferInstanceAs (Decidable (_ ≤ _))

/-- A frame of zeros. -/
def zero : SimpleNameData := ⟨List.replicate 2048 0, List.length_replicate⟩

/-- `memcpy` into the struct at byte `off`. -/
def store (d : SimpleNameData) (off : ℕ) (src : List UInt8) : Except Fault SimpleNameData :=
  if h : off + src.length ≤ frameSize then
    .ok ⟨splice d.bytes off src, (length_splice (by rw [d.size_eq]; exact h)).trans d.size_eq⟩
  else .error .outOfBounds

/-- `memcpy(data, src, length)`: overwrite the head of the struct. -/
def memcpy (d : SimpleNameData) (src : List UInt8) : Except Fault SimpleNameData := d.store 0 src

/-- `memcpy(data->buf + off, src, length)`. -/
def writeBuf (d : SimpleNameData) (off : ℕ) (src : List UInt8) : Except Fault SimpleNameData :=
  d.store (8 + off) src

/-- The bytes of the range `buf[off .. off + n)`. A range that starts behind `buf` is a fault also where it
is empty: the pointer to it must not be formed. -/
def readBuf (d : SimpleNameData) (off n : ℕ) : Except Fault (List UInt8) :=
  if off + n ≤ bufSize then .ok ((d.buf.drop off).take n) else .error .outOfBounds

/-- `data->nlen = n`. -/
def setNlen (d : SimpleNameData) (n : ℕ) : SimpleNameData :=
  ⟨splice d.bytes 0 (toLE 4 n),
    (length_splice (by rw [d.size_eq, length_toLE]; decide)).trans d.size_eq⟩

/-- `data->dlen = n`. -/
def setDlen (d : SimpleNameData) (n : ℕ) : SimpleNameData :=
  ⟨splice d.bytes 4 (toLE 4 n),
    (length_splice (by rw [d.size_eq, length_toLE]; decide)).trans d.size_eq⟩

section Lemmas

variable {d f : SimpleNameData} {off n : ℕ} {src : List UInt8}

@[simp] theorem length_buf (d : SimpleNameData) : d.buf.length = bufSize := by
  rw [buf, List.length_drop, d.size_eq]; rfl

theorem nlen_lt (d : SimpleNameData) : d.nlen < 2 ^ 32 := by
  have h := ofLE_lt (d.bytes.take 4)
  rw [List.length_take, d.size_eq] at h
  simpa [nlen, frameSize] using h

theorem length_name (h : d.nlen ≤ bufSize) : d.name.length = d.nlen := by
  rw [name, List.length_take, length_buf]; omega

theorem Fits.nlen_le (h : d.Fits) : d.nlen ≤ bufSize := (Nat.le_add_right _ _).trans h

theorem Fits.length_name (h : d.Fits) : d.name.length = d.nlen := d.length_name h.nlen_le

theorem length_content (h : d.Fits) : d.content.length = d.dlen := by
  unfold Fits at h
  rw [content, List.length_take, List.length_drop, length_buf]; omega

/-- The two lengths and `buf` make up the struct. -/
theorem bytes_eq {d f : SimpleNameData} (hn : d.nlen = f.nlen) (hd : d.dlen = f.dlen)
    (hbuf : d.buf = f.buf) : d.bytes = f.bytes := by
  have hlen : ∀ (x : SimpleNameData) (a : ℕ), a + 4 ≤ 8 → ((x.bytes.drop a).take 4).length = 4 := by
    intro x a ha
    rw [List.length_take, List.length_drop, x.size_eq, frameSize]
    omega
  have h0 : d.bytes.take 4 = f.bytes.take 4 := ofLE_inj ((hlen d 0 (by omega)).trans
    (hlen f 0 (by omega)).symm) hn
  have h4 : (d.bytes.drop 4).take 4 = (f.bytes.drop 4).take 4 :=
    ofLE_inj ((hlen d 4 le_rfl).trans (hlen f 4 le_rfl).symm) hd
  have h8 : (d.bytes.drop 4).drop 4 = (f.bytes.drop 4).drop 4 := by
    rw [List.drop_drop, List.drop_drop]
    exact hbuf
  rw [← List.take_append_drop 4 d.bytes, ← List.take_append_drop 4 f.bytes, h0,
    ← List.take_append_drop 4 (d.bytes.drop 4), ← List.take_append_drop 4 (f.bytes.drop 4), h4, h8]

/-- A store either ends outside the struct or splices its source into the bytes. -/
theorem store_eq_ok (h : d.store off src = .ok f) :
    off + src.length ≤ frameSize ∧ f.bytes = splice d.bytes off src := by
  unfold store at h
  split at h
  · cases h; exact ⟨‹_›, rfl⟩
  · cases h

theorem store_eq_error {e : Fault} (h : d.store off src = .error e) :
    frameSize < off + src.length ∧ e = .outOfBounds := by
  unfold store at h
  split at h
  · cases h
  · cases h; exact ⟨by omega, rfl⟩

theorem store_of_le (h : off + src.length ≤ frameSize) : ∃ f, d.store off src = .ok f :=
  ⟨_, dif_pos h⟩

/-- A datagram of at most 2048 bytes is copied into the struct. -/
theorem memcpy_of_le (h : src.length ≤ frameSize) : ∃ f, d.memcpy src = .ok f :=
  store_of_le (by omega)

/-- A range inside a copied datagram holds its bytes. -/
theorem read_of_memcpy {a : ℕ} (h : d.memcpy src = .ok f) (ha : a + n ≤ src.length) :
    (f.bytes.drop a).take n = (src.drop a).take n := by
  obtain ⟨-, hf⟩ := store_eq_ok h
  rw [hf, splice, List.take_zero, List.nil_append, List.drop_append_of_le_length (by omega),
    List.take_append_of_le_length (by rw [List.length_drop]; omega)]

/-- A store behind the header leaves both lengths. -/
theorem lens_of_writeBuf (h : d.writeBuf off src = .ok f) : f.nlen = d.nlen ∧ f.dlen = d.dlen := by
  obtain ⟨hle, hf⟩ := store_eq_ok h
  have h8 : 8 + off ≤ d.bytes.length := by rw [d.size_eq]; omega
  constructor
  · have := splice_read_before (a := 0) (n := 4) d.bytes src h8 (by omega)
    rw [List.drop_zero, List.drop_zero] at this
    rw [nlen, nlen, hf, this]
  · rw [dlen, dlen, hf, splice_read_before d.bytes src h8 (by omega)]

/-- The range a store has written reads back the source. -/
theorem readBack_of_writeBuf (h : d.writeBuf off src = .ok f) :
    (f.buf.drop off).take src.length = src := by
  obtain ⟨hle, hf⟩ := store_eq_ok h
  rw [buf, List.drop_drop, hf]
  exact splice_read d.bytes src (by rw [d.size_eq]; omega)

/-- A range of `buf` before the stored one is left. -/
theorem readBefore_of_writeBuf {a : ℕ} (h : d.writeBuf off src = .ok f) (ha : a + n ≤ off) :
    (f.buf.drop a).take n = (d.buf.drop a).take n := by
  obtain ⟨hle, hf⟩ := store_eq_ok h
  rw [buf, buf, List.drop_drop, List.drop_drop, hf]
  exact splice_read_before d.bytes src (by rw [d.size_eq]; omega) (by omega)

/-- What is behind the stored range is left. -/
theorem rest_of_writeBuf (h : d.writeBuf off src = .ok f) :
    f.buf.drop (off + src.length) = d.buf.drop (off + src.length) := by
  obtain ⟨hle, hf⟩ := store_eq_ok h
  have hread := splice_read_after (n := frameSize) d.bytes src (by rw [d.size_eq]; exact hle)
    (le_refl (8 + off + src.length))
  rw [← hf, List.take_of_length_le, List.take_of_length_le] at hread
  · rw [buf, buf, List.drop_drop, List.drop_drop, ← Nat.add_assoc, hread]
  · rw [List.length_drop, d.size_eq]
    exact Nat.sub_le _ _
  · rw [List.length_drop, f.size_eq]
    exact Nat.sub_le _ _

@[simp] theorem nlen_setNlen (d : SimpleNameData) (n : ℕ) : (d.setNlen n).nlen = n % 2 ^ 32 := by
  have h := splice_read d.bytes (toLE 4 n) (Nat.zero_le _)
  rw [length_toLE, List.drop_zero] at h
  rw [nlen, setNlen, h, ofLE_toLE]; norm_num

@[simp] theorem dlen_setDlen (d : SimpleNameData) (n : ℕ) : (d.setDlen n).dlen = n % 2 ^ 32 := by
  have h := splice_read d.bytes (toLE 4 n) (show 4 ≤ d.bytes.length by rw [d.size_eq]; decide)
  rw [length_toLE] at h
  rw [dlen, setDlen, h, ofLE_toLE]; norm_num

@[simp] theorem nlen_setDlen (d : SimpleNameData) (n : ℕ) : (d.setDlen n).nlen = d.nlen := by
  have h := splice_read_before (a := 0) (n := 4) d.bytes (toLE 4 n)
    (show 4 ≤ d.bytes.length by rw [d.size_eq]; decide) (by omega)
  rw [List.drop_zero, List.drop_zero] at h
  rw [nlen, setDlen, h, nlen]

private theorem drop_splice_header {bs : List UInt8} {src : List UInt8} {off : ℕ}
    (h : off + src.length ≤ 8) (hb : bs.length = frameSize) :
    (splice bs off src).drop 8 = bs.drop 8 := by
  have hb' : off + src.length ≤ bs.length := by rw [hb]; unfold frameSize; omega
  have h1 := splice_read_after (a := 8) (n := bufSize) bs src hb' h
  rwa [List.take_of_length_le, List.take_of_length_le] at h1
  · rw [List.length_drop, hb]; decide
  · rw [List.length_drop, length_splice hb', hb]; decide

@[simp] theorem buf_setNlen (d : SimpleNameData) (n : ℕ) : (d.setNlen n).buf = d.buf :=
  drop_splice_header (by rw [length_toLE]; omega) d.size_eq

@[simp] theorem buf_setDlen (d : SimpleNameData) (n : ℕ) : (d.setDlen n).buf = d.buf :=
  drop_splice_header (by rw [length_toLE]) d.size_eq

theorem readBuf_eq_error {e : Fault} (h : d.readBuf off n = .error e) :
    bufSize < off + n ∧ e = .outOfBounds := by
  unfold readBuf at h
  split at h
  · cases h
  · cases h; exact ⟨by omega, rfl⟩

end Lemmas

end SimpleNameData

/-! ### Datagrams -/

/-- The first word of a datagram. -/
def dgramNlen (bs : List UInt8) : ℕ := ofLE (bs.take 4)

/-- The second word of a datagram. -/
def dgramDlen (bs : List UInt8) : ℕ := ofLE ((bs.drop 4).take 4)

/-- The name in a datagram. -/
def dgramName (bs : List UInt8) : List UInt8 := (bs.drop 8).take (dgramNlen bs)

/-- The content in a datagram. -/
def dgramContent (bs : List UInt8) : List UInt8 := (bs.drop (8 + dgramNlen bs)).take (dgramDlen bs)

/-- The datagram holds its header, its name and its content. -/
def WellFormed (bs : List UInt8) : Prop := 8 + dgramNlen bs + dgramDlen bs ≤ bs.length

instance (bs : List UInt8) : Decidable (WellFormed bs) := inferInstanceAs (Decidable (_ ≤ _))

section Datagrams

open SimpleNameData

variable {d f : SimpleNameData} {bs : List UInt8}

/-- The lengths of a frame are the first two words of the datagram. -/
theorem lens_of_memcpy (h : d.memcpy bs = .ok f) (h8 : 8 ≤ bs.length) :
    f.nlen = dgramNlen bs ∧ f.dlen = dgramDlen bs := by
  constructor
  · have h0 := read_of_memcpy (a := 0) (n := 4) h (by omega)
    rw [List.drop_zero, List.drop_zero] at h0
    rw [nlen, dgramNlen, h0]
  · rw [dlen, dgramDlen, read_of_memcpy h (by omega)]

/-- The name of a frame is the name in the datagram, if that holds it. -/
theorem name_of_memcpy (h : d.memcpy bs = .ok f) (hn : 8 + dgramNlen bs ≤ bs.length) :
    f.name = dgramName bs := by
  rw [name, (lens_of_memcpy h (by omega)).1, buf, dgramName, read_of_memcpy h hn]

theorem WellFormed.header (hw : WellFormed bs) : 8 ≤ bs.length := by
  unfold WellFormed at hw
  omega

theorem WellFormed.name_le (hw : WellFormed bs) : 8 + dgramNlen bs ≤ bs.length := by
  unfold WellFormed at hw
  omega

end Datagrams

end MixSim
