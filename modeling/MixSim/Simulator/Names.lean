import MixSim.Adaptor.NameUdpMap
import MixSim.Simulator.RoundTrip

/-!
# Names on the wire

Two questions about the text of a name and a sequence number. `SendUDPInterest` narrows the number to
32 bits, so two Interests get the same name in their frames, and with it the same entry in the table
of the adaptor, when they have the same prefix and their numbers agree modulo `2 ^ 32`
(`apart_on_wire_iff`). A name that comes from the real network is split and its last component read
as a number; the reply has the name again exactly when the component was a canonical decimal
(`reply_name_iff`).
-/

namespace MixSim

open CText

section Text

variable {N : Type} {X : NdnCxx N} {P P' : N} {p p' q q' : List UInt8} {m n : ℕ}

/-- A text is split at its last slash in one way. -/
theorem split_unique (h : p ++ slash :: q = p' ++ slash :: q') (hq : slash ∉ q) (hq' : slash ∉ q') :
    p = p' ∧ q = q' := by
  have hscan : scanFrom (p ++ slash :: q) (p ++ slash :: q).length = .ok p.length :=
    scanFrom_eq List.take_length hq le_rfl
  have hscan' : scanFrom (p ++ slash :: q) (p ++ slash :: q).length = .ok p'.length :=
    scanFrom_eq (List.take_length.trans h) hq' le_rfl
  rw [hscan, Except.ok.injEq] at hscan'
  obtain ⟨hp, hcons⟩ := List.append_inj h hscan'
  exact ⟨hp, (List.cons.inj hcons).2⟩

/-- The text of a name with a number shows both. -/
theorem nameText_inj (h : X.nameText P m = X.nameText P' n) :
    cstr (X.toUri P) = cstr (X.toUri P') ∧ m = n := by
  obtain ⟨hp, hd⟩ := split_unique h (slash_notMem_decimal m) (slash_notMem_decimal n)
  exact ⟨hp, decimal_injective hd⟩

end Text

/-! ### Distinct names -/

/-- The names of two frames differ, and entering the first into a table leaves what is listed for the
second. -/
structure ApartOnWire (f g : SimpleNameData) : Prop where
  name : f.name ≠ g.name
  entry : ∀ (t t' : Nut) (addr : SockaddrIn) (malloc : Option (ℕ → NutEntry)) (ret : ℤ), t.WF →
    nutSet t f.buf f.nlen addr malloc = .ok (t', ret) →
      t'.abs (nutKey g.name) = t.abs (nutKey g.name)

/-- Frames with different names of at most 1024 bytes have different entries. -/
theorem apartOnWire_of_ne {f g : SimpleNameData} (hf : f.nlen ≤ maxNamelen)
    (hg : g.nlen ≤ maxNamelen) (hne : f.name ≠ g.name) : ApartOnWire f g := by
  refine ⟨hne, fun t t' addr malloc ret h hset => ?_⟩
  have hn : f.nlen ≤ f.buf.length := by
    rw [f.length_buf]
    exact hf.trans (by decide)
  have hout := nutSet_outcome addr malloc h hn
  rw [hset] at hout
  have href := hout.refines h
  have hkey : ∀ d : SimpleNameData, d.nlen ≤ maxNamelen → nutKey d.name = d.name := fun d hd =>
    nutKey_of_le (by rw [d.length_name (hd.trans (by decide))]; exact hd)
  have hother := AddrMap.set_of_ne (m := t.abs) (a := addr)
    (show nutKey g.name ≠ nutKey f.name by rw [hkey f hf, hkey g hg]; exact hne.symm)
  rw [SimpleNameData.name] at hother
  rwa [href] at hother

section Interests

variable {N : Type} {X : NdnCxx N} {name : N} {seq : ℕ}

/-- The frame of an Interest whose text fits. -/
theorem sendUDPInterest_name (d : SimpleNameData) (hseq : X.toSequenceNumber name = some seq)
    (htext : (X.nameText (X.getPrefix name) (seq % 2 ^ 32)).length ≤ 1023) :
    ∃ f, X.sendUDPInterest d name = .ok f ∧ f.nlen ≤ maxNamelen ∧
      f.name = X.nameText (X.getPrefix name) (seq % 2 ^ 32) := by
  obtain ⟨f, hf, hnlen, hname⟩ := name_of_snprintf (d := d)
    (show (X.nameText (X.getPrefix name) (seq % 2 ^ 32)).length < 1024 by omega) (by decide)
  refine ⟨f.setDlen 0, ?_, ?_, ?_⟩
  · rw [NdnCxx.sendUDPInterest, writeName_eq hseq, hf, ok_bind]
  · rw [SimpleNameData.nlen_setDlen, hnlen]
    exact htext.trans (by decide)
  · rw [name_setDlen, hname]

end Interests

/-- The frames of two Interests are apart exactly when the Interests differ in the prefix, or in the
sequence number modulo `2 ^ 32`. -/
theorem apart_on_wire_iff {N : Type} (X : NdnCxx N) (d d' : SimpleNameData) (name name' : N)
    (seq seq' : ℕ) (hseq : X.toSequenceNumber name = some seq)
    (hseq' : X.toSequenceNumber name' = some seq')
    (hinj : cstr (X.toUri (X.getPrefix name)) = cstr (X.toUri (X.getPrefix name')) →
      X.getPrefix name = X.getPrefix name')
    (htext : (X.nameText (X.getPrefix name) (seq % 2 ^ 32)).length ≤ 1023)
    (htext' : (X.nameText (X.getPrefix name') (seq' % 2 ^ 32)).length ≤ 1023) :
    ∃ f g, X.sendUDPInterest d name = .ok f ∧ X.sendUDPInterest d' name' = .ok g ∧
      (ApartOnWire f g ↔
        ¬ (X.getPrefix name = X.getPrefix name' ∧ seq % 2 ^ 32 = seq' % 2 ^ 32)) := by
  obtain ⟨f, hf, hfn, hfname⟩ := sendUDPInterest_name d hseq htext
  obtain ⟨g, hg, hgn, hgname⟩ := sendUDPInterest_name d' hseq' htext'
  refine ⟨f, g, hf, hg, ?_, ?_⟩
  · rintro h ⟨hpre, hnum⟩
    exact h.name (by rw [hfname, hgname, hpre, hnum])
  · intro h
    refine apartOnWire_of_ne hfn hgn fun heq => h ?_
    rw [hfname, hgname] at heq
    obtain ⟨huri, hnum⟩ := nameText_inj heq
    exact ⟨hinj huri, hnum⟩

/-- Two numbers behind one prefix. -/
theorem apart_on_wire_iff_numbers : ∃ f g,
    plainNames.sendUDPInterest .zero (nameA, some 1) = .ok f ∧
    plainNames.sendUDPInterest .zero (nameA, some 2) = .ok g ∧
    (ApartOnWire f g ↔ ¬ (plainNames.getPrefix (nameA, some 1) = plainNames.getPrefix (nameA, some 2) ∧
      1 % 2 ^ 32 = 2 % 2 ^ 32)) :=
  apart_on_wire_iff plainNames .zero .zero (nameA, some 1) (nameA, some 2) 1 2 rfl rfl (fun _ => rfl)
    (by decide) (by decide)

/-- Numbers that agree modulo `2 ^ 32` give frames with the same name. -/
theorem same_on_wire : plainNames.toSequenceNumber (nameA, some 1) = some 1 ∧
    plainNames.toSequenceNumber (nameA, some (2 ^ 32 + 1)) = some (2 ^ 32 + 1) ∧
    ((nameA, some 1) : List UInt8 × Option ℕ) ≠ (nameA, some (2 ^ 32 + 1)) ∧
    ∃ f g, plainNames.sendUDPInterest .zero (nameA, some 1) = .ok f ∧
      plainNames.sendUDPInterest .zero (nameA, some (2 ^ 32 + 1)) = .ok g ∧ ¬ ApartOnWire f g := by
  refine ⟨rfl, rfl, fun h => absurd (Prod.mk.inj h).2 (by norm_num), ?_⟩
  obtain ⟨f, hf, -, hfname⟩ := sendUDPInterest_name .zero
    (show plainNames.toSequenceNumber (nameA, some 1) = some 1 from rfl) (by decide)
  have hmod : (2 ^ 32 + 1) % 2 ^ 32 = 1 % 2 ^ 32 := by norm_num
  obtain ⟨g, hg, -, hgname⟩ := sendUDPInterest_name .zero
    (show plainNames.toSequenceNumber (nameA, some (2 ^ 32 + 1)) = some (2 ^ 32 + 1) from rfl)
    (by rw [hmod]; decide)
  refine ⟨f, g, hf, hg, fun h => h.name ?_⟩
  rw [hfname, hgname, hmod]
  rfl

/-! ### Names that come back -/

section Reply

variable {N : Type} {X : NdnCxx N} {P : N} {p c : List UInt8} {k : ℕ} {d f g : SimpleNameData}

/-- The number read from a last component. -/
def componentSeq (c : List UInt8) : ℕ := toUInt32 (atoi (cstr c))

theorem componentSeq_lt (c : List UInt8) : componentSeq c < 2 ^ 32 := by
  rw [componentSeq, toUInt32]
  omega

/-- A last component of at most nine bytes is what is printed for its number exactly when it is a
canonical decimal. -/
theorem decimal_componentSeq_iff (hc : c.length ≤ 9) : decimal (componentSeq c) = c ↔ Canonical c := by
  constructor
  · intro h
    rw [← h]
    exact canonical_decimal _
  · intro h
    have hzero : 0 ∉ c := fun hmem => absurd (h.digits 0 hmem) (by decide)
    -- nine digits fit an `int`, so `atoi` reads all of them
    have hlt : digitsValue c < 10 ^ 9 := by
      rw [← length_decimal_le (by omega), decimal_digitsValue h]
      exact hc
    have hatoi := atoi_decimal (n := digitsValue c) (by omega)
    rw [decimal_digitsValue h] at hatoi
    rw [componentSeq, cstr_eq_self hzero, hatoi, toUInt32_natCast (by omega), decimal_digitsValue h]

/-- The packet made from a frame whose name has a short last component. -/
theorem sendNDNInterest_eq (hn : f.nlen ≤ bufSize) (hname : f.name = p ++ slash :: c)
    (hslash : slash ∉ c) (hc : c.length ≤ 9) (hzero : 0 ∉ p) (hparse : X.ofUri p = some P) :
    X.sendNDNInterest f = .ok (.interest (X.appendSequenceNumber P (componentSeq c))) := by
  have hsplit : splitName f = .ok (p, c) := by
    rw [splitName_eq hn hname hslash, if_pos (show c.length < seqbufSize from Nat.lt_succ_of_le hc)]
  have hparse' : X.parseName f = .ok (P, componentSeq c) := by
    rw [NdnCxx.parseName, hsplit, ok_bind]
    dsimp only
    rw [cstr_eq_self hzero, hparse]
    rfl
  rw [NdnCxx.sendNDNInterest, hparse', ok_bind]

/-- A name that is written for a prefix `p` is `p`, a slash and `c` exactly when `c` is the printed
number: a text that does not fit is longer than the one that came in. -/
theorem name_eq_iff (hlen : (p ++ slash :: c).length ≤ 1023)
    (hw : snprintf d 1024 (p ++ slash :: decimal k) = .ok g) (hk : k < 2 ^ 32) :
    g.name = p ++ slash :: c ↔ decimal k = c := by
  have hdec : (decimal k).length ≤ 10 := (length_decimal_le (by omega)).2 (by omega)
  rw [List.length_append, List.length_cons] at hlen
  by_cases htext : (p ++ slash :: decimal k).length < 1024
  · obtain ⟨g', hg', -, hname⟩ := name_of_snprintf (d := d) htext (by decide)
    rw [hw, Except.ok.injEq] at hg'
    rw [hg', hname]
    constructor
    · intro h
      exact (List.cons.inj (List.append_cancel_left h)).2
    · intro h
      rw [h]
  · -- the text is cut, but `nlen` is its full length, which is more than that of `p/c`
    obtain ⟨g', hg', hnlen, -⟩ := snprintf_spec d (p ++ slash :: decimal k)
      (show 0 < 1024 by omega) (by decide)
    rw [hw, Except.ok.injEq] at hg'
    rw [List.length_append, List.length_cons] at htext hnlen
    rw [snprintfResult_of_lt (by omega)] at hnlen
    have hg : g.name.length = p.length + ((decimal k).length + 1) := by
      rw [hg', g'.length_name (by rw [hnlen]; unfold bufSize; omega), hnlen]
    constructor
    · intro h
      rw [h, List.length_append, List.length_cons] at hg
      omega
    · intro h
      rw [h] at htext
      omega

/-- The text that is written for the answer to a packet made from such a frame. -/
theorem writeName_reply (hzero : 0 ∉ p) (huri : X.toUri P = p) (hk : k < 2 ^ 32)
    (hnum : X.toSequenceNumber (X.appendSequenceNumber P k) = some k)
    (hpre : X.getPrefix (X.appendSequenceNumber P k) = P) :
    X.writeName d (X.appendSequenceNumber P k) = snprintf d 1024 (p ++ slash :: decimal k) := by
  rw [writeName_eq hnum, hpre, Nat.mod_eq_of_lt hk, NdnCxx.nameText, huri, cstr_eq_self hzero]

/-- The content of a Data does not change the name in front of it. -/
theorem sendUDPData_name {name : N} {content : List UInt8} (h : X.writeName d name = .ok f)
    (hdata : X.sendUDPData d name content = .ok g) : g.name = f.name := by
  by_cases hfit : f.nlen + content.length % 2 ^ 32 ≤ bufSize
  · obtain ⟨g', hg', -, -, hname, -⟩ := sendUDPData_of_writeName h content hfit
    rw [hdata, Except.ok.injEq] at hg'
    rw [hg', hname]
  · rw [sendUDPData_overrun h (not_le.1 hfit)] at hdata
    cases hdata

end Reply

/-- A name `p/c` from the real network with a canonical `p` and a component `c` of at most nine bytes
comes back in the Data and the Nack that answer its Interest exactly when `c` is a canonical
decimal. There is a frame for the Nack, and for each Data with room for the name and the content. -/
theorem reply_name_iff {N : Type} (X : NdnCxx N) (d f : SimpleNameData) (p c : List UInt8) (P : N)
    (hlen : (p ++ slash :: c).length ≤ 1023) (hnlen : f.nlen = (p ++ slash :: c).length)
    (hname : f.name = p ++ slash :: c) (hslash : slash ∉ c) (hc : c.length ≤ 9)
    (hparse : X.ofUri p = some P) (huri : X.toUri P = p) (hzero : 0 ∉ p)
    (hnum : ∀ k < 2 ^ 32, X.toSequenceNumber (X.appendSequenceNumber P k) = some k)
    (hpre : ∀ k < 2 ^ 32, X.getPrefix (X.appendSequenceNumber P k) = P) :
    ∃ name, X.sendNDNInterest f = .ok (.interest name) ∧
      (∃ g, X.sendUDPNack d name = .ok g ∧ (g.name = p ++ slash :: c ↔ Canonical c)) ∧
      (∀ content : List UInt8,
        (p ++ slash :: decimal (componentSeq c)).length + content.length ≤ bufSize →
          ∃ g, X.sendUDPData d name content = .ok g) ∧
      ∀ content g, X.sendUDPData d name content = .ok g →
        (g.name = p ++ slash :: c ↔ Canonical c) := by
  have hk := componentSeq_lt c
  have hn : f.nlen ≤ bufSize := by
    rw [hnlen]
    exact hlen.trans (by decide)
  have hwrite := writeName_reply (d := d) hzero huri hk (hnum _ hk) (hpre _ hk)
  obtain ⟨g, hg, hglen, -⟩ := snprintf_spec d (p ++ slash :: decimal (componentSeq c))
    (show 0 < 1024 by omega) (by decide)
  have hiff : g.name = p ++ slash :: c ↔ Canonical c :=
    (name_eq_iff hlen hg hk).trans (decimal_componentSeq_iff hc)
  rw [hg] at hwrite
  refine ⟨_, sendNDNInterest_eq hn hname hslash hc hzero hparse, ⟨g.setDlen 0, ?_, ?_⟩,
    fun content hfit => ?_, ?_⟩
  · rw [NdnCxx.sendUDPNack, hwrite, ok_bind]
  · rw [name_setDlen]
    exact hiff
  · rw [snprintfResult_of_lt (by unfold bufSize at hfit; omega)] at hglen
    obtain ⟨g', hg', -⟩ := sendUDPData_of_writeName hwrite content (by
      rw [hglen]
      exact (Nat.add_le_add_left (Nat.mod_le _ _) _).trans hfit)
    exact ⟨g', hg'⟩
  · intro content g' hdata
    rw [sendUDPData_name hwrite hdata]
    exact hiff

/-- The Interest `/a/7`. -/
theorem reply_name_iff_a7 : ∃ f, SimpleNameData.zero.memcpy [4, 0, 0, 0, 0, 0, 0, 0, 47, 97, 47, 55] =
      .ok f ∧ ∃ name, plainNames.sendNDNInterest f = .ok (.interest name) ∧
      (∃ g, plainNames.sendUDPNack .zero name = .ok g ∧
        (g.name = nameA ++ slash :: [55] ↔ Canonical [55])) ∧
      (∀ content : List UInt8,
        (nameA ++ slash :: decimal (componentSeq [55])).length + content.length ≤ bufSize →
          ∃ g, plainNames.sendUDPData .zero name content = .ok g) ∧
      ∀ content g, plainNames.sendUDPData .zero name content = .ok g →
        (g.name = nameA ++ slash :: [55] ↔ Canonical [55]) := by
  obtain ⟨f, hf⟩ : ∃ f, SimpleNameData.zero.memcpy [4, 0, 0, 0, 0, 0, 0, 0, 47, 97, 47, 55] =
      .ok f := SimpleNameData.memcpy_of_le (by decide)
  refine ⟨f, hf, reply_name_iff plainNames .zero f nameA [55] (nameA, none) (by decide) ?_ ?_
    (by decide) (by decide) rfl rfl (by decide) (fun _ _ => rfl) (fun _ _ => rfl)⟩
  · rw [(lens_of_memcpy hf (by decide)).1]
    decide
  · rw [name_of_memcpy hf (by decide)]
    decide

end MixSim
