import MixSim.Simulator.AppMixSim

/-!
# From a packet to a frame and back

`SendUDPInterest`, `SendUDPData` and `SendUDPNack` build the frames that `SendNDNInterest`,
`SendNDNData` and `SendNDNNack` take apart. `seqbuf` has ten bytes, and a 32-bit number can have ten
digits, which leave no room for the terminating zero: an Interest or a Nack comes back exactly when its
sequence number has at most nine. `SendUDPData` copies the bytes of the whole element that `getContent()`
returns, and `SendNDNData` gives all of these to `setContent`: a Data comes back with a longer content.
-/

namespace MixSim

open CText

variable {N : Type} {X : NdnCxx N} {P : N} {seq : ℕ} {d f : SimpleNameData}
  {content : List UInt8}

namespace NdnCxx

variable (X : NdnCxx N)

/-- The frame that is sent for a packet. -/
def sendUDP (d : SimpleNameData) : Packet N → Except Fault SimpleNameData
  | .interest name => X.sendUDPInterest d name
  | .data name content => X.sendUDPData d name (X.getContent content)
  | .nack name => X.sendUDPNack d name

/-- What is made of the frame that was sent for a packet. -/
def sendNDN (f : SimpleNameData) : Packet N → Except Fault (Packet N)
  | .interest _ => X.sendNDNInterest f
  | .data _ _ => X.sendNDNData f
  | .nack _ => X.sendNDNNack f

/-- The frame of a packet is parsed as the name `P` and the number `seq`, and `p'` is made of it. -/
def ComesBackAs (d : SimpleNameData) (P : N) (seq : ℕ) (p p' : Packet N) : Prop :=
  ∃ f, X.sendUDP d p = .ok f ∧ X.parseName f = .ok (P, seq) ∧ X.sendNDN f p = .ok p'

/-- The packet that is made of the frame of a packet is the one that was sent. -/
def RoundTrip (d : SimpleNameData) (P : N) (seq : ℕ) (p : Packet N) : Prop :=
  X.ComesBackAs d P seq p p

/-- `getContent()` is the whole element: its type and its length, in at most ten bytes, stand before
the value that `setContent` was given. -/
def WholeElement : Prop := ∀ value, ∃ header, X.getContent value = header ++ value ∧
  2 ≤ header.length ∧ header.length ≤ 10

end NdnCxx

/-- A number has no slash in it. -/
theorem slash_notMem_decimal (n : ℕ) : slash ∉ decimal n :=
  fun h => absurd (isDigit_of_mem_decimal h) (by decide)

theorem zero_notMem_decimal (n : ℕ) : 0 ∉ decimal n :=
  fun h => absurd (isDigit_of_mem_decimal h) (by decide)

theorem zero_notMem_cstr (bs : List UInt8) : 0 ∉ cstr bs := by
  intro h
  have hne := List.mem_takeWhile_imp h
  simp at hne

/-- A number of at most nine digits is read back; a longer one runs over the end of `seqbuf`. -/
theorem parseName_eq (hn : f.nlen ≤ bufSize) (hname : f.name = X.nameText P seq)
    (hparse : X.ofUri (cstr (X.toUri P)) = some P) :
    X.parseName f = if seq < 10 ^ 9 then .ok (P, seq) else .error .outOfBounds := by
  rw [NdnCxx.parseName, splitName_eq hn hname (slash_notMem_decimal seq)]
  have hdigits : (decimal seq).length < seqbufSize ↔ seq < 10 ^ 9 := by
    rw [← length_decimal_le (by omega)]
    exact Nat.lt_succ_iff
  by_cases hlt : seq < 10 ^ 9
  · have hseq : toUInt32 (atoi (cstr (decimal seq))) = seq := by
      rw [cstr_eq_self (zero_notMem_decimal seq), atoi_decimal (by omega),
        toUInt32_natCast (by omega)]
    rw [if_pos (hdigits.2 hlt), if_pos hlt, ok_bind]
    dsimp only
    rw [hseq, cstr_eq_self (zero_notMem_cstr _), hparse]
  · rw [if_neg (fun h => hlt (hdigits.1 h)), if_neg hlt, error_bind]

/-- The name that the three functions write for `P` and `seq`. -/
theorem writeName_of_append (hseq : seq < 2 ^ 32)
    (hnum : X.toSequenceNumber (X.appendSequenceNumber P seq) = some seq)
    (hpre : X.getPrefix (X.appendSequenceNumber P seq) = P)
    (htext : (X.nameText P seq).length ≤ 1023) :
    ∃ f, X.writeName d (X.appendSequenceNumber P seq) = .ok f ∧
      f.nlen = (X.nameText P seq).length ∧ f.name = X.nameText P seq := by
  rw [writeName_eq hnum, hpre, Nat.mod_eq_of_lt hseq]
  exact name_of_snprintf (by omega) (by decide)

/-- The content of a frame that fits is handed to the packet. -/
theorem readBuf_content (hfit : f.Fits) : f.readBuf f.nlen f.dlen = .ok f.content := by
  unfold SimpleNameData.Fits at hfit
  rw [SimpleNameData.readBuf, if_pos hfit, SimpleNameData.content]

section Frames

variable (hseq : seq < 2 ^ 32) (hparse : X.ofUri (cstr (X.toUri P)) = some P)
  (hnum : X.toSequenceNumber (X.appendSequenceNumber P seq) = some seq)
  (hpre : X.getPrefix (X.appendSequenceNumber P seq) = P)
  (htext : (X.nameText P seq).length ≤ 1023)

include hseq hparse hnum hpre htext

/-- A frame without content, and what is read from it. -/
theorem frame_of_append : ∃ f, X.writeName d (X.appendSequenceNumber P seq) = .ok f ∧
    X.parseName (f.setDlen 0) = if seq < 10 ^ 9 then .ok (P, seq) else .error .outOfBounds := by
  obtain ⟨f, hf, hnlen, hname⟩ := writeName_of_append hseq hnum hpre htext
  refine ⟨f, hf, parseName_eq ?_ ?_ hparse⟩
  · rw [SimpleNameData.nlen_setDlen, hnlen]
    unfold bufSize
    omega
  · rw [name_setDlen, hname]

/-- A frame with content, and what is read from it. -/
theorem dataFrame_of_append
    (hcontent : (X.nameText P seq).length + content.length ≤ bufSize) :
    ∃ f, X.sendUDPData d (X.appendSequenceNumber P seq) content = .ok f ∧ f.Fits ∧
      f.content = content ∧
      X.parseName f = if seq < 10 ^ 9 then .ok (P, seq) else .error .outOfBounds := by
  obtain ⟨f, hf, hnlen, hname⟩ := writeName_of_append hseq hnum hpre htext
  have hmod : content.length % 2 ^ 32 = content.length := by
    unfold bufSize at hcontent
    exact Nat.mod_eq_of_lt (by omega)
  obtain ⟨g, hg, hgn, hgd, hgname, hgc⟩ := sendUDPData_of_writeName hf content
    (by rw [hmod, hnlen]; exact hcontent)
  rw [hmod] at hgd hgc
  rw [List.take_length] at hgc
  refine ⟨g, hg, ?_, hgc, parseName_eq ?_ (hgname.trans hname) hparse⟩
  · rw [SimpleNameData.Fits, hgn, hgd, hnlen]
    exact hcontent
  · rw [hgn, hnlen]
    omega

/-- Interests and Nacks with at most nine digits come back. -/
theorem comesBackAs_of_not_isData {p : Packet N} (hp : p.name = X.appendSequenceNumber P seq)
    (hdata : ¬ p.IsData) : X.ComesBackAs d P seq p p ↔ seq < 10 ^ 9 := by
  obtain ⟨f, hf, hparse⟩ := frame_of_append (d := d) hseq hparse hnum hpre htext
  have hframe : X.sendUDP d p = .ok (f.setDlen 0) := by
    cases p with
    | interest name | nack name =>
      cases hp
      simp only [NdnCxx.sendUDP, NdnCxx.sendUDPInterest, NdnCxx.sendUDPNack, hf, ok_bind]
    | data name content => exact absurd trivial hdata
  constructor
  · rintro ⟨g, hg, hpg, -⟩
    rw [hframe] at hg
    cases hg
    by_contra hge
    rw [hparse, if_neg hge] at hpg
    cases hpg
  · intro hlt
    rw [if_pos hlt] at hparse
    refine ⟨_, hframe, hparse, ?_⟩
    cases p with
    | interest name | nack name =>
      cases hp
      simp only [NdnCxx.sendNDN, NdnCxx.sendNDNInterest, NdnCxx.sendNDNNack, hparse, ok_bind]
    | data name content => exact absurd trivial hdata

/-- A Data with at most nine digits comes back with the bytes that `getContent()` gives, if there is room
for them. -/
theorem comesBackAs_data {content c : List UInt8} (hlen : (X.getContent content).length < 2 ^ 32) :
    X.ComesBackAs d P seq (.data (X.appendSequenceNumber P seq) content)
      (.data (X.appendSequenceNumber P seq) c) ↔
    seq < 10 ^ 9 ∧ (X.nameText P seq).length + (X.getContent content).length ≤ bufSize ∧
      c = X.getContent content := by
  by_cases hroom : (X.nameText P seq).length + (X.getContent content).length ≤ bufSize
  · obtain ⟨f, hf, hfit, hcontent, hp⟩ :=
      dataFrame_of_append (d := d) hseq hparse hnum hpre htext hroom
    have hmade : seq < 10 ^ 9 → X.sendNDNData f =
        .ok (.data (X.appendSequenceNumber P seq) (X.getContent content)) := by
      intro hlt
      rw [if_pos hlt] at hp
      rw [NdnCxx.sendNDNData, hp, ok_bind]
      dsimp only
      rw [readBuf_content hfit, ok_bind, hcontent]
    constructor
    · rintro ⟨g, hg, hpg, hback⟩
      have hgf : f = g := Except.ok.inj (hf.symm.trans hg)
      subst hgf
      have hlt : seq < 10 ^ 9 := by
        by_contra hge
        rw [hp, if_neg hge] at hpg
        cases hpg
      have heq := (hmade hlt).symm.trans hback
      simp only [Except.ok.injEq, Packet.data.injEq, true_and] at heq
      exact ⟨hlt, hroom, heq.symm⟩
    · rintro ⟨hlt, -, rfl⟩
      exact ⟨f, hf, by rw [hp, if_pos hlt], hmade hlt⟩
  · -- the copy runs over the end of `buf`
    constructor
    · rintro ⟨g, hg, -⟩
      obtain ⟨f, hf, hnlen, -⟩ := writeName_of_append (d := d) hseq hnum hpre htext
      have hbig : bufSize < f.nlen + (X.getContent content).length % 2 ^ 32 := by
        rw [hnlen, Nat.mod_eq_of_lt hlen]
        exact not_le.1 hroom
      rw [NdnCxx.sendUDP, sendUDPData_overrun hf hbig] at hg
      cases hg
    · exact fun h => absurd h.2.1 hroom

end Frames

/-- Interests and Nacks with a sequence number below `10 ^ 9`, and no other packets, come back from their
frames. A Data comes back with the whole element for its content, where it has room and the number is as
small; so its content is never the same. -/
theorem roundTrip_iff (X : NdnCxx N) (d : SimpleNameData) (P : N) (seq : ℕ) (p : Packet N)
    (hname : p.name = X.appendSequenceNumber P seq) (hseq : seq < 2 ^ 32)
    (hparse : X.ofUri (cstr (X.toUri P)) = some P)
    (hnum : X.toSequenceNumber (X.appendSequenceNumber P seq) = some seq)
    (hpre : X.getPrefix (X.appendSequenceNumber P seq) = P)
    (htext : (X.nameText P seq).length ≤ 1023)
    (hcontent : (X.nameText P seq).length + p.content.length ≤ bufSize) (hwhole : X.WholeElement) :
    (X.RoundTrip d P seq p ↔ seq < 10 ^ 9 ∧ ¬ p.IsData) ∧
      (p.IsData → ∀ content, X.ComesBackAs d P seq p (.data p.name content) ↔
        seq < 10 ^ 9 ∧ (X.nameText P seq).length + (X.getContent p.content).length ≤ bufSize ∧
          content = X.getContent p.content) := by
  cases p with
  | data name value =>
    cases hname
    obtain ⟨header, hblock, hlow, hhigh⟩ := hwhole value
    have hlen : (X.getContent value).length = header.length + value.length := by
      rw [hblock, List.length_append]
    have hshort : (X.getContent value).length < 2 ^ 32 := by
      simp only [Packet.content, bufSize] at hcontent
      omega
    have hback := fun c => comesBackAs_data (d := d) (c := c) hseq hparse hnum hpre htext hshort
    refine ⟨⟨fun h => ?_, fun h => absurd trivial h.2⟩, fun _ => hback⟩
    -- the element is longer than its value
    have hsame := congrArg List.length ((hback value).1 h).2.2
    omega
  | interest name | nack name =>
    have hdata : ∀ {p : Packet N}, p.name = X.appendSequenceNumber P seq → ¬ p.IsData →
        (X.RoundTrip d P seq p ↔ seq < 10 ^ 9 ∧ ¬ p.IsData) := fun hp hno =>
      (comesBackAs_of_not_isData hseq hparse hnum hpre htext hp hno).trans (and_iff_left hno).symm
    exact ⟨hdata hname id, False.elim⟩

/-- How ndn-cxx encodes the length of an element. -/
def varNumber (n : ℕ) : List UInt8 :=
  if n < 253 then [.ofNat n]
  else if n < 2 ^ 16 then 253 :: (Bytes.toLE 2 n).reverse
  else if n < 2 ^ 32 then 254 :: (Bytes.toLE 4 n).reverse
  else 255 :: (Bytes.toLE 8 n).reverse

/-- Names that are a text with at most one sequence number behind it. -/
def plainNames : NdnCxx (List UInt8 × Option ℕ) where
  toUri name := match name with
    | (text, none) => text
    | (text, some seq) => text ++ slash :: decimal seq
  ofUri text := some (text, none)
  appendSequenceNumber name seq := (name.1, some seq)
  toSequenceNumber name := name.2
  getPrefix name := (name.1, none)
  getContent value := 21 :: varNumber value.length ++ value

/-- The text `/a`. -/
def nameA : List UInt8 := [47, 97]

theorem wholeElement_plainNames : plainNames.WholeElement := by
  intro value
  have hlen : ∀ n, 1 ≤ (varNumber n).length ∧ (varNumber n).length ≤ 9 := by
    intro n
    unfold varNumber
    split_ifs <;> simp
  obtain ⟨hlow, hhigh⟩ := hlen value.length
  refine ⟨21 :: varNumber value.length, rfl, ?_, ?_⟩ <;> rw [List.length_cons] <;> omega

/-- The Interest `/a` with the number `41` comes back; the content of the Data is `15 02 68 69` then. -/
theorem roundTrip_iff_plain :
    plainNames.RoundTrip SimpleNameData.zero (nameA, none) 41 (.interest (nameA, some 41)) ∧
    plainNames.ComesBackAs SimpleNameData.zero (nameA, none) 41 (.data (nameA, some 41) [104, 105])
      (.data (nameA, some 41) [21, 2, 104, 105]) :=
  ⟨(roundTrip_iff plainNames SimpleNameData.zero (nameA, none) 41 (.interest (nameA, some 41)) rfl
      (by norm_num) rfl rfl rfl (by decide) (by decide) wholeElement_plainNames).1.2
      ⟨by norm_num, id⟩,
    ((roundTrip_iff plainNames SimpleNameData.zero (nameA, none) 41 (.data (nameA, some 41) [104, 105])
      rfl (by norm_num) rfl rfl rfl (by decide) (by decide) wholeElement_plainNames).2 trivial _).2
      ⟨by norm_num, by decide, rfl⟩⟩

/-- Ten digits run over the end of `seqbuf`; and the Data does not come back with its content. -/
theorem roundTrip_fails :
    ¬ plainNames.RoundTrip SimpleNameData.zero (nameA, none) (10 ^ 9)
      (.interest (nameA, some (10 ^ 9))) ∧
    ¬ plainNames.RoundTrip SimpleNameData.zero (nameA, none) 41 (.data (nameA, some 41) [104, 105]) :=
  ⟨fun h => absurd ((comesBackAs_of_not_isData (by norm_num) rfl rfl rfl (by decide +kernel) rfl id).1 h)
      (by norm_num),
    fun h => absurd ((comesBackAs_data (by norm_num) rfl rfl rfl (by decide) (by decide)).1 h).2.2
      (by decide)⟩

end MixSim
