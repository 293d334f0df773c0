import MixSim.Simulator.ProviderVirtual

/-!
# Lengths on the wire

`snprintf` returns the length of the whole text, and the simulator side uses it as the number of
bytes stored: as `nlen`, as the place of the content, and as the length of a response. It is that
number exactly when the text fits the array; nothing refuses a longer one.
-/

namespace MixSim

open CText

/-- The number of bytes of a text that `snprintf` stores, without the terminating zero. -/
def storedNum (size : ℕ) (text : List UInt8) : ℕ := (text.take (size - 1)).length

/-- `nlen` is the number of bytes stored of the text, and name and content lie inside `buf`. -/
structure LengthsTrue (text : List UInt8) (f : SimpleNameData) : Prop where
  nlen : f.nlen = storedNum 1024 text
  fits : f.Fits

variable {N : Type} {X : NdnCxx N} {d f : SimpleNameData} {name : N} {seq : ℕ}
  {text content : List UInt8}

theorem storedNum_eq (size : ℕ) (text : List UInt8) :
    storedNum size text = min (size - 1) text.length := List.length_take

/-- What is returned is the number of bytes stored when the text fits. -/
theorem snprintfResult_eq_stored_iff :
    toUInt32 (snprintfResult text.length) = storedNum 1024 text ↔ text.length ≤ 1023 := by
  have hle := snprintfResult_le (n := text.length) (k := 1023) (by omega)
  rw [storedNum_eq]
  constructor
  · intro h
    exact hle.1 (by omega)
  · intro h
    rw [snprintfResult_of_lt (by omega)]
    omega

/-- A frame without content. -/
theorem lengthsTrue_setDlen_iff (hf : f.nlen = toUInt32 (snprintfResult text.length)) :
    LengthsTrue text (f.setDlen 0) ↔ text.length ≤ 1023 := by
  rw [← snprintfResult_eq_stored_iff, ← hf]
  constructor
  · intro h
    rw [← h.nlen, SimpleNameData.nlen_setDlen]
  · intro h
    refine ⟨by rw [SimpleNameData.nlen_setDlen, h], ?_⟩
    rw [storedNum_eq] at h
    unfold SimpleNameData.Fits bufSize
    rw [SimpleNameData.nlen_setDlen, SimpleNameData.dlen_setDlen, Nat.zero_mod]
    omega

section Frames

variable (d content) (hseq : X.toSequenceNumber name = some seq)

include hseq

/-- What the three functions share. -/
theorem writeName_nlen : ∃ f, X.writeName d name = .ok f ∧
    f.nlen = toUInt32 (snprintfResult (X.nameText (X.getPrefix name) (seq % 2 ^ 32)).length) := by
  obtain ⟨f, hf, hnlen, -⟩ := snprintf_spec d (X.nameText (X.getPrefix name) (seq % 2 ^ 32))
    (show 0 < 1024 by omega) (by decide)
  exact ⟨f, (writeName_eq hseq).trans hf, hnlen⟩

theorem sendUDPInterest_lengths_iff :
    (∃ f, X.sendUDPInterest d name = .ok f ∧
      LengthsTrue (X.nameText (X.getPrefix name) (seq % 2 ^ 32)) f) ↔
    (X.nameText (X.getPrefix name) (seq % 2 ^ 32)).length ≤ 1023 := by
  obtain ⟨f, hf, hnlen⟩ := writeName_nlen d hseq
  rw [NdnCxx.sendUDPInterest, hf, ok_bind, ← lengthsTrue_setDlen_iff hnlen]
  simp only [Except.ok.injEq, exists_eq_left']

theorem sendUDPNack_lengths_iff :
    (∃ f, X.sendUDPNack d name = .ok f ∧
      LengthsTrue (X.nameText (X.getPrefix name) (seq % 2 ^ 32)) f) ↔
    (X.nameText (X.getPrefix name) (seq % 2 ^ 32)).length ≤ 1023 := by
  obtain ⟨f, hf, hnlen⟩ := writeName_nlen d hseq
  rw [NdnCxx.sendUDPNack, hf, ok_bind, ← lengthsTrue_setDlen_iff hnlen]
  simp only [Except.ok.injEq, exists_eq_left']

theorem sendUDPData_lengths_iff :
    (∃ f, X.sendUDPData d name content = .ok f ∧
      LengthsTrue (X.nameText (X.getPrefix name) (seq % 2 ^ 32)) f) ↔
    (X.nameText (X.getPrefix name) (seq % 2 ^ 32)).length ≤ 1023 ∧
      (X.nameText (X.getPrefix name) (seq % 2 ^ 32)).length + content.length % 2 ^ 32 ≤ bufSize := by
  obtain ⟨f, hf, hnlen⟩ := writeName_nlen d hseq
  have hsmall : (X.nameText (X.getPrefix name) (seq % 2 ^ 32)).length ≤ 1023 →
      f.nlen = (X.nameText (X.getPrefix name) (seq % 2 ^ 32)).length := fun h => by
    rw [hnlen, snprintfResult_of_lt (by omega)]
  constructor
  · rintro ⟨g, hg, h⟩
    by_cases hfit : f.nlen + content.length % 2 ^ 32 ≤ bufSize
    · obtain ⟨g', hg', hgn, hgd, -⟩ := sendUDPData_of_writeName hf content hfit
      rw [hg, Except.ok.injEq] at hg'
      have htext : (X.nameText (X.getPrefix name) (seq % 2 ^ 32)).length ≤ 1023 := by
        rw [← snprintfResult_eq_stored_iff, ← hnlen, ← hgn, ← hg', h.nlen]
      refine ⟨htext, ?_⟩
      rw [← hsmall htext]
      exact hfit
    · -- the copy of the content would leave `buf`
      rw [sendUDPData_overrun hf (not_le.1 hfit)] at hg
      cases hg
  · rintro ⟨htext, hfit⟩
    rw [← hsmall htext] at hfit
    obtain ⟨g, hg, hgn, hgd, -⟩ := sendUDPData_of_writeName hf content hfit
    refine ⟨g, hg, ?_, ?_⟩
    · rw [hgn, hnlen]
      exact snprintfResult_eq_stored_iff.2 htext
    · rw [SimpleNameData.Fits, hgn, hgd]
      exact hfit

end Frames

namespace ProducerVirtual

/-- The response to a Data has no more bytes than were stored of its text. -/
theorem onData_lengths_iff (s : ProducerVirtual N) (content : List UInt8)
    (hseq : X.toSequenceNumber name = some seq) :
    (∃ printed r, printedContent content = .ok printed ∧
      onData X s name content = .ok (s, [.response (seq % 2 ^ 32) s.mInterestName r]) ∧
      r.length ≤ storedNum responseBufSize (responseText (seq % 2 ^ 32) printed)) ↔
    ∃ printed, printedContent content = .ok printed ∧
      (responseText (seq % 2 ^ 32) printed).length ≤ 2047 := by
  have hcode : ∀ printed, printedContent content = .ok printed → onData X s name content =
      responseContent (responseText (seq % 2 ^ 32) printed) >>= fun response =>
        .ok (s, [.response (seq % 2 ^ 32) s.mInterestName response]) := by
    intro printed hp
    rw [onData, hseq]
    dsimp only
    rw [hp, ok_bind]
  constructor
  · rintro ⟨printed, r, hp, hdata, hle⟩
    refine ⟨printed, hp, ?_⟩
    rw [hcode printed hp] at hdata
    obtain ⟨r', hr', hok⟩ := bind_eq_ok hdata
    cases hok
    have hlen := length_responseContent hr'
    rw [storedNum_eq, hlen] at hle
    unfold responseBufSize at hle
    omega
  · rintro ⟨printed, hp, hle⟩
    obtain ⟨r, hr⟩ := responseContent_isOk.2
      (show (responseText (seq % 2 ^ 32) printed).length ≤ responseBufSize by
        unfold responseBufSize; omega)
    refine ⟨printed, r, hp, by rw [hcode printed hp, hr, ok_bind], ?_⟩
    rw [length_responseContent hr, storedNum_eq]
    unfold responseBufSize
    omega

end ProducerVirtual

/-- The lengths that leave the simulator side are true exactly when the text fits its array and, for
a Data, name and content fit `buf` together. -/
theorem lengths_true_iff (X : NdnCxx N) (d : SimpleNameData) (name : N) (seq : ℕ)
    (content : List UInt8) (s : ProducerVirtual N) (hseq : X.toSequenceNumber name = some seq) :
    let text := X.nameText (X.getPrefix name) (seq % 2 ^ 32)
    ((∃ f, X.sendUDPInterest d name = .ok f ∧ LengthsTrue text f) ↔ text.length ≤ 1023) ∧
    ((∃ f, X.sendUDPData d name content = .ok f ∧ LengthsTrue text f) ↔
      text.length ≤ 1023 ∧ text.length + content.length % 2 ^ 32 ≤ bufSize) ∧
    ((∃ f, X.sendUDPNack d name = .ok f ∧ LengthsTrue text f) ↔ text.length ≤ 1023) ∧
    ((∃ printed r, ProducerVirtual.printedContent content = .ok printed ∧
      ProducerVirtual.onData X s name content =
        .ok (s, [.response (seq % 2 ^ 32) s.mInterestName r]) ∧
      r.length ≤ storedNum ProducerVirtual.responseBufSize
        (ProducerVirtual.responseText (seq % 2 ^ 32) printed)) ↔
      ∃ printed, ProducerVirtual.printedContent content = .ok printed ∧
        (ProducerVirtual.responseText (seq % 2 ^ 32) printed).length ≤ 2047) :=
  ⟨sendUDPInterest_lengths_iff d hseq, sendUDPData_lengths_iff d content hseq,
    sendUDPNack_lengths_iff d hseq, ProducerVirtual.onData_lengths_iff s content hseq⟩

/-- A short name with a short content. -/
theorem lengths_true_iff_short :
    let text := plainNames.nameText (nameA, none) (7 % 2 ^ 32)
    ((∃ f, plainNames.sendUDPInterest .zero (nameA, some 7) = .ok f ∧ LengthsTrue text f) ↔
      text.length ≤ 1023) ∧
    ((∃ f, plainNames.sendUDPData .zero (nameA, some 7) [104, 105] = .ok f ∧
      LengthsTrue text f) ↔ text.length ≤ 1023 ∧ text.length + 2 % 2 ^ 32 ≤ bufSize) ∧
    ((∃ f, plainNames.sendUDPNack .zero (nameA, some 7) = .ok f ∧ LengthsTrue text f) ↔
      text.length ≤ 1023) ∧
    ((∃ printed r, ProducerVirtual.printedContent [104, 105] = .ok printed ∧
      ProducerVirtual.onData plainNames ⟨(nameA, some 7), true⟩ (nameA, some 7) [104, 105] =
        .ok (⟨(nameA, some 7), true⟩, [.response (7 % 2 ^ 32) (nameA, some 7) r]) ∧
      r.length ≤ storedNum ProducerVirtual.responseBufSize
        (ProducerVirtual.responseText (7 % 2 ^ 32) printed)) ↔
      ∃ printed, ProducerVirtual.printedContent [104, 105] = .ok printed ∧
        (ProducerVirtual.responseText (7 % 2 ^ 32) printed).length ≤ 2047) :=
  lengths_true_iff plainNames .zero (nameA, some 7) 7 [104, 105] ⟨(nameA, some 7), true⟩ rfl

/-- A prefix of 1022 bytes. -/
def longPrefix : List UInt8 := slash :: List.replicate 1021 97

/-- With this prefix and a number of one digit the text does not fit, and it is sent all the same. -/
theorem lengths_not_true : (∃ f, plainNames.sendUDPInterest .zero (longPrefix, some 7) = .ok f) ∧
    ¬ ∃ f, plainNames.sendUDPInterest .zero (longPrefix, some 7) = .ok f ∧
      LengthsTrue (plainNames.nameText (longPrefix, none) 7) f := by
  have hseq : plainNames.toSequenceNumber (longPrefix, some 7) = some 7 := rfl
  have hmod : 7 % 2 ^ 32 = 7 := by norm_num
  constructor
  · obtain ⟨f, hf, -⟩ := writeName_nlen .zero hseq
    exact ⟨f.setDlen 0, by rw [NdnCxx.sendUDPInterest, hf, ok_bind]⟩
  · intro h
    have hiff := sendUDPInterest_lengths_iff .zero hseq
    rw [hmod] at hiff
    exact absurd (hiff.1 h) (by decide +kernel)

end MixSim
