import MixSim.Adaptor.Coroutines

/-!
# What a filled buffer holds

The frame in a buffer after `memcpy` of a datagram, and after `nip_interest_in` and `nip_data_in`
have filled it: its lengths, its message, when it fits, and what is left of the old contents behind
the message (`FilledFrom`). In the message old contents show only where a datagram is shorter than its
header or its header promises more than it holds.
-/

namespace MixSim

open Bytes SimpleNameData

section Datagrams

variable {d f : SimpleNameData} {bs : List UInt8}

/-- A well-formed datagram leaves a frame that fits, with the datagram's message. -/
theorem WellFormed.frame (hw : WellFormed bs) (h : d.memcpy bs = .ok f) :
    f.Fits ∧ ∀ q : FwdQueue, q.message f = q.dgramMessage bs := by
  obtain ⟨hle, -⟩ := store_eq_ok h
  obtain ⟨hn, hd⟩ := lens_of_memcpy h hw.header
  have hname := name_of_memcpy h hw.name_le
  unfold WellFormed at hw
  unfold frameSize at hle
  refine ⟨?_, fun q => ?_⟩
  · rw [Fits, hn, hd, bufSize]
    omega
  · have hcontent : f.content = dgramContent bs := by
      rw [content, buf, hn, hd, List.drop_drop, dgramContent, read_of_memcpy h hw]
    rw [FwdQueue.message, FwdQueue.dgramMessage, hname, hcontent]

end Datagrams

section Irecv

variable {ibuf : Isockbuf} {d f : SimpleNameData}

theorem readArray_eq_ok {a bs : List UInt8} {n : ℕ} (h : readArray a n = .ok bs) :
    n ≤ a.length ∧ bs = a.take n := by
  unfold readArray at h
  split_ifs at h with hn
  cases h
  exact ⟨hn, rfl⟩

theorem nlen_ibuf (d : SimpleNameData) (ibuf : Isockbuf) :
    (d.setNlen ibuf.nlen.toNat).nlen = ibuf.nlen.toNat := by
  have h := ibuf.nlen.toNat_lt
  rw [nlen_setNlen, Nat.mod_eq_of_lt (by omega)]

/-- The name is written to the head of `buf`. -/
theorem name_of_writeBuf {n : SimpleNameData} {bs : List UInt8} (h : d.writeBuf 0 bs = .ok n)
    (hlen : d.nlen = bs.length) : n.nlen = bs.length ∧ n.buf.take bs.length = bs := by
  have hbuf := readBack_of_writeBuf h
  rw [List.drop_zero] at hbuf
  exact ⟨(lens_of_writeBuf h).1.trans hlen, hbuf⟩

/-- The name in the buffer is the one received; the bytes behind it are left. -/
theorem writeName_eq_ok {n : SimpleNameData} {bs : List UInt8}
    (hread : readArray ibuf.name (d.setNlen ibuf.nlen.toNat).nlen = .ok bs)
    (hwrite : (d.setNlen ibuf.nlen.toNat).writeBuf 0 bs = .ok n) :
    n.nlen = ibuf.nlen.toNat ∧ n.nlen ≤ maxNameLen ∧
      n.buf.take n.nlen = ibuf.name.take ibuf.nlen.toNat ∧
      n.buf.drop n.nlen = d.buf.drop n.nlen := by
  obtain ⟨hle, rfl⟩ := readArray_eq_ok hread
  have hrest := rest_of_writeBuf hwrite
  rw [nlen_ibuf] at hle
  have hlen : (ibuf.name.take (d.setNlen ibuf.nlen.toNat).nlen).length = ibuf.nlen.toNat := by
    rw [nlen_ibuf, List.length_take]
    omega
  obtain ⟨hn, hbuf⟩ := name_of_writeBuf hwrite (by rw [hlen, nlen_ibuf])
  rw [hlen] at hn hbuf hrest
  rw [ibuf.name_size] at hle
  rw [Nat.zero_add, buf_setNlen] at hrest
  exact ⟨hn, hn ▸ hle, by rw [hn, hbuf, nlen_ibuf], by rw [hn, hrest]⟩

theorem writeName_of_le (d : SimpleNameData) (hn : ibuf.nlen.toNat ≤ maxNameLen) :
    ∃ bs n, readArray ibuf.name (d.setNlen ibuf.nlen.toNat).nlen = .ok bs ∧
      (d.setNlen ibuf.nlen.toNat).writeBuf 0 bs = .ok n := by
  have hread : readArray ibuf.name (d.setNlen ibuf.nlen.toNat).nlen =
      .ok (ibuf.name.take ibuf.nlen.toNat) := by
    rw [readArray, nlen_ibuf, if_pos (by rw [ibuf.name_size]; exact hn)]
  obtain ⟨n, hwrite⟩ : ∃ n, (d.setNlen ibuf.nlen.toNat).writeBuf 0
      (ibuf.name.take ibuf.nlen.toNat) = .ok n := by
    refine store_of_le ?_
    rw [List.length_take]
    unfold maxNameLen at hn
    unfold frameSize
    omega
  exact ⟨_, n, hread, hwrite⟩

/-- The frame fits, its name is short, and behind its content is what was there before. -/
structure FilledFrom (d f : SimpleNameData) : Prop where
  nlen_le : f.nlen ≤ maxNameLen
  fits : f.Fits
  rest : f.buf.drop (f.nlen + f.dlen) = d.buf.drop (f.nlen + f.dlen)

/-- A frame with a short name and no content. -/
theorem filledFrom_setDlen {n : SimpleNameData} (hle : n.nlen ≤ maxNameLen)
    (hrest : n.buf.drop n.nlen = d.buf.drop n.nlen) : FilledFrom d (n.setDlen 0) := by
  have hlens : (n.setDlen 0).nlen + (n.setDlen 0).dlen = n.nlen := by
    rw [nlen_setDlen, dlen_setDlen]
    rfl
  refine ⟨by rw [nlen_setDlen]; exact hle, ?_, by rw [hlens, buf_setDlen, hrest]⟩
  rw [Fits, hlens, bufSize]
  unfold maxNameLen at hle
  omega

/-- A buffer filled by `nip_interest_in` holds the Interest received. -/
theorem fillInterest_eq_ok (h : fillInterest ibuf d = .ok f) :
    FilledFrom d f ∧ f.dlen = 0 ∧ FwdQueue.realtosimInterest.message f = ibuf.interest := by
  unfold fillInterest at h
  rcases hread : readArray ibuf.name (d.setNlen ibuf.nlen.toNat).nlen with e | bs
  · simp only [hread, bind, Except.bind, reduceCtorEq] at h
  rcases hwrite : (d.setNlen ibuf.nlen.toNat).writeBuf 0 bs with e | n
  · simp only [hread, hwrite, bind, Except.bind, reduceCtorEq] at h
  simp only [hread, hwrite, bind, Except.bind, Except.ok.injEq] at h
  subst h
  obtain ⟨hn, hle, hbuf, hrest⟩ := writeName_eq_ok hread hwrite
  refine ⟨filledFrom_setDlen hle hrest, dlen_setDlen n 0, ?_⟩
  have hname : (n.setDlen 0).name = ibuf.name.take ibuf.nlen.toNat := by
    rw [name, nlen_setDlen, buf_setDlen, hbuf]
  rw [FwdQueue.message, hname]
  rfl

theorem fillInterest_of_le (d : SimpleNameData) (hn : ibuf.nlen.toNat ≤ maxNameLen) :
    ∃ f, fillInterest ibuf d = .ok f := by
  obtain ⟨bs, n, hread, hwrite⟩ := writeName_of_le d hn
  exact ⟨n.setDlen 0, by simp only [fillInterest, hread, hwrite, bind, Except.bind]⟩

/-- A buffer filled by `nip_data_in` holds the Data received, unless its length is cut off. -/
theorem fillData_eq_ok (h : fillData ibuf d = .ok f) : FilledFrom d f ∧
    (ibuf.dlen.toNat < 2 ^ 32 → FwdQueue.realtosimData.message f = ibuf.content) := by
  unfold fillData at h
  rcases hread : readArray ibuf.name (d.setNlen ibuf.nlen.toNat).nlen with e | bs
  · simp only [hread, bind, Except.bind, reduceCtorEq] at h
  rcases hwrite : (d.setNlen ibuf.nlen.toNat).writeBuf 0 bs with e | n
  · simp only [hread, hwrite, bind, Except.bind, reduceCtorEq] at h
  simp only [hread, hwrite, bind, Except.bind] at h
  obtain ⟨hn, hle, hbuf, hrest⟩ := writeName_eq_ok hread hwrite
  by_cases hnack : ibuf.dType = dNack
  · rw [if_pos hnack] at h
    cases h
    refine ⟨filledFrom_setDlen hle hrest, fun _ => ?_⟩
    have hname : (n.setDlen 0).name = ibuf.name.take ibuf.nlen.toNat := by
      rw [name, nlen_setDlen, buf_setDlen, hbuf]
    have hcontent : (n.setDlen 0).content = [] := by
      rw [content, dlen_setDlen]
      rfl
    rw [FwdQueue.message, hname, hcontent, Isockbuf.content, if_pos hnack]
    rfl
  · rw [if_neg hnack, nlen_setDlen] at h
    rcases hcread : readArray ibuf.data (n.setDlen ibuf.dlen.toNat).dlen with e | cs
    · simp only [hcread, reduceCtorEq] at h
    simp only [hcread] at h
    obtain ⟨hcle, rfl⟩ := readArray_eq_ok hcread
    have hclen : (ibuf.data.take (n.setDlen ibuf.dlen.toNat).dlen).length =
        (n.setDlen ibuf.dlen.toNat).dlen := by
      rw [List.length_take]
      omega
    obtain ⟨hstore, -⟩ := store_eq_ok h
    obtain ⟨hfn, hfd⟩ := lens_of_writeBuf h
    have hback := readBack_of_writeBuf h
    have hbefore := readBefore_of_writeBuf (a := 0) (n := n.nlen) h (by omega)
    have hafter := rest_of_writeBuf h
    rw [hclen] at hstore hback hafter
    rw [nlen_setDlen] at hfn
    rw [List.drop_zero, List.drop_zero, buf_setDlen, hbuf] at hbefore
    rw [buf_setDlen] at hafter
    unfold maxNameLen at hle
    unfold frameSize at hstore
    refine ⟨⟨hfn ▸ hle, ?_, ?_⟩, fun hd => ?_⟩
    · rw [Fits, hfn, hfd, bufSize]
      omega
    · rw [hfn, hfd, hafter, ← List.drop_drop, hrest, List.drop_drop]
    · have hname : f.name = ibuf.name.take ibuf.nlen.toNat := by rw [name, hfn, hbefore]
      have hdlen : (n.setDlen ibuf.dlen.toNat).dlen = ibuf.dlen.toNat := by
        rw [dlen_setDlen, Nat.mod_eq_of_lt hd]
      have hcontent : f.content = ibuf.data.take ibuf.dlen.toNat := by
        rw [content, hfn, hfd, hback, hdlen]
      rw [FwdQueue.message, hname, hcontent, Isockbuf.content, if_neg hnack]
      rfl

/-- `nip_data_in` fills its buffer when the name fits its array, the content fits its array, and
both together fit `buf`. -/
theorem fillData_of_le (d : SimpleNameData) (hn : ibuf.nlen.toNat ≤ maxNameLen)
    (hd : ibuf.dlen.toNat ≤ maxDataLen)
    (hfit : ibuf.dType = dNack ∨ ibuf.nlen.toNat + ibuf.dlen.toNat ≤ bufSize) :
    ∃ f, fillData ibuf d = .ok f := by
  obtain ⟨bs, n, hread, hwrite⟩ := writeName_of_le d hn
  obtain ⟨hnn, -, -, -⟩ := writeName_eq_ok hread hwrite
  by_cases hnack : ibuf.dType = dNack
  · exact ⟨n.setDlen 0, by simp only [fillData, hread, hwrite, if_pos hnack, bind, Except.bind]⟩
  · have hle := hfit.resolve_left hnack
    unfold maxDataLen at hd
    unfold bufSize at hle
    have hdlen : (n.setDlen ibuf.dlen.toNat).dlen = ibuf.dlen.toNat := by
      rw [dlen_setDlen, Nat.mod_eq_of_lt (by omega)]
    have hcread : readArray ibuf.data ibuf.dlen.toNat = .ok (ibuf.data.take ibuf.dlen.toNat) := by
      rw [readArray, if_pos (by rw [ibuf.data_size, maxDataLen]; omega)]
    obtain ⟨f, hf⟩ : ∃ f, (n.setDlen ibuf.dlen.toNat).writeBuf ibuf.nlen.toNat
        (ibuf.data.take ibuf.dlen.toNat) = .ok f := by
      refine store_of_le ?_
      rw [List.length_take]
      unfold frameSize
      omega
    refine ⟨f, ?_⟩
    simp only [fillData, hread, hwrite, if_neg hnack, hdlen, nlen_setDlen, hnn, hcread, bind,
      Except.bind]
    exact hf

end Irecv

end MixSim
