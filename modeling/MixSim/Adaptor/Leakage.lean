import MixSim.Adaptor.Forwarding

/-!
# What a recycled buffer gives away

`udp_data_out` and `udp_interest_out` send the whole of `simple_name_data`, whatever the lengths of
name and content, while `nip_data_out` and `nip_interest_out` send these alone. Behind the message
the datagram shows what the buffer held before: two runs that forward the same message send the same
bytes exactly when it fills the buffer (`sent_alike_iff`).
-/

namespace MixSim

open Bytes BufferPool Execution SlotTable

/-- The queues of `udp_interest_out` and `udp_data_out`. -/
def FwdQueue.RealToSim (q : FwdQueue) : Prop := q = .realtosimInterest ∨ q = .realtosimData

/-- The consumer of the queue can send the message: `irecv` has room for its name, a buffer has room
for the whole, and an Interest has no content. -/
def FwdQueue.CanSend (q : FwdQueue) (m : Message) : Prop :=
  m.name.length ≤ maxNameLen ∧ m.name.length + m.content.length ≤ bufSize ∧
    (q = .realtosimInterest ∧ m.content = [] ∨ q = .realtosimData)

namespace Adaptor

/-- In the run of `evs` the frame is sent with `dyco_sendto`. -/
def Sends (blocks : Fin 16 → SimpleNameData) (junk : ℕ → NutEntry) (evs : List Event) (q : FwdQueue)
    (f : SimpleNameData) : Prop :=
  Reaches step (initAdaptor blocks junk) evs fun _ h => ∃ addr, .sendto q f addr ∈ h

/-- Two runs that send the message send the same bytes. -/
def SentAlike (q : FwdQueue) (m : Message) : Prop :=
  ∀ blocks junk evs evs' f f', Sends blocks junk evs q f → Sends blocks junk evs' q f' →
    q.message f = m → q.message f' = m → f.bytes = f'.bytes

variable {s s' : Adaptor} {o h : List Obs} {ev : Event} {q : FwdQueue} {b : ℕ} {f : SimpleNameData}
  {m : Message}

/-! ### What is sent -/

/-- `dyco_sendto` sends the frame in hand. -/
theorem Turn.sendto {addr : SockaddrIn} (ht : Turn s ev (.ok (s', o)))
    (hsend : .sendto q f addr ∈ o) : q.RealToSim ∧ ∃ b, s.held q = some b ∧ f = s.frame b := by
  cases ht with
  | nothing => cases hsend
  | nipInterestIn ht | nipDataIn ht | udpDataIn _ ht =>
    cases ht with
    | ok =>
      split_ifs at hsend
      · simp at hsend
      · simp at hsend
  | nipInterestOut ht | nipDataOut ht => cases ht <;> simp at hsend
  | udpInterestIn ht =>
    cases ht with
    | empty => cases hsend
    | accepted =>
      split_ifs at hsend
      · simp at hsend
      · simp at hsend
    | dropped => simp at hsend
  | udpInterestOut ht =>
    cases ht with
    | idle | take | finish => simp at hsend
    | send hheld =>
      cases List.mem_singleton.1 hsend
      exact ⟨Or.inl rfl, _, hheld, rfl⟩
  | udpDataOut ht =>
    cases ht with
    | idle | unknown | start | next | finish => simp at hsend
    | send hheld =>
      cases List.mem_singleton.1 hsend
      exact ⟨Or.inr rfl, _, hheld, rfl⟩

/-- `Inv`, and every frame that has been put on one of the two queues, or sent, has a short name and
fits. -/
structure SendInv (s : Adaptor) (h : List Obs) : Prop extends s.Inv h where
  filled : ∀ q, q.RealToSim → ∀ f ∈ MixSim.enqueued q h, f.nlen ≤ maxNameLen ∧ f.Fits
  sent : ∀ q f addr, .sendto q f addr ∈ h → q.RealToSim ∧ f.nlen ≤ maxNameLen ∧ f.Fits

theorem sendInv_step : Inductive step (fun _ _ => True) SendInv := by
  intro s h ev s' o hI _ hs
  have ht := step_turn hI.toSound ev
  rw [hs] at ht
  refine ⟨inv_step hI.toInv trivial hs, fun q hq f hf => ?_, fun q f addr hsend => ?_⟩
  · rw [enqueued_append, List.mem_append] at hf
    rcases hf with hf | hf
    · exact hI.filled q hq f hf
    · exact ht.enqueued_nip hI.toSound hq hf
  · rcases List.mem_append.1 hsend with hsend | hsend
    · exact hI.sent q f addr hsend
    · obtain ⟨hq, b, hb, rfl⟩ := ht.sendto hsend
      exact ⟨hq, hI.filled q hq _ (hI.held_mem hb)⟩

/-- A frame that is sent has a short name, and fits. -/
theorem Sends.fits {blocks : Fin 16 → SimpleNameData} {junk : ℕ → NutEntry} {evs : List Event}
    (hsend : Sends blocks junk evs q f) : q.RealToSim ∧ f.nlen ≤ maxNameLen ∧ f.Fits := by
  obtain ⟨s, h, he, addr, hmem⟩ := hsend
  have h0 : SendInv (initAdaptor blocks junk) [] := ⟨initAdaptor_inv blocks junk,
    fun _ _ _ hf => (by cases hf), fun _ _ _ hf => (by cases hf)⟩
  have hI := sendInv_step.exec h0 (along_true _ _) he
  rw [List.nil_append] at hI
  exact hI.sent q f addr hmem

/-- What is sent can be sent. -/
theorem canSend_message (hq : q.RealToSim) (hn : f.nlen ≤ maxNameLen) (hfit : f.Fits) :
    q.CanSend (q.message f) := by
  have hlen := hfit.length_name
  have hcontent : f.content.length = f.dlen := SimpleNameData.length_content hfit
  unfold SimpleNameData.Fits at hfit
  rcases hq with rfl | rfl
  · refine ⟨hlen.trans_le hn, ?_, Or.inl ⟨rfl, rfl⟩⟩
    show f.name.length + 0 ≤ bufSize
    omega
  · refine ⟨hlen.trans_le hn, ?_, Or.inr rfl⟩
    show f.name.length + f.content.length ≤ bufSize
    omega

/-- A frame whose message fills the buffer is its message. -/
theorem buf_of_full (hfit : f.Fits) (hfull : f.name.length + f.content.length = bufSize) :
    f.buf = f.name ++ f.content := by
  have hlen := hfit.length_name
  rw [SimpleNameData.length_content hfit, hlen] at hfull
  have hrest : f.buf.drop f.nlen = f.content := by
    rw [SimpleNameData.content, List.take_of_length_le]
    rw [List.length_drop, SimpleNameData.length_buf]
    omega
  rw [← hrest, SimpleNameData.name, List.take_append_drop]

/-- Two frames with the same message that fills the buffer are the same. -/
theorem bytes_eq_of_full {f' : SimpleNameData} (hn : f.nlen ≤ maxNameLen) (hfit : f.Fits)
    (hfit' : f'.Fits) (hmsg : q.message f = q.message f')
    (hfull : (q.message f).name.length + (q.message f).content.length = bufSize) :
    f.bytes = f'.bytes := by
  have hname : f.name = f'.name := congrArg Message.name hmsg
  -- a name alone does not fill the buffer
  have hdata : q.isData = true := by
    by_contra hdata
    rw [FwdQueue.message, if_neg hdata] at hfull
    have hfull' : f.name.length + 0 = bufSize := hfull
    rw [hfit.length_name] at hfull'
    unfold maxNameLen at hn
    unfold bufSize at hfull'
    omega
  rw [FwdQueue.message, FwdQueue.message, if_pos hdata, if_pos hdata] at hmsg
  rw [FwdQueue.message, if_pos hdata] at hfull
  have hcontent : f.content = f'.content := congrArg Message.content hmsg
  refine SimpleNameData.bytes_eq ?_ ?_ ?_
  · rw [← hfit.length_name, ← hfit'.length_name, hname]
  · rw [← SimpleNameData.length_content hfit, ← SimpleNameData.length_content hfit', hcontent]
  · have hfull' : f'.name.length + f'.content.length = bufSize := by
      rw [← hname, ← hcontent]
      exact hfull
    rw [buf_of_full hfit hfull, buf_of_full hfit' hfull', hname, hcontent]

end Adaptor

/-! ### Messages through a recycled buffer -/

/-- What `irecv` reports for a message of at most 1024 and 2048 bytes. -/
def Message.ibuf (m : Message) : Isockbuf where
  name := (m.name ++ List.replicate 1024 0).take 1024
  nlen := m.name.length.toUInt16
  data := (m.content ++ List.replicate 2048 0).take 2048
  dlen := m.content.length.toUInt64
  dType := 0
  name_size := by
    rw [List.length_take, List.length_append, List.length_replicate]
    exact min_eq_left (Nat.le_add_left _ _)
  data_size := by
    rw [List.length_take, List.length_append, List.length_replicate]
    exact min_eq_left (Nat.le_add_left _ _)

section Ibuf

variable {m : Message} {q : FwdQueue}

theorem nlen_ibuf_message (hm : q.CanSend m) : m.ibuf.nlen.toNat = m.name.length := by
  have hn := hm.1
  unfold maxNameLen at hn
  exact UInt16.toNat_ofNat_of_lt (by rw [UInt16.size]; omega)

theorem dlen_ibuf_message (hm : q.CanSend m) : m.ibuf.dlen.toNat = m.content.length := by
  have hd := hm.2.1
  unfold bufSize at hd
  exact UInt64.toNat_ofNat_of_lt (by rw [UInt64.size]; omega)

theorem interest_ibuf (hm : q.CanSend m) (hc : m.content = []) : m.ibuf.interest = m := by
  have hn := hm.1
  have hname : m.ibuf.name.take m.ibuf.nlen.toNat = m.name := by
    rw [nlen_ibuf_message hm, Message.ibuf, List.take_take, min_eq_left (by exact hn),
      List.take_left']
    rfl
  rw [Isockbuf.interest, hname, ← hc]

theorem content_ibuf (hm : q.CanSend m) : m.ibuf.content = m := by
  have hn := hm.1
  have hd := hm.2.1
  have hname : m.ibuf.name.take m.ibuf.nlen.toNat = m.name := by
    rw [nlen_ibuf_message hm, Message.ibuf, List.take_take, min_eq_left (by exact hn),
      List.take_left']
    rfl
  have hcontent : m.ibuf.data.take m.ibuf.dlen.toNat = m.content := by
    unfold bufSize at hd
    rw [dlen_ibuf_message hm, Message.ibuf, List.take_take, min_eq_left (by omega), List.take_left']
    rfl
  have hdata : m.ibuf.dType ≠ dNack := by
    change (0 : UInt8) ≠ dNack
    decide
  rw [Isockbuf.content, hname, if_neg hdata, hcontent]

end Ibuf

/-- The events that bring a message to the queue and send it. Data needs a requester. -/
def forward (q : FwdQueue) (m : Message) : List Event :=
  match q with
  | .realtosimInterest =>
      [.nipInterestIn (some m.ibuf) allocOk, .udpInterestOut true, .udpInterestOut true]
  | _ => [.udpInterestIn (nameDgram m.name) ⟨2, 1, 1⟩ allocOk, .nipDataIn (some m.ibuf) allocOk,
      .udpDataOut true, .udpDataOut true]

namespace Adaptor

/-- Nothing is on its way, the table is empty, and the next two buffers are full of the byte `c`. -/
structure Ready (s : Adaptor) (c : UInt8) : Prop where
  wf : s.nutTable.WF
  free : [0, 1] <+: s.freebufList.contents
  mem_length : 1 < s.mem.length
  buf : (s.frame 0).buf = List.replicate bufSize c ∧ (s.frame 1).buf = List.replicate bufSize c
  queue : ∀ q, (s.queue q).contents = []
  held : ∀ q, s.held q = none
  slots : s.nutTable.slots = []
  room : ¬ s.nutTable.Full

variable {s : Adaptor} {b : ℕ} {f : SimpleNameData} {m : Message} {c : UInt8} {q : FwdQueue}

/-- A receiving coroutine puts the first free buffer on its queue. -/
theorem receive_of_cons {rest : List ℕ} (hcons : s.freebufList.contents = b :: rest)
    (hb : b < s.mem.length) {fill : SimpleNameData → Except Fault SimpleNameData}
    (hfill : fill (s.frame b) = .ok f) (hqueue : (s.queue q).contents = []) (m : Message) :
    ∃ s' o, s.receive q m fill allocOk = .ok (s', o) ∧ (s'.queue q).contents = [b] ∧
      s'.frame b = f ∧ b < s'.mem.length ∧ s'.held = s.held ∧ s'.nutTable = s.nutTable := by
  have hrecv : s.receive q m fill allocOk = .ok ({ s with
        mem := s.mem.set b f
        freebufList := s.freebufList.dequeue.1
        queue := Function.update s.queue q ((s.queue q).enqueue b true) },
      [.recv q m, .enqueue q f]) := by
    rw [receive, fillBuffer_of_cons hcons hb, hfill]
    rfl
  exact ⟨_, _, hrecv, by simp [hqueue], by simp [frame, hb], by simpa using hb, rfl, rfl⟩

/-- `udp_interest_out` sends the Interest in its hands. -/
theorem udpInterestOut_before (hheld : s.held .realtosimInterest = some b) (hb : b < s.mem.length)
    (hphase : s.interestPhase = .before) :
    step s (.udpInterestOut true) = .ok ({ s with interestPhase := .after },
      [.sendto .realtosimInterest (s.frame b) serveraddr]) := by
  show s.udpInterestOut true = _
  simp only [udpInterestOut, hheld, hphase, read_of_lt hb, bind, Except.bind]

/-- `udp_interest_out` sends the only Interest in its queue. -/
theorem udpInterestOut_sends (hqueue : (s.queue .realtosimInterest).contents = [b])
    (hb : b < s.mem.length) (hheld : s.held .realtosimInterest = none) :
    Reaches step s [.udpInterestOut true, .udpInterestOut true] fun _ h =>
      .sendto .realtosimInterest (s.frame b) serveraddr ∈ h := by
  have htake : step s (.udpInterestOut true) = .ok ({ s with
      queue := Function.update s.queue .realtosimInterest (s.queue .realtosimInterest).dequeue.1
      held := Function.update s.held .realtosimInterest (some b)
      interestPhase := .before }, [.dequeue .realtosimInterest (s.frame b)]) := by
    show s.udpInterestOut true = _
    simp only [udpInterestOut, hheld, take_of_cons hqueue hb, bind, Except.bind]
  exact .cons htake (.cons (udpInterestOut_before (by simp) hb rfl) ⟨_, _, rfl, by simp [frame]⟩)

/-- `udp_data_out` sends the Data in its hands to the next address. -/
theorem udpDataOut_before {k : List UInt8} {as : List SockaddrIn}
    (hheld : s.held .realtosimData = some b) (hb : b < s.mem.length) (hphase : s.dataPhase = .before)
    (harr : s.entry.arr = s.nutTable.arr) (hat : At s.nutTable.slots s.entry.idx k as)
    (hi : s.i < as.length) :
    step s (.udpDataOut true) = .ok ({ s with dataPhase := .after },
      [.sendto .realtosimData (s.frame b) as[s.i]]) := by
  have haddr : nutAddr s.nutTable s.entry s.i = .ok as[s.i] := by
    have := nutAddr_at hat hi
    rwa [← harr] at this
  show s.udpDataOut true = _
  simp only [udpDataOut, hheld, hphase, haddr, read_of_lt hb, bind, Except.bind]

/-- `udp_data_out` sends the only Data in its queue, whose name is asked for. -/
theorem udpDataOut_sends {idx : ℕ} {as : List SockaddrIn}
    (hqueue : (s.queue .realtosimData).contents = [b]) (hb : b < s.mem.length)
    (hheld : s.held .realtosimData = none) (hwf : s.nutTable.WF) (hn : (s.frame b).nlen ≤ bufSize)
    (hat : At s.nutTable.slots idx (nutKey (s.frame b).name) as) :
    Reaches step s [.udpDataOut true, .udpDataOut true] fun _ h =>
      ∃ addr, .sendto .realtosimData (s.frame b) addr ∈ h := by
  have hget : nutGet s.nutTable (s.frame b).buf (asInt (s.frame b).nlen) =
      .ok (some ⟨s.nutTable.arr, idx⟩) := by
    rw [asInt_of_lt (by unfold bufSize at hn; omega), nutGet_eq hwf
      (by rw [SimpleNameData.length_buf]; exact hn)]
    exact congrArg (fun r => Except.ok (Option.map _ r)) (hat.find hwf.unique)
  have hpos := (hwf.at_addrs hat).1
  have htake : step s (.udpDataOut true) = .ok ({ s with
      queue := Function.update s.queue .realtosimData (s.queue .realtosimData).dequeue.1
      held := Function.update s.held .realtosimData (some b)
      entry := ⟨s.nutTable.arr, idx⟩
      i := 0
      dataPhase := .before }, [.dequeue .realtosimData (s.frame b)]) := by
    show s.udpDataOut true = _
    rcases udpDataLoop_at (s := { s with
        queue := Function.update s.queue .realtosimData (s.queue .realtosimData).dequeue.1
        held := Function.update s.held .realtosimData (some b)
        entry := ⟨s.nutTable.arr, idx⟩ }) (b := b) (i := 0) hwf rfl hat true with
      ⟨-, hloop⟩ | ⟨hlen, -⟩
    · simp only [udpDataOut, hheld, take_of_cons hqueue hb, hget, hloop, bind, Except.bind]
    · omega
  have hsend := udpDataOut_before (s := { s with
      queue := Function.update s.queue .realtosimData (s.queue .realtosimData).dequeue.1
      held := Function.update s.held .realtosimData (some b)
      entry := ⟨s.nutTable.arr, idx⟩
      i := 0
      dataPhase := .before }) (by simp) hb rfl rfl hat hpos
  exact .cons htake (.cons hsend ⟨_, _, rfl, _, List.mem_append_right _ List.mem_cons_self⟩)

/-- Behind the message is what a full buffer held before. -/
theorem rest_replicate {d : SimpleNameData} (hfrom : FilledFrom d f)
    (hd : d.buf = List.replicate bufSize c) (hq : q.message f = m) (hdlen : f.dlen = m.content.length) :
    f.buf.drop (m.name.length + m.content.length) =
      List.replicate (bufSize - (m.name.length + m.content.length)) c := by
  have hname : f.name = m.name := congrArg Message.name hq
  have hnlen : f.nlen = m.name.length := by
    rw [← hname, hfrom.fits.length_name]
  rw [← hnlen, ← hdlen, hfrom.rest, hd, List.drop_replicate]

theorem forward_interest (hR : s.Ready c) (hm : FwdQueue.realtosimInterest.CanSend m) :
    Reaches step s (forward .realtosimInterest m) fun _ h => ∃ f addr,
      .sendto .realtosimInterest f addr ∈ h ∧ FwdQueue.realtosimInterest.message f = m ∧
      f.buf.drop (m.name.length + m.content.length) =
        List.replicate (bufSize - (m.name.length + m.content.length)) c := by
  have hc : m.content = [] := by
    rcases hm.2.2 with ⟨-, hc⟩ | hq
    · exact hc
    · cases hq
  have hb : 0 < s.mem.length := Nat.zero_lt_of_lt hR.mem_length
  obtain ⟨rest, hfree⟩ := hR.free
  obtain ⟨f, hf⟩ := fillInterest_of_le (s.frame 0) (by rw [nlen_ibuf_message hm]; exact hm.1)
  obtain ⟨hfrom, hdlen, hmsg⟩ := fillInterest_eq_ok hf
  rw [interest_ibuf hm hc] at hmsg
  obtain ⟨s₁, o, hrecv, hqueue, hframe, hb₁, hheld, -⟩ :=
    receive_of_cons hfree.symm hb hf (hR.queue _) m.ibuf.interest
  have hout := udpInterestOut_sends hqueue hb₁ (by rw [hheld]; exact hR.held _)
  rw [hframe] at hout
  refine .cons hrecv (hout.mono fun _ h hsend => ⟨f, _, List.mem_append_right _ hsend, hmsg, ?_⟩)
  exact rest_replicate hfrom hR.buf.1 hmsg (by rw [hdlen, hc]; rfl)

theorem dgramNlen_nameDgram (name : List UInt8) :
    dgramNlen (nameDgram name) = name.length % 2 ^ 32 := by
  rw [dgramNlen, nameDgram, List.append_assoc, List.take_left' (length_toLE 4 _), ofLE_toLE]
  norm_num

theorem length_nameDgram (name : List UInt8) : (nameDgram name).length = 8 + name.length := by
  rw [nameDgram, List.length_append, List.length_append, length_toLE, length_toLE]

/-- A frame with the datagram of a name has that name. -/
theorem name_of_nameDgram {d : SimpleNameData} {name : List UInt8} (hn : name.length ≤ maxNameLen)
    (h : d.memcpy (nameDgram name) = .ok f) : f.nlen = name.length ∧ f.name = name := by
  unfold maxNameLen at hn
  have hlen := length_nameDgram name
  have hnlen : dgramNlen (nameDgram name) = name.length := by
    rw [dgramNlen_nameDgram, Nat.mod_eq_of_lt (by omega)]
  refine ⟨(lens_of_memcpy h (by omega)).1.trans hnlen, ?_⟩
  rw [name_of_memcpy h (by omega), dgramName, hnlen, nameDgram, List.drop_left' (by simp),
    List.take_length]

/-- `udp_interest_in` enters the name of a requester, with the first free buffer. -/
theorem udpInterestIn_enters {rest : List ℕ} {name : List UInt8} (addr : SockaddrIn)
    (hcons : s.freebufList.contents = b :: rest) (hb : b < s.mem.length) (hwf : s.nutTable.WF)
    (hslots : s.nutTable.slots = []) (hroom : ¬ s.nutTable.Full) (hn : name.length ≤ maxNameLen) :
    ∃ s' o idx as, step s (.udpInterestIn (nameDgram name) addr allocOk) = .ok (s', o) ∧
      s'.nutTable.WF ∧ At s'.nutTable.slots idx (nutKey name) as ∧
      s'.freebufList.contents = rest ∧ s'.mem.length = s.mem.length ∧
      (∀ b', b ≠ b' → s'.frame b' = s.frame b') ∧
      s'.queue .realtosimData = s.queue .realtosimData ∧ s'.held = s.held := by
  have hlen := length_nameDgram name
  have hle : (nameDgram name).length ≤ 2048 := by
    unfold maxNameLen at hn
    omega
  have htake : (nameDgram name).take 2048 = nameDgram name := List.take_of_length_le hle
  obtain ⟨f, hf⟩ : ∃ f, (s.frame b).memcpy (nameDgram name) = .ok f :=
    SimpleNameData.memcpy_of_le hle
  obtain ⟨hfn, hname⟩ := name_of_nameDgram hn hf
  -- the table lists no name, so `nut_set` makes an entry
  have hnone : s.nutTable.abs (nutKey f.name) = none := by
    rw [Nut.abs, hslots]
    rfl
  obtain ⟨t, hset, habs, htwf⟩ : ∃ t, nutSet s.nutTable f.buf f.nlen addr allocOk.grow =
        .ok (t, (s.nutTable.abs.set (nutKey f.name) addr).2) ∧
      t.abs = (s.nutTable.abs.set (nutKey f.name) addr).1 ∧ t.WF :=
    nutSet_refines addr hwf (by rw [SimpleNameData.length_buf, hfn, bufSize]; omega)
      fun hgrows => absurd hgrows.1 hroom
  rw [AddrMap.set, hnone] at hset habs
  dsimp only at hset habs
  have hlook : lookup t.slots (nutKey f.name) = some [addr] := by
    change t.abs _ = _
    rw [habs, Function.update_self]
  obtain ⟨idx, hat⟩ := lookup_eq_some hlook
  rw [hname] at hat
  have hasInt : asInt f.nlen = f.nlen := asInt_of_lt (by omega)
  rw [← hasInt] at hset
  have hfill := fillBuffer_of_cons hcons hb allocOk.malloc (·.memcpy (nameDgram name))
  rw [hf, ok_bind] at hfill
  have hstep : step s (.udpInterestIn (nameDgram name) addr allocOk) = .ok ({ s with
      mem := s.mem.set b f
      freebufList := s.freebufList.dequeue.1
      nutTable := t
      queue := Function.update s.queue .simtorealInterest
        ((s.queue .simtorealInterest).enqueue b true) },
      [.recv .simtorealInterest (FwdQueue.simtorealInterest.dgramMessage (nameDgram name)),
        .nutSet f.name addr 1, .enqueue .simtorealInterest f]) := by
    show s.udpInterestIn (nameDgram name) addr allocOk = _
    rw [udpInterestIn, htake, if_neg (by omega), hfill]
    simp only [hset, bind, Except.bind, if_true]
    rfl
  refine ⟨_, _, idx, [addr], hstep, htwf, hat, Lfq.contents_dequeue_of_cons hcons, by simp,
    fun b' hne => ?_, by simp, rfl⟩
  simp [frame, List.getElem?_set_ne hne]

/-- With a requester, Data comes in through the second free buffer. -/
theorem forward_data (hR : s.Ready c) (hm : FwdQueue.realtosimData.CanSend m) :
    Reaches step s (forward .realtosimData m) fun _ h => ∃ f addr,
      .sendto .realtosimData f addr ∈ h ∧ FwdQueue.realtosimData.message f = m ∧
      f.buf.drop (m.name.length + m.content.length) =
        List.replicate (bufSize - (m.name.length + m.content.length)) c := by
  obtain ⟨rest, hfree⟩ := hR.free
  have hb : 0 < s.mem.length := Nat.zero_lt_of_lt hR.mem_length
  obtain ⟨s₁, o₁, idx, as, hin, hwf, hat, hfree₁, hmem₁, hframe₁, hqueue₁, hheld₁⟩ :=
    udpInterestIn_enters ⟨2, 1, 1⟩ hfree.symm hb hR.wf hR.slots hR.room hm.1
  have hdlen := dlen_ibuf_message hm
  have hfits := hm.2.1
  obtain ⟨f, hf⟩ : ∃ f, fillData m.ibuf (s.frame 1) = .ok f :=
    fillData_of_le _ (by rw [nlen_ibuf_message hm]; exact hm.1)
      (by rw [hdlen, maxDataLen]; unfold bufSize at hfits; omega)
      (Or.inr (by rw [hdlen, nlen_ibuf_message hm]; exact hfits))
  obtain ⟨hfrom, hmsg⟩ := fillData_eq_ok hf
  replace hmsg := hmsg (by rw [hdlen]; unfold bufSize at hfits; omega)
  rw [content_ibuf hm] at hmsg
  have hname : f.name = m.name := congrArg Message.name hmsg
  have hnlen : f.nlen ≤ bufSize := by
    have hle := hfrom.nlen_le
    unfold maxNameLen at hle
    unfold bufSize
    omega
  have hflen : f.dlen = m.content.length := by
    rw [← SimpleNameData.length_content hfrom.fits, ← hmsg]
    rfl
  -- the Interest has taken the buffer 0, so the Data gets the buffer 1
  rw [← hframe₁ 1 (by decide)] at hf
  obtain ⟨s₂, o₂, hrecv, hqueue₂, hframe₂, hb₂, hheld₂, hnut₂⟩ :=
    receive_of_cons hfree₁ (hmem₁ ▸ hR.mem_length) hf (by rw [hqueue₁]; exact hR.queue _) m.ibuf.content
  have hat₂ : At s₂.nutTable.slots idx (nutKey (s₂.frame 1).name) as := by
    rw [hframe₂, hnut₂, hname]
    exact hat
  have hout := udpDataOut_sends hqueue₂ hb₂ (by rw [hheld₂, hheld₁]; exact hR.held _)
    (by rw [hnut₂]; exact hwf) (by rw [hframe₂]; exact hnlen) hat₂
  rw [hframe₂] at hout
  refine .cons hin (.cons hrecv (hout.mono fun _ h hsend => ?_))
  obtain ⟨addr, hmem⟩ := hsend
  exact ⟨f, addr, List.mem_append_right _ (List.mem_append_right _ hmem), hmsg,
    rest_replicate hfrom hR.buf.2 hmsg hflen⟩

/-- A datagram of 2048 bytes, with content of the byte 255. -/
def fullDgram : List UInt8 := toLE 4 0 ++ toLE 4 2040 ++ List.replicate 2040 255

/-- Sixteen messages that fill all buffers, and are sent. -/
def earlier : List Event :=
  List.replicate 16 (.udpDataIn fullDgram allocOk) ++ List.replicate 32 (.nipDataOut true 1 true)

theorem ready_initAdaptor : (initAdaptor (fun _ => .zero) fun _ => .zero).Ready 0 := by
  have hI := initAdaptor_inv (fun _ => .zero) fun _ => .zero
  exact ⟨hI.wf, by decide +kernel, by decide, by decide +kernel, by decide +kernel, by decide,
    by decide +kernel, by decide +kernel⟩

theorem ready_earlier :
    Reaches step (initAdaptor (fun _ => .zero) fun _ => .zero) earlier fun s _ => s.Ready 255 := by
  have hrun : Reaches step (initAdaptor (fun _ => .zero) fun _ => .zero) earlier fun s _ =>
      [0, 1] <+: s.freebufList.contents ∧ 1 < s.mem.length ∧
      ((s.frame 0).buf = List.replicate bufSize 255 ∧ (s.frame 1).buf = List.replicate bufSize 255) ∧
      (∀ q, (s.queue q).contents = []) ∧ (∀ q, s.held q = none) ∧ s.nutTable.slots = [] ∧
      ¬ s.nutTable.Full := by decide +kernel
  obtain ⟨s, h, he, hfree, hmem, hbuf, hqueue, hheld, hslots, hroom⟩ := hrun
  exact ⟨s, h, he, (inv_run _ _ he).wf, hfree, hmem, hbuf, hqueue, hheld, hslots, hroom⟩

/-- From such a state a message that can be sent is sent with the byte `c` behind it. -/
theorem forward_sends (hR : s.Ready c) (hm : q.CanSend m) :
    Reaches step s (forward q m) fun _ h => ∃ f addr, .sendto q f addr ∈ h ∧ q.message f = m ∧
      f.buf.drop (m.name.length + m.content.length) =
        List.replicate (bufSize - (m.name.length + m.content.length)) c := by
  rcases hm.2.2 with ⟨rfl, -⟩ | rfl
  · exact forward_interest hR hm
  · exact forward_data hR hm

/-- A message that does not fill the buffer is sent with zeros behind it from new buffers, and with
bytes of an earlier message from recycled ones. -/
theorem sends_differ (hm : q.CanSend m) : ∃ f f',
    Sends (fun _ => .zero) (fun _ => .zero) (forward q m) q f ∧
    Sends (fun _ => .zero) (fun _ => .zero) (earlier ++ forward q m) q f' ∧
    q.message f = m ∧ q.message f' = m ∧
    f.buf.drop (m.name.length + m.content.length) =
      List.replicate (bufSize - (m.name.length + m.content.length)) 0 ∧
    f'.buf.drop (m.name.length + m.content.length) =
      List.replicate (bufSize - (m.name.length + m.content.length)) 255 := by
  obtain ⟨t, h, he, f, addr, hsend, hmsg, hrest⟩ := forward_sends ready_initAdaptor hm
  have hlater : Reaches step (initAdaptor (fun _ => .zero) fun _ => .zero) (earlier ++ forward q m)
      fun _ h => ∃ f addr, .sendto q f addr ∈ h ∧ q.message f = m ∧
        f.buf.drop (m.name.length + m.content.length) =
          List.replicate (bufSize - (m.name.length + m.content.length)) 255 := by
    refine .append (ready_earlier.mono fun s o hR => (forward_sends hR hm).mono ?_)
    rintro t os ⟨f, addr, hsend, hf⟩
    exact ⟨f, addr, List.mem_append_right o hsend, hf⟩
  obtain ⟨t', h', he', f', addr', hsend', hmsg', hrest'⟩ := hlater
  exact ⟨f, f', ⟨t, h, he, addr, hsend⟩, ⟨t', h', he', addr', hsend'⟩, hmsg, hmsg', hrest, hrest'⟩

theorem not_sentAlike (hm : q.CanSend m) (hne : m.name.length + m.content.length ≠ bufSize) :
    ¬ SentAlike q m := by
  intro halike
  obtain ⟨f, f', hsend, hsend', hmsg, hmsg', hrest, hrest'⟩ := sends_differ hm
  have hbytes := halike _ _ _ _ f f' hsend hsend' hmsg hmsg'
  rw [SimpleNameData.buf, hbytes, ← SimpleNameData.buf, hrest'] at hrest
  have hle := hm.2.1
  -- there is a byte behind the message, and it is 0 in one run and 255 in the other
  have hbyte := (List.replicate_inj.1 hrest).2.resolve_left (by omega)
  exact absurd hbyte (by decide)

/-- Any two runs that send a message send the same bytes if and only if the message fills the buffer,
or is none that can be sent. -/
theorem sent_alike_iff (q : FwdQueue) (m : Message) :
    SentAlike q m ↔ (q.CanSend m → m.name.length + m.content.length = bufSize) := by
  constructor
  · intro halike hm
    by_contra hne
    exact not_sentAlike hm hne halike
  · rintro hfull blocks junk evs evs' f f' hsend hsend' rfl hmsg
    obtain ⟨hq, hn, hfit⟩ := hsend.fits
    obtain ⟨-, -, hfit'⟩ := hsend'.fits
    exact bytes_eq_of_full hn hfit hfit' hmsg.symm (hfull (canSend_message hq hn hfit))

/-- The Interest `/a`, and Data of two bytes for it, are not sent alike. -/
theorem recycled_buffer_leaks : ¬ SentAlike .realtosimInterest ⟨[47, 97], []⟩ ∧
    ¬ SentAlike .realtosimData ⟨[47, 97], [104, 105]⟩ :=
  ⟨not_sentAlike ⟨by decide, by decide, Or.inl ⟨rfl, rfl⟩⟩ (by decide),
    not_sentAlike ⟨by decide, by decide, Or.inr rfl⟩ (by decide)⟩

end Adaptor

end MixSim
