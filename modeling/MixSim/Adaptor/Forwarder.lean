import MixSim.Adaptor.Forwarding

/-!
# What the adaptor is for

A forwarder: messages wait in four queues and are passed on in order; a map says which addresses wait
for which name, and the Data for a name goes to all of them. There are no buffers, frames and slots, no
allocator, and nothing to go wrong (`Forwarder.step`).

The adaptor is that forwarder (`refines_forwarder`): in every run in which what comes in fits and the
allocations succeed, without moving the table under a suspended `udp_data_out`, the two make the same
observations, with a message for each frame.
-/

namespace MixSim

open BufferPool Execution SlotTable

/-! ### The forwarder -/

/-- The addresses that wait for a name, the messages that wait in the queues, and what the four senders
have in hand: `interestPhase` and `dataPhase` say whether the datagram has left, and `i` how many
addresses the Data in hand has been sent to. -/
@[ext]
structure Forwarder where
  pending : AddrMap
  queue : FwdQueue → List Message
  inHand : FwdQueue → Option Message
  interestPhase : SendPhase
  dataPhase : SendPhase
  i : ℕ

/-- What is seen of a forwarder. -/
inductive MessageObs
  | recv (q : FwdQueue) (m : Message)
  | enqueue (q : FwdQueue) (m : Message)
  | dequeue (q : FwdQueue) (m : Message)
  | isend (q : FwdQueue) (m : Message) (ret : ℤ)
  | sendto (q : FwdQueue) (m : Message) (addr : SockaddrIn)
  | done (q : FwdQueue) (m : Message)
  | join (name : List UInt8) (addr : SockaddrIn) (ret : ℤ)
  deriving DecidableEq

namespace Forwarder

/-- A message joins a queue. -/
def put (w : Forwarder) (q : FwdQueue) (m : Message) : Forwarder :=
  { w with queue := Function.update w.queue q (w.queue q ++ [m]) }

/-- The sender of a queue takes the first message. -/
def take (w : Forwarder) (q : FwdQueue) : Option (Forwarder × Message) :=
  match w.queue q with
  | [] => none
  | m :: ms => some ({ w with
      queue := Function.update w.queue q ms
      inHand := Function.update w.inHand q (some m) }, m)

/-- The sender of a queue is done with its message. -/
def release (w : Forwarder) (q : FwdQueue) : Forwarder :=
  { w with inHand := Function.update w.inHand q none }

/-- A message comes in. -/
def receive (w : Forwarder) (q : FwdQueue) (m : Message) : Forwarder × List MessageObs :=
  (w.put q m, [.recv q m, .enqueue q m])

/-- A message is passed to the network stack. -/
def isend (w : Forwarder) (q : FwdQueue) (ready : Bool) (ret : ℤ) : Forwarder × List MessageObs :=
  match w.inHand q with
  | none =>
      match w.take q with
      | none => (w, [])
      | some (w, m) => (w, [.dequeue q m])
  | some m => if ready then (w.release q, [.isend q m ret, .done q m]) else (w, [])

/-- An Interest is passed to the simulator. -/
def interestOut (w : Forwarder) : Forwarder × List MessageObs :=
  match w.inHand .realtosimInterest with
  | none =>
      match w.take .realtosimInterest with
      | none => (w, [])
      | some (w, m) => ({ w with interestPhase := .before }, [.dequeue .realtosimInterest m])
  | some m =>
      match w.interestPhase with
      | .before => ({ w with interestPhase := .after },
          [.sendto .realtosimInterest m Adaptor.serveraddr])
      | .after => (w.release .realtosimInterest, [.done .realtosimInterest m])

/-- An Interest comes in from an address; it is passed on unless the address waits already, or too many
others do. -/
def interestIn (w : Forwarder) (m : Message) (addr : SockaddrIn) : Forwarder × List MessageObs :=
  let (pending, ret) := w.pending.set (nutKey m.name) addr
  let w := { w with pending := pending }
  let o := [.recv .simtorealInterest m, .join m.name addr ret]
  if ret = 1 then (w.put .simtorealInterest m, o ++ [.enqueue .simtorealInterest m]) else (w, o)

/-- Data is passed to those who wait for it, one after the other, also to those who join meanwhile. -/
def dataOut (w : Forwarder) : Forwarder × List MessageObs :=
  match w.inHand .realtosimData with
  | none =>
      match w.take .realtosimData with
      | none => (w, [])
      | some (w, m) =>
          match w.pending (nutKey m.name) with
          | none => (w.release .realtosimData, [.dequeue .realtosimData m])
          | some _ => ({ w with i := 0, dataPhase := .before }, [.dequeue .realtosimData m])
  | some m =>
      let waiting := (w.pending (nutKey m.name)).getD []
      match w.dataPhase with
      | .before =>
          match waiting[w.i]? with
          | none => (w, [])
          | some a => ({ w with dataPhase := .after }, [.sendto .realtosimData m a])
      | .after =>
          if w.i + 1 < waiting.length then ({ w with i := w.i + 1, dataPhase := .before }, [])
          else ({ w with pending := w.pending.del (nutKey m.name) }.release .realtosimData,
            [.done .realtosimData m])

/-- What the forwarder does at an event of the adaptor; it takes no notice of allocations. -/
def turn (w : Forwarder) : Event → Forwarder × List MessageObs
  | .nipInterestIn none _ | .nipDataIn none _ => (w, [])
  | .nipInterestIn (some ibuf) _ => w.receive .realtosimInterest ibuf.interest
  | .nipDataIn (some ibuf) _ => w.receive .realtosimData ibuf.content
  | .nipInterestOut waitWrite isend _ => w.isend .simtorealInterest waitWrite isend
  | .nipDataOut waitWrite isend _ => w.isend .simtorealData waitWrite isend
  | .udpInterestIn datagram clientaddr _ =>
      if datagram = [] then (w, [])
      else w.interestIn (FwdQueue.simtorealInterest.dgramMessage datagram) clientaddr
  | .udpDataIn datagram _ =>
      if datagram = [] then (w, [])
      else w.receive .simtorealData (FwdQueue.simtorealData.dgramMessage datagram)
  | .udpInterestOut _ => w.interestOut
  | .udpDataOut _ => w.dataOut

/-- A step of the forwarder, which never faults. -/
def step : Step Forwarder Event MessageObs Empty := fun w ev => .ok (w.turn ev)

/-- Nobody waits, and nothing is on its way. -/
def init : Forwarder := ⟨fun _ => none, fun _ => [], fun _ => none, .before, .before, 0⟩

end Forwarder

/-! ### The adaptor as a forwarder -/

/-- What is seen of an observation of the adaptor. -/
def Obs.message : Obs → MessageObs
  | .recv q m => .recv q m
  | .enqueue q f => .enqueue q (q.message f)
  | .dequeue q f => .dequeue q (q.message f)
  | .isend q m ret => .isend q m ret
  | .sendto q f addr => .sendto q (q.message f) addr
  | .done q f => .done q (q.message f)
  | .nutSet name addr ret => .join name addr ret

namespace Adaptor

/-- The forwarder that a state of the adaptor stands for. -/
def forwarder (s : Adaptor) : Forwarder where
  pending := s.nutTable.abs
  queue q := (s.waiting q).map q.message
  inHand q := (s.held q).map fun b => q.message (s.frame b)
  interestPhase := s.interestPhase
  dataPhase := s.dataPhase
  i := s.i

variable {s s' : Adaptor} {o : List Obs} {q : FwdQueue} {b : ℕ} {f : SimpleNameData}
  {ts : List (Travel Place SimpleNameData)}

/-! ### Operations on buffers -/

/-- Hands that a step leaves alone. -/
theorem Traffic.inHand (hT : Traffic s s' o ts) (h : s.Sound) (hheld : s'.held q = s.held q)
    (hd : MixSim.dequeued q o = []) : s'.forwarder.inHand q = s.forwarder.inHand q := by
  rcases hb : s.held q with _ | b
  · simp [forwarder, hheld, hb]
  · simp [forwarder, hheld, hb, hT.frame_eq h.owned hb (hheld.trans hb) hd]

/-- A step that takes nothing off its queues. -/
theorem Traffic.queue (hT : Traffic s s' o ts) (h : s.Sound) (hd : MixSim.dequeued q o = []) :
    s'.forwarder.queue q = s.forwarder.queue q ++ (MixSim.enqueued q o).map q.message := by
  have hw := hT.waiting h.owned q
  rw [hd, List.nil_append] at hw
  simp [forwarder, hw]

/-- `lfq_dequeue` takes the first message, by a sender that has none in hand. -/
theorem take_forwarder (h : s.Sound) (hheld : s.held q = none) :
    (s.forwarder.take q = none ∧ ∃ s', s.take q = .ok (s', none) ∧ s'.forwarder = s.forwarder) ∨
    ∃ b s', s.frame b ∈ s.waiting q ∧ s.take q = .ok (s', some (b, s.frame b)) ∧
      s' = { s with queue := s'.queue, held := Function.update s.held q (some b) } ∧
      s.forwarder.take q = some (s'.forwarder, q.message (s.frame b)) := by
  rcases (s.queue q).dequeue_cases with ⟨hnil, hret, hrest⟩ | ⟨b, rest, hcons, hret, hrest⟩
  · left
    refine ⟨by simp [Forwarder.take, forwarder, waiting, hnil],
      { s with queue := Function.update s.queue q (s.queue q).dequeue.1 },
      by simp only [take, hret], Forwarder.ext rfl ?_ rfl rfl rfl rfl⟩
    funext q'
    by_cases hq : q' = q
    · subst hq
      simp [forwarder, waiting, hnil, hrest]
    · simp [forwarder, waiting, frame, hq]
  · right
    have hb : b < s.mem.length := h.owned.lt (x := Place.queue q) (by
      show b ∈ (s.queue q).contents
      rw [hcons]
      exact List.mem_cons_self)
    refine ⟨b, _, by simp [waiting, hcons], take_of_cons hcons hb, rfl, ?_⟩
    have hqueue : s.forwarder.queue q = q.message (s.frame b) :: rest.map (q.message ∘ s.frame) := by
      simp [forwarder, waiting, hcons]
    simp only [Forwarder.take, hqueue, Option.some.injEq, Prod.mk.injEq, and_true]
    refine Forwarder.ext rfl ?_ ?_ rfl rfl rfl
    · funext q'
      by_cases hq : q' = q
      · subst hq
        simp [forwarder, waiting, frame, hrest]
      · simp [forwarder, waiting, frame, hq]
    · funext q'
      by_cases hq : q' = q
      · subst hq
        simp [forwarder, frame]
      · simp [forwarder, frame, hq]

theorem drop_forwarder (s : Adaptor) (q : FwdQueue) :
    ({ s with held := Function.update s.held q none } : Adaptor).forwarder = s.forwarder.release q := by
  refine Forwarder.ext rfl rfl ?_ rfl rfl rfl
  funext q'
  by_cases hq : q' = q
  · subst hq
    simp [forwarder, Forwarder.release]
  · simp [forwarder, Forwarder.release, frame, hq]

/-- `lfq_enqueue(&freebuf_list, …)` leaves the hand of the sender empty. -/
theorem release_forwarder (s : Adaptor) (q : FwdQueue) (b : ℕ) (calloc : Bool) :
    (s.release q b calloc).forwarder = s.forwarder.release q := drop_forwarder s q

/-! ### The coroutines -/

section Coroutines

variable {m : Message} {fill : SimpleNameData → Except Fault SimpleNameData} {alloc : Alloc}
  {calloc waitWrite : Bool} {isend : ℤ} {dlen : SimpleNameData → ℕ}

/-- A message in a buffer joins a queue. -/
theorem receive_forwarder (h : s.Sound) (hc : alloc.calloc = true)
    (hm : ∀ f ∈ s.filled alloc.malloc fill, q.message f = m)
    (hs : s.receive q m fill alloc = .ok (s', o)) :
    s.forwarder.receive q m = (s'.forwarder, o.map Obs.message) := by
  have ht := receive_turn h q m fill alloc
  rw [hs] at ht
  obtain ⟨ts, hT, -⟩ := ht.traffic
  cases ht with
  | ok hget hfill hsrc hmove =>
    rename_i d f src old mem free queue
    have hd : ∀ q', MixSim.dequeued q' (.recv q m :: if alloc.calloc then [.enqueue q f] else []) = [] :=
      fun q' => by simp [hc, MixSim.dequeued, Obs.takes]
    refine Prod.ext ?_ (by simp [Forwarder.receive, Obs.message, hc, hm f hget])
    refine Forwarder.ext rfl ?_ ?_ rfl rfl rfl
    · funext q'
      rw [hT.queue h (hd q')]
      by_cases hq : q' = q
      · subst hq
        simp [Forwarder.receive, Forwarder.put, MixSim.enqueued, Obs.puts, hc, hm f hget]
      · simp [Forwarder.receive, Forwarder.put, MixSim.enqueued, Obs.puts, hc, hq, Ne.symm hq]
    · funext q'
      exact (hT.inHand h rfl (hd q')).symm

theorem isendFrames_forwarder (h : s.Sound)
    (hcontent : ∀ f : SimpleNameData, (f.buf.drop f.nlen).take (dlen f) = (q.message f).content)
    (hs : s.isendFrames q dlen waitWrite isend calloc = .ok (s', o)) :
    s.forwarder.isend q waitWrite isend = (s'.forwarder, o.map Obs.message) := by
  rw [isendFrames] at hs
  rcases hheld : s.held q with _ | b
  · have hin : s.forwarder.inHand q = none := by simp [forwarder, hheld]
    simp only [hheld] at hs
    rcases take_forwarder h hheld with ⟨htake, s₁, hget, hw⟩ | ⟨b, s₁, -, hget, -, htake⟩
    · simp only [hget, ok_bind] at hs
      cases hs
      simp [Forwarder.isend, hin, htake, hw]
    · simp only [hget, ok_bind] at hs
      cases hs
      simp [Forwarder.isend, hin, htake, Obs.message]
  · have hin : s.forwarder.inHand q = some (q.message (s.frame b)) := by simp [forwarder, hheld]
    simp only [hheld] at hs
    cases waitWrite with
    | false =>
      cases hs
      simp [Forwarder.isend, hin]
    | true =>
      simp only [Bool.not_true, Bool.false_eq_true, if_false, read_of_lt (h.held_lt hheld),
        ok_bind] at hs
      obtain ⟨name, hname, hs⟩ := bind_eq_ok hs
      obtain ⟨content, hcon, hs⟩ := bind_eq_ok hs
      cases hs
      have hfit : (s.frame b).nlen + dlen (s.frame b) ≤ bufSize := by
        by_contra hbig
        rw [SimpleNameData.readBuf, if_neg hbig] at hcon
        cases hcon
      have hnlen : (s.frame b).nlen % 2 ^ 16 = (s.frame b).nlen :=
        Nat.mod_eq_of_lt (by unfold bufSize at hfit; omega)
      rw [SimpleNameData.readBuf, if_pos hfit, hcontent, Except.ok.injEq] at hcon
      rw [SimpleNameData.readBuf, hnlen, if_pos (by omega), List.drop_zero, Except.ok.injEq] at hname
      rw [← hcon, ← hname]
      simp only [Forwarder.isend, hin, if_true, release_forwarder]
      rfl

theorem udpInterestOut_forwarder (h : s.Sound) (hs : s.udpInterestOut calloc = .ok (s', o)) :
    s.forwarder.interestOut = (s'.forwarder, o.map Obs.message) := by
  rw [udpInterestOut] at hs
  rcases hheld : s.held .realtosimInterest with _ | b
  · have hin : s.forwarder.inHand .realtosimInterest = none := by simp [forwarder, hheld]
    simp only [hheld] at hs
    rcases take_forwarder h hheld with ⟨htake, s₁, hget, hw⟩ | ⟨b, s₁, -, hget, -, htake⟩
    · simp only [hget, ok_bind] at hs
      cases hs
      simp [Forwarder.interestOut, hin, htake, hw]
    · simp only [hget, ok_bind] at hs
      cases hs
      simp only [Forwarder.interestOut, hin, htake]
      rfl
  · have hin : s.forwarder.inHand .realtosimInterest =
        some (FwdQueue.realtosimInterest.message (s.frame b)) := by simp [forwarder, hheld]
    have hphase : s.forwarder.interestPhase = s.interestPhase := rfl
    simp only [hheld] at hs
    cases hp : s.interestPhase with
    | before =>
      simp only [hp, read_of_lt (h.held_lt hheld), ok_bind] at hs
      cases hs
      simp only [Forwarder.interestOut, hin, hphase, hp]
      rfl
    | after =>
      simp only [hp] at hs
      cases hs
      simp only [Forwarder.interestOut, hin, hphase, hp, release_forwarder]
      rfl

/-- `udp_interest_in`, with a frame that holds the message of the datagram. -/
theorem udpInterestIn_forwarder {datagram : List UInt8} {addr : SockaddrIn} (h : s.Sound)
    (hc : alloc.calloc = true) (hne : datagram ≠ [])
    (hm : ∀ f ∈ s.filled alloc.malloc (·.memcpy (datagram.take 2048)),
      FwdQueue.simtorealInterest.message f = m)
    (hdm : FwdQueue.simtorealInterest.dgramMessage (datagram.take 2048) = m)
    (hs : s.udpInterestIn datagram addr alloc = .ok (s', o)) :
    s.forwarder.interestIn m addr = (s'.forwarder, o.map Obs.message) := by
  have ht := udpInterestIn_turn h datagram addr alloc
  rw [hs] at ht
  obtain ⟨ts, hT, -⟩ := ht.traffic
  cases ht with
  | empty hbuf => simp [hne] at hbuf
  | accepted hne' hget hfill hnlen hset hsrc hmove =>
    rename_i d f t src old mem free queue
    have hname : m.name = f.name := by rw [← hm f hget]; rfl
    have hset' : s.forwarder.pending.set (nutKey m.name) addr = (t.abs, 1) := by
      rw [hname]
      exact hset.refines h.wf
    simp only [hc, if_true, hdm] at hT ⊢
    simp only [Forwarder.interestIn, hset', if_true]
    refine Prod.ext ?_ (by simp [Obs.message, hm f hget, hname])
    refine Forwarder.ext rfl ?_ ?_ rfl rfl rfl
    · funext q'
      rw [hT.queue h (by simp [MixSim.dequeued, Obs.takes])]
      by_cases hq : q' = .simtorealInterest
      · subst hq
        simp [Forwarder.put, MixSim.enqueued, Obs.puts, hm f hget]
      · simp [Forwarder.put, MixSim.enqueued, Obs.puts, hq, Ne.symm hq]
    · funext q'
      exact (hT.inHand h rfl (by simp [MixSim.dequeued, Obs.takes])).symm
  | dropped hne' hget hfill hnlen hset hret hsrc hmove =>
    rename_i d f t ret src old mem free
    have hname : m.name = f.name := by rw [← hm f hget]; rfl
    have hset' : s.forwarder.pending.set (nutKey m.name) addr = (t.abs, ret) := by
      rw [hname]
      exact hset.refines h.wf
    simp only [hdm] at hT ⊢
    simp only [Forwarder.interestIn, hset', if_neg hret]
    refine Prod.ext ?_ (by simp [Obs.message, hname])
    refine Forwarder.ext rfl ?_ ?_ rfl rfl rfl
    · funext q'
      rw [hT.queue h (by simp [MixSim.dequeued, Obs.takes])]
      simp [MixSim.enqueued, Obs.puts]
    · funext q'
      exact (hT.inHand h rfl (by simp [MixSim.dequeued, Obs.takes])).symm

theorem udpDataOut_forwarder (h : s.Sound) (hA : s.Anchored)
    (hn : ∀ f ∈ s.waiting .realtosimData, f.nlen ≤ bufSize)
    (hs : s.udpDataOut calloc = .ok (s', o)) :
    s.forwarder.dataOut = (s'.forwarder, o.map Obs.message) := by
  rw [udpDataOut] at hs
  rcases hheld : s.held .realtosimData with _ | b
  · have hin : s.forwarder.inHand .realtosimData = none := by simp [forwarder, hheld]
    simp only [hheld] at hs
    rcases take_forwarder h hheld with ⟨htake, s₁, hget, hw⟩ | ⟨b, s₁, hmem, hget, hs₁, htake⟩
    · simp only [hget, ok_bind] at hs
      cases hs
      simp [Forwarder.dataOut, hin, htake, hw]
    · have hnut : s₁.nutTable = s.nutTable := by rw [hs₁]
      have hle := hn _ hmem
      have hwf : s₁.nutTable.WF := hnut ▸ h.wf
      have hpending : s₁.forwarder.pending = lookup s₁.nutTable.slots := rfl
      have hnlen : (s.frame b).nlen < 2 ^ 31 := by
        unfold bufSize at hle
        omega
      have hbuf : (s.frame b).nlen ≤ (s.frame b).buf.length := by
        rw [SimpleNameData.length_buf]
        exact hle
      have hnut := nutGet_eq hwf hbuf
      simp only [hget, ok_bind, asInt_of_lt hnlen, hnut] at hs
      rcases hfind : find (nutKey (s.frame b).name) s₁.nutTable.slots with _ | ⟨idx, as⟩
      · have hkey : s₁.forwarder.pending
            (nutKey (FwdQueue.realtosimData.message (s.frame b)).name) = none := by
          rw [hpending, lookup]
          exact congrArg (Option.map Prod.snd) hfind
        rw [SimpleNameData.name] at hfind
        simp only [hfind, Option.map_none] at hs
        cases hs
        simp only [Forwarder.dataOut, hin, htake, hkey, drop_forwarder]
        rfl
      · have hat := find_eq_some hfind
        have hkey : s₁.forwarder.pending
            (nutKey (FwdQueue.realtosimData.message (s.frame b)).name) = some as := by
          rw [hpending, lookup]
          exact congrArg (Option.map Prod.snd) hfind
        rw [SimpleNameData.name] at hfind
        simp only [hfind, Option.map_some] at hs
        rcases udpDataLoop_at (s := { s₁ with entry := ⟨s₁.nutTable.arr, idx⟩ }) (b := b) (i := 0)
          hwf rfl hat calloc with ⟨-, hloop⟩ | ⟨hlen, -⟩
        · simp only [hloop, ok_bind] at hs
          cases hs
          simp only [Forwarder.dataOut, hin, htake, hkey]
          rfl
        · have hpos := (hwf.at_addrs hat).1
          omega
  · have hin : s.forwarder.inHand .realtosimData =
        some (FwdQueue.realtosimData.message (s.frame b)) := by simp [forwarder, hheld]
    have hphase : s.forwarder.dataPhase = s.dataPhase := rfl
    have harr := hA b hheld
    obtain ⟨as, hat, hi⟩ := h.entry b hheld harr
    have hpending : s.forwarder.pending (nutKey (s.frame b).name) = some as := hat.lookup h.wf.unique
    have haddr : nutAddr s.nutTable s.entry s.i = .ok as[s.i] := by
      have := nutAddr_at hat hi
      rwa [← harr] at this
    simp only [hheld] at hs
    cases hp : s.dataPhase with
    | before =>
      simp only [hp, haddr, read_of_lt (h.held_lt hheld), ok_bind] at hs
      cases hs
      have hget : as[s.forwarder.i]? = some as[s.i] := List.getElem?_eq_getElem hi
      have hkey : s.forwarder.pending
          (nutKey (FwdQueue.realtosimData.message (s.frame b)).name) = some as := hpending
      simp only [Forwarder.dataOut, hin, hphase, hp, hkey, Option.getD_some, hget]
      rfl
    | after =>
      simp only [hp, haddr, ok_bind] at hs
      have hkey : s.forwarder.pending
          (nutKey (FwdQueue.realtosimData.message (s.frame b)).name) = some as := hpending
      rcases udpDataLoop_at (b := b) (i := s.i + 1) h.wf harr hat calloc with
        ⟨hlt, hloop⟩ | ⟨hle, t, hwf, hslots, hloop⟩
      · rw [hloop] at hs
        cases hs
        have hlt' : s.forwarder.i + 1 < as.length := hlt
        simp only [Forwarder.dataOut, hin, hphase, hp, hkey, Option.getD_some, if_pos hlt']
        rfl
      · rw [hloop] at hs
        cases hs
        have hle' : ¬ s.forwarder.i + 1 < as.length := not_lt.2 hle
        have hdel : s.forwarder.pending.del
            (nutKey (FwdQueue.realtosimData.message (s.frame b)).name) = t.abs :=
          (abs_clear h.wf hat hslots).symm
        simp only [Forwarder.dataOut, hin, hphase, hp, hkey, Option.getD_some, if_neg hle', hdel,
          release_forwarder]
        rfl

end Coroutines

/-! ### The refinement -/

/-- What comes in fits, the allocations succeed, and the table does not grow under a suspended
`udp_data_out`. -/
def Smooth (s : Adaptor) (ev : Event) : Prop :=
  (ev.Assumed ∧ ev.DataFits) ∧ s.AllocOk ev ∧ s.NoGrowth ev

instance (s : Adaptor) (ev : Event) : Decidable (s.Smooth ev) :=
  inferInstanceAs (Decidable ((_ ∧ _) ∧ _ ∧ _))

/-- The states that such steps lead to. -/
def Tidy (s : Adaptor) : Prop := ∃ h, s.FitInv h ∧ s.Anchored

/-- Where a step of the adaptor does not fault, it is a turn of the forwarder. -/
theorem step_forwarder {ev : Event} (hT : s.Tidy) (hG : s.Smooth ev)
    (hs : step s ev = .ok (s', o)) : s.forwarder.turn ev = (s'.forwarder, o.map Obs.message) := by
  obtain ⟨h, hI, hA⟩ := hT
  obtain ⟨⟨ha, hd⟩, halloc, hgrow⟩ := hG
  have hsound := hI.toSound
  have hmessage : ∀ {a : Arrival}, a ∈ arrival ev → ∀ f ∈ s.filled a.malloc a.fill,
      a.queue.message f = a.message := fun harr f hf => Assumed.message hsound ha harr hf
  cases ev with
  | nipInterestIn irecv alloc =>
    cases irecv with
    | none =>
      cases hs
      rfl
    | some ibuf => exact receive_forwarder hsound halloc.2 (hmessage rfl) hs
  | nipDataIn irecv alloc =>
    cases irecv with
    | none =>
      cases hs
      rfl
    | some ibuf => exact receive_forwarder hsound halloc.2 (hmessage rfl) hs
  | nipInterestOut waitWrite isend calloc =>
    exact isendFrames_forwarder hsound (fun f => by simp [FwdQueue.message, FwdQueue.isData]) hs
  | nipDataOut waitWrite isend calloc =>
    exact isendFrames_forwarder hsound
      (fun f => by simp [FwdQueue.message, FwdQueue.isData, SimpleNameData.content]) hs
  | udpInterestIn datagram addr alloc =>
    by_cases hne : datagram = []
    · subst hne
      cases hs
      rfl
    · have hle := (ha.resolve_left hne).2
      have htake : datagram.take 2048 = datagram := List.take_of_length_le hle
      have hturn : s.forwarder.turn (.udpInterestIn datagram addr alloc) =
          s.forwarder.interestIn (FwdQueue.simtorealInterest.dgramMessage datagram) addr := if_neg hne
      rw [hturn]
      refine udpInterestIn_forwarder hsound (halloc hne).2.1 hne ?_ (by rw [htake]) hs
      have hm := hmessage (a := ⟨_, _, _, _⟩) (if_neg hne)
      simpa only [htake] using hm
  | udpDataIn datagram alloc =>
    by_cases hne : datagram = []
    · subst hne
      cases hs
      rfl
    · have hle := (ha.resolve_left hne).2
      have htake : datagram.take 4096 = datagram := List.take_of_length_le (hle.trans (by decide))
      have hturn : s.forwarder.turn (.udpDataIn datagram alloc) =
          s.forwarder.receive .simtorealData (FwdQueue.simtorealData.dgramMessage datagram) :=
        if_neg hne
      have hnil : ¬ (datagram.take 4096).length = 0 := by
        rw [htake, List.length_eq_zero_iff]
        exact hne
      have hs' : s.receive .simtorealData (FwdQueue.simtorealData.dgramMessage (datagram.take 4096))
          (·.memcpy (datagram.take 4096)) alloc = .ok (s', o) := (if_neg hnil).symm.trans hs
      rw [hturn]
      rw [htake] at hs'
      have hm := hmessage (a := ⟨_, _, _, _⟩) (if_neg hne)
      exact receive_forwarder hsound (halloc hne).2 (by simpa only [htake] using hm) hs'
  | udpInterestOut calloc => exact udpInterestOut_forwarder hsound hs
  | udpDataOut calloc =>
    refine udpDataOut_forwarder hsound hA (fun f hf => ?_) hs
    exact (hI.fits _ f (hI.waiting_mem hf)).nlen_le

/-- The steps of the adaptor are those of the forwarder. -/
theorem adaptor_refines :
    Refines (mapOut Obs.message step) Forwarder.step Smooth Tidy forwarder := by
  intro s ev hT hG
  obtain ⟨h, hI, hA⟩ := hT
  have hfits := frameFits_of_assumed hI.toSound hG.1.1 hG.1.2
  have ht := step_turn hI.toSound ev
  rcases hs : step s ev with e | ⟨s', o⟩
  · rw [hs] at ht
    rcases ht.fault hI hfits with ⟨-, hoom⟩ | ⟨-, hdangling⟩
    · exact absurd hG.2.1 hoom
    · exact absurd hA hdangling
  · rw [hs] at ht
    refine ⟨s', o.map Obs.message, by rw [mapOut, hs]; rfl, ?_, h ++ o, fitInv_step hI hfits hs,
      ht.anchored hG.2.2 hA⟩
    rw [Forwarder.step, step_forwarder ⟨h, hI, hA⟩ hG hs]

/-- A run of the adaptor is one of the forwarder. -/
theorem Tidy.simulates {evs : List Event} (hT : s.Tidy) (hG : Along step Smooth s evs) :
    ∃ t h, exec step s evs = .ok (t, h) ∧
      exec Forwarder.step s.forwarder evs = .ok (t.forwarder, h.map Obs.message) ∧ t.Tidy := by
  obtain ⟨t, os, hs, hw, hT'⟩ := adaptor_refines.exec hT (hG.mapOut Obs.message)
  rw [exec_mapOut] at hs
  rcases he : exec step s evs with e | ⟨t', h⟩
  · rw [he] at hs
    cases hs
  · rw [he] at hs
    cases hs
    exact ⟨_, h, rfl, hw, hT'⟩

section Runs

variable (blocks : Fin 16 → SimpleNameData) (junk : ℕ → NutEntry)

theorem initAdaptor_forwarder : (initAdaptor blocks junk).forwarder = Forwarder.init := by
  obtain ⟨-, hslots⟩ := nutCreate_wf 64 junk
  refine Forwarder.ext ?_ ?_ rfl rfl rfl rfl
  · funext k
    show lookup (nutCreate 64 junk).slots k = none
    rw [hslots]
    rfl
  · funext q
    have hnil : ((initAdaptor blocks junk).queue q).contents = [] := Lfq.contents_init 0
    simp [forwarder, waiting, hnil, Forwarder.init]

theorem initAdaptor_tidy : (initAdaptor blocks junk).Tidy :=
  ⟨[], initAdaptor_fitInv blocks junk, fun b hb => by cases hb⟩

/-- As long as what comes in fits, and the allocations succeed without moving the table under a
suspended `udp_data_out`, the adaptor does not fault and cannot be told from the forwarder: in every
order of the coroutines it makes the same observations. -/
theorem refines_forwarder {evs : List Event}
    (hG : Along step Smooth (initAdaptor blocks junk) evs) :
    ∃ s h w, exec step (initAdaptor blocks junk) evs = .ok (s, h) ∧
      exec Forwarder.step Forwarder.init evs = .ok (w, h.map Obs.message) ∧ s.forwarder = w := by
  obtain ⟨s, h, hs, hw, -⟩ := (initAdaptor_tidy blocks junk).simulates hG
  rw [initAdaptor_forwarder] at hw
  exact ⟨s, h, s.forwarder, hs, hw, rfl⟩

/-- Two requesters, and the Data for them. -/
theorem refines_forwarder_exchange : ∃ s h w,
    exec step (initAdaptor (fun _ => .zero) fun _ => .zero) exchange = .ok (s, h) ∧
      exec Forwarder.step Forwarder.init exchange = .ok (w, h.map Obs.message) ∧ s.forwarder = w :=
  refines_forwarder _ _ (by decide +kernel)

end Runs

end Adaptor

end MixSim
