import MixSim.Adaptor.Filling
import MixSim.Adaptor.Invariant

/-!
# Forwarding through recycled buffers

Under the assumptions about the peers (`Event.Assumed`), every queued frame fits its buffer as long
as every Data from the network stack does (`queued_frames_fit`). When the allocations succeed and
the table does not grow under a suspended `udp_data_out`, no run faults, each queue hands over the
messages it was given, in order and unaltered, every send uses the frame taken off last, and what is
taken off is sent once (`forwarding_in_order`).
-/

namespace MixSim

open BufferPool Execution SlotTable

/-- What is assumed of the peers: `irecv` stays within the capacities it was given, and datagrams
are well formed and at most as long as a frame. -/
def Event.Assumed : Event → Prop
  | .nipInterestIn (some ibuf) _ | .nipDataIn (some ibuf) _ =>
      ibuf.nlen.toNat ≤ maxNameLen ∧ ibuf.dlen.toNat ≤ maxDataLen
  | .udpInterestIn datagram _ _ | .udpDataIn datagram _ =>
      datagram = [] ∨ WellFormed datagram ∧ datagram.length ≤ frameSize
  | _ => True

/-- Name and content of Data from the network stack fit a buffer together. -/
def Event.DataFits : Event → Prop
  | .nipDataIn (some ibuf) _ =>
      ibuf.dType = dNack ∨ ibuf.nlen.toNat + ibuf.dlen.toNat ≤ bufSize
  | _ => True

instance : (ev : Event) → Decidable ev.Assumed
  | .nipInterestIn (some _) _ | .nipDataIn (some _) _ => inferInstanceAs (Decidable (_ ∧ _))
  | .udpInterestIn _ _ _ | .udpDataIn _ _ => inferInstanceAs (Decidable (_ ∨ _))
  | .nipInterestIn none _ | .nipDataIn none _ | .nipInterestOut _ _ _ | .nipDataOut _ _ _
  | .udpInterestOut _ | .udpDataOut _ => isTrue trivial

instance : (ev : Event) → Decidable ev.DataFits
  | .nipDataIn (some _) _ => inferInstanceAs (Decidable (_ ∨ _))
  | .nipDataIn none _ | .nipInterestIn _ _ | .nipInterestOut _ _ _ | .nipDataOut _ _ _
  | .udpInterestIn _ _ _ | .udpDataIn _ _ | .udpInterestOut _ | .udpDataOut _ => isTrue trivial

/-- What the sender of a queue hands on: to `isend`, or to `sendto` for the simulator. Data goes to as many
addresses as wait for it. -/
def Obs.handsOn : FwdQueue → Obs → List Message
  | .simtorealInterest, .isend .simtorealInterest m _ => [m]
  | .simtorealData, .isend .simtorealData m _ => [m]
  | .realtosimInterest, .sendto .realtosimInterest f addr =>
      if addr = Adaptor.serveraddr then [FwdQueue.realtosimInterest.message f] else []
  | _, _ => []

theorem Obs.isend_of_handsOn {q : FwdQueue} {m : Message} {o : List Obs}
    (hq : q = .simtorealInterest ∨ q = .simtorealData) (hm : m ∈ o.flatMap (handsOn q)) :
    ∃ ret, .isend q m ret ∈ o := by
  obtain ⟨x, hx, hm⟩ := List.mem_flatMap.1 hm
  have hret : ∃ ret, x = .isend q m ret := by
    rcases hq with rfl | rfl <;> cases x with
    | isend q' m' ret => cases q' <;> simp_all [handsOn]
    | _ => simp [handsOn] at hm
  obtain ⟨ret, rfl⟩ := hret
  exact ⟨ret, hx⟩

theorem Obs.sendto_of_handsOn {m : Message} {o : List Obs}
    (hm : m ∈ o.flatMap (handsOn .realtosimInterest)) :
    ∃ f, FwdQueue.realtosimInterest.message f = m ∧
      .sendto .realtosimInterest f Adaptor.serveraddr ∈ o := by
  obtain ⟨x, hx, hm⟩ := List.mem_flatMap.1 hm
  cases x with
  | sendto q' f addr =>
    cases q' with
    | realtosimInterest =>
      by_cases ha : addr = Adaptor.serveraddr
      · rw [handsOn, if_pos ha, List.mem_singleton] at hm
        exact ⟨f, hm.symm, ha ▸ hx⟩
      · rw [handsOn, if_neg ha] at hm
        cases hm
    | _ => cases hm
  | _ => cases hm

namespace Adaptor

/-- What comes in fits a buffer. The header of a datagram shorter than 8 bytes is in part what the
buffer held before, so this is about the filled frame. -/
def FrameFits (s : Adaptor) : Event → Prop
  | .nipInterestIn (some ibuf) _ => ibuf.nlen.toNat ≤ maxNameLen
  | .nipDataIn (some ibuf) _ => ibuf.nlen.toNat ≤ maxNameLen ∧ ibuf.dlen.toNat ≤ maxDataLen ∧
      (ibuf.dType = dNack ∨ ibuf.nlen.toNat + ibuf.dlen.toNat ≤ bufSize)
  | .udpInterestIn datagram _ alloc | .udpDataIn datagram alloc => datagram.length ≤ frameSize ∧
      (datagram ≠ [] → ∀ f ∈ s.filled alloc.malloc (·.memcpy datagram), f.Fits)
  | _ => True

/-- The allocations of the step succeed. -/
def AllocOk (s : Adaptor) : Event → Prop
  | .nipInterestIn none _ | .nipDataIn none _ => True
  | .nipInterestIn (some _) alloc | .nipDataIn (some _) alloc =>
      alloc.malloc.isSome ∧ alloc.calloc = true
  | .udpDataIn datagram alloc => datagram ≠ [] → alloc.malloc.isSome ∧ alloc.calloc = true
  | .nipInterestOut _ _ calloc | .nipDataOut _ _ calloc | .udpInterestOut calloc
  | .udpDataOut calloc => calloc = true
  | .udpInterestIn datagram _ alloc => datagram ≠ [] → alloc.malloc.isSome ∧ alloc.calloc = true ∧
      ∀ f ∈ s.filled alloc.malloc (·.memcpy (datagram.take 2048)),
        s.nutTable.Grows (nutKey f.name) →
          alloc.grow.isSome ∧ nutNextCap s.nutTable.tableCap < 2 ^ 31

/-- The table does not grow while `udp_data_out` holds a pointer into it. -/
def NoGrowth (s : Adaptor) : Event → Prop
  | .udpInterestIn datagram _ alloc => datagram ≠ [] → s.held .realtosimData ≠ none →
      ∀ f ∈ s.filled alloc.malloc (·.memcpy (datagram.take 2048)),
        ¬ s.nutTable.Grows (nutKey f.name)
  | _ => True

instance (s : Adaptor) : (ev : Event) → Decidable (s.FrameFits ev)
  | .nipInterestIn (some _) _ => inferInstanceAs (Decidable (_ ≤ _))
  | .nipDataIn (some _) _ => inferInstanceAs (Decidable (_ ∧ _ ∧ _))
  | .udpInterestIn _ _ _ | .udpDataIn _ _ => inferInstanceAs (Decidable (_ ∧ (_ → ∀ f ∈ _, _)))
  | .nipInterestIn none _ | .nipDataIn none _ | .nipInterestOut _ _ _ | .nipDataOut _ _ _
  | .udpInterestOut _ | .udpDataOut _ => isTrue trivial

instance (s : Adaptor) : (ev : Event) → Decidable (s.AllocOk ev)
  | .nipInterestIn none _ | .nipDataIn none _ => isTrue trivial
  | .nipInterestIn (some _) _ | .nipDataIn (some _) _ => inferInstanceAs (Decidable (_ ∧ _))
  | .udpDataIn _ _ => inferInstanceAs (Decidable (_ → _ ∧ _))
  | .nipInterestOut _ _ _ | .nipDataOut _ _ _ | .udpInterestOut _ | .udpDataOut _ =>
      inferInstanceAs (Decidable (_ = true))
  | .udpInterestIn _ _ _ => inferInstanceAs (Decidable (_ → _ ∧ _ ∧ ∀ f ∈ _, _ → _))

instance (s : Adaptor) : (ev : Event) → Decidable (s.NoGrowth ev)
  | .udpInterestIn _ _ _ => inferInstanceAs (Decidable (_ → _ → ∀ f ∈ _, ¬ _))
  | .nipInterestIn _ _ | .nipDataIn _ _ | .nipInterestOut _ _ _ | .nipDataOut _ _ _
  | .udpDataIn _ _ | .udpInterestOut _ | .udpDataOut _ => isTrue trivial

/-- The pointer of `udp_data_out` points into the current array. -/
def Anchored (s : Adaptor) : Prop :=
  ∀ b, s.held .realtosimData = some b → s.entry.arr = s.nutTable.arr

variable {s s' : Adaptor} {o h : List Obs} {ev : Event} {q : FwdQueue} {b : ℕ}

/-! ### What goes into a queue -/

/-- What a receiving coroutine does with what it received. -/
structure Arrival where
  queue : FwdQueue
  message : Message
  malloc : Option SimpleNameData
  fill : SimpleNameData → Except Fault SimpleNameData

/-- The arrival an event brings. -/
def arrival : Event → Option Arrival
  | .nipInterestIn (some ibuf) alloc =>
      some ⟨.realtosimInterest, ibuf.interest, alloc.malloc, fillInterest ibuf⟩
  | .nipDataIn (some ibuf) alloc =>
      some ⟨.realtosimData, ibuf.content, alloc.malloc, fillData ibuf⟩
  | .udpInterestIn datagram _ alloc =>
      if datagram = [] then none
      else some ⟨.simtorealInterest, FwdQueue.simtorealInterest.dgramMessage (datagram.take 2048),
        alloc.malloc, (·.memcpy (datagram.take 2048))⟩
  | .udpDataIn datagram alloc =>
      if datagram = [] then none
      else some ⟨.simtorealData, FwdQueue.simtorealData.dgramMessage (datagram.take 4096),
        alloc.malloc, (·.memcpy (datagram.take 4096))⟩
  | _ => none

/-- What arrives is a packet from the network stack, or a datagram that is not empty. -/
theorem arrival_cases {a : Arrival} (ha : a ∈ arrival ev) :
    (∃ ibuf alloc, ev = .nipInterestIn (some ibuf) alloc ∧
      a = ⟨.realtosimInterest, ibuf.interest, alloc.malloc, fillInterest ibuf⟩) ∨
    (∃ ibuf alloc, ev = .nipDataIn (some ibuf) alloc ∧
      a = ⟨.realtosimData, ibuf.content, alloc.malloc, fillData ibuf⟩) ∨
    (∃ datagram addr alloc, ev = .udpInterestIn datagram addr alloc ∧ datagram ≠ [] ∧
      a = ⟨.simtorealInterest, FwdQueue.simtorealInterest.dgramMessage (datagram.take 2048),
        alloc.malloc, (·.memcpy (datagram.take 2048))⟩) ∨
    ∃ datagram alloc, ev = .udpDataIn datagram alloc ∧ datagram ≠ [] ∧
      a = ⟨.simtorealData, FwdQueue.simtorealData.dgramMessage (datagram.take 4096), alloc.malloc,
        (·.memcpy (datagram.take 4096))⟩ := by
  cases ev with
  | nipInterestIn irecv alloc =>
    cases irecv with
    | none => cases ha
    | some ibuf => exact Or.inl ⟨ibuf, alloc, rfl, (Option.some.inj ha).symm⟩
  | nipDataIn irecv alloc =>
    cases irecv with
    | none => cases ha
    | some ibuf => exact Or.inr (Or.inl ⟨ibuf, alloc, rfl, (Option.some.inj ha).symm⟩)
  | udpInterestIn datagram addr alloc =>
    obtain ⟨hne, heq⟩ := Option.ite_none_left_eq_some.1 ha
    exact Or.inr (Or.inr (Or.inl ⟨datagram, addr, alloc, rfl, hne, (Option.some.inj heq).symm⟩))
  | udpDataIn datagram alloc =>
    obtain ⟨hne, heq⟩ := Option.ite_none_left_eq_some.1 ha
    exact Or.inr (Or.inr (Or.inr ⟨datagram, alloc, rfl, hne, (Option.some.inj heq).symm⟩))
  | _ => cases ha

/-- A frame that fits is filled without fault. -/
theorem FrameFits.arrival {a : Arrival} (hs : s.Sound) (hF : s.FrameFits ev)
    (ha : a ∈ Adaptor.arrival ev) :
    (∀ d, ∃ f, a.fill d = .ok f) ∧ ∀ f ∈ s.filled a.malloc a.fill, f.Fits := by
  have hdgram : ∀ {datagram : List UInt8} {malloc : Option SimpleNameData} (n : ℕ), frameSize ≤ n →
      datagram ≠ [] → (datagram.length ≤ frameSize ∧
        (datagram ≠ [] → ∀ f ∈ s.filled malloc (·.memcpy datagram), f.Fits)) →
      (∀ d : SimpleNameData, ∃ f, d.memcpy (datagram.take n) = .ok f) ∧
        ∀ f ∈ s.filled malloc (·.memcpy (datagram.take n)), f.Fits := by
    rintro datagram malloc n hn hne ⟨hle, hfit⟩
    rw [List.take_of_length_le (hle.trans hn)]
    exact ⟨fun d => SimpleNameData.memcpy_of_le hle, hfit hne⟩
  rcases arrival_cases ha with ⟨ibuf, alloc, rfl, rfl⟩ | ⟨ibuf, alloc, rfl, rfl⟩ |
    ⟨datagram, addr, alloc, rfl, hne, rfl⟩ | ⟨datagram, alloc, rfl, hne, rfl⟩
  · refine ⟨fun d => fillInterest_of_le d hF, fun f hf => ?_⟩
    obtain ⟨d, hfill⟩ := filled_eq_some hs hf
    exact (fillInterest_eq_ok hfill).1.fits
  · obtain ⟨hn, hd, hfit⟩ := hF
    refine ⟨fun d => fillData_of_le d hn hd hfit, fun f hf => ?_⟩
    obtain ⟨d, hfill⟩ := filled_eq_some hs hf
    exact (fillData_eq_ok hfill).1.fits
  · exact hdgram 2048 (by decide) hne hF
  · exact hdgram 4096 (by decide) hne hF

/-- Well-formed datagrams, and Data from the network stack that fits, fit a buffer. -/
theorem frameFits_of_assumed (hs : s.Sound) (ha : ev.Assumed) (hd : ev.DataFits) :
    s.FrameFits ev := by
  have hdgram : ∀ {datagram : List UInt8} {malloc : Option SimpleNameData},
      (datagram = [] ∨ WellFormed datagram ∧ datagram.length ≤ frameSize) →
      datagram.length ≤ frameSize ∧
        (datagram ≠ [] → ∀ f ∈ s.filled malloc (·.memcpy datagram), f.Fits) := by
    rintro datagram malloc (rfl | ⟨hw, hle⟩)
    · exact ⟨Nat.zero_le _, fun hne => absurd rfl hne⟩
    · refine ⟨hle, fun _ f hf => ?_⟩
      obtain ⟨d, hfill⟩ := filled_eq_some hs hf
      exact (hw.frame hfill).1
  cases ev with
  | nipInterestIn irecv alloc =>
    cases irecv with
    | none => trivial
    | some ibuf => exact ha.1
  | nipDataIn irecv alloc =>
    cases irecv with
    | none => trivial
    | some ibuf => exact ⟨ha.1, ha.2, hd⟩
  | udpInterestIn datagram addr alloc | udpDataIn datagram alloc => exact hdgram ha
  | _ => trivial

/-- The message in the filled buffer is the one that came in. -/
theorem Assumed.message {a : Arrival} {f : SimpleNameData} (hs : s.Sound) (hA : ev.Assumed)
    (ha : a ∈ arrival ev) (hf : f ∈ s.filled a.malloc a.fill) : a.queue.message f = a.message := by
  obtain ⟨d, hfill⟩ := filled_eq_some hs hf
  have hdgram : ∀ {datagram : List UInt8} (q : FwdQueue) (n : ℕ), frameSize ≤ n → datagram ≠ [] →
      (datagram = [] ∨ WellFormed datagram ∧ datagram.length ≤ frameSize) →
      d.memcpy (datagram.take n) = .ok f → q.message f = q.dgramMessage (datagram.take n) := by
    intro datagram q n hn hne hdA hcopy
    obtain ⟨hw, hle⟩ := hdA.resolve_left hne
    rw [List.take_of_length_le (hle.trans hn)] at hcopy ⊢
    exact (hw.frame hcopy).2 q
  rcases arrival_cases ha with ⟨ibuf, alloc, rfl, rfl⟩ | ⟨ibuf, alloc, rfl, rfl⟩ |
    ⟨datagram, addr, alloc, rfl, hne, rfl⟩ | ⟨datagram, alloc, rfl, hne, rfl⟩
  · exact (fillInterest_eq_ok hfill).2.2
  · have hd := hA.2
    unfold maxDataLen at hd
    exact (fillData_eq_ok hfill).2 (by omega)
  · exact hdgram _ 2048 (by decide) hne hA hfill
  · exact hdgram _ 4096 (by decide) hne hA hfill

/-- What a step puts on a queue is the filled frame of the arrival of the event. -/
theorem Turn.enqueued_cases (ht : Turn s ev (.ok (s', o))) (q : FwdQueue) :
    MixSim.enqueued q o = [] ∨ ∃ a f, a ∈ arrival ev ∧ f ∈ s.filled a.malloc a.fill ∧
      a.queue = q ∧ MixSim.enqueued q o = [f] ∧ received q o = [a.message] := by
  have hreceive : ∀ {a : Arrival} {alloc : Alloc}, a ∈ arrival ev → alloc.malloc = a.malloc →
      ReceiveTurn s a.queue a.message a.fill alloc (.ok (s', o)) →
      MixSim.enqueued q o = [] ∨ ∃ a f, a ∈ arrival ev ∧ f ∈ s.filled a.malloc a.fill ∧
        a.queue = q ∧ MixSim.enqueued q o = [f] ∧ received q o = [a.message] := by
    intro a alloc ha hmalloc ht
    cases ht with
    | ok hget =>
      by_cases hq : a.queue = q
      · cases hc : alloc.calloc
        · simp [MixSim.enqueued, Obs.puts]
        · refine Or.inr ⟨a, _, ha, hmalloc ▸ hget, hq, ?_, ?_⟩
          · simp [MixSim.enqueued, Obs.puts, hq]
          · simp [received, Obs.receives, hq]
      · left
        cases alloc.calloc <;> simp [MixSim.enqueued, Obs.puts, hq]
  have hsilent : (∀ x ∈ o, ∀ q' f, x ≠ .enqueue q' f) → MixSim.enqueued q o = [] := fun hx =>
    List.flatMap_eq_nil_iff.2 fun x hm => by
      cases x with
      | enqueue q' f => exact absurd rfl (hx _ hm q' f)
      | _ => rfl
  cases ht with
  | nothing => exact Or.inl rfl
  | nipInterestIn ht | nipDataIn ht => exact hreceive rfl rfl ht
  | udpDataIn hne ht => exact hreceive (by rw [arrival, if_neg hne]; rfl) rfl ht
  | nipInterestOut ht | nipDataOut ht => cases ht <;> exact Or.inl (hsilent (by simp))
  | udpInterestOut ht => cases ht <;> exact Or.inl (hsilent (by simp))
  | udpDataOut ht => cases ht <;> exact Or.inl (hsilent (by simp))
  | udpInterestIn ht =>
    cases ht with
    | empty => exact Or.inl rfl
    | dropped => exact Or.inl (hsilent (by simp))
    | accepted hne hget hfill hnlen hset hsrc hmove =>
      rename_i datagram addr alloc d f t src old mem free queue
      by_cases hq : .simtorealInterest = q
      · subst hq
        cases hc : alloc.calloc
        · simp [MixSim.enqueued, Obs.puts]
        · have hne' : datagram ≠ [] := by
            rintro rfl
            exact hne rfl
          refine Or.inr ⟨_, f, by rw [arrival, if_neg hne']; rfl, hget, rfl, ?_, ?_⟩
          · simp [MixSim.enqueued, Obs.puts]
          · simp [received, Obs.receives]
      · left
        cases alloc.calloc <;> simp [MixSim.enqueued, Obs.puts, hq]

/-- What comes in from the network stack and is put on a queue has a short name, and fits. -/
theorem Turn.enqueued_nip (ht : Turn s ev (.ok (s', o))) (hs : s.Sound)
    (hq : q = .realtosimInterest ∨ q = .realtosimData) {f : SimpleNameData}
    (hf : f ∈ MixSim.enqueued q o) : f.nlen ≤ maxNameLen ∧ f.Fits := by
  rcases ht.enqueued_cases q with hnil | ⟨a, g, harr, hg, rfl, henq, -⟩
  · rw [hnil] at hf
    cases hf
  rw [henq, List.mem_singleton] at hf
  subst hf
  obtain ⟨d, hfill⟩ := filled_eq_some hs hg
  rcases arrival_cases harr with ⟨ibuf, alloc, rfl, rfl⟩ | ⟨ibuf, alloc, rfl, rfl⟩ |
    ⟨datagram, addr, alloc, rfl, -, rfl⟩ | ⟨datagram, alloc, rfl, -, rfl⟩
  · have hfrom := (fillInterest_eq_ok hfill).1
    exact ⟨hfrom.nlen_le, hfrom.fits⟩
  · have hfrom := (fillData_eq_ok hfill).1
    exact ⟨hfrom.nlen_le, hfrom.fits⟩
  · rcases hq with hq | hq <;> cases hq
  · rcases hq with hq | hq <;> cases hq

/-- What a step puts on a queue are messages that have just come in for it. -/
theorem Turn.accepted (ht : Turn s ev (.ok (s', o))) (hs : s.Sound) (ha : ev.Assumed)
    (q : FwdQueue) : ((MixSim.enqueued q o).map q.message).Sublist (received q o) := by
  rcases ht.enqueued_cases q with hnil | ⟨a, f, harr, hf, rfl, henq, hrecv⟩
  · rw [hnil]
    exact List.nil_sublist _
  · rw [henq, hrecv, List.map_singleton, Assumed.message hs ha harr hf]

/-! ### Faults -/

/-- `Inv`, and every frame that has been put on a queue fits. -/
structure FitInv (s : Adaptor) (h : List Obs) : Prop extends s.Inv h where
  fits : ∀ q, ∀ f ∈ MixSim.enqueued q h, f.Fits

/-- The frame of an Interest that comes in fits. -/
theorem FrameFits.interest {datagram : List UInt8} {addr : SockaddrIn} {alloc : Alloc}
    {f : SimpleNameData} (hs : s.Sound) (hF : s.FrameFits (.udpInterestIn datagram addr alloc))
    (hne : datagram.take 2048 ≠ [])
    (hf : f ∈ s.filled alloc.malloc (·.memcpy (datagram.take 2048))) : f.Fits := by
  have hne' : datagram ≠ [] := by
    rintro rfl
    exact hne rfl
  exact (hF.arrival hs (a := ⟨_, _, _, _⟩) (if_neg hne')).2 f hf

/-- A step in which all frames fit faults only by running out of memory, or by the use of an entry
that has been moved. -/
theorem Turn.fault {e : Fault} (ht : Turn s ev (.error e)) (hI : s.FitInv h) (hF : s.FrameFits ev) :
    (e = .outOfMemory ∧ ¬ s.AllocOk ev) ∨ (e = .useAfterFree ∧ ¬ s.Anchored) := by
  have hreceive : ∀ {a : Arrival} {alloc : Alloc}, a ∈ arrival ev →
      ReceiveTurn s a.queue a.message a.fill alloc (.error e) →
      e = .outOfMemory ∧ alloc.malloc = none := by
    intro a alloc ha ht
    cases ht with
    | oom hmalloc => exact ⟨rfl, hmalloc⟩
    | bad hf =>
      obtain ⟨f, hf'⟩ := (hF.arrival hI.toSound ha).1 _
      rw [hf] at hf'
      cases hf'
  have hisend : ∀ {q : FwdQueue} {dlen : SimpleNameData → ℕ} {waitWrite calloc : Bool} {isend : ℤ},
      (∀ f, dlen f ≤ f.dlen) → ¬ IsendTurn s q dlen waitWrite isend calloc (.error e) := by
    intro q dlen waitWrite calloc isend hdlen ht
    cases ht with
    | range hheld hbig =>
      rename_i b
      have hfits := hI.fits q _ (hI.held_mem hheld)
      have := hdlen (s.frame b)
      unfold SimpleNameData.Fits at hfits
      exact absurd hbig (by omega)
  cases ht with
  | nipInterestIn ht | nipDataIn ht =>
    obtain ⟨rfl, hmalloc⟩ := hreceive rfl ht
    exact Or.inl ⟨rfl, fun hok => by simp [AllocOk, hmalloc] at hok⟩
  | udpDataIn hne ht =>
    obtain ⟨rfl, hmalloc⟩ := hreceive (by rw [arrival, if_neg hne]; rfl) ht
    exact Or.inl ⟨rfl, fun hok => by simpa [hmalloc] using hok hne⟩
  | nipInterestOut ht => exact absurd ht (hisend fun f => Nat.zero_le _)
  | nipDataOut ht => exact absurd ht (hisend fun f => le_rfl)
  | udpInterestOut ht => cases ht
  | udpInterestIn ht =>
    left
    cases ht with
    | oom hne hmalloc =>
      exact ⟨rfl, fun hok => by simpa [hmalloc] using hok (List.ne_nil_of_take_ne_nil hne)⟩
    | fault hne hget hfill hset =>
      have hfits := hF.interest hI.toSound hne hget
      unfold SimpleNameData.Fits at hfits
      cases hset.resolve_left (by omega) with
      | oom hnone hfull hmem =>
        refine ⟨rfl, fun hok => ?_⟩
        obtain ⟨hsome, hcap⟩ :=
          (hok (List.ne_nil_of_take_ne_nil hne)).2.2 _ hget ⟨hfull, hnone⟩
        rcases hmem with hmem | hmem
        · rw [hmem] at hsome
          cases hsome
        · omega
  | udpDataOut ht =>
    cases ht with
    | getFault hheld hmove hbig =>
      have hmem := hmove.old_mem
      rw [frames_queue hI.owned] at hmem
      have hfits := hI.fits _ _ (hI.waiting_mem hmem)
      unfold SimpleNameData.Fits at hfits
      exact absurd hbig (by omega)
    | dangling hheld harr => exact Or.inr ⟨rfl, fun hA => harr (hA _ hheld)⟩

/-- As long as all frames fit, `FitInv` is kept. -/
theorem fitInv_step : Inductive step FrameFits FitInv := by
  intro s h ev s' o hI hF hs
  have ht := step_turn hI.toSound ev
  rw [hs] at ht
  refine ⟨inv_step hI.toInv trivial hs, fun q f hf => ?_⟩
  rw [enqueued_append, List.mem_append] at hf
  rcases hf with hf | hf
  · exact hI.fits q f hf
  · rcases ht.enqueued_cases q with hnil | ⟨a, g, ha, hg, -, henq, -⟩
    · rw [hnil] at hf
      cases hf
    · rw [henq, List.mem_singleton] at hf
      subst hf
      exact (hF.arrival hI.toSound ha).2 f hg

/-! ### The table under a suspended `udp_data_out` -/

/-- Without growth the pointer stays in the current array. -/
theorem Turn.anchored (ht : Turn s ev (.ok (s', o))) (hG : s.NoGrowth ev) (hA : s.Anchored) :
    s'.Anchored := by
  rcases ht.bystander with hB | ⟨datagram, addr, alloc, rfl, hin⟩ | ⟨calloc, rfl, hout⟩
  · intro b hb
    rw [hB.held] at hb
    rw [hB.entry, hB.nut]
    exact hA b hb
  · have hset : ∀ {f : SimpleNameData} {t : Nut} {ret : ℤ}, datagram.take 2048 ≠ [] →
        f ∈ s.filled alloc.malloc (·.memcpy (datagram.take 2048)) →
        SetOutcome s.nutTable (nutKey f.name) addr alloc.grow (.ok (t, ret)) →
        ∀ b, s.held .realtosimData = some b → t.arr = s.nutTable.arr := by
      intro f t ret hne hf hset b hb
      cases hset with
      | same => rfl
      | full => rfl
      | add _ _ _ _ _ harr => exact harr
      | new hnone _ _ harr =>
        have hgrows := hG (List.ne_nil_of_take_ne_nil hne) (by rw [hb]; exact Option.some_ne_none b) f hf
        rw [harr, if_neg fun hfull => hgrows ⟨hfull, hnone⟩]
    cases hin with
    | empty => exact hA
    | accepted hne hf _ _ hs | dropped hne hf _ _ hs =>
      intro b hb
      rw [hset hne hf hs b hb]
      exact hA b hb
  · cases hout with
    | idle hheld | unknown hheld => exact fun b hb => by simp [hheld] at hb
    | start => exact fun b hb => rfl
    | send _ harr | next _ harr => exact fun b hb => harr
    | finish => exact fun b hb => by simp [release] at hb

/-! ### Every send uses the frame taken off last -/

/-- What is sent, or done with, is the frame taken off the queue last. -/
def UsesLast (pre : List Obs) : Obs → Prop
  | .isend q m _ => ∃ f, (MixSim.dequeued q pre).getLast? = some f ∧ m = q.message f
  | .sendto q f _ | .done q f => (MixSim.dequeued q pre).getLast? = some f
  | _ => True

theorem Turn.usesLast (ht : Turn s ev (.ok (s', o))) (hI : s.Inv h) (hh : Always UsesLast h) :
    Always UsesLast (h ++ o) := by
  have htrivial : (∀ x ∈ o, ∀ pre, UsesLast pre x) → Always UsesLast (h ++ o) := fun hx =>
    hh.append fun a x b ho => hx x (by rw [ho]; simp) _
  have hisend : ∀ {q : FwdQueue} {dlen : SimpleNameData → ℕ} {waitWrite calloc : Bool} {isend : ℤ},
      (∀ f, q.message f = ⟨f.name, (f.buf.drop f.nlen).take (dlen f)⟩) →
      IsendTurn s q dlen waitWrite isend calloc (.ok (s', o)) → Always UsesLast (h ++ o) := by
    intro q dlen waitWrite calloc isend hm ht
    cases ht with
    | idle | wait => exact htrivial (by simp)
    | take => exact htrivial (by simp [UsesLast])
    | sent hheld =>
      have hlast := hI.getLast hheld
      have hsend : Always UsesLast (h ++ [.isend q ⟨(s.frame _).name, _⟩ isend]) :=
        hh.snoc ⟨_, hlast, (hm _).symm⟩
      have hdone := hsend.snoc (o := .done q (s.frame _)) (by
        show (MixSim.dequeued q (h ++ _)).getLast? = _
        rw [dequeued_append, ← hlast]
        simp [MixSim.dequeued, Obs.takes])
      simpa using hdone
  cases ht with
  | nothing => exact htrivial (by simp)
  | nipInterestIn ht | nipDataIn ht | udpDataIn _ ht =>
    cases ht with
    | ok => exact htrivial (by split_ifs <;> simp [UsesLast])
  | nipInterestOut ht => exact hisend (fun f => by simp [FwdQueue.message, FwdQueue.isData]) ht
  | nipDataOut ht => exact hisend (fun f => rfl) ht
  | udpInterestIn ht =>
    cases ht with
    | empty => exact htrivial (by simp)
    | accepted => exact htrivial (by split_ifs <;> simp [UsesLast])
    | dropped => exact htrivial (by simp [UsesLast])
  | udpInterestOut ht =>
    cases ht with
    | idle => exact htrivial (by simp)
    | take => exact htrivial (by simp [UsesLast])
    | send hheld | finish hheld => exact hh.snoc (hI.getLast hheld)
  | udpDataOut ht =>
    cases ht with
    | idle | next => exact htrivial (by simp)
    | unknown | start => exact htrivial (by simp [UsesLast])
    | send hheld | finish hheld => exact hh.snoc (hI.getLast hheld)

/-! ### Every message that is taken is handed on once -/

/-- The frame in hand, as long as it has not been sent. -/
def unsent (s : Adaptor) (q : FwdQueue) : List SimpleNameData :=
  match q, s.interestPhase with
  | .realtosimInterest, .after => []
  | _, _ => (s.held q).toList.map s.frame

/-- What a step has to do with the messages that are taken off a queue and sent. -/
def Passes (s s' : Adaptor) (o : List Obs) (q : FwdQueue) : Prop :=
  (s.unsent q ++ MixSim.dequeued q o).map q.message =
    o.flatMap (Obs.handsOn q) ++ (s'.unsent q).map q.message

theorem unsent_of_ne (hq : q ≠ .realtosimInterest) : s.unsent q = (s.held q).toList.map s.frame := by
  cases q <;> cases hp : s.interestPhase <;> first | rfl | exact absurd rfl hq

theorem unsent_of_none (hheld : s.held q = none) : s.unsent q = [] := by
  cases q <;> cases hp : s.interestPhase <;> simp [unsent, hheld, hp]

/-- A step in which the sender of a queue has no turn. -/
theorem passes_of_still (hI : s.Inv h) (hI' : s'.Inv (h ++ o)) (hheld : s'.held q = s.held q)
    (hphase : q = .realtosimInterest → s'.interestPhase = s.interestPhase)
    (hd : MixSim.dequeued q o = []) (hhands : o.flatMap (Obs.handsOn q) = []) : Passes s s' o q := by
  have hframes : (s'.held q).toList.map s'.frame = (s.held q).toList.map s.frame := by
    rw [hheld]
    cases hb : s.held q with
    | none => rfl
    | some b =>
      -- the frame in hand is the one taken off last, before and after
      have hlast := hI'.getLast (hheld.trans hb)
      rw [dequeued_append, hd, List.append_nil, hI.getLast hb] at hlast
      rw [Option.toList_some, List.map_singleton, List.map_singleton, Option.some.inj hlast]
  have hunsent : s'.unsent q = s.unsent q := by
    by_cases hq : q = .realtosimInterest
    · subst hq
      simp only [unsent, hphase rfl, hframes]
    · rw [unsent_of_ne hq, unsent_of_ne hq, hframes]
  rw [Passes, hd, hhands, hunsent, List.append_nil, List.nil_append]

theorem IsendTurn.passes {q' : FwdQueue} {dlen : SimpleNameData → ℕ} {waitWrite calloc : Bool} {isend : ℤ}
    (ht : IsendTurn s q' dlen waitWrite isend calloc (.ok (s', o)))
    (hq' : q' = .simtorealInterest ∨ q' = .simtorealData)
    (hm : ∀ f, q'.message f = ⟨f.name, (f.buf.drop f.nlen).take (dlen f)⟩)
    (hI : s.Inv h) (hI' : s'.Inv (h ++ o)) : Passes s s' o q := by
  by_cases hq : q = q'
  · subst hq
    cases ht with
    | idle | wait => exact passes_of_still hI hI' rfl (fun _ => rfl) rfl rfl
    | take hheld =>
      rw [Passes, unsent_of_none hheld]
      rcases hq' with rfl | rfl <;>
        simp [unsent, MixSim.dequeued, Obs.takes, Obs.handsOn, frame]
    | sent hheld =>
      rw [Passes, unsent_of_none (s := s.release _ _ _) (by simp [release])]
      rcases hq' with rfl | rfl <;>
        simp [unsent, hheld, MixSim.dequeued, Obs.takes, Obs.handsOn, hm]
  · have hq'' : q' ≠ q := fun heq => hq heq.symm
    cases ht with
    | idle | wait => exact passes_of_still hI hI' rfl (fun _ => rfl) rfl rfl
    | take =>
      exact passes_of_still hI hI' (by simp [hq]) (fun _ => rfl)
        (by simp [MixSim.dequeued, Obs.takes, hq'']) (by rcases hq' with rfl | rfl <;> cases q <;> rfl)
    | sent =>
      exact passes_of_still hI hI' (by simp [release, hq]) (fun _ => rfl)
        (by simp [MixSim.dequeued, Obs.takes])
        (by rcases hq' with rfl | rfl <;> cases q <;> simp_all [Obs.handsOn])

theorem InterestOutTurn.passes {calloc : Bool} (ht : InterestOutTurn s calloc (.ok (s', o)))
    (hI : s.Inv h) (hI' : s'.Inv (h ++ o)) : Passes s s' o q := by
  by_cases hq : q = .realtosimInterest
  · subst hq
    cases ht with
    | idle => exact passes_of_still hI hI' rfl (fun _ => rfl) rfl rfl
    | take _ hheld =>
      rw [Passes, unsent_of_none hheld]
      simp [unsent, MixSim.dequeued, Obs.takes, Obs.handsOn, frame]
    | send hheld hphase => simp [Passes, unsent, hheld, hphase, MixSim.dequeued, Obs.takes, Obs.handsOn]
    | finish _ _ hphase =>
      rw [Passes, unsent_of_none (s := s.release _ _ _) (by simp [release])]
      simp [unsent, hphase, MixSim.dequeued, Obs.takes, Obs.handsOn]
  · have hq' : FwdQueue.realtosimInterest ≠ q := fun heq => hq heq.symm
    refine passes_of_still hI hI' ?_ (fun heq => absurd heq hq) ?_ ?_
    · cases ht <;> simp [release, hq]
    · cases ht <;> simp [MixSim.dequeued, Obs.takes, hq']
    · cases ht <;> cases q <;> simp_all [Obs.handsOn]

theorem DataOutTurn.passes {calloc : Bool} (ht : DataOutTurn s calloc (.ok (s', o)))
    (hI : s.Inv h) (hI' : s'.Inv (h ++ o)) (hq : q ≠ .realtosimData) : Passes s s' o q := by
  have hq' : FwdQueue.realtosimData ≠ q := fun heq => hq heq.symm
  refine passes_of_still hI hI' ?_ (fun _ => ?_) ?_ ?_
  · cases ht <;> simp [release, hq]
  · cases ht <;> rfl
  · cases ht <;> simp [MixSim.dequeued, Obs.takes, hq']
  · cases ht <;> cases q <;> simp_all [Obs.handsOn]

/-- A frame that is taken stays in hand until its message is sent; of Data this is not asked. -/
theorem Turn.passes (ht : Turn s ev (.ok (s', o))) (hI : s.Inv h) (hI' : s'.Inv (h ++ o))
    (hq : q ≠ .realtosimData) : Passes s s' o q := by
  cases ht with
  | nothing => exact passes_of_still hI hI' rfl (fun _ => rfl) rfl rfl
  | nipInterestIn ht | nipDataIn ht | udpDataIn _ ht =>
    cases ht with
    | ok =>
      exact passes_of_still hI hI' rfl (fun _ => rfl)
        (by split_ifs <;> simp [MixSim.dequeued, Obs.takes])
        (by split_ifs <;> cases q <;> simp [Obs.handsOn])
  | nipInterestOut ht =>
    exact ht.passes (.inl rfl) (fun f => by simp [FwdQueue.message, FwdQueue.isData]) hI hI'
  | nipDataOut ht => exact ht.passes (.inr rfl) (fun f => rfl) hI hI'
  | udpInterestIn ht =>
    cases ht with
    | empty => exact passes_of_still hI hI' rfl (fun _ => rfl) rfl rfl
    | accepted =>
      exact passes_of_still hI hI' rfl (fun _ => rfl)
        (by split_ifs <;> simp [MixSim.dequeued, Obs.takes])
        (by split_ifs <;> cases q <;> simp [Obs.handsOn])
    | dropped =>
      exact passes_of_still hI hI' rfl (fun _ => rfl) (by simp [MixSim.dequeued, Obs.takes])
        (by cases q <;> simp [Obs.handsOn])
  | udpInterestOut ht => exact ht.passes hI hI'
  | udpDataOut ht => exact ht.passes hI hI' hq

/-- In a run, what was in hand and what is taken is handed on, in order and once each, but for what is
in hand at the end. -/
theorem passes_run {evs : List Event} {s₀ : Adaptor} {h₀ : List Obs} (hI₀ : s₀.Inv h₀)
    (he : exec step s₀ evs = .ok (s, h)) (hq : q ≠ .realtosimData) : Passes s₀ s h q := by
  induction evs generalizing s₀ h₀ h with
  | nil =>
    cases he
    simp [Passes, MixSim.dequeued]
  | cons ev evs ih =>
    obtain ⟨m, o, h', hs, hrest, rfl⟩ := exec_cons_eq_ok he
    have hI := inv_step hI₀ trivial hs
    have ht := step_turn hI₀.toSound ev
    rw [hs] at ht
    have hstep := ht.passes hI₀ hI hq
    have hnext := ih hI hrest
    rw [Passes, List.map_append] at hstep hnext
    rw [Passes, dequeued_append, List.map_append, List.map_append, ← List.append_assoc, hstep,
      List.append_assoc, hnext, List.flatMap_append, List.append_assoc]

/-! ### Runs -/

section Runs

variable (blocks : Fin 16 → SimpleNameData) (junk : ℕ → NutEntry)

theorem initAdaptor_fitInv : (initAdaptor blocks junk).FitInv [] :=
  ⟨initAdaptor_inv blocks junk, fun _ _ hf => by cases hf⟩

/-- When the peers keep to what is assumed of them and all Data from the network stack fits, no step
accesses memory outside an object, and every frame in a forwarding queue fits its buffer. -/
theorem queued_frames_fit {evs : List Event} (ha : ∀ ev ∈ evs, ev.Assumed)
    (hd : ∀ ev ∈ evs, ev.DataFits) :
    exec step (initAdaptor blocks junk) evs ≠ .error .outOfBounds ∧
      ∀ s h, exec step (initAdaptor blocks junk) evs = .ok (s, h) →
        ∀ q, ∀ f ∈ s.waiting q, f.Fits := by
  have hG : Along step (fun _ ev => ev.Assumed ∧ ev.DataFits) (initAdaptor blocks junk) evs :=
    .of_forall (fun ev hev _ => ⟨ha ev hev, hd ev hev⟩) _
  have hinv : Inductive step (fun _ ev => ev.Assumed ∧ ev.DataFits) FitInv :=
    fun s h ev s' o hI hev hs => fitInv_step hI (frameFits_of_assumed hI.toSound hev.1 hev.2) hs
  constructor
  · intro he
    refine hinv.fault (F := fun e => e ≠ .outOfBounds) (fun s h ev e hI hev hs => ?_)
      (initAdaptor_fitInv blocks junk) hG he rfl
    have ht := step_turn hI.toSound ev
    rw [hs] at ht
    rcases ht.fault hI (frameFits_of_assumed hI.toSound hev.1 hev.2) with ⟨rfl, -⟩ | ⟨rfl, -⟩
    · decide
    · decide
  · intro s h he q f hf
    have hI := hinv.exec (initAdaptor_fitInv blocks junk) hG he
    exact hI.fits q f (hI.waiting_mem hf)

/-- An exchange whose Data fits. -/
theorem queued_frames_fit_exchange :
    exec step (initAdaptor (fun _ => .zero) fun _ => .zero) exchange ≠ .error .outOfBounds ∧
      ∀ s h, exec step (initAdaptor (fun _ => .zero) fun _ => .zero) exchange = .ok (s, h) →
        ∀ q, ∀ f ∈ s.waiting q, f.Fits :=
  queued_frames_fit _ _ (by decide +kernel) (by decide +kernel)

/-- Data with the longest name and the longest content that `irecv` may report overruns its
buffer. -/
theorem nip_data_overrun : ¬ ∀ (blocks : Fin 16 → SimpleNameData) (junk : ℕ → NutEntry)
    (evs : List Event), (∀ ev ∈ evs, ev.Assumed) →
      exec step (initAdaptor blocks junk) evs ≠ .error .outOfBounds ∧
        ∀ s h, exec step (initAdaptor blocks junk) evs = .ok (s, h) →
          ∀ q, ∀ f ∈ s.waiting q, f.Fits := by
  intro hall
  refine (hall (fun _ => .zero) (fun _ => .zero)
    [.nipDataIn (some (nameIbuf (List.replicate 1024 47) 2048)) allocOk] (by decide +kernel)).1 ?_
  decide +kernel

/-- When all frames fit, the allocations succeed and the table does not grow under a suspended
`udp_data_out`, no run faults; each queue hands over a prefix of what was put on it; every send uses
the frame taken off last; and no call of `lfq_dequeue` returns `(void *) -1`. What has not been handed
over waits in the queue. But for Data, which goes to as many addresses as wait for it, each message that
was taken has been sent once, in order, unless it is the one in hand. What was put on a queue are, in
order, messages that came in, when the datagrams are well formed. -/
theorem forwarding_in_order {evs : List Event}
    (hG : Along step (fun s ev => s.FrameFits ev ∧ s.AllocOk ev ∧ s.NoGrowth ev)
      (initAdaptor blocks junk) evs) :
    ∃ s h, exec step (initAdaptor blocks junk) evs = .ok (s, h) ∧
      (∀ q, MixSim.dequeued q h <+: MixSim.enqueued q h) ∧
      (∀ q, MixSim.enqueued q h = MixSim.dequeued q h ++ s.waiting q) ∧
      (∀ q, q ≠ .realtosimData → (MixSim.dequeued q h).map q.message =
        h.flatMap (Obs.handsOn q) ++ (s.unsent q).map q.message) ∧
      ((∀ ev ∈ evs, ev.Assumed) →
        ∀ q, ((MixSim.enqueued q h).map q.message).Sublist (received q h)) ∧
      Always UsesLast h ∧
      s.freebufList.dequeue.2 ≠ .minusOne ∧ ∀ q, (s.queue q).dequeue.2 ≠ .minusOne := by
  have hanchored : Inductive step (fun s ev => s.FrameFits ev ∧ s.AllocOk ev ∧ s.NoGrowth ev)
      (fun s h => s.FitInv h ∧ s.Anchored) := by
    refine (fitInv_step.mono fun _ _ hG => hG.1).and fun s h ev s' o hI hA hG hs => ?_
    have ht := step_turn hI.toSound ev
    rw [hs] at ht
    exact ht.anchored hG.2.2 hA
  have hinit : (initAdaptor blocks junk).FitInv [] ∧ (initAdaptor blocks junk).Anchored :=
    ⟨initAdaptor_fitInv blocks junk, fun b hb => by cases hb⟩
  rcases he : exec step (initAdaptor blocks junk) evs with e | ⟨s, h⟩
  · -- no step faults
    refine absurd he (hanchored.fault (F := fun _ => False) (fun s h ev e hI hG hs => ?_) hinit hG)
    have ht := step_turn hI.1.toSound ev
    rw [hs] at ht
    rcases ht.fault hI.1 hG.1 with ⟨-, hoom⟩ | ⟨-, hdangling⟩
    · exact hoom hG.2.1
    · exact hdangling hI.2
  · have hI := inv_run blocks junk he
    refine ⟨s, h, rfl, fun q => ?_, hI.fifo, fun q hq => ?_, fun ha q => ?_, ?_,
      s.freebufList.dequeue_ne_minusOne, fun q => (s.queue q).dequeue_ne_minusOne⟩
    · rw [hI.fifo]
      exact List.prefix_append _ _
    · have hpasses := passes_run (initAdaptor_inv blocks junk) he hq
      rwa [Passes, unsent_of_none rfl, List.nil_append] at hpasses
    · have hsub : Inductive step (fun _ ev => ev.Assumed) (fun s h => s.Inv h ∧
          ∀ q, ((MixSim.enqueued q h).map q.message).Sublist (received q h)) := by
        refine (inv_step.mono fun _ _ _ => trivial).and fun s h ev s' o hI hsub ha hs q => ?_
        have ht := step_turn hI.toSound ev
        rw [hs] at ht
        rw [enqueued_append, received_append, List.map_append]
        exact (hsub q).append (ht.accepted hI.toSound ha q)
      exact (hsub.exec ⟨initAdaptor_inv blocks junk, fun q => List.nil_sublist _⟩
        (.of_forall (fun ev hev _ => ha ev hev) _) he).2 q
    · have huses : Inductive step (fun _ _ => True) (fun s h => s.Inv h ∧ Always UsesLast h) := by
        refine inv_step.and fun s h ev s' o hI hh _ hs => ?_
        have ht := step_turn hI.toSound ev
        rw [hs] at ht
        exact ht.usesLast hI hh
      exact (huses.exec ⟨initAdaptor_inv blocks junk, always_nil⟩ (along_true _ _) he).2

/-- An exchange in which nothing goes wrong. -/
theorem forwarding_in_order_exchange :
    Reaches step (initAdaptor (fun _ => .zero) fun _ => .zero) exchange fun s h =>
      (∀ q, MixSim.dequeued q h <+: MixSim.enqueued q h) ∧
      (∀ q, MixSim.enqueued q h = MixSim.dequeued q h ++ s.waiting q) ∧
      (∀ q, q ≠ .realtosimData → (MixSim.dequeued q h).map q.message =
        h.flatMap (Obs.handsOn q) ++ (s.unsent q).map q.message) ∧
      ((∀ ev ∈ exchange, ev.Assumed) →
        ∀ q, ((MixSim.enqueued q h).map q.message).Sublist (received q h)) ∧
      Always UsesLast h ∧
      s.freebufList.dequeue.2 ≠ .minusOne ∧ ∀ q, (s.queue q).dequeue.2 ≠ .minusOne :=
  forwarding_in_order _ _ (by decide +kernel)

end Runs

end Adaptor

end MixSim
