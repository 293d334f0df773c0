import MixSim.Adaptor.Conservation
import MixSim.Adaptor.Delivery

/-!
# How many buffers there are, and how many of them are lost

A coroutine that forgets its buffer loses it for ever: the buffer is in no place any more, and
`freebuf_list` never gets it back. How often this happens can be read off the requests alone. Where the
allocations succeed, the buffers lost so far are as many as the Interests for which `nut_set` did not
return 1 and the Data taken off their queue while nobody was waiting for them (`buffers_lost`).

A new buffer is allocated only when no other is free. So there are always as many buffers as were ever
in use at a time, which the lost ones are for ever, and at least the first sixteen (`buffers_peak`).
-/

namespace MixSim

open BufferPool Execution SlotTable

instance : Fintype Place where
  elems := {.free} ∪ Finset.univ.image Place.queue ∪ Finset.univ.image Place.held
  complete x := by cases x <;> simp

/-! ### Losses of a history -/

/-- The buffers that are lost at an observation, with the pending table before it: that of an Interest
which does not join, and that of Data for which nobody waits. -/
def Obs.loses (m : AddrMap) : Obs → ℕ
  | .nutSet name addr _ => if (m.set (nutKey name) addr).2 = 1 then 0 else 1
  | .dequeue .realtosimData f => if m (nutKey f.name) = none then 1 else 0
  | _ => 0

/-- The buffers that are lost in a history which begins with a pending table. -/
def lostFrom (m : AddrMap) : List Obs → ℕ
  | [] => 0
  | x :: h => x.loses m + lostFrom (x.table m) h

theorem lostFrom_append (m : AddrMap) (h o : List Obs) :
    lostFrom m (h ++ o) = lostFrom m h + lostFrom (h.foldl Obs.table m) o := by
  induction h generalizing m with
  | nil => simp [lostFrom]
  | cons x h ih => simp [lostFrom, ih, Nat.add_assoc]

/-- Observations at which nothing is lost. -/
theorem lostFrom_eq_zero {o : List Obs} (ho : ∀ x ∈ o, ∀ m, x.loses m = 0) (m : AddrMap) :
    lostFrom m o = 0 := by
  induction o generalizing m with
  | nil => rfl
  | cons x o ih =>
    rw [lostFrom, ho x List.mem_cons_self, ih fun y hy => ho y (List.mem_cons_of_mem _ hy)]

namespace Adaptor

variable {s s' : Adaptor} {o h : List Obs} {ev : Event} {q : FwdQueue}

/-! ### Losses of a step -/

theorem ReceiveTurn.losses {m : Message} {fill : SimpleNameData → Except Fault SimpleNameData}
    {alloc : Alloc} (ht : ReceiveTurn s q m fill alloc (.ok (s', o))) (h : s.Sound)
    (hc : alloc.calloc = true) :
    s'.pool.lost.card = s.pool.lost.card + lostFrom s.nutTable.abs o := by
  cases ht with
  | ok hget hfill hsrc hmove => simpa [hc, lostFrom, Obs.loses] using hmove.card_lost h.owned

theorem IsendTurn.losses {dlen : SimpleNameData → ℕ} {waitWrite calloc : Bool} {isend : ℤ}
    (ht : IsendTurn s q dlen waitWrite isend calloc (.ok (s', o))) (hq : q ≠ .realtosimData)
    (h : s.Sound) (hc : calloc = true) :
    s'.pool.lost.card = s.pool.lost.card + lostFrom s.nutTable.abs o := by
  cases ht with
  | idle hpool => simp [hpool, lostFrom]
  | take hheld hmove =>
    rw [lostFrom_eq_zero (by cases q <;> simp_all [Obs.loses])]
    exact hmove.card_lost h.owned
  | wait => rfl
  | sent hheld hfit hmove => simpa [hc, lostFrom, Obs.loses] using hmove.card_lost h.owned

theorem InterestOutTurn.losses {calloc : Bool} (ht : InterestOutTurn s calloc (.ok (s', o)))
    (h : s.Sound) (hc : calloc = true) :
    s'.pool.lost.card = s.pool.lost.card + lostFrom s.nutTable.abs o := by
  cases ht with
  | idle hpool => simp [hpool, lostFrom]
  | take hmove => exact hmove.card_lost h.owned
  | send hheld => rfl
  | finish hheld hmove => simpa [hc, lostFrom, Obs.loses] using hmove.card_lost h.owned

theorem InterestInTurn.losses {buf : List UInt8} {addr : SockaddrIn} {alloc : Alloc}
    (ht : InterestInTurn s buf addr alloc (.ok (s', o))) (h : s.Sound)
    (hc : buf ≠ [] → alloc.calloc = true) :
    s'.pool.lost.card = s.pool.lost.card + lostFrom s.nutTable.abs o := by
  cases ht with
  | empty => rfl
  | accepted hne hget hfill hnlen hset hsrc hmove =>
    have hc := hc hne
    have hjoin := hset.refines h.wf
    have hcard := hmove.card_lost h.owned
    simp only [hc, if_true, reduceCtorEq, if_false] at hcard
    simp only [hc, if_true, List.cons_append, List.nil_append, lostFrom, Obs.loses, Obs.table, hjoin]
    exact hcard
  | dropped hne hget hfill hnlen hset hret hsrc hmove =>
    have hjoin := hset.refines h.wf
    have hcard := hmove.card_lost h.owned
    simp only [lostFrom, Obs.loses, Obs.table, hjoin, if_neg hret]
    exact hcard

theorem DataOutTurn.losses {calloc : Bool} (ht : DataOutTurn s calloc (.ok (s', o)))
    (hI : s.FitInv h) (hc : calloc = true) :
    s'.pool.lost.card = s.pool.lost.card + lostFrom s.nutTable.abs o := by
  cases ht with
  | idle hheld hpool => simp [hpool, lostFrom]
  | unknown hheld hnone hmoves =>
    -- the frame has been on its queue, so its name is inside the buffer
    cases hmoves with
    | cons hmove hrest =>
      have hmem := hmove.old_mem
      rw [frames_queue hI.owned] at hmem
      have hnobody : s.nutTable.abs (nutKey (s.frame _).name) = none :=
        hnone (hI.fits _ _ (hI.waiting_mem hmem)).nlen_le
      have hcard := (Moves.cons hmove hrest).card_lost hI.owned
      simpa [lostFrom, Obs.loses, hnobody] using hcard
  | start hheld hat hmove =>
    have hsome : s.nutTable.abs (nutKey (s.frame _).name) = some _ := hat.lookup hI.wf.unique
    simp only [lostFrom, Obs.loses, hsome, reduceCtorEq, if_false]
    exact hmove.card_lost hI.owned
  | send => rfl
  | next => rfl
  | finish hheld harr hphase hat hi hwf hslots hmove =>
    have hcard := hmove.card_lost hI.owned
    simp only [hc, if_true, reduceCtorEq, if_false] at hcard ⊢
    exact hcard

/-- Each step loses the buffers that its observations tell of. -/
theorem Turn.losses (ht : Turn s ev (.ok (s', o))) (hI : s.FitInv h) (hA : s.AllocOk ev) :
    s'.pool.lost.card = s.pool.lost.card + lostFrom s.nutTable.abs o := by
  cases ht with
  | nothing => rfl
  | nipInterestIn ht | nipDataIn ht => exact ht.losses hI.toSound hA.2
  | udpDataIn hne ht => exact ht.losses hI.toSound (hA hne).2
  | nipInterestOut ht | nipDataOut ht => exact ht.losses (by decide) hI.toSound hA
  | udpInterestIn ht => exact ht.losses hI.toSound fun hne => (hA (List.ne_nil_of_take_ne_nil hne)).2.1
  | udpInterestOut ht => exact ht.losses hI.toSound hA
  | udpDataOut ht => exact ht.losses hI hA

/-- The table is that of the history, and the buffers lost are those that the history tells of. -/
structure LossInv (s : Adaptor) (h : List Obs) : Prop extends s.TableInv h where
  fits : ∀ q, ∀ f ∈ MixSim.enqueued q h, f.Fits
  lost : s.pool.lost.card = lostFrom (fun _ => none) h

theorem lossInv_step : Inductive step (fun s ev => s.FrameFits ev ∧ s.AllocOk ev) LossInv := by
  intro s h ev s' o hI hG hs
  have hfit : s.FitInv h := ⟨hI.toInv, hI.fits⟩
  have ht := step_turn hI.toSound ev
  rw [hs] at ht
  refine ⟨tableInv_step hI.toTableInv trivial hs, (fitInv_step hfit hG.1 hs).fits, ?_⟩
  rw [lostFrom_append, ← hI.lost]
  have htable : h.foldl Obs.table (fun _ => none) = s.nutTable.abs := hI.table.symm
  rw [htable]
  exact ht.losses hfit hG.2

/-! ### Buffers in use -/

/-- The buffers that wait in a queue, are in hand, or are lost. -/
def inUse (s : Adaptor) : ℕ :=
  ∑ q, ((s.waiting q).length + (s.held q).toList.length) + s.pool.lost.card

theorem sum_places (f : Place → ℕ) : ∑ x, f x = f .free + ∑ q, (f (.queue q) + f (.held q)) := by
  show ∑ x ∈ {.free} ∪ Finset.univ.image Place.queue ∪ Finset.univ.image Place.held, f x = _
  have hqueue : Function.Injective Place.queue := fun _ _ => Place.queue.inj
  have hheld : Function.Injective Place.held := fun _ _ => Place.held.inj
  rw [Finset.sum_union (by simp [Finset.disjoint_left]), Finset.sum_union (by simp),
    Finset.sum_singleton, Finset.sum_image hqueue.injOn, Finset.sum_image hheld.injOn,
    Finset.sum_add_distrib, Nat.add_assoc]

/-- A buffer is free or in use. -/
theorem Sound.length_mem (h : s.Sound) :
    s.mem.length = s.freebufList.contents.length + s.inUse := by
  have hlen := h.owned.length_mem
  rw [sum_places] at hlen
  simp only [inUse, waiting, List.length_map]
  rw [← Nat.add_assoc]
  exact hlen

/-- There are as many buffers as before, or one more and none of them is free. -/
def Grows (s s' : Adaptor) : Prop :=
  s'.mem.length = s.mem.length ∨
    s'.mem.length = s.mem.length + 1 ∧ s'.freebufList.contents = []

theorem fillBuffer_grows {malloc : Option SimpleNameData}
    {fill : SimpleNameData → Except Fault SimpleNameData} {b : ℕ} {f : SimpleNameData}
    (hs : s.fillBuffer malloc fill = .ok (s', b, f)) : s.Grows s' := by
  obtain ⟨⟨s₁, b₁⟩, hfree, hs⟩ := bind_eq_ok hs
  obtain ⟨d, -, hs⟩ := bind_eq_ok hs
  obtain ⟨f₁, -, hs⟩ := bind_eq_ok hs
  cases hs
  rcases s.freebufList.dequeue_cases with ⟨-, hret, hrest⟩ | ⟨b', rest, -, hret, -⟩
  · -- a new buffer, when none is free
    simp only [freeBuffer, hret] at hfree
    cases malloc with
    | none => cases hfree
    | some d₁ =>
      cases hfree
      exact .inr ⟨by simp, hrest⟩
  · simp only [freeBuffer, hret] at hfree
    cases hfree
    exact .inl (by simp)

theorem receive_grows {m : Message} {fill : SimpleNameData → Except Fault SimpleNameData}
    {alloc : Alloc} (hs : s.receive q m fill alloc = .ok (s', o)) : s.Grows s' := by
  obtain ⟨⟨s₁, b, f⟩, hfill, hs⟩ := bind_eq_ok hs
  have hgrows : s.Grows s₁ := fillBuffer_grows hfill
  cases hs
  exact hgrows

theorem udpInterestIn_grows {datagram : List UInt8} {addr : SockaddrIn} {alloc : Alloc}
    (hs : s.udpInterestIn datagram addr alloc = .ok (s', o)) : s.Grows s' := by
  unfold udpInterestIn at hs
  dsimp only at hs
  split_ifs at hs with hnil
  · cases hs
    exact .inl rfl
  · obtain ⟨⟨s₁, b, f⟩, hfill, hs⟩ := bind_eq_ok hs
    have hgrows : s.Grows s₁ := fillBuffer_grows hfill
    obtain ⟨⟨t, ret⟩, -, hs⟩ := bind_eq_ok hs
    dsimp only at hs
    split_ifs at hs with hret
    · cases hs
      exact hgrows
    · cases hs
      exact hgrows

theorem step_grows (h : s.Sound) (hs : step s ev = .ok (s', o)) : s.Grows s' := by
  have ht := step_turn h ev
  rw [hs] at ht
  cases ev with
  | nipInterestIn irecv alloc | nipDataIn irecv alloc =>
    cases irecv with
    | none =>
      cases hs
      exact .inl rfl
    | some ibuf => exact receive_grows hs
  | udpInterestIn datagram addr alloc => exact udpInterestIn_grows hs
  | udpDataIn datagram alloc =>
    by_cases hnil : (datagram.take 4096).length = 0
    · cases (if_pos hnil).symm.trans hs
      exact .inl rfl
    · exact receive_grows ((if_neg hnil).symm.trans hs)
  | nipInterestOut =>
    left
    cases ht with
    | nothing => rfl
    | nipInterestOut ht => cases ht <;> rfl
  | nipDataOut =>
    left
    cases ht with
    | nothing => rfl
    | nipDataOut ht => cases ht <;> rfl
  | udpInterestOut =>
    left
    cases ht with
    | nothing => rfl
    | udpInterestOut ht => cases ht <;> rfl
  | udpDataOut =>
    left
    cases ht with
    | nothing => rfl
    | udpDataOut ht => cases ht <;> rfl

/-! ### Runs -/

section Runs

variable (blocks : Fin 16 → SimpleNameData) (junk : ℕ → NutEntry)

theorem initAdaptor_lossInv : (initAdaptor blocks junk).LossInv [] where
  toTableInv := initAdaptor_tableInv blocks junk
  fits _ _ hf := by cases hf
  lost := by
    rw [conserved_iff.1 (initAdaptor_conserved blocks junk)]
    rfl

/-- When all frames fit and the allocations succeed, the buffers that are in no place are as many as the
Interests that did not join the pending table and the Data taken while nobody waited for them. -/
theorem buffers_lost {evs : List Event} {s : Adaptor} {h : List Obs}
    (hG : Along step (fun s ev => s.FrameFits ev ∧ s.AllocOk ev) (initAdaptor blocks junk) evs)
    (he : exec step (initAdaptor blocks junk) evs = .ok (s, h)) :
    s.pool.lost.card = lostFrom (fun _ => none) h := by
  have hI := lossInv_step.exec (initAdaptor_lossInv blocks junk) hG he
  simpa using hI.lost

/-- A repeated Interest, and Data that nobody waits for. -/
theorem buffers_lost_two : Reaches step (initAdaptor (fun _ => .zero) fun _ => .zero)
    [.udpInterestIn (nameDgram [47, 97]) ⟨2, 1, 1⟩ allocOk,
      .udpInterestIn (nameDgram [47, 97]) ⟨2, 1, 1⟩ allocOk,
      .nipDataIn (some (nameIbuf [47, 98] 3)) allocOk, .udpDataOut true]
    fun s _ => s.pool.lost.card = 2 := by
  have hrun : Reaches step (initAdaptor (fun _ => .zero) fun _ => .zero)
      [.udpInterestIn (nameDgram [47, 97]) ⟨2, 1, 1⟩ allocOk,
        .udpInterestIn (nameDgram [47, 97]) ⟨2, 1, 1⟩ allocOk,
        .nipDataIn (some (nameIbuf [47, 98] 3)) allocOk, .udpDataOut true]
      fun _ h => lostFrom (fun _ => none) h = 2 := by decide +kernel
  obtain ⟨s, h, he, htwo⟩ := hrun
  exact ⟨s, h, he, (buffers_lost _ _ (by decide +kernel) he).trans htwo⟩

/-- In every run, up to its first fault, there are as many buffers as were ever in use at a time, and at
least sixteen. `irecv` is taken to keep to the arrays that it is given. -/
theorem buffers_peak {evs : List Event} {s : Adaptor} {h : List Obs}
    (he : exec step (initAdaptor blocks junk) evs = .ok (s, h)) :
    s.mem.length = max 16 (peak step inUse (initAdaptor blocks junk) evs) := by
  have hinit : (initAdaptor blocks junk).mem.length = 16 := by simp [initAdaptor]
  rw [← hinit]
  refine inv_step.size_eq_peak (fun s => s.mem.length) inUse (fun hI => ?_)
    (fun {s₁ h₁ ev s₂ o} hI _ hs => ?_) (initAdaptor_inv blocks junk) (along_true _ _) he
  · rw [hI.toSound.length_mem]
    exact Nat.le_add_left _ _
  · have hbefore := hI.toSound.length_mem
    have hafter := (inv_step hI trivial hs).toSound.length_mem
    rcases step_grows hI.toSound hs with hsame | ⟨hmore, hnone⟩
    · omega
    · rw [hnone, List.length_nil] at hafter
      omega

/-- After an exchange there are still sixteen. -/
theorem buffers_peak_exchange : Reaches step (initAdaptor (fun _ => .zero) fun _ => .zero) exchange
    fun s _ => s.mem.length =
      max 16 (peak step inUse (initAdaptor (fun _ => .zero) fun _ => .zero) exchange) := by
  have hrun : Reaches step (initAdaptor (fun _ => .zero) fun _ => .zero) exchange
      fun _ _ => True := by decide +kernel
  obtain ⟨s, h, he, -⟩ := hrun
  exact ⟨s, h, he, buffers_peak _ _ he⟩

end Runs

end Adaptor

end MixSim
