import MixSim.Adaptor.Turns

/-!
# The invariant of the adaptor

`Inv s h` relates a state to the history that led to it, under no condition on the environment:
each buffer has one place, the table keeps its invariant, what has been put on a queue is what has
been taken off it followed by what waits in it, and what a consumer holds is what it took off last.
-/

namespace MixSim

open BufferPool Execution SlotTable

@[simp] theorem enqueued_append (q : FwdQueue) (h o : List Obs) :
    enqueued q (h ++ o) = enqueued q h ++ enqueued q o := List.flatMap_append

@[simp] theorem dequeued_append (q : FwdQueue) (h o : List Obs) :
    dequeued q (h ++ o) = dequeued q h ++ dequeued q o := List.flatMap_append

@[simp] theorem received_append (q : FwdQueue) (h o : List Obs) :
    received q (h ++ o) = received q h ++ received q o := List.flatMap_append

namespace Adaptor

/-- The frames waiting in a queue. -/
def waiting (s : Adaptor) (q : FwdQueue) : List SimpleNameData := (s.queue q).contents.map s.frame

variable {s s' : Adaptor} {q : FwdQueue} {b : ℕ} {o : List Obs}
  {ts : List (Travel Place SimpleNameData)}

theorem filterMap_mem (bs : List ℕ) (hb : ∀ b ∈ bs, b < s.mem.length) :
    bs.filterMap (s.mem[·]?) = bs.map s.frame := by
  rw [← List.filterMap_eq_map]
  exact List.filterMap_congr fun b h => mem_getElem?_of_lt (hb b h)

theorem frames_queue (h : Owned s.pool) (q : FwdQueue) : s.pool.frames (.queue q) = s.waiting q :=
  filterMap_mem _ fun _ hb => h.lt (x := Place.queue q) hb

theorem frames_held (h : Owned s.pool) (q : FwdQueue) :
    s.pool.frames (.held q) = (s.held q).toList.map s.frame :=
  filterMap_mem _ fun _ hb => h.lt (x := Place.held q) hb

/-! ### A turn moves buffers as it says -/

/-- The travels of a step: what they bring to a queue is what the step put on it, what they take from
it is what the step took off, and that goes into the hands of the consumer. -/
structure Traffic (s s' : Adaptor) (o : List Obs) (ts : List (Travel Place SimpleNameData)) :
    Prop where
  moves : Moves s.pool ts s'.pool
  enqueued : ∀ q, ins ts (.queue q) = enqueued q o
  dequeued : ∀ q, outs ts (.queue q) = dequeued q o
  taken : ∀ q, ins ts (.held q) = MixSim.dequeued q o

/-- A turn in which no buffer moves. -/
theorem Traffic.still (hpool : s'.pool = s.pool) (he : ∀ q, MixSim.enqueued q o = [])
    (hd : ∀ q, MixSim.dequeued q o = []) : Traffic s s' o [] :=
  ⟨hpool ▸ .nil, fun q => (he q).symm, fun q => (hd q).symm, fun q => (hd q).symm⟩

/-- The buffer a consumer keeps in hand is not rewritten. -/
theorem Traffic.frame_eq (hT : Traffic s s' o ts) (h : Owned s.pool) (hb : s.held q = some b)
    (hb' : s'.held q = some b) (hd : MixSim.dequeued q o = []) : s'.frame b = s.frame b := by
  have hf := hT.moves.frames h (.held q)
  rw [frames_held h, frames_held (hT.moves.owned h), hT.taken, hd, hb, hb'] at hf
  simp only [Option.toList_some, List.map_singleton, List.append_nil] at hf
  rcases hout : outs ts (.held q) with _ | ⟨x, xs⟩
  · rw [hout] at hf
    simpa using hf
  · rw [hout] at hf
    simp at hf

theorem Traffic.waiting (hT : Traffic s s' o ts) (h : Owned s.pool) (q : FwdQueue) :
    MixSim.dequeued q o ++ s'.waiting q = s.waiting q ++ MixSim.enqueued q o := by
  rw [← frames_queue h, ← frames_queue (hT.moves.owned h), ← hT.enqueued, ← hT.dequeued]
  exact hT.moves.frames h (.queue q)

/-- Every travel arrives somewhere. -/
def Lossless (ts : List (Travel Place SimpleNameData)) : Prop := ∀ t ∈ ts, t.dst ≠ none

theorem ReceiveTurn.traffic {m : Message} {fill : SimpleNameData → Except Fault SimpleNameData}
    {alloc : Alloc} (ht : ReceiveTurn s q m fill alloc (.ok (s', o))) :
    ∃ ts, Traffic s s' o ts ∧ (alloc.calloc = true → Lossless ts) := by
  cases ht with
  | ok hget hfill hsrc hmove =>
    refine ⟨_, ⟨hmove.moves, fun q' => ?_, fun q' => ?_, fun q' => ?_⟩, fun hc => ?_⟩
    · cases alloc.calloc <;> simp [ins, Travel.ins, MixSim.enqueued, Obs.puts]
    · cases alloc.calloc <;> simp [outs, Travel.outs, MixSim.dequeued, Obs.takes, hsrc]
    · cases alloc.calloc <;> simp [ins, Travel.ins, MixSim.dequeued, Obs.takes]
    · simp [Lossless, hc]

theorem IsendTurn.traffic {dlen : SimpleNameData → ℕ} {waitWrite calloc : Bool} {isend : ℤ}
    (ht : IsendTurn s q dlen waitWrite isend calloc (.ok (s', o))) :
    ∃ ts, Traffic s s' o ts ∧ (calloc = true → Lossless ts) := by
  cases ht with
  | idle hpool => exact ⟨[], .still hpool (fun _ => rfl) (fun _ => rfl), fun _ _ => nofun⟩
  | take hheld hmove =>
    refine ⟨_, ⟨hmove.moves, fun q' => ?_, fun q' => ?_, fun q' => ?_⟩, fun _ => by simp [Lossless]⟩
    · simp [ins, Travel.ins, MixSim.enqueued, Obs.puts]
    · simp [outs, Travel.outs, MixSim.dequeued, Obs.takes]
    · simp [ins, Travel.ins, MixSim.dequeued, Obs.takes]
  | wait => exact ⟨[], .still rfl (fun _ => rfl) (fun _ => rfl), fun _ _ => nofun⟩
  | sent hheld hfit hmove =>
    refine ⟨_, ⟨hmove.moves, fun q' => ?_, fun q' => ?_, fun q' => ?_⟩, fun hc => by simp [Lossless, hc]⟩
    · cases calloc <;> simp [ins, Travel.ins, MixSim.enqueued, Obs.puts]
    · simp [outs, Travel.outs, MixSim.dequeued, Obs.takes]
    · cases calloc <;> simp [ins, Travel.ins, MixSim.dequeued, Obs.takes]

theorem InterestOutTurn.traffic {calloc : Bool} (ht : InterestOutTurn s calloc (.ok (s', o))) :
    ∃ ts, Traffic s s' o ts ∧ (calloc = true → Lossless ts) := by
  cases ht with
  | idle hpool => exact ⟨[], .still hpool (fun _ => rfl) (fun _ => rfl), fun _ _ => nofun⟩
  | take hmove =>
    refine ⟨_, ⟨hmove.moves, fun q' => ?_, fun q' => ?_, fun q' => ?_⟩, fun _ => by simp [Lossless]⟩
    · simp [ins, Travel.ins, MixSim.enqueued, Obs.puts]
    · simp [outs, Travel.outs, MixSim.dequeued, Obs.takes]
    · simp [ins, Travel.ins, MixSim.dequeued, Obs.takes]
  | send hheld => exact ⟨[], .still rfl (fun _ => rfl) (fun _ => rfl), fun _ _ => nofun⟩
  | finish hheld hmove =>
    refine ⟨_, ⟨hmove.moves, fun q' => ?_, fun q' => ?_, fun q' => ?_⟩, fun hc => by simp [Lossless, hc]⟩
    · cases calloc <;> simp [ins, Travel.ins, MixSim.enqueued, Obs.puts]
    · simp [outs, Travel.outs, MixSim.dequeued, Obs.takes]
    · cases calloc <;> simp [ins, Travel.ins, MixSim.dequeued, Obs.takes]

/-- Of the turns of `udp_interest_in`, those in which `nut_set` does not return 1 lose a buffer. -/
theorem InterestInTurn.traffic {buf : List UInt8} {addr : SockaddrIn} {alloc : Alloc}
    (ht : InterestInTurn s buf addr alloc (.ok (s', o))) :
    ∃ ts, Traffic s s' o ts ∧ (alloc.calloc = true →
      (∀ f t ret, f ∈ s.filled alloc.malloc (·.memcpy buf) →
        SetOutcome s.nutTable (nutKey f.name) addr alloc.grow (.ok (t, ret)) → ret = 1) →
      Lossless ts) := by
  cases ht with
  | empty hbuf => exact ⟨[], .still rfl (fun _ => rfl) (fun _ => rfl), fun _ _ _ => nofun⟩
  | accepted hne hget hfill hnlen hset hsrc hmove =>
    refine ⟨_, ⟨hmove.moves, fun q' => ?_, fun q' => ?_, fun q' => ?_⟩, fun hc _ => by
      simp [Lossless, hc]⟩
    · cases alloc.calloc <;> simp [ins, Travel.ins, MixSim.enqueued, Obs.puts]
    · cases alloc.calloc <;> simp [outs, Travel.outs, MixSim.dequeued, Obs.takes, hsrc]
    · cases alloc.calloc <;> simp [ins, Travel.ins, MixSim.dequeued, Obs.takes]
  | dropped hne hget hfill hnlen hset hret hsrc hmove =>
    refine ⟨_, ⟨hmove.moves, fun q' => ?_, fun q' => ?_, fun q' => ?_⟩, fun _ hacc =>
      absurd (hacc _ _ _ hget hset) hret⟩
    · simp [ins, Travel.ins, MixSim.enqueued, Obs.puts]
    · simp [outs, Travel.outs, MixSim.dequeued, Obs.takes, hsrc]
    · simp [ins, Travel.ins, MixSim.dequeued, Obs.takes]

/-- Of the turns of `udp_data_out`, those that find no entry lose a buffer. -/
theorem DataOutTurn.traffic {calloc : Bool} (ht : DataOutTurn s calloc (.ok (s', o))) :
    ∃ ts, Traffic s s' o ts ∧ (calloc = true →
      (s.held .realtosimData = none → ∀ f, MixSim.dequeued .realtosimData o = [f] →
        f.nlen ≤ bufSize ∧ lookup s.nutTable.slots (nutKey f.name) ≠ none) → Lossless ts) := by
  cases ht with
  | idle _ hpool => exact ⟨[], .still hpool (fun _ => rfl) (fun _ => rfl), fun _ _ _ => nofun⟩
  | unknown hheld hnone hmoves =>
    refine ⟨_, ⟨hmoves, fun q' => ?_, fun q' => ?_, fun q' => ?_⟩, fun _ hknown => ?_⟩
    · simp [ins, Travel.ins, MixSim.enqueued, Obs.puts]
    · simp [outs, Travel.outs, MixSim.dequeued, Obs.takes]
    · simp [ins, Travel.ins, MixSim.dequeued, Obs.takes]
    · obtain ⟨hn, hl⟩ := hknown hheld _ rfl
      exact absurd (hnone hn) hl
  | start hheld hat hmove =>
    refine ⟨_, ⟨hmove.moves, fun q' => ?_, fun q' => ?_, fun q' => ?_⟩, fun _ _ => by simp [Lossless]⟩
    · simp [ins, Travel.ins, MixSim.enqueued, Obs.puts]
    · simp [outs, Travel.outs, MixSim.dequeued, Obs.takes]
    · simp [ins, Travel.ins, MixSim.dequeued, Obs.takes]
  | send => exact ⟨[], .still rfl (fun _ => rfl) (fun _ => rfl), fun _ _ _ => nofun⟩
  | next => exact ⟨[], .still rfl (fun _ => rfl) (fun _ => rfl), fun _ _ _ => nofun⟩
  | finish hheld harr hphase hat hi hwf hslots hmove =>
    refine ⟨_, ⟨hmove.moves, fun q' => ?_, fun q' => ?_, fun q' => ?_⟩, fun hc _ => by
      simp [Lossless, hc]⟩
    · cases calloc <;> simp [ins, Travel.ins, MixSim.enqueued, Obs.puts]
    · simp [outs, Travel.outs, MixSim.dequeued, Obs.takes]
    · cases calloc <;> simp [ins, Travel.ins, MixSim.dequeued, Obs.takes]

/-! ### Every turn keeps the invariant -/

/-- The table grows and nothing else that `Sound` speaks about changes. -/
theorem Sound.mono (h : s.Sound) (hT : Traffic s s' o ts) (hwf : s'.nutTable.WF)
    (harr : s.nutTable.arr ≤ s'.nutTable.arr)
    (hat : ∀ i k as, At s.nutTable.slots i k as →
      ∃ as', At s'.nutTable.slots i k as' ∧ as <+: as')
    (hheld : s'.held .realtosimData = s.held .realtosimData) (hentry : s'.entry = s.entry)
    (hi : s'.i = s.i) (hd : MixSim.dequeued .realtosimData o = []) : s'.Sound where
  owned := hT.moves.owned h.owned
  wf := hwf
  arr_le b hb := by
    rw [hheld] at hb
    rw [hentry]
    exact (h.arr_le b hb).trans harr
  entry b hb heq := by
    have hb' := hb
    rw [hheld] at hb
    rw [hentry] at heq
    have hle := h.arr_le b hb
    obtain ⟨as, hat', hlt⟩ := h.entry b hb (by omega)
    obtain ⟨as', has', hpre⟩ := hat _ _ _ hat'
    refine ⟨as', ?_, ?_⟩
    · rw [hentry, hT.frame_eq h.owned hb hb' hd]
      exact has'
    · rw [hi]
      exact hlt.trans_le hpre.length_le

theorem InterestInTurn.sound {buf : List UInt8} {addr : SockaddrIn} {alloc : Alloc}
    (ht : InterestInTurn s buf addr alloc (.ok (s', o))) (h : s.Sound) : s'.Sound := by
  obtain ⟨ts, hT, -⟩ := ht.traffic
  cases ht with
  | empty => exact h
  | accepted hne hget hfill hnlen hset =>
    obtain ⟨hwf, harr⟩ := hset.wf h.wf
    exact h.mono hT hwf harr (fun _ _ _ hat => hset.at_mono hat) rfl rfl rfl
      (by cases alloc.calloc <;> rfl)
  | dropped hne hget hfill hnlen hset =>
    obtain ⟨hwf, harr⟩ := hset.wf h.wf
    exact h.mono hT hwf harr (fun _ _ _ hat => hset.at_mono hat) rfl rfl rfl rfl

theorem DataOutTurn.sound {calloc : Bool} (ht : DataOutTurn s calloc (.ok (s', o)))
    (h : s.Sound) : s'.Sound := by
  obtain ⟨ts, hT, -⟩ := ht.traffic
  have howned := hT.moves.owned h.owned
  cases ht with
  | idle => exact ⟨howned, h.wf, h.arr_le, h.entry⟩
  | unknown =>
    exact ⟨howned, h.wf, fun b hb => by simp at hb, fun b hb => by simp at hb⟩
  | start hheld hat hmove =>
    rename_i b idx queue as
    refine ⟨howned, h.wf, fun c hc => le_rfl, fun c hc _ => ?_⟩
    have hcb : c = b := by simpa using hc.symm
    subst hcb
    exact ⟨as, hat, (h.wf.at_addrs hat).1⟩
  | send hheld harr hphase hat ha => exact ⟨howned, h.wf, h.arr_le, h.entry⟩
  | next hheld harr hphase hat hi =>
    rename_i b as
    refine ⟨howned, h.wf, h.arr_le, fun c hc _ => ?_⟩
    have hcb : c = b := by
      have hc' : s.held .realtosimData = some c := hc
      rw [hheld] at hc'
      exact (Option.some.inj hc').symm
    subst hcb
    exact ⟨as, hat, hi⟩
  | finish hheld harr hphase hat hi hwf hslots hmove =>
    exact ⟨howned, hwf, fun c hc => by simp [release] at hc, fun c hc => by simp [release] at hc⟩

theorem Turn.traffic {ev : Event} (ht : Turn s ev (.ok (s', o))) : ∃ ts, Traffic s s' o ts := by
  cases ht with
  | nothing => exact ⟨[], .still rfl (fun _ => rfl) (fun _ => rfl)⟩
  | nipInterestIn ht | nipDataIn ht | udpDataIn _ ht => exact ht.traffic.imp fun _ => And.left
  | nipInterestOut ht | nipDataOut ht => exact ht.traffic.imp fun _ => And.left
  | udpInterestIn ht => exact ht.traffic.imp fun _ => And.left
  | udpInterestOut ht => exact ht.traffic.imp fun _ => And.left
  | udpDataOut ht => exact ht.traffic.imp fun _ => And.left

/-- Observations that concern the table or `udp_data_out`. -/
def OfTable : Obs → Prop
  | .nutSet _ _ _ => True
  | .dequeue q _ | .sendto q _ _ | .done q _ => q = .realtosimData
  | _ => False

/-- A turn of a coroutine that has nothing to do with the table. -/
structure Bystander (s s' : Adaptor) (o : List Obs) : Prop where
  nut : s'.nutTable = s.nutTable
  held : s'.held .realtosimData = s.held .realtosimData
  entry : s'.entry = s.entry
  i : s'.i = s.i
  phase : s'.dataPhase = s.dataPhase
  obs : ∀ x ∈ o, ¬ OfTable x

theorem Bystander.dequeued (hB : Bystander s s' o) : MixSim.dequeued .realtosimData o = [] := by
  refine List.flatMap_eq_nil_iff.2 fun x hx => ?_
  have hobs := hB.obs x hx
  cases x <;> simp_all [Obs.takes, OfTable]

/-- Only `udp_interest_in` and `udp_data_out` have to do with the table. -/
theorem Turn.bystander {ev : Event} (ht : Turn s ev (.ok (s', o))) :
    Bystander s s' o ∨
    (∃ datagram addr alloc, ev = .udpInterestIn datagram addr alloc ∧
      InterestInTurn s (datagram.take 2048) addr alloc (.ok (s', o))) ∨
    (∃ calloc, ev = .udpDataOut calloc ∧ DataOutTurn s calloc (.ok (s', o))) := by
  have hnil : ∀ x ∈ ([] : List Obs), ¬ OfTable x := fun x hx => nomatch hx
  cases ht with
  | nothing => exact Or.inl ⟨rfl, rfl, rfl, rfl, rfl, hnil⟩
  | nipInterestIn ht | nipDataIn ht | udpDataIn _ ht =>
    left
    cases ht with
    | ok => exact ⟨rfl, rfl, rfl, rfl, rfl, by split_ifs <;> simp [OfTable]⟩
  | nipInterestOut ht | nipDataOut ht =>
    left
    cases ht with
    | idle => exact ⟨rfl, rfl, rfl, rfl, rfl, hnil⟩
    | take => exact ⟨rfl, by simp, rfl, rfl, rfl, by simp [OfTable]⟩
    | wait => exact ⟨rfl, rfl, rfl, rfl, rfl, hnil⟩
    | sent => exact ⟨rfl, by simp [release], rfl, rfl, rfl, by simp [OfTable]⟩
  | udpInterestOut ht =>
    left
    cases ht with
    | idle => exact ⟨rfl, rfl, rfl, rfl, rfl, hnil⟩
    | take => exact ⟨rfl, by simp, rfl, rfl, rfl, by simp [OfTable]⟩
    | send => exact ⟨rfl, rfl, rfl, rfl, rfl, by simp [OfTable]⟩
    | finish => exact ⟨rfl, by simp [release], rfl, rfl, rfl, by simp [OfTable]⟩
  | udpInterestIn ht => exact Or.inr (Or.inl ⟨_, _, _, rfl, ht⟩)
  | udpDataOut ht => exact Or.inr (Or.inr ⟨_, rfl, ht⟩)

theorem Turn.sound {ev : Event} (ht : Turn s ev (.ok (s', o))) (h : s.Sound) : s'.Sound := by
  rcases ht.bystander with hB | ⟨datagram, addr, alloc, rfl, hin⟩ | ⟨calloc, rfl, hout⟩
  · obtain ⟨ts, hT⟩ := ht.traffic
    refine h.mono hT (hB.nut ▸ h.wf) (by rw [hB.nut]) (fun i k as hat => ?_) hB.held hB.entry hB.i
      hB.dequeued
    exact ⟨as, hB.nut ▸ hat, List.prefix_refl as⟩
  · exact hin.sound h
  · exact hout.sound h

/-- The state and the history fit together. -/
structure Inv (s : Adaptor) (h : List Obs) : Prop extends s.Sound where
  fifo : ∀ q, MixSim.enqueued q h = MixSim.dequeued q h ++ s.waiting q
  taken : ∀ q, (s.held q).toList.map s.frame <:+ MixSim.dequeued q h

/-- What a consumer has in hand is what it took off last. -/
theorem Inv.getLast {h : List Obs} (hI : s.Inv h) (hb : s.held q = some b) :
    (MixSim.dequeued q h).getLast? = some (s.frame b) := by
  obtain ⟨l, hl⟩ := hI.taken q
  rw [← hl, hb]
  simp

/-- What a consumer has in hand has been on its queue. -/
theorem Inv.held_mem {h : List Obs} (hI : s.Inv h) (hb : s.held q = some b) :
    s.frame b ∈ MixSim.enqueued q h := by
  rw [hI.fifo]
  exact List.mem_append_left _ (List.mem_of_getLast? (hI.getLast hb))

/-- What waits in a queue has been put there. -/
theorem Inv.waiting_mem {h : List Obs} {f : SimpleNameData} (hI : s.Inv h) (hf : f ∈ s.waiting q) :
    f ∈ MixSim.enqueued q h := by
  rw [hI.fifo]
  exact List.mem_append_right _ hf

/-- Every step keeps the invariant. -/
theorem inv_step : Inductive step (fun _ _ => True) Inv := by
  intro s h ev s' o hI _ hs
  have ht := step_turn hI.toSound ev
  rw [hs] at ht
  obtain ⟨ts, hT⟩ := ht.traffic
  refine ⟨ht.sound hI.toSound, fun q => ?_, fun q => ?_⟩
  · calc MixSim.enqueued q (h ++ o)
        = MixSim.dequeued q h ++ (s.waiting q ++ MixSim.enqueued q o) := by
          rw [enqueued_append, hI.fifo, List.append_assoc]
      _ = MixSim.dequeued q (h ++ o) ++ s'.waiting q := by
          rw [← hT.waiting hI.owned, dequeued_append, List.append_assoc]
  · have hf := hT.moves.frames hI.owned (.held q)
    rw [frames_held hI.owned, frames_held (hT.moves.owned hI.owned), hT.taken] at hf
    rw [dequeued_append]
    obtain ⟨l, hl⟩ := hI.taken q
    refine ⟨l ++ outs ts (.held q), ?_⟩
    rw [List.append_assoc, hf, ← List.append_assoc, hl]

/-! ### The initial state -/

/-- The buffers of `init_adaptor` are all free. -/
theorem contents_initFree : ∀ (bs : List ℕ) (q : Lfq ℕ),
    (bs.foldl (fun q b => q.enqueue b true) q).contents = q.contents ++ bs
  | [], q => by simp
  | b :: bs, q => by
      rw [List.foldl_cons, contents_initFree bs, Lfq.contents_enqueue, List.append_assoc]
      rfl

section Init

variable (blocks : Fin 16 → SimpleNameData) (junk : ℕ → NutEntry)

theorem initAdaptor_loc (x : Place) :
    (initAdaptor blocks junk).pool.loc x = if x = .free then List.range 16 else [] := by
  cases x with
  | free =>
    rw [if_pos rfl]
    show ((List.range 16).foldl (fun q b => q.enqueue b true) (Lfq.init ℕ 0)).contents = _
    rw [contents_initFree, Lfq.contents_init, List.nil_append]
  | queue q => exact Lfq.contents_init 0
  | held q => rfl

theorem initAdaptor_inv : (initAdaptor blocks junk).Inv [] := by
  obtain ⟨hwf, -⟩ := nutCreate_wf 64 junk
  have hmem : (initAdaptor blocks junk).pool.mem.length = 16 := by
    simp [initAdaptor, pool]
  have howned : Owned (initAdaptor blocks junk).pool := by
    refine ⟨fun x => ?_, fun {x y b} hx hy => ?_, fun {x b} hx => ?_⟩
    · rw [initAdaptor_loc]
      split_ifs
      · exact List.nodup_range
      · exact List.nodup_nil
    · rw [initAdaptor_loc] at hx hy
      split_ifs at hx hy with h1 h2
      · rw [h1, h2]
      · simp at hy
      · simp at hx
      · simp at hx
    · rw [initAdaptor_loc] at hx
      rw [hmem]
      split_ifs at hx
      · exact List.mem_range.1 hx
      · simp at hx
  refine ⟨⟨howned, hwf, fun b hb => ?_, fun b hb => ?_⟩, fun q => ?_, fun q => ?_⟩
  · cases hb
  · cases hb
  · have hnil : ((initAdaptor blocks junk).queue q).contents = [] := Lfq.contents_init 0
    rw [waiting, hnil]
    rfl
  · exact List.nil_suffix

/-- The invariant holds after every run. -/
theorem inv_run {evs : List Event} {s : Adaptor} {h : List Obs}
    (he : exec step (initAdaptor blocks junk) evs = .ok (s, h)) : s.Inv h := by
  have hrun := inv_step.exec (initAdaptor_inv blocks junk) (along_true _ _) he
  simpa using hrun

end Init

end Adaptor

end MixSim
