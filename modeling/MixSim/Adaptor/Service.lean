import MixSim.Adaptor.Forwarder
import MixSim.Library.Service

/-!
# How long a message waits

Each of the four queues has its sender, and the four senders are servers of the forwarder
(`Forwarder.server`): a sender that is resumed, with its socket ready, takes the next message or brings
the one in hand closer to its end, whatever the other coroutines do meanwhile. No message takes more
than `FwdQueue.cost` turns, for Data because at most eight addresses wait for it. The adaptor is that
forwarder, so that a bounded number of turns deals with all that waits (`waiting_served`).
-/

namespace MixSim

open Execution

variable {w w' : Forwarder} {o : List MessageObs} {q q' : FwdQueue} {m : Message} {ev : Event}

/-! ### Turns and what is seen of them -/

/-- The turns of a sender: it is resumed, and where it waits for its socket this is ready. -/
def FwdQueue.Turns : FwdQueue → Event → Prop
  | .simtorealInterest, .nipInterestOut waitWrite _ _ => waitWrite = true
  | .simtorealData, .nipDataOut waitWrite _ _ => waitWrite = true
  | .realtosimInterest, .udpInterestOut _ => True
  | .realtosimData, .udpDataOut _ => True
  | _, _ => False

instance : (q : FwdQueue) → DecidablePred q.Turns
  | q, ev => by unfold FwdQueue.Turns; split <;> infer_instance

/-- The turns that a message takes: for Data two for each address, and one to take it. -/
def FwdQueue.cost : FwdQueue → ℕ
  | .simtorealInterest | .simtorealData => 2
  | .realtosimInterest => 3
  | .realtosimData => 2 * maxAddrPername + 1

/-- What an observation takes off a queue. -/
def MessageObs.takes (q : FwdQueue) : MessageObs → List Message
  | .dequeue q' m => if q' = q then [m] else []
  | _ => []

/-- What the sender of a queue is done with. -/
def MessageObs.gives (q : FwdQueue) : MessageObs → List Message
  | .done q' m => if q' = q then [m] else []
  | _ => []

namespace Forwarder

/-- The turns that are left of the message in hand. -/
def rest (w : Forwarder) (q : FwdQueue) : ℕ :=
  match w.inHand q with
  | none => 0
  | some _ =>
      match q with
      | .simtorealInterest | .simtorealData => 1
      | .realtosimInterest =>
          match w.interestPhase with
          | .before => 2
          | .after => 1
      | .realtosimData =>
          match w.dataPhase with
          | .before => 2 * (maxAddrPername - w.i)
          | .after => 2 * (maxAddrPername - w.i) - 1

/-- A name with addresses has one to eight; for the Data in hand there are some, and `i` is one of
them. -/
structure Sound (w : Forwarder) : Prop where
  pending : ∀ {k as}, w.pending k = some as → as ≠ [] ∧ as.length ≤ maxAddrPername
  hand : ∀ {m}, w.inHand .realtosimData = some m →
    ∃ as, w.pending (nutKey m.name) = some as ∧ w.i < as.length

/-- A step in which the sender of `q` has no turn: messages may join its queue. -/
structure Waits (w : Forwarder) (q : FwdQueue) (w' : Forwarder) (o : List MessageObs) : Prop where
  queue : w.queue q <+: w'.queue q
  takes : o.flatMap (MessageObs.takes q) = []
  gives : o.flatMap (MessageObs.gives q) = []
  hand : w'.inHand q = w.inHand q
  rest : w'.rest q = w.rest q

/-- A turn of the sender of `q`. -/
inductive Serves (w : Forwarder) (q : FwdQueue) (w' : Forwarder) (o : List MessageObs) : Prop
  | idle (hand : w.inHand q = none) (queue : w.queue q = []) (same : w' = w) (obs : o = [])
  | take (m : Message) (hand : w.inHand q = none) (queue : w.queue q = m :: w'.queue q)
      (hand' : w'.inHand q = some m) (rest : w'.rest q + 1 = q.cost) (obs : o = [.dequeue q m])
  | drop (m : Message) (data : q = .realtosimData) (hand : w.inHand q = none)
      (queue : w.queue q = m :: w'.queue q) (hand' : w'.inHand q = none) (obs : o = [.dequeue q m])
  | work (m : Message) (hand : w.inHand q = some m) (queue : w'.queue q = w.queue q)
      (hand' : w'.inHand q = some m) (rest : w'.rest q + 1 = w.rest q)
      (takes : o.flatMap (MessageObs.takes q) = []) (gives : o.flatMap (MessageObs.gives q) = [])
  | finish (m : Message) (hand : w.inHand q = some m) (queue : w'.queue q = w.queue q)
      (hand' : w'.inHand q = none) (rest : 0 < w.rest q)
      (takes : o.flatMap (MessageObs.takes q) = []) (gives : o.flatMap (MessageObs.gives q) = [m])

theorem rest_of_none (h : w.inHand q = none) : w.rest q = 0 := by simp [rest, h]

theorem Sound.rest_pos (h : w.Sound) (hin : w.inHand q = some m) : 0 < w.rest q := by
  cases q with
  | simtorealInterest | simtorealData => simp [rest, hin]
  | realtosimInterest => cases hp : w.interestPhase <;> simp [rest, hin, hp]
  | realtosimData =>
    obtain ⟨as, has, hi⟩ := h.hand hin
    have hle := (h.pending has).2
    cases hp : w.dataPhase <;> simp [rest, hin, hp] <;> omega

/-! ### Steps -/

theorem waits_refl : w.Waits q w [] := ⟨List.prefix_refl _, rfl, rfl, rfl, rfl⟩

theorem waits_put (q' : FwdQueue) (m : Message) : w.Waits q (w.put q' m) [] where
  queue := by
    by_cases hq : q = q'
    · subst hq
      simp [put]
    · simp [put, hq]
  takes := rfl
  gives := rfl
  hand := rfl
  rest := rfl

/-- Observations that are none of the sender's. -/
theorem Waits.obs (h : w.Waits q w' []) (ht : o.flatMap (MessageObs.takes q) = [])
    (hg : o.flatMap (MessageObs.gives q) = []) : w.Waits q w' o :=
  { h with takes := ht, gives := hg }

theorem receive_waits (q' : FwdQueue) (m : Message) :
    w.Waits q (w.receive q' m).1 (w.receive q' m).2 := (waits_put q' m).obs rfl rfl

/-- The sender that has nothing in hand finds its queue empty, or takes the first message. -/
theorem take_cases (w : Forwarder) (q : FwdQueue) :
    w.queue q = [] ∧ w.take q = none ∨
    ∃ m ms, w.queue q = m :: ms ∧ w.take q = some ({ w with
      queue := Function.update w.queue q ms
      inHand := Function.update w.inHand q (some m) }, m) := by
  rcases hq : w.queue q with _ | ⟨m, ms⟩
  · exact .inl ⟨rfl, by rw [take, hq]⟩
  · exact .inr ⟨m, ms, rfl, by rw [take, hq]⟩

section Isend

variable {ready : Bool} {ret : ℤ}

theorem isend_waits (hq : q ≠ q') : w.Waits q (w.isend q' ready ret).1 (w.isend q' ready ret).2 := by
  unfold isend
  rcases hin : w.inHand q' with _ | m
  · rcases w.take_cases q' with ⟨-, htake⟩ | ⟨m, ms, -, htake⟩
    · simpa only [htake] using waits_refl
    · simp only [htake]
      constructor <;> simp [rest, MessageObs.takes, MessageObs.gives, hq, Ne.symm hq]
  · cases ready with
    | false => exact waits_refl
    | true => constructor <;> simp [release, rest, MessageObs.takes, MessageObs.gives, hq, Ne.symm hq]

theorem isend_serves (hq : q = .simtorealInterest ∨ q = .simtorealData)
    (hready : ready = true ∨ w.inHand q = none) :
    w.Serves q (w.isend q ready ret).1 (w.isend q ready ret).2 := by
  unfold isend
  rcases hin : w.inHand q with _ | m
  · rcases w.take_cases q with ⟨hnil, htake⟩ | ⟨m, ms, hcons, htake⟩
    · simp only [htake]
      exact .idle hin hnil rfl rfl
    · simp only [htake]
      refine .take m hin ?_ ?_ ?_ rfl
      · simp [hcons]
      · simp
      · rcases hq with rfl | rfl <;> simp [rest, FwdQueue.cost]
  · have hready : ready = true := by simpa [hin] using hready
    subst hready
    refine .finish m hin rfl ?_ ?_ ?_ ?_
    · simp [release]
    · rcases hq with rfl | rfl <;> simp [rest, hin]
    · simp [MessageObs.takes]
    · simp [MessageObs.gives]

end Isend

theorem interestOut_waits (hq : q ≠ .realtosimInterest) :
    w.Waits q w.interestOut.1 w.interestOut.2 := by
  unfold interestOut
  rcases hin : w.inHand .realtosimInterest with _ | m
  · rcases w.take_cases .realtosimInterest with ⟨-, htake⟩ | ⟨m, ms, -, htake⟩
    · simpa only [htake] using waits_refl
    · simp only [htake]
      cases q <;> constructor <;> simp_all [rest, MessageObs.takes, MessageObs.gives]
  · cases hp : w.interestPhase <;> cases q <;> constructor <;>
      simp_all [release, rest, MessageObs.takes, MessageObs.gives]

theorem interestOut_serves : w.Serves .realtosimInterest w.interestOut.1 w.interestOut.2 := by
  unfold interestOut
  rcases hin : w.inHand .realtosimInterest with _ | m
  · rcases w.take_cases .realtosimInterest with ⟨hnil, htake⟩ | ⟨m, ms, hcons, htake⟩
    · simp only [htake]
      exact .idle hin hnil rfl rfl
    · simp only [htake]
      exact .take m hin (by simp [hcons]) (by simp) (by simp [rest, FwdQueue.cost]) rfl
  · cases hp : w.interestPhase with
    | before => exact .work m hin rfl hin (by simp [rest, hin, hp]) rfl rfl
    | after =>
      refine .finish m hin rfl ?_ ?_ rfl rfl
      · simp [release]
      · simp [rest, hin, hp]

/-- An Interest that comes in joins its queue, or nothing does. -/
theorem interestIn_waits (m : Message) (addr : SockaddrIn) :
    w.Waits q (w.interestIn m addr).1 (w.interestIn m addr).2 := by
  unfold interestIn
  simp only
  split_ifs with hret
  · have hput := waits_put (w := { w with pending := (w.pending.set (nutKey m.name) addr).1 })
      (q := q) .simtorealInterest m
    exact ⟨hput.queue, rfl, rfl, hput.hand, hput.rest⟩
  · exact ⟨List.prefix_refl _, rfl, rfl, rfl, rfl⟩

theorem dataOut_waits (hq : q ≠ .realtosimData) : w.Waits q w.dataOut.1 w.dataOut.2 := by
  unfold dataOut
  rcases hin : w.inHand .realtosimData with _ | m
  · rcases w.take_cases .realtosimData with ⟨-, htake⟩ | ⟨m, ms, -, htake⟩
    · simpa only [htake] using waits_refl
    · simp only [htake]
      cases w.pending (nutKey m.name) <;> cases q <;> constructor <;>
        simp_all [release, rest, MessageObs.takes, MessageObs.gives]
  · cases w.dataPhase with
    | before =>
      cases hget : ((w.pending (nutKey m.name)).getD [])[w.i]? with
      | none => simpa only [hget] using waits_refl
      | some a =>
        simp only [hget]
        cases q <;> constructor <;> simp_all [rest, MessageObs.takes, MessageObs.gives]
    | after =>
      simp only
      split_ifs
      · cases q <;> constructor <;> simp_all [rest]
      · cases q <;> constructor <;> simp_all [release, rest, MessageObs.takes, MessageObs.gives]

theorem dataOut_serves (h : w.Sound) : w.Serves .realtosimData w.dataOut.1 w.dataOut.2 := by
  unfold dataOut
  rcases hin : w.inHand .realtosimData with _ | m
  · rcases w.take_cases .realtosimData with ⟨hnil, htake⟩ | ⟨m, ms, hcons, htake⟩
    · simp only [htake]
      exact .idle hin hnil rfl rfl
    · simp only [htake]
      cases w.pending (nutKey m.name) with
      | none => exact .drop m rfl hin (by simp [release, hcons]) (by simp [release]) rfl
      | some as => exact .take m hin (by simp [hcons]) (by simp) (by simp [rest, FwdQueue.cost]) rfl
  · obtain ⟨as, has, hi⟩ := h.hand hin
    have hle := (h.pending has).2
    cases hp : w.dataPhase with
    | before =>
      have hget : ((w.pending (nutKey m.name)).getD [])[w.i]? = some as[w.i] := by
        rw [has, Option.getD_some]
        exact List.getElem?_eq_getElem hi
      simp only [hget]
      refine .work m hin rfl hin ?_ rfl rfl
      simp only [rest, hin, hp]
      omega
    | after =>
      simp only [has, Option.getD_some]
      split_ifs with hlt
      · refine .work m hin rfl hin ?_ rfl rfl
        simp only [rest, hin, hp]
        omega
      · exact .finish m hin rfl (by simp [release]) (h.rest_pos hin) rfl rfl

/-! ### What the forwarder keeps -/

theorem set_pending (hm : ∀ {k as}, w.pending k = some as → as ≠ [] ∧ as.length ≤ maxAddrPername)
    {k k' : List UInt8} {a : SockaddrIn} {as : List SockaddrIn}
    (has : (w.pending.set k a).1 k' = some as) : as ≠ [] ∧ as.length ≤ maxAddrPername := by
  by_cases hk : k' = k
  · subst hk
    unfold AddrMap.set at has
    rcases hm' : w.pending k' with _ | as'
    · simp only [hm', Function.update_self, Option.some.injEq] at has
      subst has
      exact ⟨List.cons_ne_nil _ _, Nat.succ_le_of_lt (by decide)⟩
    · have hold := hm hm'
      simp only [hm'] at has
      split_ifs at has with hdup hfull
      · exact hm has
      · exact hm has
      · simp only [Function.update_self, Option.some.injEq] at has
        subst has
        refine ⟨by simp, ?_⟩
        rw [List.length_append, List.length_singleton]
        omega
  · exact hm ((AddrMap.set_of_ne hk).symm.trans has)

/-- An address that joins goes behind those that wait. -/
theorem set_grows {k k' : List UInt8} {a : SockaddrIn} {as : List SockaddrIn}
    (has : w.pending k' = some as) :
    ∃ as', (w.pending.set k a).1 k' = some as' ∧ as.length ≤ as'.length := by
  by_cases hk : k' = k
  · subst hk
    simp only [AddrMap.set, has]
    split_ifs
    · exact ⟨as, has, le_rfl⟩
    · exact ⟨as, has, le_rfl⟩
    · exact ⟨as ++ [a], Function.update_self _ _ _, by simp⟩
  · exact ⟨as, (AddrMap.set_of_ne hk).trans has, le_rfl⟩

/-- Steps that leave the map and the Data in hand alone. -/
theorem Sound.frame (h : w.Sound) (hp : w'.pending = w.pending)
    (hin : w'.inHand .realtosimData = w.inHand .realtosimData) (hi : w'.i = w.i) : w'.Sound where
  pending has := h.pending (hp ▸ has)
  hand hm := by
    rw [hp, hi]
    exact h.hand (hin ▸ hm)

theorem Sound.interestIn (h : w.Sound) (m : Message) (addr : SockaddrIn) :
    (w.interestIn m addr).1.Sound := by
  have hset : Sound { w with pending := (w.pending.set (nutKey m.name) addr).1 } := by
    refine ⟨fun has => set_pending h.pending has, fun {m'} hin => ?_⟩
    obtain ⟨as, has, hi⟩ := h.hand hin
    obtain ⟨as', has', hle⟩ := set_grows (k := nutKey m.name) (a := addr) has
    exact ⟨as', has', hi.trans_le hle⟩
  unfold Forwarder.interestIn
  simp only
  split_ifs
  · exact hset.frame rfl rfl rfl
  · exact hset

theorem Sound.dataOut (h : w.Sound) : w.dataOut.1.Sound := by
  unfold Forwarder.dataOut
  rcases hin : w.inHand .realtosimData with _ | m
  · rcases w.take_cases .realtosimData with ⟨-, htake⟩ | ⟨m, ms, -, htake⟩
    · simpa only [htake] using h
    · simp only [htake]
      rcases has : w.pending (nutKey m.name) with _ | as
      · refine ⟨h.pending, fun hm => ?_⟩
        simp [release] at hm
      · refine ⟨h.pending, fun {m'} hm => ?_⟩
        simp only [Function.update_self, Option.some.injEq] at hm
        subst hm
        exact ⟨as, has, List.length_pos_of_ne_nil (h.pending has).1⟩
  · obtain ⟨as, has, hi⟩ := h.hand hin
    cases w.dataPhase with
    | before =>
      cases hget : ((w.pending (nutKey m.name)).getD [])[w.i]? with
      | none => simpa only [hget] using h
      | some a =>
        simp only [hget]
        exact h.frame rfl rfl rfl
    | after =>
      simp only [has, Option.getD_some]
      split_ifs with hlt
      · refine ⟨h.pending, fun {m'} hm => ?_⟩
        rw [hin, Option.some.injEq] at hm
        subst hm
        exact ⟨as, has, hlt⟩
      · refine ⟨fun {k as'} hk => ?_, fun hm => ?_⟩
        · by_cases hkey : k = nutKey m.name
          · simp [release, AddrMap.del, hkey] at hk
          · refine h.pending (k := k) ?_
            simpa [release, AddrMap.del, hkey] using hk
        · simp [release] at hm

theorem Sound.isend (h : w.Sound) (hq : q ≠ .realtosimData) (ready : Bool) (ret : ℤ) :
    (w.isend q ready ret).1.Sound := by
  have hhand : (w.isend q ready ret).1.inHand .realtosimData = w.inHand .realtosimData :=
    (isend_waits hq.symm).hand
  refine h.frame ?_ hhand ?_
  all_goals
    unfold Forwarder.isend
    rcases w.inHand q with _ | m
    · rcases w.take_cases q with ⟨-, htake⟩ | ⟨m, ms, -, htake⟩ <;> simp only [htake]
    · cases ready <;> rfl

theorem Sound.interestOut (h : w.Sound) : w.interestOut.1.Sound := by
  have hhand : w.interestOut.1.inHand .realtosimData = w.inHand .realtosimData :=
    (interestOut_waits (by decide)).hand
  refine h.frame ?_ hhand ?_
  all_goals
    unfold Forwarder.interestOut
    rcases w.inHand .realtosimInterest with _ | m
    · rcases w.take_cases .realtosimInterest with ⟨-, htake⟩ | ⟨m, ms, -, htake⟩ <;>
        simp only [htake]
    · cases w.interestPhase <;> rfl

theorem Sound.turn (h : w.Sound) (ev : Event) : (w.turn ev).1.Sound := by
  cases ev with
  | nipInterestIn irecv _ | nipDataIn irecv _ =>
    cases irecv with
    | none => exact h
    | some ibuf => exact h.frame rfl rfl rfl
  | nipInterestOut | nipDataOut => exact h.isend (by decide) _ _
  | udpInterestIn datagram addr _ =>
    simp only [Forwarder.turn]
    split_ifs
    · exact h
    · exact h.interestIn _ addr
  | udpDataIn datagram _ =>
    simp only [Forwarder.turn]
    split_ifs
    · exact h
    · exact h.frame rfl rfl rfl
  | udpInterestOut => exact h.interestOut
  | udpDataOut => exact h.dataOut

/-- At a step the sender of a queue has its turn, or waits. -/
theorem turn_cases (h : w.Sound) (q : FwdQueue) (ev : Event) :
    w.Serves q (w.turn ev).1 (w.turn ev).2 ∨ ¬ q.Turns ev ∧ w.Waits q (w.turn ev).1 (w.turn ev).2 := by
  have hisend : ∀ {q' : FwdQueue} (hq' : q' = .simtorealInterest ∨ q' = .simtorealData) (ready : Bool)
      (ret : ℤ), (q.Turns ev → q = q' ∧ ready = true) →
      w.Serves q (w.isend q' ready ret).1 (w.isend q' ready ret).2 ∨
        ¬ q.Turns ev ∧ w.Waits q (w.isend q' ready ret).1 (w.isend q' ready ret).2 := by
    intro q' hq' ready ret hturns
    by_cases hq : q = q'
    · subst hq
      by_cases hready : ready = true ∨ w.inHand q = none
      · exact .inl (isend_serves hq' hready)
      · obtain ⟨hready, hin⟩ := not_or.1 hready
        obtain ⟨m, hin⟩ := Option.ne_none_iff_exists'.1 hin
        refine .inr ⟨fun ht => hready (hturns ht).2, ?_⟩
        simp only [isend, hin, if_neg hready]
        exact waits_refl
    · exact .inr ⟨fun ht => hq (hturns ht).1, isend_waits hq⟩
  cases ev with
  | nipInterestIn irecv _ | nipDataIn irecv _ =>
    refine .inr ⟨by cases q <;> exact id, ?_⟩
    cases irecv with
    | none => exact waits_refl
    | some ibuf => exact receive_waits _ _
  | nipInterestOut waitWrite ret _ =>
    exact hisend (.inl rfl) _ _ (by cases q <;> simp [FwdQueue.Turns])
  | nipDataOut waitWrite ret _ =>
    exact hisend (.inr rfl) _ _ (by cases q <;> simp [FwdQueue.Turns])
  | udpInterestIn datagram addr _ =>
    refine .inr ⟨by cases q <;> exact id, ?_⟩
    simp only [Forwarder.turn]
    split_ifs
    · exact waits_refl
    · exact interestIn_waits _ _
  | udpDataIn datagram _ =>
    refine .inr ⟨by cases q <;> exact id, ?_⟩
    simp only [Forwarder.turn]
    split_ifs
    · exact waits_refl
    · exact receive_waits _ _
  | udpInterestOut =>
    by_cases hq : q = .realtosimInterest
    · subst hq
      exact .inl interestOut_serves
    · exact .inr ⟨by cases q <;> simp_all [FwdQueue.Turns], interestOut_waits hq⟩
  | udpDataOut =>
    by_cases hq : q = .realtosimData
    · subst hq
      exact .inl (dataOut_serves h)
    · exact .inr ⟨by cases q <;> simp_all [FwdQueue.Turns], dataOut_waits hq⟩

/-! ### The servers -/

theorem step_eq_ok {w w' : Forwarder} {o : List MessageObs} (hs : step w ev = .ok (w', o)) :
    w' = (w.turn ev).1 ∧ o = (w.turn ev).2 := by
  have hw : w.turn ev = (w', o) := Except.ok.inj hs
  rw [hw]
  exact ⟨rfl, rfl⟩

/-- The sender of a queue. -/
def server (q : FwdQueue) : Server step Sound Message where
  turns := q.Turns
  queue w := w.queue q
  takes := MessageObs.takes q
  rest w := w.rest q
  cost := q.cost
  cost_pos := by cases q <;> decide
  keep {w ev w' o} h hs := by
    obtain ⟨rfl, rfl⟩ := step_eq_ok hs
    exact h.turn ev
  fifo {w ev w' o} h hs := by
    obtain ⟨rfl, rfl⟩ := step_eq_ok hs
    rcases turn_cases h q ev with hserves | ⟨-, hwaits⟩
    · rcases hserves with ⟨-, -, hw, ho⟩ | ⟨m, -, hq, -, -, ho⟩ | ⟨m, -, -, hq, -, ho⟩ |
        ⟨m, -, hq, -, -, ho, -⟩ | ⟨m, -, hq, -, -, ho, -⟩
      · simp [hw, ho]
      · simp [hq, ho, MessageObs.takes]
      · simp [hq, ho, MessageObs.takes]
      · simp [hq, ho]
      · simp [hq, ho]
    · simpa [hwaits.takes] using hwaits.queue
  wait {w ev w' o} h hs := by
    obtain ⟨rfl, rfl⟩ := step_eq_ok hs
    rcases turn_cases h q ev with hserves | ⟨-, hwaits⟩
    · rcases hserves with ⟨-, -, hw, ho⟩ | ⟨m, hin, -, -, hrest, ho⟩ | ⟨m, -, hin, -, hin', ho⟩ |
        ⟨m, -, -, -, hrest, ho, -⟩ | ⟨m, -, -, hin', -, ho, -⟩
      · simp [hw, ho]
      · simp [ho, MessageObs.takes]
        omega
      · simp [rest_of_none hin', ho]
      · simp [ho]
        omega
      · simp [rest_of_none hin', ho]
    · simp [hwaits.takes, hwaits.rest]
  work {w ev w' o} h hs hturn := by
    obtain ⟨rfl, rfl⟩ := step_eq_ok hs
    rcases turn_cases h q ev with hserves | ⟨hno, -⟩
    · rcases hserves with ⟨hin, hq, hw, ho⟩ | ⟨m, hin, -, -, hrest, ho⟩ | ⟨m, -, hin, -, hin', ho⟩ |
        ⟨m, -, -, -, hrest, ho, -⟩ | ⟨m, hin, -, hin', hrest, ho, -⟩
      · exact .inr ⟨by rw [hw, rest_of_none hin], hq⟩
      · left
        simp [ho, MessageObs.takes]
        omega
      · left
        have hpos : 0 < q.cost := by cases q <;> decide
        simp [rest_of_none hin', ho, MessageObs.takes]
        omega
      · left
        simp [ho]
        omega
      · left
        simp [rest_of_none hin', ho]
        omega
    · exact absurd hturn hno
  one {w ev w' o} h hs := by
    obtain ⟨rfl, rfl⟩ := step_eq_ok hs
    rcases turn_cases h q ev with hserves | ⟨-, hwaits⟩
    · rcases hserves with ⟨-, -, -, ho⟩ | ⟨m, hin, -, -, -, ho⟩ | ⟨m, -, hin, -, -, ho⟩ |
        ⟨m, -, -, -, -, ho, -⟩ | ⟨m, -, -, -, -, ho, -⟩
      · exact .inl (by simp [ho])
      · exact .inr ⟨rest_of_none hin, by simp [ho, MessageObs.takes]⟩
      · exact .inr ⟨rest_of_none hin, by simp [ho, MessageObs.takes]⟩
      · exact .inl ho
      · exact .inl ho
    · exact .inl hwaits.takes

instance (q : FwdQueue) : DecidablePred (server q).turns := inferInstanceAs (DecidablePred q.Turns)

/-- A message that is taken stays in hand until it is done with; Data that nobody waits for is
dropped. -/
theorem turn_through (h : w.Sound) (hq : q ≠ .realtosimData) (ev : Event) :
    (w.inHand q).toList ++ (w.turn ev).2.flatMap (MessageObs.takes q) =
      (w.turn ev).2.flatMap (MessageObs.gives q) ++ ((w.turn ev).1.inHand q).toList := by
  rcases turn_cases h q ev with hserves | ⟨-, hwaits⟩
  · rcases hserves with ⟨-, -, hw, ho⟩ | ⟨m, hin, -, hin', -, ho⟩ | ⟨m, hdata, -, -, -, -⟩ |
        ⟨m, hin, -, hin', -, ht, hg⟩ | ⟨m, hin, -, hin', -, ht, hg⟩
    · simp [hw, ho]
    · simp [hin, hin', ho, MessageObs.takes, MessageObs.gives]
    · exact absurd hdata hq
    · simp [hin, hin', ht, hg]
    · simp [hin, hin', ht, hg]
  · simp [hwaits.takes, hwaits.gives, hwaits.hand]

end Forwarder

namespace Adaptor

/-- The messages of the frames that are taken. -/
theorem takes_message (q : FwdQueue) (h : List Obs) :
    (h.map Obs.message).flatMap (MessageObs.takes q) = (MixSim.dequeued q h).map q.message := by
  rw [MixSim.dequeued, List.flatMap_map, List.map_flatMap]
  refine congrArg (List.flatMap · h) (funext fun x => ?_)
  cases x with
  | dequeue q' f =>
    by_cases hq : q' = q
    · subst hq
      simp [Obs.message, MessageObs.takes, Obs.takes]
    · simp [Obs.message, MessageObs.takes, Obs.takes, hq]
  | _ => rfl

/-- With turns enough, there is a moment when just what waited has been taken and dealt with. -/
theorem Tidy.served {s : Adaptor} {evs : List Event} (hT : s.Tidy) (hsound : s.forwarder.Sound)
    (hG : Along step Smooth s evs) (q : FwdQueue)
    (hn : s.forwarder.rest q + q.cost * (s.waiting q).length ≤ evs.countP q.Turns) :
    ∃ evs₁ evs₂, evs = evs₁ ++ evs₂ ∧ Reaches step s evs₁ fun t h =>
      (MixSim.dequeued q h).map q.message = (s.waiting q).map q.message ∧ t.held q = none ∧
      (q ≠ .realtosimData →
        h.flatMap (Obs.handsOn q) = (s.unsent q ++ s.waiting q).map q.message ∧
        (h.map Obs.message).flatMap (MessageObs.gives q) =
          (s.forwarder.inHand q).toList ++ s.forwarder.queue q) := by
  obtain ⟨t, h, -, hw, -⟩ := hT.simulates hG
  have hlen : (s.forwarder.queue q).length = (s.waiting q).length := List.length_map _
  rw [← hlen] at hn
  obtain ⟨evs₁, evs₂, m, os, rfl, hm, htaken, hzero⟩ := (Forwarder.server q).clears hsound hw hn
  -- the forwarder and the adaptor have made the same run up to this moment
  obtain ⟨t₁, h₁, hrun₁, hw₁, -⟩ := hT.simulates (hG.left)
  rw [hm] at hw₁
  cases hw₁
  have hnone : t₁.forwarder.inHand q = none := by
    by_contra hin
    obtain ⟨x, hin⟩ := Option.ne_none_iff_exists'.1 hin
    exact (((Forwarder.server q).keep_exec hsound hm).rest_pos hin).ne' hzero
  have hheld : t₁.held q = none := by simpa [forwarder] using hnone
  have hdequeued : (MixSim.dequeued q h₁).map q.message = (s.waiting q).map q.message := by
    rw [← takes_message]
    exact htaken
  obtain ⟨h₀, hI, -⟩ := hT
  refine ⟨evs₁, evs₂, rfl, t₁, h₁, hrun₁, hdequeued, hheld, fun hq => ⟨?_, ?_⟩⟩
  · have hpasses := passes_run hI.toInv hrun₁ hq
    rw [Passes, unsent_of_none hheld, List.map_append, hdequeued] at hpasses
    rw [List.map_append, hpasses, List.map_nil, List.append_nil]
  · have hall := (Forwarder.server q).through (fun w => (w.inHand q).toList) (MessageObs.gives q)
      (fun {w ev w' o} hw hs => by
        obtain ⟨rfl, rfl⟩ := Forwarder.step_eq_ok hs
        exact Forwarder.turn_through hw hq ev) hsound hm
    rw [htaken, hnone, Option.toList_none, List.append_nil] at hall
    exact hall.symm

section Runs

variable (blocks : Fin 16 → SimpleNameData) (junk : ℕ → NutEntry)

theorem init_sound : Forwarder.init.Sound where
  pending h := by cases h
  hand h := by cases h

/-- After a run from the beginning. -/
theorem tidy_sound {evs : List Event} {s : Adaptor} {h : List Obs}
    (hG : Along step Smooth (initAdaptor blocks junk) evs)
    (he : exec step (initAdaptor blocks junk) evs = .ok (s, h)) :
    s.Tidy ∧ s.forwarder.Sound := by
  obtain ⟨s', h', he', hw, hT⟩ := (initAdaptor_tidy blocks junk).simulates hG
  rw [he] at he'
  cases he'
  rw [initAdaptor_forwarder] at hw
  exact ⟨hT, (Forwarder.server .realtosimData).keep_exec init_sound hw⟩

/-- However its turns are interleaved with the other coroutines: with turns enough for the message in
hand and all that waits in its queue, there is a moment when the sender of a queue has taken just what
waited, in order, and has nothing in hand. But for Data, which goes to those who wait for it, what it has
sent until then is the message that it had in hand, if this was not sent before, and these messages, in
order; and it is done with them. -/
theorem waiting_served {evs₁ evs₂ : List Event} {s : Adaptor} {h₁ : List Obs}
    (hG : Along step Smooth (initAdaptor blocks junk) (evs₁ ++ evs₂))
    (he : exec step (initAdaptor blocks junk) evs₁ = .ok (s, h₁)) (q : FwdQueue)
    (hn : s.forwarder.rest q + q.cost * (s.waiting q).length ≤ evs₂.countP q.Turns) :
    ∃ evs evs', evs₂ = evs ++ evs' ∧ Reaches step s evs fun t h =>
      (MixSim.dequeued q h).map q.message = (s.waiting q).map q.message ∧ t.held q = none ∧
      (q ≠ .realtosimData →
        h.flatMap (Obs.handsOn q) = (s.unsent q ++ s.waiting q).map q.message ∧
        (h.map Obs.message).flatMap (MessageObs.gives q) =
          (s.forwarder.inHand q).toList ++ s.forwarder.queue q) := by
  obtain ⟨hG₁, hG₂⟩ := hG.of_append he
  obtain ⟨hT, hsound⟩ := tidy_sound blocks junk hG₁ he
  exact hT.served hsound hG₂ q hn

/-- Two Interests from the network stack: however another one comes in between, six turns send them. -/
theorem waiting_served_exchange :
    Reaches step (initAdaptor (fun _ => .zero) fun _ => .zero)
      [.nipInterestIn (some (nameIbuf [47, 97] 0)) allocOk,
        .nipInterestIn (some (nameIbuf [47, 98] 0)) allocOk] fun s _ =>
      ∃ evs evs', [.udpInterestOut true, .udpInterestOut true,
        .nipInterestIn (some (nameIbuf [47, 99] 0)) allocOk, .udpInterestOut true,
        .udpInterestOut true, .udpInterestOut true, .udpInterestOut true] = evs ++ evs' ∧
      Reaches step s evs fun _ h => h.flatMap (Obs.handsOn .realtosimInterest) =
        [⟨[47, 97], []⟩, ⟨[47, 98], []⟩] := by
  set evs₂ : List Event := [.udpInterestOut true, .udpInterestOut true,
    .nipInterestIn (some (nameIbuf [47, 99] 0)) allocOk, .udpInterestOut true,
    .udpInterestOut true, .udpInterestOut true, .udpInterestOut true] with hevs
  have hfirst : Reaches step (initAdaptor (fun _ => .zero) fun _ => .zero)
      [.nipInterestIn (some (nameIbuf [47, 97] 0)) allocOk,
        .nipInterestIn (some (nameIbuf [47, 98] 0)) allocOk] fun s _ =>
      s.forwarder.rest .realtosimInterest + FwdQueue.realtosimInterest.cost *
        (s.waiting .realtosimInterest).length ≤ evs₂.countP FwdQueue.realtosimInterest.Turns ∧
      (s.unsent .realtosimInterest ++ s.waiting .realtosimInterest).map
        FwdQueue.realtosimInterest.message =
        [⟨[47, 97], []⟩, ⟨[47, 98], []⟩] := by decide +kernel
  obtain ⟨s, h₁, he, hn, hqueue⟩ := hfirst
  obtain ⟨evs, evs', hsplit, hserved⟩ :=
    waiting_served _ _ (by decide +kernel) he .realtosimInterest hn
  refine ⟨s, h₁, he, evs, evs', hsplit, hserved.mono fun t h hall => ?_⟩
  rw [← hqueue]
  exact (hall.2.2 (by decide)).1

end Runs

end Adaptor

end MixSim
