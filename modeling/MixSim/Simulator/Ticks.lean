import MixSim.Library.EventQueue
import MixSim.Library.Execution
import MixSim.Simulator.Received

/-!
# The ticks of `AppMixSim`

`StartApplication` reads the real clock and calls `ScheduleNextTick`, which receives at most two
datagrams, compares the elapsed real time with the simulated time, and schedules itself again.
`StopApplication` prints the counters. The simulator takes the events off its queue in the order of
their times, up to the time where the simulation ends; the other events of the simulation may come
and go as they like.

* `virtual_time_follows`: the simulated time of a tick is the largest of the time of the first and
  the elapsed times that the ticks before have seen.
* `tick_chain`: after `StartApplication` exactly one tick is pending; the one that is pending at
  `StopApplication` fires when the simulation goes on until it is due.
-/

namespace MixSim

open Execution EventQueue

/-- `struct timeval`. -/
structure Timeval where
  tvSec : ℤ
  tvUsec : ℤ
  deriving DecidableEq

/-- The microseconds since the epoch. -/
def Timeval.micros (tv : Timeval) : ℤ := tv.tvSec * 1000000 + tv.tvUsec

/-- The events of the simulator. -/
inductive SimEvent
  | scheduleNextTick
  | stopApplication
  | other
  deriving DecidableEq

/-- The simulator, with its time in nanoseconds, and the members of the application that have to do
with the ticks. -/
structure Simulation where
  now : ℕ
  queue : List (ℕ × SimEvent)
  mStart : Timeval
  mTotalticks : UInt64
  mCase1ticks : UInt64
  mCase2ticks : UInt64
  mActive : Bool
  deriving DecidableEq

/-- What one event finds outside the application: the local `recv_buf`, the datagrams at the two
sockets, the reading of the clock; and the delays of the other events that are scheduled meanwhile. -/
structure Reading where
  recvBuf : SimpleNameData
  interest : List UInt8
  data : List UInt8
  clock : Timeval
  others : List ℕ

/-- What a run shows: a tick, with the two times it compares, the reading and the packets it sends
through the link, and `StopApplication`, with the times for which ticks are pending then. -/
inductive SimObs (N : Type)
  | tick (vtime ptime : ℤ) (clock : Timeval) (sent : List (Packet N))
  | stopped (due : List ℕ)
  deriving DecidableEq

namespace Simulation

/-- `Simulator::Now().GetMicroSeconds()`. -/
def getMicroSeconds (s : Simulation) : ℤ := (s.now / 1000 : ℕ)

/-- The kind of the ticks. -/
def isTick : SimEvent → Bool
  | .scheduleNextTick => true
  | _ => false

/-- The times of the pending ticks. -/
def pendingTicks (s : Simulation) : List ℕ := times isTick s.queue

/-- `Simulator::Schedule`, with a delay in nanoseconds. -/
def schedule (s : Simulation) (delay : ℕ) (e : SimEvent) : Simulation :=
  { s with queue := EventQueue.schedule (s.now + delay) e s.queue }

/-- The other events that are scheduled. -/
def scheduleOthers (s : Simulation) (delays : List ℕ) : Simulation :=
  delays.foldl (fun s delay => s.schedule delay .other) s

/-- The elapsed real time in `AnalyzeTimeDiff`. -/
def ptime (s : Simulation) (curr : Timeval) : ℤ :=
  (curr.tvSec - s.mStart.tvSec) * 1000000 + (curr.tvUsec - s.mStart.tvUsec)

/-- `AnalyzeTimeDiff`. -/
def analyzeTimeDiff (s : Simulation) (curr : Timeval) : ℤ := s.ptime curr - s.getMicroSeconds

/-- The two branches at the end of `ScheduleNextTick`. -/
def rearm (s : Simulation) (timeDiff : ℤ) : Simulation :=
  if timeDiff ≤ 0 then
    { s.schedule 0 .scheduleNextTick with mCase1ticks := s.mCase1ticks + 1 }
  else
    { s.schedule (1000 * timeDiff.toNat) .scheduleNextTick with
      mCase2ticks := s.mCase2ticks + 1 }

section Code

variable {N : Type} (X : NdnCxx N)

/-- `ScheduleNextTick`. -/
def scheduleNextTick (s : Simulation) (r : Reading) :
    Except Fault (Simulation × List (SimObs N)) := do
  let sent ← X.receivePackets r.recvBuf r.interest r.data
  let s := { s.scheduleOthers r.others with mTotalticks := s.mTotalticks + 1 }
  .ok (s.rearm (s.analyzeTimeDiff r.clock),
    [.tick s.getMicroSeconds (s.ptime r.clock) r.clock sent])

/-- The part of `StartApplication` after the sockets are bound, with the clock reading `start`. -/
def startApplication (s : Simulation) (start : Timeval) (r : Reading) :
    Except Fault (Simulation × List (SimObs N)) :=
  scheduleNextTick X { s with mStart := start, mActive := true } r

/-- `StopApplication`; what is printed is left out. -/
def stopApplication (s : Simulation) (r : Reading) : Simulation × List (SimObs N) :=
  ({ s.scheduleOthers r.others with mActive := false }, [.stopped s.pendingTicks])

/-- The simulator takes off the event that is due next, unless the simulation has ended. -/
def step (endTime : ℕ) : Step Simulation Reading (SimObs N) Fault := fun s r =>
  match s.queue with
  | [] => .ok (s, [])
  | (t, e) :: queue =>
      if endTime < t then .ok (s, [])
      else
        let s := { s with now := t, queue := queue }
        match e with
        | .scheduleNextTick => scheduleNextTick X s r
        | .stopApplication => .ok (stopApplication s r)
        | .other => .ok (s.scheduleOthers r.others, [])

/-- A run: `StartApplication`, and then the events of the queue. -/
def run (endTime : ℕ) (s : Simulation) (start : Timeval) (r : Reading) (rs : List Reading) :
    Except Fault (Simulation × List (SimObs N)) := do
  let (s, o) ← startApplication X s start r
  let (s, os) ← exec (step X endTime) s rs
  .ok (s, o ++ os)

end Code

/-! ### What is counted -/

/-- The simulated and the elapsed real time at each tick. -/
def ticks {N : Type} : List (SimObs N) → List (ℤ × ℤ)
  | [] => []
  | .tick vtime ptime _ _ :: os => (vtime, ptime) :: ticks os
  | .stopped _ :: os => ticks os

theorem ticks_append {N : Type} (h o : List (SimObs N)) : ticks (h ++ o) = ticks h ++ ticks o := by
  induction h with
  | nil => rfl
  | cons x h ih => cases x <;> simp [ticks, ih]

/-- Between two states the counters have counted these ticks, each in its case. -/
structure Counts (s s' : Simulation) (ts : List (ℤ × ℤ)) : Prop where
  total : s'.mTotalticks = s.mTotalticks + .ofNat ts.length
  case1 : s'.mCase1ticks = s.mCase1ticks + .ofNat (ts.countP fun x => x.2 ≤ x.1)
  case2 : s'.mCase2ticks = s.mCase2ticks + .ofNat (ts.countP fun x => x.1 < x.2)

theorem Counts.refl (s : Simulation) : s.Counts s [] := by
  constructor <;> exact (UInt64.add_zero _).symm

theorem Counts.append {s m t : Simulation} {ts ts' : List (ℤ × ℤ)} (h : s.Counts m ts)
    (h' : m.Counts t ts') : s.Counts t (ts ++ ts') := by
  constructor
  · rw [h'.total, h.total, List.length_append, UInt64.ofNat_add, UInt64.add_assoc]
  · rw [h'.case1, h.case1, List.countP_append, UInt64.ofNat_add, UInt64.add_assoc]
  · rw [h'.case2, h.case2, List.countP_append, UInt64.ofNat_add, UInt64.add_assoc]

/-! ### One event -/

section Step

variable {N : Type} {X : NdnCxx N} {s s' : Simulation} {o : List (SimObs N)} {r : Reading}
  {due endTime : ℕ}

/-- Before `StartApplication`: the queue is in order, no tick is pending, and none is counted. -/
structure Fresh (s : Simulation) : Prop where
  sorted : Sorted s.queue
  pending : s.pendingTicks = []
  ticks : s.mTotalticks = s.mCase1ticks + s.mCase2ticks

/-- After `StartApplication`: one tick is pending, for the time `due`. -/
structure Running (s : Simulation) (due : ℕ) : Prop where
  sorted : Sorted s.queue
  pending : s.pendingTicks = [due]
  ticks : s.mTotalticks = s.mCase1ticks + s.mCase2ticks

/-- Scheduling other events changes the queue alone, and leaves the pending ticks. -/
theorem scheduleOthers_eq (s : Simulation) (delays : List ℕ) (h : Sorted s.queue) :
    ∃ q, s.scheduleOthers delays = { s with queue := q } ∧ Sorted q ∧
      times isTick q = s.pendingTicks := by
  induction delays generalizing s with
  | nil => exact ⟨s.queue, rfl, h, rfl⟩
  | cons d ds ih =>
    obtain ⟨q, hq, hs, ht⟩ := ih (s.schedule d .other) (h.schedule _ _)
    refine ⟨q, hq, hs, ht.trans ?_⟩
    exact times_schedule_of_not rfl

/-- Both branches schedule the next tick, with a delay that is not negative, and count one more. -/
theorem rearm_spec (h : Sorted s.queue) (hnil : s.pendingTicks = []) (timeDiff : ℤ) :
    Sorted (s.rearm timeDiff).queue ∧
      (s.rearm timeDiff).pendingTicks = [s.now + 1000 * timeDiff.toNat] ∧
      (s.rearm timeDiff).mCase1ticks + (s.rearm timeDiff).mCase2ticks =
        s.mCase1ticks + s.mCase2ticks + 1 ∧
      (s.rearm timeDiff).mTotalticks = s.mTotalticks ∧ (s.rearm timeDiff).mStart = s.mStart := by
  unfold rearm
  split_ifs with hdiff
  · rw [Int.toNat_of_nonpos hdiff]
    refine ⟨h.schedule _ _, times_schedule_of_nil rfl hnil, ?_, rfl, rfl⟩
    show s.mCase1ticks + 1 + s.mCase2ticks = s.mCase1ticks + s.mCase2ticks + 1
    rw [UInt64.add_assoc, UInt64.add_comm 1, ← UInt64.add_assoc]
  · refine ⟨h.schedule _ _, times_schedule_of_nil rfl hnil, ?_, rfl, rfl⟩
    exact (UInt64.add_assoc _ _ _).symm

/-- Of the two branches, the first counts a tick that is not behind real time. -/
theorem rearm_counts (s : Simulation) (q : List (ℕ × SimEvent)) (vtime ptime : ℤ) :
    s.Counts (rearm { s with queue := q, mTotalticks := s.mTotalticks + 1 } (ptime - vtime))
      [(vtime, ptime)] := by
  unfold rearm
  split_ifs with hdiff
  · have hle : ptime ≤ vtime := by omega
    constructor <;> simp [hle, schedule]
  · have hlt : vtime < ptime := by omega
    constructor <;> simp [hlt, schedule]

/-- The next tick is due at the later one of the simulated time and the elapsed real time. -/
theorem scheduleNextTick_spec (h : s.Fresh) (hs : scheduleNextTick X s r = .ok (s', o)) :
    ∃ sent due, o = [.tick s.getMicroSeconds (s.ptime r.clock) r.clock sent] ∧ s'.Running due ∧
      ((due / 1000 : ℕ) : ℤ) = max s.getMicroSeconds (s.ptime r.clock) ∧ s'.mStart = s.mStart ∧
      s.Counts s' (ticks o) := by
  obtain ⟨q, hq, hsorted, hticks⟩ := s.scheduleOthers_eq r.others h.sorted
  rw [h.pending] at hticks
  obtain ⟨sent, -, hs⟩ := bind_eq_ok hs
  rw [hq] at hs
  cases hs
  -- what the receivers have scheduled is no tick, so the one scheduled here is the only one
  obtain ⟨hsorted', hpending, hcases, htotal, hstart⟩ := rearm_spec
    (s := { s with queue := q, mTotalticks := s.mTotalticks + 1 }) hsorted hticks
    (s.ptime r.clock - s.getMicroSeconds)
  refine ⟨sent, _, rfl, ⟨hsorted', hpending, ?_⟩, ?_, hstart,
    rearm_counts s q s.getMicroSeconds (s.ptime r.clock)⟩
  · refine htotal.trans (Eq.trans ?_ hcases.symm)
    show s.mTotalticks + 1 = _
    rw [h.ticks]
  · show (((s.now + 1000 * (s.ptime r.clock - s.getMicroSeconds).toNat) / 1000 : ℕ) : ℤ) = _
    rw [Nat.add_mul_div_left _ _ (by omega)]
    unfold getMicroSeconds
    omega

/-- What an event does while one tick is pending: nothing that shows, `StopApplication`, or the
tick. -/
inductive Happens (s : Simulation) (due endTime : ℕ) (s' : Simulation) : List (SimObs N) → Prop
  | quiet (h : s'.Running due) : Happens s due endTime s' []
  | stop (h : s'.Running due) : Happens s due endTime s' [.stopped [due]]
  | tick (clock : Timeval) (sent : List (Packet N)) (due' : ℕ) (h : s'.Running due')
      (hend : due ≤ endTime)
      (hdue : ((due' / 1000 : ℕ) : ℤ) = max ((due / 1000 : ℕ) : ℤ) (s.ptime clock)) :
      Happens s due endTime s' [.tick (due / 1000 : ℕ) (s.ptime clock) clock sent]

theorem step_happens (h : s.Running due) (hs : step X endTime s r = .ok (s', o)) :
    Happens s due endTime s' o ∧ s'.mStart = s.mStart ∧ s.Counts s' (ticks o) := by
  unfold step at hs
  rcases hqueue : s.queue with _ | ⟨⟨t, e⟩, q⟩
  · have hp := h.pending
    rw [pendingTicks, hqueue] at hp
    cases hp
  rw [hqueue] at hs
  dsimp only at hs
  have hsorted := h.sorted
  have hpending := h.pending
  rw [hqueue] at hsorted
  rw [pendingTicks, hqueue] at hpending
  by_cases hend : endTime < t
  · rw [if_pos hend] at hs
    cases hs
    exact ⟨.quiet h, rfl, .refl s⟩
  rw [if_neg hend] at hs
  cases e with
  | scheduleNextTick =>
    -- the tick that was pending is off the queue while `ScheduleNextTick` runs
    rw [times_cons_of (x := (t, SimEvent.scheduleNextTick)) rfl] at hpending
    obtain ⟨rfl, hnil⟩ := List.cons.inj hpending
    have hfresh : Fresh { s with now := t, queue := q } := ⟨hsorted.tail, hnil, h.ticks⟩
    obtain ⟨sent, due', rfl, hrun, hdue, hstart, hcounts⟩ := scheduleNextTick_spec hfresh hs
    exact ⟨.tick r.clock sent due' hrun (not_lt.1 hend) hdue, hstart,
      ⟨hcounts.total, hcounts.case1, hcounts.case2⟩⟩
  | stopApplication =>
    -- `m_tickEvent` is not cancelled, so the tick stays on the queue
    rw [times_cons_of_not (x := (t, SimEvent.stopApplication)) rfl] at hpending
    obtain ⟨q', hq', hs', ht⟩ := scheduleOthers_eq { s with now := t, queue := q } r.others
      hsorted.tail
    have hold : pendingTicks { s with now := t, queue := q } = [due] := hpending
    cases hs
    rw [hold] at ht ⊢
    have hcounts := Counts.refl s
    exact ⟨.stop ⟨by rw [hq']; exact hs', by rw [pendingTicks, hq']; exact ht, by
      rw [hq']; exact h.ticks⟩, by rw [hq'], by
      rw [hq']; exact ⟨hcounts.total, hcounts.case1, hcounts.case2⟩⟩
  | other =>
    rw [times_cons_of_not (x := (t, SimEvent.other)) rfl] at hpending
    obtain ⟨q', hq', hs', ht⟩ := scheduleOthers_eq { s with now := t, queue := q } r.others
      hsorted.tail
    have hold : pendingTicks { s with now := t, queue := q } = [due] := hpending
    cases hs
    rw [hold] at ht
    have hcounts := Counts.refl s
    exact ⟨.quiet ⟨by rw [hq']; exact hs', by rw [pendingTicks, hq']; exact ht, by
      rw [hq']; exact h.ticks⟩, by rw [hq'], by
      rw [hq']; exact ⟨hcounts.total, hcounts.case1, hcounts.case2⟩⟩

end Step

/-! ### Virtual time -/

section VirtualTime

variable {N : Type} {X : NdnCxx N} {s s' : Simulation} {h o os : List (SimObs N)} {r : Reading}
  {start : Timeval} {due endTime : ℕ} {v₀ : ℤ}

/-- The largest of a time and the elapsed real times of some ticks. -/
def latest (v₀ : ℤ) (ts : List (ℤ × ℤ)) : ℤ := (ts.map Prod.snd).foldl max v₀

theorem latest_snoc (v₀ : ℤ) (ts : List (ℤ × ℤ)) (v p : ℤ) :
    latest v₀ (ts ++ [(v, p)]) = max (latest v₀ ts) p := by
  rw [latest, List.map_append, List.foldl_append]
  rfl

/-- Each tick comes at the largest of `v₀` and the elapsed times that the ticks before have seen. -/
def Follows (v₀ : ℤ) (ts : List (ℤ × ℤ)) : Prop :=
  ∀ k v p, ts[k]? = some (v, p) → v = latest v₀ (ts.take k)

theorem Follows.snoc {ts : List (ℤ × ℤ)} (hts : Follows v₀ ts) (p : ℤ) :
    Follows v₀ (ts ++ [(latest v₀ ts, p)]) := by
  intro k v q hk
  rcases Nat.lt_trichotomy k ts.length with hlt | rfl | hgt
  · rw [List.getElem?_append_left hlt] at hk
    rw [List.take_append_of_le_length hlt.le]
    exact hts k v q hk
  · rw [List.getElem?_append_right le_rfl, Nat.sub_self] at hk
    cases hk
    rw [List.take_left']
    rfl
  · rw [List.getElem?_eq_none (by rw [List.length_append, List.length_singleton]; omega)] at hk
    cases hk

/-- With a clock that does not go back, the largest elapsed time is the last. -/
theorem latest_take {ts : List (ℤ × ℤ)} (hmono : (ts.map Prod.snd).Pairwise (· ≤ ·))
    (h0 : ∀ x ∈ ts.head?, v₀ ≤ x.2) (k : ℕ) (x : ℤ × ℤ) (hx : ts[k]? = some x) :
    latest v₀ (ts.take (k + 1)) = x.2 := by
  induction k generalizing x with
  | zero =>
    rw [← List.head?_eq_getElem?] at hx
    rw [List.take_add_one, ← List.head?_eq_getElem?, hx]
    exact max_eq_right (h0 x hx)
  | succ k ih =>
    have hlt : k < ts.length := by
      have := (List.getElem?_eq_some_iff.1 hx).1
      omega
    have hprev := ih _ (List.getElem?_eq_getElem hlt)
    -- the reading before is the largest so far, and the clock has not gone back since
    have hle : ts[k].2 ≤ x.2 := by
      obtain ⟨hlt', rfl⟩ := List.getElem?_eq_some_iff.1 hx
      have hpair := List.pairwise_iff_getElem.1 hmono k (k + 1) (by rw [List.length_map]; exact hlt)
        (by rw [List.length_map]; exact hlt') (Nat.lt_succ_self k)
      rwa [List.getElem_map, List.getElem_map] at hpair
    rw [List.take_add_one, hx, Option.toList_some, latest_snoc, hprev]
    exact max_eq_right hle

/-- With such a clock, and a first tick that is not ahead of it, no tick is ahead of real time, and
each comes at the real time of the one before. -/
theorem Follows.of_monotone {ts : List (ℤ × ℤ)} (hts : Follows v₀ ts)
    (hmono : (ts.map Prod.snd).Pairwise (· ≤ ·)) (h0 : ∀ x ∈ ts.head?, v₀ ≤ x.2) :
    (∀ x ∈ ts, x.1 ≤ x.2) ∧
      ∀ k x y, ts[k]? = some x → ts[k + 1]? = some y → y.1 = x.2 := by
  have hnext : ∀ k x y, ts[k]? = some x → ts[k + 1]? = some y → y.1 = x.2 := fun k x y hx hy =>
    (hts (k + 1) y.1 y.2 hy).trans (latest_take hmono h0 k x hx)
  refine ⟨fun x hx => ?_, hnext⟩
  obtain ⟨k, hk⟩ := List.getElem?_of_mem hx
  rcases k with _ | k
  · have hv := hts 0 x.1 x.2 hk
    rw [← List.head?_eq_getElem?] at hk
    rw [hv]
    exact h0 x hk
  · have hlt : k < ts.length := by
      have := (List.getElem?_eq_some_iff.1 hk).1
      omega
    rw [hnext k _ x (List.getElem?_eq_getElem hlt) hk, ← latest_take hmono h0 k _
      (List.getElem?_eq_getElem hlt), ← latest_take hmono h0 (k + 1) x hk,
      List.take_add_one (i := k + 1), hk, Option.toList_some, latest_snoc]
    exact le_max_left _ _

/-- The elapsed time is the difference of two absolute times. -/
theorem ptime_eq (s : Simulation) (clock : Timeval) :
    s.ptime clock = clock.micros - s.mStart.micros := by
  rw [ptime, Timeval.micros, Timeval.micros]
  ring

/-- After some events of a run from `s₀`: the ticks so far follow and are counted, and the pending one
will follow. -/
structure OnTime (s₀ : Simulation) (start : Timeval) (s : Simulation) (h : List (SimObs N)) : Prop where
  pending : ∃ due, s.Running due ∧ ((due / 1000 : ℕ) : ℤ) = latest s₀.getMicroSeconds (ticks h)
  started : s.mStart = start
  follows : Follows s₀.getMicroSeconds (ticks h)
  counts : s₀.Counts s (ticks h)
  elapsed : ∀ v p clock sent, .tick v p clock sent ∈ h → p = clock.micros - start.micros

theorem onTime_step (X : NdnCxx N) (endTime : ℕ) (s₀ : Simulation) (start : Timeval) :
    Inductive (step X endTime) (fun _ _ => True) (OnTime s₀ start) := by
  intro s h r s' o hI _ hs
  obtain ⟨due, hrun, hdue⟩ := hI.pending
  obtain ⟨hev, hstart, hstep⟩ := step_happens hrun hs
  have hstart' : s'.mStart = start := hstart.trans hI.started
  have hcounts : s₀.Counts s' (ticks (h ++ o)) := by
    rw [ticks_append]
    exact hI.counts.append hstep
  cases hev with
  | quiet hrun' =>
    rw [List.append_nil] at hcounts ⊢
    exact ⟨⟨due, hrun', hdue⟩, hstart', hI.follows, hcounts, hI.elapsed⟩
  | stop hrun' =>
    have hticks : ticks (h ++ [SimObs.stopped [due]]) = ticks h := by
      rw [ticks_append]
      exact List.append_nil _
    refine ⟨⟨due, hrun', by rw [hticks]; exact hdue⟩, hstart', by rw [hticks]; exact hI.follows,
      hcounts, ?_⟩
    intro v p clock sent hmem
    rcases List.mem_append.1 hmem with hmem | hmem
    · exact hI.elapsed v p clock sent hmem
    · cases List.mem_singleton.1 hmem
  | tick clock sent due' hrun' hend hdue' =>
    have hticks : ticks (h ++ [SimObs.tick ((due / 1000 : ℕ) : ℤ) (s.ptime clock) clock sent]) =
        ticks h ++ [(latest s₀.getMicroSeconds (ticks h), s.ptime clock)] := by
      rw [ticks_append, ← hdue]
      rfl
    refine ⟨⟨due', hrun', ?_⟩, hstart', ?_, hcounts, ?_⟩
    · rw [hticks, latest_snoc, ← hdue, hdue']
    · rw [hticks]
      exact hI.follows.snoc _
    · intro v p c sent' hmem
      rcases List.mem_append.1 hmem with hmem | hmem
      · exact hI.elapsed v p c sent' hmem
      · cases List.mem_singleton.1 hmem
        rw [ptime_eq, hI.started]

/-- `StartApplication` is the first tick. -/
theorem startApplication_spec (h : s.Fresh) (hs : startApplication X s start r = .ok (s', o)) :
    (∃ due, s'.Running due ∧ ∃ p sent, o = [.tick s.getMicroSeconds p r.clock sent]) ∧
      OnTime s start s' o := by
  have hfresh : Fresh { s with mStart := start, mActive := true } := ⟨h.sorted, h.pending, h.ticks⟩
  obtain ⟨sent, due, rfl, hrun, hdue, hstart, hcounts⟩ := scheduleNextTick_spec hfresh hs
  have hnow : getMicroSeconds { s with mStart := start, mActive := true } = s.getMicroSeconds := rfl
  refine ⟨⟨due, hrun, _, sent, rfl⟩, ⟨⟨due, hrun, hdue⟩, hstart, ?_,
    ⟨hcounts.total, hcounts.case1, hcounts.case2⟩, ?_⟩⟩
  · have hnone : Follows s.getMicroSeconds [] := fun k v p hk => by simp at hk
    exact hnone.snoc (ptime { s with mStart := start, mActive := true } r.clock)
  · intro v p clock sent' hmem
    cases List.mem_singleton.1 hmem
    exact ptime_eq _ _

/-- A run is `StartApplication` and the events after it. -/
theorem run_eq_ok {rs : List Reading} (h : run X endTime s start r rs = .ok (s', os)) :
    ∃ m o os', startApplication X s start r = .ok (m, o) ∧
      exec (step X endTime) m rs = .ok (s', os') ∧ os = o ++ os' := by
  obtain ⟨⟨m, o⟩, hm, hrest⟩ := bind_eq_ok h
  obtain ⟨⟨t, os'⟩, ht, hok⟩ := bind_eq_ok hrest
  cases hok
  exact ⟨m, o, os', hm, ht, rfl⟩

/-- Virtual time follows real time: each tick comes at the largest of the time of the first and the
elapsed real times that the ticks before have seen, which are differences of clock readings. With a
clock that does not go back and a first tick that is not ahead of it, no tick is ahead of real time,
and each comes at the real time of the one before. After every event the next tick is pending, at the
largest of all these times, and the ticks so far are counted, by case and in all. -/
theorem virtual_time_follows (X : NdnCxx N) (endTime : ℕ) (s s' : Simulation) (start : Timeval)
    (r : Reading) (rs : List Reading) (os : List (SimObs N)) (hfresh : s.Fresh)
    (hrun : run X endTime s start r rs = .ok (s', os)) :
    Follows s.getMicroSeconds (ticks os) ∧
      (∃ p, (ticks os).head? = some (s.getMicroSeconds, p)) ∧
      (∀ v p clock sent, .tick v p clock sent ∈ os → p = clock.micros - start.micros) ∧
      (((ticks os).map Prod.snd).Pairwise (· ≤ ·) → (∀ x ∈ (ticks os).head?, x.1 ≤ x.2) →
        (∀ x ∈ ticks os, x.1 ≤ x.2) ∧
        ∀ k x y, (ticks os)[k]? = some x → (ticks os)[k + 1]? = some y → y.2 - y.1 = y.2 - x.2) ∧
      (∃ due, s'.pendingTicks = [due] ∧
        ((due / 1000 : ℕ) : ℤ) = latest s.getMicroSeconds (ticks os)) ∧
      s.Counts s' (ticks os) ∧ s'.mTotalticks = s'.mCase1ticks + s'.mCase2ticks := by
  obtain ⟨m, o, os', hm, hexec, rfl⟩ := run_eq_ok hrun
  obtain ⟨⟨_, -, p, sent, ho⟩, hon⟩ := startApplication_spec hfresh hm
  have hend := (onTime_step X endTime _ _).exec hon (along_true _ _) hexec
  obtain ⟨due, hrunning, hdue⟩ := hend.pending
  refine ⟨hend.follows, ⟨p, ?_⟩, hend.elapsed, ?_, ⟨due, hrunning.pending, hdue⟩, hend.counts,
    hrunning.ticks⟩
  · rw [ticks_append, ho]
    rfl
  · intro hmono hahead
    have h0 : ∀ x ∈ (ticks (o ++ os')).head?, s.getMicroSeconds ≤ x.2 := by
      rw [ticks_append, ho] at hahead ⊢
      intro x hx
      have hle := hahead x hx
      cases hx
      exact hle
    obtain ⟨hle, hnext⟩ := hend.follows.of_monotone hmono h0
    exact ⟨hle, fun k x y hx hy => by rw [hnext k x y hx hy]⟩

end VirtualTime

/-- A simulation that stops the application after ten nanoseconds. -/
def stopAtTen : Simulation where
  now := 0
  queue := [(10, .stopApplication)]
  mStart := ⟨0, 0⟩
  mTotalticks := 0
  mCase1ticks := 0
  mCase2ticks := 0
  mActive := false

theorem fresh_stopAtTen : stopAtTen.Fresh := ⟨List.pairwise_singleton _ _, rfl, rfl⟩

/-- An event that finds the datagram `interest`, and the clock `usec` microseconds after zero. -/
def readingAt (usec : ℤ) (interest : List UInt8) : Reading :=
  ⟨SimpleNameData.zero, interest, [], ⟨0, usec⟩, []⟩

/-- A run with `StopApplication` between two ticks; a datagram comes after it. -/
theorem run_stopAtTen :
    run plainNames 2000 stopAtTen ⟨0, 0⟩ (readingAt 1 []) [readingAt 2 [], readingAt 3 datagramA7] =
      .ok (⟨1000, [(3000, .scheduleNextTick)], ⟨0, 0⟩, 2, 0, 2, false⟩,
        [.tick 0 1 ⟨0, 1⟩ [], .stopped [1000], .tick 1 3 ⟨0, 3⟩ [.interest (nameA, some 7)]]) := by
  decide +kernel

/-- The two ticks are at the microseconds `0` and `1`, and the next one is pending for `3`. -/
theorem virtual_time_follows_two : ∃ s' os,
    run plainNames 2000 stopAtTen ⟨0, 0⟩ (readingAt 1 []) [readingAt 2 [], readingAt 3 datagramA7] =
      .ok (s', os) ∧ ticks os = [(0, 1), (1, 3)] ∧ Follows 0 (ticks os) ∧
    (∃ due, s'.pendingTicks = [due] ∧ ((due / 1000 : ℕ) : ℤ) = latest 0 (ticks os)) ∧
    stopAtTen.Counts s' (ticks os) := by
  obtain ⟨hfollows, -, -, -, hpending, hcounts, -⟩ := virtual_time_follows plainNames 2000 stopAtTen _
    ⟨0, 0⟩ (readingAt 1 []) [readingAt 2 [], readingAt 3 datagramA7] _ fresh_stopAtTen run_stopAtTen
  exact ⟨_, _, run_stopAtTen, rfl, hfollows, hpending, hcounts⟩

/-! ### After `StopApplication` -/

section TickChain

variable {N : Type} {X : NdnCxx N} {s s' : Simulation} {h os : List (SimObs N)}
  {due endTime : ℕ}

/-- No tick has fired after `StopApplication`. -/
def NoTickAfterStop (os : List (SimObs N)) : Prop :=
  Always (fun h o => ∀ v p clock sent, o = .tick v p clock sent → ∀ dues, .stopped dues ∉ h) os

/-- The ticks that were pending at `StopApplication` are due after the end of the simulation. -/
def DueAfterEnd (endTime : ℕ) (os : List (SimObs N)) : Prop :=
  ∀ dues, .stopped dues ∈ os → ∀ due ∈ dues, endTime < due

/-- `StopApplication` leaves the tick that is pending. -/
theorem NoTickAfterStop.stop (hh : NoTickAfterStop h) (dues : List ℕ) :
    NoTickAfterStop (h ++ [.stopped dues]) :=
  Always.snoc hh fun _ _ _ _ ho => (by cases ho)

/-- A tick may follow where the application is not stopped. -/
theorem NoTickAfterStop.tick_iff {v p : ℤ} {clock : Timeval} {sent : List (Packet N)} :
    NoTickAfterStop (h ++ [.tick v p clock sent]) ↔ ∀ dues, .stopped dues ∉ h := by
  constructor
  · intro hh
    exact hh h _ [] rfl v p clock sent rfl
  · intro hnone
    refine Always.snoc (fun pre o post hpre v p clock sent _ dues hmem => ?_)
      fun _ _ _ _ _ => hnone
    exact hnone dues (by rw [hpre]; exact List.mem_append_left _ hmem)

/-- After some events of a run: a tick is pending; while none has fired after `StopApplication`, it
is the one that was pending then; and none has fired where that one is due after the end. -/
structure Chained (endTime : ℕ) (s : Simulation) (h : List (SimObs N)) : Prop where
  pending : ∃ due, s.Running due ∧
    (NoTickAfterStop h → ∀ dues, .stopped dues ∈ h → dues = [due])
  stopped : DueAfterEnd endTime h → NoTickAfterStop h

theorem chained_step (X : NdnCxx N) (endTime : ℕ) :
    Inductive (step X endTime) (fun _ _ => True) (Chained endTime) := by
  intro s h r s' o hI _ hs
  obtain ⟨due, hrun, hstop⟩ := hI.pending
  obtain ⟨hev, -, -⟩ := step_happens hrun hs
  cases hev with
  | quiet hrun' =>
    rw [List.append_nil]
    exact ⟨⟨due, hrun', hstop⟩, hI.stopped⟩
  | stop hrun' =>
    refine ⟨⟨due, hrun', fun hno dues hmem => ?_⟩, fun hdue => ?_⟩
    · rcases List.mem_append.1 hmem with hmem | hmem
      · exact hstop hno.append_left dues hmem
      · cases List.mem_singleton.1 hmem
        rfl
    · exact (hI.stopped fun dues hmem => hdue dues (List.mem_append_left _ hmem)).stop _
  | tick clock sent due' hrun' hend =>
    refine ⟨⟨due', hrun', fun hno dues hmem => ?_⟩, fun hdue => ?_⟩
    · rcases List.mem_append.1 hmem with hmem | hmem
      · exact absurd hmem (NoTickAfterStop.tick_iff.1 hno dues)
      · cases List.mem_singleton.1 hmem
    · -- A tick that fires is due before the end, so it was not pending at `StopApplication`.
      rw [NoTickAfterStop.tick_iff]
      intro dues hmem
      have hold : DueAfterEnd endTime h := fun ds hds => hdue ds (List.mem_append_left _ hds)
      have hlt := hold dues hmem due (by
        rw [hstop (hI.stopped hold) dues hmem]
        exact List.mem_singleton_self due)
      omega

/-- Exactly one tick is pending after each event of a run. None fires after `StopApplication` where
the tick that is pending then is due after the end of the simulation, and only there once all events
up to the end have been taken off the queue. -/
theorem tick_chain (X : NdnCxx N) (endTime : ℕ) (s s' : Simulation) (start : Timeval) (r : Reading)
    (rs : List Reading) (os : List (SimObs N)) (hfresh : s.Fresh)
    (hrun : run X endTime s start r rs = .ok (s', os)) :
    s'.pendingTicks.length = 1 ∧ (DueAfterEnd endTime os → NoTickAfterStop os) ∧
      ((∀ x ∈ s'.queue.head?, endTime < x.1) → NoTickAfterStop os → DueAfterEnd endTime os) := by
  obtain ⟨m, o, os', hm, hexec, rfl⟩ := run_eq_ok hrun
  obtain ⟨⟨due₀, hrun₀, p, sent, ho⟩, -⟩ := startApplication_spec hfresh hm
  have hfirst : Chained endTime m o := by
    rw [ho]
    refine ⟨⟨due₀, hrun₀, fun _ dues hmem => ?_⟩, fun _ => ?_⟩
    · cases List.mem_singleton.1 hmem
    · exact NoTickAfterStop.tick_iff (h := []) |>.2 fun dues hmem => (by cases hmem)
  have hlast := (chained_step X endTime).exec hfirst (along_true _ _) hexec
  obtain ⟨due, hrunning, hstop⟩ := hlast.pending
  refine ⟨by rw [hrunning.pending]; rfl, hlast.stopped, fun hend hno dues hmem d hd => ?_⟩
  rw [hstop hno dues hmem, List.mem_singleton] at hd
  subst hd
  have hpending := hrunning.pending
  have hsorted := hrunning.sorted
  unfold pendingTicks at hpending
  rcases hqueue : s'.queue with _ | ⟨x, q⟩
  · rw [hqueue] at hpending
    cases hpending
  · rw [hqueue] at hpending hsorted hend
    have hmem : d ∈ times isTick (x :: q) := by
      rw [hpending]
      exact List.mem_singleton_self d
    have hle := hsorted.head_le hmem
    exact (hend x rfl).trans_le hle

end TickChain

/-- The run ends before the tick that is pending at `StopApplication`. -/
theorem tick_chain_stopAtTen :
    NoTickAfterStop ([.tick 0 1 ⟨0, 1⟩ [], .stopped [1000]] : List (SimObs (List UInt8 × Option ℕ))) :=
  (tick_chain plainNames 500 stopAtTen ⟨10, [(1000, .scheduleNextTick)], ⟨0, 0⟩, 1, 0, 1, false⟩
    ⟨0, 0⟩ (readingAt 1 []) [readingAt 2 [], readingAt 3 datagramA7] _ fresh_stopAtTen
    (by decide +kernel)).2.1 (by simp [DueAfterEnd])

/-- After `StopApplication` a tick sends an Interest through the link. -/
theorem tick_after_stop : stopAtTen.Fresh ∧ ∃ s' os,
    run plainNames 2000 stopAtTen ⟨0, 0⟩ (readingAt 1 []) [readingAt 2 [], readingAt 3 datagramA7] =
      .ok (s', os ++ [.tick 1 3 ⟨0, 3⟩ [.interest (nameA, some 7)]]) ∧
    .stopped [1000] ∈ os ∧ ¬ NoTickAfterStop (os ++ [.tick 1 3 ⟨0, 3⟩ [.interest (nameA, some 7)]]) := by
  have hmem : (SimObs.stopped [1000] : SimObs (List UInt8 × Option ℕ)) ∈
      [.tick 0 1 ⟨0, 1⟩ [], .stopped [1000]] := by simp
  exact ⟨fresh_stopAtTen, _, [.tick 0 1 ⟨0, 1⟩ [], .stopped [1000]], run_stopAtTen, hmem,
    fun hno => NoTickAfterStop.tick_iff.1 hno _ hmem⟩

end Simulation

end MixSim
