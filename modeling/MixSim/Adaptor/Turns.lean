import MixSim.Adaptor.NameUdpMap
import MixSim.Adaptor.Ownership

/-!
# What a turn of each coroutine can do

One case lemma for each coroutine, from states in which every buffer has one place, the table keeps
its invariant and the pointer held by `udp_data_out`, as long as it points into the current array,
points to the entry of the Data in hand (`Sound`). The later arguments about runs are made from
these cases and never unfold a coroutine.
-/

namespace MixSim

open BufferPool Execution SlotTable

namespace Adaptor

/-- The entry at `entry` is the live one for the Data in `b`, and lists the address number `i`. -/
def EntryAt (s : Adaptor) (b : ℕ) : Prop :=
  ∃ as, At s.nutTable.slots s.entry.idx (nutKey (s.frame b).name) as ∧ s.i < as.length

/-- What every turn keeps. -/
structure Sound (s : Adaptor) : Prop where
  owned : Owned s.pool
  wf : s.nutTable.WF
  arr_le : ∀ b, s.held .realtosimData = some b → s.entry.arr ≤ s.nutTable.arr
  entry : ∀ b, s.held .realtosimData = some b → s.entry.arr = s.nutTable.arr → s.EntryAt b

variable {s : Adaptor} {q : FwdQueue} {b : ℕ}

theorem Sound.held_lt (h : s.Sound) (hb : s.held q = some b) : b < s.mem.length :=
  h.owned.lt (x := Place.held q) (by simp [pool, hb])

/-! ### Receiving -/

/-- What the next buffer holds once it is filled. -/
def filled (s : Adaptor) (malloc : Option SimpleNameData)
    (fill : SimpleNameData → Except Fault SimpleNameData) : Option SimpleNameData :=
  match s.fillBuffer malloc fill with
  | .ok (_, _, f) => some f
  | .error _ => none

/-- A filled buffer holds what a fill has made of some contents. -/
theorem filled_eq_some {malloc : Option SimpleNameData}
    {fill : SimpleNameData → Except Fault SimpleNameData} {f : SimpleNameData} (hs : s.Sound)
    (hf : f ∈ s.filled malloc fill) : ∃ d, fill d = .ok f := by
  unfold filled at hf
  rcases fillBuffer_cases hs.owned malloc fill with
    ⟨-, hget⟩ | ⟨d, e, -, hget⟩ | ⟨d, f', b, src, old, mem, free, hfill, -, hget, -⟩
  · rw [hget] at hf
    cases hf
  · rw [hget] at hf
    cases hf
  · rw [hget] at hf
    cases hf
    exact ⟨d, hfill⟩

/-- A turn of `receive`. -/
inductive ReceiveTurn (s : Adaptor) (q : FwdQueue) (m : Message)
    (fill : SimpleNameData → Except Fault SimpleNameData) (alloc : Alloc) :
    Except Fault (Adaptor × List Obs) → Prop
  | oom (hmalloc : alloc.malloc = none) : ReceiveTurn s q m fill alloc (.error .outOfMemory)
  | bad {d : SimpleNameData} {e : Fault} (hfill : fill d = .error e) : ReceiveTurn s q m fill alloc (.error e)
  | ok {d f : SimpleNameData} {src : Option Place} {old : SimpleNameData} {mem : List SimpleNameData}
      {free : Lfq ℕ} {queue : FwdQueue → Lfq ℕ} (hget : f ∈ s.filled alloc.malloc fill)
      (hfill : fill d = .ok f) (hsrc : ∀ q, src ≠ some (.queue q))
      (hmove : Move s.pool ⟨src, if alloc.calloc then some (.queue q) else none, old, f⟩
        ({ s with mem := mem, freebufList := free, queue := queue } : Adaptor).pool) :
      ReceiveTurn s q m fill alloc (.ok ({ s with mem := mem, freebufList := free, queue := queue },
        .recv q m :: if alloc.calloc then [.enqueue q f] else []))

theorem receive_turn (h : s.Sound) (q : FwdQueue) (m : Message)
    (fill : SimpleNameData → Except Fault SimpleNameData) (alloc : Alloc) :
    ReceiveTurn s q m fill alloc (s.receive q m fill alloc) := by
  rcases fillBuffer_cases h.owned alloc.malloc fill with
    ⟨hmalloc, hget⟩ | ⟨d, e, hfill, hget⟩ | ⟨d, f, b, src, old, mem, free, hfill, hsrc, hget, hmove⟩
  · rw [receive, hget]
    exact .oom hmalloc
  · rw [receive, hget]
    exact .bad hfill
  · have hfilled : f ∈ s.filled alloc.malloc fill := by rw [filled, hget]; rfl
    rw [receive, hget]
    have hm := hmove (if alloc.calloc then some (.queue q) else none)
    exact .ok hfilled hfill hsrc
      (hm.congr_pool (put_pool { s with mem := mem, freebufList := free } q b f alloc.calloc))

/-! ### Sending with `isend` -/

/-- A turn of `isendFrames`. -/
inductive IsendTurn (s : Adaptor) (q : FwdQueue) (dlen : SimpleNameData → ℕ) (waitWrite : Bool)
    (isend : ℤ) (calloc : Bool) : Except Fault (Adaptor × List Obs) → Prop
  | idle {queue : FwdQueue → Lfq ℕ} (hpool : ({ s with queue := queue } : Adaptor).pool = s.pool) :
      IsendTurn s q dlen waitWrite isend calloc (.ok ({ s with queue := queue }, []))
  | take {b : ℕ} {queue : FwdQueue → Lfq ℕ} (hheld : s.held q = none)
      (hmove : Move s.pool ⟨some (.queue q), some (.held q), s.frame b, s.frame b⟩
        ({ s with queue := queue, held := Function.update s.held q (some b) } : Adaptor).pool) :
      IsendTurn s q dlen waitWrite isend calloc (.ok ({ s with
        queue := queue, held := Function.update s.held q (some b) }, [.dequeue q (s.frame b)]))
  | wait : IsendTurn s q dlen waitWrite isend calloc (.ok (s, []))
  | range {b : ℕ} (hheld : s.held q = some b)
      (hbig : bufSize < (s.frame b).nlen + dlen (s.frame b)) :
      IsendTurn s q dlen waitWrite isend calloc (.error .outOfBounds)
  | sent {b : ℕ} (hheld : s.held q = some b) (hfit : (s.frame b).nlen + dlen (s.frame b) ≤ bufSize)
      (hmove : Move s.pool ⟨some (.held q), if calloc then some .free else none, s.frame b, s.frame b⟩
        (s.release q b calloc).pool) (hwrite : waitWrite = true) :
      IsendTurn s q dlen waitWrite isend calloc (.ok (s.release q b calloc,
        [.isend q ⟨(s.frame b).name, ((s.frame b).buf.drop (s.frame b).nlen).take (dlen (s.frame b))⟩
          isend, .done q (s.frame b)]))

theorem isendFrames_turn (h : s.Sound) (q : FwdQueue) (dlen : SimpleNameData → ℕ) (waitWrite : Bool)
    (isend : ℤ) (calloc : Bool) :
    IsendTurn s q dlen waitWrite isend calloc (s.isendFrames q dlen waitWrite isend calloc) := by
  rw [isendFrames]
  rcases hheld : s.held q with _ | b
  · rcases take_cases h.owned hheld with ⟨queue, hget, hpool⟩ | ⟨b, queue, hb, hget, hmove⟩
    · simp only [hget, bind, Except.bind]
      exact .idle hpool
    · simp only [hget, bind, Except.bind]
      exact .take hheld hmove
  · cases waitWrite with
    | false => exact .wait
    | true =>
      have hb := h.held_lt hheld
      simp only [Bool.not_true, Bool.false_eq_true, if_false, read_of_lt hb, bind, Except.bind]
      by_cases hfit : (s.frame b).nlen + dlen (s.frame b) ≤ bufSize
      · have hnlen : (s.frame b).nlen % 2 ^ 16 = (s.frame b).nlen :=
          Nat.mod_eq_of_lt (by unfold bufSize at hfit; omega)
        have hname : (s.frame b).readBuf 0 (s.frame b).nlen = .ok (s.frame b).name := by
          rw [SimpleNameData.readBuf, if_pos (by omega), List.drop_zero, SimpleNameData.name]
        have hcontent : (s.frame b).readBuf (s.frame b).nlen (dlen (s.frame b)) =
            .ok (((s.frame b).buf.drop (s.frame b).nlen).take (dlen (s.frame b))) := if_pos hfit
        simp only [hnlen, hname, hcontent]
        exact .sent hheld hfit (release_move hheld hb calloc) rfl
      · have hcontent : (s.frame b).readBuf (s.frame b).nlen (dlen (s.frame b)) =
            .error .outOfBounds := if_neg hfit
        rcases hname : (s.frame b).readBuf 0 ((s.frame b).nlen % 2 ^ 16) with e | name
        · obtain ⟨-, rfl⟩ := SimpleNameData.readBuf_eq_error hname
          exact .range hheld (by omega)
        · simp only [hcontent]
          exact .range hheld (by omega)

/-! ### Sending with `sendto` -/

/-- A turn of `udp_interest_out`. -/
inductive InterestOutTurn (s : Adaptor) (calloc : Bool) : Except Fault (Adaptor × List Obs) → Prop
  | idle {queue : FwdQueue → Lfq ℕ} (hpool : ({ s with queue := queue } : Adaptor).pool = s.pool) :
      InterestOutTurn s calloc (.ok ({ s with queue := queue }, []))
  | take {b : ℕ} {queue : FwdQueue → Lfq ℕ} (hmove : Move s.pool
        ⟨some (.queue .realtosimInterest), some (.held .realtosimInterest), s.frame b, s.frame b⟩
        ({ s with queue := queue, held := Function.update s.held .realtosimInterest (some b),
                  interestPhase := .before } : Adaptor).pool)
      (hheld : s.held .realtosimInterest = none) :
      InterestOutTurn s calloc (.ok ({ s with
        queue := queue
        held := Function.update s.held .realtosimInterest (some b)
        interestPhase := .before }, [.dequeue .realtosimInterest (s.frame b)]))
  | send {b : ℕ} (hheld : s.held .realtosimInterest = some b) (hphase : s.interestPhase = .before) :
      InterestOutTurn s calloc (.ok ({ s with interestPhase := .after },
        [.sendto .realtosimInterest (s.frame b) serveraddr]))
  | finish {b : ℕ} (hheld : s.held .realtosimInterest = some b)
      (hmove : Move s.pool ⟨some (.held .realtosimInterest), if calloc then some .free else none,
        s.frame b, s.frame b⟩ (s.release .realtosimInterest b calloc).pool)
      (hphase : s.interestPhase = .after) :
      InterestOutTurn s calloc (.ok (s.release .realtosimInterest b calloc,
        [.done .realtosimInterest (s.frame b)]))

theorem udpInterestOut_turn (h : s.Sound) (calloc : Bool) :
    InterestOutTurn s calloc (s.udpInterestOut calloc) := by
  rw [udpInterestOut]
  rcases hheld : s.held .realtosimInterest with _ | b
  · rcases take_cases h.owned hheld with ⟨queue, hget, hpool⟩ | ⟨b, queue, hb, hget, hmove⟩
    · simp only [hget, bind, Except.bind]
      exact .idle hpool
    · simp only [hget, bind, Except.bind]
      exact .take hmove hheld
  · have hb := h.held_lt hheld
    cases hphase : s.interestPhase with
    | before =>
      simp only [read_of_lt hb, bind, Except.bind]
      exact .send hheld hphase
    | after => exact .finish hheld (release_move hheld hb calloc) hphase

/-! ### Receiving Interests -/

/-- A turn of `udp_interest_in`, with the first 2048 bytes of the datagram in `buf`. -/
inductive InterestInTurn (s : Adaptor) (buf : List UInt8) (addr : SockaddrIn) (alloc : Alloc) :
    Except Fault (Adaptor × List Obs) → Prop
  | empty (hbuf : buf = []) : InterestInTurn s buf addr alloc (.ok (s, []))
  | oom (hne : buf ≠ []) (hmalloc : alloc.malloc = none) :
      InterestInTurn s buf addr alloc (.error .outOfMemory)
  | fault {d f : SimpleNameData} {e : Fault} (hne : buf ≠ [])
      (hget : f ∈ s.filled alloc.malloc (·.memcpy buf)) (hfill : d.memcpy buf = .ok f)
      (hset : bufSize < f.nlen ∨
        SetOutcome s.nutTable (nutKey f.name) addr alloc.grow (.error e)) :
      InterestInTurn s buf addr alloc (.error e)
  | accepted {d f : SimpleNameData} {t : Nut} {src : Option Place} {old : SimpleNameData}
      {mem : List SimpleNameData} {free : Lfq ℕ} {queue : FwdQueue → Lfq ℕ}
      (hne : buf ≠ []) (hget : f ∈ s.filled alloc.malloc (·.memcpy buf)) (hfill : d.memcpy buf = .ok f)
      (hnlen : f.nlen ≤ bufSize)
      (hset : SetOutcome s.nutTable (nutKey f.name) addr alloc.grow (.ok (t, 1)))
      (hsrc : ∀ q, src ≠ some (.queue q))
      (hmove : Move s.pool ⟨src, if alloc.calloc then some (.queue .simtorealInterest) else none,
        old, f⟩ ({ s with mem := mem, freebufList := free, queue := queue } : Adaptor).pool) :
      InterestInTurn s buf addr alloc (.ok ({ s with
          mem := mem, freebufList := free, queue := queue, nutTable := t },
        [.recv .simtorealInterest (FwdQueue.simtorealInterest.dgramMessage buf),
          .nutSet f.name addr 1] ++ if alloc.calloc then [.enqueue .simtorealInterest f] else []))
  | dropped {d f : SimpleNameData} {t : Nut} {ret : ℤ} {src : Option Place} {old : SimpleNameData}
      {mem : List SimpleNameData} {free : Lfq ℕ}
      (hne : buf ≠ []) (hget : f ∈ s.filled alloc.malloc (·.memcpy buf)) (hfill : d.memcpy buf = .ok f)
      (hnlen : f.nlen ≤ bufSize)
      (hset : SetOutcome s.nutTable (nutKey f.name) addr alloc.grow (.ok (t, ret)))
      (hret : ret ≠ 1) (hsrc : ∀ q, src ≠ some (.queue q))
      (hmove : Move s.pool ⟨src, none, old, f⟩
        ({ s with mem := mem, freebufList := free } : Adaptor).pool) :
      InterestInTurn s buf addr alloc (.ok ({ s with mem := mem, freebufList := free, nutTable := t },
        [.recv .simtorealInterest (FwdQueue.simtorealInterest.dgramMessage buf),
          .nutSet f.name addr ret]))

theorem udpInterestIn_turn (h : s.Sound) (datagram : List UInt8) (addr : SockaddrIn)
    (alloc : Alloc) :
    InterestInTurn s (datagram.take 2048) addr alloc (s.udpInterestIn datagram addr alloc) := by
  rw [udpInterestIn]
  by_cases hbuf : (datagram.take 2048).length = 0
  · rw [if_pos hbuf]
    exact .empty (List.length_eq_zero_iff.1 hbuf)
  · have hne : datagram.take 2048 ≠ [] := fun hnil => hbuf (by rw [hnil]; rfl)
    rw [if_neg hbuf]
    rcases fillBuffer_cases h.owned alloc.malloc (·.memcpy (datagram.take 2048)) with
      ⟨hmalloc, hget⟩ | ⟨d, e, hfill, hget⟩ | ⟨d, f, b, src, old, mem, free, hfill, hsrc, hget, hmove⟩
    · rw [hget]
      exact .oom hne hmalloc
    · -- 2048 bytes fit
      obtain ⟨hbig, -⟩ := SimpleNameData.store_eq_error hfill
      rw [List.length_take, frameSize] at hbig
      omega
    · have hfilled : f ∈ s.filled alloc.malloc (·.memcpy (datagram.take 2048)) := by
        rw [filled, hget]
        rfl
      rw [hget]
      simp only [bind, Except.bind]
      have hlen : f.buf.length = bufSize := f.length_buf
      have hout : f.nlen ≤ bufSize → SetOutcome s.nutTable (nutKey f.name) addr alloc.grow
          (nutSet s.nutTable f.buf (asInt f.nlen) addr alloc.grow) := by
        intro hn
        have hle : f.nlen < 2 ^ 31 := by
          unfold bufSize at hn
          omega
        rw [asInt_of_lt hle]
        exact nutSet_outcome _ _ h.wf (by rw [hlen]; exact hn)
      rcases hset : nutSet s.nutTable f.buf (asInt f.nlen) addr alloc.grow with e | ⟨t, ret⟩
      · refine .fault hne hfilled hfill ?_
        by_cases hn : f.nlen ≤ bufSize
        · exact Or.inr (hset ▸ hout hn)
        · exact Or.inl (not_le.1 hn)
      · have hn : f.nlen ≤ bufSize := by
          obtain ⟨h0, h1⟩ := nutSet_inRange hset
          obtain ⟨n, hn⟩ := Int.eq_ofNat_of_zero_le h0
          rw [hlen, hn] at h1
          rw [eq_of_asInt f.nlen_lt hn]
          exact_mod_cast h1
        have hres : SetOutcome s.nutTable (nutKey f.name) addr alloc.grow (.ok (t, ret)) :=
          hset ▸ hout hn
        dsimp only
        by_cases hret : ret = 1
        · subst hret
          have hm := hmove (if alloc.calloc then some (.queue .simtorealInterest) else none)
          rw [if_pos rfl]
          exact .accepted hne hfilled hfill hn hres hsrc (hm.congr_pool
            (put_pool { s with mem := mem, freebufList := free } .simtorealInterest b f alloc.calloc))
        · rw [if_neg hret]
          exact .dropped hne hfilled hfill hn hres hret hsrc (hmove none)

/-! ### Sending Data -/

/-- A turn of `udp_data_out`. -/
inductive DataOutTurn (s : Adaptor) (calloc : Bool) : Except Fault (Adaptor × List Obs) → Prop
  | idle {queue : FwdQueue → Lfq ℕ} (hheld : s.held .realtosimData = none)
      (hpool : ({ s with queue := queue } : Adaptor).pool = s.pool) :
      DataOutTurn s calloc (.ok ({ s with queue := queue }, []))
  | unknown {b : ℕ} {queue : FwdQueue → Lfq ℕ} (hheld : s.held .realtosimData = none)
      (hnone : (s.frame b).nlen ≤ bufSize →
        lookup s.nutTable.slots (nutKey (s.frame b).name) = none)
      (hmoves : Moves s.pool
        [⟨some (.queue .realtosimData), some (.held .realtosimData), s.frame b, s.frame b⟩,
          ⟨some (.held .realtosimData), none, s.frame b, s.frame b⟩]
        ({ s with queue := queue, held := Function.update s.held .realtosimData none } : Adaptor).pool) :
      DataOutTurn s calloc (.ok ({ s with
        queue := queue, held := Function.update s.held .realtosimData none },
        [.dequeue .realtosimData (s.frame b)]))
  | getFault {b : ℕ} {queue : FwdQueue → Lfq ℕ} {e : Fault} (hheld : s.held .realtosimData = none)
      (hmove : Move s.pool
        ⟨some (.queue .realtosimData), some (.held .realtosimData), s.frame b, s.frame b⟩
        ({ s with queue := queue, held := Function.update s.held .realtosimData (some b) } :
          Adaptor).pool)
      (hbig : bufSize < (s.frame b).nlen) : DataOutTurn s calloc (.error e)
  | start {b idx : ℕ} {queue : FwdQueue → Lfq ℕ} {as : List SockaddrIn}
      (hheld : s.held .realtosimData = none)
      (hat : At s.nutTable.slots idx (nutKey (s.frame b).name) as)
      (hmove : Move s.pool
        ⟨some (.queue .realtosimData), some (.held .realtosimData), s.frame b, s.frame b⟩
        ({ s with queue := queue, held := Function.update s.held .realtosimData (some b) } :
          Adaptor).pool) :
      DataOutTurn s calloc (.ok ({ s with
        queue := queue
        held := Function.update s.held .realtosimData (some b)
        entry := ⟨s.nutTable.arr, idx⟩
        i := 0
        dataPhase := .before }, [.dequeue .realtosimData (s.frame b)]))
  | dangling {b : ℕ} (hheld : s.held .realtosimData = some b)
      (harr : s.entry.arr ≠ s.nutTable.arr) : DataOutTurn s calloc (.error .useAfterFree)
  | send {b : ℕ} {as : List SockaddrIn} {a : SockaddrIn} (hheld : s.held .realtosimData = some b)
      (harr : s.entry.arr = s.nutTable.arr) (hphase : s.dataPhase = .before)
      (hat : At s.nutTable.slots s.entry.idx (nutKey (s.frame b).name) as) (ha : as[s.i]? = some a) :
      DataOutTurn s calloc (.ok ({ s with dataPhase := .after },
        [.sendto .realtosimData (s.frame b) a]))
  | next {b : ℕ} {as : List SockaddrIn} (hheld : s.held .realtosimData = some b)
      (harr : s.entry.arr = s.nutTable.arr) (hphase : s.dataPhase = .after)
      (hat : At s.nutTable.slots s.entry.idx (nutKey (s.frame b).name) as)
      (hi : s.i + 1 < as.length) :
      DataOutTurn s calloc (.ok ({ s with i := s.i + 1, dataPhase := .before }, []))
  | finish {b : ℕ} {as : List SockaddrIn} {t : Nut} (hheld : s.held .realtosimData = some b)
      (harr : s.entry.arr = s.nutTable.arr) (hphase : s.dataPhase = .after)
      (hat : At s.nutTable.slots s.entry.idx (nutKey (s.frame b).name) as)
      (hi : s.i + 1 = as.length) (hwf : t.WF)
      (hslots : t.slots = s.nutTable.slots.set s.entry.idx none)
      (hmove : Move s.pool ⟨some (.held .realtosimData), if calloc then some .free else none,
        s.frame b, s.frame b⟩ (s.release .realtosimData b calloc).pool) :
      DataOutTurn s calloc (.ok ({ s with nutTable := t }.release .realtosimData b calloc,
        [.done .realtosimData (s.frame b)]))

/-- The address number `i` of a live entry. -/
theorem nutAddr_at {t : Nut} {idx i : ℕ} {k : List UInt8} {as : List SockaddrIn}
    (hat : At t.slots idx k as) (hi : i < as.length) : nutAddr t ⟨t.arr, idx⟩ i = .ok as[i] := by
  obtain ⟨e, he, rfl, -⟩ := nutDeref_at hat
  have hget : e.addr[i]? = some e.addrs[i] := by
    have h : (e.addr.take e.addrNum)[i]? = some e.addrs[i] := List.getElem?_eq_getElem hi
    rw [List.getElem?_take] at h
    split_ifs at h
    exact h
  simp only [nutAddr, he, hget, bind, Except.bind]

/-- Every use of a dangling pointer faults. -/
theorem nutAddr_dangling {t : Nut} {entry : NutEntryPtr} (h : entry.arr ≠ t.arr) (i : ℕ) :
    nutAddr t entry i = .error .useAfterFree := by
  simp only [nutAddr, nutDeref, if_neg h, bind, Except.bind]

/-- The loop test, and what follows it, with a pointer to a live entry. -/
theorem udpDataLoop_at (hwf : s.nutTable.WF) {i : ℕ} {k : List UInt8} {as : List SockaddrIn}
    (harr : s.entry.arr = s.nutTable.arr) (hat : At s.nutTable.slots s.entry.idx k as)
    (calloc : Bool) :
    (i < as.length ∧ s.udpDataLoop b i calloc = .ok ({ s with i := i, dataPhase := .before }, [])) ∨
    (as.length ≤ i ∧ ∃ t, t.WF ∧ t.slots = s.nutTable.slots.set s.entry.idx none ∧
      s.udpDataLoop b i calloc = .ok ({ s with nutTable := t }.release .realtosimData b calloc,
        [.done .realtosimData (s.frame b)])) := by
  obtain ⟨t, hdel, htwf, hslots, -⟩ := nutDel_eq hwf hat
  obtain ⟨e, he, has, hd⟩ := nutDeref_at hat
  have hlen : e.addrNum = as.length := by
    obtain ⟨e', he', hi', hd', -, -⟩ := at_slots_iff.1 hat
    have hee : e' = e := by simpa [nutDeref, he'] using he
    subst hee
    have hlive : e'.Live := hwf.live e' (List.mem_of_getElem? (i := s.entry.idx) (by
      rw [List.getElem?_take, if_pos hi', he'])) hd
    rw [← has, hlive.length_addrs]
  rw [← harr] at hdel he
  by_cases hi : i < as.length
  · left
    refine ⟨hi, ?_⟩
    simp only [udpDataLoop, he, hlen, if_pos hi, bind, Except.bind]
  · right
    refine ⟨not_lt.1 hi, t, htwf, hslots, ?_⟩
    simp only [udpDataLoop, he, hlen, if_neg hi, hdel, bind, Except.bind]

theorem udpDataOut_turn (h : s.Sound) (calloc : Bool) :
    DataOutTurn s calloc (s.udpDataOut calloc) := by
  rw [udpDataOut]
  rcases hheld : s.held .realtosimData with _ | b
  · rcases take_cases h.owned hheld with ⟨queue, hget, hpool⟩ | ⟨b, queue, hb, hget, hmove⟩
    · simp only [hget, bind, Except.bind]
      exact .idle hheld hpool
    · simp only [hget, bind, Except.bind]
      rcases hnut : nutGet s.nutTable (s.frame b).buf (asInt (s.frame b).nlen) with e | r
      · refine .getFault (e := e) hheld hmove ?_
        by_contra hn
        have hn' : (s.frame b).nlen < 2 ^ 31 := by
          unfold bufSize at hn
          omega
        rw [asInt_of_lt hn', nutGet_eq h.wf (by rw [SimpleNameData.length_buf]; omega)] at hnut
        cases hnut
      · cases r with
        | none =>
          simp only [Function.update_idem]
          refine .unknown hheld ?_ ?_
          · intro hn
            have hn' : (s.frame b).nlen < 2 ^ 31 := by
              unfold bufSize at hn
              omega
            rw [asInt_of_lt hn', nutGet_eq h.wf (by rw [SimpleNameData.length_buf]; omega)] at hnut
            rw [lookup, SimpleNameData.name]
            simpa using hnut
          · have hforget := forget_move (s := { s with
                queue := queue, held := Function.update s.held .realtosimData (some b) })
              (q := .realtosimData) (b := b) (by simp) hb
            simp only [Function.update_idem] at hforget
            exact .cons hmove (.cons hforget .nil)
        | some p =>
          obtain ⟨n, hn, -, idx, as, rfl, hat⟩ := nutGet_some h.wf hnut
          rw [← eq_of_asInt (s.frame b).nlen_lt hn] at hat
          dsimp only
          rcases udpDataLoop_at (s := { s with
              queue := queue
              held := Function.update s.held .realtosimData (some b)
              entry := ⟨s.nutTable.arr, idx⟩ }) (b := b) (i := 0) h.wf rfl hat calloc with
            ⟨-, hloop⟩ | ⟨hlen, -⟩
          · rw [hloop]
            exact .start hheld hat hmove
          · have hpos := (h.wf.at_addrs hat).1
            omega
  · dsimp only
    by_cases harr : s.entry.arr = s.nutTable.arr
    · obtain ⟨as, hat, hi⟩ := h.entry b hheld harr
      have haddr : nutAddr s.nutTable s.entry s.i = .ok as[s.i] := by
        have := nutAddr_at hat hi
        rwa [← harr] at this
      have hb := h.held_lt hheld
      cases hphase : s.dataPhase with
      | before =>
        simp only [haddr, read_of_lt hb, bind, Except.bind]
        exact .send hheld harr hphase hat (List.getElem?_eq_getElem hi)
      | after =>
        simp only [haddr, bind, Except.bind]
        rcases udpDataLoop_at (b := b) (i := s.i + 1) h.wf harr hat calloc with
          ⟨hlt, hloop⟩ | ⟨hle, t, hwf, hslots, hloop⟩
        · rw [hloop]
          exact .next hheld harr hphase hat hlt
        · rw [hloop]
          exact .finish hheld harr hphase hat (by omega) hwf hslots (release_move hheld hb calloc)
    · cases s.dataPhase <;> simp only [nutAddr_dangling harr, bind, Except.bind] <;>
        exact .dangling hheld harr

/-! ### One step -/

/-- A step is a turn of the coroutine that the event resumes. -/
inductive Turn (s : Adaptor) : Event → Except Fault (Adaptor × List Obs) → Prop
  | nothing {ev : Event} : Turn s ev (.ok (s, []))
  | nipInterestIn {ibuf : Isockbuf} {alloc : Alloc} {r : Except Fault (Adaptor × List Obs)}
      (ht : ReceiveTurn s .realtosimInterest ibuf.interest (fillInterest ibuf) alloc r) :
      Turn s (.nipInterestIn (some ibuf) alloc) r
  | nipDataIn {ibuf : Isockbuf} {alloc : Alloc} {r : Except Fault (Adaptor × List Obs)}
      (ht : ReceiveTurn s .realtosimData ibuf.content (fillData ibuf) alloc r) :
      Turn s (.nipDataIn (some ibuf) alloc) r
  | nipInterestOut {waitWrite calloc : Bool} {isend : ℤ} {r : Except Fault (Adaptor × List Obs)}
      (ht : IsendTurn s .simtorealInterest (fun _ => 0) waitWrite isend calloc r) :
      Turn s (.nipInterestOut waitWrite isend calloc) r
  | nipDataOut {waitWrite calloc : Bool} {isend : ℤ} {r : Except Fault (Adaptor × List Obs)}
      (ht : IsendTurn s .simtorealData SimpleNameData.dlen waitWrite isend calloc r) :
      Turn s (.nipDataOut waitWrite isend calloc) r
  | udpInterestIn {datagram : List UInt8} {addr : SockaddrIn} {alloc : Alloc}
      {r : Except Fault (Adaptor × List Obs)}
      (ht : InterestInTurn s (datagram.take 2048) addr alloc r) :
      Turn s (.udpInterestIn datagram addr alloc) r
  | udpDataIn {datagram : List UInt8} {alloc : Alloc} {r : Except Fault (Adaptor × List Obs)}
      (hne : datagram ≠ [])
      (ht : ReceiveTurn s .simtorealData (FwdQueue.simtorealData.dgramMessage (datagram.take 4096))
        (·.memcpy (datagram.take 4096)) alloc r) :
      Turn s (.udpDataIn datagram alloc) r
  | udpInterestOut {calloc : Bool} {r : Except Fault (Adaptor × List Obs)}
      (ht : InterestOutTurn s calloc r) : Turn s (.udpInterestOut calloc) r
  | udpDataOut {calloc : Bool} {r : Except Fault (Adaptor × List Obs)}
      (ht : DataOutTurn s calloc r) : Turn s (.udpDataOut calloc) r

theorem step_turn (h : s.Sound) (ev : Event) : Turn s ev (step s ev) := by
  cases ev with
  | nipInterestIn irecv alloc =>
    cases irecv with
    | none => exact .nothing
    | some ibuf => exact .nipInterestIn (receive_turn h _ _ _ _)
  | nipDataIn irecv alloc =>
    cases irecv with
    | none => exact .nothing
    | some ibuf => exact .nipDataIn (receive_turn h _ _ _ _)
  | nipInterestOut waitWrite isend calloc => exact .nipInterestOut (isendFrames_turn h _ _ _ _ _)
  | nipDataOut waitWrite isend calloc => exact .nipDataOut (isendFrames_turn h _ _ _ _ _)
  | udpInterestIn datagram addr alloc => exact .udpInterestIn (udpInterestIn_turn h _ _ _)
  | udpDataIn datagram alloc =>
    show Turn s _ (s.udpDataIn datagram alloc)
    rw [udpDataIn]
    by_cases hbuf : (datagram.take 4096).length = 0
    · rw [if_pos hbuf]
      exact .nothing
    · rw [if_neg hbuf]
      refine .udpDataIn ?_ (receive_turn h _ _ _ _)
      rintro rfl
      exact hbuf rfl
  | udpInterestOut calloc => exact .udpInterestOut (udpInterestOut_turn h _)
  | udpDataOut calloc => exact .udpDataOut (udpDataOut_turn h _)

end Adaptor

end MixSim
