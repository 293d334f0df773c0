import MixSim.Adaptor.Filling
import MixSim.Adaptor.Invariant

/-!
# What the adaptor takes from its sockets

`udp_data_in` and `udp_interest_in` copy a datagram over a recycled buffer and look neither at its
length nor at the lengths it promises. `Trusts` says that a datagram does no harm: no access outside
an object, nothing entered for a datagram that is not well formed, nothing passed on that was not in
it. `ingress_trusts_iff` says for which datagrams that is so.
-/

namespace MixSim

open BufferPool Bytes Execution SlotTable

/-! ### Names for which nothing is entered -/

/-- `nut_set` enters nothing: the address is listed under the key, or eight others are, or the table
would have to grow beyond what an `int` can count. -/
def Nut.Settled (t : Nut) (k : List UInt8) (a : SockaddrIn) : Prop :=
  (∃ as ∈ t.abs k, (∃ b ∈ as, ipPort b = ipPort a) ∨ as.length = maxAddrPername) ∨
    (t.Grows k ∧ 2 ^ 31 ≤ nutNextCap t.tableCap)

section Settled

variable {t t' : Nut} {k : List UInt8} {addr : SockaddrIn} {malloc : Option (ℕ → NutEntry)}

theorem SetOutcome.not_settled (hset : SetOutcome t k addr malloc (.ok (t', 1))) (h : t.WF) :
    ¬ t.Settled k addr := by
  rintro (⟨as, has, hlisted⟩ | ⟨⟨hfull, hnone⟩, hcap⟩)
  · cases hset with
    | add hat hany hlen =>
      have hsome : t.abs k = some _ := hat.lookup h.unique
      rw [hsome] at has
      cases has
      rcases hlisted with hlisted | hlisted
      · rw [any_sameAddr_iff.2 hlisted] at hany
        cases hany
      · exact absurd hlisted hlen.ne
    | new hnone =>
      have habs : t.abs k = none := hnone
      rw [habs] at has
      cases has
  · cases hset with
    | add hat =>
      rw [hat.lookup h.unique] at hnone
      cases hnone
    | new _ _ _ _ hcap' => exact absurd (hcap' hfull) (not_lt.2 hcap)

/-- Where `nut_set` does not return 1, though memory is to be had, the name is settled. -/
theorem SetOutcome.settled {r : Except Fault (Nut × ℤ)} (hset : SetOutcome t k addr malloc r)
    (h : t.WF) (hm : malloc.isSome) (hr : ∀ t', r ≠ .ok (t', 1)) : t.Settled k addr := by
  cases hset with
  | same hat hany => exact Or.inl ⟨_, hat.lookup h.unique, Or.inl (any_sameAddr_iff.1 hany)⟩
  | full hat _ hlen => exact Or.inl ⟨_, hat.lookup h.unique, Or.inr hlen⟩
  | add | new => exact absurd rfl (hr _)
  | oom hnone hfull hmem =>
    refine Or.inr ⟨⟨hfull, hnone⟩, hmem.resolve_left ?_⟩
    rintro rfl
    cases hm

end Settled

namespace Adaptor

variable {s s' : Adaptor} {o : List Obs} {datagram : List UInt8} {addr : SockaddrIn} {alloc : Alloc}
  {f : SimpleNameData}

/-- A received datagram does no harm: nothing outside an object is accessed, a datagram that is not
well formed changes neither the table nor a queue, and what is passed on was in the datagram. -/
structure Trusts (s : Adaptor) (datagram : List UInt8) (r : Except Fault (Adaptor × List Obs)) :
    Prop where
  bounds : r ≠ .error .outOfBounds
  entered : ∀ s' o, r = .ok (s', o) → ¬ WellFormed datagram →
    s'.nutTable = s.nutTable ∧ ∀ q, s'.waiting q = s.waiting q
  passed : ∀ s' o q f, r = .ok (s', o) → .enqueue q f ∈ o → q.message f = q.dgramMessage datagram

/-- The name that `udp_interest_in` hands to `nut_set` lies in the datagram. -/
def TrustsKey (s : Adaptor) (datagram : List UInt8) (alloc : Alloc) : Prop :=
  ∀ f ∈ s.filled alloc.malloc (·.memcpy datagram),
    8 + f.nlen ≤ datagram.length ∧ f.name = dgramName datagram

/-- A step that puts a frame on a queue changes what waits there. -/
theorem waiting_ne {ts : List (Travel Place SimpleNameData)} {q : FwdQueue} (hT : Traffic s s' o ts)
    (hs : s.Sound) (hd : MixSim.dequeued q o = []) (he : MixSim.enqueued q o = [f]) :
    s'.waiting q ≠ s.waiting q := by
  intro hsame
  have hwaiting := hT.waiting hs.owned q
  rw [hd, he, hsame, List.nil_append] at hwaiting
  simpa using congrArg List.length hwaiting

/-- A step that faults, but stays within its objects. -/
theorem trusts_error {e : Fault} (he : e ≠ .outOfBounds) : Trusts s datagram (.error e) :=
  ⟨fun h => he (Except.error.inj h), fun _ _ hr => (by cases hr), fun _ _ _ _ hr => (by cases hr)⟩

theorem eq_of_mem_put {q q' : FwdQueue} {f g : SimpleNameData} {calloc : Bool}
    (h : .enqueue q g ∈ if calloc then [Obs.enqueue q' f] else []) : q = q' ∧ g = f := by
  split_ifs at h
  · simpa using h
  · cases h

/-! ### Data -/

/-- Data from the socket does no harm if and only if it is well formed and not longer than a
frame. -/
theorem udpDataIn_trusts_iff (hs : s.Sound) (hne : datagram ≠ []) (hlen : datagram.length ≤ 4096) :
    (∀ alloc, s.Trusts datagram (step s (.udpDataIn datagram alloc))) ↔
      WellFormed datagram ∧ datagram.length ≤ frameSize := by
  have htake : datagram.take 4096 = datagram := List.take_of_length_le hlen
  have hturn : ∀ alloc, ReceiveTurn s .simtorealData (FwdQueue.simtorealData.dgramMessage datagram)
      (·.memcpy datagram) alloc (step s (.udpDataIn datagram alloc)) := by
    intro alloc
    have hpos : ¬ datagram.length = 0 := fun h => hne (List.length_eq_zero_iff.1 h)
    show ReceiveTurn _ _ _ _ _ (s.udpDataIn datagram alloc)
    rw [udpDataIn, htake, if_neg hpos]
    exact receive_turn hs _ _ _ alloc
  constructor
  · intro hall
    have htrust := hall allocOk
    have ht := hturn allocOk
    generalize step s (.udpDataIn datagram allocOk) = r at htrust ht
    have hturn' := ht
    cases ht with
    | oom hmalloc => cases hmalloc
    | bad hfill =>
      obtain ⟨-, rfl⟩ := SimpleNameData.store_eq_error hfill
      exact absurd rfl htrust.bounds
    | ok hget hfill =>
      obtain ⟨hle, -⟩ := SimpleNameData.store_eq_ok hfill
      refine ⟨?_, by omega⟩
      by_contra hw
      obtain ⟨-, hsame⟩ := htrust.entered _ _ rfl hw
      obtain ⟨ts, hT, -⟩ := hturn'.traffic
      exact waiting_ne hT hs rfl rfl (hsame .simtorealData)
  · rintro ⟨hw, hle⟩ alloc
    have ht := hturn alloc
    generalize step s (.udpDataIn datagram alloc) = r at ht
    cases ht with
    | oom => exact trusts_error (by decide)
    | bad hfill =>
      obtain ⟨hbig, -⟩ := SimpleNameData.store_eq_error hfill
      omega
    | ok hget hfill =>
      refine ⟨fun hr => (by cases hr), fun _ _ _ hbad => absurd hw hbad, fun s' o q g hr ho => ?_⟩
      cases hr
      obtain ⟨rfl, rfl⟩ := eq_of_mem_put ((List.mem_cons.1 ho).resolve_left (by simp))
      exact (hw.frame hfill).2 _

/-! ### Interests -/

/-- A name that the datagram holds is the name handed to `nut_set`. -/
theorem trustsKey_of_le (hs : s.Sound) (hn : 8 + dgramNlen datagram ≤ datagram.length) :
    s.TrustsKey datagram alloc := by
  intro f hf
  obtain ⟨d, hfill⟩ := filled_eq_some hs hf
  rw [(lens_of_memcpy hfill (by omega)).1]
  exact ⟨hn, name_of_memcpy hfill hn⟩

/-- The cases of a step with an Interest that is received whole. -/
theorem udpInterestIn_turn_of_le (datagram : List UInt8) (addr : SockaddrIn) (hs : s.Sound)
    (hlen : datagram.length ≤ 2048) (alloc : Alloc) :
    InterestInTurn s datagram addr alloc (step s (.udpInterestIn datagram addr alloc)) := by
  have ht := udpInterestIn_turn hs datagram addr alloc
  rwa [List.take_of_length_le hlen] at ht

/-- The length of a name that the datagram holds passes the check of `nut_set`. -/
theorem nlen_le_of_memcpy {d : SimpleNameData} (hfill : d.memcpy datagram = .ok f)
    (hlen : datagram.length ≤ 2048) (hn : 8 + dgramNlen datagram ≤ datagram.length) :
    f.nlen ≤ bufSize := by
  rw [(lens_of_memcpy hfill (by omega)).1, bufSize]
  omega

/-- An Interest that does no harm is well formed, or at least holds its name and `nut_set` enters
nothing for that. -/
theorem settled_of_trusts (datagram : List UInt8) (addr : SockaddrIn) (hs : s.Sound)
    (hne : datagram ≠ []) (hlen : datagram.length ≤ 2048)
    (htrust : s.Trusts datagram (step s (.udpInterestIn datagram addr allocOk)))
    (hkey : s.TrustsKey datagram allocOk) :
    WellFormed datagram ∨ (8 + dgramNlen datagram ≤ datagram.length ∧
      s.nutTable.Settled (nutKey (dgramName datagram)) addr) := by
  by_cases hw : WellFormed datagram
  · exact Or.inl hw
  right
  -- the frame is filled, and its name lies in the datagram
  have hheader : ∀ {d f : SimpleNameData}, f ∈ s.filled allocOk.malloc (·.memcpy datagram) →
      d.memcpy datagram = .ok f →
      8 + dgramNlen datagram ≤ datagram.length ∧ f.name = dgramName datagram := by
    intro d f hget hfill
    obtain ⟨hn, hname⟩ := hkey f hget
    rw [(lens_of_memcpy hfill (by omega)).1] at hn
    exact ⟨hn, hname⟩
  have ht := udpInterestIn_turn_of_le datagram addr hs hlen allocOk
  generalize step s (.udpInterestIn datagram addr allocOk) = r at htrust ht
  have hturn := ht
  cases ht with
  | empty hbuf => exact absurd hbuf hne
  | oom _ hmalloc => cases hmalloc
  | fault _ hget hfill hset =>
    obtain ⟨hn, hname⟩ := hheader hget hfill
    have hset' := hset.resolve_left (not_lt.2 (nlen_le_of_memcpy hfill hlen hn))
    rw [hname] at hset'
    exact ⟨hn, hset'.settled hs.wf rfl fun t' ht' => by cases ht'⟩
  | accepted =>
    obtain ⟨-, hsame⟩ := htrust.entered _ _ rfl hw
    obtain ⟨ts, hT, -⟩ := hturn.traffic
    exact absurd (hsame .simtorealInterest) (waiting_ne hT hs rfl rfl)
  | dropped _ hget hfill _ hset hret =>
    obtain ⟨hn, hname⟩ := hheader hget hfill
    rw [hname] at hset
    refine ⟨hn, hset.settled hs.wf rfl fun t' ht' => ?_⟩
    cases ht'
    exact hret rfl

/-- An Interest that is well formed, or for whose name nothing is entered, does no harm. -/
theorem trusts_of_settled (datagram : List UInt8) (addr : SockaddrIn) (hs : s.Sound)
    (hne : datagram ≠ []) (hlen : datagram.length ≤ 2048) (hkey : s.TrustsKey datagram alloc)
    (hn : 8 + dgramNlen datagram ≤ datagram.length)
    (hcond : WellFormed datagram ∨ s.nutTable.Settled (nutKey (dgramName datagram)) addr) :
    s.Trusts datagram (step s (.udpInterestIn datagram addr alloc)) := by
  have ht := udpInterestIn_turn_of_le datagram addr hs hlen alloc
  generalize step s (.udpInterestIn datagram addr alloc) = r at ht
  have hturn := ht
  cases ht with
  | empty hbuf => exact absurd hbuf hne
  | oom => exact trusts_error (by decide)
  | fault _ hget hfill hset =>
    cases hset.resolve_left (not_lt.2 (nlen_le_of_memcpy hfill hlen hn)) with
    | oom => exact trusts_error (by decide)
  | accepted _ hget hfill _ hset =>
    -- an entry is made, so the datagram is well formed
    rw [(hkey _ hget).2] at hset
    have hw : WellFormed datagram :=
      hcond.resolve_right fun hsettled => hset.not_settled hs.wf hsettled
    refine ⟨fun hr => (by cases hr), fun _ _ _ hbad => absurd hw hbad, fun s' o q g hr ho => ?_⟩
    cases hr
    obtain ⟨rfl, rfl⟩ := eq_of_mem_put ((List.mem_append.1 ho).resolve_left (by simp))
    exact (hw.frame hfill).2 _
  | dropped _ _ _ _ hset hret =>
    obtain ⟨ts, hT, -⟩ := hturn.traffic
    refine ⟨fun hr => (by cases hr), fun s' o hr _ => ?_, fun s' o q g hr ho => ?_⟩
    · cases hr
      refine ⟨hset.eq_of_ne_one hret, fun q => ?_⟩
      have hwaiting := hT.waiting hs.owned q
      simpa [MixSim.dequeued, MixSim.enqueued, Obs.takes, Obs.puts] using hwaiting
    · cases hr
      simp at ho

/-- An Interest from the socket does no harm if and only if it is well formed, or at least holds its
name and `nut_set` enters nothing for that. -/
theorem udpInterestIn_trusts_iff (datagram : List UInt8) (addr : SockaddrIn) (hs : s.Sound)
    (hne : datagram ≠ []) (hlen : datagram.length ≤ 2048) :
    (∀ alloc, s.Trusts datagram (step s (.udpInterestIn datagram addr alloc)) ∧
      s.TrustsKey datagram alloc) ↔
    WellFormed datagram ∨ (8 + dgramNlen datagram ≤ datagram.length ∧
      s.nutTable.Settled (nutKey (dgramName datagram)) addr) := by
  constructor
  · intro hall
    obtain ⟨htrust, hkey⟩ := hall allocOk
    exact settled_of_trusts datagram addr hs hne hlen htrust hkey
  · intro hcond alloc
    have hn : 8 + dgramNlen datagram ≤ datagram.length := hcond.elim WellFormed.name_le And.left
    have hkey : s.TrustsKey datagram alloc := trustsKey_of_le hs hn
    exact ⟨trusts_of_settled datagram addr hs hne hlen hkey hn (hcond.imp_right And.right), hkey⟩

/-! ### Both sockets -/

/-- Which datagrams do no harm, whatever the recycled buffers hold and whatever the allocator
does. -/
theorem ingress_trusts_iff (hs : s.Sound) (hne : datagram ≠ []) :
    (datagram.length ≤ 4096 →
      ((∀ alloc, s.Trusts datagram (step s (.udpDataIn datagram alloc))) ↔
        WellFormed datagram ∧ datagram.length ≤ frameSize)) ∧
    (datagram.length ≤ 2048 → ∀ addr,
      ((∀ alloc, s.Trusts datagram (step s (.udpInterestIn datagram addr alloc)) ∧
          s.TrustsKey datagram alloc) ↔
        WellFormed datagram ∨ (8 + dgramNlen datagram ≤ datagram.length ∧
          s.nutTable.Settled (nutKey (dgramName datagram)) addr))) :=
  ⟨udpDataIn_trusts_iff hs hne, fun hlen _ => udpInterestIn_trusts_iff _ _ hs hne hlen⟩

/-- The initial state with an Interest for a name of two bytes. -/
theorem ingress_trusts_name :
    let s := initAdaptor (fun _ => .zero) fun _ => .zero
    let datagram := nameDgram [47, 97]
    (datagram.length ≤ 4096 →
      ((∀ alloc, s.Trusts datagram (step s (.udpDataIn datagram alloc))) ↔
        WellFormed datagram ∧ datagram.length ≤ frameSize)) ∧
    (datagram.length ≤ 2048 → ∀ addr,
      ((∀ alloc, s.Trusts datagram (step s (.udpInterestIn datagram addr alloc)) ∧
          s.TrustsKey datagram alloc) ↔
        WellFormed datagram ∨ (8 + dgramNlen datagram ≤ datagram.length ∧
          s.nutTable.Settled (nutKey (dgramName datagram)) addr))) :=
  ingress_trusts_iff (initAdaptor_inv _ _).toSound (by decide)

/-- Data of 2049 bytes is copied over the end of its buffer, and an Interest of eight bytes that
promises a name of one byte enters the byte that the buffer held before. -/
theorem ingress_not_trusted :
    (¬ ∀ (s : Adaptor) (datagram : List UInt8) (alloc : Alloc), s.Sound → datagram ≠ [] →
      datagram.length ≤ 4096 → s.Trusts datagram (step s (.udpDataIn datagram alloc))) ∧
    ¬ ∀ (s : Adaptor) (datagram : List UInt8) (addr : SockaddrIn) (alloc : Alloc), s.Sound →
      datagram ≠ [] → datagram.length ≤ 2048 →
      s.Trusts datagram (step s (.udpInterestIn datagram addr alloc)) ∧
        s.TrustsKey datagram alloc := by
  have hs := (initAdaptor_inv (fun _ => .zero) fun _ => .zero).toSound
  constructor
  · intro hall
    have hlen : (0 :: List.replicate 2048 (0 : UInt8)).length = 2049 := by
      rw [List.length_cons, List.length_replicate]
    have hle := ((udpDataIn_trusts_iff hs (List.cons_ne_nil _ _) (by rw [hlen]; decide)).1
      fun alloc => hall _ _ alloc hs (List.cons_ne_nil _ _) (by rw [hlen]; decide)).2
    rw [hlen] at hle
    exact absurd hle (by decide)
  · intro hall
    rcases (udpInterestIn_trusts_iff (toLE 4 1 ++ toLE 4 0) ⟨2, 1, 1⟩ hs
      (by decide) (by decide)).1 fun alloc => hall _ _ _ alloc hs (by decide) (by decide) with
      hw | ⟨hn, -⟩
    · exact absurd hw (by decide)
    · exact absurd hn (by decide)

end Adaptor

end MixSim
