import MixSim.Adaptor.Suppression

/-!
# Where the datagrams of the adaptor come from

Whatever the coroutines meet, every datagram that leaves the adaptor carries a message that came in
from the network stack, unaltered; and Data goes only to an address that has asked for it, by an
Interest that joined the table and has not been answered since (`data_solicited`). The delivery to all
who have asked can fail when the table grows under a suspended `udp_data_out`; this cannot.
-/

namespace MixSim

open BufferPool Execution SlotTable

/-- An Interest with the key `k` came from the address and joined the table, and no Data with that key
has been done with since. -/
def Asked (k : List UInt8) (a : SockaddrIn) (h : List Obs) : Prop :=
  ∃ pre name post, h = pre ++ .nutSet name a 1 :: post ∧ nutKey name = k ∧ ∀ x ∈ post, ¬ x.Ends k

section Histories

variable {k : List UInt8} {a : SockaddrIn} {h : List Obs} {as : List SockaddrIn} {x : Obs}

theorem Asked.snoc (ha : Asked k a h) (hx : ¬ x.Ends k) : Asked k a (h ++ [x]) := by
  obtain ⟨pre, name, post, rfl, hk, hpost⟩ := ha
  refine ⟨pre, name, post ++ [x], by simp, hk, fun y hy => ?_⟩
  rcases List.mem_append.1 hy with hy | hy
  · exact hpost y hy
  · rw [List.mem_singleton] at hy
    subst hy
    exact hx

theorem Asked.mem (ha : Asked k a h) : ∃ name, .nutSet name a 1 ∈ h ∧ nutKey name = k := by
  obtain ⟨pre, name, post, rfl, hk, -⟩ := ha
  exact ⟨name, by simp, hk⟩

/-- What the table lists has asked. -/
theorem asked_of_table (hr : Always Returns h) (hk : tableOf h k = some as) (ha : a ∈ as) :
    Asked k a h := by
  induction h using List.reverseRecOn generalizing as with
  | nil => cases hk
  | append_singleton h x ih =>
    have hold : tableOf h k = some as → ¬ x.Ends k → Asked k a (h ++ [x]) := fun hk hx =>
      (ih hr.append_left hk ha).snoc hx
    have hret := hr h x [] rfl
    rw [tableOf_snoc] at hk
    cases x with
    | nutSet name addr ret =>
      have hret : ret = ((tableOf h).set (nutKey name) addr).2 := hret
      have hk : ((tableOf h).set (nutKey name) addr).1 k = some as := hk
      by_cases hname : k = nutKey name
      · rw [← hname] at hk hret
        have hnew : ret = 1 → Asked k addr (h ++ [.nutSet name addr ret]) := by
          rintro rfl
          exact ⟨h, name, [], rfl, hname.symm, by simp⟩
        rcases hm : tableOf h k with _ | bs
        · simp only [AddrMap.set, hm, Function.update_self, Option.some.injEq] at hk hret
          subst hk
          rw [List.mem_singleton] at ha
          rw [ha]
          exact hnew hret
        · simp only [AddrMap.set, hm] at hk hret
          split_ifs at hk hret
          · exact hold (hm.trans (hm.symm.trans hk)) id
          · exact hold (hm.trans (hm.symm.trans hk)) id
          · simp only [Function.update_self, Option.some.injEq] at hk
            subst hk
            rcases List.mem_append.1 ha with ha | ha
            · exact (ih hr.append_left hm ha).snoc id
            · rw [List.mem_singleton] at ha
              rw [ha]
              exact hnew hret
      · refine hold ?_ id
        exact (AddrMap.set_of_ne hname).symm.trans hk
    | done q f =>
      cases q with
      | realtosimData =>
        by_cases hname : k = nutKey f.name
        · rw [hname] at hk
          simp only [Obs.table, AddrMap.del, Function.update_self, reduceCtorEq] at hk
        · refine hold ?_ fun hx => hname hx.symm
          simpa only [Obs.table, AddrMap.del, Function.update_of_ne hname] using hk
      | _ => exact hold hk id
    | _ => exact hold hk id

theorem mem_received {q : FwdQueue} {m : Message} : m ∈ received q h ↔ .recv q m ∈ h := by
  constructor
  · intro hm
    obtain ⟨y, hy, hmy⟩ := List.mem_flatMap.1 hm
    cases y with
    | recv q' m' =>
      simp only [Obs.receives] at hmy
      split_ifs at hmy with hq
      · subst hq
        rw [List.mem_singleton] at hmy
        subst hmy
        exact hy
      · cases hmy
    | _ => cases hmy
  · intro hm
    exact List.mem_flatMap.2 ⟨_, hm, by simp [Obs.receives]⟩

end Histories

/-- `irecv` stays within the capacity that it is given for the content. -/
def Event.ContentFits : Event → Prop
  | .nipDataIn (some ibuf) _ => ibuf.dlen.toNat ≤ maxDataLen
  | _ => True

instance : (ev : Event) → Decidable ev.ContentFits
  | .nipDataIn (some _) _ => inferInstanceAs (Decidable (_ ≤ _))
  | .nipDataIn none _ | .nipInterestIn _ _ | .nipInterestOut _ _ _ | .nipDataOut _ _ _
  | .udpInterestIn _ _ _ | .udpDataIn _ _ | .udpInterestOut _ | .udpDataOut _ => isTrue trivial

/-- The message of the frame came in from the network stack, and the frame has room for it. -/
structure Forwarded (q : FwdQueue) (f : SimpleNameData) (h : List Obs) : Prop where
  nlen_le : f.nlen ≤ maxNameLen
  fits : f.Fits
  recv : .recv q (q.message f) ∈ h

theorem Forwarded.append {q : FwdQueue} {f : SimpleNameData} {h : List Obs} (hf : Forwarded q f h)
    (o : List Obs) : Forwarded q f (h ++ o) :=
  ⟨hf.nlen_le, hf.fits, List.mem_append_left o hf.recv⟩

/-- Where a datagram comes from: the Interests go to the simulator, the Data to whom has asked. -/
def Sourced (pre : List Obs) : Obs → Prop
  | .sendto .realtosimData f a => Forwarded .realtosimData f pre ∧ Asked f.name a pre
  | .sendto q f a => q = .realtosimInterest ∧ Forwarded q f pre ∧ a = Adaptor.serveraddr
  | _ => True

namespace Adaptor

variable {s s' : Adaptor} {o h : List Obs} {ev : Event}

/-- What holds of every state and its history. -/
structure SourceInv (s : Adaptor) (h : List Obs) : Prop extends s.TableInv h where
  forwarded : ∀ q, (q = .realtosimInterest ∨ q = .realtosimData) →
    ∀ f ∈ MixSim.enqueued q h, Forwarded q f h
  sourced : Always Sourced h

theorem Turn.forwarded {q : FwdQueue} {f : SimpleNameData} (ht : Turn s ev (.ok (s', o)))
    (hs : s.Sound) (hev : ev.ContentFits) (hq : q = .realtosimInterest ∨ q = .realtosimData)
    (hf : f ∈ MixSim.enqueued q o) : Forwarded q f o := by
  obtain ⟨hle, hfits⟩ := ht.enqueued_nip hs hq hf
  rcases ht.enqueued_cases q with hnil | ⟨a, g, harr, hg, rfl, henq, hrecv⟩
  · rw [hnil] at hf
    cases hf
  rw [henq, List.mem_singleton] at hf
  subst hf
  refine ⟨hle, hfits, mem_received.1 ?_⟩
  rw [hrecv, List.mem_singleton]
  obtain ⟨d, hfill⟩ := filled_eq_some hs hg
  rcases arrival_cases harr with ⟨ibuf, alloc, rfl, rfl⟩ | ⟨ibuf, alloc, rfl, rfl⟩ |
    ⟨datagram, addr, alloc, rfl, -, rfl⟩ | ⟨datagram, alloc, rfl, -, rfl⟩
  · exact (fillInterest_eq_ok hfill).2.2
  · have hd : ibuf.dlen.toNat ≤ maxDataLen := hev
    unfold maxDataLen at hd
    exact (fillData_eq_ok hfill).2 (by omega)
  · rcases hq with hq | hq <;> cases hq
  · rcases hq with hq | hq <;> cases hq

/-- What is sent is the frame in hand, and Data is sent to an address of its entry. -/
theorem Turn.sourced (ht : Turn s ev (.ok (s', o))) (hI : s.SourceInv h) :
    Always Sourced (h ++ o) := by
  have htrivial : (∀ x ∈ o, ∀ pre, Sourced pre x) → Always Sourced (h ++ o) := fun hx =>
    hI.sourced.append fun a x b ho => hx x (by rw [ho]; simp) _
  cases ht with
  | nothing => exact htrivial (by simp)
  | nipInterestIn ht | nipDataIn ht | udpDataIn _ ht =>
    cases ht with
    | ok => exact htrivial (by split_ifs <;> simp [Sourced])
  | nipInterestOut ht | nipDataOut ht =>
    cases ht with
    | idle | wait => exact htrivial (by simp)
    | take | sent => exact htrivial (by simp [Sourced])
  | udpInterestIn ht =>
    cases ht with
    | empty => exact htrivial (by simp)
    | accepted => exact htrivial (by split_ifs <;> simp [Sourced])
    | dropped => exact htrivial (by simp [Sourced])
  | udpInterestOut ht =>
    cases ht with
    | idle => exact htrivial (by simp)
    | take | finish => exact htrivial (by simp [Sourced])
    | send hheld =>
      refine hI.sourced.snoc ⟨rfl, ?_, rfl⟩
      exact hI.forwarded _ (Or.inl rfl) _ (hI.held_mem hheld)
  | udpDataOut ht =>
    cases ht with
    | idle | next => exact htrivial (by simp)
    | unknown | start | finish => exact htrivial (by simp [Sourced])
    | send hheld harr hphase hat ha =>
      have hfrom := hI.forwarded _ (Or.inr rfl) _ (hI.held_mem hheld)
      refine hI.sourced.snoc ⟨hfrom, ?_⟩
      have hkey : nutKey (s.frame _).name = (s.frame _).name :=
        nutKey_of_le (hfrom.fits.length_name.trans_le hfrom.nlen_le)
      have hlist := hat.lookup hI.wf.unique
      rw [hkey] at hlist
      refine asked_of_table hI.returns ?_ (List.mem_of_getElem? ha)
      rw [← hI.table]
      exact hlist

/-- What is entered into the table is the name in a datagram, for the address that it came from. -/
theorem Turn.nutSet_mem {name : List UInt8} {addr : SockaddrIn} {ret : ℤ}
    (ht : Turn s ev (.ok (s', o))) (hx : .nutSet name addr ret ∈ o) :
    ∃ (datagram : List UInt8) (alloc : Alloc) (d f : SimpleNameData),
      ev = .udpInterestIn datagram addr alloc ∧ datagram.take 2048 ≠ [] ∧
        d.memcpy (datagram.take 2048) = .ok f ∧ f.name = name := by
  cases ht with
  | nothing => cases hx
  | nipInterestIn ht | nipDataIn ht | udpDataIn _ ht =>
    cases ht with
    | ok => split_ifs at hx <;> simp at hx
  | nipInterestOut ht | nipDataOut ht | udpInterestOut ht | udpDataOut ht => cases ht <;> simp at hx
  | udpInterestIn ht =>
    cases ht with
    | empty => cases hx
    | accepted hne hget hfill =>
      split_ifs at hx <;> simp at hx <;> obtain ⟨rfl, rfl, -⟩ := hx <;>
        exact ⟨_, _, _, _, rfl, hne, hfill, rfl⟩
    | dropped hne hget hfill =>
      simp at hx
      obtain ⟨rfl, rfl, -⟩ := hx
      exact ⟨_, _, _, _, rfl, hne, hfill, rfl⟩

/-- An Interest for the simulation comes in with `nip_interest_in`. -/
theorem Turn.recv_interest {m : Message} (ht : Turn s ev (.ok (s', o)))
    (hx : .recv .realtosimInterest m ∈ o) :
    ∃ ibuf alloc, ev = .nipInterestIn (some ibuf) alloc ∧ m = ibuf.interest := by
  cases ht with
  | nothing => cases hx
  | nipInterestIn ht =>
    cases ht with
    | ok =>
      refine ⟨_, _, rfl, ?_⟩
      split_ifs at hx <;> simpa using hx
  | nipDataIn ht | udpDataIn _ ht =>
    cases ht with
    | ok => split_ifs at hx <;> simp at hx
  | udpInterestIn ht =>
    cases ht with
    | empty => cases hx
    | accepted => split_ifs at hx <;> simp at hx
    | dropped => simp at hx
  | nipInterestOut ht | nipDataOut ht | udpInterestOut ht | udpDataOut ht => cases ht <;> simp at hx

theorem sourceInv_step : Inductive step (fun _ ev => ev.ContentFits) SourceInv := by
  intro s h ev s' o hI hev hs
  have ht := step_turn hI.toSound ev
  rw [hs] at ht
  refine ⟨tableInv_step hI.toTableInv trivial hs, fun q hq f hf => ?_, ht.sourced hI⟩
  rw [enqueued_append, List.mem_append] at hf
  rcases hf with hf | hf
  · exact (hI.forwarded q hq f hf).append o
  · obtain ⟨hle, hfits, hrecv⟩ := ht.forwarded hI.toSound hev hq hf
    exact ⟨hle, hfits, List.mem_append_right h hrecv⟩

section Runs

variable (blocks : Fin 16 → SimpleNameData) (junk : ℕ → NutEntry)

theorem initAdaptor_sourceInv : (initAdaptor blocks junk).SourceInv [] :=
  ⟨initAdaptor_tableInv blocks junk, fun _ _ _ hf => (by cases hf), always_nil⟩

/-- In a run, up to its first fault, where `irecv` keeps to the capacity that it is given: every datagram
that leaves the adaptor carries a message from the network stack, unaltered; an Interest goes to the
simulator, Data to an address that has asked for its name, and whose Interest has not been answered
since. -/
theorem data_solicited {evs : List Event} (hev : ∀ ev ∈ evs, ev.ContentFits) {s : Adaptor} {h : List Obs}
    (he : exec step (initAdaptor blocks junk) evs = .ok (s, h)) : Always Sourced h :=
  (sourceInv_step.exec (initAdaptor_sourceInv blocks junk) (.of_forall (fun ev hm _ => hev ev hm) _)
    he).sourced

/-- Two requesters, and the Data for them. -/
theorem data_solicited_exchange : Reaches step (initAdaptor (fun _ => .zero) fun _ => .zero) exchange
    fun _ h => Always Sourced h := by
  have hrun : Reaches step (initAdaptor (fun _ => .zero) fun _ => .zero) exchange fun _ _ => True := by
    decide +kernel
  obtain ⟨s, h, he, -⟩ := hrun
  exact ⟨s, h, he, data_solicited _ _ (by decide +kernel) he⟩

end Runs

end Adaptor

end MixSim
