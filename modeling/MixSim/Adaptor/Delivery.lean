import MixSim.Adaptor.Forwarding

/-!
# Delivery to the pending requesters

The table as the history determines it (`tableOf`): an address joins when `nut_set` is called, a key
goes when `udp_data_out` has finished with a Data for it. The table of every reachable state is that
map (`tableInv_step`). As long as it does not grow under a suspended `udp_data_out`, the datagrams
sent since that coroutine took its Data are those for the first addresses of the entry
(`sendInv_step`), so that a finished Data has gone to exactly the pending requesters
(`data_delivered`).
-/

namespace MixSim

open BufferPool Execution SlotTable

/-! ### Histories -/

/-- What an observation does to the pending table. -/
def Obs.table (m : AddrMap) : Obs → AddrMap
  | .nutSet name addr _ => (m.set (nutKey name) addr).1
  | .done .realtosimData f => m.del (nutKey f.name)
  | _ => m

/-- The pending table after a history. -/
def tableOf (h : List Obs) : AddrMap := h.foldl Obs.table fun _ => none

/-- What an observation does to the list of requesters waiting for `N`. -/
def Obs.pend (N : List UInt8) (as : List SockaddrIn) : Obs → List SockaddrIn
  | .nutSet name addr ret => if name = N ∧ ret = 1 then as ++ [addr] else as
  | .done .realtosimData f => if f.name = N then [] else as
  | _ => as

/-- The addresses whose Interest for `N` made `nut_set` return 1 since the last Data for `N` was
done with. -/
def pending (N : List UInt8) (h : List Obs) : List SockaddrIn := h.foldl (Obs.pend N) []

/-- What an observation does to the list of datagrams sent for the Data in hand. -/
def Obs.send (l : List (SimpleNameData × SockaddrIn)) : Obs → List (SimpleNameData × SockaddrIn)
  | .dequeue .realtosimData _ => []
  | .sendto .realtosimData f a => l ++ [(f, a)]
  | _ => l

/-- What `udp_data_out` has sent since it last took Data off its queue, and where to. -/
def sent (h : List Obs) : List (SimpleNameData × SockaddrIn) := h.foldl Obs.send []

/-- `nut_set` returns what the map says. -/
def Returns (pre : List Obs) : Obs → Prop
  | .nutSet name addr ret => ret = ((tableOf pre).set (nutKey name) addr).2
  | _ => True

/-- Where a name has the key of `N`, it is `N`. -/
def Unaliased (N : List UInt8) : Obs → Prop
  | .nutSet name _ _ => nutKey name = nutKey N → name = N
  | .done .realtosimData f => nutKey f.name = nutKey N → f.name = N
  | _ => True

section Histories

variable {N : List UInt8} {h o : List Obs} {x : Obs}

theorem tableOf_snoc (h : List Obs) (x : Obs) : tableOf (h ++ [x]) = x.table (tableOf h) := by
  rw [tableOf, List.foldl_append]
  rfl

theorem pending_snoc (N : List UInt8) (h : List Obs) (x : Obs) :
    pending N (h ++ [x]) = x.pend N (pending N h) := by
  rw [pending, List.foldl_append]
  rfl

theorem sent_snoc (h : List Obs) (x : Obs) : sent (h ++ [x]) = x.send (sent h) := by
  rw [sent, List.foldl_append]
  rfl

theorem foldl_eq_self {α β : Type} {g : β → α → β} {l : List α} (hg : ∀ x ∈ l, ∀ b, g b x = b)
    (b : β) : l.foldl g b = b := by
  induction l generalizing b with
  | nil => rfl
  | cons x l ih =>
    rw [List.foldl_cons, hg x List.mem_cons_self]
    exact ih (fun y hy => hg y (List.mem_cons_of_mem _ hy)) b

/-- The requesters waiting for a name are those listed under its key. -/
theorem pending_eq (hr : Always Returns h) (ha : ∀ x ∈ h, Unaliased N x) :
    pending N h = (tableOf h (nutKey N)).getD [] := by
  induction h using List.reverseRecOn with
  | nil => rfl
  | append_singleton h x ih =>
    have ih' := ih hr.append_left fun y hy => ha y (List.mem_append_left _ hy)
    have hx := ha x (by simp)
    have hrx := hr h x [] rfl
    rw [pending_snoc, tableOf_snoc, ih']
    cases x with
    | nutSet name addr ret =>
      have hrx' : ret = ((tableOf h).set (nutKey name) addr).2 := hrx
      by_cases hname : name = N
      · subst hname
        simp only [Obs.pend, Obs.table, true_and, hrx', AddrMap.set_self]
      · have hkey : nutKey N ≠ nutKey name := fun hk => hname (hx hk.symm)
        simp only [Obs.pend, Obs.table, hname, false_and, if_false, AddrMap.set_of_ne hkey]
    | done q f =>
      cases q with
      | realtosimData =>
        by_cases hname : f.name = N
        · simp only [Obs.pend, Obs.table, hname, if_true, AddrMap.del, Function.update_self,
            Option.getD_none]
        · have hkey : nutKey N ≠ nutKey f.name := fun hk => hname (hx hk.symm)
          simp only [Obs.pend, Obs.table, hname, if_false, AddrMap.del]
          rw [Function.update_of_ne hkey]
      | _ => rfl
    | _ => rfl

end Histories

namespace Adaptor

/-- No other name with the key of `N` is asked for. -/
def NoAlias (N : List UInt8) (s : Adaptor) : Event → Prop
  | .udpInterestIn datagram _ alloc => datagram ≠ [] →
      ∀ f ∈ s.filled alloc.malloc (·.memcpy (datagram.take 2048)),
        nutKey f.name = nutKey N → f.name = N
  | _ => True

instance (N : List UInt8) (s : Adaptor) : (ev : Event) → Decidable (s.NoAlias N ev)
  | .udpInterestIn _ _ _ => inferInstanceAs (Decidable (_ → ∀ f ∈ _, _ → _))
  | .nipInterestIn _ _ | .nipDataIn _ _ | .nipInterestOut _ _ _ | .nipDataOut _ _ _
  | .udpDataIn _ _ | .udpInterestOut _ | .udpDataOut _ => isTrue trivial

variable {s s' : Adaptor} {o h : List Obs} {ev : Event} {N : List UInt8}

/-! ### The table is the one of the history -/

section Bystanders

variable {x : Obs}

theorem table_of_bystander (hx : ¬ OfTable x) (m : AddrMap) : x.table m = m := by
  cases x with
  | nutSet => exact absurd trivial hx
  | done q f =>
    cases q with
    | realtosimData => exact absurd rfl hx
    | _ => rfl
  | _ => rfl

theorem returns_of_bystander (hx : ¬ OfTable x) (pre : List Obs) : Returns pre x := by
  cases x with
  | nutSet => exact absurd trivial hx
  | _ => trivial

theorem send_of_bystander (hx : ¬ OfTable x) (l : List (SimpleNameData × SockaddrIn)) :
    x.send l = l := by
  cases x with
  | dequeue q f =>
    cases q with
    | realtosimData => exact absurd rfl hx
    | _ => rfl
  | sendto q f a =>
    cases q with
    | realtosimData => exact absurd rfl hx
    | _ => rfl
  | _ => rfl

end Bystanders

/-- The table is what the calls so far have made of it. -/
structure TableInv (s : Adaptor) (h : List Obs) : Prop extends s.Inv h where
  table : s.nutTable.abs = tableOf h
  returns : Always Returns h

/-- A step whose observations leave the table of the history alone. -/
theorem TableInv.still (hI : s.TableInv h) (hx : ∀ x ∈ o, (∀ m, x.table m = m) ∧ ∀ pre, Returns pre x) :
    s.nutTable.abs = tableOf (h ++ o) ∧ Always Returns (h ++ o) := by
  refine ⟨?_, hI.returns.append fun a x b ho => (hx x (by rw [ho]; simp)).2 _⟩
  rw [tableOf, List.foldl_append, foldl_eq_self fun x hm => (hx x hm).1]
  exact hI.table

/-- A call of `nut_set`. -/
theorem TableInv.nutSet {t : Nut} {name : List UInt8} {addr : SockaddrIn} {ret : ℤ}
    {malloc : Option (ℕ → NutEntry)} (hI : s.TableInv h)
    (hset : SetOutcome s.nutTable (nutKey name) addr malloc (.ok (t, ret))) (m : Message)
    (ho : ∀ x ∈ o, ¬ OfTable x) :
    t.abs = tableOf (h ++ ([.recv .simtorealInterest m, .nutSet name addr ret] ++ o)) ∧
      Always Returns (h ++ ([.recv .simtorealInterest m, .nutSet name addr ret] ++ o)) := by
  have href := hset.refines hI.wf
  constructor
  · have hstep : tableOf (h ++ ([.recv .simtorealInterest m, .nutSet name addr ret] ++ o)) =
        o.foldl Obs.table ((tableOf h).set (nutKey name) addr).1 := by
      rw [tableOf, List.foldl_append]
      rfl
    rw [hstep, foldl_eq_self fun x hx => table_of_bystander (ho x hx), ← hI.table, href]
  · have hrecv : Always Returns (h ++ [Obs.recv .simtorealInterest m]) := by
      refine hI.returns.snoc ?_
      trivial
    have hret : Always Returns (h ++ [Obs.recv .simtorealInterest m] ++ [Obs.nutSet name addr ret]) := by
      refine hrecv.snoc ?_
      show ret = ((tableOf _).set _ _).2
      rw [tableOf_snoc]
      show ret = ((tableOf h).set _ _).2
      rw [← hI.table, href]
    have hall := hret.append (o := o) fun a x b hab => returns_of_bystander (ho x (by rw [hab]; simp)) _
    simpa using hall

/-- Every step keeps the table and the history together. -/
theorem tableInv_step : Inductive step (fun _ _ => True) TableInv := by
  intro s h ev s' o hI _ hs
  have ht := step_turn hI.toSound ev
  rw [hs] at ht
  have hgoal : s'.nutTable.abs = tableOf (h ++ o) ∧ Always Returns (h ++ o) := by
    rcases ht.bystander with hB | ⟨datagram, addr, alloc, rfl, hin⟩ | ⟨calloc, rfl, hout⟩
    · rw [hB.nut]
      exact hI.still fun x hx =>
        ⟨table_of_bystander (hB.obs x hx), returns_of_bystander (hB.obs x hx)⟩
    · cases hin with
      | empty => exact hI.still (by simp)
      | accepted _ _ _ _ hset => exact hI.nutSet hset _ (by split_ifs <;> simp [OfTable])
      | dropped _ _ _ _ hset => exact hI.nutSet hset _ (by simp)
    · cases hout with
      | idle | next => exact hI.still (by simp)
      | unknown | start | send => exact hI.still (by simp [Obs.table, Returns])
      | finish hheld harr hphase hat hi hwf hslots =>
        refine ⟨?_, hI.returns.snoc ?_⟩
        · rw [tableOf_snoc, ← hI.table]
          exact abs_clear hI.wf hat hslots
        · trivial
  exact ⟨inv_step hI.toInv trivial hs, hgoal.1, hgoal.2⟩

theorem initAdaptor_tableInv (blocks : Fin 16 → SimpleNameData) (junk : ℕ → NutEntry) :
    (initAdaptor blocks junk).TableInv [] := by
  refine ⟨initAdaptor_inv blocks junk, ?_, always_nil⟩
  funext k
  show lookup (nutCreate 64 junk).slots k = none
  rw [(nutCreate_wf 64 junk).2]
  rfl

/-! ### What has been sent for the Data in hand -/

/-- The number of addresses the Data in hand has been sent to. -/
def sentCount (s : Adaptor) : ℕ :=
  match s.dataPhase with
  | .before => s.i
  | .after => s.i + 1

/-- The Data in hand has been sent to the first addresses of its entry. -/
def Sending (s : Adaptor) (h : List Obs) : Prop :=
  ∀ b, s.held .realtosimData = some b → ∃ as,
    At s.nutTable.slots s.entry.idx (nutKey (s.frame b).name) as ∧
      sent h = (as.take s.sentCount).map (s.frame b, ·)

theorem sent_append_of_bystander (ho : ∀ x ∈ o, ¬ OfTable x) : sent (h ++ o) = sent h := by
  rw [sent, List.foldl_append]
  exact foldl_eq_self (fun x hx => send_of_bystander (ho x hx)) _

/-- Addresses that join come behind those already sent to. -/
theorem Sending.mono {ts : List (Travel Place SimpleNameData)} (hS : s.Sending h) (hI : s.Sound)
    (hA : s.Anchored) (hT : Traffic s s' o ts)
    (hat : ∀ i k as, At s.nutTable.slots i k as → ∃ as', At s'.nutTable.slots i k as' ∧ as <+: as')
    (hheld : s'.held .realtosimData = s.held .realtosimData) (hentry : s'.entry = s.entry)
    (hi : s'.i = s.i) (hphase : s'.dataPhase = s.dataPhase)
    (hd : MixSim.dequeued .realtosimData o = []) (hsent : sent (h ++ o) = sent h) :
    s'.Sending (h ++ o) := by
  intro b hb
  have hb' := hb
  rw [hheld] at hb
  obtain ⟨as, has, hs⟩ := hS b hb
  obtain ⟨as', has', as'', rfl⟩ := hat _ _ _ has
  have hcount : s'.sentCount = s.sentCount := by rw [sentCount, sentCount, hi, hphase]
  have hle : s.sentCount ≤ as.length := by
    obtain ⟨bs, hbs, hlt⟩ := hI.entry b hb (hA b hb)
    rw [← (has.inj hbs).2] at hlt
    unfold sentCount
    split <;> omega
  refine ⟨as ++ as'', ?_, ?_⟩
  · rw [hentry, hT.frame_eq hI.owned hb hb' hd]
    exact has'
  · rw [hsent, hs, hcount, List.take_append_of_le_length hle, hT.frame_eq hI.owned hb hb' hd]

/-- Every turn sends to the next address of the entry, or to none. -/
theorem Turn.sending (ht : Turn s ev (.ok (s', o))) (hI : s.Sound) (hA : s.Anchored)
    (hS : s.Sending h) : s'.Sending (h ++ o) := by
  obtain ⟨ts, hT⟩ := ht.traffic
  rcases ht.bystander with hB | ⟨datagram, addr, alloc, rfl, hin⟩ | ⟨calloc, rfl, hout⟩
  · refine hS.mono hI hA hT (fun i k as hat => ?_) hB.held hB.entry hB.i hB.phase hB.dequeued
      (sent_append_of_bystander hB.obs)
    exact ⟨as, hB.nut ▸ hat, List.prefix_refl as⟩
  · have hsent : ∀ {m : Message} {name : List UInt8} {ret : ℤ} {p : List Obs},
        (∀ x ∈ p, ¬ OfTable x) → sent (h ++ ([.recv .simtorealInterest m, .nutSet name addr ret] ++ p)) =
          sent h := by
      intro m name ret p hp
      rw [sent, List.foldl_append, List.foldl_append]
      exact foldl_eq_self (fun x hx => send_of_bystander (hp x hx)) _
    cases hin with
    | empty => simpa using hS
    | accepted _ _ _ _ hset =>
      exact hS.mono hI hA hT (fun _ _ _ hat => hset.at_mono hat) rfl rfl rfl rfl
        (by split_ifs <;> rfl) (hsent (by split_ifs <;> simp [OfTable]))
    | dropped _ _ _ _ hset =>
      exact hS.mono hI hA hT (fun _ _ _ hat => hset.at_mono hat) rfl rfl rfl rfl rfl
        (hsent (p := []) (by simp))
  · cases hout with
    | idle hheld | unknown hheld => exact fun b hb => by simp [hheld] at hb
    | start hheld hat hmove =>
      rename_i b idx queue as
      intro c hc
      have hcb : c = b := by simpa using hc.symm
      subst hcb
      exact ⟨_, hat, by rw [sent_snoc]; rfl⟩
    | send hheld harr hphase hat ha =>
      intro c hc
      have hcb := Option.some.inj (hheld.symm.trans hc)
      subst hcb
      obtain ⟨as, has, hs⟩ := hS _ hheld
      obtain ⟨-, rfl⟩ := has.inj hat
      refine ⟨as, hat, ?_⟩
      have hcount : s.sentCount = s.i := by rw [sentCount, hphase]
      rw [sent_snoc, hs, hcount]
      show _ = (as.take (s.i + 1)).map _
      rw [List.take_add_one, ha, List.map_append]
      rfl
    | next hheld harr hphase hat hi =>
      intro c hc
      have hcb := Option.some.inj (hheld.symm.trans hc)
      subst hcb
      obtain ⟨as, has, hs⟩ := hS _ hheld
      refine ⟨as, has, ?_⟩
      have hcount : s.sentCount = s.i + 1 := by rw [sentCount, hphase]
      rw [List.append_nil, hs, hcount]
      rfl
    | finish => exact fun b hb => by simp [release] at hb

/-! ### Runs -/

/-- The Data has gone once to each requester waiting for `N`, and to no other. -/
def Delivered (N : List UInt8) (pre : List Obs) : Obs → Prop
  | .done .realtosimData f => f.name = N →
      sent pre = (pending N pre).map (f, ·) ∧ ((pending N pre).map ipPort).Nodup
  | _ => True

/-- What the argument for one name needs of a state and its history. -/
structure DeliveryInv (N : List UInt8) (s : Adaptor) (h : List Obs) : Prop
    extends s.TableInv h where
  fits : ∀ q, ∀ f ∈ MixSim.enqueued q h, f.Fits
  anchored : s.Anchored
  sending : s.Sending h
  short : ∀ f ∈ MixSim.enqueued .realtosimData h, f.name.length ≤ maxNamelen
  unaliased : ∀ x ∈ h, Unaliased N x
  delivered : Always (Delivered N) h

/-- Data from the network stack has a short name. -/
theorem Turn.short {f : SimpleNameData} (ht : Turn s ev (.ok (s', o))) (hs : s.Sound)
    (hf : f ∈ MixSim.enqueued .realtosimData o) : f.name.length ≤ maxNamelen := by
  have hn : f.nlen ≤ maxNamelen := (ht.enqueued_nip hs (Or.inr rfl) hf).1
  rw [SimpleNameData.name, List.length_take]
  exact (min_le_left _ _).trans hn

/-- Only names that are `N` have its key. -/
theorem Turn.unaliased (ht : Turn s ev (.ok (s', o))) (hI : s.DeliveryInv N h)
    (hN : N.length ≤ maxNamelen) (hA : s.NoAlias N ev) : ∀ x ∈ o, Unaliased N x := by
  rcases ht.bystander with hB | ⟨datagram, addr, alloc, rfl, hin⟩ | ⟨calloc, rfl, hout⟩
  · intro x hx
    have hobs := hB.obs x hx
    cases x with
    | nutSet => exact absurd trivial hobs
    | done q f =>
      cases q with
      | realtosimData => exact absurd rfl hobs
      | _ => trivial
    | _ => trivial
  · cases hin with
    | empty => simp
    | accepted hne hf =>
      have hname := hA (List.ne_nil_of_take_ne_nil hne) _ hf
      split_ifs <;> simpa [Unaliased] using hname
    | dropped hne hf =>
      have hname := hA (List.ne_nil_of_take_ne_nil hne) _ hf
      simpa [Unaliased] using hname
  · cases hout with
    | idle | next => simp
    | unknown | start | send => simp [Unaliased]
    | finish hheld =>
      intro x hx
      rw [List.mem_singleton] at hx
      subst hx
      intro hkey
      have hshort := hI.short _ (hI.held_mem hheld)
      rwa [nutKey_of_le hshort, nutKey_of_le hN] at hkey

/-- When `udp_data_out` is done with Data for `N`, it has gone to those waiting for `N`. -/
theorem Turn.delivered (ht : Turn s ev (.ok (s', o))) (hI : s.DeliveryInv N h) :
    Always (Delivered N) (h ++ o) := by
  have htrivial : (∀ x ∈ o, ∀ pre, Delivered N pre x) → Always (Delivered N) (h ++ o) := fun hx =>
    hI.delivered.append fun a x b ho => hx x (by rw [ho]; simp) _
  rcases ht.bystander with hB | ⟨datagram, addr, alloc, rfl, hin⟩ | ⟨calloc, rfl, hout⟩
  · refine htrivial fun x hx pre => ?_
    have hobs := hB.obs x hx
    cases x with
    | done q f =>
      cases q with
      | realtosimData => exact absurd rfl hobs
      | _ => trivial
    | _ => trivial
  · cases hin with
    | empty => exact htrivial (by simp)
    | accepted => exact htrivial (by split_ifs <;> simp [Delivered])
    | dropped => exact htrivial (by simp [Delivered])
  · cases hout with
    | idle | next => exact htrivial (by simp)
    | unknown | start | send => exact htrivial (by simp [Delivered])
    | finish hheld harr hphase hat hi hwf hslots hmove =>
      rename_i b as t
      refine hI.delivered.snoc fun hname => ?_
      obtain ⟨as', has, hsent⟩ := hI.sending b hheld
      obtain ⟨-, rfl⟩ := has.inj hat
      have hcount : s.sentCount = as'.length := by rw [sentCount, hphase, hi]
      have hpending : pending N h = as' := by
        rw [pending_eq hI.returns hI.unaliased, ← hI.table, ← hname, Nut.abs, hat.lookup hI.wf.unique]
        rfl
      rw [hsent, hpending, hcount, List.take_length]
      exact ⟨rfl, (hI.wf.at_addrs hat).2.2⟩

/-- The conditions under which Data for `N` goes where it should. -/
def DeliveryOk (N : List UInt8) (s : Adaptor) (ev : Event) : Prop :=
  ev.Assumed ∧ ev.DataFits ∧ s.NoGrowth ev ∧ s.NoAlias N ev

instance (N : List UInt8) (s : Adaptor) (ev : Event) : Decidable (s.DeliveryOk N ev) :=
  inferInstanceAs (Decidable (_ ∧ _ ∧ _ ∧ _))

theorem deliveryInv_step (hN : N.length ≤ maxNamelen) :
    Inductive step (DeliveryOk N) (DeliveryInv N) := by
  rintro s h ev s' o hI ⟨ha, hd, hG, hA⟩ hs
  have ht := step_turn hI.toSound ev
  rw [hs] at ht
  have hfit := fitInv_step ⟨hI.toInv, hI.fits⟩ (frameFits_of_assumed hI.toSound ha hd) hs
  refine ⟨tableInv_step hI.toTableInv trivial hs, hfit.fits, ht.anchored hG hI.anchored,
    ht.sending hI.toSound hI.anchored hI.sending, fun f hf => ?_, fun x hx => ?_, ht.delivered hI⟩
  · rw [enqueued_append, List.mem_append] at hf
    rcases hf with hf | hf
    · exact hI.short f hf
    · exact ht.short hI.toSound hf
  · rw [List.mem_append] at hx
    rcases hx with hx | hx
    · exact hI.unaliased x hx
    · exact ht.unaliased hI hN hA x hx

section Runs

variable (blocks : Fin 16 → SimpleNameData) (junk : ℕ → NutEntry)

theorem initAdaptor_deliveryInv (N : List UInt8) : (initAdaptor blocks junk).DeliveryInv N [] where
  toTableInv := initAdaptor_tableInv blocks junk
  fits _ _ hf := by cases hf
  anchored _ hb := by cases hb
  sending _ hb := by cases hb
  short _ hf := by cases hf
  unaliased _ hx := by cases hx
  delivered := always_nil

/-- Exact delivery of the Data for `N` in the run of `evs`: it faults at most for want of memory;
whenever Data for `N` is done with, it has gone exactly once to each requester waiting for `N` and
to no other, and the table has no entry for `N`; in every state the pointer of `udp_data_out` points
to the entry of its Data in the current array. -/
structure ExactDelivery (N : List UInt8) (s₀ : Adaptor) (evs : List Event) : Prop where
  fault : ∀ e, exec step s₀ evs = .error e → e = .outOfMemory
  delivered : ∀ s h, exec step s₀ evs = .ok (s, h) → Always (Delivered N) h
  removed : ∀ s h f, exec step s₀ evs = .ok (s, h) → h.getLast? = some (.done .realtosimData f) →
    f.name = N → ∀ i as, ¬ At s.nutTable.slots i N as
  pointer : ∀ s h b, exec step s₀ evs = .ok (s, h) → s.held .realtosimData = some b →
    s.entry.arr = s.nutTable.arr ∧
      ∃ as, At s.nutTable.slots s.entry.idx (nutKey (s.frame b).name) as

/-- With well-formed frames, Data for `N` is delivered exactly as long as the table does not grow
under a suspended `udp_data_out` and no other name has the key of `N`. -/
theorem data_delivered {N : List UInt8} (hN : N.length ≤ maxNamelen) {evs : List Event}
    (hG : Along step (DeliveryOk N) (initAdaptor blocks junk) evs) :
    ExactDelivery N (initAdaptor blocks junk) evs := by
  have hinv := deliveryInv_step hN
  have h0 := initAdaptor_deliveryInv blocks junk N
  have hrun : ∀ {s h}, exec step (initAdaptor blocks junk) evs = .ok (s, h) → s.DeliveryInv N h :=
    fun he => by simpa using hinv.exec h0 hG he
  refine ⟨fun e he => ?_, fun s h he => (hrun he).delivered, fun s h f he hlast hname => ?_,
    fun s h b he hb => ?_⟩
  · refine hinv.fault (F := fun e => e = .outOfMemory) (fun s h ev e hI hev hs => ?_) h0 hG he
    have ht := step_turn hI.toSound ev
    rw [hs] at ht
    rcases ht.fault ⟨hI.toInv, hI.fits⟩ (frameFits_of_assumed hI.toSound hev.1 hev.2.1) with
      ⟨he, -⟩ | ⟨-, hdangling⟩
    · exact he
    · exact absurd hI.anchored hdangling
  · have hI := hrun he
    obtain ⟨pre, rfl⟩ := List.getLast?_eq_some_iff.1 hlast
    have habs : s.nutTable.abs N = none := by
      rw [hI.table, tableOf_snoc]
      show AddrMap.del _ (nutKey f.name) N = none
      rw [hname, nutKey_of_le hN, AddrMap.del, Function.update_self]
    exact lookup_eq_none_iff.1 habs
  · have hI := hrun he
    obtain ⟨as, hat, -⟩ := hI.sending b hb
    exact ⟨hI.anchored b hb, as, hat⟩

/-- Two requesters, who both get the Data. -/
theorem data_delivered_exchange :
    ExactDelivery [47, 97] (initAdaptor (fun _ => .zero) fun _ => .zero) exchange :=
  data_delivered _ _ (by decide) (by decide +kernel)

/-- The table is filled with 32 names; `udp_data_out` is about to send the Data for the first one
when another Interest makes the table grow. -/
def growthEvents : List Event :=
  (List.range 32).map (fun i => .udpInterestIn (nameDgram [47, i.toUInt8]) ⟨2, 1, 1⟩ allocOk) ++
    [.nipDataIn (some (nameIbuf [47, 0] 0)) allocOk, .udpDataOut true,
      .udpInterestIn (nameDgram [47, 32]) ⟨2, 1, 1⟩ allocOk, .udpDataOut true]

/-- The pointer then goes into the array that `nut_grow` has freed. -/
theorem data_not_delivered : ¬ ∀ (blocks : Fin 16 → SimpleNameData) (junk : ℕ → NutEntry)
    (N : List UInt8) (evs : List Event), N.length ≤ maxNamelen →
      (∀ ev ∈ evs, ev.Assumed ∧ ev.DataFits) → ExactDelivery N (initAdaptor blocks junk) evs := by
  intro hall
  have hexact := hall (fun _ => .zero) (fun _ => .zero) [47, 0] growthEvents (by decide)
    (by decide +kernel)
  have hfree : exec step (initAdaptor (fun _ => .zero) fun _ => .zero) growthEvents =
      .error .useAfterFree := by decide +kernel
  exact absurd (hexact.fault _ hfree) (by decide)

end Runs

end Adaptor

end MixSim
