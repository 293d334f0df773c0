import MixSim.Adaptor.Service
import MixSim.Border.Safety

/-!
# Across both programs

The adaptor's part of a run of the two programs is a run of the adaptor, with the datagrams of the
application among its inputs (`adaptor_run`). What holds of the adaptor alone therefore holds of it in
the system: a packet that the simulation hands over, and whose datagram arrives, is passed to the network
stack after a bounded number of turns (`interest_passed_on`, `data_passed_on`), whatever else happens at
the same time. In the other direction an Interest from the network stack is sent to the application, and
from there into the simulation (`interest_brought_in`).
-/

namespace MixSim

open Execution

variable {N : Type}

/-- The turns of a sender in the system. -/
def BorderEvent.Turns (q : FwdQueue) : BorderEvent N → Prop
  | .resume ev => q.Turns ev
  | _ => False

instance (q : FwdQueue) : DecidablePred (BorderEvent.Turns (N := N) q)
  | .resume ev => inferInstanceAs (Decidable (q.Turns ev))
  | .interestIn _ _ | .dataIn _ _ | .tick _ _ _ | .onInterest _ _ | .onData _ _ _ | .onNack _ _ =>
      isFalse id

namespace Border

variable {X : NdnCxx N} {clientaddr : SockaddrIn} {s t : Border} {e : BorderEvent N}
  {evs : List (BorderEvent N)} {h o : List (BorderObs N)} {q : FwdQueue}

/-- What every step of the system keeps to. -/
def Regular (X : NdnCxx N) (clientaddr : SockaddrIn) (s : Border) (e : BorderEvent N) : Prop :=
  (Kept X clientaddr e ∧ Roomy X e) ∧ Supplied clientaddr s e

/-- A turn of a sender is its turn in the adaptor. -/
theorem turns_iff {ev : Event} (he : s.adaptorEvent clientaddr e = some ev) :
    q.Turns ev ↔ e.Turns q := by
  cases e with
  | resume ev' =>
    cases he
    rfl
  | interestIn k alloc | dataIn k alloc =>
    cases he
    cases q <;> rfl
  | _ => cases he

/-- What comes in at the adaptor fits, and nothing goes wrong in it. -/
theorem SafeInv.smooth {ev : Event} (hI : SafeInv X clientaddr s h) (hG : Regular X clientaddr s e)
    (he : s.adaptorEvent clientaddr e = some ev) : s.adaptor.Smooth ev := by
  refine ⟨?_, (hG.2 ev he).1, (hG.2 ev he).2⟩
  cases e with
  | resume ev' =>
    cases he
    exact ⟨hG.1.2.1, hG.1.2.2.1⟩
  | interestIn k alloc =>
    cases he
    exact ⟨hI.wellFormed _ _, trivial⟩
  | dataIn k alloc =>
    cases he
    exact ⟨hI.wellFormed _ _, trivial⟩
  | _ => cases he

/-- The adaptor in a run of the system. -/
theorem adaptor_run (hne : clientaddr ≠ Adaptor.serveraddr) (hI : SafeInv X clientaddr s h)
    (hG : Along (step X clientaddr) (Regular X clientaddr) s evs)
    (he : exec (step X clientaddr) s evs = .ok (t, o)) :
    ∃ aevs, exec Adaptor.step s.adaptor aevs = .ok (t.adaptor, adaptorPart o) ∧
      Along Adaptor.step Adaptor.Smooth s.adaptor aevs ∧
      ∀ q : FwdQueue, aevs.countP q.Turns = evs.countP (·.Turns q) := by
  induction evs generalizing s h o with
  | nil =>
    cases he
    exact ⟨[], rfl, trivial, fun q => rfl⟩
  | cons e evs ih =>
    obtain ⟨s', o₁, o₂, hs, hrest, rfl⟩ := exec_cons_eq_ok he
    obtain ⟨aevs, hrun, hsmooth, hcount⟩ :=
      ih (safeInv_step hne hI hG.1 hs) (hG.2 s' o₁ hs) hrest
    have hother : s.adaptorEvent clientaddr e = none → s'.adaptor = s.adaptor →
        adaptorPart o₁ = [] → ∃ aevs,
          exec Adaptor.step s.adaptor aevs = .ok (t.adaptor, adaptorPart (o₁ ++ o₂)) ∧
          Along Adaptor.step Adaptor.Smooth s.adaptor aevs ∧
          ∀ q : FwdQueue, aevs.countP q.Turns = (e :: evs).countP (·.Turns q) := by
      intro hev hsame hpart
      rw [hsame] at hrun hsmooth
      refine ⟨aevs, by rw [adaptorPart_append, hpart, List.nil_append, hrun], hsmooth, fun q => ?_⟩
      -- a turn of a sender is an event of the adaptor
      have hno : ¬ e.Turns q := by cases e <;> first | exact id | cases hev
      rw [hcount, List.countP_cons_of_neg (by simpa using hno)]
    cases step_turn hs with
    | adaptor hev hstep =>
      rename_i ev a x
      refine ⟨ev :: aevs, ?_, ⟨hI.smooth hG.1 hev, fun a' x' hs' => ?_⟩, fun q => ?_⟩
      · rw [exec_cons_ok hstep, hrun, adaptorPart_append, adaptorPart_map]
      · rw [hstep] at hs'
        cases hs'
        exact hsmooth
      · by_cases hturn : q.Turns ev
        · rw [List.countP_cons_of_pos (by simpa using hturn),
            List.countP_cons_of_pos (by simpa using (turns_iff hev).1 hturn), hcount]
        · rw [List.countP_cons_of_neg (by simpa using hturn),
            List.countP_cons_of_neg (by simpa using fun h => hturn ((turns_iff hev).2 h)), hcount]
    | tick hps => exact hother rfl rfl (adaptorPart_sent _)
    | onInterest hf | onData hf | onNack hf => exact hother rfl rfl rfl

/-- What has been sent to a socket of the application stays on the wire. -/
theorem step_wire (sock : UdpSock) (f : SimpleNameData)
    (hs : step X clientaddr s e = .ok (s', o)) :
    (f ∈ s.wire sock → f ∈ s'.wire sock) ∧
      ∀ {q a}, .adaptor (.sendto q f a) ∈ o → sock.addr clientaddr = some a → f ∈ s'.wire sock := by
  cases step_turn hs with
  | adaptor hev hstep =>
    refine ⟨List.mem_append_left _, fun {q a} hmem ha => List.mem_append_right _ ?_⟩
    refine List.mem_flatMap.2 ⟨.sendto q f a, by simpa using hmem, ?_⟩
    rw [Obs.sends, if_pos ha]
    exact List.mem_singleton_self f
  | tick hps => exact ⟨id, fun hmem _ => by simp at hmem⟩
  | onInterest hf | onData hf | onNack hf => exact ⟨mem_put_of_mem, fun hmem _ => by simp at hmem⟩

theorem exec_wire (sock : UdpSock) (f : SimpleNameData)
    (he : exec (step X clientaddr) s evs = .ok (t, o)) :
    (f ∈ s.wire sock → f ∈ t.wire sock) ∧
      ∀ {q a}, .adaptor (.sendto q f a) ∈ o → sock.addr clientaddr = some a → f ∈ t.wire sock := by
  induction evs generalizing s o with
  | nil =>
    cases he
    exact ⟨id, fun hmem _ => by cases hmem⟩
  | cons e evs ih =>
    obtain ⟨s', o₁, o₂, hs, hrest, rfl⟩ := exec_cons_eq_ok he
    obtain ⟨hkeep, hsent⟩ := step_wire sock f hs
    obtain ⟨hkeep', hsent'⟩ := ih hrest
    refine ⟨hkeep' ∘ hkeep, fun hmem ha => ?_⟩
    rcases List.mem_append.1 hmem with hmem | hmem
    · exact hkeep' (hsent hmem ha)
    · exact hsent' hmem ha

section Runs

variable (blocks : Fin 16 → SimpleNameData) (junk : ℕ → NutEntry)
  {evs₁ evs₂ : List (BorderEvent N)} {h₁ : List (BorderObs N)} {m : Message}

theorem SafeInv.tidy (hI : SafeInv X clientaddr s h) : s.adaptor.Tidy := ⟨_, hI.fit, hI.anchored⟩

/-- After a run of the system from the beginning. -/
theorem safe_sound (hne : clientaddr ≠ Adaptor.serveraddr)
    (hG : Along (step X clientaddr) (Regular X clientaddr) (init blocks junk) evs)
    (he : exec (step X clientaddr) (init blocks junk) evs = .ok (s, h)) :
    SafeInv X clientaddr s h ∧ s.adaptor.forwarder.Sound := by
  have hinit : SafeInv X clientaddr (init blocks junk) [] := init_safeInv blocks junk
  obtain ⟨aevs, hrun, hsmooth, -⟩ := adaptor_run hne hinit hG he
  exact ⟨(safeInv_step hne).exec hinit hG he, (Adaptor.tidy_sound blocks junk hsmooth hrun).2⟩

/-- No run from a safe state faults. -/
theorem SafeInv.exec_ok (hne : clientaddr ≠ Adaptor.serveraddr) (hI : SafeInv X clientaddr s h)
    (hG : Along (step X clientaddr) (Regular X clientaddr) s evs) :
    ∃ t o, exec (step X clientaddr) s evs = .ok (t, o) := by
  rcases he : exec (step X clientaddr) s evs with f | ⟨t, o⟩
  · exact ((safeInv_step hne).fault (F := fun _ => False)
      (fun s h e f hI hG hs => hI.no_fault hG.1.1 hG.1.2 hG.2 f hs) hI hG he).elim
  · exact ⟨t, o, rfl⟩

/-- What waits is handed on. -/
theorem queued_handed_on (hne : clientaddr ≠ Adaptor.serveraddr) (hI : SafeInv X clientaddr s h)
    (hsound : s.adaptor.forwarder.Sound)
    (hG : Along (step X clientaddr) (Regular X clientaddr) s evs) (hq : q ≠ .realtosimData)
    (hm : m ∈ s.adaptor.forwarder.queue q)
    (hn : s.adaptor.forwarder.rest q + q.cost * (s.adaptor.waiting q).length ≤
      evs.countP (·.Turns q)) :
    ∃ t o, exec (step X clientaddr) s evs = .ok (t, o) ∧
      m ∈ (adaptorPart o).flatMap (MixSim.Obs.handsOn q) := by
  obtain ⟨t, o, he⟩ := hI.exec_ok hne hG
  obtain ⟨aevs, hrun, hsmooth, hcount⟩ := adaptor_run hne hI hG he
  obtain ⟨aevs₁, aevs₂, rfl, a, x, hrun₁, -, -, hsent⟩ :=
    hI.tidy.served hsound hsmooth q (by rw [hcount]; exact hn)
  -- it has been handed on in the first part of the run
  obtain ⟨a', x', o₂, hrun₁', -, ho⟩ := exec_append_eq_ok hrun
  rw [hrun₁] at hrun₁'
  cases hrun₁'
  refine ⟨t, o, he, ?_⟩
  rw [ho, List.flatMap_append, (hsent hq).1, List.map_append]
  exact List.mem_append_left _ (List.mem_append_right _ hm)

/-- What waits for the network stack is passed to it. -/
theorem queued_passed_on (hne : clientaddr ≠ Adaptor.serveraddr) (hI : SafeInv X clientaddr s h)
    (hsound : s.adaptor.forwarder.Sound)
    (hG : Along (step X clientaddr) (Regular X clientaddr) s evs)
    (hq : q = .simtorealInterest ∨ q = .simtorealData) (hm : m ∈ s.adaptor.forwarder.queue q)
    (hn : s.adaptor.forwarder.rest q + 2 * (s.adaptor.waiting q).length ≤ evs.countP (·.Turns q)) :
    Reaches (step X clientaddr) s evs fun _ o => ∃ ret, .adaptor (.isend q m ret) ∈ o := by
  have hcost : q.cost = 2 := by rcases hq with rfl | rfl <;> rfl
  have hdata : q ≠ .realtosimData := by rcases hq with rfl | rfl <;> decide
  obtain ⟨t, o, he, hhands⟩ := queued_handed_on hne hI hsound hG hdata hm (by rw [hcost]; exact hn)
  obtain ⟨ret, hsent⟩ := MixSim.Obs.isend_of_handsOn hq hhands
  exact ⟨t, o, he, ret, mem_adaptorPart.1 hsent⟩

/-- An arrival that puts a message on its queue. -/
theorem arrival {ev : Event} (hne : clientaddr ≠ Adaptor.serveraddr)
    (hI : SafeInv X clientaddr s h) (hsound : s.adaptor.forwarder.Sound)
    (hG : Along (step X clientaddr) (Regular X clientaddr) s (e :: evs))
    (hev : s.adaptorEvent clientaddr e = some ev)
    (hqueue : (s.adaptor.forwarder.turn ev).1.queue q = s.adaptor.forwarder.queue q ++ [m])
    (hrest : (s.adaptor.forwarder.turn ev).1.rest q = s.adaptor.forwarder.rest q) :
    ∃ s' o, step X clientaddr s e = .ok (s', o) ∧ SafeInv X clientaddr s' (h ++ o) ∧
      s'.adaptor.forwarder.Sound ∧ Along (step X clientaddr) (Regular X clientaddr) s' evs ∧
      m ∈ s'.adaptor.forwarder.queue q ∧
      s'.adaptor.forwarder.rest q = s.adaptor.forwarder.rest q ∧
      (s'.adaptor.waiting q).length = (s.adaptor.waiting q).length + 1 := by
  obtain ⟨t, o, hrun⟩ := hI.exec_ok hne hG
  obtain ⟨s', o₁, o₂, hs, -, -⟩ := exec_cons_eq_ok hrun
  have hI' := safeInv_step hne hI hG.1 hs
  have hforwarder : s'.adaptor.forwarder = (s.adaptor.forwarder.turn ev).1 := by
    cases step_turn hs with
    | adaptor hev' hstep =>
      rw [hev] at hev'
      cases hev'
      rw [Adaptor.step_forwarder hI.tidy (hI.smooth hG.1 hev) hstep]
    | _ => cases hev
  have hlen : (s'.adaptor.waiting q).length = (s.adaptor.waiting q).length + 1 := by
    have hmap : (s'.adaptor.forwarder.queue q).length = (s'.adaptor.waiting q).length :=
      List.length_map _
    rw [← hmap, hforwarder, hqueue, List.length_append, List.length_singleton]
    congr 1
    exact List.length_map _
  refine ⟨s', o₁, hs, hI', hforwarder ▸ hsound.turn ev, hG.2 s' o₁ hs, ?_, ?_, hlen⟩
  · rw [hforwarder, hqueue]
    simp
  · rw [hforwarder, hrest]

/-- What has joined the queue for the network stack is passed to it, with turns enough. -/
theorem arrival_passed_on {ev : Event} (hne : clientaddr ≠ Adaptor.serveraddr)
    (hI : SafeInv X clientaddr s h) (hsound : s.adaptor.forwarder.Sound)
    (hG : Along (step X clientaddr) (Regular X clientaddr) s (e :: evs))
    (hev : s.adaptorEvent clientaddr e = some ev)
    (hq : q = .simtorealInterest ∨ q = .simtorealData)
    (hqueue : (s.adaptor.forwarder.turn ev).1.queue q = s.adaptor.forwarder.queue q ++ [m])
    (hrest : (s.adaptor.forwarder.turn ev).1.rest q = s.adaptor.forwarder.rest q)
    (hn : s.adaptor.forwarder.rest q + 2 * ((s.adaptor.waiting q).length + 1) ≤
      evs.countP (·.Turns q)) :
    Reaches (step X clientaddr) s (e :: evs) fun _ o => ∃ ret, .adaptor (.isend q m ret) ∈ o := by
  obtain ⟨s', o₁, hs, hI', hsound', hG', hmem, hrest', hlen⟩ :=
    arrival hne hI hsound hG hev hqueue hrest
  exact .cons hs ((queued_passed_on hne hI' hsound' hG' hq hmem (by rw [hrest', hlen]; exact hn)).mono
    fun _ o ⟨ret, hsent⟩ => ⟨ret, List.mem_append_right _ hsent⟩)

/-- The datagram of a frame holds its message. -/
theorem SafeInv.datagram_message {sock : UdpSock} {k : ℕ} {f : SimpleNameData}
    (hI : SafeInv X clientaddr s h) (hf : (s.wire sock)[k]? = some f) :
    s.datagram sock (some k) ≠ [] ∧ q.dgramMessage (s.datagram sock (some k)) = q.message f := by
  have hbytes : s.datagram sock (some k) = f.bytes := by simp [datagram, hf]
  have hne : s.datagram sock (some k) ≠ [] := by
    rw [hbytes]
    refine List.ne_nil_of_length_pos ?_
    rw [f.size_eq]
    decide
  obtain ⟨hwf, -⟩ := (hI.wellFormed sock (some k)).resolve_left hne
  rw [hbytes] at hwf ⊢
  exact ⟨hbytes ▸ hne, ((hwf.frame (memcpy_bytes f f)).2 q).symm⟩

/-- An Interest that waits for the simulator is sent to it. -/
theorem queued_sent {m : Message} (hne : clientaddr ≠ Adaptor.serveraddr)
    (hI : SafeInv X clientaddr s h) (hsound : s.adaptor.forwarder.Sound)
    (hG : Along (step X clientaddr) (Regular X clientaddr) s evs)
    (hm : m ∈ s.adaptor.forwarder.queue .realtosimInterest)
    (hn : s.adaptor.forwarder.rest .realtosimInterest +
      3 * (s.adaptor.waiting .realtosimInterest).length ≤ evs.countP (·.Turns .realtosimInterest)) :
    Reaches (step X clientaddr) s evs fun t o => ∃ f ∈ t.wire .interest, f.name = m.name ∧
      .adaptor (.sendto .realtosimInterest f Adaptor.serveraddr) ∈ o := by
  obtain ⟨t, o, he, hhands⟩ := queued_handed_on hne hI hsound hG (by decide) hm hn
  obtain ⟨f, rfl, hsent⟩ := MixSim.Obs.sendto_of_handsOn hhands
  have hmem := mem_adaptorPart.1 hsent
  exact ⟨t, o, he, f, (exec_wire _ f he).2 hmem rfl, rfl, hmem⟩

/-- A frame that arrives at the application as an Interest is sent into the simulation. -/
theorem SafeInv.tick_interest {k : ℕ} {f : SimpleNameData} (hI : SafeInv X clientaddr s h)
    (hf : (s.wire .interest)[k]? = some f) : ∃ name, X.Reads f.name name ∧ ∀ d,
      step X clientaddr s (.tick d (some k) none) = .ok (s, [.sent (.interest name)]) := by
  have hmem := List.mem_of_getElem? hf
  have hfrom : Forwarded .realtosimInterest f (adaptorPart h) := hI.wire .interest f hmem
  obtain ⟨p, hp⟩ := (hI.readable _ (mem_adaptorPart.1 hfrom.recv)).sendNDNInterest hfrom.fits.nlen_le
  obtain ⟨name, rfl, hreads⟩ := sendNDNInterest_eq_ok hp
  refine ⟨name, hreads, fun d => ?_⟩
  have hbytes : s.datagram .interest (some k) = f.bytes := by simp [datagram, hf]
  have hnil : f.bytes ≠ [] := by
    refine List.ne_nil_of_length_pos ?_
    rw [f.size_eq]
    decide
  have htake : f.bytes.take 2048 = f.bytes := List.take_of_length_le f.size_eq.le
  obtain ⟨b, hb⟩ : ∃ b, f.memcpy [] = .ok b := SimpleNameData.memcpy_of_le (by decide)
  have hps : X.receivePackets d f.bytes [] = .ok [.interest name] := by
    rw [NdnCxx.receivePackets, htake, memcpy_bytes, ok_bind]
    simp only [if_neg hnil, hp, ok_bind, List.take_nil, hb, if_true]
  have hnone : s.datagram .data none = [] := rfl
  rw [step, hbytes, hnone, hps]
  rfl

/-- An Interest that the simulation has handed over, whose datagram arrives, and for whose name the
application does not wait yet, is passed to the network stack: at the latest when `nip_interest_out` has
been resumed, with its socket ready, twice for each message in front and for the Interest itself. -/
theorem interest_passed_on {k : ℕ} {alloc : Alloc} {f : SimpleNameData}
    (hne : clientaddr ≠ Adaptor.serveraddr)
    (hk : ∀ e ∈ evs₁ ++ .interestIn k alloc :: evs₂, Kept X clientaddr e ∧ Roomy X e)
    (ha : Along (step X clientaddr) (Supplied clientaddr) (init blocks junk)
      (evs₁ ++ .interestIn k alloc :: evs₂))
    (he : exec (step X clientaddr) (init blocks junk) evs₁ = .ok (s, h₁))
    (hf : (s.wire .simtoreal)[k]? = some f)
    (hnew : (s.adaptor.nutTable.abs.set (nutKey f.name) clientaddr).2 = 1)
    (hn : s.adaptor.forwarder.rest .simtorealInterest +
      2 * ((s.adaptor.waiting .simtorealInterest).length + 1) ≤
        evs₂.countP (·.Turns .simtorealInterest)) :
    (∃ name, .onInterest name ∈ h₁ ∧ X.Text name f.name) ∧
      Reaches (step X clientaddr) s (.interestIn k alloc :: evs₂) fun _ o =>
        ∃ ret, .adaptor (.isend .simtorealInterest ⟨f.name, []⟩ ret) ∈ o := by
  have hG : Along (step X clientaddr) (Regular X clientaddr) (init blocks junk) _ :=
    (Along.of_forall (fun e hm _ => hk e hm) _).and ha
  obtain ⟨hG₁, hG₂⟩ := hG.of_append he
  obtain ⟨hI, hsound⟩ := safe_sound blocks junk hne hG₁ he
  refine ⟨hI.wire .simtoreal f (List.mem_of_getElem? hf), ?_⟩
  have hturn : s.adaptor.forwarder.turn
      (.udpInterestIn (s.datagram .simtoreal (some k)) clientaddr alloc) =
        s.adaptor.forwarder.interestIn ⟨f.name, []⟩ clientaddr := by
    obtain ⟨hne, hmessage⟩ := hI.datagram_message (q := .simtorealInterest) hf
    refine (if_neg hne).trans ?_
    rw [hmessage]
    rfl
  refine arrival_passed_on hne hI hsound hG₂ rfl (.inl rfl) ?_ ?_ hn
  · have hset : (s.adaptor.forwarder.pending.set (nutKey f.name) clientaddr).2 = 1 := hnew
    rw [hturn, Forwarder.interestIn]
    simp [hset, Forwarder.put]
  · rw [hturn]
    exact (Forwarder.interestIn_waits _ _).rest

/-- Data that the simulation has handed over, or the empty Data for a Nack, and whose datagram arrives, is
passed to the network stack likewise. -/
theorem data_passed_on {k : ℕ} {alloc : Alloc} {f : SimpleNameData}
    (hne : clientaddr ≠ Adaptor.serveraddr)
    (hk : ∀ e ∈ evs₁ ++ .dataIn k alloc :: evs₂, Kept X clientaddr e ∧ Roomy X e)
    (ha : Along (step X clientaddr) (Supplied clientaddr) (init blocks junk)
      (evs₁ ++ .dataIn k alloc :: evs₂))
    (he : exec (step X clientaddr) (init blocks junk) evs₁ = .ok (s, h₁))
    (hf : (s.wire .realtosim)[k]? = some f)
    (hn : s.adaptor.forwarder.rest .simtorealData +
      2 * ((s.adaptor.waiting .simtorealData).length + 1) ≤ evs₂.countP (·.Turns .simtorealData)) :
    (∃ name, X.Text name f.name ∧
        (.onData name f.content ∈ h₁ ∨ .onNack name ∈ h₁ ∧ f.content = [])) ∧
      Reaches (step X clientaddr) s (.dataIn k alloc :: evs₂) fun _ o =>
        ∃ ret, .adaptor (.isend .simtorealData ⟨f.name, f.content⟩ ret) ∈ o := by
  have hG : Along (step X clientaddr) (Regular X clientaddr) (init blocks junk) _ :=
    (Along.of_forall (fun e hm _ => hk e hm) _).and ha
  obtain ⟨hG₁, hG₂⟩ := hG.of_append he
  obtain ⟨hI, hsound⟩ := safe_sound blocks junk hne hG₁ he
  refine ⟨hI.wire .realtosim f (List.mem_of_getElem? hf), ?_⟩
  have hturn : s.adaptor.forwarder.turn (.udpDataIn (s.datagram .realtosim (some k)) alloc) =
      s.adaptor.forwarder.receive .simtorealData ⟨f.name, f.content⟩ := by
    obtain ⟨hne, hmessage⟩ := hI.datagram_message (q := .simtorealData) hf
    refine (if_neg hne).trans ?_
    rw [hmessage]
    rfl
  refine arrival_passed_on hne hI hsound hG₂ rfl (.inr rfl) ?_ ?_ hn
  · rw [hturn]
    simp [Forwarder.receive, Forwarder.put]
  · rw [hturn]
    exact (Forwarder.receive_waits _ _).rest

/-- An Interest that comes in from the network stack is sent to the application, at the latest when
`udp_interest_out` has been resumed three times for each Interest in front and for the Interest itself; and
when its datagram arrives, the application sends the Interest with this name into the simulation. -/
theorem interest_brought_in {ibuf : Isockbuf} {alloc : Alloc} (hne : clientaddr ≠ Adaptor.serveraddr)
    (hk : ∀ e ∈ evs₁ ++ .resume (.nipInterestIn (some ibuf) alloc) :: evs₂,
      Kept X clientaddr e ∧ Roomy X e)
    (ha : Along (step X clientaddr) (Supplied clientaddr) (init blocks junk)
      (evs₁ ++ .resume (.nipInterestIn (some ibuf) alloc) :: evs₂))
    (he : exec (step X clientaddr) (init blocks junk) evs₁ = .ok (s, h₁))
    (hn : s.adaptor.forwarder.rest .realtosimInterest +
      3 * ((s.adaptor.waiting .realtosimInterest).length + 1) ≤
        evs₂.countP (·.Turns .realtosimInterest)) :
    Reaches (step X clientaddr) s (.resume (.nipInterestIn (some ibuf) alloc) :: evs₂) fun t o =>
      ∃ f k, .adaptor (.sendto .realtosimInterest f Adaptor.serveraddr) ∈ o ∧
        f.name = ibuf.interest.name ∧ (t.wire .interest)[k]? = some f ∧
        ∃ name, X.Reads f.name name ∧
          ∀ d, step X clientaddr t (.tick d (some k) none) = .ok (t, [.sent (.interest name)]) := by
  have hG : Along (step X clientaddr) (Regular X clientaddr) (init blocks junk) _ :=
    (Along.of_forall (fun e hm _ => hk e hm) _).and ha
  obtain ⟨hG₁, hG₂⟩ := hG.of_append he
  obtain ⟨hI, hsound⟩ := safe_sound blocks junk hne hG₁ he
  obtain ⟨s', o₁, hs, hI', hsound', hG', hmem, hrest, hlen⟩ :=
    arrival (q := .realtosimInterest) (m := ibuf.interest) hne hI hsound hG₂ rfl
      (by simp [Forwarder.turn, Forwarder.receive, Forwarder.put]) (Forwarder.receive_waits _ _).rest
  obtain ⟨t, o₂, hrun, f, hf, hname, hsent⟩ :=
    queued_sent hne hI' hsound' hG' hmem (by rw [hrest, hlen]; exact hn)
  obtain ⟨k, hk⟩ := List.getElem?_of_mem hf
  -- the state that is reached is safe, so the frame can be read
  have hIt := (safeInv_step hne).exec hI' hG' hrun
  refine .cons hs ⟨t, o₂, hrun, f, k, List.mem_append_right _ hsent, hname, hk, hIt.tick_interest hk⟩

end Runs

/-- The Interest for `/a/7` of `bothWays`. -/
theorem interest_passed_on_bothWays :
    Reaches (step plainNames localaddr) (init (fun _ => .zero) fun _ => .zero) (bothWays.take 1)
      fun s _ => Reaches (step plainNames localaddr) s (bothWays.drop 1) fun _ o =>
        ∃ ret, .adaptor (.isend .simtorealInterest ⟨[47, 97, 47, 55], []⟩ ret) ∈ o := by
  have hrun : Reaches (step plainNames localaddr) (init (fun _ => .zero) fun _ => .zero)
      (bothWays.take 1) fun s _ =>
        (s.wire .simtoreal).map (·.name) = [[47, 97, 47, 55]] ∧
        (s.adaptor.nutTable.abs.set (nutKey [47, 97, 47, 55]) localaddr).2 = 1 ∧
        s.adaptor.forwarder.rest .simtorealInterest +
          2 * ((s.adaptor.waiting .simtorealInterest).length + 1) ≤
            (bothWays.drop 2).countP (·.Turns .simtorealInterest) := by decide +kernel
  obtain ⟨s, h₁, he, hwire, hnew, hn⟩ := hrun
  obtain ⟨f, hwire, hname⟩ := List.map_eq_singleton_iff.1 hwire
  rw [← hname] at hnew ⊢
  refine ⟨s, h₁, he, (interest_passed_on _ _ (by decide) (fun e hm => ?_) (by decide +kernel) he
    (by rw [hwire]; rfl) hnew hn).2⟩
  exact ⟨(bothWays_kept e hm).1, bothWays_roomy e hm⟩

/-- The Data for `/a/5` of `bothWays`. -/
theorem data_passed_on_bothWays :
    Reaches (step plainNames localaddr) (init (fun _ => .zero) fun _ => .zero) (bothWays.take 14)
      fun s _ => Reaches (step plainNames localaddr) s (bothWays.drop 14) fun _ o =>
        ∃ ret, .adaptor (.isend .simtorealData ⟨[47, 97, 47, 53], [1]⟩ ret) ∈ o := by
  have hrun : Reaches (step plainNames localaddr) (init (fun _ => .zero) fun _ => .zero)
      (bothWays.take 14) fun s _ =>
        (s.wire .realtosim).map (fun f => (f.name, f.content)) = [([47, 97, 47, 53], [1])] ∧
        s.adaptor.forwarder.rest .simtorealData +
          2 * ((s.adaptor.waiting .simtorealData).length + 1) ≤
            (bothWays.drop 15).countP (·.Turns .simtorealData) := by decide +kernel
  obtain ⟨s, h₁, he, hwire, hn⟩ := hrun
  obtain ⟨f, hwire, hframe⟩ := List.map_eq_singleton_iff.1 hwire
  obtain ⟨hname, hcontent⟩ := Prod.mk.injEq .. ▸ hframe
  rw [← hname, ← hcontent]
  refine ⟨s, h₁, he, (data_passed_on _ _ (by decide) (fun e hm => ?_) (by decide +kernel) he
    (by rw [hwire]; rfl) hn).2⟩
  exact ⟨(bothWays_kept e hm).1, bothWays_roomy e hm⟩

/-- The Interest for `/a/5` of `bothWays`, and three turns of `udp_interest_out`. -/
theorem interest_brought_in_bothWays :
    Reaches (step plainNames localaddr) (init (fun _ => .zero) fun _ => .zero) (bothWays.take 9)
      fun s _ => Reaches (step plainNames localaddr) s
        (.resume (.nipInterestIn (some (nameIbuf [47, 97, 47, 53] 0)) allocOk) ::
          List.replicate 3 (.resume (.udpInterestOut true))) fun t o =>
      ∃ f k, .adaptor (.sendto .realtosimInterest f Adaptor.serveraddr) ∈ o ∧
        f.name = (nameIbuf [47, 97, 47, 53] 0).interest.name ∧ (t.wire .interest)[k]? = some f ∧
        ∃ name, plainNames.Reads f.name name ∧
          ∀ d, step plainNames localaddr t (.tick d (some k) none) = .ok (t, [.sent (.interest name)]) := by
  have hrun : Reaches (step plainNames localaddr) (init (fun _ => .zero) fun _ => .zero)
      (bothWays.take 9) fun s _ =>
        s.adaptor.forwarder.rest .realtosimInterest +
          3 * ((s.adaptor.waiting .realtosimInterest).length + 1) ≤ 3 := by decide +kernel
  obtain ⟨s, h₁, he, hn⟩ := hrun
  refine ⟨s, h₁, he, interest_brought_in _ _ (by decide) (fun e hm => ?_) (by decide +kernel) he hn⟩
  have hm : e ∈ bothWays ∨ e = .resume (.udpInterestOut true) := by
    rcases List.mem_append.1 hm with hm | hm
    · exact .inl (List.mem_of_mem_take hm)
    · rcases List.mem_cons.1 hm with rfl | hm
      · exact .inl (by simp [bothWays])
      · exact .inr (List.eq_of_mem_replicate hm)
  rcases hm with hm | rfl
  · exact ⟨(bothWays_kept e hm).1, bothWays_roomy e hm⟩
  · exact ⟨by simp [Kept, Event.ContentFits], by simp [Roomy, Event.Assumed, Event.DataFits]⟩

end Border

end MixSim
