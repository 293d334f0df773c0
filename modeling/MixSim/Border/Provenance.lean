import MixSim.Border.Wire

/-!
# Where the packets of the two networks come from

Every packet that the application sends into the simulation can be traced back, through the datagrams
and the buffers of the adaptor, to what the network stack brought in; a Data moreover has exactly the
name of an Interest that the simulation handed over before. Other programs may use the adaptor at the
same time. Where there are none, every packet that leaves for the real network has been handed over by
the simulation as well.
-/

namespace MixSim

open CText Execution

/-! ### Names and their texts -/

section Names

variable {N : Type} (X : NdnCxx N)

/-- The name of `P` with the number `seq` is read back in ndn-cxx, and its text has room in a frame. -/
structure NdnCxx.Proper (P : N) (seq : ℕ) : Prop where
  seq_lt : seq < 2 ^ 32
  parse : X.ofUri (cstr (X.toUri P)) = some P
  number : X.toSequenceNumber (X.appendSequenceNumber P seq) = some seq
  getPrefix : X.getPrefix (X.appendSequenceNumber P seq) = P
  length_le : (X.nameText P seq).length ≤ 1023

/-- The text that a name has in a frame. -/
def NdnCxx.Text (name : N) (text : List UInt8) : Prop :=
  ∃ P seq, X.Proper P seq ∧ name = X.appendSequenceNumber P seq ∧ text = X.nameText P seq

/-- The name that is read from a text: split at the last slash, the number read with `atoi`. -/
def NdnCxx.Reads (text : List UInt8) (name : N) : Prop :=
  ∃ p c P, text = p ++ slash :: c ∧ slash ∉ c ∧ X.ofUri (cstr p) = some P ∧
    name = X.appendSequenceNumber P (componentSeq c)

variable {X} {name : N} {text content : List UInt8} {d f : SimpleNameData} {p : Packet N}

theorem NdnCxx.Text.length_le (h : X.Text name text) : text.length ≤ 1023 := by
  obtain ⟨P, seq, hP, -, rfl⟩ := h
  exact hP.length_le

/-- The frame of an Interest or a Nack holds the text. -/
theorem NdnCxx.Text.writeName (h : X.Text name text) (hf : X.writeName d name = .ok f) :
    f.name = text ∧ f.nlen = text.length := by
  obtain ⟨P, seq, hP, rfl, rfl⟩ := h
  obtain ⟨g, hg, hnlen, hname⟩ := writeName_of_append hP.seq_lt hP.number hP.getPrefix hP.length_le
    (d := d)
  rw [hf, Except.ok.injEq] at hg
  rw [hg]
  exact ⟨hname, hnlen⟩

theorem NdnCxx.Text.sendUDPInterest (h : X.Text name text)
    (hf : X.sendUDPInterest d name = .ok f) : f.name = text := by
  obtain ⟨g, hg, hf⟩ := bind_eq_ok hf
  cases hf
  rw [name_setDlen]
  exact (h.writeName hg).1

/-- The frame of a Nack is that of an empty Data. -/
theorem NdnCxx.Text.sendUDPNack (h : X.Text name text) (hf : X.sendUDPNack d name = .ok f) :
    f.name = text ∧ f.content = [] := by
  obtain ⟨g, hg, hf⟩ := bind_eq_ok hf
  cases hf
  refine ⟨(name_setDlen g 0).trans (h.writeName hg).1, ?_⟩
  rw [SimpleNameData.content, SimpleNameData.dlen_setDlen]
  rfl

/-- The frame of a Data holds the text and the content, or there was no room for the two. -/
theorem NdnCxx.Text.sendUDPData (h : X.Text name text) (hlen : content.length < 2 ^ 32)
    (hf : X.sendUDPData d name content = .ok f) : f.name = text ∧ f.content = content := by
  obtain ⟨g, hg, -⟩ := bind_eq_ok hf
  obtain ⟨hname, -⟩ := h.writeName hg
  have hmod : content.length % 2 ^ 32 = content.length := Nat.mod_eq_of_lt hlen
  by_cases hfit : g.nlen + content.length % 2 ^ 32 ≤ bufSize
  · obtain ⟨f', hf', -, -, hfname, hcontent⟩ := sendUDPData_of_writeName hg content hfit
    rw [hf, Except.ok.injEq] at hf'
    rw [hmod, List.take_length] at hcontent
    rw [hf']
    exact ⟨hfname.trans hname, hcontent⟩
  · rw [sendUDPData_overrun hg (not_le.1 hfit)] at hf
    cases hf

/-- The name that is read from a text of a name is that name. -/
theorem NdnCxx.Text.parseName {P : N} {k : ℕ} (h : X.Text name f.name) (hn : f.nlen ≤ bufSize)
    (hp : X.parseName f = .ok (P, k)) : X.appendSequenceNumber P k = name := by
  obtain ⟨P', seq, hP, rfl, htext⟩ := h
  rw [parseName_eq hn htext hP.parse] at hp
  split_ifs at hp
  cases hp
  rfl

theorem sendNDNInterest_eq_ok (h : X.sendNDNInterest f = .ok p) :
    ∃ name, p = .interest name ∧ X.Reads f.name name := by
  obtain ⟨⟨P, k⟩, hp, h⟩ := bind_eq_ok h
  cases h
  obtain ⟨q, c, hname, hslash, huri, rfl⟩ := Border.parseName_eq_ok hp
  exact ⟨_, rfl, q, c, P, hname, hslash, huri, rfl⟩

theorem sendNDNData_eq_ok (h : X.sendNDNData f = .ok p) (hfit : f.Fits) :
    ∃ P k, X.parseName f = .ok (P, k) ∧ p = .data (X.appendSequenceNumber P k) f.content := by
  obtain ⟨⟨P, k⟩, hp, h⟩ := bind_eq_ok h
  obtain ⟨content, hc, h⟩ := bind_eq_ok h
  rw [readBuf_content hfit] at hc
  cases hc
  cases h
  exact ⟨P, k, hp, rfl⟩

end Names

namespace Border

variable {N : Type} {X : NdnCxx N} {clientaddr : SockaddrIn} {s s' : Border} {e : BorderEvent N}
  {h o : List (BorderObs N)}

/-! ### What is in a datagram -/

/-- Where a frame on its way to a socket comes from. -/
def Carries (X : NdnCxx N) (sock : UdpSock) (f : SimpleNameData) (h : List (BorderObs N)) : Prop :=
  match sock with
  | .simtoreal => ∃ name, .onInterest name ∈ h ∧ X.Text name f.name
  | .realtosim => ∃ name, X.Text name f.name ∧
      (.onData name f.content ∈ h ∨ .onNack name ∈ h ∧ f.content = [])
  | .interest => Forwarded .realtosimInterest f (adaptorPart h)
  | .data => Forwarded .realtosimData f (adaptorPart h) ∧
      ∃ name, .onInterest name ∈ h ∧ X.Text name f.name

theorem Carries.mono {sock : UdpSock} {f : SimpleNameData} (hc : Carries X sock f h)
    (o : List (BorderObs N)) : Carries X sock f (h ++ o) := by
  have hfrom : ∀ {q : FwdQueue}, Forwarded q f (adaptorPart h) →
      Forwarded q f (adaptorPart (h ++ o)) := by
    intro q hf
    rw [adaptorPart_append]
    exact hf.append _
  have hask : (∃ name, .onInterest name ∈ h ∧ X.Text name f.name) →
      ∃ name, .onInterest name ∈ h ++ o ∧ X.Text name f.name :=
    fun ⟨name, hname, ht⟩ => ⟨name, List.mem_append_left o hname, ht⟩
  cases sock with
  | simtoreal => exact hask hc
  | realtosim =>
    obtain ⟨name, ht, hon⟩ := hc
    exact ⟨name, ht, hon.imp (List.mem_append_left o)
      fun ⟨hnack, hnil⟩ => ⟨List.mem_append_left o hnack, hnil⟩⟩
  | interest => exact hfrom hc
  | data => exact ⟨hfrom hc.1, hask hc.2⟩

/-- Where a packet that is sent into the simulation comes from. -/
def Traced (X : NdnCxx N) (pre : List (BorderObs N)) : BorderObs N → Prop
  | .sent (.interest name) => ∃ m, .adaptor (.recv .realtosimInterest m) ∈ pre ∧ X.Reads m.name name
  | .sent (.data name content) => .onInterest name ∈ pre ∧
      ∃ m, .adaptor (.recv .realtosimData m) ∈ pre ∧ X.Text name m.name ∧ m.content = content
  | .sent (.nack _) => False
  | _ => True

/-- The frames that `ScheduleNextTick` has received make packets that can be traced back. -/
theorem traced_of_receive {d : SimpleNameData} {i j : Option ℕ} {ps : List (Packet N)}
    {p : Packet N} (hw : ∀ sock, ∀ f ∈ s.wire sock, Carries X sock f h)
    (hps : X.receivePackets d (s.datagram .interest i) (s.datagram .data j) = .ok ps) (hp : p ∈ ps) :
    Traced X h (.sent p) := by
  rcases mem_receivePackets hps hp with ⟨f, hf, hsend⟩ | ⟨f, hf, hsend⟩
  · have hfrom : Forwarded .realtosimInterest f (adaptorPart h) := hw .interest f hf
    obtain ⟨name, rfl, hreads⟩ := sendNDNInterest_eq_ok hsend
    exact ⟨_, mem_adaptorPart.1 hfrom.recv, hreads⟩
  · obtain ⟨hfrom, name, hname, ht⟩ := hw .data f hf
    obtain ⟨P, k, hparse, rfl⟩ := sendNDNData_eq_ok hsend hfrom.fits
    rw [ht.parseName hfrom.fits.nlen_le hparse]
    exact ⟨hname, _, mem_adaptorPart.1 hfrom.recv, ht, rfl⟩

/-! ### The invariant -/

/-- What the environment keeps to: `irecv` stays within the capacity that it is given, other programs
do not send from the addresses of the application, and the packets that the simulation hands over have
proper names. -/
def Kept (X : NdnCxx N) (clientaddr : SockaddrIn) : BorderEvent N → Prop
  | .resume (.udpInterestIn _ addr _) => addr ≠ clientaddr ∧ addr ≠ Adaptor.serveraddr
  | .resume ev => ev.ContentFits
  | .onInterest _ name | .onNack _ name => ∃ text, X.Text name text
  | .onData _ name content => (∃ text, X.Text name text) ∧ content.length < 2 ^ 32
  | .interestIn _ _ | .dataIn _ _ | .tick _ _ _ => True

/-- What holds of every state and its history. -/
structure SourceInv (X : NdnCxx N) (clientaddr : SockaddrIn) (s : Border) (h : List (BorderObs N)) :
    Prop where
  adaptor : s.adaptor.SourceInv (adaptorPart h)
  wire : ∀ sock, ∀ f ∈ s.wire sock, Carries X sock f h
  asked : ∀ name addr ret, .adaptor (.nutSet name addr ret) ∈ h → addr ≠ Adaptor.serveraddr ∧
    (addr = clientaddr → ∃ n, .onInterest n ∈ h ∧ X.Text n name)
  traced : Always (Traced X) h

/-- What enters the table comes from another program, or in a frame of an Interest. -/
theorem Turn.asked {ev : Event} {a : Adaptor} {x : List Obs} {name : List UInt8} {addr : SockaddrIn}
    {ret : ℤ} (hI : SourceInv X clientaddr s h) (hk : Kept X clientaddr e)
    (hne : clientaddr ≠ Adaptor.serveraddr) (he : s.adaptorEvent clientaddr e = some ev)
    (hs : Adaptor.step s.adaptor ev = .ok (a, x)) (hx : .nutSet name addr ret ∈ x) :
    addr ≠ Adaptor.serveraddr ∧ (addr = clientaddr → ∃ n, .onInterest n ∈ h ∧ X.Text n name) := by
  have ht := Adaptor.step_turn hI.adaptor.toSound ev
  rw [hs] at ht
  obtain ⟨datagram, alloc, d, f, rfl, hnil, hcopy, rfl⟩ := ht.nutSet_mem hx
  cases e with
  | resume ev =>
    cases he
    exact ⟨hk.2, fun ha => absurd ha hk.1⟩
  | interestIn k alloc =>
    cases he
    refine ⟨hne, fun _ => ?_⟩
    rcases s.datagram_frame .simtoreal (some k) d le_rfl with hempty | ⟨-, g, hg, hcopy'⟩
    · rw [hempty] at hnil
      exact absurd rfl hnil
    · rw [Except.ok.inj (hcopy.symm.trans hcopy')]
      exact hI.wire .simtoreal g hg
  | _ => cases he

/-- What the adaptor sends comes from the network stack, and Data has been asked for. -/
theorem carries_of_sends {x : List Obs} {sock : UdpSock} {f : SimpleNameData}
    (hx : Always Sourced (adaptorPart h ++ x)) (hne : clientaddr ≠ Adaptor.serveraddr)
    (hasked : ∀ name addr ret, .adaptor (.nutSet name addr ret) ∈ h ++ x.map .adaptor →
      addr ≠ Adaptor.serveraddr ∧ (addr = clientaddr →
        ∃ n, .onInterest n ∈ h ++ x.map .adaptor ∧ X.Text n name))
    (hf : f ∈ x.flatMap (Obs.sends clientaddr sock)) :
    Carries X sock f (h ++ x.map .adaptor) := by
  obtain ⟨y, hy, hfy⟩ := List.mem_flatMap.1 hf
  obtain ⟨u, v, rfl⟩ := List.append_of_mem hy
  have hsrc : Sourced (adaptorPart h ++ u) y := hx _ y v (by simp)
  have hpart : adaptorPart (h ++ (u ++ y :: v).map .adaptor) = adaptorPart h ++ u ++ y :: v := by
    rw [adaptorPart_append, adaptorPart_map, List.append_assoc]
  cases y with
  | sendto q g a =>
    have hsend : sock.addr clientaddr = some a ∧ f = g := by
      simp only [Obs.sends] at hfy
      split_ifs at hfy with ha
      · exact ⟨ha, List.mem_singleton.1 hfy⟩
      · cases hfy
    obtain ⟨ha, rfl⟩ := hsend
    cases q with
    | realtosimData =>
      obtain ⟨hfrom, hask⟩ := hsrc
      obtain ⟨name, hmem, hkey⟩ := hask.mem
      have hmem : .adaptor (.nutSet name a 1) ∈
          h ++ (u ++ .sendto .realtosimData f a :: v).map .adaptor := by
        rw [← mem_adaptorPart, hpart]
        exact List.mem_append_left _ hmem
      obtain ⟨hserver, hclient⟩ := hasked _ _ _ hmem
      cases sock with
      | data =>
        cases ha
        obtain ⟨n, hn, ht⟩ := hclient rfl
        rw [nutKey_of_le (ht.length_le.trans (by decide))] at hkey
        refine ⟨?_, n, hn, hkey ▸ ht⟩
        rw [hpart]
        exact hfrom.append _
      | interest =>
        cases ha
        exact absurd rfl hserver
      | _ => cases ha
    | realtosimInterest =>
      obtain ⟨-, hfrom, rfl⟩ := hsrc
      cases sock with
      | interest =>
        show Forwarded _ f (adaptorPart _)
        rw [hpart]
        exact hfrom.append _
      | data => exact absurd (Option.some.inj ha) hne
      | _ => cases ha
    | _ => cases hsrc.1
  | _ => cases hfy

/-- A step in which the adaptor does nothing. -/
theorem SourceInv.quiet (hI : SourceInv X clientaddr s h) (ha : s'.adaptor = s.adaptor)
    (ho : adaptorPart o = []) (hw : ∀ sock, ∀ f ∈ s'.wire sock, Carries X sock f (h ++ o))
    (hx : Always (Traced X) (h ++ o)) : SourceInv X clientaddr s' (h ++ o) := by
  have hpart : adaptorPart (h ++ o) = adaptorPart h := by
    rw [adaptorPart_append, ho, List.append_nil]
  refine ⟨?_, hw, fun name addr ret hmem => ?_, hx⟩
  · rw [ha, hpart]
    exact hI.adaptor
  · rw [← mem_adaptorPart, hpart, mem_adaptorPart] at hmem
    obtain ⟨hserver, hclient⟩ := hI.asked name addr ret hmem
    refine ⟨hserver, fun haddr => ?_⟩
    obtain ⟨n, hn, ht⟩ := hclient haddr
    exact ⟨n, List.mem_append_left o hn, ht⟩

/-- The application sends the frame of a packet. -/
theorem SourceInv.put (hI : SourceInv X clientaddr s h) {x : BorderObs N} {sock : UdpSock}
    {f : SimpleNameData} (hx : adaptorPart [x] = []) (htr : Traced X h x)
    (hf : Carries X sock f (h ++ [x])) : SourceInv X clientaddr (s.put sock f) (h ++ [x]) := by
  refine hI.quiet rfl hx (fun sock' g hg => ?_) (hI.traced.snoc htr)
  rcases mem_put hg with hg | ⟨rfl, rfl⟩
  · exact (hI.wire sock' g hg).mono _
  · exact hf

/-- A coroutine of the adaptor runs. -/
theorem SourceInv.resume {ev : Event} {a : Adaptor} {x : List Obs} (hI : SourceInv X clientaddr s h)
    (hk : Kept X clientaddr e) (hne : clientaddr ≠ Adaptor.serveraddr)
    (he : s.adaptorEvent clientaddr e = some ev) (hs : Adaptor.step s.adaptor ev = .ok (a, x)) :
    SourceInv X clientaddr ⟨a, fun sock => s.wire sock ++ x.flatMap (Obs.sends clientaddr sock)⟩
      (h ++ x.map .adaptor) := by
  have hfits : ev.ContentFits := by
    cases e with
    | resume ev' =>
      cases he
      cases ev with
      | udpInterestIn => trivial
      | _ => exact hk
    | interestIn | dataIn =>
      cases he
      trivial
    | _ => cases he
  have hadaptor := Adaptor.sourceInv_step hI.adaptor hfits hs
  have hasked : ∀ name addr ret, .adaptor (.nutSet name addr ret) ∈ h ++ x.map .adaptor →
      addr ≠ Adaptor.serveraddr ∧ (addr = clientaddr →
        ∃ n, .onInterest n ∈ h ++ x.map .adaptor ∧ X.Text n name) := by
    intro name addr ret hmem
    have hold : addr ≠ Adaptor.serveraddr ∧
        (addr = clientaddr → ∃ n, .onInterest n ∈ h ∧ X.Text n name) := by
      rcases List.mem_append.1 hmem with hmem | hmem
      · exact hI.asked name addr ret hmem
      · obtain ⟨y, hy, heq⟩ := List.mem_map.1 hmem
        cases heq
        exact Turn.asked hI hk hne he hs hy
    refine ⟨hold.1, fun haddr => ?_⟩
    obtain ⟨n, hn, ht⟩ := hold.2 haddr
    exact ⟨n, List.mem_append_left _ hn, ht⟩
  refine ⟨?_, fun sock f hf => ?_, hasked, hI.traced.append ?_⟩
  · rw [adaptorPart_append, adaptorPart_map]
    exact hadaptor
  · rcases List.mem_append.1 hf with hf | hf
    · exact (hI.wire sock f hf).mono _
    · exact carries_of_sends hadaptor.sourced hne hasked hf
  · intro u y v huv
    have hy : y ∈ u ++ y :: v := by simp
    rw [← huv] at hy
    obtain ⟨z, -, rfl⟩ := List.mem_map.1 hy
    trivial

theorem sourceInv_step (hne : clientaddr ≠ Adaptor.serveraddr) :
    Inductive (step X clientaddr) (fun _ e => Kept X clientaddr e) (SourceInv X clientaddr) := by
  intro s h e s' o hI hk hs
  cases step_turn hs with
  | adaptor he ha => exact hI.resume hk hne he ha
  | tick hps =>
    refine hI.quiet rfl (adaptorPart_sent _) (fun sock f hf => (hI.wire sock f hf).mono _)
      (hI.traced.append fun u y v huv => ?_)
    have hy : y ∈ u ++ y :: v := by simp
    rw [← huv] at hy
    obtain ⟨p, hp, rfl⟩ := List.mem_map.1 hy
    exact traced_of_receive (fun sock f hf => (hI.wire sock f hf).mono _) hps hp
  | onInterest hf =>
    obtain ⟨text, ht⟩ := hk
    refine hI.put rfl trivial ⟨_, List.mem_append_right _ (List.mem_singleton_self _), ?_⟩
    rw [ht.sendUDPInterest hf]
    exact ht
  | onData hf =>
    obtain ⟨⟨text, ht⟩, hlen⟩ := hk
    obtain ⟨hname, hcontent⟩ := ht.sendUDPData hlen hf
    refine hI.put rfl trivial ⟨_, hname ▸ ht, Or.inl ?_⟩
    rw [hcontent]
    exact List.mem_append_right _ (List.mem_singleton_self _)
  | onNack hf =>
    obtain ⟨text, ht⟩ := hk
    obtain ⟨hname, hcontent⟩ := ht.sendUDPNack hf
    exact hI.put rfl trivial
      ⟨_, hname ▸ ht, Or.inr ⟨List.mem_append_right _ (List.mem_singleton_self _), hcontent⟩⟩

/-! ### What leaves for the real network -/

/-- No other program sends to the adaptor. -/
def Closed : BorderEvent N → Prop
  | .resume (.udpInterestIn datagram _ _) | .resume (.udpDataIn datagram _) => datagram = []
  | _ => True

/-- Where a packet that is sent into the real network comes from. A Nack leaves as empty Data. -/
def HandedOver (X : NdnCxx N) (pre : List (BorderObs N)) : BorderObs N → Prop
  | .adaptor (.isend .simtorealInterest m _) => ∃ name, .onInterest name ∈ pre ∧ X.Text name m.name
  | .adaptor (.isend .simtorealData m _) => ∃ name, X.Text name m.name ∧
      (.onData name m.content ∈ pre ∨ .onNack name ∈ pre ∧ m.content = [])
  | .adaptor (.isend _ _ _) => False
  | _ => True

/-- Without other programs, what is queued for the real network has been sent by the application. -/
structure ClosedInv (X : NdnCxx N) (clientaddr : SockaddrIn) (s : Border) (h : List (BorderObs N)) :
    Prop extends SourceInv X clientaddr s h where
  queued : ∀ q, (q = .simtorealInterest ∨ q = .simtorealData) →
    ∀ f ∈ enqueued q (adaptorPart h), f ∈ s.wire q.sock
  handed : Always (HandedOver X) h

/-- A frame that joins a queue for the real network has arrived in a datagram of the application. -/
theorem Turn.queued {ev : Event} {a : Adaptor} {x : List Obs} {q : FwdQueue} {f : SimpleNameData}
    (hI : SourceInv X clientaddr s h) (hc : Closed e)
    (he : s.adaptorEvent clientaddr e = some ev) (hs : Adaptor.step s.adaptor ev = .ok (a, x))
    (hq : q = .simtorealInterest ∨ q = .simtorealData) (hf : f ∈ enqueued q x) :
    f ∈ s.wire q.sock := by
  have hsound := hI.adaptor.toSound
  have ht := Adaptor.step_turn hsound ev
  rw [hs] at ht
  rcases ht.enqueued_cases q with hnil | ⟨arr, g, harr, hg, rfl, henq, -⟩
  · rw [hnil] at hf
    cases hf
  rw [henq, List.mem_singleton] at hf
  subst hf
  obtain ⟨d, hfill⟩ := Adaptor.filled_eq_some hsound hg
  rcases Adaptor.arrival_cases harr with ⟨ibuf, alloc, rfl, rfl⟩ | ⟨ibuf, alloc, rfl, rfl⟩ |
    ⟨datagram, addr, alloc, rfl, hne, rfl⟩ | ⟨datagram, alloc, rfl, hne, rfl⟩
  · rcases hq with hq | hq <;> cases hq
  · rcases hq with hq | hq <;> cases hq
  · cases e with
    | resume ev =>
      cases he
      exact absurd hc hne
    | interestIn k alloc =>
      cases he
      rcases s.datagram_frame .simtoreal (some k) d le_rfl with hempty | ⟨-, g, hg, hcopy⟩
      · exact absurd hempty hne
      · rw [Except.ok.inj (hfill.symm.trans hcopy)]
        exact hg
    | _ => cases he
  · cases e with
    | resume ev =>
      cases he
      exact absurd hc hne
    | dataIn k alloc =>
      cases he
      rcases s.datagram_frame .realtosim (some k) d (show 2048 ≤ 4096 by omega) with
        hempty | ⟨-, g, hg, hcopy⟩
      · exact absurd hempty hne
      · rw [Except.ok.inj (hfill.symm.trans hcopy)]
        exact hg
    | _ => cases he

/-- What leaves for the real network is in the hands of the coroutine that sends it. -/
theorem isend_held {a a' : Adaptor} {ev : Event} {x : List Obs} {q : FwdQueue} {m : Message} {ret : ℤ}
    (ht : Adaptor.Turn a ev (.ok (a', x))) (hx : .isend q m ret ∈ x) :
    (q = .simtorealInterest ∨ q = .simtorealData) ∧
      ∃ b, a.held q = some b ∧ m = q.message (a.frame b) := by
  cases ht with
  | nothing => cases hx
  | nipInterestIn ht | nipDataIn ht | udpDataIn _ ht =>
    cases ht with
    | ok => split_ifs at hx <;> simp at hx
  | nipInterestOut ht | nipDataOut ht =>
    cases ht with
    | idle | wait => cases hx
    | take => simp at hx
    | sent hheld =>
      simp at hx
      obtain ⟨rfl, rfl, -⟩ := hx
      exact ⟨by simp, _, hheld, by simp [FwdQueue.message, FwdQueue.isData, SimpleNameData.content]⟩
  | udpInterestIn ht =>
    cases ht with
    | empty => cases hx
    | accepted => split_ifs at hx <;> simp at hx
    | dropped => simp at hx
  | udpInterestOut ht | udpDataOut ht => cases ht <;> simp at hx

theorem HandedOver.mono {x : BorderObs N} (hx : HandedOver X h x) (o : List (BorderObs N)) :
    HandedOver X (h ++ o) x := by
  cases x with
  | adaptor y =>
    cases y with
    | isend q m ret =>
      cases q with
      | simtorealInterest =>
        obtain ⟨name, hname, ht⟩ := hx
        exact ⟨name, List.mem_append_left o hname, ht⟩
      | simtorealData =>
        obtain ⟨name, ht, hon⟩ := hx
        exact ⟨name, ht, hon.imp (List.mem_append_left o)
          fun ⟨hnack, hnil⟩ => ⟨List.mem_append_left o hnack, hnil⟩⟩
      | _ => exact hx
    | _ => trivial
  | _ => trivial

/-- What the adaptor does with the real network is done with packets of the simulation. -/
theorem ClosedInv.handedOver {ev : Event} {a : Adaptor} {x : List Obs} {y : Obs}
    (hI : ClosedInv X clientaddr s h) (hs : Adaptor.step s.adaptor ev = .ok (a, x)) (hy : y ∈ x) :
    HandedOver X h (.adaptor y) := by
  have ht := Adaptor.step_turn hI.adaptor.toSound ev
  rw [hs] at ht
  cases y with
  | isend q m ret =>
    obtain ⟨hq, b, hheld, rfl⟩ := isend_held ht hy
    have hwire := hI.queued q hq _ (hI.adaptor.held_mem hheld)
    have hcarries := hI.wire q.sock _ hwire
    rcases hq with rfl | rfl
    · exact hcarries
    · exact hcarries
  | _ => trivial

theorem closedInv_step (hne : clientaddr ≠ Adaptor.serveraddr) :
    Inductive (step X clientaddr) (fun _ e => Kept X clientaddr e ∧ Closed e)
      (ClosedInv X clientaddr) := by
  rintro s h e s' o hI ⟨hk, hc⟩ hs
  have hnext := sourceInv_step hne hI.toSourceInv hk hs
  have hquiet : adaptorPart o = [] → (∀ sock, ∀ f ∈ s.wire sock, f ∈ s'.wire sock) →
      (∀ x ∈ o, HandedOver X h x) → ClosedInv X clientaddr s' (h ++ o) := by
    intro ho hw hx
    refine ⟨hnext, fun q hq f hf => hw _ _ (hI.queued q hq f ?_), hI.handed.append ?_⟩
    · rwa [adaptorPart_append, ho, List.append_nil] at hf
    · rintro u y v rfl
      exact (hx y (by simp)).mono u
  cases step_turn hs with
  | adaptor he ha =>
    refine ⟨hnext, fun q hq f hf => List.mem_append_left _ ?_, hI.handed.append fun u y v huv => ?_⟩
    · rw [adaptorPart_append, adaptorPart_map, enqueued_append, List.mem_append] at hf
      rcases hf with hf | hf
      · exact hI.queued q hq f hf
      · exact Turn.queued hI.toSourceInv hc he ha hq hf
    · have hy : y ∈ u ++ y :: v := by simp
      rw [← huv] at hy
      obtain ⟨z, hz, rfl⟩ := List.mem_map.1 hy
      exact (hI.handedOver ha hz).mono u
  | tick hps =>
    refine hquiet (adaptorPart_sent _) (fun _ _ hf => hf) fun x hx => ?_
    obtain ⟨p, -, rfl⟩ := List.mem_map.1 hx
    trivial
  | onInterest | onData | onNack =>
    refine hquiet rfl (fun _ _ hf => mem_put_of_mem hf) fun x hx => ?_
    rw [List.mem_singleton.1 hx]
    trivial

/-! ### Runs -/

section Runs

variable (blocks : Fin 16 → SimpleNameData) (junk : ℕ → NutEntry)

theorem init_closedInv : ClosedInv X clientaddr (init blocks junk) [] where
  adaptor := Adaptor.initAdaptor_sourceInv blocks junk
  wire := fun _ _ hf => (by cases hf)
  asked := fun _ _ _ hmem => (by cases hmem)
  traced := always_nil
  queued := fun _ _ _ hf => (by cases hf)
  handed := always_nil

/-- An Interest that the application sends into the simulation has been read from a name that came in
from the network stack before; a Data has the name of an Interest that the simulation has handed over
before, and a name and a content that came in from the network stack before. Nacks are never sent. -/
theorem packets_traced {evs : List (BorderEvent N)} (hne : clientaddr ≠ Adaptor.serveraddr)
    (hk : ∀ e ∈ evs, Kept X clientaddr e) {s : Border} {h : List (BorderObs N)}
    (he : exec (step X clientaddr) (init blocks junk) evs = .ok (s, h)) : Always (Traced X) h :=
  ((sourceInv_step hne).exec (init_closedInv blocks junk).toSourceInv
    (.of_forall (fun e hm _ => hk e hm) _) he).traced

/-- Without other programs, every Interest and every Data that `isend` takes has been handed over by
the simulation before, with this name and this content. -/
theorem packets_handed_over {evs : List (BorderEvent N)} (hne : clientaddr ≠ Adaptor.serveraddr)
    (hk : ∀ e ∈ evs, Kept X clientaddr e ∧ Closed e) {s : Border} {h : List (BorderObs N)}
    (he : exec (step X clientaddr) (init blocks junk) evs = .ok (s, h)) : Always (HandedOver X) h :=
  ((closedInv_step hne).exec (init_closedInv blocks junk)
    (.of_forall (fun e hm _ => hk e hm) _) he).handed

end Runs

/-! ### An exchange in both directions -/

/-- The simulation asks for `/a/7`, the Interest goes out, and the Data comes back; the other way
round `/a/5` is asked for and answered. -/
def bothWays : List (BorderEvent (List UInt8 × Option ℕ)) :=
  [.onInterest .zero (nameA, some 7), .interestIn 0 allocOk, .resume (.nipInterestOut true 1 true),
    .resume (.nipInterestOut true 1 true),
    .resume (.nipDataIn (some (nameIbuf [47, 97, 47, 55] 3)) allocOk), .resume (.udpDataOut true),
    .resume (.udpDataOut true), .tick .zero none (some 0), .tick .zero none (some 0),
    .resume (.nipInterestIn (some (nameIbuf [47, 97, 47, 53] 0)) allocOk),
    .resume (.udpInterestOut true), .resume (.udpInterestOut true), .tick .zero (some 0) none,
    .onData .zero (nameA, some 5) [1], .dataIn 0 allocOk, .resume (.nipDataOut true 1 true),
    .resume (.nipDataOut true 1 true)]

/-- The address `127.0.0.1:8788`. -/
def localaddr : SockaddrIn := ⟨2, 0x5422, 0x0100007F⟩

/-- What is sent into the simulation and to the real network. -/
theorem bothWays_sends : Reaches (step plainNames localaddr) (init (fun _ => .zero) fun _ => .zero)
    bothWays fun _ h => ∀ x ∈ [.sent (.data (nameA, some 7) [0, 0, 0]),
      .sent (.interest (nameA, some 5)), .adaptor (.isend .simtorealInterest ⟨[47, 97, 47, 55], []⟩ 1),
      .adaptor (.isend .simtorealData ⟨[47, 97, 47, 53], [1]⟩ 1)], x ∈ h := by
  decide +kernel

theorem bothWays_kept : ∀ e ∈ bothWays, Kept plainNames localaddr e ∧ Closed e := by
  have htext : ∀ seq, seq < 2 ^ 32 → (plainNames.nameText (nameA, none) seq).length ≤ 1023 →
      ∃ text, plainNames.Text (nameA, some seq) text :=
    fun seq hseq hlen => ⟨_, (nameA, none), seq, ⟨hseq, rfl, rfl, rfl, hlen⟩, rfl, rfl⟩
  have h7 := htext 7 (by norm_num) (by decide)
  have h5 := htext 5 (by norm_num) (by decide)
  have hfits : (nameIbuf [47, 97, 47, 55] 3).dlen.toNat ≤ maxDataLen := by decide
  simp [bothWays, Kept, Closed, h7, h5, Event.ContentFits, hfits]

theorem packets_traced_bothWays : Reaches (step plainNames localaddr)
    (init (fun _ => .zero) fun _ => .zero) bothWays fun _ h =>
      .sent (.data (nameA, some 7) [0, 0, 0]) ∈ h ∧ Always (Traced plainNames) h := by
  obtain ⟨s, h, he, hsent⟩ := bothWays_sends
  exact ⟨s, h, he, hsent _ (by simp),
    packets_traced _ _ (by decide) (fun e hm => (bothWays_kept e hm).1) he⟩

theorem packets_handed_over_bothWays : Reaches (step plainNames localaddr)
    (init (fun _ => .zero) fun _ => .zero) bothWays fun _ h =>
      .adaptor (.isend .simtorealData ⟨[47, 97, 47, 53], [1]⟩ 1) ∈ h ∧
        Always (HandedOver plainNames) h := by
  obtain ⟨s, h, he, hsent⟩ := bothWays_sends
  exact ⟨s, h, he, hsent _ (by simp), packets_handed_over _ _ (by decide) bothWays_kept he⟩

end Border

end MixSim
