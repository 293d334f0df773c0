import MixSim.Border.Provenance

/-!
# When nothing goes wrong

The application reads every frame that it receives with unchecked copies, and the adaptor every datagram.
Whether these stay within their arrays is decided at the far ends: by what the network stack brings in,
by what the simulation hands over, and by other programs. As long as these keep to `Roomy`, and the
allocations of the adaptor succeed without moving its table at the wrong time, no run of the two programs
faults, however their datagrams are lost, repeated or overtaken.
-/

namespace MixSim

open CText Execution

section Names

variable {N : Type} (X : NdnCxx N)

/-- The sequence number has at most nine digits. -/
def NdnCxx.Short (name : N) : Prop := ∀ seq, X.toSequenceNumber name = some seq → seq < 10 ^ 9

/-- The text has a slash, at most nine bytes behind the last one, and a name in front of it. -/
def NdnCxx.Readable (text : List UInt8) : Prop :=
  ∃ p c, text = p ++ slash :: c ∧ slash ∉ c ∧ c.length < seqbufSize ∧ X.ofUri (cstr p) ≠ none

variable {X} {name : N} {text content : List UInt8} {d f : SimpleNameData}

theorem NdnCxx.Text.writeName_ok (h : X.Text name text) (d : SimpleNameData) :
    ∃ f, X.writeName d name = .ok f := by
  obtain ⟨P, seq, hP, rfl, rfl⟩ := h
  obtain ⟨f, hf, -, -⟩ := writeName_of_append (d := d) hP.seq_lt hP.number hP.getPrefix hP.length_le
  exact ⟨f, hf⟩

/-- The frame of an Interest. -/
theorem NdnCxx.Text.interestFrame (h : X.Text name text) (d : SimpleNameData) :
    ∃ f, X.sendUDPInterest d name = .ok f ∧ f.Fits := by
  obtain ⟨f, hf⟩ := h.writeName_ok d
  obtain ⟨-, hnlen⟩ := h.writeName hf
  have hlen := h.length_le
  refine ⟨f.setDlen 0, by rw [NdnCxx.sendUDPInterest, hf, ok_bind], ?_⟩
  rw [SimpleNameData.Fits, SimpleNameData.nlen_setDlen, SimpleNameData.dlen_setDlen, hnlen]
  unfold bufSize
  omega

/-- The frame of a Nack is the one of an Interest. -/
theorem NdnCxx.Text.nackFrame (h : X.Text name text) (d : SimpleNameData) :
    ∃ f, X.sendUDPNack d name = .ok f ∧ f.Fits := h.interestFrame d

/-- The frame of a Data for which there is room. -/
theorem NdnCxx.Text.dataFrame (h : X.Text name text) (d : SimpleNameData)
    (hroom : text.length + content.length ≤ bufSize) :
    ∃ f, X.sendUDPData d name content = .ok f ∧ f.Fits := by
  obtain ⟨f, hf⟩ := h.writeName_ok d
  obtain ⟨-, hnlen⟩ := h.writeName hf
  have hmod : content.length % 2 ^ 32 = content.length := by
    unfold bufSize at hroom
    exact Nat.mod_eq_of_lt (by omega)
  obtain ⟨g, hg, hgn, hgd, -⟩ := sendUDPData_of_writeName hf content (by rw [hmod, hnlen]; exact hroom)
  refine ⟨g, hg, ?_⟩
  rw [SimpleNameData.Fits, hgn, hgd, hmod, hnlen]
  exact hroom

/-- A text that can be read makes an Interest. -/
theorem NdnCxx.Readable.sendNDNInterest (h : X.Readable f.name) (hn : f.nlen ≤ bufSize) :
    ∃ p, X.sendNDNInterest f = .ok p := by
  obtain ⟨p, c, hname, hslash, hlen, huri⟩ := h
  obtain ⟨P, hP⟩ := Option.ne_none_iff_exists'.1 huri
  refine ⟨.interest (X.appendSequenceNumber P (componentSeq c)), ?_⟩
  have hparse : X.parseName f = .ok (P, componentSeq c) := by
    rw [NdnCxx.parseName, splitName_eq hn hname hslash, if_pos hlen, ok_bind]
    dsimp only
    rw [hP]
    rfl
  rw [NdnCxx.sendNDNInterest, hparse, ok_bind]

/-- The text of a name with a short number makes a Data. -/
theorem NdnCxx.Text.sendNDNData (h : X.Text name f.name) (hs : X.Short name) (hfit : f.Fits) :
    ∃ p, X.sendNDNData f = .ok p := by
  obtain ⟨P, seq, hP, rfl, htext⟩ := h
  have hparse := parseName_eq hfit.nlen_le htext hP.parse
  rw [if_pos (hs seq hP.number)] at hparse
  refine ⟨.data (X.appendSequenceNumber P seq) f.content, ?_⟩
  rw [NdnCxx.sendNDNData, hparse, ok_bind]
  dsimp only
  rw [readBuf_content hfit, ok_bind]

end Names

namespace Border

variable {N : Type} {X : NdnCxx N} {clientaddr : SockaddrIn} {s s' : Border} {e : BorderEvent N}
  {h o : List (BorderObs N)}

/-- Nothing is larger than the arrays that it is copied into. -/
def Roomy (X : NdnCxx N) : BorderEvent N → Prop
  | .resume ev => ev.Assumed ∧ ev.DataFits ∧
      match ev with
      | .nipInterestIn (some ibuf) _ => X.Readable ibuf.interest.name
      | _ => True
  | .onInterest _ name => X.Short name
  | .onData _ name content => ∀ text, X.Text name text → text.length + content.length ≤ bufSize
  | .interestIn _ _ | .dataIn _ _ | .tick _ _ _ | .onNack _ _ => True

/-- The allocations of the adaptor succeed, and its table does not grow while `udp_data_out` holds a
pointer into it. -/
def Supplied (clientaddr : SockaddrIn) (s : Border) (e : BorderEvent N) : Prop :=
  ∀ ev ∈ s.adaptorEvent clientaddr e, s.adaptor.AllocOk ev ∧ s.adaptor.NoGrowth ev

instance (s : Border) (e : BorderEvent N) : Decidable (Supplied clientaddr s e) :=
  inferInstanceAs (Decidable (∀ ev ∈ s.adaptorEvent clientaddr e, _ ∧ _))

/-- What holds of every state and its history. -/
structure SafeInv (X : NdnCxx N) (clientaddr : SockaddrIn) (s : Border) (h : List (BorderObs N)) :
    Prop extends SourceInv X clientaddr s h where
  fit : s.adaptor.FitInv (adaptorPart h)
  anchored : s.adaptor.Anchored
  fits : ∀ sock, ∀ f ∈ s.wire sock, f.Fits
  readable : ∀ m, .adaptor (.recv .realtosimInterest m) ∈ h → X.Readable m.name
  short : ∀ name, .onInterest name ∈ h → X.Short name

/-- A datagram of the application is a whole frame. -/
theorem SafeInv.wellFormed (hI : SafeInv X clientaddr s h) (sock : UdpSock) (k : Option ℕ) :
    s.datagram sock k = [] ∨
      WellFormed (s.datagram sock k) ∧ (s.datagram sock k).length ≤ frameSize := by
  refine (s.datagram_cases sock k).imp_right ?_
  rintro ⟨f, hf, hbytes⟩
  have hfit := hI.fits sock f hf
  have hsize := f.size_eq
  rw [hbytes]
  refine ⟨?_, hsize.le⟩
  unfold frameSize at hsize
  unfold SimpleNameData.Fits bufSize at hfit
  show 8 + f.nlen + f.dlen ≤ f.bytes.length
  omega

/-- Every datagram of the application, and what else comes in, fits a buffer of the adaptor. -/
theorem SafeInv.frameFits {ev : Event} (hI : SafeInv X clientaddr s h) (hr : Roomy X e)
    (he : s.adaptorEvent clientaddr e = some ev) : s.adaptor.FrameFits ev := by
  cases e with
  | resume ev =>
    cases he
    exact Adaptor.frameFits_of_assumed hI.fit.toSound hr.1 hr.2.1
  | interestIn k alloc =>
    cases he
    exact Adaptor.frameFits_of_assumed hI.fit.toSound (hI.wellFormed _ _) trivial
  | dataIn k alloc =>
    cases he
    exact Adaptor.frameFits_of_assumed hI.fit.toSound (hI.wellFormed _ _) trivial
  | _ => cases he

/-- Every frame that can arrive at the application makes a packet. -/
theorem SafeInv.receivePackets (hI : SafeInv X clientaddr s h) (d : SimpleNameData)
    (i j : Option ℕ) :
    ∃ ps, X.receivePackets d (s.datagram .interest i) (s.datagram .data j) = .ok ps := by
  have hinterest : ∀ f ∈ s.wire .interest, ∃ p, X.sendNDNInterest f = .ok p := by
    intro f hf
    have hfrom : Forwarded .realtosimInterest f (adaptorPart h) := hI.wire .interest f hf
    exact (hI.readable _ (mem_adaptorPart.1 hfrom.recv)).sendNDNInterest hfrom.fits.nlen_le
  have hdata : ∀ f ∈ s.wire .data, ∃ p, X.sendNDNData f = .ok p := by
    intro f hf
    obtain ⟨hfrom, name, hname, ht⟩ := hI.wire .data f hf
    exact ht.sendNDNData (hI.short name hname) hfrom.fits
  -- The second half
  have hrest : ∀ (b : SimpleNameData) (ps₁ : List (Packet N)), ∃ ps,
      (do
        let recvBuf ← b.memcpy ((s.datagram .data j).take 2048)
        if s.datagram .data j = [] then .ok ps₁
        else do
          let p ← X.sendNDNData recvBuf
          .ok (ps₁ ++ [p])) = .ok ps := by
    intro b ps₁
    rcases s.datagram_frame .data j b le_rfl with hnil | ⟨hne, f, hf, hcopy⟩
    · obtain ⟨b', hb'⟩ : ∃ b', b.memcpy [] = .ok b' := SimpleNameData.memcpy_of_le (by decide)
      rw [hnil, List.take_nil, hb', ok_bind, if_pos rfl]
      exact ⟨_, rfl⟩
    · obtain ⟨p, hp⟩ := hdata f hf
      rw [hcopy, ok_bind, if_neg hne, hp, ok_bind]
      exact ⟨_, rfl⟩
  rcases s.datagram_frame .interest i d le_rfl with hnil | ⟨hne, f, hf, hcopy⟩
  · obtain ⟨b, hb⟩ : ∃ b, d.memcpy [] = .ok b := SimpleNameData.memcpy_of_le (by decide)
    obtain ⟨ps, hps⟩ := hrest b []
    refine ⟨ps, ?_⟩
    rw [NdnCxx.receivePackets, hnil, List.take_nil, hb, ok_bind]
    simp only [if_true, ok_bind]
    exact hps
  · obtain ⟨p, hp⟩ := hinterest f hf
    obtain ⟨ps, hps⟩ := hrest f [p]
    refine ⟨ps, ?_⟩
    rw [NdnCxx.receivePackets, hcopy, ok_bind]
    simp only [if_neg hne, hp, ok_bind]
    exact hps

/-- No step from here faults. -/
theorem SafeInv.no_fault (hI : SafeInv X clientaddr s h) (hk : Kept X clientaddr e)
    (hr : Roomy X e) (ha : Supplied clientaddr s e) (f : Fault) :
    step X clientaddr s e ≠ .error f := by
  have hbind : ∀ {α : Type} {x : Except Fault α} {g : α → Border × List (BorderObs N)},
      (∃ a, x = .ok a) → (x >>= fun a => .ok (g a)) ≠ .error f := by
    rintro α x g ⟨a, rfl⟩ herr
    cases herr
  have hresume : ∀ {ev : Event}, s.adaptorEvent clientaddr e = some ev →
      (s.resume clientaddr ev : Except Fault (Border × List (BorderObs N))) ≠ .error f := by
    intro ev he
    refine hbind ?_
    have ht := Adaptor.step_turn hI.fit.toSound ev
    rcases hstep : Adaptor.step s.adaptor ev with f' | r
    · rw [hstep] at ht
      rcases ht.fault hI.fit (hI.frameFits hr he) with ⟨-, hoom⟩ | ⟨-, hdangling⟩
      · exact absurd (ha ev he).1 hoom
      · exact absurd hI.anchored hdangling
    · exact ⟨r, rfl⟩
  cases e with
  | resume ev => exact hresume rfl
  | interestIn k alloc => exact hresume rfl
  | dataIn k alloc => exact hresume rfl
  | tick d i j => exact hbind (hI.receivePackets d i j)
  | onInterest d name =>
    obtain ⟨text, ht⟩ := hk
    obtain ⟨g, hg, -⟩ := ht.interestFrame d
    exact hbind ⟨g, hg⟩
  | onData d name content =>
    obtain ⟨⟨text, ht⟩, -⟩ := hk
    obtain ⟨g, hg, -⟩ := ht.dataFrame d (hr text ht)
    exact hbind ⟨g, hg⟩
  | onNack d name =>
    obtain ⟨text, ht⟩ := hk
    obtain ⟨g, hg, -⟩ := ht.nackFrame d
    exact hbind ⟨g, hg⟩

/-- The application sends a frame that fits. -/
theorem SafeInv.put (hI : SafeInv X clientaddr s h) {x : BorderObs N} {sock : UdpSock}
    {f : SimpleNameData} (hnext : SourceInv X clientaddr (s.put sock f) (h ++ [x]))
    (hx : adaptorPart [x] = []) (hfit : f.Fits) (hshort : ∀ name, .onInterest name = x → X.Short name) :
    SafeInv X clientaddr (s.put sock f) (h ++ [x]) := by
  have hpart : adaptorPart (h ++ [x]) = adaptorPart h := by
    rw [adaptorPart_append, hx, List.append_nil]
  refine ⟨hnext, ?_, hI.anchored, fun sock' g hg => ?_, fun m hm => ?_, fun name hname => ?_⟩
  · rw [hpart]
    exact hI.fit
  · rcases mem_put hg with hg | ⟨-, rfl⟩
    · exact hI.fits sock' g hg
    · exact hfit
  · rw [← mem_adaptorPart, hpart, mem_adaptorPart] at hm
    exact hI.readable m hm
  · rcases List.mem_append.1 hname with hname | hname
    · exact hI.short name hname
    · exact hshort name (List.mem_singleton.1 hname)

theorem safeInv_step (hne : clientaddr ≠ Adaptor.serveraddr) :
    Inductive (step X clientaddr)
      (fun s e => (Kept X clientaddr e ∧ Roomy X e) ∧ Supplied clientaddr s e)
      (SafeInv X clientaddr) := by
  rintro s h e s' o hI ⟨⟨hk, hr⟩, ha⟩ hs
  have hnext := sourceInv_step hne hI.toSourceInv hk hs
  cases step_turn hs with
  | adaptor he hstep =>
    rename_i ev a x
    have ht := Adaptor.step_turn hI.fit.toSound ev
    rw [hstep] at ht
    refine ⟨hnext, ?_, ht.anchored (ha _ he).2 hI.anchored, fun sock f hf => ?_, fun m hm => ?_,
      fun name hname => ?_⟩
    · rw [adaptorPart_append, adaptorPart_map]
      exact Adaptor.fitInv_step hI.fit (hI.frameFits hr he) hstep
    · have hcarries := hnext.wire sock f hf
      rcases List.mem_append.1 hf with hf | hf
      · exact hI.fits sock f hf
      · obtain ⟨y, -, hfy⟩ := List.mem_flatMap.1 hf
        cases sock with
        | interest => exact Forwarded.fits hcarries
        | data => exact hcarries.1.fits
        | _ => cases y <;> simp [Obs.sends, UdpSock.addr] at hfy
    · rcases List.mem_append.1 hm with hm | hm
      · exact hI.readable m hm
      · obtain ⟨y, hy, heq⟩ := List.mem_map.1 hm
        cases heq
        obtain ⟨ibuf, alloc, rfl, rfl⟩ := ht.recv_interest hy
        cases e with
        | resume ev =>
          cases he
          exact hr.2.2
        | _ => cases he
    · rcases List.mem_append.1 hname with hname | hname
      · exact hI.short name hname
      · obtain ⟨y, -, heq⟩ := List.mem_map.1 hname
        cases heq
  | tick hps =>
    refine ⟨hnext, ?_, hI.anchored, hI.fits, fun m hm => ?_, fun name hname => ?_⟩
    · rw [adaptorPart_append, adaptorPart_sent, List.append_nil]
      exact hI.fit
    · rw [← mem_adaptorPart, adaptorPart_append, adaptorPart_sent, List.append_nil,
        mem_adaptorPart] at hm
      exact hI.readable m hm
    · rcases List.mem_append.1 hname with hname | hname
      · exact hI.short name hname
      · obtain ⟨y, -, heq⟩ := List.mem_map.1 hname
        cases heq
  | onInterest hf =>
    obtain ⟨text, ht⟩ := hk
    obtain ⟨g, hg, hfit⟩ := ht.interestFrame _
    rw [hf, Except.ok.injEq] at hg
    subst hg
    exact hI.put hnext rfl hfit fun name hname => by
      cases hname
      exact hr
  | onData hf =>
    obtain ⟨⟨text, ht⟩, -⟩ := hk
    obtain ⟨g, hg, hfit⟩ := ht.dataFrame _ (hr text ht)
    rw [hf, Except.ok.injEq] at hg
    subst hg
    exact hI.put hnext rfl hfit fun name hname => by cases hname
  | onNack hf =>
    obtain ⟨text, ht⟩ := hk
    obtain ⟨g, hg, hfit⟩ := ht.nackFrame _
    rw [hf, Except.ok.injEq] at hg
    subst hg
    exact hI.put hnext rfl hfit fun name hname => by cases hname

section Runs

variable (blocks : Fin 16 → SimpleNameData) (junk : ℕ → NutEntry)

theorem init_safeInv : SafeInv X clientaddr (init blocks junk) [] where
  toSourceInv := (init_closedInv blocks junk).toSourceInv
  fit := Adaptor.initAdaptor_fitInv blocks junk
  anchored := fun _ hb => (by cases hb)
  fits := fun _ _ hf => (by cases hf)
  readable := fun _ hm => (by cases hm)
  short := fun _ hm => (by cases hm)

/-- As long as the peers keep to what there is room for, and the allocations of the adaptor succeed
without moving its table under a suspended `udp_data_out`, every run goes on: no copy of the adaptor or
of the application leaves its arrays, no pointer dangles and no exception is thrown. -/
theorem runs_safely {evs : List (BorderEvent N)} (hne : clientaddr ≠ Adaptor.serveraddr)
    (hk : ∀ e ∈ evs, Kept X clientaddr e ∧ Roomy X e)
    (ha : Along (step X clientaddr) (Supplied clientaddr) (init blocks junk) evs) :
    ∃ s h, exec (step X clientaddr) (init blocks junk) evs = .ok (s, h) := by
  rcases he : exec (step X clientaddr) (init blocks junk) evs with f | ⟨s, h⟩
  · have hG := (Along.of_forall (fun e hm _ => hk e hm) (init blocks junk)).and ha
    exact ((safeInv_step hne).fault (F := fun _ => False)
      (fun s h e f hI hG hs => hI.no_fault hG.1.1 hG.1.2 hG.2 f hs) (init_safeInv blocks junk) hG
      he).elim
  · exact ⟨s, h, rfl⟩

end Runs

theorem bothWays_roomy : ∀ e ∈ bothWays, Roomy plainNames e := by
  have h7 : plainNames.Short (nameA, some 7) := fun seq hseq => by
    cases hseq
    norm_num
  have h5 : ∀ text, plainNames.Text (nameA, some 5) text → text.length < bufSize :=
    fun text ht => ht.length_le.trans_lt (by decide)
  have hread : plainNames.Readable (nameIbuf [47, 97, 47, 53] 0).interest.name :=
    ⟨[47, 97], [53], by decide, by decide, by decide, by decide⟩
  have hfits : Event.Assumed (.nipDataIn (some (nameIbuf [47, 97, 47, 55] 3)) allocOk) ∧
      Event.DataFits (.nipDataIn (some (nameIbuf [47, 97, 47, 55] 3)) allocOk) ∧
      Event.Assumed (.nipInterestIn (some (nameIbuf [47, 97, 47, 53] 0)) allocOk) := by decide
  obtain ⟨hdata, hroom, hinterest⟩ := hfits
  simp only [Event.Assumed, Event.DataFits] at hdata hroom hinterest
  simp [bothWays, Roomy, h7, hread, Event.Assumed, Event.DataFits, hdata, hroom, hinterest]
  exact h5

theorem runs_safely_bothWays : ∃ s h, exec (step plainNames localaddr)
    (init (fun _ => .zero) fun _ => .zero) bothWays = .ok (s, h) :=
  runs_safely _ _ (by decide) (fun e hm => ⟨(bothWays_kept e hm).1, bothWays_roomy e hm⟩)
    (by decide +kernel)

end Border

end MixSim
