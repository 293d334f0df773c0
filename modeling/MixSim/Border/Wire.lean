import MixSim.Adaptor.Sources
import MixSim.Simulator.Names

/-!
# The adaptor and the simulation, with the datagrams between them

The adaptor and the application of the simulation run side by side and send each other frames, each as
one datagram of 2048 bytes. A datagram that has been sent may arrive any number of times, late, before
one that was sent earlier, or never: the system keeps all that were sent, and an arrival is the number
of one of them (`Border.wire`). What else happens is the choice of the environment: which coroutine
runs, what the network stack brings in, which packets the simulation hands over, and what other
programs send to the two sockets of the adaptor. To the application nobody else sends.
-/

namespace MixSim

open CText Execution

/-- The sockets that datagrams arrive at: `simtoreal_udpsock` and `realtosim_udpsock` of the adaptor,
`m_interest_udpfd` and `m_data_udpfd` of the application. -/
inductive UdpSock
  | simtoreal
  | realtosim
  | interest
  | data
  deriving DecidableEq

/-- The socket that the frames of a queue arrive at. -/
def FwdQueue.sock : FwdQueue → UdpSock
  | .simtorealInterest => .simtoreal
  | .simtorealData => .realtosim
  | .realtosimInterest => .interest
  | .realtosimData => .data

/-- The adaptor, and the frames sent to each socket so far. -/
structure Border where
  adaptor : Adaptor
  wire : UdpSock → List SimpleNameData

/-- What happens next: a coroutine of the adaptor runs, with datagrams from elsewhere; a datagram of
the simulation arrives at `udp_interest_in` or `udp_data_in`; `ScheduleNextTick` runs and receives at
most one datagram from each socket; the simulation hands over a packet. The frames `recvBuf` and
`namedata` are the uninitialised locals, and `content` the bytes that `getContent().data()` and `size()` of
the Data give. -/
inductive BorderEvent (N : Type)
  | resume (ev : Event)
  | interestIn (k : ℕ) (alloc : Alloc)
  | dataIn (k : ℕ) (alloc : Alloc)
  | tick (recvBuf : SimpleNameData) (interest data : Option ℕ)
  | onInterest (namedata : SimpleNameData) (name : N)
  | onData (namedata : SimpleNameData) (name : N) (content : List UInt8)
  | onNack (namedata : SimpleNameData) (name : N)

/-- What a step did: the adaptor made an observation, the simulation handed over a packet, or a packet
was sent into the simulation. -/
inductive BorderObs (N : Type)
  | adaptor (o : Obs)
  | onInterest (name : N)
  | onData (name : N) (content : List UInt8)
  | onNack (name : N)
  | sent (p : Packet N)
  deriving DecidableEq

/-- The observations of the adaptor. -/
def adaptorPart {N : Type} (h : List (BorderObs N)) : List Obs :=
  h.filterMap fun
    | .adaptor o => some o
    | _ => none

/-- The address that the adaptor reaches a socket of the application at: the one built into
`udp_interest_out`, and the one that the application sends its Interests from. -/
def UdpSock.addr (clientaddr : SockaddrIn) : UdpSock → Option SockaddrIn
  | .interest => some Adaptor.serveraddr
  | .data => some clientaddr
  | .simtoreal | .realtosim => none

/-- The frames that an observation of the adaptor sends to a socket. -/
def Obs.sends (clientaddr : SockaddrIn) (sock : UdpSock) : Obs → List SimpleNameData
  | .sendto _ f a => if sock.addr clientaddr = some a then [f] else []
  | _ => []

namespace Border

variable {N : Type}

/-- The datagram that arrives. -/
def datagram (s : Border) (sock : UdpSock) (k : Option ℕ) : List UInt8 :=
  match k.bind fun k => (s.wire sock)[k]? with
  | some f => f.bytes
  | none => []

/-- A coroutine of the adaptor runs. -/
def resume (clientaddr : SockaddrIn) (s : Border) (ev : Event) :
    Except Fault (Border × List (BorderObs N)) := do
  let (a, o) ← Adaptor.step s.adaptor ev
  .ok (⟨a, fun sock => s.wire sock ++ o.flatMap (Obs.sends clientaddr sock)⟩, o.map .adaptor)

/-- The application sends a frame. -/
def put (s : Border) (sock : UdpSock) (f : SimpleNameData) : Border :=
  { s with wire := Function.update s.wire sock (s.wire sock ++ [f]) }

theorem mem_put {s : Border} {sock sock' : UdpSock} {f g : SimpleNameData}
    (h : g ∈ (s.put sock f).wire sock') : g ∈ s.wire sock' ∨ sock' = sock ∧ g = f := by
  have hg : g ∈ Function.update s.wire sock (s.wire sock ++ [f]) sock' := h
  by_cases hsock : sock' = sock
  · subst hsock
    rw [Function.update_self, List.mem_append, List.mem_singleton] at hg
    exact hg.imp_right fun hgf => ⟨rfl, hgf⟩
  · rw [Function.update_of_ne hsock] at hg
    exact Or.inl hg

theorem mem_put_of_mem {s : Border} {sock sock' : UdpSock} {f g : SimpleNameData}
    (h : f ∈ s.wire sock') : f ∈ (s.put sock g).wire sock' := by
  show f ∈ Function.update s.wire sock (s.wire sock ++ [g]) sock'
  by_cases hsock : sock' = sock
  · subst hsock
    rw [Function.update_self]
    exact List.mem_append_left _ h
  · rwa [Function.update_of_ne hsock]

/-- One step of the system; `clientaddr` is the address of the socket that the application sends its
Interests from. -/
def step (X : NdnCxx N) (clientaddr : SockaddrIn) : Step Border (BorderEvent N) (BorderObs N) Fault
  | s, .resume ev => s.resume clientaddr ev
  | s, .interestIn k alloc =>
      s.resume clientaddr (.udpInterestIn (s.datagram .simtoreal (some k)) clientaddr alloc)
  | s, .dataIn k alloc =>
      s.resume clientaddr (.udpDataIn (s.datagram .realtosim (some k)) alloc)
  | s, .tick recvBuf interest data => do
      let ps ← X.receivePackets recvBuf (s.datagram .interest interest)
        (s.datagram .data data)
      .ok (s, ps.map .sent)
  | s, .onInterest namedata name => do
      let f ← X.sendUDPInterest namedata name
      .ok (s.put .simtoreal f, [.onInterest name])
  | s, .onData namedata name content => do
      let f ← X.sendUDPData namedata name content
      .ok (s.put .realtosim f, [.onData name content])
  | s, .onNack namedata name => do
      let f ← X.sendUDPNack namedata name
      .ok (s.put .realtosim f, [.onNack name])

/-- The system after `init_adaptor` and the constructor of the application. -/
def init (blocks : Fin 16 → SimpleNameData) (junk : ℕ → NutEntry) : Border :=
  ⟨Adaptor.initAdaptor blocks junk, fun _ => []⟩

/-! ### What a step can do -/

/-- The event of the adaptor in an event of the system. -/
def adaptorEvent (clientaddr : SockaddrIn) (s : Border) : BorderEvent N → Option Event
  | .resume ev => some ev
  | .interestIn k alloc =>
      some (.udpInterestIn (s.datagram .simtoreal (some k)) clientaddr alloc)
  | .dataIn k alloc => some (.udpDataIn (s.datagram .realtosim (some k)) alloc)
  | _ => none

/-- A step of the system. -/
inductive Turn (X : NdnCxx N) (clientaddr : SockaddrIn) (s : Border) :
    BorderEvent N → Border → List (BorderObs N) → Prop
  | adaptor {e : BorderEvent N} {ev : Event} {a : Adaptor} {o : List Obs}
      (he : s.adaptorEvent clientaddr e = some ev) (hs : Adaptor.step s.adaptor ev = .ok (a, o)) :
      Turn X clientaddr s e ⟨a, fun sock => s.wire sock ++ o.flatMap (Obs.sends clientaddr sock)⟩
        (o.map .adaptor)
  | tick {recvBuf : SimpleNameData} {interest data : Option ℕ} {ps : List (Packet N)}
      (hps : X.receivePackets recvBuf (s.datagram .interest interest)
        (s.datagram .data data) = .ok ps) :
      Turn X clientaddr s (.tick recvBuf interest data) s (ps.map .sent)
  | onInterest {d f : SimpleNameData} {name : N} (hf : X.sendUDPInterest d name = .ok f) :
      Turn X clientaddr s (.onInterest d name) (s.put .simtoreal f) [.onInterest name]
  | onData {d f : SimpleNameData} {name : N} {content : List UInt8}
      (hf : X.sendUDPData d name content = .ok f) :
      Turn X clientaddr s (.onData d name content) (s.put .realtosim f) [.onData name content]
  | onNack {d f : SimpleNameData} {name : N} (hf : X.sendUDPNack d name = .ok f) :
      Turn X clientaddr s (.onNack d name) (s.put .realtosim f) [.onNack name]

section Steps

variable {X : NdnCxx N} {clientaddr : SockaddrIn} {s s' : Border} {e : BorderEvent N}
  {o : List (BorderObs N)} {d f : SimpleNameData}

theorem step_turn (h : step X clientaddr s e = .ok (s', o)) : Turn X clientaddr s e s' o := by
  have hresume : ∀ {ev : Event}, s.adaptorEvent clientaddr e = some ev →
      s.resume clientaddr ev = .ok (s', o) → Turn X clientaddr s e s' o := by
    intro ev he h
    obtain ⟨⟨a, o'⟩, hs, h⟩ := bind_eq_ok h
    cases h
    exact .adaptor he hs
  cases e with
  | resume ev => exact hresume rfl h
  | interestIn k alloc => exact hresume rfl h
  | dataIn k alloc => exact hresume rfl h
  | tick recvBuf interest data =>
    obtain ⟨ps, hps, h⟩ := bind_eq_ok h
    cases h
    exact .tick hps
  | onInterest d name =>
    obtain ⟨f, hf, h⟩ := bind_eq_ok h
    cases h
    exact .onInterest hf
  | onData d name content =>
    obtain ⟨f, hf, h⟩ := bind_eq_ok h
    cases h
    exact .onData hf
  | onNack d name =>
    obtain ⟨f, hf, h⟩ := bind_eq_ok h
    cases h
    exact .onNack hf

/-- What arrives has been sent. -/
theorem datagram_cases (s : Border) (sock : UdpSock) (k : Option ℕ) :
    s.datagram sock k = [] ∨ ∃ f ∈ s.wire sock, s.datagram sock k = f.bytes := by
  unfold datagram
  split
  · rename_i f hf
    obtain ⟨i, -, hi⟩ := Option.bind_eq_some_iff.1 hf
    exact Or.inr ⟨f, List.mem_of_getElem? hi, rfl⟩
  · exact Or.inl rfl

/-- A datagram of a whole frame makes the buffer that frame. -/
theorem memcpy_bytes (d f : SimpleNameData) : d.memcpy f.bytes = .ok f := by
  have hfit : f.bytes.length ≤ frameSize := f.size_eq.le
  obtain ⟨f', hf'⟩ := d.memcpy_of_le hfit
  have hbytes : f'.bytes = f.bytes := by
    obtain ⟨-, hsplice⟩ := SimpleNameData.store_eq_ok hf'
    rw [hsplice, Bytes.splice]
    simp [List.drop_of_length_le, d.size_eq, f.size_eq]
  rw [hf']
  cases f
  cases f'
  cases hbytes
  rfl

/-- A datagram that has arrived is a whole frame, and a receive buffer of that size holds it. -/
theorem datagram_frame (s : Border) (sock : UdpSock) (k : Option ℕ) (d : SimpleNameData) {n : ℕ}
    (hn : 2048 ≤ n) : s.datagram sock k = [] ∨ s.datagram sock k ≠ [] ∧
      ∃ f ∈ s.wire sock, d.memcpy ((s.datagram sock k).take n) = .ok f := by
  rcases s.datagram_cases sock k with hnil | ⟨f, hf, hq⟩
  · exact Or.inl hnil
  · have hlen := f.size_eq
    unfold frameSize at hlen
    rw [hq]
    refine Or.inr ⟨fun hnil => ?_, f, hf, ?_⟩
    · rw [hnil] at hlen
      cases hlen
    · rw [List.take_of_length_le (by omega), memcpy_bytes]

/-- What `ScheduleNextTick` sends it makes of datagrams that have arrived. -/
theorem mem_receivePackets {i j : Option ℕ} {ps : List (Packet N)} {p : Packet N}
    (h : X.receivePackets d (s.datagram .interest i) (s.datagram .data j) = .ok ps)
    (hp : p ∈ ps) :
    (∃ f ∈ s.wire .interest, X.sendNDNInterest f = .ok p) ∨
      ∃ f ∈ s.wire .data, X.sendNDNData f = .ok p := by
  -- The second half: what is sent already, and a Data packet
  have hdata : ∀ {b : SimpleNameData} {ps₁ : List (Packet N)},
      (do
        let recvBuf ← b.memcpy ((s.datagram .data j).take 2048)
        if s.datagram .data j = [] then .ok ps₁
        else do
          let p ← X.sendNDNData recvBuf
          .ok (ps₁ ++ [p])) = .ok ps →
      p ∈ ps₁ ∨ ∃ f ∈ s.wire .data, X.sendNDNData f = .ok p := by
    intro b ps₁ h
    obtain ⟨b', hb', h⟩ := bind_eq_ok h
    rcases s.datagram_frame .data j b le_rfl with hnil | ⟨hne, f, hf, hcopy⟩
    · rw [if_pos hnil] at h
      cases h
      exact Or.inl hp
    · rw [if_neg hne] at h
      obtain ⟨p', hp', h⟩ := bind_eq_ok h
      cases h
      rw [← Except.ok.inj (hcopy.symm.trans hb')] at hp'
      rcases List.mem_append.1 hp with hp | hp
      · exact Or.inl hp
      · rw [List.mem_singleton] at hp
        subst hp
        exact Or.inr ⟨f, hf, hp'⟩
  obtain ⟨b, hb, h⟩ := bind_eq_ok h
  rcases s.datagram_frame .interest i d le_rfl with hnil | ⟨hne, f, hf, hcopy⟩
  · simp only [if_pos hnil, ok_bind] at h
    rcases hdata h with hp | hp
    · cases hp
    · exact Or.inr hp
  · simp only [if_neg hne] at h
    obtain ⟨p', hp', h⟩ := bind_eq_ok h
    rw [← Except.ok.inj (hcopy.symm.trans hb)] at hp'
    rcases hdata h with hp | hp
    · rw [List.mem_singleton] at hp
      subst hp
      exact Or.inl ⟨f, hf, hp'⟩
    · exact Or.inr hp

/-- The name that is read from a frame. -/
theorem parseName_eq_ok {P : N} {k : ℕ} (h : X.parseName f = .ok (P, k)) : ∃ p c,
    f.name = p ++ slash :: c ∧ slash ∉ c ∧ X.ofUri (cstr p) = some P ∧ k = componentSeq c := by
  obtain ⟨⟨p, c⟩, hsplit, h⟩ := bind_eq_ok h
  obtain ⟨i, hi, -⟩ := bind_eq_ok hsplit
  obtain ⟨hn, -, hscan⟩ := lastSlash_eq_ok hi
  obtain ⟨-, -, q, hq, hslash⟩ := scanFrom_eq_ok hscan
  have hname : f.name = f.buf.take i ++ slash :: q := hq
  rw [splitName_eq hn hname hslash] at hsplit
  split at hsplit
  · cases hsplit
    refine ⟨_, _, hname, hslash, ?_⟩
    rcases huri : X.ofUri (cstr (f.buf.take i)) with _ | P'
    · simp only [huri, reduceCtorEq] at h
    · simp only [huri, Except.ok.injEq, Prod.mk.injEq] at h
      obtain ⟨rfl, rfl⟩ := h
      exact ⟨rfl, rfl⟩
  · cases hsplit

end Steps

/-! ### Histories -/

@[simp] theorem adaptorPart_append (h o : List (BorderObs N)) :
    adaptorPart (h ++ o) = adaptorPart h ++ adaptorPart o := List.filterMap_append

@[simp] theorem adaptorPart_map (o : List Obs) :
    adaptorPart (o.map (BorderObs.adaptor : Obs → BorderObs N)) = o := by
  simp [adaptorPart, List.filterMap_map]

@[simp] theorem adaptorPart_sent (ps : List (Packet N)) : adaptorPart (ps.map .sent) = [] := by
  simp [adaptorPart, List.filterMap_map]

theorem mem_adaptorPart {h : List (BorderObs N)} {x : Obs} : x ∈ adaptorPart h ↔ .adaptor x ∈ h := by
  induction h with
  | nil => simp [adaptorPart]
  | cons y h ih =>
    cases y with
    | adaptor z =>
      have hcons : adaptorPart (.adaptor z :: h) = z :: adaptorPart h := rfl
      simp [hcons, ih]
    | _ => simpa [adaptorPart] using ih

end Border

end MixSim
