import MixSim.Adaptor.Lfq
import MixSim.Adaptor.NameUdpTable
import MixSim.Library.Execution

/-!
# The eight coroutines of the adaptor

`init_adaptor` starts eight coroutines on one scheduler thread. Four of them receive (from the
network stack or from a socket), fill a buffer and put it on a forwarding queue; the other four take
buffers off, send them and give them back to `freebuf_list`. The buffers are numbered, `mem` holds
their contents.

A step resumes one coroutine and runs it to its next `dyco_*` call. The environment chooses the
coroutine (`Event`), what was received, what `isend` and `waitWrite` return, and what the allocator
does (`Alloc`). `dyco_sendto` may suspend its caller before the datagram leaves and after it, so a
call of it is two steps. Where the program could also run on without a switch, the next event
resumes the same coroutine: the steps allow every schedule of the program.

A step also says what it did that the outside or a later argument can see (`Obs`); these
observations are no part of the state.
-/

namespace MixSim

open Bytes Execution

/-! ### State -/

/-- The forwarding queues. Each has one producing and one consuming coroutine. -/
inductive FwdQueue
  | realtosimInterest
  | simtorealInterest
  | simtorealData
  | realtosimData
  deriving DecidableEq

instance : Fintype FwdQueue where
  elems := {.realtosimInterest, .simtorealInterest, .simtorealData, .realtosimData}
  complete q := by cases q <;> decide

/-- Where a coroutine stands inside `dyco_sendto`: the datagram has yet to leave, or has left. -/
inductive SendPhase
  | before
  | after
  deriving DecidableEq

/-- The globals of `adaptor.c`, the buffers, and the locals that a coroutine keeps while it is
suspended: `held q` is the buffer in the hands of the consumer of `q` (`interest`, `interestbuf`,
`databuf`, `data`), the rest belongs to `udp_interest_out` and `udp_data_out`. -/
structure Adaptor where
  mem : List SimpleNameData
  freebufList : Lfq ℕ
  queue : FwdQueue → Lfq ℕ
  nutTable : Nut
  held : FwdQueue → Option ℕ
  interestPhase : SendPhase
  dataPhase : SendPhase
  entry : NutEntryPtr
  i : ℕ

/-- What `malloc(sizeof(simple_name_data))` returns (the block has arbitrary contents), whether the
`calloc` of a queue node succeeds, and what the `malloc` of `nut_grow` returns. -/
structure Alloc where
  malloc : Option SimpleNameData
  calloc : Bool
  grow : Option (ℕ → NutEntry)

/-- `MAX_NAME_LEN`. -/
def maxNameLen : ℕ := 1024

/-- `MAX_DATA_LEN`. -/
def maxDataLen : ℕ := 2048

/-- `D_NACK`. -/
def dNack : UInt8 := 1

/-- `struct isockbuf` as `irecv` leaves it, with the arrays its pointers point to. -/
structure Isockbuf where
  name : List UInt8
  nlen : UInt16
  data : List UInt8
  dlen : UInt64
  dType : UInt8
  name_size : name.length = maxNameLen
  data_size : data.length = maxDataLen

/-- The resumption of a coroutine, with what its environment answers. A receive that returns no
bytes, or an error, is `none` or the empty datagram. -/
inductive Event
  | nipInterestIn (irecv : Option Isockbuf) (alloc : Alloc)
  | nipDataIn (irecv : Option Isockbuf) (alloc : Alloc)
  | nipInterestOut (waitWrite : Bool) (isend : ℤ) (calloc : Bool)
  | nipDataOut (waitWrite : Bool) (isend : ℤ) (calloc : Bool)
  | udpInterestIn (datagram : List UInt8) (clientaddr : SockaddrIn) (alloc : Alloc)
  | udpDataIn (datagram : List UInt8) (alloc : Alloc)
  | udpInterestOut (calloc : Bool)
  | udpDataOut (calloc : Bool)

/-- A message: a name, and a content where it is Data. -/
structure Message where
  name : List UInt8
  content : List UInt8
  deriving DecidableEq

/-- What a step did: a message came in for a queue, a frame was put on it or taken off, a frame was
sent, its handling ended, `nut_set` returned. -/
inductive Obs
  | recv (q : FwdQueue) (m : Message)
  | enqueue (q : FwdQueue) (f : SimpleNameData)
  | dequeue (q : FwdQueue) (f : SimpleNameData)
  | isend (q : FwdQueue) (m : Message) (ret : ℤ)
  | sendto (q : FwdQueue) (f : SimpleNameData) (addr : SockaddrIn)
  | done (q : FwdQueue) (f : SimpleNameData)
  | nutSet (name : List UInt8) (addr : SockaddrIn) (ret : ℤ)
  deriving DecidableEq

/-! ### Filling a buffer from `irecv` -/

/-- Read the first `n` bytes of an array. -/
def readArray (a : List UInt8) (n : ℕ) : Except Fault (List UInt8) :=
  if n ≤ a.length then .ok (a.take n) else .error .outOfBounds

/-- How `nip_interest_in` fills a buffer. -/
def fillInterest (ibuf : Isockbuf) (interest : SimpleNameData) : Except Fault SimpleNameData := do
  let interest := interest.setNlen ibuf.nlen.toNat
  let name ← readArray ibuf.name interest.nlen
  let interest ← interest.writeBuf 0 name
  .ok (interest.setDlen 0)

/-- How `nip_data_in` fills a buffer: a NACK becomes Data with empty content. -/
def fillData (ibuf : Isockbuf) (data : SimpleNameData) : Except Fault SimpleNameData := do
  let data := data.setNlen ibuf.nlen.toNat
  let name ← readArray ibuf.name data.nlen
  let data ← data.writeBuf 0 name
  if ibuf.dType = dNack then
    .ok (data.setDlen 0)
  else
    let data := data.setDlen ibuf.dlen.toNat
    let content ← readArray ibuf.data data.dlen
    data.writeBuf data.nlen content

/-! ### Messages -/

/-- Interests are known by their name alone. -/
def FwdQueue.isData : FwdQueue → Bool
  | .realtosimInterest | .simtorealInterest => false
  | .simtorealData | .realtosimData => true

/-- The message in a frame of the queue. -/
def FwdQueue.message (q : FwdQueue) (f : SimpleNameData) : Message :=
  ⟨f.name, if q.isData then f.content else []⟩

/-- The message in a datagram for the queue. -/
def FwdQueue.dgramMessage (q : FwdQueue) (bs : List UInt8) : Message :=
  ⟨dgramName bs, if q.isData then dgramContent bs else []⟩

/-- The Interest that `irecv` has received. -/
def Isockbuf.interest (ibuf : Isockbuf) : Message := ⟨ibuf.name.take ibuf.nlen.toNat, []⟩

/-- The Data that `irecv` has received. -/
def Isockbuf.content (ibuf : Isockbuf) : Message :=
  ⟨ibuf.name.take ibuf.nlen.toNat,
    if ibuf.dType = dNack then [] else ibuf.data.take ibuf.dlen.toNat⟩

/-! ### Buffers -/

namespace Adaptor

/-- Read a buffer. -/
def read (s : Adaptor) (b : ℕ) : Except Fault SimpleNameData :=
  match s.mem[b]? with
  | some f => .ok f
  | none => .error .badPointer

/-- The contents of a buffer, for the observations. -/
def frame (s : Adaptor) (b : ℕ) : SimpleNameData := s.mem.getD b .zero

/-- `lfq_dequeue(&freebuf_list)`, and `malloc` when there is no free buffer. -/
def freeBuffer (s : Adaptor) (malloc : Option SimpleNameData) : Except Fault (Adaptor × ℕ) :=
  let r := s.freebufList.dequeue
  let s := { s with freebufList := r.1 }
  match r.2 with
  | .data b => .ok (s, b)
  | .minusOne => .error .badPointer
  | .null =>
      match malloc with
      | some d => .ok ({ s with mem := s.mem ++ [d] }, s.mem.length)
      | none => .error .outOfMemory

/-- Get a buffer and fill it. -/
def fillBuffer (s : Adaptor) (malloc : Option SimpleNameData)
    (fill : SimpleNameData → Except Fault SimpleNameData) :
    Except Fault (Adaptor × ℕ × SimpleNameData) := do
  let (s, b) ← s.freeBuffer malloc
  let d ← s.read b
  let f ← fill d
  .ok ({ s with mem := s.mem.set b f }, b, f)

/-- `lfq_enqueue` on a forwarding queue. -/
def put (s : Adaptor) (q : FwdQueue) (b : ℕ) (f : SimpleNameData) (calloc : Bool) :
    Adaptor × List Obs :=
  ({ s with queue := Function.update s.queue q ((s.queue q).enqueue b calloc) },
    if calloc then [.enqueue q f] else [])

/-- `lfq_dequeue` on a forwarding queue. -/
def take (s : Adaptor) (q : FwdQueue) : Except Fault (Adaptor × Option (ℕ × SimpleNameData)) :=
  let r := (s.queue q).dequeue
  let s := { s with queue := Function.update s.queue q r.1 }
  match r.2 with
  | .null => .ok (s, none)
  | .minusOne => .error .badPointer
  | .data b => do
      let f ← s.read b
      .ok ({ s with held := Function.update s.held q (some b) }, some (b, f))

/-- `lfq_enqueue(&freebuf_list, …)` by the consumer of `q`. -/
def release (s : Adaptor) (q : FwdQueue) (b : ℕ) (calloc : Bool) : Adaptor :=
  { s with
    freebufList := s.freebufList.enqueue b calloc
    held := Function.update s.held q none }

/-! ### The coroutines of `nip_adaptor.c` -/

/-- One turn of a coroutine that receives, fills a buffer and puts it on its queue. -/
def receive (s : Adaptor) (q : FwdQueue) (m : Message)
    (fill : SimpleNameData → Except Fault SimpleNameData) (alloc : Alloc) :
    Except Fault (Adaptor × List Obs) := do
  let (s, b, f) ← s.fillBuffer alloc.malloc fill
  let (s, o) := s.put q b f alloc.calloc
  .ok (s, .recv q m :: o)

/-- `nip_interest_in`. -/
def nipInterestIn (s : Adaptor) (irecv : Option Isockbuf) (alloc : Alloc) :
    Except Fault (Adaptor × List Obs) :=
  match irecv with
  | none => .ok (s, [])
  | some ibuf => s.receive .realtosimInterest ibuf.interest (fillInterest ibuf) alloc

/-- `nip_data_in`. -/
def nipDataIn (s : Adaptor) (irecv : Option Isockbuf) (alloc : Alloc) :
    Except Fault (Adaptor × List Obs) :=
  match irecv with
  | none => .ok (s, [])
  | some ibuf => s.receive .realtosimData ibuf.content (fillData ibuf) alloc

/-- One turn of a coroutine that sends the frames of its queue with `isend`, `dlen` bytes of content
each: without a frame it takes one off and calls `waitWrite`; with one it sends it when `waitWrite`
has returned a positive number. A name longer than `buf` is a fault already where the pointer to the
content behind it is formed. -/
def isendFrames (s : Adaptor) (q : FwdQueue) (dlen : SimpleNameData → ℕ) (waitWrite : Bool)
    (isend : ℤ) (calloc : Bool) : Except Fault (Adaptor × List Obs) := do
  match s.held q with
  | none =>
      match ← s.take q with
      | (s, none) => .ok (s, [])
      | (s, some (_, f)) => .ok (s, [.dequeue q f])
  | some b =>
      if !waitWrite then
        .ok (s, [])
      else do
        let f ← s.read b
        -- the field `nlen` of `struct isockbuf` has 16 bits
        let name ← f.readBuf 0 (f.nlen % 2 ^ 16)
        let content ← f.readBuf f.nlen (dlen f)
        .ok (s.release q b calloc, [.isend q ⟨name, content⟩ isend, .done q f])

/-- `nip_interest_out`. -/
def nipInterestOut (s : Adaptor) (waitWrite : Bool) (isend : ℤ) (calloc : Bool) :
    Except Fault (Adaptor × List Obs) :=
  s.isendFrames .simtorealInterest (fun _ => 0) waitWrite isend calloc

/-- `nip_data_out`. -/
def nipDataOut (s : Adaptor) (waitWrite : Bool) (isend : ℤ) (calloc : Bool) :
    Except Fault (Adaptor × List Obs) :=
  s.isendFrames .simtorealData SimpleNameData.dlen waitWrite isend calloc

/-! ### The coroutines of `udp_adaptor.c` -/

/-- `udp_data_in`. -/
def udpDataIn (s : Adaptor) (datagram : List UInt8) (alloc : Alloc) :
    Except Fault (Adaptor × List Obs) :=
  let buf := datagram.take 4096
  if buf.length = 0 then .ok (s, [])
  else s.receive .simtorealData (FwdQueue.simtorealData.dgramMessage buf) (·.memcpy buf) alloc

/-- The address of the simulator: 192.168.3.168, port 8787, in network byte order. -/
def serveraddr : SockaddrIn := ⟨2, 0x5322, 0xA803A8C0⟩

/-- `udp_interest_out`. -/
def udpInterestOut (s : Adaptor) (calloc : Bool) : Except Fault (Adaptor × List Obs) := do
  match s.held .realtosimInterest with
  | none =>
      match ← s.take .realtosimInterest with
      | (s, none) => .ok (s, [])
      | (s, some (_, f)) =>
          .ok ({ s with interestPhase := .before }, [.dequeue .realtosimInterest f])
  | some b =>
      match s.interestPhase with
      | .before => do
          let f ← s.read b
          .ok ({ s with interestPhase := .after }, [.sendto .realtosimInterest f serveraddr])
      | .after =>
          .ok (s.release .realtosimInterest b calloc, [.done .realtosimInterest (s.frame b)])

/-- `udp_interest_in`. -/
def udpInterestIn (s : Adaptor) (datagram : List UInt8) (clientaddr : SockaddrIn) (alloc : Alloc) :
    Except Fault (Adaptor × List Obs) := do
  let buf := datagram.take 2048
  if buf.length = 0 then .ok (s, [])
  else do
    let (s, b, f) ← s.fillBuffer alloc.malloc (·.memcpy buf)
    let (t, ret) ← nutSet s.nutTable f.buf (asInt f.nlen) clientaddr alloc.grow
    let s := { s with nutTable := t }
    let o := [.recv .simtorealInterest (FwdQueue.simtorealInterest.dgramMessage buf),
      .nutSet f.name clientaddr ret]
    if ret = 1 then
      let (s, o') := s.put .simtorealInterest b f alloc.calloc
      .ok (s, o ++ o')
    else .ok (s, o)

/-- `entry->addr[i]`. -/
def nutAddr (t : Nut) (entry : NutEntryPtr) (i : ℕ) : Except Fault SockaddrIn := do
  let e ← nutDeref t entry
  match e.addr[i]? with
  | some a => .ok a
  | none => .error .outOfBounds

/-- The test of the loop of `udp_data_out` and what follows it: the next `dyco_sendto`, or the end
of the handling of `data`. -/
def udpDataLoop (s : Adaptor) (data : ℕ) (i : ℕ) (calloc : Bool) :
    Except Fault (Adaptor × List Obs) := do
  let e ← nutDeref s.nutTable s.entry
  if i < e.addrNum then
    .ok ({ s with i := i, dataPhase := .before }, [])
  else do
    let t ← nutDel s.nutTable s.entry
    .ok ({ s with nutTable := t }.release .realtosimData data calloc,
      [.done .realtosimData (s.frame data)])

/-- `udp_data_out`. -/
def udpDataOut (s : Adaptor) (calloc : Bool) : Except Fault (Adaptor × List Obs) := do
  match s.held .realtosimData with
  | none =>
      match ← s.take .realtosimData with
      | (s, none) => .ok (s, [])
      | (s, some (b, f)) =>
          match ← nutGet s.nutTable f.buf (asInt f.nlen) with
          | none =>
              -- `continue`, without giving the buffer back
              .ok ({ s with held := Function.update s.held .realtosimData none },
                [.dequeue .realtosimData f])
          | some entry => do
              let (s, o) ← { s with entry := entry }.udpDataLoop b 0 calloc
              .ok (s, .dequeue .realtosimData f :: o)
  | some b =>
      match s.dataPhase with
      | .before => do
          let addr ← nutAddr s.nutTable s.entry s.i
          let f ← s.read b
          .ok ({ s with dataPhase := .after }, [.sendto .realtosimData f addr])
      | .after => do
          -- `printf` of the address just sent to
          let _ ← nutAddr s.nutTable s.entry s.i
          s.udpDataLoop b (s.i + 1) calloc

/-! ### Runs -/

/-- Resume one coroutine. -/
def step : Step Adaptor Event Obs Fault
  | s, .nipInterestIn irecv alloc => s.nipInterestIn irecv alloc
  | s, .nipDataIn irecv alloc => s.nipDataIn irecv alloc
  | s, .nipInterestOut waitWrite isend calloc => s.nipInterestOut waitWrite isend calloc
  | s, .nipDataOut waitWrite isend calloc => s.nipDataOut waitWrite isend calloc
  | s, .udpInterestIn datagram clientaddr alloc => s.udpInterestIn datagram clientaddr alloc
  | s, .udpDataIn datagram alloc => s.udpDataIn datagram alloc
  | s, .udpInterestOut calloc => s.udpInterestOut calloc
  | s, .udpDataOut calloc => s.udpDataOut calloc

/-- `init_adaptor`, with its allocations successful: `blocks` and `junk` are what the memory of the
16 buffers and of the table holds. -/
def initAdaptor (blocks : Fin 16 → SimpleNameData) (junk : ℕ → NutEntry) : Adaptor where
  mem := List.ofFn blocks
  freebufList := (List.range 16).foldl (fun q b => q.enqueue b true) (Lfq.init ℕ 0)
  queue := fun _ => Lfq.init ℕ 0
  nutTable := nutCreate 64 junk
  held := fun _ => none
  interestPhase := .before
  dataPhase := .before
  entry := ⟨0, 0⟩
  i := 0

end Adaptor

/-! ### Inputs for runs -/

/-- A datagram with the name `bs` and no content. -/
def nameDgram (bs : List UInt8) : List UInt8 := toLE 4 bs.length ++ toLE 4 0 ++ bs

/-- What `irecv` reports for the name `bs` of at most 1024 bytes and `dlen` zeros of content. -/
def nameIbuf (bs : List UInt8) (dlen : UInt64) : Isockbuf where
  name := (bs ++ List.replicate 1024 0).take 1024
  nlen := bs.length.toUInt16
  data := List.replicate 2048 0
  dlen := dlen
  dType := 0
  name_size := by
    rw [List.length_take, List.length_append, List.length_replicate]
    exact min_eq_left (Nat.le_add_left _ _)
  data_size := by
    rw [List.length_replicate, maxDataLen]

/-- Allocations that succeed and hand out zeroed memory. -/
def allocOk : Alloc := ⟨some .zero, true, some fun _ => .zero⟩

/-- Two requesters ask for a name, the Interest goes out, and the Data goes back to both. -/
def exchange : List Event :=
  [.udpInterestIn (nameDgram [47, 97]) ⟨2, 1, 1⟩ allocOk,
    .udpInterestIn (nameDgram [47, 97]) ⟨2, 2, 2⟩ allocOk, .nipInterestOut true 1 true,
    .nipInterestOut true 1 true, .nipDataIn (some (nameIbuf [47, 97] 3)) allocOk,
    .udpDataOut true, .udpDataOut true, .udpDataOut true, .udpDataOut true, .udpDataOut true]

/-! ### Histories -/

/-- What an observation puts on a queue. -/
def Obs.puts (q : FwdQueue) : Obs → List SimpleNameData
  | .enqueue q' f => if q' = q then [f] else []
  | _ => []

/-- What an observation takes off a queue. -/
def Obs.takes (q : FwdQueue) : Obs → List SimpleNameData
  | .dequeue q' f => if q' = q then [f] else []
  | _ => []

/-- What an observation brings in for a queue. -/
def Obs.receives (q : FwdQueue) : Obs → List Message
  | .recv q' m => if q' = q then [m] else []
  | _ => []

/-- The frames put on a queue. -/
def enqueued (q : FwdQueue) (h : List Obs) : List SimpleNameData := h.flatMap (Obs.puts q)

/-- The frames taken off a queue. -/
def dequeued (q : FwdQueue) (h : List Obs) : List SimpleNameData := h.flatMap (Obs.takes q)

/-- The messages that came in for a queue. -/
def received (q : FwdQueue) (h : List Obs) : List Message := h.flatMap (Obs.receives q)

end MixSim
