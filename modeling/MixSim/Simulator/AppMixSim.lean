import MixSim.Frame
import MixSim.Library.CText

/-!
# `AppMixSim`, the application at the border of the simulation

`SendUDPInterest`, `SendUDPData` and `SendUDPNack` turn a packet of the simulation into a frame: they
print the name without its last component, a slash and the sequence number into `buf`.
`SendNDNInterest`, `SendNDNData` and `SendNDNNack` turn a received frame into a packet: they look for
the last slash of the name, copy what is before and behind it into two arrays, and read the number.

What the application uses of the classes `Name` and `Data` of ndn-cxx is a parameter (`NdnCxx`).
-/

namespace MixSim

open CText

/-- What is used of `Name`: `name.toUri()`, `Name(text)` (`none` where it throws),
`name.appendSequenceNumber(seq)`, `name.at(-1).toSequenceNumber()` (`none` where it throws),
`name.getPrefix(-1)`; and of `Data`: the bytes `getContent().data()`, of which there are
`getContent().size()`, after `setContent` of some bytes. -/
structure NdnCxx (N : Type) where
  toUri : N → List UInt8
  ofUri : List UInt8 → Option N
  appendSequenceNumber : N → ℕ → N
  toSequenceNumber : N → Option ℕ
  getPrefix : N → N
  getContent : List UInt8 → List UInt8

/-- The packets of the simulation; the content of a Data is what `setContent` was given. -/
inductive Packet (N : Type)
  | interest (name : N)
  | data (name : N) (content : List UInt8)
  | nack (name : N)
  deriving DecidableEq

/-- The name of a packet. -/
def Packet.name {N : Type} : Packet N → N
  | .interest name | .data name _ | .nack name => name

/-- The content of a packet; only a Data has one. -/
def Packet.content {N : Type} : Packet N → List UInt8
  | .data _ content => content
  | .interest _ | .nack _ => []

def Packet.IsData {N : Type} : Packet N → Prop
  | .data _ _ => True
  | .interest _ | .nack _ => False

/-- The character `/`. -/
def slash : UInt8 := 47

/-! ### From the simulation to a frame -/

/-- What `snprintf` returns for a text of `n` bytes: its whole length, stored or not, and a negative
number where that is no `int`. -/
def snprintfResult (n : ℕ) : ℤ := if n < 2 ^ 31 then n else -1

/-- `namedata.nlen = snprintf(namedata.buf, size, …)` of a text: the array takes at most `size` bytes
of it with a terminating zero. -/
def snprintf (namedata : SimpleNameData) (size : ℕ) (text : List UInt8) :
    Except Fault SimpleNameData := do
  let namedata ← namedata.writeBuf 0 (text.take (size - 1) ++ [0])
  .ok (namedata.setNlen (toUInt32 (snprintfResult text.length)))

namespace NdnCxx

variable {N : Type} (X : NdnCxx N)

/-- The text `"%s/%u"` of a name and a sequence number. -/
def nameText (name : N) (seq : ℕ) : List UInt8 := cstr (X.toUri name) ++ slash :: decimal seq

/-- How the three functions fill `buf` and `nlen`; the sequence number becomes a `uint32_t`. -/
def writeName (namedata : SimpleNameData) (name : N) : Except Fault SimpleNameData :=
  match X.toSequenceNumber name with
  | none => .error .uncaught
  | some seq => snprintf namedata 1024 (X.nameText (X.getPrefix name) (seq % 2 ^ 32))

/-- The frame of `SendUDPInterest`; `namedata` is the uninitialised local. -/
def sendUDPInterest (namedata : SimpleNameData) (name : N) : Except Fault SimpleNameData := do
  let namedata ← X.writeName namedata name
  .ok (namedata.setDlen 0)

/-- The frame of `SendUDPData`; `content` are the bytes `getContent().data()`, of which there are
`getContent().size()`. -/
def sendUDPData (namedata : SimpleNameData) (name : N) (content : List UInt8) :
    Except Fault SimpleNameData := do
  let namedata ← X.writeName namedata name
  let namedata := namedata.setDlen content.length
  namedata.writeBuf namedata.nlen (content.take namedata.dlen)

/-- The frame of `SendUDPNack`. -/
def sendUDPNack (namedata : SimpleNameData) (name : N) : Except Fault SimpleNameData := do
  let namedata ← X.writeName namedata name
  .ok (namedata.setDlen 0)

end NdnCxx

/-! ### From a frame to the simulation -/

/-- The loop that looks for a slash from index `n - 1` down. An access in front of `buf`, or behind
it, is outside the array. -/
def scanFrom (buf : List UInt8) : ℕ → Except Fault ℕ
  | 0 => .error .outOfBounds
  | n + 1 =>
      match buf[n]? with
      | none => .error .outOfBounds
      | some b => if b = slash then .ok n else scanFrom buf n

/-- `for (idx = nlen - 1; buf[idx] != '/'; idx--)`: the unsigned `nlen - 1` becomes an `int`. -/
def lastSlash (f : SimpleNameData) : Except Fault ℕ :=
  let idx := asInt (f.nlen + (2 ^ 32 - 1))
  if idx < 0 then .error .outOfBounds else scanFrom f.buf (idx.toNat + 1)

/-- The sizes of the arrays `namebuf` and `seqbuf`. -/
def namebufSize : ℕ := 2048

def seqbufSize : ℕ := 10

/-- `nlen - idx` behind the slash at `idx`, an unsigned number. -/
def seqLength (f : SimpleNameData) (idx : ℕ) : ℕ := (f.nlen + 2 ^ 32 - (idx + 1)) % 2 ^ 32

/-- The texts before and behind the last slash, as they are copied into `namebuf` and `seqbuf`; each
needs room for a terminating zero. -/
def splitName (f : SimpleNameData) : Except Fault (List UInt8 × List UInt8) := do
  let idx ← lastSlash f
  let name ← f.readBuf 0 idx
  if namebufSize ≤ idx then .error .outOfBounds
  else do
    let seq ← f.readBuf (idx + 1) (seqLength f idx)
    if seqbufSize ≤ seqLength f idx then .error .outOfBounds else .ok (name, seq)

namespace NdnCxx

variable {N : Type} (X : NdnCxx N)

/-- The name and the sequence number in a frame. -/
def parseName (f : SimpleNameData) : Except Fault (N × ℕ) := do
  let (namebuf, seqbuf) ← splitName f
  let seq := toUInt32 (atoi (cstr seqbuf))
  match X.ofUri (cstr namebuf) with
  | none => .error .uncaught
  | some name => .ok (name, seq)

/-- `SendNDNInterest`. -/
def sendNDNInterest (interest : SimpleNameData) : Except Fault (Packet N) := do
  let (iname, iseq) ← X.parseName interest
  .ok (.interest (X.appendSequenceNumber iname iseq))

/-- `SendNDNData`; the bytes behind the name are given to `setContent`. -/
def sendNDNData (data : SimpleNameData) : Except Fault (Packet N) := do
  let (dname, dseq) ← X.parseName data
  let content ← data.readBuf data.nlen data.dlen
  .ok (.data (X.appendSequenceNumber dname dseq) content)

/-- `SendNDNNack`. -/
def sendNDNNack (nack : SimpleNameData) : Except Fault (Packet N) := do
  let (nname, nseq) ← X.parseName nack
  .ok (.nack (X.appendSequenceNumber nname nseq))

/-- What `ScheduleNextTick` receives and sends: at most one datagram from each socket, both into
`recv_buf`. Where there is none, `recv` leaves the buffer. -/
def receivePackets (recvBuf : SimpleNameData) (interest data : List UInt8) :
    Except Fault (List (Packet N)) := do
  let recvBuf ← recvBuf.memcpy (interest.take 2048)
  let sent ← if interest = [] then .ok [] else do
    let p ← X.sendNDNInterest recvBuf
    .ok [p]
  let recvBuf ← recvBuf.memcpy (data.take 2048)
  if data = [] then .ok sent
  else do
    let p ← X.sendNDNData recvBuf
    .ok (sent ++ [p])

end NdnCxx

/-! ### What is written -/

section Written

variable {N : Type} {X : NdnCxx N} {d f : SimpleNameData} {name : N} {text content : List UInt8}
  {n k seq size : ℕ}

/-- The length that is returned is small only for a text that is. -/
theorem snprintfResult_le (hk : k < 2 ^ 31) : toUInt32 (snprintfResult n) ≤ k ↔ n ≤ k := by
  unfold snprintfResult
  split_ifs with hn
  · rw [toUInt32_natCast (by omega)]
  · have hmax : toUInt32 (-1) = 2 ^ 32 - 1 := rfl
    rw [hmax]
    omega

theorem snprintfResult_of_lt (hn : n < 2 ^ 31) : toUInt32 (snprintfResult n) = n := by
  rw [snprintfResult, if_pos hn, toUInt32_natCast (by omega)]

/-- The array holds the text up to its own size; `nlen` is the length that is returned. -/
theorem snprintf_spec (d : SimpleNameData) (text : List UInt8) (h0 : 0 < size)
    (hsize : size ≤ bufSize) :
    ∃ f, snprintf d size text = .ok f ∧ f.nlen = toUInt32 (snprintfResult text.length) ∧
      f.buf.take (text.take (size - 1)).length = text.take (size - 1) := by
  have hlen : (text.take (size - 1) ++ [0]).length ≤ size := by
    rw [List.length_append, List.length_take, List.length_singleton]
    omega
  obtain ⟨g, hg⟩ : ∃ g, d.writeBuf 0 (text.take (size - 1) ++ [0]) = .ok g := by
    refine SimpleNameData.store_of_le ?_
    unfold bufSize at hsize
    unfold frameSize
    omega
  have hback := SimpleNameData.readBack_of_writeBuf hg
  rw [List.drop_zero, List.length_append] at hback
  refine ⟨_, by rw [snprintf, hg, ok_bind], ?_, ?_⟩
  · rw [SimpleNameData.nlen_setNlen]
    refine Nat.mod_eq_of_lt ?_
    rw [toUInt32]
    omega
  · have htake := congrArg (List.take (text.take (size - 1)).length) hback
    rw [List.take_take, min_eq_left (Nat.le_add_right _ _), List.take_left'] at htake
    · rw [SimpleNameData.buf_setNlen, htake]
    · rfl

/-- A text that fits is the name of the frame. -/
theorem name_of_snprintf (htext : text.length < size) (hsize : size ≤ bufSize) :
    ∃ f, snprintf d size text = .ok f ∧ f.nlen = text.length ∧ f.name = text := by
  obtain ⟨f, hf, hnlen, hbuf⟩ := snprintf_spec d text (by omega) hsize
  unfold bufSize at hsize
  rw [snprintfResult_of_lt (by omega)] at hnlen
  have hall : text.take (size - 1) = text := List.take_of_length_le (by omega)
  rw [hall] at hbuf
  exact ⟨f, hf, hnlen, by rw [SimpleNameData.name, hnlen, hbuf]⟩

theorem writeName_eq (hseq : X.toSequenceNumber name = some seq) :
    X.writeName d name = snprintf d 1024 (X.nameText (X.getPrefix name) (seq % 2 ^ 32)) := by
  rw [NdnCxx.writeName, hseq]

/-- Setting `dlen` leaves the name. -/
theorem name_setDlen (f : SimpleNameData) (n : ℕ) : (f.setDlen n).name = f.name := by
  rw [SimpleNameData.name, SimpleNameData.name, SimpleNameData.buf_setDlen,
    SimpleNameData.nlen_setDlen]

/-- The content is copied behind the name, if the sum of the lengths allows it. -/
theorem sendUDPData_of_writeName (h : X.writeName d name = .ok f) (content : List UInt8)
    (hfit : f.nlen + content.length % 2 ^ 32 ≤ bufSize) :
    ∃ g, X.sendUDPData d name content = .ok g ∧ g.nlen = f.nlen ∧
      g.dlen = content.length % 2 ^ 32 ∧ g.name = f.name ∧
      g.content = content.take (content.length % 2 ^ 32) := by
  have hlen : (content.take (content.length % 2 ^ 32)).length = content.length % 2 ^ 32 := by
    rw [List.length_take]
    omega
  unfold bufSize at hfit
  obtain ⟨g, hg⟩ : ∃ g, (f.setDlen content.length).writeBuf f.nlen
      (content.take (content.length % 2 ^ 32)) = .ok g := by
    refine SimpleNameData.store_of_le ?_
    rw [hlen]
    unfold frameSize
    omega
  obtain ⟨hnlen, hdlen⟩ := SimpleNameData.lens_of_writeBuf hg
  rw [SimpleNameData.nlen_setDlen] at hnlen
  rw [SimpleNameData.dlen_setDlen] at hdlen
  refine ⟨g, ?_, hnlen, hdlen, ?_, ?_⟩
  · rw [NdnCxx.sendUDPData, h, ok_bind]
    dsimp only
    rw [SimpleNameData.nlen_setDlen, SimpleNameData.dlen_setDlen, hg]
  · have hbefore := SimpleNameData.readBefore_of_writeBuf (a := 0) (n := f.nlen) hg (by omega)
    rw [List.drop_zero, List.drop_zero, SimpleNameData.buf_setDlen] at hbefore
    rw [SimpleNameData.name, hnlen, hbefore, SimpleNameData.name]
  · have hback := SimpleNameData.readBack_of_writeBuf hg
    rw [hlen] at hback
    rw [SimpleNameData.content, hnlen, hdlen, hback]

/-- Otherwise the copy runs over the end of `buf`. -/
theorem sendUDPData_overrun (h : X.writeName d name = .ok f)
    (hfit : bufSize < f.nlen + content.length % 2 ^ 32) :
    X.sendUDPData d name content = .error .outOfBounds := by
  have hlen : (content.take (content.length % 2 ^ 32)).length = content.length % 2 ^ 32 := by
    rw [List.length_take]
    omega
  rw [NdnCxx.sendUDPData, h, ok_bind]
  dsimp only
  rw [SimpleNameData.nlen_setDlen, SimpleNameData.dlen_setDlen]
  refine dif_neg ?_
  rw [hlen]
  unfold bufSize at hfit
  unfold frameSize
  omega

end Written

/-! ### The split of a name -/

section Split

variable {buf p q : List UInt8} {f : SimpleNameData} {n i : ℕ}

/-- The scan stops at the last slash. -/
theorem scanFrom_eq (h : buf.take n = p ++ slash :: q) (hq : slash ∉ q) (hn : n ≤ buf.length) :
    scanFrom buf n = .ok p.length := by
  induction n generalizing q with
  | zero => simp at h
  | succ n ih =>
    have hlt : n < buf.length := hn
    have htake : buf.take n ++ [buf[n]] = p ++ slash :: q := by
      rw [← h, List.take_add_one, List.getElem?_eq_getElem hlt]
      rfl
    rw [scanFrom, List.getElem?_eq_getElem hlt]
    rcases List.eq_nil_or_concat q with rfl | ⟨q', x, rfl⟩
    · obtain ⟨hp, hb⟩ := List.append_inj' htake rfl
      have hlen : p.length = n := by
        rw [← hp, List.length_take]
        omega
      have hslash : buf[n] = slash := by simpa using hb
      simp only [hslash, if_true, hlen]
    · rw [List.concat_eq_append] at htake hq
      have hcons : p ++ slash :: (q' ++ [x]) = (p ++ slash :: q') ++ [x] := by simp
      rw [hcons] at htake
      obtain ⟨hrest, hx⟩ := List.append_inj' htake rfl
      have hne : buf[n] ≠ slash := by
        intro hslash
        have hxs : buf[n] = x := by simpa using hx
        exact hq (by rw [← hxs, hslash]; simp)
      simp only [hne, if_false]
      exact ih hrest (fun hmem => hq (List.mem_append_left _ hmem)) hlt.le

/-- Where the scan stops, it has found the last slash. -/
theorem scanFrom_eq_ok (h : scanFrom buf n = .ok i) : n ≤ buf.length ∧ i < n ∧
    ∃ q, buf.take n = buf.take i ++ slash :: q ∧ slash ∉ q := by
  induction n with
  | zero => cases h
  | succ n ih =>
    rw [scanFrom] at h
    rcases hget : buf[n]? with _ | b
    · simp only [hget, reduceCtorEq] at h
    · have hlt : n < buf.length := (List.getElem?_eq_some_iff.1 hget).1
      simp only [hget] at h
      by_cases hb : b = slash
      · rw [if_pos hb] at h
        cases h
        refine ⟨hlt, Nat.lt_succ_self _, [], ?_, List.not_mem_nil⟩
        rw [List.take_add_one, hget, hb]
        rfl
      · rw [if_neg hb] at h
        obtain ⟨-, hi, q, hq, hslash⟩ := ih h
        refine ⟨hlt, hi.trans (Nat.lt_succ_self n), q ++ [b], ?_, ?_⟩
        · rw [List.take_add_one, hget, hq]
          simp
        · simp [hslash, Ne.symm hb]

theorem lastSlash_of_le (h0 : 0 < f.nlen) (hn : f.nlen ≤ bufSize) :
    lastSlash f = scanFrom f.buf f.nlen := by
  unfold bufSize at hn
  have hidx : asInt (f.nlen + (2 ^ 32 - 1)) = ((f.nlen - 1 : ℕ) : ℤ) := by
    have hmod : (f.nlen + (2 ^ 32 - 1)) % 2 ^ 32 = f.nlen - 1 := by omega
    rw [asInt, hmod, if_pos (by omega)]
  rw [lastSlash, hidx, if_neg (by omega), Int.toNat_natCast, Nat.sub_add_cancel h0]

/-- The loop only stops in a name that lies in `buf`. -/
theorem lastSlash_eq_ok (h : lastSlash f = .ok i) :
    f.nlen ≤ bufSize ∧ i < f.nlen ∧ scanFrom f.buf f.nlen = .ok i := by
  have hlt := f.nlen_lt
  have hmod : f.nlen ≠ 0 → (f.nlen + (2 ^ 32 - 1)) % 2 ^ 32 = f.nlen - 1 := by omega
  rw [lastSlash] at h
  by_cases hneg : asInt (f.nlen + (2 ^ 32 - 1)) < 0
  · rw [if_pos hneg] at h
    cases h
  · rw [if_neg hneg] at h
    have hpos : f.nlen ≠ 0 := by
      intro h0
      rw [h0, asInt] at hneg
      norm_num at hneg
    have hidx : asInt (f.nlen + (2 ^ 32 - 1)) = ((f.nlen - 1 : ℕ) : ℤ) := by
      rw [asInt, hmod hpos] at hneg ⊢
      split_ifs at hneg ⊢ <;> omega
    rw [hidx, Int.toNat_natCast, Nat.sub_add_cancel (Nat.pos_of_ne_zero hpos)] at h
    obtain ⟨hle, hi, -⟩ := scanFrom_eq_ok h
    rw [SimpleNameData.length_buf] at hle
    exact ⟨hle, hi, h⟩

theorem seqLength_eq (h : i < f.nlen) : seqLength f i = f.nlen - (i + 1) := by
  have hlt := f.nlen_lt
  rw [seqLength]
  omega

/-- The name is split at its last slash, and the text behind that must be shorter than `seqbuf`. -/
theorem splitName_eq (hn : f.nlen ≤ bufSize) (h : f.name = p ++ slash :: q) (hq : slash ∉ q) :
    splitName f = if q.length < seqbufSize then .ok (p, q) else .error .outOfBounds := by
  have hlen : f.nlen = p.length + (q.length + 1) := by
    rw [← f.length_name hn, h, List.length_append, List.length_cons]
  have hscan : lastSlash f = .ok p.length := by
    rw [lastSlash_of_le (by omega) hn]
    exact scanFrom_eq h hq (by rw [f.length_buf]; exact hn)
  unfold bufSize at hn
  have hp : f.readBuf 0 p.length = .ok p := by
    have htake : f.buf.take p.length = p := by
      have hpre := congrArg (List.take p.length) h
      rwa [SimpleNameData.name, List.take_take, min_eq_left (by omega), List.take_left'] at hpre
      rfl
    rw [SimpleNameData.readBuf, if_pos (by unfold bufSize; omega), List.drop_zero, htake]
  have hrange : seqLength f p.length = q.length := by
    rw [seqLength_eq (by omega)]
    omega
  have hread : f.readBuf (p.length + 1) q.length = .ok q := by
    have hdrop : (f.buf.drop (p.length + 1)).take q.length = q := by
      have hpost := congrArg (List.drop (p.length + 1)) h
      rw [SimpleNameData.name, List.drop_take, hlen] at hpost
      have hq' : (p ++ slash :: q).drop (p.length + 1) = q := by simp
      rw [hq', show p.length + (q.length + 1) - (p.length + 1) = q.length by omega] at hpost
      exact hpost
    rw [SimpleNameData.readBuf, if_pos (by unfold bufSize; omega), hdrop]
  have hname : ¬ namebufSize ≤ p.length := by
    unfold namebufSize
    omega
  rw [splitName, hscan, ok_bind, hp, ok_bind, if_neg hname, hrange, hread, ok_bind]
  by_cases hlt : q.length < seqbufSize
  · rw [if_pos hlt, if_neg (not_le.2 hlt)]
  · rw [if_neg hlt, if_pos (not_lt.1 hlt)]

end Split

end MixSim
