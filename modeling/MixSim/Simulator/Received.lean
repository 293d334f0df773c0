import MixSim.Simulator.RoundTrip

/-!
# Received datagrams

`ScheduleNextTick` hands a received datagram to `SendNDNInterest` or `SendNDNData` whatever is in
it. The scan for the last slash has no lower end, `nlen` and `dlen` are not compared with the number
of received bytes, and the text behind the slash is copied into ten bytes: all accesses are in bounds
exactly when the datagram holds what its lengths say and a slash is among the last ten bytes of the
name.
-/

namespace MixSim

variable {N : Type} {X : NdnCxx N} {d f : SimpleNameData} {bs : List UInt8}

/-- The scan stops inside the name, and what is before and behind the slash fits the arrays. -/
def SplitInBounds (f : SimpleNameData) : Prop :=
  ∃ idx, lastSlash f = .ok idx ∧ idx < f.nlen ∧ idx < namebufSize ∧ f.nlen - idx - 1 < seqbufSize

/-- The accesses to a frame of `size` received bytes, with `dlen` bytes of content read from it, stay
inside the received bytes and the arrays. -/
structure ReadInBounds (f : SimpleNameData) (size dlen : ℕ) (sent : Except Fault (Packet N)) :
    Prop where
  scan : SplitInBounds f
  received : 8 + f.nlen + dlen ≤ size
  sent : sent ≠ .error .outOfBounds

/-- A slash is among the last ten bytes of the name. -/
def SlashNearEnd (name : List UInt8) : Prop := slash ∈ name.drop (name.length - 10)

instance (name : List UInt8) : Decidable (SlashNearEnd name) := inferInstanceAs (Decidable (_ ∈ _))

/-- The last slash of such a name. -/
theorem SlashNearEnd.split {name : List UInt8} (h : SlashNearEnd name) :
    ∃ p q, name = p ++ slash :: q ∧ slash ∉ q ∧ q.length < seqbufSize := by
  unfold SlashNearEnd at h
  obtain ⟨r, p, hrp, hr⟩ := List.eq_append_cons_of_mem (List.mem_reverse.2 h)
  have hdrop : name.drop (name.length - 10) = p.reverse ++ slash :: r.reverse := by
    rw [← List.reverse_reverse (name.drop (name.length - 10)), hrp, List.reverse_append,
      List.reverse_cons, List.append_assoc, List.singleton_append]
  refine ⟨name.take (name.length - 10) ++ p.reverse, r.reverse, ?_, ?_, ?_⟩
  · rw [List.append_assoc, ← hdrop, List.take_append_drop]
  · rw [List.mem_reverse]
    exact hr
  · have hlen := congrArg List.length hdrop
    rw [List.length_drop, List.length_append, List.length_cons] at hlen
    unfold seqbufSize
    omega

/-- The scan of a frame whose name lies in `buf`. -/
theorem splitInBounds_iff (hn : f.nlen ≤ bufSize) : SplitInBounds f ↔ SlashNearEnd f.name := by
  have hlen := f.length_name hn
  constructor
  · rintro ⟨idx, hscan, hlt, -, hseq⟩
    obtain ⟨hle, hi, q, hq, -⟩ := scanFrom_eq_ok (lastSlash_eq_ok hscan).2.2
    have hp : (f.buf.take idx).length = idx := by
      rw [List.length_take]
      omega
    unfold seqbufSize at hseq
    rw [SlashNearEnd, hlen, SimpleNameData.name, hq, List.drop_append_of_le_length (by omega)]
    exact List.mem_append_right _ List.mem_cons_self
  · intro h
    obtain ⟨p, q, hpq, hq, hqlen⟩ := h.split
    have hsum : f.nlen = p.length + (q.length + 1) := by
      rw [← hlen, hpq, List.length_append, List.length_cons]
    refine ⟨p.length, ?_, by omega, ?_, by omega⟩
    · rw [lastSlash_of_le (by omega) hn]
      exact scanFrom_eq hpq hq (by rw [f.length_buf]; exact hn)
    · unfold bufSize at hn
      unfold namebufSize
      omega

/-- After the split nothing is accessed out of bounds. -/
theorem parseName_ne (hn : f.nlen ≤ bufSize) (h : SlashNearEnd f.name) :
    X.parseName f ≠ .error .outOfBounds := by
  obtain ⟨p, q, hpq, hq, hqlen⟩ := h.split
  rw [NdnCxx.parseName, splitName_eq hn hpq hq, if_pos hqlen, ok_bind]
  dsimp only
  split <;> exact fun h => (by cases h)

theorem sendNDNInterest_ne (h : X.parseName f ≠ .error .outOfBounds) :
    X.sendNDNInterest f ≠ .error .outOfBounds := by
  intro hs
  rcases bind_eq_error hs with he | ⟨a, -, ha⟩
  · exact h he
  · cases ha

theorem sendNDNData_ne (h : X.parseName f ≠ .error .outOfBounds) (hfit : f.Fits) :
    X.sendNDNData f ≠ .error .outOfBounds := by
  intro hs
  rcases bind_eq_error hs with he | ⟨a, -, ha⟩
  · exact h he
  · dsimp only at ha
    rw [readBuf_content hfit, ok_bind] at ha
    cases ha

/-- A frame that came with a datagram that holds its name. -/
theorem frame_of_received (h : d.memcpy bs = .ok f) (hn : 8 + dgramNlen bs ≤ bs.length) :
    f.nlen = dgramNlen bs ∧ f.dlen = dgramDlen bs ∧ f.nlen ≤ bufSize ∧ f.name = dgramName bs := by
  obtain ⟨hnlen, hdlen⟩ := lens_of_memcpy h (by omega)
  have hle := (SimpleNameData.store_eq_ok h).1
  refine ⟨hnlen, hdlen, ?_, name_of_memcpy h hn⟩
  unfold frameSize at hle
  unfold bufSize
  omega

/-- A received datagram, of any bytes and into a buffer with any content, is read in bounds exactly
when its lengths are true and a slash is near the end of its name. -/
theorem read_in_bounds_iff (X : NdnCxx N) (recvBuf : SimpleNameData) (bs : List UInt8)
    (hsize : 1 ≤ bs.length ∧ bs.length ≤ 2048) : ∃ f, recvBuf.memcpy bs = .ok f ∧
      (ReadInBounds f bs.length 0 (X.sendNDNInterest f) ↔
        8 + dgramNlen bs ≤ bs.length ∧ SlashNearEnd (dgramName bs)) ∧
      (ReadInBounds f bs.length f.dlen (X.sendNDNData f) ↔
        WellFormed bs ∧ SlashNearEnd (dgramName bs)) := by
  obtain ⟨f, hf⟩ : ∃ f, recvBuf.memcpy bs = .ok f := SimpleNameData.memcpy_of_le hsize.2
  refine ⟨f, hf, ⟨fun h => ?_, fun ⟨hn, hs⟩ => ?_⟩, ⟨fun h => ?_, fun ⟨hw, hs⟩ => ?_⟩⟩
  · have hrec := h.received
    have hn : 8 + dgramNlen bs ≤ bs.length := by
      rw [← (lens_of_memcpy hf (by omega)).1]
      omega
    obtain ⟨-, -, hnbuf, hname⟩ := frame_of_received hf hn
    exact ⟨hn, hname ▸ (splitInBounds_iff hnbuf).1 h.scan⟩
  · obtain ⟨hnlen, -, hnbuf, hname⟩ := frame_of_received hf hn
    rw [← hname] at hs
    exact ⟨(splitInBounds_iff hnbuf).2 hs, by omega, sendNDNInterest_ne (parseName_ne hnbuf hs)⟩
  · have hrec := h.received
    obtain ⟨hnlen, hdlen⟩ := lens_of_memcpy hf (by omega)
    have hw : WellFormed bs := by
      rw [WellFormed, ← hnlen, ← hdlen]
      exact hrec
    obtain ⟨-, -, hnbuf, hname⟩ := frame_of_received hf hw.name_le
    exact ⟨hw, hname ▸ (splitInBounds_iff hnbuf).1 h.scan⟩
  · obtain ⟨hnlen, hdlen, hnbuf, hname⟩ := frame_of_received hf hw.name_le
    unfold WellFormed at hw
    rw [← hname] at hs
    have hfit : f.Fits := by
      unfold SimpleNameData.Fits bufSize
      omega
    exact ⟨(splitInBounds_iff hnbuf).2 hs, by omega,
      sendNDNData_ne (parseName_ne hnbuf hs) hfit⟩

/-- The datagram of an Interest named `/a/7`. -/
def datagramA7 : List UInt8 := [4, 0, 0, 0, 0, 0, 0, 0, 47, 97, 47, 55]

theorem read_in_bounds_iff_a7 : ∃ f, SimpleNameData.zero.memcpy datagramA7 = .ok f ∧
    (ReadInBounds f 12 0 (plainNames.sendNDNInterest f) ↔
      8 + dgramNlen datagramA7 ≤ 12 ∧ SlashNearEnd (dgramName datagramA7)) ∧
    (ReadInBounds f 12 f.dlen (plainNames.sendNDNData f) ↔
      WellFormed datagramA7 ∧ SlashNearEnd (dgramName datagramA7)) :=
  read_in_bounds_iff plainNames SimpleNameData.zero datagramA7 (by decide)

/-- The datagram of an Interest named `/aaaaaaaaaa`. -/
def datagramLong : List UInt8 := [11, 0, 0, 0, 0, 0, 0, 0, 47] ++ List.replicate 10 97

theorem read_out_of_bounds : ∃ f, SimpleNameData.zero.memcpy datagramLong = .ok f ∧
    ¬ ReadInBounds f datagramLong.length 0 (plainNames.sendNDNInterest f) := by
  obtain ⟨f, hf⟩ : ∃ f, SimpleNameData.zero.memcpy datagramLong = .ok f :=
    SimpleNameData.memcpy_of_le (by decide)
  refine ⟨f, hf, fun h => ?_⟩
  obtain ⟨-, -, hnbuf, hname⟩ := frame_of_received hf (by decide)
  have hs := (splitInBounds_iff hnbuf).1 h.scan
  rw [hname] at hs
  exact absurd hs (by decide)

end MixSim
