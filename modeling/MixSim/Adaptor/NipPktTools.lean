import MixSim.Frame
import MixSim.Library.Execution
import MixSim.Library.Tlv

/-!
# Packets of the network stack

`nip_pkt_tools.c` looks for the name in a packet (`get_pkt_name`) and decodes packets into a `struct
isockbuf` (`decap_pkt`). The functions it calls for this, `tlv_decode_usr`, `decap_interest_buf` and
`decap_data_buf`, and the constant `TYPE_NAME` come with the network stack; they are parameters here.

* `name_lookup_safe_iff`: the lookup hands the whole length of the packet to the decoder for every
  record inside it, so it stays in the packet exactly when there is no record to look at;
* `getPktName_of_first`: a name that lies in the value of the packet is found all the same;
* `decode_alone_iff`: a packet is decoded as into a new struct exactly when an Interest finds no
  flags but its own in the byte it shares with the type of the Data before.
-/

namespace MixSim.NipPktTools

open Execution Tlv

/-- `EINVAL`. -/
def einval : ℤ := 22

/-- `TYPE_INTEREST`. -/
def typeInterest : ℕ := 5

/-- `TYPE_DATA`. -/
def typeData : ℕ := 6

/-! ### The name in a packet -/

/-- What `get_pkt_name` returns, what it stores through `offset`, and the ranges it hands to
`tlv_decode_usr`: a start, relative to the packet, and a length. -/
structure NameLookup where
  ret : ℤ
  offset : Option ℕ
  asked : List (ℕ × ℕ)
  deriving DecidableEq

/-- A lookup after one more call of `tlv_decode_usr`. -/
def NameLookup.after (range : ℕ × ℕ) (r : NameLookup) : NameLookup :=
  { r with asked := range :: r.asked }

section GetPktName

variable (D : Decoder) (typeName : ℕ) (mem : ℕ → UInt8) (len : ℕ)

/-- The loop of `get_pkt_name`. The packet starts at address 0 of `mem`. -/
def getPktNameLoop (tail buf : ℕ) : NameLookup :=
  if buf < tail then
    match _h : D.decode (window mem buf len) with
    | .error _ => ⟨-einval, none, [(buf, len)]⟩
    | .ok tlv =>
        if tlv.type = typeName then ⟨asInt tlv.len, some (buf + tlv.value), [(buf, len)]⟩
        else (getPktNameLoop tail (buf + tlv.value + tlv.len)).after (buf, len)
  else ⟨-einval, none, []⟩
termination_by tail - buf
decreasing_by
  have hpos := D.value_pos _h
  omega

/-- `get_pkt_name`. -/
def getPktName : NameLookup :=
  match D.decode (window mem 0 len) with
  | .error err => ⟨err, none, [(0, len)]⟩
  | .ok tlv =>
      if tlv.type ≠ typeInterest ∧ tlv.type ≠ typeData then ⟨0, none, [(0, len)]⟩
      else (getPktNameLoop D typeName mem len (tlv.value + tlv.len) tlv.value).after (0, len)

/-- The packet is an Interest or Data, with its value in `tlv`. -/
def IsPacket (tlv : Record) : Prop :=
  D.decode (window mem 0 len) = .ok tlv ∧ (tlv.type = typeInterest ∨ tlv.type = typeData)

/-- The lookup asks for no byte behind the packet; a positive number it returns is the length of the
first name in the value of the packet, and the offset is where that starts; without such a name it
returns an error code. -/
structure NameLookup.Safe (r : NameLookup) : Prop where
  asked : ∀ range ∈ r.asked, range.1 + range.2 ≤ len
  found : 0 < r.ret → ∃ tlv o n, IsPacket D mem len tlv ∧
    D.first typeName (window mem tlv.value tlv.len) = some (o, n) ∧ o + n ≤ tlv.len ∧
    r.offset = some (tlv.value + o) ∧ r.ret = n
  missing : ∀ tlv, IsPacket D mem len tlv →
    D.first typeName (window mem tlv.value tlv.len) = none → r.ret < 0

end GetPktName

section Lookup

variable {D : Decoder} {typeName : ℕ} {mem : ℕ → UInt8} {len : ℕ}

/-- The first record inside a packet is asked for with the whole length. -/
theorem asked_loop {tail buf : ℕ} (h : buf < tail) :
    (buf, len) ∈ (getPktNameLoop D typeName mem len tail buf).asked := by
  rw [getPktNameLoop, if_pos h]
  split
  · exact List.mem_singleton_self _
  · split_ifs
    · exact List.mem_singleton_self _
    · exact List.mem_cons_self

/-- The loop looks at most the length of the packet beyond its tail. -/
theorem asked_loop_lt (tail buf : ℕ) :
    ∀ range ∈ (getPktNameLoop D typeName mem len tail buf).asked, range.1 < tail ∧ range.2 = len := by
  induction hgap : tail - buf using Nat.strong_induction_on generalizing buf with
  | _ k ih =>
    intro range hr
    rw [getPktNameLoop] at hr
    split_ifs at hr with hlt
    · split at hr
      · rw [List.mem_singleton.1 hr]
        exact ⟨hlt, rfl⟩
      · rename_i tlv htlv
        have hpos := D.value_pos htlv
        split_ifs at hr
        · rw [List.mem_singleton.1 hr]
          exact ⟨hlt, rfl⟩
        · rcases List.mem_cons.1 hr with rfl | hr
          · exact ⟨hlt, rfl⟩
          · exact ih _ (by omega) _ rfl range hr
    · cases hr

/-- The lookup looks at no more than twice the length of the packet. -/
theorem asked_le (D : Decoder) (typeName : ℕ) (mem : ℕ → UInt8) (len : ℕ) :
    ∀ range ∈ (getPktName D typeName mem len).asked, range.1 + range.2 ≤ 2 * len := by
  intro range hr
  unfold getPktName at hr
  split at hr
  · rw [List.mem_singleton.1 hr]
    omega
  · rename_i tlv htlv
    have hle := D.stop_le htlv
    rw [length_window] at hle
    unfold Record.stop at hle
    split_ifs at hr
    · rw [List.mem_singleton.1 hr]
      omega
    · rcases List.mem_cons.1 hr with rfl | hr
      · omega
      · obtain ⟨hlt, hlen⟩ := asked_loop_lt _ _ range hr
        omega

theorem getPktNameLoop_of_le {tail buf : ℕ} (h : tail ≤ buf) :
    getPktNameLoop D typeName mem len tail buf = ⟨-einval, none, []⟩ := by
  rw [getPktNameLoop, if_neg (not_lt.2 h)]

/-- The lookup of the name stays in the packet, and finds the first name, if and only if the packet
is no Interest or Data, or one with an empty value. -/
theorem name_lookup_safe_iff (D : Decoder) (typeName : ℕ) (mem : ℕ → UInt8) (len : ℕ) :
    (getPktName D typeName mem len).Safe D typeName mem len ↔
      ∀ tlv, IsPacket D mem len tlv → tlv.len = 0 := by
  constructor
  · rintro hsafe tlv ⟨hd, htype⟩
    by_contra hlen
    -- the first record inside is asked for with the length of the whole packet
    have hmem : (tlv.value, len) ∈ (getPktName D typeName mem len).asked := by
      rw [getPktName, hd]
      dsimp only
      rw [if_neg (by tauto)]
      exact List.mem_cons_of_mem _ (asked_loop (by omega))
    have hle := hsafe.asked _ hmem
    have hpos := D.value_pos hd
    dsimp only at hle
    omega
  · intro hempty
    rcases hd : D.decode (window mem 0 len) with err | tlv
    · have hret : getPktName D typeName mem len = ⟨err, none, [(0, len)]⟩ := by rw [getPktName, hd]
      have hneg := D.err_neg hd
      rw [hret]
      refine ⟨fun range hr => ?_, fun hpos => ?_, fun _ _ _ => hneg⟩
      · rw [List.mem_singleton.1 hr, Nat.zero_add]
      · exact absurd hpos (by dsimp only; omega)
    · by_cases htype : tlv.type ≠ typeInterest ∧ tlv.type ≠ typeData
      · have hret : getPktName D typeName mem len = ⟨0, none, [(0, len)]⟩ := by
          rw [getPktName, hd]
          exact if_pos htype
        rw [hret]
        refine ⟨fun range hr => ?_, fun hpos => absurd hpos (lt_irrefl 0), ?_⟩
        · rw [List.mem_singleton.1 hr, Nat.zero_add]
        · rintro tlv' ⟨hd', htype'⟩
          rw [hd] at hd'
          cases hd'
          tauto
      · have hlen := hempty tlv ⟨hd, by tauto⟩
        have hret : getPktName D typeName mem len = ⟨-einval, none, [(0, len)]⟩ := by
          rw [getPktName, hd]
          dsimp only
          rw [if_neg htype, getPktNameLoop_of_le (by omega)]
          rfl
        rw [hret]
        have hneg : -einval < 0 := by decide
        refine ⟨fun range hr => ?_, fun hpos => absurd hpos hneg.not_gt, fun _ _ _ => hneg⟩
        rw [List.mem_singleton.1 hr, Nat.zero_add]

/-- On a region that lies in the packet the loop finds what there is to find. -/
theorem loop_of_first (hD : D.Stable) {p n o k : ℕ} (hn : n ≤ len)
    (h : D.first typeName (window mem p n) = some (o, k)) :
    (getPktNameLoop D typeName mem len (p + n) p).ret = asInt k ∧
      (getPktNameLoop D typeName mem len (p + n) p).offset = some (p + o) := by
  induction n using Nat.strong_induction_on generalizing p o with
  | _ n ih =>
    rcases hd : D.decode (window mem p n) with e | t
    · rw [Decoder.first_error hd] at h
      cases h
    have hpos := D.value_pos hd
    have hle := D.stop_le hd
    rw [length_window] at hle
    -- the loop asks for more bytes than the region has, and gets the same record
    have hlen : D.decode (window mem p len) = .ok t := by
      rw [window_append mem p hn]
      exact hD _ hd
    rw [Decoder.first_ok hd] at h
    unfold Record.stop at h hle
    rw [getPktNameLoop, if_pos (by omega), hlen]
    dsimp only
    split_ifs at h ⊢ with htype
    · cases h
      exact ⟨rfl, rfl⟩
    · rw [drop_window mem p hle] at h
      obtain ⟨⟨o', k'⟩, hrest, hp⟩ := Option.map_eq_some_iff.1 h
      cases hp
      obtain ⟨hret, hoff⟩ := ih (n - (t.value + t.len)) (by omega) (by omega) hrest
      have htail : p + (t.value + t.len) + (n - (t.value + t.len)) = p + n := by omega
      rw [htail, ← Nat.add_assoc] at hret hoff
      exact ⟨hret, hoff.trans (by rw [Nat.add_assoc, Nat.add_assoc, Nat.add_assoc])⟩

/-- A packet with a name in its value: the name is found, and lies in the packet. -/
theorem getPktName_of_first (hD : D.Stable) {tlv : Record} {o k : ℕ} (hpkt : IsPacket D mem len tlv)
    (h : D.first typeName (window mem tlv.value tlv.len) = some (o, k)) (hlen : len < 2 ^ 31) :
    (getPktName D typeName mem len).ret = k ∧
      (getPktName D typeName mem len).offset = some (tlv.value + o) ∧ tlv.value + o + k ≤ len := by
  obtain ⟨hd, htype⟩ := hpkt
  have hle := D.stop_le hd
  have hin := Decoder.first_le h
  rw [length_window] at hle hin
  unfold Record.stop at hle
  have hn : tlv.len ≤ len := by omega
  obtain ⟨hret, hoff⟩ := loop_of_first hD hn h
  rw [getPktName, hd]
  dsimp only
  rw [if_neg (by tauto), NameLookup.after]
  exact ⟨hret.trans (asInt_of_lt (by omega)), hoff, by omega⟩

/-- A decoder of records with a type below 253 and a length below 253: one byte each. -/
def shortTlv : Decoder where
  decode
    | type :: len :: value =>
        if len.toNat ≤ value.length then .ok ⟨type.toNat, 2, len.toNat⟩ else .error (-einval)
    | _ => .error (-einval)
  err_neg h := by
    split at h
    · split_ifs at h
      cases h
      decide
    · cases h
      decide
  value_pos h := by
    split at h
    · split_ifs at h
      cases h
      exact Nat.two_pos
    · cases h
  stop_le h := by
    split at h
    · split_ifs at h
      cases h
      rw [Record.stop, List.length_cons, List.length_cons]
      dsimp only
      omega
    · cases h

/-- The type of names. -/
def shortName : ℕ := 7

/-- A packet of two bytes, an empty Interest. -/
theorem name_lookup_safe_iff_empty : (getPktName shortTlv shortName (fun i => [5, 0].getD i 0) 2).Safe
    shortTlv shortName (fun i => [5, 0].getD i 0) 2 ↔
      ∀ tlv, IsPacket shortTlv (fun i => [5, 0].getD i 0) 2 tlv → tlv.len = 0 :=
  name_lookup_safe_iff shortTlv shortName (fun i => [5, 0].getD i 0) 2

/-- The Interest of the four bytes 5 2 7 2 has a value of two bytes, the head of a name whose two
bytes would lie behind the packet; they are what is returned. -/
theorem name_lookup_overruns :
    getPktName shortTlv shortName (fun i => [5, 2, 7, 2].getD i 0) 4 =
        ⟨2, some 4, [(0, 4), (2, 4)]⟩ ∧
      ¬ (getPktName shortTlv shortName (fun i => [5, 2, 7, 2].getD i 0) 4).Safe
        shortTlv shortName (fun i => [5, 2, 7, 2].getD i 0) 4 := by
  have hret : getPktName shortTlv shortName (fun i => [5, 2, 7, 2].getD i 0) 4 =
      ⟨2, some 4, [(0, 4), (2, 4)]⟩ := by decide +kernel
  refine ⟨hret, fun hsafe => ?_⟩
  rw [hret] at hsafe
  exact absurd (hsafe.asked (2, 4) (by simp)) (by decide)

end Lookup

/-! ### Decoding packets -/

/-- `I_CANBEPREFIX`. -/
def iCanBePrefix : UInt8 := 2

/-- `I_MUSTBEFRESH`. -/
def iMustBeFresh : UInt8 := 4

/-- `struct isockbuf`, as far as `decap_pkt` writes it. The union has the byte `flags`, which is
`i_flags` and `d_type`, and the word `time`, which is `i_life_time` and `fresh_period`. -/
structure Isockbuf where
  type : ℕ
  name : ℕ
  nlen : UInt16
  data : ℕ
  dlen : UInt64
  flags : UInt8
  time : UInt32
  deriving DecidableEq

/-- A new struct. -/
def zeroed : Isockbuf := ⟨0, 0, 0, 0, 0, 0, 0⟩

/-- What `decap_interest_buf` writes through its pointers, as far as it is used; `none` where it
leaves the object as it is. -/
structure InterestArgs where
  name : Option ℕ
  nlen : Option UInt16
  canBePrefix : Option Bool
  mustBeFresh : Option Bool
  lifeTime : Option UInt32

/-- What `decap_data_buf` writes through its pointers. -/
structure DataArgs where
  name : Option ℕ
  nlen : Option UInt16
  data : Option ℕ
  dlen : Option UInt64
  dType : Option UInt8
  freshPeriod : Option UInt32

/-- All objects are written. -/
def InterestArgs.Complete (a : InterestArgs) : Prop :=
  a.name.isSome ∧ a.nlen.isSome ∧ a.canBePrefix.isSome ∧ a.mustBeFresh.isSome ∧ a.lifeTime.isSome

/-- All objects are written. -/
def DataArgs.Complete (a : DataArgs) : Prop :=
  a.name.isSome ∧ a.nlen.isSome ∧ a.data.isSome ∧ a.dlen.isSome ∧ a.dType.isSome ∧
    a.freshPeriod.isSome

/-- The functions that decode a packet. They write what the packet says, and all of it when they
return no error code. -/
structure PktDecoder extends Decoder where
  decapInterestBuf : List UInt8 → Record → ℤ × InterestArgs
  decapDataBuf : List UInt8 → Record → ℤ × DataArgs
  interest_complete : ∀ {bs t}, 0 ≤ (decapInterestBuf bs t).1 → (decapInterestBuf bs t).2.Complete
  data_complete : ∀ {bs t}, 0 ≤ (decapDataBuf bs t).1 → (decapDataBuf bs t).2.Complete

/-- What the uninitialised `can_be_prefix` and `must_be_fresh` hold. -/
structure Unset where
  canBePrefix : Bool
  mustBeFresh : Bool

/-- The bits for `i_flags` after `decap_interest_buf`. -/
def InterestArgs.flags (a : InterestArgs) (unset : Unset) : UInt8 :=
  (if a.canBePrefix.getD unset.canBePrefix then iCanBePrefix else 0) |||
    if a.mustBeFresh.getD unset.mustBeFresh then iMustBeFresh else 0

/-- `decap_pkt`. -/
def decapPkt (P : PktDecoder) (buf : List UInt8) (unset : Unset) (ibuf : Isockbuf) : ℤ × Isockbuf :=
  match P.decode buf with
  | .error _ => (-einval, ibuf)
  | .ok tlv =>
      let ibuf := { ibuf with type := tlv.type % 2 ^ 32 }
      if ibuf.type = typeInterest then
        let (res, a) := P.decapInterestBuf buf tlv
        (res, { ibuf with
          name := a.name.getD ibuf.name
          nlen := a.nlen.getD ibuf.nlen
          time := a.lifeTime.getD ibuf.time
          dlen := 0
          flags := ibuf.flags ||| a.flags unset })
      else if ibuf.type = typeData then
        let (res, a) := P.decapDataBuf buf tlv
        (res, { ibuf with
          name := a.name.getD ibuf.name
          nlen := a.nlen.getD ibuf.nlen
          data := a.data.getD ibuf.data
          dlen := a.dlen.getD ibuf.dlen
          flags := a.dType.getD ibuf.flags
          time := a.freshPeriod.getD ibuf.time })
      else (-einval, ibuf)

/-- One packet after the other is decoded into the same struct. -/
def step (P : PktDecoder) : Step Isockbuf (List UInt8 × Unset) (ℤ × Isockbuf) Fault :=
  fun ibuf i => .ok ((decapPkt P i.1 i.2 ibuf).2, [decapPkt P i.1 i.2 ibuf])

/-- The fields that describe a packet of either kind are the same. -/
def Isockbuf.Alike (a b : Isockbuf) : Prop :=
  a.type = b.type ∧ a.nlen = b.nlen ∧ a.dlen = b.dlen ∧ a.flags = b.flags

/-- A packet that is decoded is decoded as into a new struct; one that is not takes no flags from the
values that `can_be_prefix` and `must_be_fresh` happen to have. -/
def DecodedAlone (P : PktDecoder) (ibuf : Isockbuf) (i : List UInt8 × Unset) : Prop :=
  (0 ≤ (decapPkt P i.1 i.2 ibuf).1 →
    (decapPkt P i.1 i.2 ibuf).2.Alike (decapPkt P i.1 i.2 zeroed).2) ∧
  ((decapPkt P i.1 i.2 ibuf).1 < 0 → ∀ unset,
    (decapPkt P i.1 unset ibuf).2.flags = (decapPkt P i.1 i.2 ibuf).2.flags)

/-- The packet is an Interest, with its value in `tlv`. -/
def IsInterest (P : PktDecoder) (buf : List UInt8) (tlv : Record) : Prop :=
  P.decode buf = .ok tlv ∧ tlv.type % 2 ^ 32 = typeInterest

/-- An Interest that is decoded finds no flags but its own in the struct; one that is not finds those
that `decap_interest_buf` leaves open. -/
def FindsOwnFlags (P : PktDecoder) (ibuf : Isockbuf) (i : List UInt8 × Unset) : Prop :=
  ∀ tlv, IsInterest P i.1 tlv →
    let a := (P.decapInterestBuf i.1 tlv).2
    if 0 ≤ (P.decapInterestBuf i.1 tlv).1 then ibuf.flags ||| a.flags i.2 = a.flags i.2
    else (a.canBePrefix = none → ibuf.flags ||| iCanBePrefix = ibuf.flags) ∧
      (a.mustBeFresh = none → ibuf.flags ||| iMustBeFresh = ibuf.flags)

section DecapPkt

variable {P : PktDecoder} {buf : List UInt8} {unset : Unset} {ibuf : Isockbuf} {tlv : Record}

theorem decapPkt_interest (h : IsInterest P buf tlv) (unset : Unset) (ibuf : Isockbuf) :
    decapPkt P buf unset ibuf = ((P.decapInterestBuf buf tlv).1, { ibuf with
      type := tlv.type % 2 ^ 32
      name := (P.decapInterestBuf buf tlv).2.name.getD ibuf.name
      nlen := (P.decapInterestBuf buf tlv).2.nlen.getD ibuf.nlen
      time := (P.decapInterestBuf buf tlv).2.lifeTime.getD ibuf.time
      dlen := 0
      flags := ibuf.flags ||| (P.decapInterestBuf buf tlv).2.flags unset }) := by
  rw [decapPkt, h.1]
  exact if_pos h.2

/-- What is no Interest is decoded as Data, or not at all. -/
theorem decapPkt_cases (h : ∀ tlv, ¬ IsInterest P buf tlv) :
    (∃ tlv, ∀ unset ibuf, decapPkt P buf unset ibuf = ((P.decapDataBuf buf tlv).1, { ibuf with
      type := tlv.type % 2 ^ 32
      name := (P.decapDataBuf buf tlv).2.name.getD ibuf.name
      nlen := (P.decapDataBuf buf tlv).2.nlen.getD ibuf.nlen
      data := (P.decapDataBuf buf tlv).2.data.getD ibuf.data
      dlen := (P.decapDataBuf buf tlv).2.dlen.getD ibuf.dlen
      flags := (P.decapDataBuf buf tlv).2.dType.getD ibuf.flags
      time := (P.decapDataBuf buf tlv).2.freshPeriod.getD ibuf.time })) ∨
    ∀ unset ibuf, (decapPkt P buf unset ibuf).1 = -einval ∧
      (decapPkt P buf unset ibuf).2.flags = ibuf.flags := by
  rcases hd : P.decode buf with e | tlv
  · refine Or.inr fun unset ibuf => ?_
    rw [decapPkt, hd]
    exact ⟨rfl, rfl⟩
  have hne : ¬ tlv.type % 2 ^ 32 = typeInterest := fun htype => h tlv ⟨hd, htype⟩
  by_cases hdata : tlv.type % 2 ^ 32 = typeData
  · refine Or.inl ⟨tlv, fun unset ibuf => ?_⟩
    rw [decapPkt, hd]
    exact (if_neg hne).trans (if_pos hdata)
  · refine Or.inr fun unset ibuf => ?_
    have hpkt : decapPkt P buf unset ibuf = (-einval, { ibuf with type := tlv.type % 2 ^ 32 }) := by
      rw [decapPkt, hd]
      exact (if_neg hne).trans (if_neg hdata)
    rw [hpkt]
    exact ⟨rfl, rfl⟩

/-- Data, and what is neither, is decoded as into a new struct. -/
theorem decodedAlone_of_not_interest (h : ∀ tlv, ¬ IsInterest P buf tlv) (unset : Unset)
    (ibuf : Isockbuf) : DecodedAlone P ibuf (buf, unset) := by
  rcases decapPkt_cases h with ⟨tlv, hpkt⟩ | hfail
  · refine ⟨fun hres => ?_, fun _ unset' => by rw [hpkt, hpkt]⟩
    rw [hpkt] at hres
    obtain ⟨-, hn, -, hdl, ht, -⟩ := P.data_complete hres
    obtain ⟨n, hn⟩ := Option.isSome_iff_exists.1 hn
    obtain ⟨l, hl⟩ := Option.isSome_iff_exists.1 hdl
    obtain ⟨t, ht⟩ := Option.isSome_iff_exists.1 ht
    rw [hpkt, hpkt, Isockbuf.Alike, hn, hl, ht]
    exact ⟨rfl, rfl, rfl, rfl⟩
  · refine ⟨fun hres => ?_, fun _ unset' => (hfail unset' ibuf).2.trans (hfail unset ibuf).2.symm⟩
    rw [(hfail unset ibuf).1] at hres
    exact absurd hres (by decide)

/-- A bit that makes no difference is there already. -/
theorem or_eq_self_of_free (f : UInt8) : ∀ b : Bool,
    (f ||| (iCanBePrefix ||| if b then iMustBeFresh else 0) =
      f ||| (0 ||| if b then iMustBeFresh else 0) → f ||| iCanBePrefix = f) ∧
    (f ||| ((if b then iCanBePrefix else 0) ||| iMustBeFresh) =
      f ||| ((if b then iCanBePrefix else 0) ||| 0) → f ||| iMustBeFresh = f) := by
  obtain ⟨v⟩ := f
  revert v
  decide +kernel

theorem or_or_congr {f x x' y y' : UInt8} (hx : f ||| x = f ||| x') (hy : f ||| y = f ||| y') :
    f ||| (x ||| y) = f ||| (x' ||| y') :=
  calc f ||| (x ||| y) = f ||| x ||| y := (UInt8.or_assoc ..).symm
    _ = f ||| y ||| x' := by rw [hx, UInt8.or_assoc, UInt8.or_comm x', ← UInt8.or_assoc]
    _ = f ||| (x' ||| y') := by rw [hy, UInt8.or_assoc, UInt8.or_comm y']

/-- The unset values make no difference if and only if the bits they decide are there already. -/
theorem flags_unset_iff (a : InterestArgs) (f : UInt8) (unset : Unset) :
    (∀ unset', f ||| a.flags unset' = f ||| a.flags unset) ↔
      (a.canBePrefix = none → f ||| iCanBePrefix = f) ∧
        (a.mustBeFresh = none → f ||| iMustBeFresh = f) := by
  constructor
  · intro h
    have hall : ∀ u u', f ||| a.flags u = f ||| a.flags u' := fun u u' => (h u).trans (h u').symm
    refine ⟨fun hc => ?_, fun hm => ?_⟩
    · have hbit := hall ⟨true, unset.mustBeFresh⟩ ⟨false, unset.mustBeFresh⟩
      simp only [InterestArgs.flags, hc, Option.getD_none] at hbit
      exact (or_eq_self_of_free f _).1 hbit
    · have hbit := hall ⟨unset.canBePrefix, true⟩ ⟨unset.canBePrefix, false⟩
      simp only [InterestArgs.flags, hm, Option.getD_none] at hbit
      exact (or_eq_self_of_free f _).2 hbit
  · rintro ⟨hc, hm⟩ unset'
    -- each of the two bits is decided by the packet, or is in `f`
    have hpre : ∀ u : Unset, (f ||| if a.canBePrefix.getD u.canBePrefix then iCanBePrefix else 0) =
        f ||| if a.canBePrefix.getD unset.canBePrefix then iCanBePrefix else 0 := by
      intro u
      rcases hcan : a.canBePrefix with _ | b
      · have hf := hc hcan
        rw [Option.getD_none, Option.getD_none]
        split_ifs <;> simp [hf]
      · rfl
    have hfresh : ∀ u : Unset, (f ||| if a.mustBeFresh.getD u.mustBeFresh then iMustBeFresh else 0) =
        f ||| if a.mustBeFresh.getD unset.mustBeFresh then iMustBeFresh else 0 := by
      intro u
      rcases hmust : a.mustBeFresh with _ | b
      · have hf := hm hmust
        rw [Option.getD_none, Option.getD_none]
        split_ifs <;> simp [hf]
      · rfl
    exact or_or_congr (hpre unset') (hfresh unset')

/-- An Interest is decoded as into a new struct if and only if it finds its own flags alone. -/
theorem decodedAlone_interest_iff (h : IsInterest P buf tlv) (unset : Unset) (ibuf : Isockbuf) :
    DecodedAlone P ibuf (buf, unset) ↔ FindsOwnFlags P ibuf (buf, unset) := by
  have hfinds : FindsOwnFlags P ibuf (buf, unset) ↔
      if 0 ≤ (P.decapInterestBuf buf tlv).1 then
        ibuf.flags ||| (P.decapInterestBuf buf tlv).2.flags unset =
          (P.decapInterestBuf buf tlv).2.flags unset
      else ((P.decapInterestBuf buf tlv).2.canBePrefix = none →
          ibuf.flags ||| iCanBePrefix = ibuf.flags) ∧
        ((P.decapInterestBuf buf tlv).2.mustBeFresh = none →
          ibuf.flags ||| iMustBeFresh = ibuf.flags) := by
    refine ⟨fun hf => hf tlv h, fun hf tlv' h' => ?_⟩
    have htlv : tlv' = tlv := by
      have hd := h'.1.symm.trans h.1
      cases hd
      rfl
    rw [htlv]
    exact hf
  rw [hfinds, DecodedAlone]
  simp only [decapPkt_interest h]
  by_cases hres : 0 ≤ (P.decapInterestBuf buf tlv).1
  · rw [if_pos hres]
    obtain ⟨-, hn, -⟩ := P.interest_complete hres
    obtain ⟨n, hn⟩ := Option.isSome_iff_exists.1 hn
    constructor
    · intro halone
      have hflags := (halone.1 hres).2.2.2
      exact hflags.trans UInt8.zero_or
    · intro hflags
      refine ⟨fun _ => ⟨rfl, ?_, rfl, ?_⟩, fun hneg => absurd hres hneg.not_ge⟩
      · show (P.decapInterestBuf buf tlv).2.nlen.getD _ = (P.decapInterestBuf buf tlv).2.nlen.getD _
        rw [hn]
        rfl
      · exact hflags.trans UInt8.zero_or.symm
  · rw [if_neg hres, ← flags_unset_iff _ _ unset]
    exact ⟨fun halone => halone.2 (not_le.1 hres), fun hflags =>
      ⟨fun hpos => absurd hpos hres, fun _ => hflags⟩⟩

theorem decodedAlone_iff (P : PktDecoder) (ibuf : Isockbuf) (i : List UInt8 × Unset) :
    DecodedAlone P ibuf i ↔ FindsOwnFlags P ibuf i := by
  obtain ⟨buf, unset⟩ := i
  by_cases h : ∃ tlv, IsInterest P buf tlv
  · obtain ⟨tlv, h⟩ := h
    exact decodedAlone_interest_iff h unset ibuf
  · have hnot : ∀ tlv, ¬ IsInterest P buf tlv := fun tlv ht => h ⟨tlv, ht⟩
    exact ⟨fun _ tlv ht => absurd ht (hnot tlv), fun _ => decodedAlone_of_not_interest hnot unset ibuf⟩

/-- In a sequence of packets each is decoded as into a new struct if and only if each Interest finds
its own flags alone. -/
theorem decode_alone_iff (P : PktDecoder) (ibuf : Isockbuf) (is : List (List UInt8 × Unset)) :
    Along (step P) (DecodedAlone P) ibuf is ↔ Along (step P) (FindsOwnFlags P) ibuf is :=
  ⟨Along.mono fun ibuf i => (decodedAlone_iff P ibuf i).1,
    Along.mono fun ibuf i => (decodedAlone_iff P ibuf i).2⟩

end DecapPkt

/-- A decoder of Interests with a short name in front: after it come the records 33 and 18, without a
value, for the two flags. -/
def shortPkt : PktDecoder where
  toDecoder := shortTlv
  decapInterestBuf buf tlv :=
    match (buf.drop tlv.value).take tlv.len with
    | 7 :: n :: rest =>
        (0, ⟨some (tlv.value + 2), some n.toUInt16, some (decide (33 ∈ rest.drop n.toNat)),
          some (decide (18 ∈ rest.drop n.toNat)), some 4000⟩)
    | _ => (-einval, ⟨none, none, none, none, none⟩)
  decapDataBuf _ _ := (-einval, ⟨none, none, none, none, none, none⟩)
  interest_complete h := by
    split at h
    · exact ⟨rfl, rfl, rfl, rfl, rfl⟩
    · exact absurd h (by decide)
  data_complete h := absurd h (by decide)

/-- An Interest that can be a prefix. -/
def prefixInterest : List UInt8 := [5, 7, 7, 3, 8, 1, 97, 33, 0]

/-- An Interest without flags. -/
def plainInterest : List UInt8 := [5, 5, 7, 3, 8, 1, 97]

/-- A plain Interest and then one with a flag. -/
theorem decode_alone_iff_short :
    Along (step shortPkt) (DecodedAlone shortPkt) zeroed
        [(plainInterest, ⟨true, true⟩), (prefixInterest, ⟨true, true⟩)] ↔
      Along (step shortPkt) (FindsOwnFlags shortPkt) zeroed
        [(plainInterest, ⟨true, true⟩), (prefixInterest, ⟨true, true⟩)] :=
  decode_alone_iff shortPkt zeroed [(plainInterest, ⟨true, true⟩), (prefixInterest, ⟨true, true⟩)]

/-- In the other order the plain Interest keeps the flag of the one before; and an empty Interest, in
a new struct, takes flags that nobody has set. -/
theorem flags_carry_over :
    ¬ Along (step shortPkt) (DecodedAlone shortPkt) zeroed
        [(prefixInterest, ⟨true, true⟩), (plainInterest, ⟨true, true⟩)] ∧
      ¬ DecodedAlone shortPkt zeroed ([5, 0], ⟨true, true⟩) := by
  refine ⟨fun h => ?_, fun h => ?_⟩
  · have hplain := (h.2 _ _ rfl).1.1 (by decide)
    exact absurd hplain.2.2.2 (by decide)
  · exact absurd (h.2 (by decide) ⟨false, false⟩) (by decide)

end MixSim.NipPktTools
