import MixSim.Adaptor.NameUdpTable
import MixSim.Library.Execution

/-!
# The pending table is a finite map

What the table is for: a map from keys to lists of at most eight addresses. `AddrMap.set` and
`AddrMap.del` are its operations. `nutSet_outcome`, `nutGet_eq` and `nutDel_eq` say what each
function of the table does to its slots, `nut_refines_map` that no sequence of calls can tell the
table from the map: the reuse of deleted entries and the growth of the array do not show.
-/

namespace MixSim

open SlotTable Execution

/-! ### Updating one slot -/

section Slots

variable {t : Nut} {i : ℕ} {k : List UInt8} {as : List SockaddrIn} {e : NutEntry}

/-- A slot is live when its entry is not deleted. -/
theorem at_slots_iff : At t.slots i k as ↔
    ∃ e, t.entries[i]? = some e ∧ i < t.entryNum ∧ e.deleted ≠ 1 ∧ e.key = k ∧ e.addrs = as := by
  unfold At Nut.slots
  rw [List.getElem?_map, List.getElem?_take, Option.map_eq_some_iff]
  constructor
  · rintro ⟨e, he, hs⟩
    split_ifs at he with hlt
    · unfold NutEntry.slot at hs
      split_ifs at hs with hd
      cases hs
      exact ⟨e, he, hlt, hd, rfl, rfl⟩
  · rintro ⟨e, he, hi, hd, rfl, rfl⟩
    exact ⟨e, by rw [if_pos hi, he], by rw [NutEntry.slot, if_neg hd]⟩

theorem length_slots (h : t.WF) : t.slots.length = t.entryNum := by
  rw [Nut.slots, List.length_map, List.length_take, h.size]
  exact min_eq_left h.num_le

theorem slots_set :
    ({ t with entries := t.entries.set i e } : Nut).slots = t.slots.set i e.slot := by
  rw [Nut.slots, Nut.slots, List.take_set, List.map_set]

/-- Writing one of the entries in use keeps the invariant. -/
theorem Nut.WF.setEntry (h : t.WF) (he : e.deleted ≠ 1 → e.Live)
    (hU : Unique (t.slots.set i e.slot)) : ({ t with entries := t.entries.set i e } : Nut).WF where
  cap_pos := h.cap_pos
  cap_lt := h.cap_lt
  size := by rw [List.length_set]; exact h.size
  num_le := h.num_le
  unique := by rw [slots_set]; exact hU
  live := by
    intro x hx hd
    rw [List.take_set] at hx
    rcases List.mem_or_eq_of_mem_set hx with hx | rfl
    · exact h.live x hx hd
    · exact he hd

theorem slots_append (h : t.WF) (hlt : t.entryNum < t.tableCap) :
    ({ t with entryNum := t.entryNum + 1, entries := t.entries.set t.entryNum e } : Nut).slots =
      t.slots ++ [e.slot] := by
  have hlen : t.entryNum < t.entries.length := by rw [h.size]; exact hlt
  rw [Nut.slots, Nut.slots, List.take_add_one, List.take_set_of_le le_rfl, List.map_append,
    List.getElem?_set_self hlen]
  rfl

/-- Writing the entry behind the ones in use keeps the invariant. -/
theorem Nut.WF.appendEntry (h : t.WF) (hlt : t.entryNum < t.tableCap) (he : e.deleted ≠ 1 → e.Live)
    (hU : Unique (t.slots ++ [e.slot])) :
    ({ t with entryNum := t.entryNum + 1, entries := t.entries.set t.entryNum e } : Nut).WF where
  cap_pos := h.cap_pos
  cap_lt := h.cap_lt
  size := by rw [List.length_set]; exact h.size
  num_le := hlt
  unique := by rw [slots_append h hlt]; exact hU
  live := by
    have hlen : t.entryNum < t.entries.length := by rw [h.size]; exact hlt
    intro x hx hd
    rw [List.take_add_one, List.take_set_of_le le_rfl, List.getElem?_set_self hlen, List.mem_append] at hx
    rcases hx with hx | hx
    · exact h.live x hx hd
    · rw [Option.toList_some, List.mem_singleton] at hx
      subst hx
      exact he hd

end Slots

/-! ### Each function on the slots -/

/-- The capacity after the next growth. -/
def nutNextCap (cap : ℕ) : ℕ := if cap < 256 then cap * 2 else cap + cap / 4

/-- There is neither a deleted entry nor room behind the entries in use. -/
def Nut.Full (t : Nut) : Prop := t.entryNum = t.tableCap ∧ firstHole t.slots = none

/-- `nut_set` of the key calls `nut_grow`. -/
def Nut.Grows (t : Nut) (k : List UInt8) : Prop := t.Full ∧ lookup t.slots k = none

instance (t : Nut) : Decidable t.Full := inferInstanceAs (Decidable (_ ∧ _))

instance (t : Nut) (k : List UInt8) : Decidable (t.Grows k) := inferInstanceAs (Decidable (_ ∧ _))

section Functions

variable {t : Nut} {name : List UInt8} {n : ℕ} {addr : SockaddrIn} {malloc : Option (ℕ → NutEntry)}

/-- A new table is empty. -/
theorem nutCreate_wf (initSize : ℤ) (junk : ℕ → NutEntry) :
    (nutCreate initSize junk).WF ∧ (nutCreate initSize junk).slots = [] := by
  have hcap : 0 < (nutCreate initSize junk).tableCap ∧ (nutCreate initSize junk).tableCap ≤ 32 := by
    simp only [nutCreate]
    split_ifs <;> constructor <;> omega
  have hslots : (nutCreate initSize junk).slots = [] := rfl
  refine ⟨⟨hcap.1, by omega, by simp [nutCreate], Nat.zero_le _, ?_, by simp [nutCreate]⟩, hslots⟩
  rw [hslots]
  intro i j k v w hi
  exact absurd hi at_nil

theorem lt_nutNextCap {cap : ℕ} (h : 0 < cap) : cap < nutNextCap cap := by
  unfold nutNextCap
  split_ifs <;> omega

/-- `nut_grow` moves the entries into a larger array, or runs out of memory. -/
theorem nutGrow_cases (malloc : Option (ℕ → NutEntry)) (h : t.WF) :
    ((malloc = none ∨ 2 ^ 31 ≤ nutNextCap t.tableCap) ∧ nutGrow t malloc = .error .outOfMemory) ∨
      (nutNextCap t.tableCap < 2 ^ 31 ∧ ∃ t', nutGrow t malloc = .ok t' ∧ t'.WF ∧
        t'.slots = t.slots ∧ t'.entryNum = t.entryNum ∧ t'.entryNum < t'.tableCap ∧
        t'.arr = t.arr + 1) := by
  have hcap := h.cap_lt
  have hlt := lt_nutNextCap h.cap_pos
  have hnext : nutNextCap t.tableCap < 2 ^ 32 := by
    unfold nutNextCap
    split_ifs <;> omega
  rcases malloc with _ | junk
  · exact Or.inl ⟨Or.inl rfl, rfl⟩
  · rw [nutGrow, ← nutNextCap]
    rcases Nat.lt_or_ge (nutNextCap t.tableCap) (2 ^ 31) with hsmall | hbig
    · right
      have hnum := h.num_le
      have htake : (t.entries.take t.entryNum).length = t.entryNum := by
        rw [List.length_take, h.size]
        exact min_eq_left hnum
      have hkeep : ∀ es, (t.entries.take t.entryNum ++ es).take t.entryNum =
          t.entries.take t.entryNum := fun es => by rw [List.take_left' htake]
      simp only [asInt_of_lt hsmall, Int.toNat_natCast]
      rw [if_neg (by omega)]
      refine ⟨hsmall, _, rfl, ⟨by dsimp only; omega, by dsimp only; omega, ?_, by dsimp only; omega,
        ?_, ?_⟩, ?_, rfl, by dsimp only; omega, rfl⟩
      · rw [List.length_append, htake, List.length_map, List.length_range]
        dsimp only
        omega
      · rw [Nut.slots]
        dsimp only
        rw [hkeep]
        exact h.unique
      · dsimp only
        rw [hkeep]
        exact h.live
      · rw [Nut.slots, Nut.slots, hkeep]
    · left
      have hneg : asInt (nutNextCap t.tableCap) < 0 := by
        rw [asInt, Nat.mod_eq_of_lt hnext, if_neg (by omega)]
        omega
      exact ⟨Or.inr hbig, if_pos hneg⟩

/-- One more address for a live entry that does not list it. -/
theorem NutEntry.Live.addAddr {e : NutEntry} (h : e.Live) (hd : e.deleted ≠ 1)
    (hnew : e.addrs.any (sameAddr · addr) = false) (hlt : e.addrNum < maxAddrPername) :
    ∃ e', e.addAddr addr = .ok e' ∧ e'.Live ∧ e'.slot = some (e.key, e.addrs ++ [addr]) := by
  have haddrs : (e.addr.set e.addrNum addr).take (e.addrNum + 1) = e.addrs ++ [addr] := by
    have hsize : e.addrNum < e.addr.length := by rw [e.addr_size]; exact hlt
    rw [List.take_add_one, List.take_set_of_le le_rfl, List.getElem?_set_self hsize]
    rfl
  refine ⟨_, if_pos hlt, ⟨h.nameLen, Nat.succ_pos _, hlt, ?_⟩, ?_⟩
  · rw [NutEntry.addrs]
    dsimp only
    rw [haddrs, List.map_append, List.map_singleton, List.nodup_append_comm]
    refine List.nodup_cons.2 ⟨fun hmem => ?_, h.nodup⟩
    obtain ⟨a, ha, heq⟩ := List.mem_map.1 hmem
    have hne := List.any_eq_false.1 hnew a ha
    obtain ⟨h1, h2⟩ := Prod.mk.inj heq
    simp [sameAddr, h1, h2] at hne
  · rw [NutEntry.slot, if_neg hd]
    exact congrArg (fun as => some (e.key, as)) haddrs

/-- The entry written for a new name. -/
theorem NutEntry.renew_live (e : NutEntry) (addr : SockaddrIn) {key : List UInt8}
    (h : key.length ≤ maxNamelen) :
    (e.renew key addr h).Live ∧ (e.renew key addr h).slot = some (key, [addr]) := by
  have haddrs : (e.addr.set 0 addr).take 1 = [addr] := by
    have hsize : 0 < e.addr.length := by rw [e.addr_size]; decide
    rw [List.take_add_one, List.getElem?_set_self hsize]
    rfl
  refine ⟨⟨h, Nat.one_pos, show 1 ≤ 8 by omega, ?_⟩, ?_⟩
  · rw [NutEntry.addrs]
    simp [renew, haddrs]
  · rw [NutEntry.slot, if_neg (by simp [renew]), NutEntry.key, NutEntry.addrs]
    simp [renew, haddrs]

/-- What `nut_set` can do, by the slots of the table: the address is listed already, the entry has
no room for it, it joins the entry, it gets a new entry, or the array can not grow. -/
inductive SetOutcome (t : Nut) (k : List UInt8) (addr : SockaddrIn)
    (malloc : Option (ℕ → NutEntry)) : Except Fault (Nut × ℤ) → Prop
  | same {i as} (hat : At t.slots i k as) (hany : as.any (sameAddr · addr) = true) :
      SetOutcome t k addr malloc (.ok (t, 0))
  | full {i as} (hat : At t.slots i k as) (hany : as.any (sameAddr · addr) = false)
      (hlen : as.length = maxAddrPername) : SetOutcome t k addr malloc (.ok (t, -1))
  | add {i as t'} (hat : At t.slots i k as) (hany : as.any (sameAddr · addr) = false)
      (hlen : as.length < maxAddrPername) (hwf : t'.WF)
      (hslots : t'.slots = t.slots.set i (some (k, as ++ [addr]))) (harr : t'.arr = t.arr) :
      SetOutcome t k addr malloc (.ok (t', 1))
  | new {t'} (hnone : lookup t.slots k = none) (hwf : t'.WF)
      (hslots : t'.slots = SlotTable.insert t.slots k [addr])
      (harr : t'.arr = if t.Full then t.arr + 1 else t.arr)
      (hcap : t.Full → nutNextCap t.tableCap < 2 ^ 31) : SetOutcome t k addr malloc (.ok (t', 1))
  | oom (hnone : lookup t.slots k = none) (hfull : t.Full)
      (hmem : malloc = none ∨ 2 ^ 31 ≤ nutNextCap t.tableCap) :
      SetOutcome t k addr malloc (.error .outOfMemory)

/-- Where `nut_set` puts a new entry: into the first hole, or behind the entries in use of an array
with room for it, which it has allocated if need be. -/
theorem nutSlotFor_cases (malloc : Option (ℕ → NutEntry)) (h : t.WF) :
    (t.Full ∧ (malloc = none ∨ 2 ^ 31 ≤ nutNextCap t.tableCap) ∧
      nutSlotFor t (firstHole t.slots) malloc = .error .outOfMemory) ∨
    (∃ i, firstHole t.slots = some i ∧ nutSlotFor t (firstHole t.slots) malloc = .ok (t, i)) ∨
    (∃ t' : Nut, firstHole t.slots = none ∧ t'.WF ∧ t'.slots = t.slots ∧
      (t'.arr = if t.Full then t.arr + 1 else t.arr) ∧
      (t.Full → nutNextCap t.tableCap < 2 ^ 31) ∧ t'.entryNum < t'.tableCap ∧
      nutSlotFor t (firstHole t.slots) malloc =
        .ok ({ t' with entryNum := t'.entryNum + 1 }, t'.entryNum)) := by
  rcases hhole : firstHole t.slots with _ | i
  · by_cases hcap : t.entryNum = t.tableCap
    · have hfull : t.Full := ⟨hcap, hhole⟩
      rcases nutGrow_cases malloc h with
        ⟨hmem, hg⟩ | ⟨hcap', t', hg, hwf, hs, hnum, hlt, harr⟩
      · refine Or.inl ⟨hfull, hmem, ?_⟩
        simp only [nutSlotFor, if_pos hcap, hg, bind, Except.bind]
      · refine Or.inr (Or.inr ⟨t', rfl, hwf, hs, by rw [if_pos hfull, harr], fun _ => hcap', hlt, ?_⟩)
        simp only [nutSlotFor, if_pos hcap, hg, bind, Except.bind, hnum]
    · have hfull : ¬ t.Full := fun hf => hcap hf.1
      refine Or.inr (Or.inr ⟨t, rfl, h, rfl, by rw [if_neg hfull], fun hf => absurd hf hfull,
        lt_of_le_of_ne h.num_le hcap, ?_⟩)
      simp only [nutSlotFor, if_neg hcap, bind, Except.bind]
  · exact Or.inr (Or.inl ⟨i, rfl, rfl⟩)

/-- What `nut_set` does with a name that lies inside its object. -/
theorem nutSet_outcome (addr : SockaddrIn) (malloc : Option (ℕ → NutEntry)) (h : t.WF)
    (hn : n ≤ name.length) :
    SetOutcome t (nutKey (name.take n)) addr malloc (nutSet t name n addr malloc) := by
  have hscan := nutSetScan_eq addr h.live hn 0 none
  rw [← Nut.slots, scanResult] at hscan
  have hkey : (nutKey (name.take n)).length ≤ maxNamelen := by
    rw [length_nutKey]
    exact min_le_right _ _
  rw [nutSet, hscan]
  rcases hf : find (nutKey (name.take n)) t.slots with _ | ⟨j, as⟩
  · -- the key is absent
    have hnone : lookup t.slots (nutKey (name.take n)) = none := by rw [lookup, hf]; rfl
    have hhole : (none : Option ℕ).or ((firstHole t.slots).map (0 + ·)) = firstHole t.slots := by
      simp
    simp only [hhole, bind, Except.bind]
    rcases nutSlotFor_cases malloc h with
      ⟨hfull, hmem, hslot⟩ | ⟨i, hi, hslot⟩ | ⟨t', hi, hwf, hs, harr, hcap, hlt, hslot⟩
    · rw [hslot]
      exact .oom hnone hfull hmem
    · rw [hslot]
      have hilt : i < t.entryNum := by
        rw [← length_slots h]
        exact (List.getElem?_eq_some_iff.1 (firstHole_eq_some hi)).1
      have hilen : i < t.entries.length := by rw [h.size]; exact hilt.trans_le h.num_le
      obtain ⟨hl, hslot'⟩ := t.entries[i].renew_live addr hkey
      have hins : SlotTable.insert t.slots (nutKey (name.take n)) [addr] =
          t.slots.set i (some (nutKey (name.take n), [addr])) := by
        rw [SlotTable.insert, hi]
      simp only [nutWriteEntry, List.getElem?_eq_getElem hilen, nameToStore_eq hn, bind, Except.bind,
        dif_pos hkey]
      have hfull : ¬ t.Full := fun hf => by
        rw [hf.2] at hi
        cases hi
      refine .new hnone (h.setEntry (fun _ => hl) ?_) ?_ (if_neg hfull).symm (absurd · hfull)
      · rw [hslot', ← hins]
        exact h.unique.insert hnone _
      · rw [slots_set, hslot', hins]
    · rw [hslot]
      have hilen : t'.entryNum < t'.entries.length := by rw [hwf.size]; exact hlt
      obtain ⟨hl, hslot'⟩ := t'.entries[t'.entryNum].renew_live addr hkey
      have hins : SlotTable.insert t.slots (nutKey (name.take n)) [addr] =
          t'.slots ++ [some (nutKey (name.take n), [addr])] := by
        rw [SlotTable.insert, hi, hs]
      simp only [nutWriteEntry, List.getElem?_eq_getElem hilen, nameToStore_eq hn, bind, Except.bind,
        dif_pos hkey]
      refine .new hnone (hwf.appendEntry hlt (fun _ => hl) ?_) ?_ harr hcap
      · rw [hslot', ← hins]
        exact h.unique.insert hnone _
      · rw [slots_append hwf hlt, hslot', hins]
  · -- the key is present, in entry `j`
    have hat : At t.slots j (nutKey (name.take n)) as := find_eq_some hf
    obtain ⟨e, he, hj, hd, hek, rfl⟩ := at_slots_iff.1 hat
    have hlive : e.Live := h.live e (List.mem_take_iff_getElem.2 ⟨j, by
      have := (List.getElem?_eq_some_iff.1 he).1
      omega, (List.getElem?_eq_some_iff.1 he).2⟩) hd
    simp only [bind, Except.bind]
    cases hany : e.addrs.any (sameAddr · addr) with
    | true => exact .same hat hany
    | false =>
      by_cases hlen : e.addrs.length = maxAddrPername
      · simp only [Bool.false_eq_true, if_false, if_pos hlen]
        exact .full hat hany hlen
      · have hlt : e.addrNum < maxAddrPername :=
          lt_of_le_of_ne hlive.addr_le (by rwa [← hlive.length_addrs])
        obtain ⟨e', hadd, hlive', hslot⟩ := hlive.addAddr hd hany hlt
        rw [hek] at hslot
        simp only [Bool.false_eq_true, if_false, if_neg hlen, Nat.zero_add, he, hadd]
        refine .add hat hany (by rw [hlive.length_addrs]; exact hlt)
          (h.setEntry (fun _ => hlive') ?_) ?_ rfl
        · rw [hslot]
          exact h.unique.setAt hat _
        · rw [slots_set, hslot]

/-- `nut_set` keeps the invariant, and never goes back to an earlier array. -/
theorem SetOutcome.wf {t t' : Nut} {k : List UInt8} {ret : ℤ}
    (hset : SetOutcome t k addr malloc (.ok (t', ret))) (h : t.WF) : t'.WF ∧ t.arr ≤ t'.arr := by
  cases hset with
  | same => exact ⟨h, le_rfl⟩
  | full => exact ⟨h, le_rfl⟩
  | add hat hany hlen hwf hslots harr => exact ⟨hwf, harr.ge⟩
  | new hnone hwf hslots harr => exact ⟨hwf, by rw [harr]; split_ifs <;> omega⟩

/-- Where `nut_set` does not return 1, it leaves the table as it is. -/
theorem SetOutcome.eq_of_ne_one {t t' : Nut} {k : List UInt8} {ret : ℤ}
    (hset : SetOutcome t k addr malloc (.ok (t', ret))) (hret : ret ≠ 1) : t' = t := by
  cases hset with
  | same | full => rfl
  | add | new => exact absurd rfl hret

/-- `nut_set` moves no entry and only adds to the addresses of one. -/
theorem SetOutcome.at_mono {t t' : Nut} {k k' : List UInt8} {ret : ℤ} {i : ℕ}
    {as : List SockaddrIn} (hset : SetOutcome t k addr malloc (.ok (t', ret)))
    (hat' : At t.slots i k' as) : ∃ as', At t'.slots i k' as' ∧ as <+: as' := by
  cases hset with
  | same => exact ⟨as, hat', List.prefix_refl as⟩
  | full => exact ⟨as, hat', List.prefix_refl as⟩
  | add hat hany hlen hwf hslots harr =>
    rename_i j bs
    rw [hslots]
    by_cases hij : i = j
    · subst hij
      obtain ⟨rfl, rfl⟩ := hat.inj hat'
      exact ⟨_, (at_set_iff hat.lt).2 (Or.inl ⟨rfl, rfl⟩), List.prefix_append _ _⟩
    · exact ⟨as, hat'.set_of_ne (Ne.symm hij), List.prefix_refl as⟩
  | new hnone hwf hslots harr =>
    rw [hslots]
    exact ⟨as, hat'.insert _ _, List.prefix_refl as⟩

/-- `nut_set` comes to an end only with a name that lies inside its object. -/
theorem nutSet_inRange {nlen : ℤ} {r : Nut × ℤ} (h : nutSet t name nlen addr malloc = .ok r) :
    0 ≤ nlen ∧ nlen ≤ name.length := by
  rw [nutSet] at h
  cases hs : nutSetScan name nlen addr (t.entries.take t.entryNum) 0 none with
  | error f => rw [hs] at h; cases h
  | ok s =>
    rcases nutSetScan_inRange hs with ⟨d, rfl⟩ | hr
    · rw [hs] at h
      simp only [bind, Except.bind] at h
      split at h
      · cases h
      · unfold nutWriteEntry at h
        split at h
        · cases h
        · rename_i e he
          cases hk : nameToStore name nlen with
          | error f => rw [hk] at h; cases h
          | ok key => exact nameToStore_inRange hk
    · exact hr

/-- `nut_get` finds the entry of the key. -/
theorem nutGet_eq (h : t.WF) (hn : n ≤ name.length) :
    nutGet t name n = .ok ((find (nutKey (name.take n)) t.slots).map fun p => ⟨t.arr, p.1⟩) := by
  rw [nutGet, nutGetScan_eq h.live hn, ← Nut.slots]
  simp [bind, Except.bind, Option.map_map, Function.comp_def]

/-- A pointer returned by `nut_get` points to the live entry of the key, in the current array. -/
theorem nutGet_some (h : t.WF) {nlen : ℤ} {p : NutEntryPtr}
    (hget : nutGet t name nlen = .ok (some p)) :
    ∃ n : ℕ, nlen = n ∧ n ≤ name.length ∧
      ∃ i as, p = ⟨t.arr, i⟩ ∧ At t.slots i (nutKey (name.take n)) as := by
  have hrange : 0 ≤ nlen ∧ nlen ≤ name.length := by
    rw [nutGet] at hget
    cases hs : nutGetScan name nlen (t.entries.take t.entryNum) 0 with
    | error f => rw [hs] at hget; cases hget
    | ok r =>
      cases r with
      | none => rw [hs] at hget; cases hget
      | some i => exact nutGetScan_inRange hs
  obtain ⟨n, rfl⟩ := Int.eq_ofNat_of_zero_le hrange.1
  have hn : n ≤ name.length := by exact_mod_cast hrange.2
  refine ⟨n, rfl, hn, ?_⟩
  rw [nutGet_eq h hn] at hget
  rcases hf : find (nutKey (name.take n)) t.slots with _ | ⟨i, as⟩
  · rw [hf] at hget
    cases hget
  · rw [hf] at hget
    cases hget
    exact ⟨i, as, rfl, find_eq_some hf⟩

/-- A live entry lists between one and eight addresses, all different. -/
theorem Nut.WF.at_addrs (h : t.WF) {i : ℕ} {k : List UInt8} {as : List SockaddrIn}
    (hat : At t.slots i k as) :
    0 < as.length ∧ as.length ≤ maxAddrPername ∧ (as.map ipPort).Nodup := by
  obtain ⟨e, he, hi, hd, -, rfl⟩ := at_slots_iff.1 hat
  have hlive : e.Live := h.live e (List.mem_of_getElem? (i := i) (by
    rw [List.getElem?_take, if_pos hi, he])) hd
  rw [hlive.length_addrs]
  exact ⟨hlive.addr_pos, hlive.addr_le, hlive.nodup⟩

/-- The entry behind a pointer into the current array. -/
theorem nutDeref_at {i : ℕ} {k : List UInt8} {as : List SockaddrIn} (hat : At t.slots i k as) :
    ∃ e, nutDeref t ⟨t.arr, i⟩ = .ok e ∧ e.addrs = as ∧ e.deleted ≠ 1 := by
  obtain ⟨e, he, -, hd, -, has⟩ := at_slots_iff.1 hat
  exact ⟨e, by simp [nutDeref, he], has, hd⟩

/-- `nut_del` clears the slot of its entry. -/
theorem nutDel_eq (h : t.WF) {i : ℕ} {k : List UInt8} {as : List SockaddrIn}
    (hat : At t.slots i k as) :
    ∃ t', nutDel t ⟨t.arr, i⟩ = .ok t' ∧ t'.WF ∧ t'.slots = t.slots.set i none ∧ t'.arr = t.arr := by
  obtain ⟨e, he, hi, -⟩ := at_slots_iff.1 hat
  have hslot : ({ e with deleted := 1 } : NutEntry).slot = none := if_pos rfl
  have hderef : nutDeref t ⟨t.arr, i⟩ = .ok e := by simp [nutDeref, he]
  refine ⟨{ t with entries := t.entries.set i { e with deleted := 1 } }, ?_, ?_, ?_, rfl⟩
  · simp only [nutDel, hderef, bind, Except.bind]
  · refine h.setEntry (fun hd => absurd rfl hd) ?_
    rw [hslot]
    exact h.unique.clear hat.lt
  · rw [slots_set, hslot]

end Functions

/-! ### Sequences of calls -/

/-- A map from keys to lists of addresses. -/
abbrev AddrMap := List UInt8 → Option (List SockaddrIn)

/-- List an address under a key: 1 if it is new there, 0 if one with the same address and port is
listed, -1 if the list has eight others. -/
def AddrMap.set (m : AddrMap) (k : List UInt8) (a : SockaddrIn) : AddrMap × ℤ :=
  match m k with
  | none => (Function.update m k (some [a]), 1)
  | some as =>
      if ∃ b ∈ as, ipPort b = ipPort a then (m, 0)
      else if as.length = maxAddrPername then (m, -1)
      else (Function.update m k (some (as ++ [a])), 1)

/-- Remove a key. -/
def AddrMap.del (m : AddrMap) (k : List UInt8) : AddrMap := Function.update m k none

section AddrMap

variable {m : AddrMap} {k k' : List UInt8} {a : SockaddrIn}

/-- The other keys keep their lists. -/
theorem AddrMap.set_of_ne (hk : k' ≠ k) : (m.set k a).1 k' = m k' := by
  unfold AddrMap.set
  split
  · exact Function.update_of_ne hk _ _
  · split_ifs
    · rfl
    · rfl
    · exact Function.update_of_ne hk _ _

/-- The list under the key grows by the address when `set` returns 1, and only then. -/
theorem AddrMap.set_self : ((m.set k a).1 k).getD [] =
    if (m.set k a).2 = 1 then (m k).getD [] ++ [a] else (m k).getD [] := by
  unfold AddrMap.set
  rcases hm : m k with _ | as
  · simp
  · dsimp only
    split_ifs <;> simp_all

/-- After `set` the key has a list. -/
theorem AddrMap.set_ne_none : (m.set k a).1 k ≠ none := by
  unfold AddrMap.set
  rcases hm : m k with _ | as
  · simp
  · dsimp only
    split_ifs <;> simp [hm]

end AddrMap

/-- A name as it is handed over: an object, and a length inside it. -/
structure NameArg where
  object : List UInt8
  nlen : ℕ
  inRange : nlen ≤ object.length

/-- The key of a name. -/
def NameArg.key (name : NameArg) : List UInt8 := nutKey (name.object.take name.nlen)

/-- The calls: `nut_set`, `nut_get`, and `nut_get` with `nut_del` of the entry it returns. -/
inductive NutOp
  | set (name : NameArg) (addr : SockaddrIn) (malloc : Option (ℕ → NutEntry))
  | get (name : NameArg)
  | getDel (name : NameArg)

/-- What the caller sees: the number returned by `nut_set`; the addresses in the entry returned by
`nut_get`, or `NULL`. -/
inductive NutReturn
  | set (ret : ℤ)
  | get (addrs : Option (List SockaddrIn))
  deriving DecidableEq

/-- A call of the table. -/
def nutStep : Step Nut NutOp NutReturn Fault
  | t, .set name addr malloc => do
      let (t, ret) ← nutSet t name.object name.nlen addr malloc
      .ok (t, [.set ret])
  | t, .get name => do
      match ← nutGet t name.object name.nlen with
      | none => .ok (t, [.get none])
      | some entry => do
          let e ← nutDeref t entry
          .ok (t, [.get (some e.addrs)])
  | t, .getDel name => do
      match ← nutGet t name.object name.nlen with
      | none => .ok (t, [.get none])
      | some entry => do
          let e ← nutDeref t entry
          let t ← nutDel t entry
          .ok (t, [.get (some e.addrs)])

/-- The same call on the map. -/
def mapStep : Step AddrMap NutOp NutReturn Fault
  | m, .set name addr _ => .ok ((m.set name.key addr).1, [.set (m.set name.key addr).2])
  | m, .get name => .ok (m, [.get (m name.key)])
  | m, .getDel name => .ok (m.del name.key, [.get (m name.key)])

/-- Where the call has to grow the array, the allocation succeeds and the capacity stays an `int`. -/
def NutAllocOk (t : Nut) : NutOp → Prop
  | .set name _ malloc => t.Grows name.key → malloc.isSome ∧ nutNextCap t.tableCap < 2 ^ 31
  | _ => True

instance (t : Nut) : (op : NutOp) → Decidable (NutAllocOk t op)
  | .set _ _ _ => inferInstanceAs (Decidable (_ → _))
  | .get _ => isTrue trivial
  | .getDel _ => isTrue trivial

/-- The map a table stands for. -/
def Nut.abs (t : Nut) : AddrMap := lookup t.slots

theorem any_sameAddr_iff {as : List SockaddrIn} {a : SockaddrIn} :
    as.any (sameAddr · a) = true ↔ ∃ b ∈ as, ipPort b = ipPort a := by
  simp [sameAddr, ipPort, List.any_eq_true]

/-- Where `nut_set` returns, it is `set` on the map. -/
theorem SetOutcome.refines {t t' : Nut} {k : List UInt8} {addr : SockaddrIn} {ret : ℤ}
    {malloc : Option (ℕ → NutEntry)} (hset : SetOutcome t k addr malloc (.ok (t', ret))) (h : t.WF) :
    t.abs.set k addr = (t'.abs, ret) := by
  cases hset with
  | same hat hany =>
    rw [AddrMap.set, Nut.abs, hat.lookup h.unique]
    dsimp only
    rw [if_pos (any_sameAddr_iff.1 hany)]
  | full hat hany hlen =>
    rw [← Bool.not_eq_true, any_sameAddr_iff] at hany
    rw [AddrMap.set, Nut.abs, hat.lookup h.unique]
    dsimp only
    rw [if_neg hany, if_pos hlen]
  | add hat hany hlen hwf hslots =>
    rw [← Bool.not_eq_true, any_sameAddr_iff] at hany
    rw [AddrMap.set, Nut.abs, Nut.abs, hslots, lookup_setAt h.unique hat, hat.lookup h.unique]
    dsimp only
    rw [if_neg hany, if_neg hlen.ne]
  | new hnone hwf hslots =>
    rw [AddrMap.set, Nut.abs, Nut.abs, hslots, lookup_insert h.unique hnone, hnone]

/-- `nut_set` returns where its allocation succeeds. -/
theorem nutSet_refines {t : Nut} {name : List UInt8} {n : ℕ} (addr : SockaddrIn)
    {malloc : Option (ℕ → NutEntry)} (h : t.WF) (hn : n ≤ name.length)
    (halloc : t.Grows (nutKey (name.take n)) →
      malloc.isSome ∧ nutNextCap t.tableCap < 2 ^ 31) :
    ∃ t', nutSet t name n addr malloc = .ok (t', (t.abs.set (nutKey (name.take n)) addr).2) ∧
      t'.abs = (t.abs.set (nutKey (name.take n)) addr).1 ∧ t'.WF := by
  have hout := nutSet_outcome addr malloc h hn
  rcases hret : nutSet t name n addr malloc with f | ⟨t', r⟩
  · rw [hret] at hout
    cases hout with
    | oom hnone hfull hmem =>
      obtain ⟨hsome, hcap⟩ := halloc ⟨hfull, hnone⟩
      rcases hmem with rfl | hmem
      · cases hsome
      · omega
  · rw [hret] at hout
    have href := hout.refines h
    exact ⟨t', by rw [href], by rw [href], (hout.wf h).1⟩

/-- `nut_del` is `del` on the map. -/
theorem abs_clear {t t' : Nut} {i : ℕ} {k : List UInt8} {as : List SockaddrIn} (h : t.WF)
    (hat : At t.slots i k as) (hslots : t'.slots = t.slots.set i none) : t'.abs = t.abs.del k := by
  rw [Nut.abs, hslots, lookup_clear h.unique hat]
  rfl

/-- Each call of the table is the call of the map. -/
theorem nutStep_refines : Refines nutStep mapStep NutAllocOk Nut.WF Nut.abs := by
  intro t op h halloc
  have hget : ∀ name : NameArg,
      (t.abs name.key = none ∧ nutGet t name.object name.nlen = .ok none) ∨
      ∃ i as e, At t.slots i name.key as ∧ t.abs name.key = some as ∧ e.addrs = as ∧
        nutDeref t ⟨t.arr, i⟩ = .ok e ∧ nutGet t name.object name.nlen = .ok (some ⟨t.arr, i⟩) := by
    intro name
    rw [nutGet_eq h name.inRange, ← NameArg.key, Nut.abs, lookup]
    rcases hf : find name.key t.slots with _ | ⟨i, as⟩
    · exact Or.inl ⟨rfl, rfl⟩
    · obtain ⟨e, he, has, -⟩ := nutDeref_at (find_eq_some hf)
      exact Or.inr ⟨i, as, e, find_eq_some hf, rfl, has, he, rfl⟩
  cases op with
  | set name addr malloc =>
    obtain ⟨t', hset, habs, hwf⟩ := nutSet_refines addr h name.inRange halloc
    refine ⟨t', [.set (t.abs.set name.key addr).2], ?_, ?_, hwf⟩
    · simp only [nutStep, hset, bind, Except.bind]
      rfl
    · rw [mapStep, habs, NameArg.key]
  | get name =>
    rcases hget name with ⟨hnone, hg⟩ | ⟨i, as, e, -, hsome, has, he, hg⟩
    · refine ⟨t, [.get none], ?_, by rw [mapStep, hnone], h⟩
      simp only [nutStep, hg, bind, Except.bind]
    · refine ⟨t, [.get (some as)], ?_, by rw [mapStep, hsome], h⟩
      simp only [nutStep, hg, he, has, bind, Except.bind]
  | getDel name =>
    rcases hget name with ⟨hnone, hg⟩ | ⟨i, as, e, hat, hsome, has, he, hg⟩
    · refine ⟨t, [.get none], ?_, ?_, h⟩
      · simp only [nutStep, hg, bind, Except.bind]
      · have hdel : t.abs.del name.key = t.abs := by
          rw [AddrMap.del, ← hnone, Function.update_eq_self]
        rw [mapStep, hnone, hdel]
    · obtain ⟨t', hdel, hwf, hslots, -⟩ := nutDel_eq h hat
      refine ⟨t', [.get (some as)], ?_, ?_, hwf⟩
      · simp only [nutStep, hg, he, has, hdel, bind, Except.bind]
      · rw [mapStep, hsome, abs_clear h hat hslots]

/-- A table that has just been created is the empty map. -/
theorem nutCreate_abs (initSize : ℤ) (junk : ℕ → NutEntry) :
    (nutCreate initSize junk).abs = fun _ => none := by
  funext k
  rw [Nut.abs, (nutCreate_wf initSize junk).2]
  rfl

/-- The table cannot be told from a map that starts empty: whatever size it is created with and
whatever the fresh memory holds, every sequence of calls returns the same. -/
theorem nut_refines_map (initSize : ℤ) (junk : ℕ → NutEntry) (ops : List NutOp)
    (halloc : Along nutStep NutAllocOk (nutCreate initSize junk) ops) :
    ∃ t m os, exec nutStep (nutCreate initSize junk) ops = .ok (t, os) ∧
      exec mapStep (fun _ => none) ops = .ok (m, os) ∧ t.abs = m := by
  obtain ⟨hwf, -⟩ := nutCreate_wf initSize junk
  obtain ⟨t, os, ht, hm, -⟩ := nutStep_refines.exec hwf halloc
  rw [nutCreate_abs] at hm
  exact ⟨t, t.abs, os, ht, hm, rfl⟩

/-- A table of one entry that grows for a second name, and then reuses the entry of the first. -/
theorem nut_refines_map_reuse :
    let name (b : UInt8) : NameArg := ⟨[b], 1, le_rfl⟩
    let ops : List NutOp := [.set (name 97) ⟨2, 1, 1⟩ none, .set (name 98) ⟨2, 2, 2⟩ (some fun _ => .zero),
      .getDel (name 97), .set (name 99) ⟨2, 3, 3⟩ none, .get (name 98)]
    ∃ t m os, exec nutStep (nutCreate 1 fun _ => .zero) ops = .ok (t, os) ∧
      exec mapStep (fun _ => none) ops = .ok (m, os) ∧ t.abs = m :=
  nut_refines_map 1 (fun _ => .zero) _ (by decide +kernel)

end MixSim
