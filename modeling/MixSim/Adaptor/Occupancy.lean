import MixSim.Adaptor.NameUdpMap
import Mathlib.Order.Bounds.Basic
import Mathlib.Data.Set.Card

/-!
# How much of the table is in use

A new name takes a deleted entry as long as there is one, so the number of entries in use is the
largest number of names that were ever live at a time (`nut_occupies_peak`), the deleted entries
among them are the difference to the names live now, and the capacity is the first one in the
sequence of capacities that is large enough.
-/

namespace MixSim

open SlotTable Execution

/-- The names of the live entries. -/
def Nut.liveNames (t : Nut) : List (List UInt8) :=
  ((t.entries.take t.entryNum).filter (·.deleted ≠ 1)).map NutEntry.key

/-- The number of deleted entries among the ones in use. -/
def Nut.deletedNum (t : Nut) : ℕ := (t.entries.take t.entryNum).countP (·.deleted = 1)

/-- The number of names that are bound in the map. -/
noncomputable def AddrMap.boundNum (m : AddrMap) : ℕ := {k | m k ≠ none}.ncard

/-- The capacity a table is created with. -/
def clampedSize (initSize : ℤ) : ℕ := if initSize ≤ 0 ∨ initSize ≥ 32 then 32 else initSize.toNat

/-- The capacities that a table can have. -/
def capacities (initSize : ℤ) : Set ℕ := Set.range fun k => nutNextCap^[k] (clampedSize initSize)

section Table

variable {t t' : Nut} {name : List UInt8} {n i : ℕ} {addr : SockaddrIn}
  {malloc : Option (ℕ → NutEntry)} {ret : ℤ}

theorem liveNames_eq_keys (t : Nut) : t.liveNames = keys t.slots := by
  rw [Nut.liveNames, Nut.slots, keys, List.filterMap_map]
  induction t.entries.take t.entryNum with
  | nil => rfl
  | cons e es ih =>
    by_cases hd : e.deleted = 1
    · have hslot : (Option.map Prod.fst ∘ NutEntry.slot) e = none := by simp [NutEntry.slot, hd]
      rw [List.filter_cons_of_neg (by simpa using hd), List.filterMap_cons_none hslot, ih]
    · have hslot : (Option.map Prod.fst ∘ NutEntry.slot) e = some e.key := by
        simp [NutEntry.slot, hd]
      rw [List.filter_cons_of_pos (by simpa using hd), List.filterMap_cons_some hslot,
        List.map_cons, ih]

/-- The live names are the ones that the map binds. -/
theorem mem_liveNames_iff {t : Nut} {k : List UInt8} : k ∈ t.liveNames ↔ t.abs k ≠ none := by
  rw [liveNames_eq_keys, mem_keys_iff, Nut.abs, Ne, lookup_eq_none_iff]
  push Not
  rfl

theorem liveNames_nodup (h : t.WF) : t.liveNames.Nodup := by
  rw [liveNames_eq_keys]
  exact h.unique.nodup_keys

theorem boundNum_abs (h : t.WF) : t.abs.boundNum = t.liveNames.length := by
  have hset : {k | t.abs k ≠ none} = t.liveNames.toFinset := by
    ext k
    rw [Set.mem_ofPred_eq, Finset.mem_coe, List.mem_toFinset, mem_liveNames_iff]
  rw [AddrMap.boundNum, hset, Set.ncard_coe_finset, List.toFinset_card_of_nodup (liveNames_nodup h)]

/-- Live and deleted entries are the entries in use. -/
theorem liveNames_add_deletedNum (h : t.WF) : t.liveNames.length + t.deletedNum = t.entryNum := by
  have hlen := length_slots h
  rw [Nut.slots, List.length_map] at hlen
  have hsplit := List.length_eq_countP_add_countP (fun e : NutEntry => decide (e.deleted = 1))
    (l := t.entries.take t.entryNum)
  have hlive : (t.entries.take t.entryNum).countP (fun e => ¬ decide (e.deleted = 1) = true) =
      (t.entries.take t.entryNum).countP (fun e => e.deleted ≠ 1) :=
    List.countP_congr fun e _ => by simp
  rw [Nut.liveNames, List.length_map, ← List.countP_eq_length_filter, Nut.deletedNum]
  omega

theorem liveNames_le (h : t.WF) : t.liveNames.length ≤ t.entryNum := by
  have := liveNames_add_deletedNum h
  omega

/-- What a call can do to the numbers of the table: it takes one more entry only when all entries in
use are live, and grows the array only when they fill it. -/
structure Occupies (t t' : Nut) : Prop where
  entryNum : t'.entryNum = t.entryNum ∨
    t'.entryNum = t.entryNum + 1 ∧ t'.liveNames.length = t'.entryNum
  tableCap : t'.tableCap = t.tableCap ∨ t'.tableCap = nutNextCap t.tableCap ∧
    t.tableCap = t.entryNum ∧ t'.entryNum = t.entryNum + 1

theorem Occupies.refl (t : Nut) : Occupies t t := ⟨Or.inl rfl, Or.inl rfl⟩

theorem nutGrow_tableCap (h : t.WF) (hg : nutGrow t malloc = .ok t') :
    t'.tableCap = nutNextCap t.tableCap := by
  rcases nutGrow_cases malloc h with ⟨-, he⟩ | ⟨hsmall, -⟩
  · rw [hg] at he
    cases he
  · rcases malloc with _ | junk
    · cases hg
    · rw [nutGrow, ← nutNextCap] at hg
      simp only [asInt_of_lt hsmall, Int.toNat_natCast] at hg
      rw [if_neg (by omega)] at hg
      cases hg
      rfl

theorem nutSlotFor_tableCap (h : t.WF) {d : Option ℕ} (hs : nutSlotFor t d malloc = .ok (t', i)) :
    t'.tableCap = t.tableCap ∨ t'.tableCap = nutNextCap t.tableCap ∧
      t.tableCap = t.entryNum ∧ t'.entryNum = t.entryNum + 1 := by
  rcases d with _ | d
  · unfold nutSlotFor at hs
    by_cases hfull : t.entryNum = t.tableCap
    · rw [if_pos hfull] at hs
      obtain ⟨g, hg, hok⟩ := bind_eq_ok hs
      cases hok
      have hcap := nutGrow_tableCap h hg
      exact Or.inr ⟨hcap, hfull.symm, rfl⟩
    · rw [if_neg hfull] at hs
      cases hs
      exact Or.inl rfl
  · cases hs
    exact Or.inl rfl

theorem nutWriteEntry_nums {nlen : ℤ} (hw : nutWriteEntry t i name nlen addr = .ok (t', ret)) :
    t'.tableCap = t.tableCap ∧ t'.entryNum = t.entryNum := by
  unfold nutWriteEntry at hw
  split at hw
  · cases hw
  · obtain ⟨key, -, hok⟩ := bind_eq_ok hw
    split at hok
    · cases hok
      exact ⟨rfl, rfl⟩
    · cases hok

/-- `nut_set` grows the array only for an entry behind the ones in use. -/
theorem nutSet_tableCap (h : t.WF) {nlen : ℤ}
    (hset : nutSet t name nlen addr malloc = .ok (t', ret)) :
    t'.tableCap = t.tableCap ∨ t'.tableCap = nutNextCap t.tableCap ∧
      t.tableCap = t.entryNum ∧ t'.entryNum = t.entryNum + 1 := by
  obtain ⟨scan, -, hend⟩ := bind_eq_ok hset
  cases scan with
  | same | full =>
    cases hend
    exact Or.inl rfl
  | add i =>
    dsimp only at hend
    split at hend
    · cases hend
    · obtain ⟨e, -, hok⟩ := bind_eq_ok hend
      cases hok
      exact Or.inl rfl
  | absent d =>
    obtain ⟨⟨g, i⟩, hslot, hwrite⟩ := bind_eq_ok hend
    obtain ⟨hcap, hnum⟩ := nutWriteEntry_nums hwrite
    rw [hcap, hnum]
    exact nutSlotFor_tableCap h hslot

/-- A new name takes a deleted entry if there is one. -/
theorem SetOutcome.occupies {k : List UInt8} (hset : SetOutcome t k addr malloc (.ok (t', ret)))
    (h : t.WF) (hcap : t'.tableCap = t.tableCap ∨ t'.tableCap = nutNextCap t.tableCap ∧
      t.tableCap = t.entryNum ∧ t'.entryNum = t.entryNum + 1) : Occupies t t' := by
  refine ⟨?_, hcap⟩
  cases hset with
  | same | full => exact Or.inl rfl
  | add hat hany hlen hwf hslots =>
    left
    rw [← length_slots hwf, hslots, List.length_set, length_slots h]
  | new hnone hwf hslots =>
    rw [liveNames_eq_keys, ← length_slots hwf, hslots]
    rcases insert_cases t.slots k [addr] with ⟨j, -, -, he⟩ | ⟨hhole, he⟩
    · left
      rw [he, List.length_set, length_slots h]
    · -- no entry is deleted, so each one in use is live, the new one too
      right
      rw [he, length_keys_append, length_keys_of_firstHole hhole, List.length_append, length_slots h]
      exact ⟨rfl, rfl⟩

theorem nutDel_occupies {p : NutEntryPtr} (hdel : nutDel t p = .ok t') : Occupies t t' := by
  obtain ⟨e, -, hok⟩ := bind_eq_ok hdel
  cases hok
  exact ⟨Or.inl rfl, Or.inl rfl⟩

end Table

/-! ### Runs -/

section Runs

variable {t t' : Nut} {op : NutOp} {ops : List NutOp} {os : List NutReturn} {c : ℕ}

/-- Each call keeps the invariant and occupies no more than it needs. -/
theorem nutStep_occupies (h : t.WF) (hs : nutStep t op = .ok (t', os)) : t'.WF ∧ Occupies t t' := by
  cases op with
  | set name addr malloc =>
    obtain ⟨⟨g, ret⟩, hset, hok⟩ := bind_eq_ok hs
    cases hok
    have hout := nutSet_outcome addr malloc h name.inRange
    rw [hset] at hout
    exact ⟨(hout.wf h).1, hout.occupies h (nutSet_tableCap h hset)⟩
  | get name =>
    obtain ⟨p, -, hend⟩ := bind_eq_ok hs
    cases p with
    | none =>
      cases hend
      exact ⟨h, .refl t⟩
    | some p =>
      obtain ⟨e, -, hok⟩ := bind_eq_ok hend
      cases hok
      exact ⟨h, .refl t⟩
  | getDel name =>
    obtain ⟨p, hget, hend⟩ := bind_eq_ok hs
    cases p with
    | none =>
      cases hend
      exact ⟨h, .refl t⟩
    | some p =>
      obtain ⟨e, -, hend⟩ := bind_eq_ok hend
      obtain ⟨g, hdel, hok⟩ := bind_eq_ok hend
      cases hok
      obtain ⟨n, -, hn, i, as, rfl, hat⟩ := nutGet_some h hget
      obtain ⟨t'', hdel', hwf, -⟩ := nutDel_eq h hat
      rw [hdel] at hdel'
      cases hdel'
      exact ⟨hwf, nutDel_occupies hdel⟩

/-- The capacity is the first of the sequence from `c` on that holds the entries in use. -/
def FirstCapacity (c : ℕ) (t : Nut) : Prop :=
  ∃ k, t.tableCap = nutNextCap^[k] c ∧ ∀ j < k, nutNextCap^[j] c < t.entryNum

theorem Occupies.firstCapacity (ho : Occupies t t') (hc : FirstCapacity c t) :
    FirstCapacity c t' := by
  obtain ⟨k, hk, hsmall⟩ := hc
  have hnum : t.entryNum ≤ t'.entryNum := by rcases ho.entryNum with h | ⟨h, -⟩ <;> omega
  rcases ho.tableCap with hcap | ⟨hcap, hfull, hmore⟩
  · exact ⟨k, hcap.trans hk, fun j hj => (hsmall j hj).trans_le hnum⟩
  · -- the array has grown: it was full, so the capacity before is below the new number
    refine ⟨k + 1, by rw [hcap, hk, Function.iterate_succ_apply'], fun j hj => ?_⟩
    rcases Nat.lt_succ_iff_lt_or_eq.1 hj with hj | rfl
    · exact (hsmall j hj).trans_le hnum
    · rw [← hk, hfull, hmore]
      exact Nat.lt_succ_self _

/-- With the entries in use the peak of the live names grows. -/
theorem Occupies.max_eq (ho : Occupies t t') (h' : t'.WF) :
    t'.entryNum = max t.entryNum t'.liveNames.length := by
  have hle := liveNames_le h'
  rcases ho.entryNum with heq | ⟨heq, hlive⟩ <;> omega

/-- What the calls preserve, started with a table of capacity `c`. -/
theorem nutStep_firstCapacity : Inductive nutStep (fun _ _ => True)
    fun t (_ : List NutReturn) => t.WF ∧ FirstCapacity c t := by
  intro t h op t' o hinv _ hs
  obtain ⟨hwf, ho⟩ := nutStep_occupies hinv.1 hs
  exact ⟨hwf, ho.firstCapacity hinv.2⟩

/-- What holds at the end of a run from any table. -/
theorem occupies_run (h : t.WF) (hc : FirstCapacity c t) (he : exec nutStep t ops = .ok (t', os)) :
    t'.WF ∧ FirstCapacity c t' ∧
      t'.entryNum = max t.entryNum (peak nutStep (·.liveNames.length) t ops) := by
  have hinv := nutStep_firstCapacity.exec (h := []) ⟨h, hc⟩ (along_true t ops) he
  refine ⟨hinv.1, hinv.2, ?_⟩
  refine nutStep_firstCapacity.size_eq_peak (·.entryNum) (·.liveNames.length)
    (fun hi => liveNames_le hi.1) (fun hi _ hs => ?_) (h := []) ⟨h, hc⟩ (along_true t ops) he
  obtain ⟨hwf, ho⟩ := nutStep_occupies hi.1 hs
  exact ho.max_eq hwf

end Runs

/-- The orbit of capacities does not go down. -/
theorem nutNextCap_iterate_mono {c j k : ℕ} (hjk : j ≤ k) : nutNextCap^[j] c ≤ nutNextCap^[k] c := by
  induction k, hjk using Nat.le_induction with
  | base => exact le_rfl
  | succ k _ ih =>
    rw [Function.iterate_succ_apply']
    refine ih.trans ?_
    unfold nutNextCap
    split_ifs <;> omega

theorem FirstCapacity.isLeast {initSize : ℤ} {t : Nut} (hc : FirstCapacity (clampedSize initSize) t)
    (h : t.WF) : IsLeast {c | c ∈ capacities initSize ∧ t.entryNum ≤ c} t.tableCap := by
  obtain ⟨k, hk, hsmall⟩ := hc
  refine ⟨⟨⟨k, hk.symm⟩, h.num_le⟩, ?_⟩
  rintro _ ⟨⟨j, rfl⟩, hj⟩
  rw [hk]
  -- each capacity before this one has been outgrown
  refine nutNextCap_iterate_mono (not_lt.1 fun hlt => ?_)
  exact absurd (hsmall j hlt) (not_lt.2 hj)

/-- After any sequence of calls the live names are the ones bound in the map that the calls build
(`nut_refines_map`). The entries in use are as many as names were ever live, or bound, at a time, the
deleted ones among them are the difference to the names live now, and the capacity is the least of
the sequence of capacities that holds them. -/
theorem nut_occupies_peak (initSize : ℤ) (junk : ℕ → NutEntry) (ops : List NutOp)
    (halloc : Along nutStep NutAllocOk (nutCreate initSize junk) ops) :
    ∃ t m os, exec nutStep (nutCreate initSize junk) ops = .ok (t, os) ∧
      exec mapStep (fun _ => none) ops = .ok (m, os) ∧
      t.liveNames.Nodup ∧ (∀ k, k ∈ t.liveNames ↔ m k ≠ none) ∧
      t.entryNum = peak nutStep (·.liveNames.length) (nutCreate initSize junk) ops ∧
      t.entryNum = peak mapStep AddrMap.boundNum (fun _ => none) ops ∧
      t.deletedNum =
        peak nutStep (·.liveNames.length) (nutCreate initSize junk) ops - t.liveNames.length ∧
      IsLeast {c | c ∈ capacities initSize ∧ t.entryNum ≤ c} t.tableCap ∧
      t.entries.length = t.tableCap := by
  obtain ⟨hwf, -⟩ := nutCreate_wf initSize junk
  obtain ⟨t, os, he, hm, -⟩ := nutStep_refines.exec hwf halloc
  have hfirst : FirstCapacity (clampedSize initSize) (nutCreate initSize junk) := by
    refine ⟨0, ?_, fun j hj => absurd hj (Nat.not_lt_zero j)⟩
    simp only [nutCreate, clampedSize, Function.iterate_zero, id]
    split_ifs <;> rfl
  obtain ⟨ht, hc, hnum⟩ := occupies_run hwf hfirst he
  have hlive : t.entryNum = peak nutStep (·.liveNames.length) (nutCreate initSize junk) ops :=
    hnum.trans (max_eq_right (Nat.zero_le _))
  have hbound := nutStep_refines.peak_eq (fun s hs => (boundNum_abs hs).symm) hwf halloc
  rw [nutCreate_abs] at hm hbound
  have hsum := liveNames_add_deletedNum ht
  exact ⟨t, t.abs, os, he, hm, liveNames_nodup ht, fun k => mem_liveNames_iff, hlive,
    hlive.trans hbound, by omega, hc.isLeast ht, ht.size⟩

/-- Two names at a time, then none: the table keeps its two entries. -/
theorem nut_occupies_peak_two :
    let name (b : UInt8) : NameArg := ⟨[b], 1, le_rfl⟩
    let ops : List NutOp := [.set (name 97) ⟨2, 1, 1⟩ none,
      .set (name 98) ⟨2, 2, 2⟩ (some fun _ => .zero), .getDel (name 97), .getDel (name 98)]
    ∃ t m os, exec nutStep (nutCreate 1 fun _ => .zero) ops = .ok (t, os) ∧
      exec mapStep (fun _ => none) ops = .ok (m, os) ∧
      t.liveNames.Nodup ∧ (∀ k, k ∈ t.liveNames ↔ m k ≠ none) ∧
      t.entryNum = peak nutStep (·.liveNames.length) (nutCreate 1 fun _ => .zero) ops ∧
      t.entryNum = peak mapStep AddrMap.boundNum (fun _ => none) ops ∧
      t.deletedNum =
        peak nutStep (·.liveNames.length) (nutCreate 1 fun _ => .zero) ops - t.liveNames.length ∧
      IsLeast {c | c ∈ capacities 1 ∧ t.entryNum ≤ c} t.tableCap ∧
      t.entries.length = t.tableCap :=
  nut_occupies_peak 1 (fun _ => .zero) _ (by decide +kernel)

end MixSim
