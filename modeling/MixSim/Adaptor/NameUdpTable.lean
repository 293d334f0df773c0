import MixSim.Frame
import MixSim.Library.SlotTable

/-!
# The pending table of `name_udp_table.c`

`struct nut` is an array of entries; an entry holds a name of at most 1024 bytes and up to eight
addresses, and is deleted by a flag. `nut_set` scans the first `entry_num` entries, reuses the first
deleted one for a new name, and moves everything into a larger array (`nut_grow`) when there is
none and the array is full. A pointer to an entry therefore names the array it points into: `arr`
counts the arrays, only the last one is allocated, and a pointer into an earlier one is dangling.

A name is handed over as a pointer and an `int`; the list `name` is the object from the pointer to
its end, and reading outside it is a fault. Fresh memory has arbitrary contents (`junk`).

The second half of the file describes each function by the slots of the table: the table is a
`SlotTable` from keys (the last 1024 bytes of a name) to address lists.
-/

namespace MixSim

open SlotTable

/-- `struct sockaddr_in` without its padding. -/
structure SockaddrIn where
  sinFamily : UInt16
  sinPort : UInt16
  sAddr : UInt32
  deriving DecidableEq

/-- `MAX_NAMELEN`. -/
def maxNamelen : ℕ := 1024

/-- `MAX_ADDR_PERNAME`. -/
def maxAddrPername : ℕ := 8

/-- `struct nut_entry`; the field `canstop` is "not enabled". -/
structure NutEntry where
  nameLen : ℕ
  addrNum : ℕ
  deleted : ℕ
  name : List UInt8
  addr : List SockaddrIn
  name_size : name.length = maxNamelen
  addr_size : addr.length = maxAddrPername

/-- An entry in zeroed memory. -/
def NutEntry.zero : NutEntry where
  nameLen := 0
  addrNum := 0
  deleted := 0
  name := List.replicate 1024 0
  addr := List.replicate 8 ⟨0, 0, 0⟩
  name_size := List.length_replicate
  addr_size := List.length_replicate

/-- `struct nut`: `entries` are the contents of the array with number `arr`. -/
structure Nut where
  tableCap : ℕ
  entryNum : ℕ
  arr : ℕ
  entries : List NutEntry

/-- A `nut_entry *`: an index into one of the arrays. -/
structure NutEntryPtr where
  arr : ℕ
  idx : ℕ
  deriving DecidableEq

/-! ### The source's functions -/

/-- `nut_create`. -/
def nutCreate (initSize : ℤ) (junk : ℕ → NutEntry) : Nut :=
  let initSize := if initSize ≤ 0 ∨ initSize ≥ 32 then 32 else initSize
  { tableCap := initSize.toNat
    entryNum := 0
    arr := 0
    entries := (List.range initSize.toNat).map junk }

/-- Read `name[i]`. -/
def readName (name : List UInt8) (i : ℤ) : Except Fault UInt8 :=
  if 0 ≤ i then
    match name[i.toNat]? with
    | some b => .ok b
    | none => .error .outOfBounds
  else .error .outOfBounds

/-- The comparison loop of `nut_entry_namematch`, from the last byte down. -/
def nameCmp (entry : NutEntry) (name : List UInt8) (off : ℤ) : ℕ → Except Fault Bool
  | 0 => .ok true
  | idx + 1 => do
      let b ← readName name (off + idx)
      if entry.name[idx]? ≠ some b then .ok false else nameCmp entry name off idx

/-- `if (nlen > MAX_NAMELEN) { name += nlen - MAX_NAMELEN; nlen = MAX_NAMELEN; }`: how far the
pointer moves, and the new length. -/
def cutName (nlen : ℤ) : ℤ × ℤ :=
  if nlen > maxNamelen then (nlen - maxNamelen, maxNamelen) else (0, nlen)

/-- `nut_entry_namematch(entry, name, nlen) > 0`. -/
def nutEntryNamematch (entry : NutEntry) (name : List UInt8) (nlen : ℤ) : Except Fault Bool :=
  let (off, nlen) := cutName nlen
  if nlen ≠ entry.nameLen then .ok false else nameCmp entry name off nlen.toNat

/-- Same `sin_addr` and same `sin_port`. -/
def sameAddr (a b : SockaddrIn) : Bool := a.sAddr = b.sAddr && a.sinPort = b.sinPort

/-- `nut_entry_fdmatch(entry, addr) > 0`. -/
def nutEntryFdmatch (entry : NutEntry) (addr : SockaddrIn) : Bool :=
  (entry.addr.take entry.addrNum).any (sameAddr · addr)

/-- How the loop of `nut_set` ends: it returns 0 or -1, it adds the address to the entry at `idx`,
or it runs to the end with the first deleted index it has seen. -/
inductive NutScan
  | same
  | full
  | add (idx : ℕ)
  | absent (firstDeleted : Option ℕ)
  deriving DecidableEq

/-- The loop of `nut_set` over the entries from `cur_idx` on. -/
def nutSetScan (name : List UInt8) (nlen : ℤ) (addr : SockaddrIn) :
    List NutEntry → ℕ → Option ℕ → Except Fault NutScan
  | [], _, firstDeleted => .ok (.absent firstDeleted)
  | entry :: rest, curIdx, firstDeleted =>
      if entry.deleted = 1 then
        nutSetScan name nlen addr rest (curIdx + 1) (firstDeleted.or (some curIdx))
      else do
        if ← nutEntryNamematch entry name nlen then
          if nutEntryFdmatch entry addr then .ok .same
          else if entry.addrNum = maxAddrPername then .ok .full
          else .ok (.add curIdx)
        else nutSetScan name nlen addr rest (curIdx + 1) firstDeleted

/-- `entry->addr[entry->addr_num] = addr; entry->addr_num++`. -/
def NutEntry.addAddr (entry : NutEntry) (addr : SockaddrIn) : Except Fault NutEntry :=
  if entry.addrNum < maxAddrPername then
    .ok { entry with
      addr := entry.addr.set entry.addrNum addr
      addrNum := entry.addrNum + 1
      addr_size := by rw [List.length_set]; exact entry.addr_size }
  else .error .outOfBounds

/-- The bytes that `nut_set` copies into `entry->name`: `nlen` bytes of the name, the last 1024 of a
longer one. A negative length becomes a huge `size_t`. -/
def nameToStore (name : List UInt8) (nlen : ℤ) : Except Fault (List UInt8) :=
  let (off, nlen) := cutName nlen
  if 0 ≤ nlen ∧ off + nlen ≤ name.length then .ok ((name.drop off.toNat).take nlen.toNat)
  else .error .outOfBounds

/-- The entry `nut_set` writes for a new name: the rest of the two arrays keeps its old contents. -/
def NutEntry.renew (entry : NutEntry) (key : List UInt8) (addr : SockaddrIn)
    (h : key.length ≤ maxNamelen) : NutEntry where
  nameLen := key.length
  addrNum := 1
  deleted := 0
  name := key ++ entry.name.drop key.length
  addr := entry.addr.set 0 addr
  name_size := by rw [List.length_append, List.length_drop, entry.name_size]; omega
  addr_size := by rw [List.length_set]; exact entry.addr_size

/-- `nut_grow`; `malloc` gives the contents of the new array. A capacity of `2^31` or more is a
negative `int`, and its array would take more than `2^63` bytes, which no `malloc` hands out. -/
def nutGrow (table : Nut) (malloc : Option (ℕ → NutEntry)) : Except Fault Nut :=
  let targetCap := asInt
    (if table.tableCap < 256 then table.tableCap * 2 else table.tableCap + table.tableCap / 4)
  match malloc with
  | none => .error .outOfMemory
  | some junk =>
      if targetCap < 0 then .error .outOfMemory
      else .ok { table with
        arr := table.arr + 1
        entries := table.entries.take table.entryNum ++
          (List.range (targetCap.toNat - table.entryNum)).map junk
        tableCap := targetCap.toNat }

/-- The index for a new entry: the first deleted one, else the next one, after growing if needed. -/
def nutSlotFor (table : Nut) (firstDeleted : Option ℕ) (malloc : Option (ℕ → NutEntry)) :
    Except Fault (Nut × ℕ) :=
  match firstDeleted with
  | some i => .ok (table, i)
  | none => do
      let table' ← if table.entryNum = table.tableCap then nutGrow table malloc else .ok table
      .ok ({ table' with entryNum := table.entryNum + 1 }, table.entryNum)

/-- The end of `nut_set`: write the new name into the entry at `i`. -/
def nutWriteEntry (table : Nut) (i : ℕ) (name : List UInt8) (nlen : ℤ) (addr : SockaddrIn) :
    Except Fault (Nut × ℤ) :=
  match table.entries[i]? with
  | none => .error .outOfBounds
  | some entry => do
      let key ← nameToStore name nlen
      if h : key.length ≤ maxNamelen then
        .ok ({ table with entries := table.entries.set i (entry.renew key addr h) }, 1)
      else .error .outOfBounds

/-- `nut_set`. -/
def nutSet (table : Nut) (name : List UInt8) (nlen : ℤ) (addr : SockaddrIn)
    (malloc : Option (ℕ → NutEntry)) : Except Fault (Nut × ℤ) := do
  match ← nutSetScan name nlen addr (table.entries.take table.entryNum) 0 none with
  | .same => .ok (table, 0)
  | .full => .ok (table, -1)
  | .add i =>
      match table.entries[i]? with
      | none => .error .outOfBounds
      | some entry => do
          let entry ← entry.addAddr addr
          .ok ({ table with entries := table.entries.set i entry }, 1)
  | .absent firstDeleted => do
      let (table, i) ← nutSlotFor table firstDeleted malloc
      nutWriteEntry table i name nlen addr

/-- The loop of `nut_get`. -/
def nutGetScan (name : List UInt8) (nlen : ℤ) : List NutEntry → ℕ → Except Fault (Option ℕ)
  | [], _ => .ok none
  | entry :: rest, curIdx =>
      if entry.deleted = 1 then nutGetScan name nlen rest (curIdx + 1)
      else do
        if ← nutEntryNamematch entry name nlen then .ok (some curIdx)
        else nutGetScan name nlen rest (curIdx + 1)

/-- `nut_get`. -/
def nutGet (table : Nut) (name : List UInt8) (nlen : ℤ) : Except Fault (Option NutEntryPtr) := do
  let i ← nutGetScan name nlen (table.entries.take table.entryNum) 0
  .ok (i.map fun i => ⟨table.arr, i⟩)

/-- `*entry`, for a pointer handed out by `nut_get`. -/
def nutDeref (table : Nut) (entry : NutEntryPtr) : Except Fault NutEntry :=
  if entry.arr = table.arr then
    match table.entries[entry.idx]? with
    | some e => .ok e
    | none => .error .outOfBounds
  else .error .useAfterFree

/-- `nut_del`. -/
def nutDel (table : Nut) (entry : NutEntryPtr) : Except Fault Nut := do
  let e ← nutDeref table entry
  .ok { table with entries := table.entries.set entry.idx { e with deleted := 1 } }

/-! ### The table as slots -/

/-- The key of a name: the name, or its last 1024 bytes. -/
def nutKey (name : List UInt8) : List UInt8 := name.drop (name.length - maxNamelen)

/-- The name stored in an entry. -/
def NutEntry.key (e : NutEntry) : List UInt8 := e.name.take e.nameLen

/-- The addresses listed in an entry. -/
def NutEntry.addrs (e : NutEntry) : List SockaddrIn := e.addr.take e.addrNum

/-- An entry as a slot: a deleted one is a hole. -/
def NutEntry.slot (e : NutEntry) : Option (List UInt8 × List SockaddrIn) :=
  if e.deleted = 1 then none else some (e.key, e.addrs)

/-- The slots of the table. -/
def Nut.slots (t : Nut) : List (Option (List UInt8 × List SockaddrIn)) :=
  (t.entries.take t.entryNum).map NutEntry.slot

/-- What `fdmatch` compares. -/
def ipPort (a : SockaddrIn) : UInt32 × UInt16 := (a.sAddr, a.sinPort)

/-- A live entry: its lengths are in range and its addresses differ in address or port. -/
structure NutEntry.Live (e : NutEntry) : Prop where
  nameLen : e.nameLen ≤ maxNamelen
  addr_pos : 0 < e.addrNum
  addr_le : e.addrNum ≤ maxAddrPername
  nodup : (e.addrs.map ipPort).Nodup

/-- The invariant of the table. -/
structure Nut.WF (t : Nut) : Prop where
  cap_pos : 0 < t.tableCap
  cap_lt : t.tableCap < 2 ^ 31
  size : t.entries.length = t.tableCap
  num_le : t.entryNum ≤ t.tableCap
  unique : Unique t.slots
  live : ∀ e ∈ t.entries.take t.entryNum, e.deleted ≠ 1 → e.Live

theorem nutKey_of_le {name : List UInt8} (h : name.length ≤ maxNamelen) : nutKey name = name := by
  rw [nutKey, Nat.sub_eq_zero_of_le h, List.drop_zero]

theorem length_nutKey (name : List UInt8) : (nutKey name).length = min name.length maxNamelen := by
  rw [nutKey, List.length_drop]
  omega

/-! ### Names -/

section Names

variable {e : NutEntry} {name : List UInt8} {n : ℕ}

theorem NutEntry.length_key (h : e.nameLen ≤ maxNamelen) : e.key.length = e.nameLen := by
  rw [NutEntry.key, List.length_take, e.name_size]
  omega

theorem readName_of_lt {i : ℕ} (h : i < name.length) : readName name i = .ok name[i] := by
  simp [readName, h]

/-- Nothing is read past the end of the object. -/
theorem readName_of_le {i : ℤ} (h : (name.length : ℤ) ≤ i) : readName name i = .error .outOfBounds := by
  have hi : 0 ≤ i := by omega
  rw [readName, if_pos hi, List.getElem?_eq_none (by omega)]

/-- The loop compares the last `n` bytes of the name with the first `n` of the entry. -/
theorem nameCmp_eq {off : ℕ} (h : off + n ≤ name.length) (hn : n ≤ maxNamelen) :
    nameCmp e name off n = .ok (decide (e.name.take n = (name.drop off).take n)) := by
  induction n with
  | zero => simp [nameCmp]
  | succ n ih =>
    have hlt : off + n < name.length := by omega
    have hen : n < e.name.length := by rw [e.name_size]; omega
    have hdrop : (name.drop off)[n]? = some name[off + n] := by
      rw [List.getElem?_drop, List.getElem?_eq_getElem hlt]
    have hread : readName name ((off : ℤ) + n) = .ok name[off + n] := by
      exact_mod_cast readName_of_lt hlt
    rw [nameCmp, hread, List.take_add_one, List.take_add_one, hdrop, List.getElem?_eq_getElem hen]
    simp only [bind, Except.bind, Option.toList_some, List.append_singleton_inj]
    by_cases hb : e.name[n] = name[off + n]
    · rw [if_neg (by simpa using hb), ih (by omega) (by omega)]
      simp [hb]
    · rw [if_pos (by simpa using hb)]
      simp [hb]

/-- The comparison with a range of the name that ends past the object faults. -/
theorem nameCmp_error {off : ℤ} (h : (name.length : ℤ) ≤ off + n) :
    nameCmp e name off (n + 1) = .error .outOfBounds := by
  rw [nameCmp, readName_of_le h]
  rfl

theorem cutName_natCast (n : ℕ) :
    cutName n = (((n - min n maxNamelen : ℕ) : ℤ), ((min n maxNamelen : ℕ) : ℤ)) := by
  unfold cutName
  split_ifs with h
  · have h' : maxNamelen < n := by exact_mod_cast h
    rw [min_eq_right h'.le, Nat.cast_sub h'.le]
  · have h' : n ≤ maxNamelen := by exact_mod_cast not_lt.1 h
    rw [min_eq_left h', Nat.sub_self, Nat.cast_zero]

/-- The key of a range of the name, by position. -/
theorem nutKey_take (h : n ≤ name.length) :
    nutKey (name.take n) = (name.drop (n - min n maxNamelen)).take (min n maxNamelen) := by
  have hlen : (name.take n).length = n := by simpa using h
  have hoff : n - maxNamelen = n - min n maxNamelen := by omega
  have hmin : n - (n - min n maxNamelen) = min n maxNamelen := by omega
  rw [nutKey, hlen, hoff, List.drop_take, hmin]

/-- `nut_entry_namematch` compares keys. -/
theorem nutEntryNamematch_eq (he : e.nameLen ≤ maxNamelen) (h : n ≤ name.length) :
    nutEntryNamematch e name n = .ok (decide (e.key = nutKey (name.take n))) := by
  simp only [nutEntryNamematch, cutName_natCast, nutKey_take h]
  have hcut : n - min n maxNamelen + min n maxNamelen ≤ name.length := by omega
  by_cases hm : min n maxNamelen = e.nameLen
  · rw [if_neg (by exact_mod_cast not_not.2 hm), Int.toNat_natCast, nameCmp_eq hcut (min_le_right _ _),
      NutEntry.key, ← hm]
  · have hne : e.key ≠ (name.drop (n - min n maxNamelen)).take (min n maxNamelen) := by
      intro hk
      have hlen := congrArg List.length hk
      rw [e.length_key he, List.length_take, List.length_drop] at hlen
      omega
    rw [if_pos (by exact_mod_cast hm), decide_eq_false hne]

/-- A match has read the whole name. -/
theorem nutEntryNamematch_true {nlen : ℤ} (h : nutEntryNamematch e name nlen = .ok true) :
    0 ≤ nlen ∧ nlen ≤ name.length := by
  simp only [nutEntryNamematch] at h
  by_cases hm : (cutName nlen).2 = e.nameLen
  swap
  · rw [if_pos hm] at h
    cases h
  rw [if_neg (not_not.2 hm), hm, Int.toNat_natCast] at h
  have hmax : (maxNamelen : ℤ) = 1024 := rfl
  have hsum : (cutName nlen).1 + (cutName nlen).2 = nlen ∧
      ((cutName nlen).1 = 0 ∨ 0 ≤ (cutName nlen).1 ∧ (cutName nlen).2 = 1024) := by
    unfold cutName
    split_ifs <;> constructor <;> dsimp only <;> omega
  refine ⟨by omega, ?_⟩
  cases hl : e.nameLen with
  | zero =>
    rw [hl] at hm
    omega
  | succ k =>
    by_contra hlt
    rw [hl, nameCmp_error (by omega)] at h
    cases h

/-- What `nut_set` stores is the key of the name. -/
theorem nameToStore_eq (h : n ≤ name.length) : nameToStore name n = .ok (nutKey (name.take n)) := by
  have hcut : n - min n maxNamelen + min n maxNamelen ≤ name.length := by omega
  simp only [nameToStore, cutName_natCast, nutKey_take h, Int.toNat_natCast]
  rw [if_pos ⟨by omega, by exact_mod_cast hcut⟩]

theorem nameToStore_inRange {nlen : ℤ} {key : List UInt8} (h : nameToStore name nlen = .ok key) :
    0 ≤ nlen ∧ nlen ≤ name.length := by
  simp only [nameToStore] at h
  split_ifs at h with hc
  unfold cutName at hc
  split_ifs at hc <;> simp only at hc <;> omega

end Names

/-! ### The loops -/

section Loops

variable {es : List NutEntry} {name : List UInt8} {n : ℕ} {addr : SockaddrIn}

/-- The end of the loop of `nut_set`, from the slots it has gone through. -/
def scanResult (slots : List (Option (List UInt8 × List SockaddrIn))) (key : List UInt8)
    (addr : SockaddrIn) (i : ℕ) (firstDeleted : Option ℕ) : NutScan :=
  match find key slots with
  | some (j, as) =>
      if as.any (sameAddr · addr) then .same
      else if as.length = maxAddrPername then .full
      else .add (i + j)
  | none => .absent (firstDeleted.or ((firstHole slots).map (i + ·)))

theorem NutEntry.Live.length_addrs {e : NutEntry} (h : e.Live) : e.addrs.length = e.addrNum := by
  have := h.addr_le
  rw [NutEntry.addrs, List.length_take, e.addr_size]
  omega

/-- The loop of `nut_set` finds the live entry with the key of the name, or the first deleted one. -/
theorem nutSetScan_eq (addr : SockaddrIn) (hlive : ∀ e ∈ es, e.deleted ≠ 1 → e.Live)
    (hn : n ≤ name.length) (i : ℕ) (firstDeleted : Option ℕ) :
    nutSetScan name n addr es i firstDeleted =
      .ok (scanResult (es.map NutEntry.slot) (nutKey (name.take n)) addr i firstDeleted) := by
  induction es generalizing i firstDeleted with
  | nil => simp [nutSetScan, scanResult, find, firstHole]
  | cons e es ih =>
    have hlive' : ∀ e ∈ es, e.deleted ≠ 1 → e.Live := fun x hx => hlive x (List.mem_cons_of_mem _ hx)
    rw [nutSetScan, List.map_cons]
    by_cases hd : e.deleted = 1
    · rw [if_pos hd, ih hlive', NutEntry.slot, if_pos hd]
      simp only [scanResult, find, firstHole]
      rcases find (nutKey (name.take n)) (es.map NutEntry.slot) with _ | ⟨j, as⟩
      · cases firstDeleted <;> simp
      · simp [Nat.add_assoc, Nat.add_comm 1]
    · have he := hlive e (List.mem_cons_self) hd
      rw [if_neg hd, nutEntryNamematch_eq he.nameLen hn, NutEntry.slot, if_neg hd]
      simp only [scanResult, find, firstHole, bind, Except.bind, decide_eq_true_eq]
      by_cases hk : e.key = nutKey (name.take n)
      · rw [if_pos hk, if_pos hk]
        simp only [nutEntryFdmatch, ← NutEntry.addrs.eq_1, he.length_addrs, Nat.add_zero]
        split_ifs <;> rfl
      · rw [if_neg hk, if_neg hk, ih hlive']
        simp only [scanResult]
        rcases find (nutKey (name.take n)) (es.map NutEntry.slot) with _ | ⟨j, as⟩
        · rcases firstHole (es.map NutEntry.slot) with _ | j
          · simp
          · simp [Nat.add_assoc, Nat.add_comm 1]
        · simp [Nat.add_assoc, Nat.add_comm 1]

/-- Where the loop of `nut_set` does not run to its end, the name is inside its object. -/
theorem nutSetScan_inRange {nlen : ℤ} {i : ℕ} {firstDeleted : Option ℕ} {r : NutScan}
    (h : nutSetScan name nlen addr es i firstDeleted = .ok r) :
    (∃ d, r = .absent d) ∨ (0 ≤ nlen ∧ nlen ≤ name.length) := by
  induction es generalizing i firstDeleted with
  | nil =>
    cases h
    exact Or.inl ⟨_, rfl⟩
  | cons e es ih =>
    rw [nutSetScan] at h
    by_cases hd : e.deleted = 1
    · rw [if_pos hd] at h
      exact ih h
    · rw [if_neg hd] at h
      cases hm : nutEntryNamematch e name nlen with
      | error f => rw [hm] at h; cases h
      | ok b =>
        cases b with
        | true => exact Or.inr (nutEntryNamematch_true hm)
        | false =>
          rw [hm] at h
          exact ih h

/-- The loop of `nut_get` finds the live entry with the key of the name. -/
theorem nutGetScan_eq (hlive : ∀ e ∈ es, e.deleted ≠ 1 → e.Live) (hn : n ≤ name.length) (i : ℕ) :
    nutGetScan name n es i =
      .ok ((find (nutKey (name.take n)) (es.map NutEntry.slot)).map fun p => i + p.1) := by
  induction es generalizing i with
  | nil => simp [nutGetScan, find]
  | cons e es ih =>
    have hlive' : ∀ e ∈ es, e.deleted ≠ 1 → e.Live := fun x hx => hlive x (List.mem_cons_of_mem _ hx)
    rw [nutGetScan, List.map_cons]
    by_cases hd : e.deleted = 1
    · rw [if_pos hd, ih hlive', NutEntry.slot, if_pos hd, find]
      simp [Option.map_map, Function.comp_def, Nat.add_assoc, Nat.add_comm 1]
    · have he := hlive e (List.mem_cons_self) hd
      rw [if_neg hd, nutEntryNamematch_eq he.nameLen hn, NutEntry.slot, if_neg hd, find]
      simp only [bind, Except.bind, decide_eq_true_eq]
      by_cases hk : e.key = nutKey (name.take n)
      · simp [hk]
      · rw [if_neg hk, if_neg hk, ih hlive']
        simp [Option.map_map, Function.comp_def, Nat.add_assoc, Nat.add_comm 1]

/-- A name whose length does not fit its object is found by no one. -/
theorem nutGetScan_inRange {nlen : ℤ} {i j : ℕ} (h : nutGetScan name nlen es i = .ok (some j)) :
    0 ≤ nlen ∧ nlen ≤ name.length := by
  induction es generalizing i with
  | nil => cases h
  | cons e es ih =>
    rw [nutGetScan] at h
    by_cases hd : e.deleted = 1
    · rw [if_pos hd] at h
      exact ih h
    · rw [if_neg hd] at h
      cases hm : nutEntryNamematch e name nlen with
      | error f => rw [hm] at h; cases h
      | ok b =>
        cases b with
        | true => exact nutEntryNamematch_true hm
        | false =>
          rw [hm] at h
          exact ih h

end Loops

end MixSim
