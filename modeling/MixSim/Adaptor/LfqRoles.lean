import MixSim.Adaptor.LfqThreads
import MixSim.Library.SwapList

/-!
# What the nodes of a queue are there for

Each node has one role at a time (`Role`): a thread has just allocated it, it waits in the queue, it is
the head, a thread has retired it, or it is in the free pool. `Mem` says what the roles, the two lists
and the places where the threads are have to do with each other; a thread relies on little of what the
others do (`Rely`), and a step that changes little keeps everything (`Mem.change`).
-/

namespace MixSim

namespace LfqThreads

open Execution

variable {α T : Type}

/-! ### The thread slots and the lock -/

/-- The thread slot that a thread holds. -/
def tid : Pc α → Option ℕ
  | .idle | .exchangeTail _ _ | .linkTail _ _ | .testTid _ | .casTid _ => none
  | .loadHead i | .storeHP i _ | .checkHead i _ | .loadNext i _ | .clearEmpty i | .casHead i _ _
  | .clearHP i _ _ | .loadData i _ _ | .setCanFree i _ _ _ | .safeFree i _ _ _ | .freePool i _ _
  | .freeTid i _ => some i

/-- Whether a thread holds `is_freeing`. -/
def locked : Pc α → Bool
  | .safeFree _ _ _ .poison | .safeFree _ _ _ .free | .safeFree _ _ _ .unlock => true
  | .freePool _ _ .lock => false
  | .freePool _ _ _ => true
  | _ => false

/-- A slot is taken exactly as long as a thread holds it, and no two threads hold the same. -/
structure Slots (s : Threads T α) : Prop where
  hp_length : s.ctx.hp.length = s.ctx.maxHpSize
  tidMap_length : s.ctx.tidMap.length = s.ctx.maxHpSize
  held : ∀ t i, tid (s.pc t) = some i → s.ctx.tidMap[i]? = some 1
  unique : ∀ t u i, tid (s.pc t) = some i → tid (s.pc u) = some i → t = u
  holder : ∀ i < s.ctx.maxHpSize, s.ctx.tidMap[i]? = some 0 ∨ ∃ t, tid (s.pc t) = some i

/-- At most one thread holds `is_freeing`. -/
structure Lock (s : Threads T α) : Prop where
  held : ∀ t, locked (s.pc t) = true → s.ctx.isFreeing = true
  unique : ∀ t u, locked (s.pc t) = true → locked (s.pc u) = true → t = u
  holder : s.ctx.isFreeing = true → ∃ t, locked (s.pc t) = true

section Access

variable {ctx ctx' : LfqCtx α} {t : T} {pc pc' : Pc α} {o : List (Obs T α)}

theorem Access.maxHpSize (h : Access ctx t pc ctx' pc' o) : ctx'.maxHpSize = ctx.maxHpSize := by
  cases h with
  | safeFree h => cases h <;> simp
  | safeFreeEnd h => cases h <;> simp
  | freePool h => cases h <;> simp
  | freePoolEnd h => cases h <;> rfl
  | freeTid => rfl
  | _ => simp

/-- An access takes a free slot, gives back the slot of the thread, or leaves the slots. -/
theorem Access.slots (h : Access ctx t pc ctx' pc' o) :
    ctx'.hp.length = ctx.hp.length ∧
    ((ctx'.tidMap = ctx.tidMap ∧ tid pc' = tid pc) ∨
      (∃ i, ctx.tidMap[i]? = some 0 ∧ ctx'.tidMap = ctx.tidMap.set i 1 ∧ tid pc = none ∧
        tid pc' = some i) ∨
      ∃ i, ctx'.tidMap = ctx.tidMap.set i 0 ∧ tid pc = some i ∧ tid pc' = none) := by
  cases h with
  | casTid hfree => exact ⟨rfl, Or.inr (Or.inl ⟨_, hfree, rfl, rfl, rfl⟩)⟩
  | freeTid => exact ⟨rfl, Or.inr (Or.inr ⟨_, rfl, rfl, rfl⟩)⟩
  | safeFree h => cases h <;> simp [tid]
  | safeFreeEnd h => cases h <;> simp [tid]
  | freePool h => cases h <;> simp [tid]
  | freePoolEnd h => cases h <;> simp [tid]
  | _ => simp [tid]

/-- An access takes the lock when it is free, gives it back, or leaves it. -/
theorem Access.lock (h : Access ctx t pc ctx' pc' o) :
    (ctx'.isFreeing = ctx.isFreeing ∧ locked pc' = locked pc) ∨
      (ctx.isFreeing = false ∧ ctx'.isFreeing = true ∧ locked pc' = true) ∨
      (ctx'.isFreeing = false ∧ locked pc = true ∧ locked pc' = false) := by
  cases h with
  | safeFree h => cases h <;> simp [locked, *]
  | safeFreeEnd h => cases h <;> simp [locked]
  | freePool h => cases h <;> simp [locked, *]
  | freePoolEnd h => cases h <;> simp [locked]
  | freeTid => exact Or.inl ⟨rfl, rfl⟩
  | _ => simp [locked]

end Access

section Steps

/-- What a thread and the others are after a step. -/
theorem update_cases [DecidableEq T] {β : Type*} {f : Pc α → β} {pcs : T → Pc α} {t u : T} {pc : Pc α} {x : β}
    (h : f (Function.update pcs t pc u) = x) : (u = t ∧ f pc = x) ∨ (u ≠ t ∧ f (pcs u) = x) := by
  by_cases hu : u = t
  · subst hu
    rw [Function.update_self] at h
    exact Or.inl ⟨rfl, h⟩
  · rw [Function.update_of_ne hu] at h
    exact Or.inr ⟨hu, h⟩

theorem slots_init (maxConsumeThread : ℕ) : Slots (init T α maxConsumeThread) where
  hp_length := List.length_replicate
  tidMap_length := List.length_replicate
  held _ _ h := by cases h
  unique _ _ _ h := by cases h
  holder i hi := Or.inl (by
    have hi' : i < maxConsumeThread := hi
    rw [init, lfqInit, List.getElem?_replicate, if_pos hi'])

theorem slots_step [DecidableEq T] {s s' : Threads T α} {i : T × Call α} {o : List (Obs T α)} (h : Slots s)
    (hs : step s i = .ok (s', o)) : Slots s' := by
  obtain ⟨ctx', pc', ha, rfl⟩ := step_ok hs
  obtain ⟨hlen, hcases⟩ := ha.slots
  rcases hcases with ⟨hmap, htid⟩ | ⟨k, hfree, hmap, hnone, htid⟩ | ⟨k, hmap, hsome, htid⟩
  · -- the slots stay
    have hpc : ∀ u, tid (Function.update s.pc i.1 pc' u) = tid (s.pc u) := by
      intro u
      by_cases hu : u = i.1
      · rw [hu, Function.update_self, htid]
      · rw [Function.update_of_ne hu]
    exact {
      hp_length := by rw [hlen, ha.maxHpSize, h.hp_length]
      tidMap_length := by rw [hmap, ha.maxHpSize, h.tidMap_length]
      held := fun u j hj => by
        rw [hpc] at hj
        rw [hmap, h.held u j hj]
      unique := fun u v j hu hv => by
        rw [hpc] at hu hv
        exact h.unique u v j hu hv
      holder := fun j hj => by
        rw [ha.maxHpSize] at hj
        simp only [hmap, hpc]
        exact h.holder j hj }
  · -- slot `k` is taken
    have hk : k < s.ctx.tidMap.length := (List.getElem?_eq_some_iff.1 hfree).1
    have hone : ∀ u, tid (s.pc u) ≠ some k := by
      intro u hu
      have hheld := h.held u k hu
      rw [hfree] at hheld
      cases hheld
    exact {
      hp_length := by rw [hlen, ha.maxHpSize, h.hp_length]
      tidMap_length := by rw [hmap, ha.maxHpSize, List.length_set, h.tidMap_length]
      held := fun u j hj => by
        rw [hmap]
        rcases update_cases hj with ⟨-, hj⟩ | ⟨-, hj⟩
        · cases htid.symm.trans hj
          exact List.getElem?_set_self hk
        · have hne : k ≠ j := fun he => hone u (he ▸ hj)
          rw [List.getElem?_set_ne hne, h.held u j hj]
      unique := fun u v j hu hv => by
        rcases update_cases hu with ⟨rfl, hu'⟩ | ⟨-, hu'⟩ <;>
          rcases update_cases hv with ⟨rfl, hv'⟩ | ⟨-, hv'⟩
        · rfl
        · exact absurd (hv'.trans (hu'.symm.trans htid)) (hone v)
        · exact absurd (hu'.trans (hv'.symm.trans htid)) (hone u)
        · exact h.unique u v j hu' hv'
      holder := fun j hj => by
        rw [ha.maxHpSize] at hj
        by_cases hjk : k = j
        · exact Or.inr ⟨i.1, by simp only [Function.update_self, htid, hjk]⟩
        · simp only [hmap]
          rw [List.getElem?_set_ne hjk]
          refine (h.holder j hj).imp_right fun ⟨u, hu⟩ => ⟨u, ?_⟩
          have hut : u ≠ i.1 := by
            rintro rfl
            rw [hnone] at hu
            cases hu
          rw [Function.update_of_ne hut, hu] }
  · -- slot `k` is given back
    have hk : k < s.ctx.tidMap.length := (List.getElem?_eq_some_iff.1 (h.held _ k hsome)).1
    exact {
      hp_length := by rw [hlen, ha.maxHpSize, h.hp_length]
      tidMap_length := by rw [hmap, ha.maxHpSize, List.length_set, h.tidMap_length]
      held := fun u j hj => by
        rw [hmap]
        rcases update_cases hj with ⟨-, hj⟩ | ⟨hu, hj⟩
        · cases htid.symm.trans hj
        · have hne : k ≠ j := fun he => hu (h.unique u _ j hj (he ▸ hsome))
          rw [List.getElem?_set_ne hne, h.held u j hj]
      unique := fun u v j hu hv => by
        rcases update_cases hu with ⟨-, hu⟩ | ⟨-, hu⟩ <;> rcases update_cases hv with ⟨-, hv⟩ | ⟨-, hv⟩
        · cases htid.symm.trans hu
        · cases htid.symm.trans hu
        · cases htid.symm.trans hv
        · exact h.unique u v j hu hv
      holder := fun j hj => by
        rw [ha.maxHpSize] at hj
        simp only [hmap]
        by_cases hjk : k = j
        · subst hjk
          exact Or.inl (List.getElem?_set_self hk)
        · rw [List.getElem?_set_ne hjk]
          refine (h.holder j hj).imp_right fun ⟨u, hu⟩ => ⟨u, ?_⟩
          have hut : u ≠ i.1 := by
            rintro rfl
            rw [hsome] at hu
            cases hu
            exact hjk rfl
          rw [Function.update_of_ne hut, hu] }

theorem lock_init (maxConsumeThread : ℕ) : Lock (init T α maxConsumeThread) where
  held _ h := by cases h
  unique _ _ h := by cases h
  holder h := by cases h

theorem lock_step [DecidableEq T] {s s' : Threads T α} {i : T × Call α} {o : List (Obs T α)} (h : Lock s)
    (hs : step s i = .ok (s', o)) : Lock s' := by
  obtain ⟨ctx', pc', ha, rfl⟩ := step_ok hs
  rcases ha.lock with ⟨hf, hpc⟩ | ⟨hbefore, hafter, hpc⟩ | ⟨hafter, hbefore, hpc⟩
  · have hsame : ∀ u, locked (Function.update s.pc i.1 pc' u) = locked (s.pc u) := by
      intro u
      by_cases hu : u = i.1
      · rw [hu, Function.update_self, hpc]
      · rw [Function.update_of_ne hu]
    exact {
      held := fun u hu => by
        rw [hsame] at hu
        rw [hf, h.held u hu]
      unique := fun u v hu hv => by
        rw [hsame] at hu hv
        exact h.unique u v hu hv
      holder := fun hl => by
        rw [hf] at hl
        simp only [hsame]
        exact h.holder hl }
  · -- the lock is taken
    have hnone : ∀ u, locked (s.pc u) ≠ true := by
      intro u hu
      rw [h.held u hu] at hbefore
      cases hbefore
    exact {
      held := fun _ _ => hafter
      unique := fun u v hu hv => by
        rcases update_cases hu with ⟨rfl, -⟩ | ⟨-, hu⟩
        · rcases update_cases hv with ⟨rfl, -⟩ | ⟨-, hv⟩
          · rfl
          · exact absurd hv (hnone v)
        · exact absurd hu (hnone u)
      holder := fun _ => ⟨i.1, by simp only [Function.update_self, hpc]⟩ }
  · -- the lock is given back
    have hnone : ∀ u, locked (Function.update s.pc i.1 pc' u) ≠ true := by
      intro u hu
      rcases update_cases hu with ⟨-, hu⟩ | ⟨hne, hu⟩
      · rw [hpc] at hu
        cases hu
      · exact hne (h.unique u _ hu hbefore)
    exact {
      held := fun u hu => absurd hu (hnone u)
      unique := fun u _ hu => absurd hu (hnone u)
      holder := fun hl => by
        rw [hafter] at hl
        cases hl }

end Steps

/-! ### Nodes and threads

What a node is to the queue is its role; the roles, and the nodes of the two lists, are in no
variable of the program. -/

/-- What a node is to the queue. -/
inductive Role (T : Type)
  /-- not allocated -/
  | unused
  /-- new, and known to one thread only -/
  | fresh (t : T)
  /-- behind the head -/
  | waiting
  /-- the node that was read last -/
  | head
  /-- taken off a list by a thread -/
  | retired (t : T)
  /-- in the free pool -/
  | pooled
  deriving DecidableEq

/-- The node has been at the front. -/
def Role.Read : Role T → Prop
  | .head | .retired _ | .pooled => True
  | _ => False

/-- The link field of a node. -/
def link (ctx : LfqCtx α) (p : Ptr) : Option Ptr := (ctx.get p).map LfqNode.next

/-- The new node of a thread. -/
def fresh : Pc α → Option Ptr
  | .exchangeTail _ n => some n
  | _ => none

/-- The node that a thread has taken off a list. -/
def own : Pc α → Option Ptr
  | .clearHP _ a _ | .loadData _ a _ | .setCanFree _ a _ _ => some a
  | .safeFree _ _ lfn pc =>
      match pc with
      | .unlock | .link _ => none
      | _ => some lfn
  | .freePool _ _ (.free _ p) => some p
  | _ => none

/-- The node that a thread is about to read an item from. -/
def claim : Pc α → Option Ptr
  | .clearHP _ _ b | .loadData _ _ b | .setCanFree _ _ b _ => some b
  | _ => none

/-- The hazard pointer of a thread, and the node that it protects. -/
def guard : Pc α → Option (ℕ × Ptr)
  | .loadNext i a | .casHead i a _ => some (i, a)
  | _ => none

/-- The link behind a node in the queue that a thread is about to write. -/
def pend : Pc α → Option (Ptr × Ptr)
  | .linkTail a b => some (a, b)
  | _ => none

/-- The link behind a node in the pool that a thread is about to write. -/
def poolPend : Pc α → Option (Ptr × Ptr)
  | .safeFree _ _ b (.link a) => some (a, b)
  | _ => none

/-- The node that a thread has found to be read completely. -/
def sure : Pc α → Option Ptr
  | .safeFree _ _ lfn pc =>
      match pc with
      | .scan _ | .lock | .poison | .free => some lfn
      | _ => none
  | .freePool _ _ pc =>
      match pc with
      | .testNext _ p | .scan _ p _ | .loadNext _ p | .storeHead _ p _ | .free _ p => some p
      | _ => none
  | _ => none

/-- The first node of the pool, where a thread may be about to take it. -/
def pop : Pc α → Option Ptr
  | .freePool _ _ pc =>
      match pc with
      | .canFree _ p | .testNext _ p | .scan _ p _ | .loadNext _ p | .storeHead _ p _ => some p
      | _ => none
  | _ => none

/-- The node that a thread looks for in the hazard pointers, and the first of the `n` pointers that
it has not seen yet. -/
def passed (n : ℕ) : Pc α → Option (Ptr × ℕ)
  | .safeFree _ _ lfn pc =>
      match pc with
      | .scan i => some (lfn, i)
      | .lock | .poison | .free => some (lfn, n)
      | _ => none
  | .freePool _ _ pc =>
      match pc with
      | .scan _ p j => some (p, j)
      | .loadNext _ p | .storeHead _ p _ | .free _ p => some (p, n)
      | _ => none
  | _ => none

/-- The item of the node has been read. -/
def Sure (ctx : LfqCtx α) (p : Ptr) : Prop := ∃ nd, ctx.get p = some nd ∧ nd.canFree = true

/-- The item of the node has not been read. -/
def Unread (ctx : LfqCtx α) (p : Ptr) : Prop :=
  ∃ nd, ctx.get p = some nd ∧ nd.canFree = false ∧ nd.data.isSome = true

/-- What holds where a thread is. -/
def Local (role : Ptr → Role T) (ctx : LfqCtx α) : Pc α → Prop
  | .exchangeTail x n => ctx.get n = some ⟨some x, .null, false⟩
  | .checkHead i a => ctx.hp[i]? = some a
  | .loadNext i a => ctx.hp[i]? = some a ∧ (role a).Read
  | .casHead i a b =>
      ctx.hp[i]? = some a ∧ (role a).Read ∧ (role a = .head → link ctx a = some b) ∧ b ≠ .null
  | .clearHP _ _ b | .loadData _ _ b | .setCanFree _ _ b _ => (role b).Read ∧ Unread ctx b
  | .safeFree _ _ lfn pc =>
      match pc with
      | .scan _ | .lock | .poison | .free => Sure ctx lfn
      | .exchange => link ctx lfn = some .null
      | _ => True
  | .freePool _ _ pc =>
      match pc with
      | .canFree _ p => ctx.fph = p
      | .testNext _ p => ctx.fph = p ∧ Sure ctx p
      | .scan _ p _ | .loadNext _ p =>
          ctx.fph = p ∧ Sure ctx p ∧ ∃ b, link ctx p = some b ∧ b ≠ .null
      | .storeHead _ p b => ctx.fph = p ∧ Sure ctx p ∧ link ctx p = some b ∧ b ≠ .null
      | .free _ p => Sure ctx p
      | _ => True
  | _ => True

/-- What holds between two threads, with `n` hazard pointers. -/
structure Apart (n : ℕ) (pc pc' : Pc α) : Prop where
  claim : ∀ b, claim pc = some b → claim pc' ≠ some b
  pend : ∀ l, pend pc = some l → pend pc' ≠ some l
  poolPend : ∀ l, poolPend pc = some l → poolPend pc' ≠ some l
  /-- a hazard pointer that protects the node has not been passed -/
  scan : ∀ a i j, passed n pc = some (a, i) → guard pc' = some (j, a) → i ≤ j

/-- The roles of the nodes, with the nodes of the queue and of the free pool in their order. -/
structure Mem (role : Ptr → Role T) (chain pool : List Ptr) (s : Threads T α) : Prop where
  queue : SwapList.Linked .null (link s.ctx) (fun a b => ∃ t, pend (s.pc t) = some (a, b))
    s.ctx.head s.ctx.tail chain
  freePool : SwapList.Linked .null (link s.ctx) (fun a b => ∃ t, poolPend (s.pc t) = some (a, b))
    s.ctx.fph s.ctx.fpt pool
  unused : ∀ a, role a = .unused ↔ s.ctx.get a = none
  fresh : ∀ t a, role a = .fresh t ↔ fresh (s.pc t) = some a
  waiting : ∀ a, role a = .waiting ↔ a ∈ chain.tail
  head : ∀ a, role a = .head ↔ a = s.ctx.head
  retired : ∀ t a, role a = .retired t ↔ own (s.pc t) = some a
  pooled : ∀ a, role a = .pooled ↔ a ∈ pool
  unread : ∀ a ∈ chain.tail, Unread s.ctx a
  read : ∀ a nd, (role a).Read → s.ctx.get a = some nd →
    nd.canFree = true ∨ ∃ t, claim (s.pc t) = some a
  threads : ∀ t, Local role s.ctx (s.pc t)
  apart : ∀ t u, t ≠ u → Apart s.ctx.maxHpSize (s.pc t) (s.pc u)

/-! ### What a thread relies on -/

/-- What the others leave to a thread. -/
structure Rely (role role' : Ptr → Role T) (ctx ctx' : LfqCtx α) (pc : Pc α) : Prop where
  hp : ∀ i, tid pc = some i → ctx'.hp[i]? = ctx.hp[i]?
  fresh : ∀ n, fresh pc = some n → ctx'.get n = ctx.get n
  guard : ∀ i a, guard pc = some (i, a) → (role a).Read →
    (role' a).Read ∧ (role' a = .head → role a = .head ∧
      ∀ b, b ≠ .null → link ctx a = some b → link ctx' a = some b)
  claim : ∀ b, claim pc = some b → (role b).Read → Unread ctx b → (role' b).Read ∧ Unread ctx' b
  sure : ∀ p, sure pc = some p → Sure ctx p → Sure ctx' p
  own : ∀ a, own pc = some a → link ctx' a = link ctx a
  pop : ∀ p, pop pc = some p → ctx.fph = p → ctx'.fph = p ∧
    ∀ b, b ≠ .null → link ctx p = some b → link ctx' p = some b

/-- What holds where a thread is goes on to hold. -/
theorem Local.stable {role role' : Ptr → Role T} {ctx ctx' : LfqCtx α} {pc : Pc α}
    (h : Local role ctx pc) (hr : Rely role role' ctx ctx' pc) : Local role' ctx' pc := by
  cases pc with
  | exchangeTail x n => exact (hr.fresh n rfl).trans h
  | checkHead i a => exact (hr.hp i rfl).trans h
  | loadNext i a => exact ⟨(hr.hp i rfl).trans h.1, (hr.guard i a rfl h.2).1⟩
  | casHead i a b =>
    obtain ⟨hhp, hread, hlink, hb⟩ := h
    obtain ⟨hread', hhead⟩ := hr.guard i a rfl hread
    exact ⟨(hr.hp i rfl).trans hhp, hread', fun he => (hhead he).2 b hb (hlink (hhead he).1), hb⟩
  | clearHP i a b => exact hr.claim b rfl h.1 h.2
  | loadData i a b => exact hr.claim b rfl h.1 h.2
  | setCanFree i a b ret => exact hr.claim b rfl h.1 h.2
  | safeFree i ret lfn pc =>
    cases pc with
    | scan j => exact hr.sure lfn rfl h
    | lock => exact hr.sure lfn rfl h
    | poison => exact hr.sure lfn rfl h
    | free => exact hr.sure lfn rfl h
    | exchange => exact (hr.own lfn rfl).trans h
    | _ => trivial
  | freePool i ret pc =>
    cases pc with
    | canFree k p => exact (hr.pop p rfl h).1
    | testNext k p => exact ⟨(hr.pop p rfl h.1).1, hr.sure p rfl h.2⟩
    | scan k p j =>
      obtain ⟨hp, hsure, b, hb, hne⟩ := h
      exact ⟨(hr.pop p rfl hp).1, hr.sure p rfl hsure, b, (hr.pop p rfl hp).2 b hne hb, hne⟩
    | loadNext k p =>
      obtain ⟨hp, hsure, b, hb, hne⟩ := h
      exact ⟨(hr.pop p rfl hp).1, hr.sure p rfl hsure, b, (hr.pop p rfl hp).2 b hne hb, hne⟩
    | storeHead k p b =>
      obtain ⟨hp, hsure, hb, hne⟩ := h
      exact ⟨(hr.pop p rfl hp).1, hr.sure p rfl hsure, (hr.pop p rfl hp).2 b hne hb, hne⟩
    | free k p => exact hr.sure p rfl h
    | _ => trivial
  | _ => trivial

section Relies

variable {role role' : Ptr → Role T} {ctx ctx' : LfqCtx α} {pc : Pc α} {p : Ptr} {nd nd' : LfqNode α}

theorem link_of_get (h : ctx.get p = some nd) : link ctx p = some nd.next := congrArg (Option.map _) h

theorem link_congr {q : Ptr} (h : ctx'.get q = ctx.get q) : link ctx' q = link ctx q :=
  congrArg (Option.map _) h

theorem Sure.ne_none (h : Sure ctx p) : ctx.get p ≠ none := by
  obtain ⟨nd, hnd, -⟩ := h
  simp [hnd]

theorem Unread.ne_none (h : Unread ctx p) : ctx.get p ≠ none := by
  obtain ⟨nd, hnd, -⟩ := h
  simp [hnd]

theorem Sure.not_unread (h : Sure ctx p) : ¬ Unread ctx p := by
  rintro ⟨nd, hnd, hfree, -⟩
  obtain ⟨nd', hnd', hfree'⟩ := h
  rw [hnd] at hnd'
  cases hnd'
  rw [hfree] at hfree'
  cases hfree'

theorem Sure.congr (h : Sure ctx p) (hget : ctx'.get p = ctx.get p) : Sure ctx' p := by
  rwa [Sure, hget]

theorem Unread.congr (h : Unread ctx p) (hget : ctx'.get p = ctx.get p) : Unread ctx' p := by
  rwa [Unread, hget]

/-- The nodes stay, and what is read stays read. -/
theorem rely_roles (hheap : ctx'.heap = ctx.heap)
    (hhp : ∀ i, tid pc = some i → ctx'.hp[i]? = ctx.hp[i]?)
    (hread : ∀ a, (role a).Read → (role' a).Read)
    (hhead : ∀ a, (role a).Read → role' a = .head → role a = .head)
    (hfph : ∀ p, pop pc = some p → ctx'.fph = ctx.fph) : Rely role role' ctx ctx' pc where
  hp := hhp
  fresh n _ := LfqCtx.get_congr hheap n
  guard i a _ ha := ⟨hread a ha, fun he => ⟨hhead a ha he, fun b _ hb => by
    rwa [link_congr (LfqCtx.get_congr hheap a)]⟩⟩
  claim b _ hb hun := ⟨hread b hb, hun.congr (LfqCtx.get_congr hheap b)⟩
  sure p _ hp := hp.congr (LfqCtx.get_congr hheap p)
  own a _ := link_congr (LfqCtx.get_congr hheap a)
  pop p hp he := ⟨(hfph p hp).trans he, fun b _ hb => by
    rwa [link_congr (LfqCtx.get_congr hheap p)]⟩

/-- A node is written to. -/
theorem rely_put (hnd : ctx.get p = some nd) (hdata : nd'.data = nd.data)
    (hfree : nd'.canFree = nd.canFree ∨ (nd'.canFree = true ∧ claim pc ≠ some p))
    (hfresh : fresh pc ≠ some p)
    (hnext : nd'.next = nd.next ∨
      (own pc ≠ some p ∧ (nd.next = .null ∨ (role p ≠ .head ∧ pop pc ≠ some p)))) :
    Rely role role ctx (ctx.put p (some nd')) pc := by
  have hself : (ctx.put p (some nd')).get p = some nd' := LfqCtx.get_put_self hnd
  have hother : ∀ q, q ≠ p → (ctx.put p (some nd')).get q = ctx.get q :=
    fun q hq => LfqCtx.get_put_of_ne hq
  -- a link that is written stays where its node is the head, or the first of the pool
  have hlink : ∀ q, role q = .head ∨ pop pc = some q → ∀ b, b ≠ Ptr.null → link ctx q = some b →
      link (ctx.put p (some nd')) q = some b := by
    intro q hq b hb hqb
    by_cases hqp : q = p
    · subst hqp
      rw [link_of_get hnd, Option.some.injEq] at hqb
      rw [link_of_get hself]
      rcases hnext with hnext | ⟨-, hnull | ⟨hne, hpop⟩⟩
      · rw [hnext, hqb]
      · exact absurd (hqb.symm.trans hnull) hb
      · rcases hq with hq | hq
        · exact absurd hq hne
        · exact absurd hq hpop
    · rwa [link_congr (hother q hqp)]
  exact {
    hp := fun i _ => by rw [LfqCtx.put_hp]
    fresh := fun n hn => hother n (by
      rintro rfl
      exact hfresh hn)
    guard := fun i a _ ha => ⟨ha, fun he => ⟨he, hlink a (Or.inl he)⟩⟩
    claim := fun b hb hread hun => by
      refine ⟨hread, ?_⟩
      by_cases hbp : b = p
      · subst hbp
        obtain ⟨m, hm, hcan, hsome⟩ := hun
        rw [hnd] at hm
        cases hm
        rcases hfree with hfree | ⟨-, hfree⟩
        · exact ⟨nd', hself, hfree.trans hcan, by rwa [hdata]⟩
        · exact absurd hb hfree
      · exact hun.congr (hother b hbp)
    sure := fun q _ hq => by
      by_cases hqp : q = p
      · subst hqp
        obtain ⟨m, hm, hcan⟩ := hq
        rw [hnd] at hm
        cases hm
        exact ⟨nd', hself, hfree.elim (fun hfree => hfree.trans hcan) And.left⟩
      · exact hq.congr (hother q hqp)
    own := fun a ha => by
      by_cases hap : a = p
      · subst hap
        rcases hnext with hnext | ⟨hne, -⟩
        · rw [link_of_get hself, link_of_get hnd, hnext]
        · exact absurd ha hne
      · exact link_congr (hother a hap)
    pop := fun q hq he => ⟨by rw [LfqCtx.put_fph, he], hlink q (Or.inr hq)⟩ }

/-- A node that the thread does not know comes or goes. -/
theorem rely_swap (hrole : ∀ a, a ≠ p → role' a = role a)
    (hget : ∀ a, a ≠ p → ctx'.get a = ctx.get a) (hhp : ctx'.hp = ctx.hp) (hfph : ctx'.fph = ctx.fph)
    (hfresh : fresh pc ≠ some p) (hguard : ∀ i, guard pc = some (i, p) → ¬ (role p).Read)
    (hclaim : claim pc = some p → ¬ Unread ctx p)
    (hsure : sure pc = some p → ¬ Sure ctx p) (hown : own pc ≠ some p)
    (hpop : pop pc = some p → ctx.fph ≠ p) : Rely role role' ctx ctx' pc where
  hp i _ := by rw [hhp]
  fresh n hn := hget n (by
    rintro rfl
    exact hfresh hn)
  guard i a ha hread := by
    have hap : a ≠ p := by
      rintro rfl
      exact hguard i ha hread
    rw [hrole a hap, link_congr (hget a hap)]
    exact ⟨hread, fun he => ⟨he, fun _ _ hb => hb⟩⟩
  claim b hb hread hun := by
    have hbp : b ≠ p := by
      rintro rfl
      exact hclaim hb hun
    rw [hrole b hbp]
    exact ⟨hread, hun.congr (hget b hbp)⟩
  sure q hq hsq := hsq.congr (hget q (by
    rintro rfl
    exact hsure hq hsq))
  own a ha := link_congr (hget a (by
    rintro rfl
    exact hown ha))
  pop q hq he := by
    have hqp : q ≠ p := by
      rintro rfl
      exact hpop hq he
    rw [link_congr (hget q hqp), hfph]
    exact ⟨he, fun _ _ hb => hb⟩

end Relies

/-! ### The steps and the roles -/

section Update

variable [DecidableEq T] {role role' : Ptr → Role T} {chain chain' pool pool' : List Ptr}
  {s : Threads T α} {t : T} {ctx' : LfqCtx α} {pc' : Pc α}

/-- A fact about all threads after a step, from the thread that was scheduled and the others. -/
theorem forall_update (P : T → Pc α → Prop) (ht : P t pc') (hu : ∀ u, u ≠ t → P u (s.pc u)) (u : T) :
    P u (Function.update s.pc t pc' u) := by
  by_cases h : u = t
  · subst h
    rwa [Function.update_self]
  · rw [Function.update_of_ne h]
    exact hu u h

theorem exists_update (P : Pc α → Prop) :
    (∃ u, P (Function.update s.pc t pc' u)) ↔ P pc' ∨ ∃ u, u ≠ t ∧ P (s.pc u) := by
  constructor
  · rintro ⟨u, hu⟩
    rcases update_cases (f := P) (x := True) (by simpa using hu) with ⟨-, h⟩ | ⟨hne, h⟩
    · exact Or.inl (of_eq_true h)
    · exact Or.inr ⟨u, hne, of_eq_true h⟩
  · rintro (h | ⟨u, hne, h⟩)
    · exact ⟨t, by rwa [Function.update_self]⟩
    · exact ⟨u, by rwa [Function.update_of_ne hne]⟩

/-- What a step of thread `t` has to show. -/
structure Change (role role' : Ptr → Role T) (chain' pool' : List Ptr) (s : Threads T α) (t : T)
    (ctx' : LfqCtx α) (pc' : Pc α) : Prop where
  queue : SwapList.Linked .null (link ctx')
    (fun a b => pend pc' = some (a, b) ∨ ∃ u, u ≠ t ∧ pend (s.pc u) = some (a, b)) ctx'.head ctx'.tail
    chain'
  freePool : SwapList.Linked .null (link ctx')
    (fun a b => poolPend pc' = some (a, b) ∨ ∃ u, u ≠ t ∧ poolPend (s.pc u) = some (a, b)) ctx'.fph
    ctx'.fpt pool'
  unused : ∀ a, role' a = .unused ↔ ctx'.get a = none
  fresh : ∀ a, role' a = .fresh t ↔ fresh pc' = some a
  fresh_others : ∀ u, u ≠ t → ∀ a, role' a = .fresh u ↔ role a = .fresh u
  waiting : ∀ a, role' a = .waiting ↔ a ∈ chain'.tail
  head : ∀ a, role' a = .head ↔ a = ctx'.head
  retired : ∀ a, role' a = .retired t ↔ own pc' = some a
  retired_others : ∀ u, u ≠ t → ∀ a, role' a = .retired u ↔ role a = .retired u
  pooled : ∀ a, role' a = .pooled ↔ a ∈ pool'
  unread : ∀ a ∈ chain'.tail, Unread ctx' a
  read : ∀ a nd, (role' a).Read → ctx'.get a = some nd →
    nd.canFree = true ∨ claim pc' = some a ∨ ∃ u, u ≠ t ∧ claim (s.pc u) = some a
  thread : Local role' ctx' pc'
  rely : ∀ u, u ≠ t → Rely role role' s.ctx ctx' (s.pc u)
  maxHpSize : ctx'.maxHpSize = s.ctx.maxHpSize
  apart : ∀ u, u ≠ t → Apart s.ctx.maxHpSize pc' (s.pc u) ∧ Apart s.ctx.maxHpSize (s.pc u) pc'

theorem Mem.change (h : Mem role chain pool s) (hc : Change role role' chain' pool' s t ctx' pc') :
    Mem role' chain' pool' ⟨ctx', Function.update s.pc t pc'⟩ where
  queue := hc.queue.congr (fun _ _ => rfl) fun a b => exists_update fun pc => pend pc = some (a, b)
  freePool := hc.freePool.congr (fun _ _ => rfl)
    fun a b => exists_update fun pc => poolPend pc = some (a, b)
  unused := hc.unused
  fresh := forall_update (fun u pc => ∀ a, role' a = .fresh u ↔ LfqThreads.fresh pc = some a) hc.fresh
    fun u hu a => (hc.fresh_others u hu a).trans (h.fresh u a)
  waiting := hc.waiting
  head := hc.head
  retired := forall_update (fun u pc => ∀ a, role' a = .retired u ↔ own pc = some a) hc.retired
    fun u hu a => (hc.retired_others u hu a).trans (h.retired u a)
  pooled := hc.pooled
  unread := hc.unread
  read a nd ha hnd := (hc.read a nd ha hnd).imp_right (exists_update fun pc => claim pc = some a).2
  threads := forall_update (fun _ pc => Local role' ctx' pc) hc.thread
    fun u hu => (h.threads u).stable (hc.rely u hu)
  apart := by
    have hmax : ({ ctx := ctx', pc := Function.update s.pc t pc' } : Threads T α).ctx.maxHpSize =
        s.ctx.maxHpSize := hc.maxHpSize
    rw [hmax]
    intro u v hne
    by_cases hu : u = t
    · subst hu
      simp only [Function.update_self, Function.update_of_ne hne.symm]
      exact (hc.apart v hne.symm).1
    · refine forall_update (fun v pc => u ≠ v → Apart s.ctx.maxHpSize (Function.update s.pc t pc' u) pc)
        (fun _ => ?_) (fun v _ huv => ?_) v hne
      · rw [Function.update_of_ne hu]
        exact (hc.apart u hu).2
      · rw [Function.update_of_ne hu]
        exact h.apart u v huv

end Update

end LfqThreads

end MixSim
