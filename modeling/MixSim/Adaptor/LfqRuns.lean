import MixSim.Adaptor.LfqSafety

/-!
# Runs of threads on a queue

`access_mem` goes through the accesses; `Inv` is what holds in every state of every run, and `runs_ok`
what it is for: whatever the order of the accesses, none of them follows a pointer to a freed node.
-/

namespace MixSim

namespace LfqThreads

open Execution

variable {α T : Type}

/-! ### The history -/

/-- The items that have been put behind the others, in this order. -/
def puts (h : List (Obs T α)) : List α :=
  h.filterMap fun
    | .put _ x => some x
    | _ => none

/-- What has been taken off the front, in this order. -/
def takes (h : List (Obs T α)) : List (Option α) :=
  h.filterMap fun
    | .take _ x => some x
    | _ => none

/-- The item of a node. -/
def item (ctx : LfqCtx α) (a : Ptr) : Option α := (ctx.get a).bind LfqNode.data

/-- What was put is what was taken, and what waits. -/
def Fifo (chain : List Ptr) (ctx : LfqCtx α) (h : List (Obs T α)) : Prop :=
  (puts h).map some = takes h ++ chain.tail.map (item ctx)

theorem puts_append (h o : List (Obs T α)) : puts (h ++ o) = puts h ++ puts o := List.filterMap_append

theorem takes_append (h o : List (Obs T α)) : takes (h ++ o) = takes h ++ takes o := List.filterMap_append

/-- The items that wait stay. -/
theorem Fifo.keep {chain : List Ptr} {ctx ctx' : LfqCtx α} {h o : List (Obs T α)} (hf : Fifo chain ctx h)
    (hput : puts o = []) (htake : takes o = []) (hitem : ∀ a ∈ chain.tail, item ctx' a = item ctx a) :
    Fifo chain ctx' (h ++ o) := by
  rw [Fifo, puts_append, takes_append, hput, htake, List.append_nil, List.append_nil,
    List.map_congr_left hitem]
  exact hf

theorem item_put {ctx : LfqCtx α} {p : Ptr} {nd nd' : LfqNode α} (hnd : ctx.get p = some nd)
    (hdata : nd'.data = nd.data) (a : Ptr) : item (ctx.put p (some nd')) a = item ctx a := by
  by_cases ha : a = p
  · subst ha
    rw [item, item, LfqCtx.get_put_self hnd, hnd]
    exact hdata
  · rw [item, item, LfqCtx.get_put_of_ne ha]

/-- A node that comes or goes is not one that waits. -/
theorem Mem.item_put {role : Ptr → Role T} {chain pool : List Ptr} {s : Threads T α}
    (h : Mem role chain pool s) {p : Ptr} {v : Option (LfqNode α)} (hp : role p ≠ .waiting) :
    ∀ a ∈ chain.tail, item (s.ctx.put p v) a = item s.ctx a := by
  intro a ha
  have hap : a ≠ p := by
    rintro rfl
    exact hp ((h.waiting a).2 ha)
  rw [item, item, LfqCtx.get_put_of_ne hap]

/-! ### One step -/

/-- A thread that looks through the hazard pointers does not look for the head. -/
theorem passed_cases {n k : ℕ} {a : Ptr} {pc : Pc α} (h : passed n pc = some (a, k)) :
    own pc = some a ∨ pop pc = some a := by
  cases pc with
  | safeFree i ret lfn pc => cases pc <;> cases h <;> exact Or.inl rfl
  | freePool i ret pc => cases pc <;> cases h <;> first | exact Or.inr rfl | exact Or.inl rfl
  | _ => cases h

theorem Mem.passed_ne_head {role : Ptr → Role T} {chain pool : List Ptr} {s : Threads T α}
    (h : Mem role chain pool s) {u : T} {n k : ℕ} {a : Ptr} (hp : passed n (s.pc u) = some (a, k)) : a ≠ s.ctx.head := by
  rintro rfl
  rcases passed_cases hp with hown | hpop
  · have hrole := h.own_role hown
    rw [h.head_role] at hrole
    cases hrole
  · have hrole := h.fph_role
    rw [(h.threads u).pop hpop, h.head_role] at hrole
    cases hrole

theorem Local.guard_hp {role : Ptr → Role T} {ctx : LfqCtx α} {pc : Pc α} {i : ℕ} {a : Ptr}
    (h : Local role ctx pc) (ha : LfqThreads.guard pc = some (i, a)) : ctx.hp[i]? = some a := by
  cases pc with
  | loadNext j b =>
    cases ha
    exact h.1
  | casHead j b c =>
    cases ha
    exact h.1
  | _ => cases ha

section Step

variable [DecidableEq T] {role : Ptr → Role T} {chain pool : List Ptr} {s : Threads T α} {t : T}
  {ctx' : LfqCtx α}

/-- The accesses of `safe_free` and the roles. -/
theorem SafeFreeAccess.mem {i : ℕ} {ret : Dequeued α} {lfn : Ptr} {pc : SafeFreePc}
    {pc' : Option SafeFreePc} (ha : SafeFreeAccess s.ctx lfn pc ctx' pc') (hslots : Slots s)
    (h : Mem role chain pool s) (hpc : s.pc t = .safeFree i ret lfn pc) :
    ∃ role' pool', Mem role' chain pool' ⟨ctx', Function.update s.pc t
      (match pc' with
        | some pc' => .safeFree i ret lfn pc'
        | none => .freePool i ret .lock)⟩ ∧ ∀ a ∈ chain.tail, item ctx' a = item s.ctx a := by
  have hlocal := h.threads t
  have hscan : ∀ u, u ≠ t → ∀ a k j, passed s.ctx.maxHpSize (.safeFree i ret lfn pc : Pc α) = some (a, k) →
      guard (s.pc u) = some (j, a) → k ≤ j := by
    intro u hu
    rw [← hpc]
    exact (h.apart t u hu.symm).scan
  rw [hpc] at hlocal
  have hrole : own (s.pc t) = some lfn → role lfn ≠ .waiting := fun he => by
    rw [h.own_role he]
    exact nofun
  cases ha with
  | canFree hnd hfree =>
    refine ⟨role, pool, h.walk hpc ⟨rfl, rfl, rfl, rfl, rfl⟩ ⟨_, hnd, hfree⟩ ?_ nofun, fun _ _ => rfl⟩
    rintro u - a k j hk -
    cases hk
    exact Nat.zero_le j
  | unread hnd hfree =>
    exact ⟨role, pool, h.walk hpc ⟨rfl, rfl, rfl, rfl, rfl⟩ trivial nofun nofun, fun _ _ => rfl⟩
  | scanHit hi hhp =>
    exact ⟨role, pool, h.walk hpc ⟨rfl, rfl, rfl, rfl, rfl⟩ trivial nofun nofun, fun _ _ => rfl⟩
  | scanMiss hi hhp =>
    refine ⟨role, pool, h.walk hpc ⟨rfl, rfl, rfl, rfl, rfl⟩ hlocal ?_ nofun, fun _ _ => rfl⟩
    rintro u hu a k j hk hj
    cases hk
    have hle := hscan u hu lfn _ j rfl hj
    refine lt_of_le_of_ne hle ?_
    rintro rfl
    exact hhp ((h.threads u).guard_hp hj)
  | scanEnd hi =>
    refine ⟨role, pool, h.walk hpc ⟨rfl, rfl, rfl, rfl, rfl⟩ hlocal ?_ nofun, fun _ _ => rfl⟩
    rintro u hu a k j hk hj
    cases hk
    exact hi.trans (hscan u hu lfn _ j rfl hj)
  | busy hf =>
    exact ⟨role, pool, h.walk hpc ⟨rfl, rfl, rfl, rfl, rfl⟩ trivial nofun nofun, fun _ _ => rfl⟩
  | lock hf =>
    exact ⟨role, pool, h.move hpc rfl rfl rfl rfl rfl rfl (fun _ _ _ _ => rfl)
      ⟨rfl, rfl, rfl, rfl, rfl⟩ hlocal hscan nofun, fun _ _ => rfl⟩
  | poison hnd =>
    obtain ⟨nd, hnd', hfree⟩ := hlocal
    rw [hnd] at hnd'
    cases hnd'
    exact ⟨role, pool, h.writeOwn hpc hnd rfl rfl ⟨_, LfqCtx.get_put_self hnd, hfree⟩ fun _ _ he => he,
      fun a _ => item_put hnd (by rfl) a⟩
  | free hnd =>
    exact ⟨_, pool, h.free hslots hpc rfl rfl rfl rfl rfl rfl rfl rfl rfl rfl trivial,
      h.item_put (hrole (by rw [hpc]; rfl))⟩
  | unlock =>
    exact ⟨role, pool, h.move hpc rfl rfl rfl rfl rfl rfl (fun _ _ _ _ => rfl)
      ⟨rfl, rfl, rfl, rfl, rfl⟩ trivial nofun nofun, fun _ _ => rfl⟩
  | clearNext hnd =>
    exact ⟨role, pool, h.writeOwn hpc hnd rfl rfl (link_of_get (LfqCtx.get_put_self hnd)) nofun,
      fun a _ => item_put hnd (by rfl) a⟩
  | exchange => exact ⟨_, _, h.exchangePool hpc, fun _ _ => rfl⟩
  | link hnd => exact ⟨role, pool, h.linkPool hpc hnd, fun a _ => item_put hnd (by rfl) a⟩

/-- The accesses of `free_pool` and the roles. -/
theorem FreePoolAccess.mem {i : ℕ} {ret : Dequeued α} {pc : FreePoolPc}
    {pc' : Option FreePoolPc} (ha : FreePoolAccess s.ctx pc ctx' pc') (hslots : Slots s) (hlock : Lock s)
    (h : Mem role chain pool s) (hpc : s.pc t = .freePool i ret pc) :
    ∃ role' pool', Mem role' chain pool' ⟨ctx', Function.update s.pc t
      (match pc' with
        | some pc' => .freePool i ret pc'
        | none => .freeTid i ret)⟩ ∧ ∀ a ∈ chain.tail, item ctx' a = item s.ctx a := by
  have hlocal := h.threads t
  have hscan : ∀ u, u ≠ t → ∀ a k j, passed s.ctx.maxHpSize (.freePool i ret pc : Pc α) = some (a, k) →
      guard (s.pc u) = some (j, a) → k ≤ j := by
    intro u hu
    rw [← hpc]
    exact (h.apart t u hu.symm).scan
  rw [hpc] at hlocal
  cases ha with
  | busy hf =>
    exact ⟨role, pool, h.walk hpc ⟨rfl, rfl, rfl, rfl, rfl⟩ trivial nofun nofun, fun _ _ => rfl⟩
  | lock hf =>
    exact ⟨role, pool, h.move hpc rfl rfl rfl rfl rfl rfl (fun _ _ _ _ => rfl)
      ⟨rfl, rfl, rfl, rfl, rfl⟩ trivial nofun nofun, fun _ _ => rfl⟩
  | loadHead hi =>
    exact ⟨role, pool, h.walk hpc ⟨rfl, rfl, rfl, rfl, rfl⟩ rfl nofun nofun, fun _ _ => rfl⟩
  | enough hi =>
    exact ⟨role, pool, h.walk hpc ⟨rfl, rfl, rfl, rfl, rfl⟩ trivial nofun nofun, fun _ _ => rfl⟩
  | canFree hnd hfree =>
    exact ⟨role, pool, h.walk hpc ⟨rfl, rfl, rfl, rfl, rfl⟩ ⟨hlocal, _, hnd, hfree⟩ nofun nofun,
      fun _ _ => rfl⟩
  | unread hnd hfree =>
    exact ⟨role, pool, h.walk hpc ⟨rfl, rfl, rfl, rfl, rfl⟩ trivial nofun nofun, fun _ _ => rfl⟩
  | testNext hnd hnext =>
    refine ⟨role, pool, h.walk hpc ⟨rfl, rfl, rfl, rfl, rfl⟩
      ⟨hlocal.1, hlocal.2, _, link_of_get hnd, hnext⟩ ?_ nofun, fun _ _ => rfl⟩
    rintro u - a k j hk -
    cases hk
    exact Nat.zero_le j
  | single hnd hnext =>
    exact ⟨role, pool, h.walk hpc ⟨rfl, rfl, rfl, rfl, rfl⟩ trivial nofun nofun, fun _ _ => rfl⟩
  | scanHit hj hhp =>
    exact ⟨role, pool, h.walk hpc ⟨rfl, rfl, rfl, rfl, rfl⟩ trivial nofun nofun, fun _ _ => rfl⟩
  | scanMiss hj hhp =>
    refine ⟨role, pool, h.walk hpc ⟨rfl, rfl, rfl, rfl, rfl⟩ hlocal ?_ nofun, fun _ _ => rfl⟩
    rintro u hu a k l hk hl
    cases hk
    have hle := hscan u hu _ _ l rfl hl
    refine lt_of_le_of_ne hle ?_
    rintro rfl
    exact hhp ((h.threads u).guard_hp hl)
  | scanEnd hj =>
    refine ⟨role, pool, h.walk hpc ⟨rfl, rfl, rfl, rfl, rfl⟩ hlocal ?_ nofun, fun _ _ => rfl⟩
    rintro u hu a k l hk hl
    cases hk
    exact hj.trans (hscan u hu _ _ l rfl hl)
  | loadNext hnd =>
    obtain ⟨hfph, hsure, b, hb, hne⟩ := hlocal
    rw [link_of_get hnd, Option.some.injEq] at hb
    exact ⟨role, pool, h.walk hpc ⟨rfl, rfl, rfl, rfl, rfl⟩
      ⟨hfph, hsure, link_of_get hnd, hb ▸ hne⟩ hscan nofun, fun _ _ => rfl⟩
  | storeHead =>
    obtain ⟨rest, -, hmem⟩ := h.storeHead hlock hpc
    exact ⟨_, _, hmem, fun _ _ => rfl⟩
  | free hnd =>
    have hrole := h.own_role (t := t) (by rw [hpc]; rfl)
    exact ⟨_, pool, h.free hslots hpc rfl rfl rfl rfl rfl rfl rfl rfl rfl rfl trivial,
      h.item_put (by rw [hrole]; exact nofun)⟩
  | unlock =>
    exact ⟨role, pool, h.move hpc rfl rfl rfl rfl rfl rfl (fun _ _ _ _ => rfl)
      ⟨rfl, rfl, rfl, rfl, rfl⟩ trivial nofun nofun, fun _ _ => rfl⟩

/-- The accesses of a thread and the roles. -/
theorem access_mem {pc' : Pc α} {o : List (Obs T α)} (ha : Access s.ctx t (s.pc t) ctx' pc' o)
    (hslots : Slots s) (hlock : Lock s) (h : Mem role chain pool s) {hist : List (Obs T α)}
    (hf : Fifo chain s.ctx hist) :
    ∃ role' chain' pool', Mem role' chain' pool' ⟨ctx', Function.update s.pc t pc'⟩ ∧
      Fifo chain' ctx' (hist ++ o) := by
  have hlocal := h.threads t
  have hheld := hslots.held t
  have hothers : ∀ i, tid (s.pc t) = some i → ∀ a u, u ≠ t → ∀ j, tid (s.pc u) = some j →
      (s.ctx.hp.set i a)[j]? = s.ctx.hp[j]? := by
    intro i hi a u hu j hj
    have hij : i ≠ j := by
      rintro rfl
      exact hu (hslots.unique u t i hj hi)
    exact List.getElem?_set_ne hij
  generalize hpc : s.pc t = pc at ha
  rw [hpc] at hlocal hheld hothers
  have hstay : puts o = [] → takes o = [] → (∀ a ∈ chain.tail, item ctx' a = item s.ctx a) →
      Fifo chain ctx' (hist ++ o) := hf.keep
  cases ha with
  | noMemory =>
    exact ⟨role, chain, pool, h.walk hpc ⟨rfl, rfl, rfl, rfl, rfl⟩ trivial nofun nofun,
      hstay rfl rfl fun _ _ => rfl⟩
  | alloc hn =>
    refine ⟨_, chain, pool, h.alloc hpc hn, hstay rfl rfl (h.item_put ?_)⟩
    rw [(h.unused _).2 hn]
    exact nofun
  | dequeue =>
    exact ⟨role, chain, pool, h.walk hpc ⟨rfl, rfl, rfl, rfl, rfl⟩ trivial nofun nofun,
      hstay rfl rfl fun _ _ => rfl⟩
  | exchangeTail =>
    rename_i x n
    have hitem : item s.ctx n = some x := by rw [item, show s.ctx.get n = _ from hlocal]; rfl
    refine ⟨_, _, pool, h.exchangeTail hpc, ?_⟩
    obtain ⟨rest, hrest⟩ := h.queue.eq_cons
    rw [Fifo, hrest, List.tail_cons] at hf
    rw [Fifo, puts_append, takes_append, List.map_append, hf, hrest, List.cons_append, List.tail_cons,
      List.map_append, List.map_singleton]
    show _ ++ [some x] = takes hist ++ [] ++ (rest.map (item s.ctx) ++ [item s.ctx n])
    rw [hitem, List.append_nil, List.append_assoc]
  | linkTail hnd =>
    exact ⟨role, chain, pool, h.linkTail hpc hnd, hstay rfl rfl
      fun a _ => item_put hnd (by rfl) a⟩
  | testTid hi hfree =>
    exact ⟨role, chain, pool, h.walk hpc ⟨rfl, rfl, rfl, rfl, rfl⟩ trivial nofun nofun,
      hstay rfl rfl fun _ _ => rfl⟩
  | taken hi hfree =>
    exact ⟨role, chain, pool, h.walk hpc ⟨rfl, rfl, rfl, rfl, rfl⟩ trivial nofun nofun,
      hstay rfl rfl fun _ _ => rfl⟩
  | noTid hi =>
    exact ⟨role, chain, pool, h.walk hpc ⟨rfl, rfl, rfl, rfl, rfl⟩ trivial nofun nofun,
      hstay rfl rfl fun _ _ => rfl⟩
  | casTid hfree =>
    exact ⟨role, chain, pool, h.move hpc rfl rfl rfl rfl rfl rfl (fun _ _ _ _ => rfl)
      ⟨rfl, rfl, rfl, rfl, rfl⟩ trivial nofun nofun, hstay rfl rfl fun _ _ => rfl⟩
  | casTidFails hfree =>
    exact ⟨role, chain, pool, h.walk hpc ⟨rfl, rfl, rfl, rfl, rfl⟩ trivial nofun nofun,
      hstay rfl rfl fun _ _ => rfl⟩
  | loadHead =>
    exact ⟨role, chain, pool, h.walk hpc ⟨rfl, rfl, rfl, rfl, rfl⟩ trivial nofun nofun,
      hstay rfl rfl fun _ _ => rfl⟩
  | storeHP =>
    rename_i i a
    have hi := (List.getElem?_eq_some_iff.1 (hheld i rfl)).1
    rw [hslots.tidMap_length, ← hslots.hp_length] at hi
    exact ⟨role, chain, pool, h.move hpc rfl rfl rfl rfl rfl rfl (hothers i rfl a)
      ⟨rfl, rfl, rfl, rfl, rfl⟩ (List.getElem?_set_self hi) nofun nofun,
      hstay rfl rfl fun _ _ => rfl⟩
  | checkHead =>
    refine ⟨role, chain, pool, h.walk hpc ⟨rfl, rfl, rfl, rfl, rfl⟩
      ⟨hlocal, by rw [h.head_role]; trivial⟩ nofun ?_, hstay rfl rfl fun _ _ => rfl⟩
    rintro u - a k j hk hj
    cases hj
    exact absurd rfl (h.passed_ne_head hk)
  | retry hne =>
    exact ⟨role, chain, pool, h.walk hpc ⟨rfl, rfl, rfl, rfl, rfl⟩ trivial nofun nofun,
      hstay rfl rfl fun _ _ => rfl⟩
  | loadNext hnd hnext =>
    refine ⟨role, chain, pool, h.walk hpc ⟨rfl, rfl, rfl, rfl, rfl⟩
      ⟨hlocal.1, hlocal.2, fun _ => link_of_get hnd, hnext⟩ nofun ?_, hstay rfl rfl fun _ _ => rfl⟩
    intro u hu a k j hk hj
    have hapart := h.apart u t hu
    rw [hpc] at hapart
    exact hapart.scan a k j hk hj
  | empty hnd hnext =>
    exact ⟨role, chain, pool, h.walk hpc ⟨rfl, rfl, rfl, rfl, rfl⟩ trivial nofun nofun,
      hstay rfl rfl fun _ _ => rfl⟩
  | clearEmpty =>
    exact ⟨role, chain, pool, h.move hpc rfl rfl rfl rfl rfl rfl (hothers _ rfl .null)
      ⟨rfl, rfl, rfl, rfl, rfl⟩ trivial nofun nofun, hstay rfl rfl fun _ _ => rfl⟩
  | casHead =>
    rename_i i b
    obtain ⟨rest, rfl, hmem⟩ := h.casHead hpc
    refine ⟨_, _, pool, hmem, ?_⟩
    rw [Fifo, List.tail_cons, List.map_cons] at hf
    rw [Fifo, puts_append, takes_append, List.tail_cons]
    show (puts hist ++ []).map some = takes hist ++ [item s.ctx b] ++ rest.map (item s.ctx)
    rw [List.append_nil, hf, List.append_assoc, List.singleton_append]
  | casHeadFails hne =>
    exact ⟨role, chain, pool, h.walk hpc ⟨rfl, rfl, rfl, rfl, rfl⟩ trivial nofun nofun,
      hstay rfl rfl fun _ _ => rfl⟩
  | clearHP =>
    exact ⟨role, chain, pool, h.move hpc rfl rfl rfl rfl rfl rfl (hothers _ rfl .null)
      ⟨rfl, rfl, rfl, rfl, rfl⟩ ⟨hlocal.1, hlocal.2.congr (LfqCtx.get_congr rfl _)⟩ nofun nofun,
      hstay rfl rfl fun _ _ => rfl⟩
  | loadData hnd =>
    exact ⟨role, chain, pool, h.walk hpc ⟨rfl, rfl, rfl, rfl, rfl⟩ hlocal nofun nofun,
      hstay rfl rfl fun _ _ => rfl⟩
  | setCanFree hnd =>
    exact ⟨role, chain, pool, h.setCanFree hpc hnd, hstay rfl rfl
      fun a _ => item_put hnd (by rfl) a⟩
  | safeFree ha =>
    obtain ⟨role', pool', hmem, hitem⟩ := ha.mem hslots h hpc
    exact ⟨role', chain, pool', hmem, hstay rfl rfl hitem⟩
  | safeFreeEnd ha =>
    obtain ⟨role', pool', hmem, hitem⟩ := ha.mem hslots h hpc
    exact ⟨role', chain, pool', hmem, hstay rfl rfl hitem⟩
  | freePool ha =>
    obtain ⟨role', pool', hmem, hitem⟩ := ha.mem hslots hlock h hpc
    exact ⟨role', chain, pool', hmem, hstay rfl rfl hitem⟩
  | freePoolEnd ha =>
    obtain ⟨role', pool', hmem, hitem⟩ := ha.mem hslots hlock h hpc
    exact ⟨role', chain, pool', hmem, hstay rfl rfl hitem⟩
  | freeTid =>
    exact ⟨role, chain, pool, h.move hpc rfl rfl rfl rfl rfl rfl (fun _ _ _ _ => rfl)
      ⟨rfl, rfl, rfl, rfl, rfl⟩ trivial nofun nofun, hstay rfl rfl fun _ _ => rfl⟩

end Step

/-! ### All runs -/

/-- What holds in every state of every run, after the history `h`. -/
def Inv (s : Threads T α) (h : List (Obs T α)) : Prop :=
  Slots s ∧ Lock s ∧ ∃ role chain pool, Mem role chain pool s ∧ Fifo chain s.ctx h

/-- The roles of the two nodes of `lfq_init`. -/
def initRole (T : Type) (p : Ptr) : Role T :=
  if p = .node 0 then .head else if p = .node 1 then .pooled else .unused

theorem lfqInit_get (n a : ℕ) :
    (lfqInit α n).get (.node a) = if a < 2 then some ⟨none, .null, true⟩ else none := rfl

theorem mem_init (n : ℕ) : Mem (initRole T) [.node 0] [.node 1] (init T α n) where
  queue := SwapList.linked_single rfl nofun fun _ _ he => by
    obtain ⟨_, he⟩ := he
    cases he
  freePool := SwapList.linked_single rfl nofun fun _ _ he => by
    obtain ⟨_, he⟩ := he
    cases he
  unused a := by
    cases a with
    | node a =>
      rcases a with _ | _ | a
      · exact iff_of_false nofun nofun
      · exact iff_of_false nofun nofun
      · refine iff_of_true ?_ ?_
        · rw [initRole, if_neg (by simp), if_neg (by simp)]
        · show (lfqInit α n).get (.node (a + 2)) = none
          rw [lfqInit_get, if_neg (by omega)]
    | null => exact iff_of_true rfl rfl
    | poison => exact iff_of_true rfl rfl
  fresh t a := by
    refine iff_of_false ?_ nofun
    unfold initRole
    split
    · exact nofun
    · split <;> exact nofun
  waiting a := by
    refine iff_of_false ?_ nofun
    unfold initRole
    split
    · exact nofun
    · split <;> exact nofun
  head a := by
    show initRole T a = .head ↔ a = .node 0
    unfold initRole
    split
    · rename_i ha
      exact iff_of_true rfl ha
    · rename_i ha
      refine iff_of_false ?_ ha
      split <;> exact nofun
  retired t a := by
    refine iff_of_false ?_ nofun
    unfold initRole
    split
    · exact nofun
    · split <;> exact nofun
  pooled a := by
    rw [List.mem_singleton]
    unfold initRole
    split
    · rename_i ha
      subst ha
      exact iff_of_false nofun nofun
    · split
      · rename_i ha
        exact iff_of_true rfl ha
      · rename_i ha
        exact iff_of_false nofun ha
  unread a ha := by cases ha
  read a nd ha hnd := by
    cases a with
    | node a =>
      have hget := lfqInit_get (α := α) n a
      split at hget
      · exact Or.inl (by cases hget.symm.trans hnd; rfl)
      · cases hget.symm.trans hnd
    | null => cases hnd
    | poison => cases hnd
  threads t := trivial
  apart t u _ := ⟨nofun, nofun, nofun, nofun⟩

theorem inv_init (n : ℕ) : Inv (init T α n) [] :=
  ⟨slots_init n, lock_init n, initRole T, _, _, mem_init n, rfl⟩

section Runs

variable [DecidableEq T]

theorem inductive_inv : Inductive (step (T := T) (α := α)) (fun _ _ => True) Inv := by
  rintro s h ⟨t, call⟩ s' o ⟨hslots, hlock, role, chain, pool, hmem, hfifo⟩ - hs
  obtain ⟨ctx', pc', ha, rfl⟩ := step_ok hs
  obtain ⟨role', chain', pool', hmem', hfifo'⟩ := access_mem ha hslots hlock hmem hfifo
  exact ⟨slots_step hslots hs, lock_step hlock hs, role', chain', pool', hmem', hfifo'⟩

/-- What holds at the end of a run. -/
theorem inv_exec {n : ℕ} {is : List (T × Call α)} {s : Threads T α} {h : List (Obs T α)}
    (he : exec step (init T α n) is = .ok (s, h)) : Inv s h :=
  inductive_inv.exec (inv_init n) (along_true _ is) he

theorem exec_ne_error (n : ℕ) (is : List (T × Call α)) (f : Fault) :
    exec step (init T α n) is ≠ .error f := by
  refine fun he => inductive_inv.fault (F := fun _ => False) ?_ (inv_init n) (along_true _ is) he
  rintro s h ⟨t, call⟩ f ⟨-, -, role, chain, pool, hmem, -⟩ - hs
  obtain ⟨⟨ctx', pc', o⟩, hok⟩ := threadStep_total (fun p => hmem.reads (t := t)) t call
  rw [step, hok] at hs
  cases hs

theorem exists_exec_ok (n : ℕ) (is : List (T × Call α)) :
    ∃ s h, exec step (init T α n) is = .ok (s, h) := by
  cases he : exec step (init T α n) is with
  | ok r => exact ⟨r.1, r.2, rfl⟩
  | error f => exact absurd he (exec_ne_error n is f)

/-- No order in which the accesses of the threads come makes one of them follow a pointer to a node
that has been freed, or free a node twice; the slot of a thread is one of those there are, and no
other thread has it. -/
theorem runs_ok (n : ℕ) (is : List (T × Call α)) :
    ∃ s h, exec step (init T α n) is = .ok (s, h) ∧
      (∀ t i, tid (s.pc t) = some i → i < s.ctx.hp.length ∧ i < s.ctx.tidMap.length) ∧
      ∀ t u i, tid (s.pc t) = some i → tid (s.pc u) = some i → t = u := by
  obtain ⟨s, h, he⟩ := exists_exec_ok n is
  obtain ⟨hslots, -⟩ := inv_exec he
  refine ⟨s, h, he, fun t i hi => ?_, hslots.unique⟩
  have hmem := (List.getElem?_eq_some_iff.1 (hslots.held t i hi)).1
  exact ⟨by rw [hslots.hp_length, ← hslots.tidMap_length]; exact hmem, hmem⟩

end Runs

/-- A node that waits has an item. -/
theorem Mem.item_waiting {role : Ptr → Role T} {chain pool : List Ptr} {s : Threads T α}
    (h : Mem role chain pool s) {a : Ptr} (ha : a ∈ chain.tail) : ∃ x, item s.ctx a = some x := by
  obtain ⟨nd, hnd, -, hdata⟩ := h.unread a ha
  obtain ⟨x, hx⟩ := Option.isSome_iff_exists.1 hdata
  exact ⟨x, by rw [item, hnd]; exact hx⟩

end LfqThreads

end MixSim
