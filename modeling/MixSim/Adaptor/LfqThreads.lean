import MixSim.Adaptor.Lfq
import MixSim.Library.Execution

/-!
# The queue of `lfq.c` under several threads

Any number of threads call `lfq_enqueue` and `lfq_dequeue` on one queue. A thread is where it makes
its next access to the memory it shares with the others, together with its local variables (`Pc`);
one step lets one thread make that access (`step`), so a run of `step` is an order in which the
accesses of all threads come one after the other. The exchange, the compare-and-swap and the plain
loads and stores are each one access; they take effect in one order for all threads, as with the full
barriers of the source.

`calloc` may hand out any address that is not in use, one that has been freed just before included:
nothing keeps a thread from finding an old address with a new node behind it but the hazard pointers.
-/

namespace MixSim

namespace LfqCtx

variable {α : Type}

/-- The node at a pointer. -/
def get (ctx : LfqCtx α) : Ptr → Option (LfqNode α)
  | .node a => ctx.heap a
  | _ => none

/-- The context with another node, or none, at a pointer. -/
def put (ctx : LfqCtx α) (p : Ptr) (nd : Option (LfqNode α)) : LfqCtx α :=
  match p with
  | .node a => { ctx with heap := Function.update ctx.heap a nd }
  | _ => ctx

variable {ctx ctx' : LfqCtx α} {p q : Ptr} {nd nd' : LfqNode α} {v : Option (LfqNode α)}

/-- The nodes are those of the heap. -/
theorem get_congr (h : ctx'.heap = ctx.heap) (p : Ptr) : ctx'.get p = ctx.get p := by
  cases p <;> simp only [get, h]

theorem get_put_node (a : ℕ) : (ctx.put (.node a) v).get (.node a) = v := by
  simp only [put, get, Function.update_self]

/-- Where a node was, there is the new one. -/
theorem get_put_self (h : ctx.get p = some nd) : (ctx.put p v).get p = v := by
  cases p with
  | node a => exact get_put_node a
  | null => cases h
  | poison => cases h

theorem get_put_of_ne (h : q ≠ p) : (ctx.put p v).get q = ctx.get q := by
  cases p with
  | node a =>
    cases q with
    | node b => exact Function.update_of_ne (fun hab => h (congrArg Ptr.node hab)) v ctx.heap
    | _ => rfl
  | _ => rfl

section Put

variable (ctx p v)

@[simp] theorem put_head : (ctx.put p v).head = ctx.head := by cases p <;> rfl
@[simp] theorem put_tail : (ctx.put p v).tail = ctx.tail := by cases p <;> rfl
@[simp] theorem put_hp : (ctx.put p v).hp = ctx.hp := by cases p <;> rfl
@[simp] theorem put_tidMap : (ctx.put p v).tidMap = ctx.tidMap := by cases p <;> rfl
@[simp] theorem put_isFreeing : (ctx.put p v).isFreeing = ctx.isFreeing := by cases p <;> rfl
@[simp] theorem put_fph : (ctx.put p v).fph = ctx.fph := by cases p <;> rfl
@[simp] theorem put_fpt : (ctx.put p v).fpt = ctx.fpt := by cases p <;> rfl
@[simp] theorem put_maxHpSize : (ctx.put p v).maxHpSize = ctx.maxHpSize := by cases p <;> rfl

end Put

theorem load_eq_ok : ctx.load p = .ok nd ↔ ctx.get p = some nd := by
  cases p with
  | node a =>
    simp only [load, get]
    cases ctx.heap a with
    | none => simp
    | some n => simp
  | null => simp [load, get]
  | poison => simp [load, get]

theorem store_of_get (h : ctx.get p = some nd) : ctx.store p nd' = .ok (ctx.put p (some nd')) := by
  cases p with
  | node a =>
    have ha : ctx.heap a = some nd := h
    simp only [store, put, ha]
  | null => cases h
  | poison => cases h

theorem free_of_get (h : ctx.get p = some nd) : ctx.free p = .ok (ctx.put p none) := by
  cases p with
  | node a =>
    have ha : ctx.heap a = some nd := h
    simp only [free, put, ha]
  | null => cases h
  | poison => cases h

theorem free_eq_ok (h : ctx.free p = .ok ctx') : ∃ nd, ctx.get p = some nd := by
  cases p with
  | node a =>
    cases ha : ctx.heap a with
    | some nd => exact ⟨nd, ha⟩
    | none =>
      simp only [free, ha] at h
      cases h
  | null => cases h
  | poison => cases h

end LfqCtx

namespace LfqThreads

open Execution

variable {α T : Type}

/-! ### Where a thread is -/

/-- In `safe_free(ctx, lfn)`, the calls of `inHP` and `enpool` included. -/
inductive SafeFreePc
  /-- `lfn->can_free` -/
  | canFree
  /-- `ctx->HP[i] == lfn` -/
  | scan (i : ℕ)
  /-- `CAS(&ctx->is_freeing, 0, 1)` -/
  | lock
  /-- `lfn->next = (void*)-1` -/
  | poison
  /-- `free(lfn)` -/
  | free
  /-- `ctx->is_freeing = false` -/
  | unlock
  /-- `lfn->free_next = NULL` -/
  | clearNext
  /-- `XCHG(&ctx->fpt, lfn)` -/
  | exchange
  /-- `old_tail->free_next = lfn` -/
  | link (oldTail : Ptr)
  deriving DecidableEq

/-- In `free_pool(ctx, false)`, in round `i` of its loop. -/
inductive FreePoolPc
  /-- `CAS(&ctx->is_freeing, 0, 1)` -/
  | lock
  /-- `p = ctx->fph` -/
  | loadHead (i : ℕ)
  /-- `p->can_free` -/
  | canFree (i : ℕ) (p : Ptr)
  /-- `p->free_next`, as a test -/
  | testNext (i : ℕ) (p : Ptr)
  /-- `ctx->HP[j] == p` -/
  | scan (i : ℕ) (p : Ptr) (j : ℕ)
  /-- `p->free_next`, as a value -/
  | loadNext (i : ℕ) (p : Ptr)
  /-- `ctx->fph = next` -/
  | storeHead (i : ℕ) (p next : Ptr)
  /-- `free(p)` -/
  | free (i : ℕ) (p : Ptr)
  /-- `ctx->is_freeing = false` -/
  | unlock
  deriving DecidableEq

/-- Where a thread is: the access it makes next, with its local variables. -/
inductive Pc (α : Type)
  | idle
  /-- `XCHG(&ctx->tail, insert_node)` -/
  | exchangeTail (data : α) (insertNode : Ptr)
  /-- `old_tail->next = insert_node` -/
  | linkTail (oldTail insertNode : Ptr)
  /-- `ctx->tid_map[i] == 0` -/
  | testTid (i : ℕ)
  /-- `CAS(&ctx->tid_map[i], 0, 1)` -/
  | casTid (i : ℕ)
  /-- `old_head = ctx->head` -/
  | loadHead (tid : ℕ)
  /-- `ctx->HP[tid] = old_head` -/
  | storeHP (tid : ℕ) (oldHead : Ptr)
  /-- `old_head != ctx->head` -/
  | checkHead (tid : ℕ) (oldHead : Ptr)
  /-- `new_head = old_head->next` -/
  | loadNext (tid : ℕ) (oldHead : Ptr)
  /-- `ctx->HP[tid] = 0`, before `return 0` -/
  | clearEmpty (tid : ℕ)
  /-- `CAS(&ctx->head, old_head, new_head)` -/
  | casHead (tid : ℕ) (oldHead newHead : Ptr)
  /-- `ctx->HP[tid] = 0` -/
  | clearHP (tid : ℕ) (oldHead newHead : Ptr)
  /-- `ret = new_head->data` -/
  | loadData (tid : ℕ) (oldHead newHead : Ptr)
  /-- `new_head->can_free = true` -/
  | setCanFree (tid : ℕ) (oldHead newHead : Ptr) (ret : Dequeued α)
  /-- `safe_free(ctx, old_head)` -/
  | safeFree (tid : ℕ) (ret : Dequeued α) (lfn : Ptr) (pc : SafeFreePc)
  /-- `free_pool(ctx, false)` -/
  | freePool (tid : ℕ) (ret : Dequeued α) (pc : FreePoolPc)
  /-- `ctx->tid_map[tid] = 0` -/
  | freeTid (tid : ℕ) (ret : Dequeued α)

/-- The shared memory, and where each thread is. -/
structure Threads (T α : Type) where
  ctx : LfqCtx α
  pc : T → Pc α

/-- What an idle thread calls next. An enqueue comes with the address that `calloc` finds for the
node; an address in use stands for a `calloc` that fails. -/
inductive Call (α : Type)
  | enqueue (data : α) (addr : ℕ)
  | dequeue

/-- What happens in a run: a call begins; an item is put behind the others, the first item is taken,
or a thread finds nothing to take; a call returns. -/
inductive Obs (T α : Type)
  | enqueue (t : T) (data : α)
  | dequeue (t : T)
  | put (t : T) (x : α)
  | take (t : T) (x : Option α)
  | empty (t : T)
  | enqueued (t : T) (ret : ℤ)
  | dequeued (t : T) (ret : Dequeued α)
  deriving DecidableEq

/-! ### The steps -/

/-- One access of `safe_free`; `none` is the call of `free_pool` at its end. -/
def safeFreeStep (ctx : LfqCtx α) (lfn : Ptr) :
    SafeFreePc → Except Fault (LfqCtx α × Option SafeFreePc)
  | .canFree => do
      let nd ← ctx.load lfn
      .ok (ctx, some (if nd.canFree then .scan 0 else .clearNext))
  | .scan i =>
      if i < ctx.maxHpSize then
        .ok (ctx, some (if ctx.hp[i]? = some lfn then .clearNext else .scan (i + 1)))
      else .ok (ctx, some .lock)
  | .lock =>
      if ctx.isFreeing then .ok (ctx, some .clearNext)
      else .ok ({ ctx with isFreeing := true }, some .poison)
  | .poison => do
      let nd ← ctx.load lfn
      let ctx ← ctx.store lfn { nd with next := .poison }
      .ok (ctx, some .free)
  | .free => do
      let ctx ← ctx.free lfn
      .ok (ctx, some .unlock)
  | .unlock => .ok ({ ctx with isFreeing := false }, none)
  | .clearNext => do
      let nd ← ctx.load lfn
      let ctx ← ctx.store lfn { nd with next := .null }
      .ok (ctx, some .exchange)
  | .exchange => .ok ({ ctx with fpt := lfn }, some (.link ctx.fpt))
  | .link oldTail => do
      let nd ← ctx.load oldTail
      let ctx ← ctx.store oldTail { nd with next := lfn }
      .ok (ctx, none)

/-- One access of `free_pool`; `none` is its return. -/
def freePoolStep (ctx : LfqCtx α) : FreePoolPc → Except Fault (LfqCtx α × Option FreePoolPc)
  | .lock =>
      if ctx.isFreeing then .ok (ctx, none)
      else .ok ({ ctx with isFreeing := true }, some (.loadHead 0))
  | .loadHead i => .ok (ctx, some (if i < maxFree then .canFree i ctx.fph else .unlock))
  | .canFree i p => do
      let nd ← ctx.load p
      .ok (ctx, some (if nd.canFree then .testNext i p else .unlock))
  | .testNext i p => do
      let nd ← ctx.load p
      .ok (ctx, some (if nd.next = .null then .unlock else .scan i p 0))
  | .scan i p j =>
      if j < ctx.maxHpSize then
        .ok (ctx, some (if ctx.hp[j]? = some p then .unlock else .scan i p (j + 1)))
      else .ok (ctx, some (.loadNext i p))
  | .loadNext i p => do
      let nd ← ctx.load p
      .ok (ctx, some (.storeHead i p nd.next))
  | .storeHead i p next => .ok ({ ctx with fph := next }, some (.free i p))
  | .free i p => do
      let ctx ← ctx.free p
      .ok (ctx, some (.loadHead (i + 1)))
  | .unlock => .ok ({ ctx with isFreeing := false }, none)

/-- One access of thread `t`; what it does to the shared memory, where it is afterwards, and what
happens. -/
def threadStep (ctx : LfqCtx α) (t : T) (call : Call α) :
    Pc α → Except Fault (LfqCtx α × Pc α × List (Obs T α))
  | .idle =>
      match call with
      | .enqueue x a =>
          if (ctx.heap a).isSome then .ok (ctx, .idle, [.enqueue t x, .enqueued t (-enomem)])
          else .ok (ctx.put (.node a) (some ⟨some x, .null, false⟩), .exchangeTail x (.node a),
            [.enqueue t x])
      | .dequeue => .ok (ctx, .testTid 0, [.dequeue t])
  | .exchangeTail x n => .ok ({ ctx with tail := n }, .linkTail ctx.tail n, [.put t x])
  | .linkTail oldTail n => do
      let nd ← ctx.load oldTail
      let ctx ← ctx.store oldTail { nd with next := n }
      .ok (ctx, .idle, [.enqueued t 0])
  | .testTid i =>
      if i < ctx.maxHpSize then
        .ok (ctx, if ctx.tidMap[i]? = some 0 then .casTid i else .testTid (i + 1), [])
      else .ok (ctx, .idle, [.dequeued t .minusOne])
  | .casTid i =>
      if ctx.tidMap[i]? = some 0 then
        .ok ({ ctx with tidMap := ctx.tidMap.set i 1 }, .loadHead i, [])
      else .ok (ctx, .testTid (i + 1), [])
  | .loadHead tid => .ok (ctx, .storeHP tid ctx.head, [])
  | .storeHP tid oldHead => .ok ({ ctx with hp := ctx.hp.set tid oldHead }, .checkHead tid oldHead, [])
  | .checkHead tid oldHead =>
      .ok (ctx, if oldHead = ctx.head then .loadNext tid oldHead else .loadHead tid, [])
  | .loadNext tid oldHead => do
      let nd ← ctx.load oldHead
      if nd.next = .null then .ok (ctx, .clearEmpty tid, [.empty t])
      else .ok (ctx, .casHead tid oldHead nd.next, [])
  | .clearEmpty tid => .ok ({ ctx with hp := ctx.hp.set tid .null }, .freeTid tid .null, [])
  | .casHead tid oldHead newHead =>
      if ctx.head = oldHead then
        .ok ({ ctx with head := newHead }, .clearHP tid oldHead newHead,
          [.take t ((ctx.get newHead).bind LfqNode.data)])
      else .ok (ctx, .loadHead tid, [])
  | .clearHP tid oldHead newHead =>
      .ok ({ ctx with hp := ctx.hp.set tid .null }, .loadData tid oldHead newHead, [])
  | .loadData tid oldHead newHead => do
      let nd ← ctx.load newHead
      let ret := match nd.data with
        | none => Dequeued.null
        | some x => .data x
      .ok (ctx, .setCanFree tid oldHead newHead ret, [])
  | .setCanFree tid oldHead newHead ret => do
      let nd ← ctx.load newHead
      let ctx ← ctx.store newHead { nd with canFree := true }
      .ok (ctx, .safeFree tid ret oldHead .canFree, [])
  | .safeFree tid ret lfn pc => do
      let (ctx, pc) ← safeFreeStep ctx lfn pc
      match pc with
      | some pc => .ok (ctx, .safeFree tid ret lfn pc, [])
      | none => .ok (ctx, .freePool tid ret .lock, [])
  | .freePool tid ret pc => do
      let (ctx, pc) ← freePoolStep ctx pc
      match pc with
      | some pc => .ok (ctx, .freePool tid ret pc, [])
      | none => .ok (ctx, .freeTid tid ret, [])
  | .freeTid tid ret => .ok (freeTid ctx tid, .idle, [.dequeued t ret])

/-- One step of the thread that is scheduled. -/
def step [DecidableEq T] : Step (Threads T α) (T × Call α) (Obs T α) Fault := fun s i => do
  let (ctx, pc, o) ← threadStep s.ctx i.1 i.2 (s.pc i.1)
  .ok (⟨ctx, Function.update s.pc i.1 pc⟩, o)

/-- A queue after `lfq_init(ctx, max_consume_thread)`, with all threads idle. -/
def init (T α : Type) (maxConsumeThread : ℕ) : Threads T α := ⟨lfqInit α maxConsumeThread, fun _ => .idle⟩

/-- The node that a thread's next access is about, where that is a node. -/
def reads : Pc α → Option Ptr
  | .linkTail oldTail _ => some oldTail
  | .loadNext _ oldHead => some oldHead
  | .loadData _ _ newHead => some newHead
  | .setCanFree _ _ newHead _ => some newHead
  | .safeFree _ _ lfn pc =>
      match pc with
      | .canFree | .poison | .free | .clearNext => some lfn
      | .link oldTail => some oldTail
      | _ => none
  | .freePool _ _ pc =>
      match pc with
      | .canFree _ p | .testNext _ p | .loadNext _ p | .free _ p => some p
      | _ => none
  | _ => none

/-! ### What a step can do

Each rule is one branch of the functions above, with the node it finds. -/

section Rules

/-- The accesses of `safe_free`. -/
inductive SafeFreeAccess (ctx : LfqCtx α) (lfn : Ptr) :
    SafeFreePc → LfqCtx α → Option SafeFreePc → Prop
  | canFree {nd : LfqNode α} (hnd : ctx.get lfn = some nd) (hfree : nd.canFree = true) :
      SafeFreeAccess ctx lfn .canFree ctx (some (.scan 0))
  | unread {nd : LfqNode α} (hnd : ctx.get lfn = some nd) (hfree : nd.canFree = false) :
      SafeFreeAccess ctx lfn .canFree ctx (some .clearNext)
  | scanHit {i : ℕ} (hi : i < ctx.maxHpSize) (hhp : ctx.hp[i]? = some lfn) :
      SafeFreeAccess ctx lfn (.scan i) ctx (some .clearNext)
  | scanMiss {i : ℕ} (hi : i < ctx.maxHpSize) (hhp : ctx.hp[i]? ≠ some lfn) :
      SafeFreeAccess ctx lfn (.scan i) ctx (some (.scan (i + 1)))
  | scanEnd {i : ℕ} (hi : ctx.maxHpSize ≤ i) : SafeFreeAccess ctx lfn (.scan i) ctx (some .lock)
  | busy (hf : ctx.isFreeing = true) : SafeFreeAccess ctx lfn .lock ctx (some .clearNext)
  | lock (hf : ctx.isFreeing = false) :
      SafeFreeAccess ctx lfn .lock { ctx with isFreeing := true } (some .poison)
  | poison {nd : LfqNode α} (hnd : ctx.get lfn = some nd) :
      SafeFreeAccess ctx lfn .poison (ctx.put lfn (some { nd with next := .poison })) (some .free)
  | free {nd : LfqNode α} (hnd : ctx.get lfn = some nd) :
      SafeFreeAccess ctx lfn .free (ctx.put lfn none) (some .unlock)
  | unlock : SafeFreeAccess ctx lfn .unlock { ctx with isFreeing := false } none
  | clearNext {nd : LfqNode α} (hnd : ctx.get lfn = some nd) :
      SafeFreeAccess ctx lfn .clearNext (ctx.put lfn (some { nd with next := .null }))
        (some .exchange)
  | exchange : SafeFreeAccess ctx lfn .exchange { ctx with fpt := lfn } (some (.link ctx.fpt))
  | link {oldTail : Ptr} {nd : LfqNode α} (hnd : ctx.get oldTail = some nd) :
      SafeFreeAccess ctx lfn (.link oldTail) (ctx.put oldTail (some { nd with next := lfn })) none

/-- The accesses of `free_pool`. -/
inductive FreePoolAccess (ctx : LfqCtx α) : FreePoolPc → LfqCtx α → Option FreePoolPc → Prop
  | busy (hf : ctx.isFreeing = true) : FreePoolAccess ctx .lock ctx none
  | lock (hf : ctx.isFreeing = false) :
      FreePoolAccess ctx .lock { ctx with isFreeing := true } (some (.loadHead 0))
  | loadHead {i : ℕ} (hi : i < maxFree) : FreePoolAccess ctx (.loadHead i) ctx (some (.canFree i ctx.fph))
  | enough {i : ℕ} (hi : maxFree ≤ i) : FreePoolAccess ctx (.loadHead i) ctx (some .unlock)
  | canFree {i : ℕ} {p : Ptr} {nd : LfqNode α} (hnd : ctx.get p = some nd) (hfree : nd.canFree = true) :
      FreePoolAccess ctx (.canFree i p) ctx (some (.testNext i p))
  | unread {i : ℕ} {p : Ptr} {nd : LfqNode α} (hnd : ctx.get p = some nd) (hfree : nd.canFree = false) :
      FreePoolAccess ctx (.canFree i p) ctx (some .unlock)
  | testNext {i : ℕ} {p : Ptr} {nd : LfqNode α} (hnd : ctx.get p = some nd) (hnext : nd.next ≠ .null) :
      FreePoolAccess ctx (.testNext i p) ctx (some (.scan i p 0))
  | single {i : ℕ} {p : Ptr} {nd : LfqNode α} (hnd : ctx.get p = some nd) (hnext : nd.next = .null) :
      FreePoolAccess ctx (.testNext i p) ctx (some .unlock)
  | scanHit {i j : ℕ} {p : Ptr} (hj : j < ctx.maxHpSize) (hhp : ctx.hp[j]? = some p) :
      FreePoolAccess ctx (.scan i p j) ctx (some .unlock)
  | scanMiss {i j : ℕ} {p : Ptr} (hj : j < ctx.maxHpSize) (hhp : ctx.hp[j]? ≠ some p) :
      FreePoolAccess ctx (.scan i p j) ctx (some (.scan i p (j + 1)))
  | scanEnd {i j : ℕ} {p : Ptr} (hj : ctx.maxHpSize ≤ j) :
      FreePoolAccess ctx (.scan i p j) ctx (some (.loadNext i p))
  | loadNext {i : ℕ} {p : Ptr} {nd : LfqNode α} (hnd : ctx.get p = some nd) :
      FreePoolAccess ctx (.loadNext i p) ctx (some (.storeHead i p nd.next))
  | storeHead {i : ℕ} {p next : Ptr} :
      FreePoolAccess ctx (.storeHead i p next) { ctx with fph := next } (some (.free i p))
  | free {i : ℕ} {p : Ptr} {nd : LfqNode α} (hnd : ctx.get p = some nd) :
      FreePoolAccess ctx (.free i p) (ctx.put p none) (some (.loadHead (i + 1)))
  | unlock : FreePoolAccess ctx .unlock { ctx with isFreeing := false } none

/-- The accesses of thread `t`. -/
inductive Access (ctx : LfqCtx α) (t : T) : Pc α → LfqCtx α → Pc α → List (Obs T α) → Prop
  | noMemory {x : α} : Access ctx t .idle ctx .idle [.enqueue t x, .enqueued t (-enomem)]
  | alloc {x : α} {a : ℕ} (ha : ctx.get (.node a) = none) :
      Access ctx t .idle (ctx.put (.node a) (some ⟨some x, .null, false⟩))
        (.exchangeTail x (.node a)) [.enqueue t x]
  | dequeue : Access ctx t .idle ctx (.testTid 0) [.dequeue t]
  | exchangeTail {x : α} {n : Ptr} :
      Access ctx t (.exchangeTail x n) { ctx with tail := n } (.linkTail ctx.tail n) [.put t x]
  | linkTail {oldTail n : Ptr} {nd : LfqNode α} (hnd : ctx.get oldTail = some nd) :
      Access ctx t (.linkTail oldTail n) (ctx.put oldTail (some { nd with next := n })) .idle
        [.enqueued t 0]
  | testTid {i : ℕ} (hi : i < ctx.maxHpSize) (hfree : ctx.tidMap[i]? = some 0) :
      Access ctx t (.testTid i) ctx (.casTid i) []
  | taken {i : ℕ} (hi : i < ctx.maxHpSize) (hfree : ctx.tidMap[i]? ≠ some 0) :
      Access ctx t (.testTid i) ctx (.testTid (i + 1)) []
  | noTid {i : ℕ} (hi : ctx.maxHpSize ≤ i) :
      Access ctx t (.testTid i) ctx .idle [.dequeued t .minusOne]
  | casTid {i : ℕ} (hfree : ctx.tidMap[i]? = some 0) :
      Access ctx t (.casTid i) { ctx with tidMap := ctx.tidMap.set i 1 } (.loadHead i) []
  | casTidFails {i : ℕ} (hfree : ctx.tidMap[i]? ≠ some 0) :
      Access ctx t (.casTid i) ctx (.testTid (i + 1)) []
  | loadHead {tid : ℕ} : Access ctx t (.loadHead tid) ctx (.storeHP tid ctx.head) []
  | storeHP {tid : ℕ} {a : Ptr} :
      Access ctx t (.storeHP tid a) { ctx with hp := ctx.hp.set tid a } (.checkHead tid a) []
  | checkHead {tid : ℕ} : Access ctx t (.checkHead tid ctx.head) ctx (.loadNext tid ctx.head) []
  | retry {tid : ℕ} {a : Ptr} (hne : a ≠ ctx.head) :
      Access ctx t (.checkHead tid a) ctx (.loadHead tid) []
  | loadNext {tid : ℕ} {a : Ptr} {nd : LfqNode α} (hnd : ctx.get a = some nd) (hnext : nd.next ≠ .null) :
      Access ctx t (.loadNext tid a) ctx (.casHead tid a nd.next) []
  | empty {tid : ℕ} {a : Ptr} {nd : LfqNode α} (hnd : ctx.get a = some nd) (hnext : nd.next = .null) :
      Access ctx t (.loadNext tid a) ctx (.clearEmpty tid) [.empty t]
  | clearEmpty {tid : ℕ} :
      Access ctx t (.clearEmpty tid) { ctx with hp := ctx.hp.set tid .null } (.freeTid tid .null) []
  | casHead {tid : ℕ} {b : Ptr} :
      Access ctx t (.casHead tid ctx.head b) { ctx with head := b } (.clearHP tid ctx.head b)
        [.take t ((ctx.get b).bind LfqNode.data)]
  | casHeadFails {tid : ℕ} {a b : Ptr} (hne : ctx.head ≠ a) :
      Access ctx t (.casHead tid a b) ctx (.loadHead tid) []
  | clearHP {tid : ℕ} {a b : Ptr} :
      Access ctx t (.clearHP tid a b) { ctx with hp := ctx.hp.set tid .null } (.loadData tid a b) []
  | loadData {tid : ℕ} {a b : Ptr} {nd : LfqNode α} (hnd : ctx.get b = some nd) :
      Access ctx t (.loadData tid a b) ctx
        (.setCanFree tid a b (match nd.data with | none => .null | some x => .data x)) []
  | setCanFree {tid : ℕ} {a b : Ptr} {ret : Dequeued α} {nd : LfqNode α} (hnd : ctx.get b = some nd) :
      Access ctx t (.setCanFree tid a b ret) (ctx.put b (some { nd with canFree := true }))
        (.safeFree tid ret a .canFree) []
  | safeFree {tid : ℕ} {ret : Dequeued α} {lfn : Ptr} {pc pc' : SafeFreePc} {ctx' : LfqCtx α}
      (h : SafeFreeAccess ctx lfn pc ctx' (some pc')) :
      Access ctx t (.safeFree tid ret lfn pc) ctx' (.safeFree tid ret lfn pc') []
  | safeFreeEnd {tid : ℕ} {ret : Dequeued α} {lfn : Ptr} {pc : SafeFreePc} {ctx' : LfqCtx α}
      (h : SafeFreeAccess ctx lfn pc ctx' none) :
      Access ctx t (.safeFree tid ret lfn pc) ctx' (.freePool tid ret .lock) []
  | freePool {tid : ℕ} {ret : Dequeued α} {pc pc' : FreePoolPc} {ctx' : LfqCtx α}
      (h : FreePoolAccess ctx pc ctx' (some pc')) :
      Access ctx t (.freePool tid ret pc) ctx' (.freePool tid ret pc') []
  | freePoolEnd {tid : ℕ} {ret : Dequeued α} {pc : FreePoolPc} {ctx' : LfqCtx α}
      (h : FreePoolAccess ctx pc ctx' none) :
      Access ctx t (.freePool tid ret pc) ctx' (.freeTid tid ret) []
  | freeTid {tid : ℕ} {ret : Dequeued α} :
      Access ctx t (.freeTid tid ret) (freeTid ctx tid) .idle [.dequeued t ret]

end Rules

section Inversion

variable {ctx ctx' : LfqCtx α} {t : T} {call : Call α} {o : List (Obs T α)}

theorem safeFreeStep_ok {lfn : Ptr} {pc : SafeFreePc} {pc' : Option SafeFreePc}
    (h : safeFreeStep ctx lfn pc = .ok (ctx', pc')) : SafeFreeAccess ctx lfn pc ctx' pc' := by
  cases pc with
  | canFree =>
    obtain ⟨nd, hnd, h⟩ := bind_eq_ok h
    cases hfree : nd.canFree with
    | true =>
      rw [hfree] at h
      cases h
      exact .canFree (LfqCtx.load_eq_ok.1 hnd) hfree
    | false =>
      rw [hfree] at h
      cases h
      exact .unread (LfqCtx.load_eq_ok.1 hnd) hfree
  | scan i =>
    simp only [safeFreeStep] at h
    split at h
    · rename_i hi
      split at h
      · rename_i hhp
        cases h
        exact .scanHit hi hhp
      · rename_i hhp
        cases h
        exact .scanMiss hi hhp
    · rename_i hi
      cases h
      exact .scanEnd (Nat.le_of_not_lt hi)
  | lock =>
    simp only [safeFreeStep] at h
    split at h
    · rename_i hf
      cases h
      exact .busy hf
    · rename_i hf
      cases h
      exact .lock (Bool.eq_false_of_not_eq_true hf)
  | poison =>
    obtain ⟨nd, hnd, h⟩ := bind_eq_ok h
    rw [LfqCtx.load_eq_ok] at hnd
    rw [LfqCtx.store_of_get hnd] at h
    cases h
    exact .poison hnd
  | free =>
    obtain ⟨ctx'', hfree, h⟩ := bind_eq_ok h
    obtain ⟨nd, hnd⟩ := LfqCtx.free_eq_ok hfree
    rw [LfqCtx.free_of_get hnd] at hfree
    cases hfree
    cases h
    exact .free hnd
  | unlock =>
    cases h
    exact .unlock
  | clearNext =>
    obtain ⟨nd, hnd, h⟩ := bind_eq_ok h
    rw [LfqCtx.load_eq_ok] at hnd
    rw [LfqCtx.store_of_get hnd] at h
    cases h
    exact .clearNext hnd
  | exchange =>
    cases h
    exact .exchange
  | link oldTail =>
    obtain ⟨nd, hnd, h⟩ := bind_eq_ok h
    rw [LfqCtx.load_eq_ok] at hnd
    rw [LfqCtx.store_of_get hnd] at h
    cases h
    exact .link hnd

theorem freePoolStep_ok {pc : FreePoolPc} {pc' : Option FreePoolPc}
    (h : freePoolStep ctx pc = .ok (ctx', pc')) : FreePoolAccess ctx pc ctx' pc' := by
  cases pc with
  | lock =>
    simp only [freePoolStep] at h
    split at h
    · rename_i hf
      cases h
      exact .busy hf
    · rename_i hf
      cases h
      exact .lock (Bool.eq_false_of_not_eq_true hf)
  | loadHead i =>
    cases h
    split
    · rename_i hi
      exact .loadHead hi
    · rename_i hi
      exact .enough (Nat.le_of_not_lt hi)
  | canFree i p =>
    obtain ⟨nd, hnd, h⟩ := bind_eq_ok h
    cases hfree : nd.canFree with
    | true =>
      rw [hfree] at h
      cases h
      exact .canFree (LfqCtx.load_eq_ok.1 hnd) hfree
    | false =>
      rw [hfree] at h
      cases h
      exact .unread (LfqCtx.load_eq_ok.1 hnd) hfree
  | testNext i p =>
    obtain ⟨nd, hnd, h⟩ := bind_eq_ok h
    cases h
    split
    · rename_i hnext
      exact .single (LfqCtx.load_eq_ok.1 hnd) hnext
    · rename_i hnext
      exact .testNext (LfqCtx.load_eq_ok.1 hnd) hnext
  | scan i p j =>
    simp only [freePoolStep] at h
    split at h
    · rename_i hj
      split at h
      · rename_i hhp
        cases h
        exact .scanHit hj hhp
      · rename_i hhp
        cases h
        exact .scanMiss hj hhp
    · rename_i hj
      cases h
      exact .scanEnd (Nat.le_of_not_lt hj)
  | loadNext i p =>
    obtain ⟨nd, hnd, h⟩ := bind_eq_ok h
    cases h
    exact .loadNext (LfqCtx.load_eq_ok.1 hnd)
  | storeHead i p next =>
    cases h
    exact .storeHead
  | free i p =>
    obtain ⟨ctx'', hfree, h⟩ := bind_eq_ok h
    obtain ⟨nd, hnd⟩ := LfqCtx.free_eq_ok hfree
    rw [LfqCtx.free_of_get hnd] at hfree
    cases hfree
    cases h
    exact .free hnd
  | unlock =>
    cases h
    exact .unlock

/-- A successful access follows one of the rules. -/
theorem threadStep_ok {pc pc' : Pc α} (h : threadStep ctx t call pc = .ok (ctx', pc', o)) :
    Access ctx t pc ctx' pc' o := by
  cases pc with
  | idle =>
    cases call with
    | enqueue x a =>
      simp only [threadStep] at h
      split at h
      · cases h
        exact .noMemory
      · rename_i ha
        cases h
        exact .alloc (Option.not_isSome_iff_eq_none.1 ha)
    | dequeue =>
      cases h
      exact .dequeue
  | exchangeTail x n =>
    cases h
    exact .exchangeTail
  | linkTail oldTail n =>
    obtain ⟨nd, hnd, h⟩ := bind_eq_ok h
    rw [LfqCtx.load_eq_ok] at hnd
    rw [LfqCtx.store_of_get hnd] at h
    cases h
    exact .linkTail hnd
  | testTid i =>
    simp only [threadStep] at h
    split at h
    · rename_i hi
      cases h
      split
      · rename_i hfree
        exact .testTid hi hfree
      · rename_i hfree
        exact .taken hi hfree
    · rename_i hi
      cases h
      exact .noTid (Nat.le_of_not_lt hi)
  | casTid i =>
    simp only [threadStep] at h
    split at h
    · rename_i hfree
      cases h
      exact .casTid hfree
    · rename_i hfree
      cases h
      exact .casTidFails hfree
  | loadHead tid =>
    cases h
    exact .loadHead
  | storeHP tid oldHead =>
    cases h
    exact .storeHP
  | checkHead tid oldHead =>
    cases h
    split
    · rename_i heq
      subst heq
      exact .checkHead
    · rename_i hne
      exact .retry hne
  | loadNext tid oldHead =>
    obtain ⟨nd, hnd, h⟩ := bind_eq_ok h
    split at h
    · rename_i hnext
      cases h
      exact .empty (LfqCtx.load_eq_ok.1 hnd) hnext
    · rename_i hnext
      cases h
      exact .loadNext (LfqCtx.load_eq_ok.1 hnd) hnext
  | clearEmpty tid =>
    cases h
    exact .clearEmpty
  | casHead tid oldHead newHead =>
    simp only [threadStep] at h
    split at h
    · rename_i heq
      subst heq
      cases h
      exact .casHead
    · rename_i hne
      cases h
      exact .casHeadFails hne
  | clearHP tid oldHead newHead =>
    cases h
    exact .clearHP
  | loadData tid oldHead newHead =>
    obtain ⟨nd, hnd, h⟩ := bind_eq_ok h
    cases h
    exact .loadData (LfqCtx.load_eq_ok.1 hnd)
  | setCanFree tid oldHead newHead ret =>
    obtain ⟨nd, hnd, h⟩ := bind_eq_ok h
    rw [LfqCtx.load_eq_ok] at hnd
    rw [LfqCtx.store_of_get hnd] at h
    cases h
    exact .setCanFree hnd
  | safeFree tid ret lfn pc =>
    obtain ⟨⟨ctx'', pc''⟩, hs, h⟩ := bind_eq_ok h
    cases pc'' with
    | some pc'' =>
      cases h
      exact .safeFree (safeFreeStep_ok hs)
    | none =>
      cases h
      exact .safeFreeEnd (safeFreeStep_ok hs)
  | freePool tid ret pc =>
    obtain ⟨⟨ctx'', pc''⟩, hs, h⟩ := bind_eq_ok h
    cases pc'' with
    | some pc'' =>
      cases h
      exact .freePool (freePoolStep_ok hs)
    | none =>
      cases h
      exact .freePoolEnd (freePoolStep_ok hs)
  | freeTid tid ret =>
    cases h
    exact .freeTid

/-- A step is an access of the thread that is scheduled. -/
theorem step_ok [DecidableEq T] {s s' : Threads T α} (h : step s (t, call) = .ok (s', o)) :
    ∃ ctx' pc', Access s.ctx t (s.pc t) ctx' pc' o ∧ s' = ⟨ctx', Function.update s.pc t pc'⟩ := by
  obtain ⟨⟨ctx', pc', o'⟩, hs, h⟩ := bind_eq_ok h
  cases h
  exact ⟨ctx', pc', threadStep_ok hs, rfl⟩

end Inversion

section Total

variable {ctx : LfqCtx α}

theorem safeFreeStep_total {lfn : Ptr} {pc : SafeFreePc} {tid : ℕ} {ret : Dequeued α}
    (h : ∀ p, reads (.safeFree tid ret lfn pc : Pc α) = some p → ∃ nd, ctx.get p = some nd) :
    ∃ r, safeFreeStep ctx lfn pc = .ok r := by
  cases pc with
  | canFree =>
    obtain ⟨nd, hnd⟩ := h _ rfl
    simp only [safeFreeStep, LfqCtx.load_eq_ok.2 hnd, ok_bind]
    exact ⟨_, rfl⟩
  | poison =>
    obtain ⟨nd, hnd⟩ := h _ rfl
    simp only [safeFreeStep, LfqCtx.load_eq_ok.2 hnd, LfqCtx.store_of_get hnd, ok_bind]
    exact ⟨_, rfl⟩
  | free =>
    obtain ⟨nd, hnd⟩ := h _ rfl
    simp only [safeFreeStep, LfqCtx.free_of_get hnd, ok_bind]
    exact ⟨_, rfl⟩
  | clearNext =>
    obtain ⟨nd, hnd⟩ := h _ rfl
    simp only [safeFreeStep, LfqCtx.load_eq_ok.2 hnd, LfqCtx.store_of_get hnd, ok_bind]
    exact ⟨_, rfl⟩
  | link oldTail =>
    obtain ⟨nd, hnd⟩ := h _ rfl
    simp only [safeFreeStep, LfqCtx.load_eq_ok.2 hnd, LfqCtx.store_of_get hnd, ok_bind]
    exact ⟨_, rfl⟩
  | scan i =>
    simp only [safeFreeStep]
    split <;> exact ⟨_, rfl⟩
  | lock =>
    simp only [safeFreeStep]
    split <;> exact ⟨_, rfl⟩
  | unlock => exact ⟨_, rfl⟩
  | exchange => exact ⟨_, rfl⟩

theorem freePoolStep_total {pc : FreePoolPc} {tid : ℕ} {ret : Dequeued α}
    (h : ∀ p, reads (.freePool tid ret pc : Pc α) = some p → ∃ nd, ctx.get p = some nd) :
    ∃ r, freePoolStep ctx pc = .ok r := by
  cases pc with
  | canFree i p =>
    obtain ⟨nd, hnd⟩ := h _ rfl
    simp only [freePoolStep, LfqCtx.load_eq_ok.2 hnd, ok_bind]
    exact ⟨_, rfl⟩
  | testNext i p =>
    obtain ⟨nd, hnd⟩ := h _ rfl
    simp only [freePoolStep, LfqCtx.load_eq_ok.2 hnd, ok_bind]
    exact ⟨_, rfl⟩
  | loadNext i p =>
    obtain ⟨nd, hnd⟩ := h _ rfl
    simp only [freePoolStep, LfqCtx.load_eq_ok.2 hnd, ok_bind]
    exact ⟨_, rfl⟩
  | free i p =>
    obtain ⟨nd, hnd⟩ := h _ rfl
    simp only [freePoolStep, LfqCtx.free_of_get hnd, ok_bind]
    exact ⟨_, rfl⟩
  | lock =>
    simp only [freePoolStep]
    split <;> exact ⟨_, rfl⟩
  | scan i p j =>
    simp only [freePoolStep]
    split <;> exact ⟨_, rfl⟩
  | loadHead i => exact ⟨_, rfl⟩
  | storeHead i p next => exact ⟨_, rfl⟩
  | unlock => exact ⟨_, rfl⟩

/-- An access is made where there is a node. -/
theorem threadStep_total {pc : Pc α} (h : ∀ p, reads pc = some p → ∃ nd, ctx.get p = some nd) (t : T)
    (call : Call α) : ∃ r, threadStep ctx t call pc = .ok r := by
  cases pc with
  | idle =>
    cases call with
    | enqueue x a =>
      simp only [threadStep]
      split <;> exact ⟨_, rfl⟩
    | dequeue => exact ⟨_, rfl⟩
  | linkTail oldTail n =>
    obtain ⟨nd, hnd⟩ := h _ rfl
    simp only [threadStep, LfqCtx.load_eq_ok.2 hnd, LfqCtx.store_of_get hnd, ok_bind]
    exact ⟨_, rfl⟩
  | loadNext tid oldHead =>
    obtain ⟨nd, hnd⟩ := h _ rfl
    simp only [threadStep, LfqCtx.load_eq_ok.2 hnd, ok_bind]
    split <;> exact ⟨_, rfl⟩
  | loadData tid oldHead newHead =>
    obtain ⟨nd, hnd⟩ := h _ rfl
    simp only [threadStep, LfqCtx.load_eq_ok.2 hnd, ok_bind]
    exact ⟨_, rfl⟩
  | setCanFree tid oldHead newHead ret =>
    obtain ⟨nd, hnd⟩ := h _ rfl
    simp only [threadStep, LfqCtx.load_eq_ok.2 hnd, LfqCtx.store_of_get hnd, ok_bind]
    exact ⟨_, rfl⟩
  | safeFree tid ret lfn pc =>
    obtain ⟨⟨ctx', pc'⟩, hs⟩ := safeFreeStep_total h
    simp only [threadStep, hs, ok_bind]
    cases pc' <;> exact ⟨_, rfl⟩
  | freePool tid ret pc =>
    obtain ⟨⟨ctx', pc'⟩, hs⟩ := freePoolStep_total h
    simp only [threadStep, hs, ok_bind]
    cases pc' <;> exact ⟨_, rfl⟩
  | testTid i =>
    simp only [threadStep]
    split <;> exact ⟨_, rfl⟩
  | casTid i =>
    simp only [threadStep]
    split <;> exact ⟨_, rfl⟩
  | casHead tid oldHead newHead =>
    simp only [threadStep]
    split <;> exact ⟨_, rfl⟩
  | exchangeTail x n => exact ⟨_, rfl⟩
  | loadHead tid => exact ⟨_, rfl⟩
  | storeHP tid oldHead => exact ⟨_, rfl⟩
  | checkHead tid oldHead => exact ⟨_, rfl⟩
  | clearEmpty tid => exact ⟨_, rfl⟩
  | clearHP tid oldHead newHead => exact ⟨_, rfl⟩
  | freeTid tid ret => exact ⟨_, rfl⟩

end Total

end LfqThreads

end MixSim
