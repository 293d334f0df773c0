import MixSim.Frame
import MixSim.Library.LinkedSegment

/-!
# The queue of `lfq.c`

A singly linked list with a dummy node: `head` is the node read last, the items are in the nodes
behind it. The queue is written for several threads; the adaptor calls it from one scheduler
thread that never switches inside a call, so a call runs alone from start to end. A
compare-and-swap then always finds the value that was read just before, the `retry` jump of
`lfq_dequeue_tid` is never taken, and only the bookkeeping stays: the hazard pointers `HP`, the
thread slots `tid_map`, the flag `is_freeing` and the pool of nodes not yet freed.

Nodes live in a heap of their own, addresses are handed out in increasing order and never reused,
so a use of a freed node shows as a fault. `Lfq` is a queue together with the invariant that it
represents a list of items; `contents` is that list, and the two operations are FIFO on it
(`contents_enqueue`, `dequeue_cases`).
-/

namespace MixSim

open LinkedSegment

/-! ### The source's functions -/

/-- A node pointer: `NULL`, the poison `(void *) -1`, or the address of a node. -/
inductive Ptr
  | null
  | poison
  | node (addr : ℕ)
  deriving DecidableEq

/-- `struct lfq_node`; `next` and `free_next` are one union. -/
structure LfqNode (α : Type) where
  data : Option α
  next : Ptr
  canFree : Bool

/-- `struct lfq_ctx`, with the heap its nodes are in. -/
structure LfqCtx (α : Type) where
  heap : ℕ → Option (LfqNode α)
  brk : ℕ
  head : Ptr
  hp : List Ptr
  tidMap : List ℕ
  isFreeing : Bool
  fph : Ptr
  fpt : Ptr
  maxHpSize : ℕ
  tail : Ptr

/-- What `lfq_dequeue` returns: `NULL`, `(void *) -1`, or an item. -/
inductive Dequeued (α : Type)
  | null
  | minusOne
  | data (x : α)
  deriving DecidableEq

variable {α : Type}

namespace LfqCtx

/-- Read the node at `p`. -/
def load (ctx : LfqCtx α) : Ptr → Except Fault (LfqNode α)
  | .node a =>
      match ctx.heap a with
      | some nd => .ok nd
      | none => .error .useAfterFree
  | _ => .error .badPointer

/-- Write the node at `p`. -/
def store (ctx : LfqCtx α) (p : Ptr) (nd : LfqNode α) : Except Fault (LfqCtx α) :=
  match p with
  | .node a =>
      match ctx.heap a with
      | some _ => .ok { ctx with heap := Function.update ctx.heap a (some nd) }
      | none => .error .useAfterFree
  | _ => .error .badPointer

/-- `free(p)`. -/
def free (ctx : LfqCtx α) (p : Ptr) : Except Fault (LfqCtx α) :=
  match p with
  | .node a =>
      match ctx.heap a with
      | some _ => .ok { ctx with heap := Function.update ctx.heap a none }
      | none => .error .useAfterFree
  | _ => .error .badPointer

end LfqCtx

/-- `inHP`: is the node protected by a hazard pointer? -/
def inHP (ctx : LfqCtx α) (lfn : Ptr) : Bool := (ctx.hp.take ctx.maxHpSize).any (· = lfn)

/-- `enpool`: add a node to the tail of the free pool. -/
def enpool (ctx : LfqCtx α) (lfn : Ptr) : Except Fault (LfqCtx α) := do
  let nd ← ctx.load lfn
  let ctx ← ctx.store lfn { nd with next := .null }
  let oldTail := ctx.fpt
  let ctx := { ctx with fpt := lfn }
  let od ← ctx.load oldTail
  ctx.store oldTail { od with next := lfn }

/-- `MAXFREE`. -/
def maxFree : ℕ := 150

/-- The loop of `free_pool`. -/
def freePoolLoop : ℕ → LfqCtx α → Except Fault (LfqCtx α)
  | 0, ctx => .ok ctx
  | i + 1, ctx => do
      let p := ctx.fph
      let nd ← ctx.load p
      if !nd.canFree || nd.next = .null || inHP ctx p then
        .ok ctx
      else
        let ctx ← { ctx with fph := nd.next }.free p
        freePoolLoop i ctx

/-- `free_pool(ctx, false)`. -/
def freePool (ctx : LfqCtx α) : Except Fault (LfqCtx α) := do
  if ctx.isFreeing then
    .ok ctx
  else
    let ctx ← freePoolLoop maxFree { ctx with isFreeing := true }
    .ok { ctx with isFreeing := false }

/-- `safe_free`: free a node at once where that is allowed, else put it into the pool. -/
def safeFree (ctx : LfqCtx α) (lfn : Ptr) : Except Fault (LfqCtx α) := do
  let nd ← ctx.load lfn
  let ctx ←
    if nd.canFree && !inHP ctx lfn then
      if ctx.isFreeing then
        enpool ctx lfn
      else do
        -- `is_freeing` is taken and given back around the two calls
        let ctx ← ctx.store lfn { nd with next := .poison }
        ctx.free lfn
    else
      enpool ctx lfn
  freePool ctx

/-- `alloc_tid`: take the first free thread slot. -/
def allocTid (ctx : LfqCtx α) : Option (LfqCtx α × ℕ) :=
  match (List.range ctx.maxHpSize).find? (fun i => ctx.tidMap[i]? = some 0) with
  | some i => some ({ ctx with tidMap := ctx.tidMap.set i 1 }, i)
  | none => none

/-- `free_tid`. -/
def freeTid (ctx : LfqCtx α) (tid : ℕ) : LfqCtx α := { ctx with tidMap := ctx.tidMap.set tid 0 }

/-- `lfq_init(ctx, max_consume_thread)`, with its allocations successful. -/
def lfqInit (α : Type) (maxConsumeThread : ℕ) : LfqCtx α where
  heap a := if a < 2 then some ⟨none, .null, true⟩ else none
  brk := 2
  head := .node 0
  hp := List.replicate maxConsumeThread .null
  tidMap := List.replicate maxConsumeThread 0
  isFreeing := false
  fph := .node 1
  fpt := .node 1
  maxHpSize := maxConsumeThread
  tail := .node 0

/-- `ENOMEM`. -/
def enomem : ℤ := 12

/-- `lfq_enqueue`; `calloc` says whether the allocation of the node succeeds. -/
def lfqEnqueue (ctx : LfqCtx α) (data : α) (calloc : Bool) : Except Fault (LfqCtx α × ℤ) := do
  if !calloc then
    .ok (ctx, -enomem)
  else
    let insertNode := Ptr.node ctx.brk
    let oldTail := ctx.tail
    let ctx := { ctx with
      heap := Function.update ctx.heap ctx.brk (some ⟨some data, .null, false⟩)
      brk := ctx.brk + 1
      tail := insertNode }
    let od ← ctx.load oldTail
    let ctx ← ctx.store oldTail { od with next := insertNode }
    .ok (ctx, 0)

/-- `lfq_dequeue_tid`. -/
def lfqDequeueTid (ctx : LfqCtx α) (tid : ℕ) : Except Fault (LfqCtx α × Dequeued α) := do
  let oldHead := ctx.head
  let ctx := { ctx with hp := ctx.hp.set tid oldHead }
  let newHead := (← ctx.load oldHead).next
  if newHead = .null then
    -- never remove the last node
    .ok ({ ctx with hp := ctx.hp.set tid .null }, .null)
  else
    let ctx := { ctx with head := newHead, hp := ctx.hp.set tid .null }
    let nd ← ctx.load newHead
    let ctx ← ctx.store newHead { nd with canFree := true }
    let ctx ← safeFree ctx oldHead
    match nd.data with
    | none => .ok (ctx, .null)
    | some x => .ok (ctx, .data x)

/-- `lfq_dequeue`. -/
def lfqDequeue (ctx : LfqCtx α) : Except Fault (LfqCtx α × Dequeued α) := do
  match allocTid ctx with
  | none => .ok (ctx, .minusOne)
  | some (ctx, tid) =>
      let (ctx, ret) ← lfqDequeueTid ctx tid
      .ok (freeTid ctx tid, ret)

/-! ### What a queue represents -/

/-- The nodes behind `a` are `bs`. -/
def NodeSeg (heap : ℕ → Option (LfqNode α)) (a : ℕ) (bs : List (ℕ × α)) : Prop :=
  Seg (fun n => n.next = .null) (fun n b => n.next = .node b) (fun n x => n.data = some x) heap a bs

/-- Between two calls the queue is the dummy node `a` followed by the nodes `bs`, no thread slot is
taken, no hazard pointer is set, and the free pool is its one initial node. -/
structure LfqCtx.Repr (ctx : LfqCtx α) (a : ℕ) (bs : List (ℕ × α)) : Prop where
  head : ctx.head = .node a
  tail : ctx.tail = .node (lastAddr a bs)
  seg : NodeSeg ctx.heap a bs
  nodup : (addrs a bs).Nodup
  lt_brk : ∀ b ∈ addrs a bs, b < ctx.brk
  head_free : ∃ n, ctx.heap a = some n ∧ n.canFree = true
  hp : ctx.hp = List.replicate ctx.maxHpSize .null
  tidMap : ctx.tidMap = List.replicate ctx.maxHpSize 0
  slots : 0 < ctx.maxHpSize
  isFreeing : ctx.isFreeing = false
  pool : ∃ p, ctx.fph = .node p ∧ p ∉ addrs a bs ∧ p < ctx.brk ∧
    ∃ n, ctx.heap p = some n ∧ n.next = .null

/-- A queue just initialised is empty. -/
theorem repr_lfqInit {n : ℕ} (hn : 0 < n) : (lfqInit α n).Repr 0 [] where
  head := rfl
  tail := rfl
  seg := ⟨⟨none, .null, true⟩, rfl, rfl⟩
  nodup := by simp
  lt_brk := by simp [lfqInit]
  head_free := ⟨⟨none, .null, true⟩, rfl, rfl⟩
  hp := rfl
  tidMap := rfl
  slots := hn
  isFreeing := rfl
  pool := ⟨1, rfl, by simp, by simp [lfqInit], ⟨none, .null, true⟩, rfl, rfl⟩

/-- `lfq_enqueue` appends its item. -/
theorem lfqEnqueue_spec {ctx : LfqCtx α} {a : ℕ} {bs : List (ℕ × α)} (h : ctx.Repr a bs) (x : α) :
    ∃ ctx', lfqEnqueue ctx x true = .ok (ctx', 0) ∧ ctx'.Repr a (bs ++ [(ctx.brk, x)]) := by
  obtain ⟨last, hlast, hnil⟩ := h.seg.last
  have hfresh : ctx.brk ∉ addrs a bs := fun hb => (h.lt_brk _ hb).false
  have hne : lastAddr a bs ≠ ctx.brk := fun he => hfresh (he ▸ lastAddr_mem a bs)
  have hload : Function.update ctx.heap ctx.brk (some ⟨some x, .null, false⟩) (lastAddr a bs) =
      some last := by rw [Function.update_of_ne hne, hlast]
  have hok : lfqEnqueue ctx x true = .ok ({ ctx with
      heap := Function.update (Function.update ctx.heap ctx.brk (some ⟨some x, .null, false⟩))
        (lastAddr a bs) (some { last with next := .node ctx.brk })
      brk := ctx.brk + 1
      tail := .node ctx.brk }, 0) := by
    simp only [lfqEnqueue, Bool.not_true, Bool.false_eq_true, if_false, LfqCtx.load, LfqCtx.store,
      h.tail, hload, bind, Except.bind]
  refine ⟨_, hok, ?_⟩
  obtain ⟨p, hp, hpa, hpb, n, hn, hnn⟩ := h.pool
  obtain ⟨d, hd, hfree⟩ := h.head_free
  refine ⟨h.head, by rw [lastAddr_snoc], ?_, ?_, ?_, ?_, h.hp, h.tidMap, h.slots, h.isFreeing, ?_⟩
  · exact h.seg.append h.nodup hfresh hlast rfl (fun _ hy => hy) rfl rfl
  · rw [addrs_snoc, List.nodup_append_comm]
    exact List.nodup_cons.2 ⟨hfresh, h.nodup⟩
  · intro b hb
    rw [addrs_snoc, List.mem_append, List.mem_singleton] at hb
    rcases hb with hb | rfl
    · exact (h.lt_brk b hb).trans (Nat.lt_succ_self _)
    · exact Nat.lt_succ_self _
  · -- the dummy is the node written over when the queue is empty
    have hab : a ≠ ctx.brk := (h.lt_brk a (List.mem_cons_self)).ne
    by_cases hal : a = lastAddr a bs
    · refine ⟨{ last with next := .node ctx.brk }, ?_, ?_⟩
      · show Function.update _ (lastAddr a bs) _ a = _
        rw [← hal, Function.update_self]
      · rw [← hal, hd] at hlast
        cases hlast
        exact hfree
    · exact ⟨d, (Function.update_of_ne hal _ _).trans ((Function.update_of_ne hab _ _).trans hd),
        hfree⟩
  · refine ⟨p, hp, ?_, hpb.trans (Nat.lt_succ_self _), n, ?_, hnn⟩
    · rw [addrs_snoc, List.mem_append, List.mem_singleton]
      rintro (hpm | rfl)
      · exact hpa hpm
      · exact hpb.false
    · have hpl : p ≠ lastAddr a bs := fun he => hpa (he ▸ lastAddr_mem a bs)
      exact (Function.update_of_ne hpl _ _).trans ((Function.update_of_ne hpb.ne _ _).trans hn)

section Idle

variable {ctx : LfqCtx α} {a : ℕ} {bs : List (ℕ × α)}

/-- Between two calls the first thread slot is free. -/
theorem LfqCtx.Repr.allocTid (h : ctx.Repr a bs) :
    allocTid ctx = some ({ ctx with tidMap := ctx.tidMap.set 0 1 }, 0) := by
  obtain ⟨k, hk⟩ := Nat.exists_eq_add_of_lt h.slots
  have hfind : (List.range ctx.maxHpSize).find? (fun i => ctx.tidMap[i]? = some 0) = some 0 := by
    rw [h.tidMap, hk, List.range_succ_eq_map]
    simp
  rw [MixSim.allocTid, hfind]

theorem LfqCtx.Repr.hp_restore (h : ctx.Repr a bs) (p : Ptr) :
    (ctx.hp.set 0 p).set 0 .null = ctx.hp := by
  obtain ⟨k, hk⟩ := Nat.exists_eq_add_of_lt h.slots
  rw [List.set_set, h.hp, hk]
  rfl

theorem LfqCtx.Repr.tidMap_restore (h : ctx.Repr a bs) : (ctx.tidMap.set 0 1).set 0 0 = ctx.tidMap := by
  obtain ⟨k, hk⟩ := Nat.exists_eq_add_of_lt h.slots
  rw [List.set_set, h.tidMap, hk]
  rfl

theorem inHP_eq_false {k : ℕ} (h : ctx.hp = List.replicate k .null) (b : ℕ) :
    inHP ctx (.node b) = false := by
  rw [inHP, h, List.take_replicate]
  simp

/-- The pool stays as it is when its first node is its last. -/
theorem freePool_eq {p : ℕ} {n : LfqNode α} (hfree : ctx.isFreeing = false) (hp : ctx.fph = .node p)
    (hn : ctx.heap p = some n) (hnil : n.next = .null) : freePool ctx = .ok ctx := by
  have hloop : ∀ i, freePoolLoop (i + 1) { ctx with isFreeing := true } =
      .ok { ctx with isFreeing := true } := by
    intro i
    simp only [freePoolLoop, LfqCtx.load, hp, hn, hnil, bind, Except.bind, decide_true,
      Bool.or_true, Bool.true_or, if_true]
  have hmax := hloop 149
  simp only [freePool, hfree, Bool.false_eq_true, if_false, maxFree, hmax, bind, Except.bind]
  rw [← hfree]

/-- A node read before is freed at once. -/
theorem safeFree_eq {b p k : ℕ} {n m : LfqNode α} (hhp : ctx.hp = List.replicate k .null)
    (hfree : ctx.isFreeing = false) (hb : ctx.heap b = some n) (hn : n.canFree = true)
    (hp : ctx.fph = .node p) (hpb : p ≠ b) (hm : ctx.heap p = some m) (hnil : m.next = .null) :
    safeFree ctx (.node b) = .ok { ctx with heap := Function.update ctx.heap b none } := by
  have hpool : freePool { ctx with heap := Function.update ctx.heap b none } =
      .ok { ctx with heap := Function.update ctx.heap b none } :=
    freePool_eq hfree hp ((Function.update_of_ne hpb _ _).trans hm) hnil
  simp only [safeFree, LfqCtx.load, LfqCtx.store, LfqCtx.free, hb, hn, inHP_eq_false hhp, hfree,
    Bool.not_false, Bool.and_self, if_true, Bool.false_eq_true, if_false, bind, Except.bind,
    Function.update_self, Function.update_idem]
  rw [hfree] at hpool
  exact hpool

end Idle

/-- `lfq_dequeue` of an empty queue returns `NULL`. -/
theorem lfqDequeue_nil {ctx : LfqCtx α} {a : ℕ} (h : ctx.Repr a []) :
    lfqDequeue ctx = .ok (ctx, .null) := by
  obtain ⟨n, hn, hnil⟩ := h.seg
  have hnil' : n.next = .null := hnil
  simp only [lfqDequeue, h.allocTid, lfqDequeueTid, h.head, LfqCtx.load, hn, bind, Except.bind, hnil',
    if_true, freeTid, h.hp_restore, h.tidMap_restore]
  rw [← h.head]

/-- `lfq_dequeue` takes the first item; the node that carried it becomes the dummy. -/
theorem lfqDequeue_cons {ctx : LfqCtx α} {a b : ℕ} {x : α} {bs : List (ℕ × α)}
    (h : ctx.Repr a ((b, x) :: bs)) :
    ∃ ctx', lfqDequeue ctx = .ok (ctx', .data x) ∧ ctx'.Repr b bs := by
  obtain ⟨⟨n, hn, hnext⟩, ⟨m, hm, hx⟩, hseg⟩ := h.seg
  obtain ⟨d, hd, hfree⟩ := h.head_free
  obtain ⟨p, hp, hpa, hpb, q, hq, hqn⟩ := h.pool
  rw [hd] at hn
  cases hn
  have hnd := h.nodup
  rw [addrs_cons, List.nodup_cons] at hnd
  have hab : a ≠ b := fun he => hnd.1 (he ▸ List.mem_cons_self)
  rw [addrs_cons, List.mem_cons, not_or] at hpa
  have hpb' : p ≠ b := fun he => hpa.2 (he ▸ List.mem_cons_self)
  have hnext' : n.next = .node b := hnext
  have hx' : m.data = some x := hx
  -- the state in which `safe_free` is called
  let mid : LfqCtx α := { ctx with
    heap := Function.update ctx.heap b (some { m with canFree := true })
    head := .node b
    tidMap := ctx.tidMap.set 0 1 }
  have hsafe : safeFree mid (.node a) = .ok { mid with heap := Function.update mid.heap a none } :=
    safeFree_eq h.hp h.isFreeing ((Function.update_of_ne hab _ _).trans hd) hfree hp hpa.1
      ((Function.update_of_ne hpb' _ _).trans hq) hqn
  have hok : lfqDequeue ctx = .ok ({ mid with
      heap := Function.update mid.heap a none, tidMap := ctx.tidMap }, .data x) := by
    simp only [lfqDequeue, h.allocTid, lfqDequeueTid, h.head, LfqCtx.load, LfqCtx.store, hd, hm, hnext',
      bind, Except.bind, reduceCtorEq, if_false, h.hp_restore]
    simp only [mid] at hsafe
    rw [hsafe]
    simp only [hx', freeTid, mid, h.tidMap_restore]
  refine ⟨_, hok, rfl, h.tail, ?_, hnd.2, fun c hc => h.lt_brk c (List.mem_cons_of_mem _ hc), ?_,
    h.hp, h.tidMap, h.slots, h.isFreeing, p, hp, hpa.2, hpb, q, ?_, hqn⟩
  · -- the first node behind the dummy is only marked, and the dummy is not among the rest
    have hmark : NodeSeg (Function.update ctx.heap b (some { m with canFree := true })) b bs := by
      cases bs with
      | nil =>
        obtain ⟨k, hk, hkn⟩ := hseg
        rw [hm] at hk
        cases hk
        exact ⟨_, Function.update_self _ _ _, hkn⟩
      | cons c bs =>
        obtain ⟨c, y⟩ := c
        obtain ⟨⟨k, hk, hkc⟩, ⟨l, hl, hly⟩, hrest⟩ := hseg
        rw [hm] at hk
        cases hk
        have hbs := (List.nodup_cons.1 hnd.2).1
        have hcb : c ≠ b := fun he => hbs (he ▸ List.mem_cons_self)
        refine ⟨⟨_, Function.update_self _ _ _, hkc⟩, ⟨l, ?_, hly⟩, hrest.congr fun e he => ?_⟩
        · rw [Function.update_of_ne hcb, hl]
        · have heb : e ≠ b := by
            rintro rfl
            exact hbs he
          exact Function.update_of_ne heb _ _
    refine hmark.congr fun c hc => ?_
    have hca : c ≠ a := by
      rintro rfl
      exact hnd.1 hc
    exact Function.update_of_ne hca _ _
  · refine ⟨{ m with canFree := true }, ?_, rfl⟩
    exact (Function.update_of_ne hab.symm _ _).trans (Function.update_self _ _ _)
  · exact (Function.update_of_ne hpa.1 _ _).trans ((Function.update_of_ne hpb' _ _).trans hq)

/-! ### Queues that keep their invariant -/

/-- A queue between two calls. -/
structure Lfq (α : Type) where
  ctx : LfqCtx α
  repr : ∃ a bs, ctx.Repr a bs

namespace Lfq

/-- The items behind `p`, read by walking the links. -/
def walk (heap : ℕ → Option (LfqNode α)) : ℕ → Ptr → List α
  | 0, _ => []
  | fuel + 1, p =>
      match p with
      | .node a =>
          match heap a with
          | some nd => nd.data.toList ++ walk heap fuel nd.next
          | none => []
      | _ => []

/-- The items of the queue, first in first. -/
def contents (q : Lfq α) : List α :=
  match q.ctx.load q.ctx.head with
  | .ok nd => walk q.ctx.heap q.ctx.brk nd.next
  | .error _ => []

/-- `lfq_init` for `n + 1` consumers. -/
def init (α : Type) (n : ℕ) : Lfq α := ⟨lfqInit α (n + 1), 0, [], repr_lfqInit (Nat.succ_pos n)⟩

/-- `lfq_enqueue` on a queue leaves a queue. -/
theorem enqueue_repr (q : Lfq α) (x : α) (calloc : Bool) :
    ∃ r, lfqEnqueue q.ctx x calloc = .ok r ∧ ∃ a bs, r.1.Repr a bs := by
  obtain ⟨a, bs, hr⟩ := q.repr
  cases calloc with
  | false => exact ⟨_, rfl, a, bs, hr⟩
  | true =>
    obtain ⟨ctx', hok, hr'⟩ := lfqEnqueue_spec hr x
    exact ⟨_, hok, a, _, hr'⟩

/-- `lfq_dequeue` on a queue leaves a queue. -/
theorem dequeue_repr (q : Lfq α) : ∃ r, lfqDequeue q.ctx = .ok r ∧ ∃ a bs, r.1.Repr a bs := by
  obtain ⟨a, bs, hr⟩ := q.repr
  cases bs with
  | nil => exact ⟨_, lfqDequeue_nil hr, a, [], hr⟩
  | cons c bs =>
    obtain ⟨ctx', hok, hr'⟩ := lfqDequeue_cons hr
    exact ⟨_, hok, c.1, bs, hr'⟩

/-- `lfq_enqueue`; its return value, which no caller looks at, is left out. -/
def enqueue (q : Lfq α) (x : α) (calloc : Bool) : Lfq α :=
  match h : lfqEnqueue q.ctx x calloc with
  | .ok r => ⟨r.1, by
      obtain ⟨r', hr, hrepr⟩ := q.enqueue_repr x calloc
      cases h.symm.trans hr
      exact hrepr⟩
  | .error e => absurd h fun he => by
      obtain ⟨r, hr, -⟩ := q.enqueue_repr x calloc
      cases he.symm.trans hr

/-- `lfq_dequeue`. -/
def dequeue (q : Lfq α) : Lfq α × Dequeued α :=
  match h : lfqDequeue q.ctx with
  | .ok r => (⟨r.1, by
      obtain ⟨r', hr, hrepr⟩ := q.dequeue_repr
      cases h.symm.trans hr
      exact hrepr⟩, r.2)
  | .error e => absurd h fun he => by
      obtain ⟨r, hr, -⟩ := q.dequeue_repr
      cases he.symm.trans hr

/-- A queue's `enqueue` is the source's. -/
theorem enqueue_ctx {q : Lfq α} {x : α} {calloc : Bool} {r : LfqCtx α × ℤ}
    (hr : lfqEnqueue q.ctx x calloc = .ok r) : (q.enqueue x calloc).ctx = r.1 := by
  unfold enqueue
  split
  · rename_i r' h
    cases h.symm.trans hr
    rfl
  · rename_i e h
    cases h.symm.trans hr

/-- A queue's `dequeue` is the source's. -/
theorem dequeue_ctx {q : Lfq α} {r : LfqCtx α × Dequeued α} (hr : lfqDequeue q.ctx = .ok r) :
    q.dequeue.1.ctx = r.1 ∧ q.dequeue.2 = r.2 := by
  unfold dequeue
  split
  · rename_i r' h
    cases h.symm.trans hr
    exact ⟨rfl, rfl⟩
  · rename_i e h
    cases h.symm.trans hr

theorem walk_eq {heap : ℕ → Option (LfqNode α)} {a : ℕ} {bs : List (ℕ × α)} (h : NodeSeg heap a bs)
    {n : LfqNode α} (hn : heap a = some n) {fuel : ℕ} (hf : bs.length ≤ fuel) :
    walk heap fuel n.next = bs.map Prod.snd := by
  induction bs generalizing a n fuel with
  | nil =>
    obtain ⟨m, hm, hnil⟩ := h
    have hnil' : m.next = .null := hnil
    rw [hn] at hm
    cases hm
    cases fuel <;> simp [walk, hnil']
  | cons c bs ih =>
    obtain ⟨b, x⟩ := c
    obtain ⟨⟨m, hm, hnext⟩, ⟨k, hk, hx⟩, hseg⟩ := h
    have hnext' : m.next = .node b := hnext
    have hx' : k.data = some x := hx
    rw [hn] at hm
    cases hm
    cases fuel with
    | zero => simp at hf
    | succ fuel =>
      rw [List.length_cons] at hf
      rw [hnext', walk]
      simp only [hk, hx', Option.toList_some, List.map_cons, List.singleton_append]
      rw [ih hseg hk (by omega)]

/-- The contents of a queue are the items it represents. -/
theorem contents_eq {q : Lfq α} {a : ℕ} {bs : List (ℕ × α)} (h : q.ctx.Repr a bs) :
    q.contents = bs.map Prod.snd := by
  obtain ⟨n, hn⟩ := h.seg.alloc (List.mem_cons_self)
  have hlen : (addrs a bs).length ≤ q.ctx.brk := by
    have hsub : addrs a bs ⊆ List.range q.ctx.brk := fun b hb => List.mem_range.2 (h.lt_brk b hb)
    simpa using (List.subperm_of_subset h.nodup hsub).length_le
  rw [contents, h.head]
  simp only [LfqCtx.load, hn]
  exact walk_eq h.seg hn (by simp [addrs] at hlen; omega)

@[simp] theorem contents_init (n : ℕ) : (init α n).contents = [] := by
  have h : (init α n).ctx.Repr 0 [] := repr_lfqInit (Nat.succ_pos n)
  rw [contents_eq h, List.map_nil]

@[simp] theorem contents_enqueue (q : Lfq α) (x : α) :
    (q.enqueue x true).contents = q.contents ++ [x] := by
  obtain ⟨a, bs, hr⟩ := q.repr
  obtain ⟨ctx', hok, hr'⟩ := lfqEnqueue_spec hr x
  have hr'' : (q.enqueue x true).ctx.Repr a (bs ++ [(q.ctx.brk, x)]) := by
    rw [enqueue_ctx hok]; exact hr'
  rw [contents_eq hr'', contents_eq hr, List.map_append, List.map_singleton]

@[simp] theorem contents_enqueue_false (q : Lfq α) (x : α) :
    (q.enqueue x false).contents = q.contents := by
  have hctx : (q.enqueue x false).ctx = q.ctx :=
    enqueue_ctx (r := (q.ctx, -enomem)) rfl
  rw [contents, hctx, contents]

/-- `lfq_dequeue` returns `NULL` on an empty queue and its first item otherwise; in particular it
never returns `(void *) -1`. -/
theorem dequeue_cases (q : Lfq α) :
    (q.contents = [] ∧ q.dequeue.2 = .null ∧ q.dequeue.1.contents = []) ∨
      ∃ x xs, q.contents = x :: xs ∧ q.dequeue.2 = .data x ∧ q.dequeue.1.contents = xs := by
  obtain ⟨a, bs, hr⟩ := q.repr
  cases bs with
  | nil =>
    obtain ⟨hctx, hret⟩ := dequeue_ctx (lfqDequeue_nil hr)
    have hr' : q.dequeue.1.ctx.Repr a [] := by rw [hctx]; exact hr
    exact Or.inl ⟨contents_eq hr, hret, contents_eq hr'⟩
  | cons c bs =>
    obtain ⟨ctx', hok, hr'⟩ := lfqDequeue_cons hr
    obtain ⟨hctx, hret⟩ := dequeue_ctx hok
    have hr'' : q.dequeue.1.ctx.Repr c.1 bs := by rw [hctx]; exact hr'
    exact Or.inr ⟨c.2, bs.map Prod.snd, contents_eq hr, hret, contents_eq hr''⟩

theorem dequeue_ne_minusOne (q : Lfq α) : q.dequeue.2 ≠ .minusOne := by
  rcases q.dequeue_cases with ⟨-, hret, -⟩ | ⟨x, xs, -, hret, -⟩ <;> simp [hret]

end Lfq

end MixSim
