import MixSim.Adaptor.Coroutines
import MixSim.Library.BufferPool

/-!
# Who owns a buffer

Every buffer is in one place: in `freebuf_list`, in a forwarding queue, or in the hands of a
consumer. The coroutines move buffers between these places as a `BufferPool` does; this file says
which travels each operation of a coroutine makes.
-/

namespace MixSim

open BufferPool Execution

/-- The places of a buffer. -/
inductive Place
  | free
  | queue (q : FwdQueue)
  | held (q : FwdQueue)
  deriving DecidableEq

/-- The buffers of the adaptor as a pool. -/
def Adaptor.pool (s : Adaptor) : Pool Place SimpleNameData where
  mem := s.mem
  loc
    | .free => s.freebufList.contents
    | .queue q => (s.queue q).contents
    | .held q => (s.held q).toList

@[simp] theorem Lfq.contents_enqueue_calloc {α : Type} (q : Lfq α) (x : α) (calloc : Bool) :
    (q.enqueue x calloc).contents = q.contents ++ if calloc then [x] else [] := by
  cases calloc <;> simp

theorem Lfq.contents_dequeue_of_cons {α : Type} {q : Lfq α} {x : α} {xs : List α}
    (h : q.contents = x :: xs) : q.dequeue.1.contents = xs := by
  rcases q.dequeue_cases with ⟨hnil, -⟩ | ⟨y, ys, hcons, -, hrest⟩
  · rw [hnil] at h
    cases h
  · rw [hcons] at h
    cases h
    exact hrest

namespace Adaptor

variable {s : Adaptor} {q : FwdQueue} {b : ℕ} {f : SimpleNameData} {calloc : Bool}

/-! ### The operations on buffers -/

theorem read_of_lt (hb : b < s.mem.length) : s.read b = .ok (s.frame b) := by
  simp [read, frame, hb]

theorem mem_getElem?_of_lt (hb : b < s.mem.length) : s.mem[b]? = some (s.frame b) := by
  simp [frame, hb]

/-- The first free buffer is filled. -/
theorem fillBuffer_of_cons {rest : List ℕ} (hcons : s.freebufList.contents = b :: rest)
    (hb : b < s.mem.length) (malloc : Option SimpleNameData)
    (fill : SimpleNameData → Except Fault SimpleNameData) :
    s.fillBuffer malloc fill = (do
      let f ← fill (s.frame b)
      .ok ({ s with
        mem := s.mem.set b f
        freebufList := s.freebufList.dequeue.1 }, b, f)) := by
  rcases s.freebufList.dequeue_cases with ⟨hnil, -⟩ | ⟨b', rest', hcons', hret, -⟩
  · rw [hnil] at hcons
    cases hcons
  · rw [hcons'] at hcons
    cases hcons
    simp [fillBuffer, freeBuffer, hret, bind, Except.bind, read, frame, hb]

/-- The first frame of a queue is taken off. -/
theorem take_of_cons {rest : List ℕ} (hcons : (s.queue q).contents = b :: rest)
    (hb : b < s.mem.length) : s.take q = .ok ({ s with
      queue := Function.update s.queue q (s.queue q).dequeue.1
      held := Function.update s.held q (some b) }, some (b, s.frame b)) := by
  rcases (s.queue q).dequeue_cases with ⟨hnil, -⟩ | ⟨b', rest', hcons', hret, -⟩
  · rw [hnil] at hcons
    cases hcons
  · rw [hcons'] at hcons
    cases hcons
    simp only [take, hret, read, mem_getElem?_of_lt hb, bind, Except.bind]

/-- A free buffer, or a new one, is filled; it is then in no place, and what becomes of it completes
a travel. -/
theorem fillBuffer_cases (h : Owned s.pool) (malloc : Option SimpleNameData)
    (fill : SimpleNameData → Except Fault SimpleNameData) :
    (malloc = none ∧ s.fillBuffer malloc fill = .error .outOfMemory) ∨
    (∃ d e, fill d = .error e ∧ s.fillBuffer malloc fill = .error e) ∨
    (∃ d f b src old mem free, fill d = .ok f ∧ (∀ q, src ≠ some (.queue q)) ∧
      s.fillBuffer malloc fill = .ok ({ s with mem := mem, freebufList := free }, b, f) ∧
      ∀ y, Move s.pool ⟨src, y, old, f⟩
        ⟨mem, arrive ({ s with mem := mem, freebufList := free } : Adaptor).pool.loc b y⟩) := by
  rcases s.freebufList.dequeue_cases with ⟨hnil, hret, hrest⟩ | ⟨b, rest, hcons, hret, hrest⟩
  · -- a new buffer
    rcases malloc with _ | d
    · left
      refine ⟨rfl, ?_⟩
      simp only [fillBuffer, freeBuffer, hret, bind, Except.bind]
    · right
      have hget : s.fillBuffer (some d) fill = (do
          let f ← fill d
          .ok ({ s with
            mem := (s.mem ++ [d]).set s.mem.length f
            freebufList := s.freebufList.dequeue.1 }, s.mem.length, f)) := by
        simp [fillBuffer, freeBuffer, hret, bind, Except.bind, read]
      rcases hf : fill d with e | f
      · exact Or.inl ⟨d, e, hf, by rw [hget, hf]; rfl⟩
      · refine Or.inr ⟨d, f, _, none, f, _, _, hf, fun q => nofun, by rw [hget, hf]; rfl, fun y => ?_⟩
        have hmem : (s.mem ++ [d]).set s.mem.length f = s.mem ++ [f] := by simp
        have hloc : ({ s with
            mem := s.mem ++ [f]
            freebufList := s.freebufList.dequeue.1 } : Adaptor).pool.loc = s.pool.loc := by
          funext x
          cases x <;> simp [pool, hnil, hrest]
        rw [hmem, hloc]
        exact .fresh
  · -- a free one
    right
    have hb : b < s.mem.length := h.lt (x := Place.free) (by
      show b ∈ s.freebufList.contents
      rw [hcons]
      exact List.mem_cons_self)
    have hget := fillBuffer_of_cons hcons hb malloc fill
    rcases hf : fill (s.frame b) with e | f
    · exact Or.inl ⟨_, e, hf, by rw [hget, hf]; rfl⟩
    · refine Or.inr ⟨_, f, b, some .free, s.frame b, _, _, hf, fun q => nofun,
        by rw [hget, hf]; rfl, fun y => ?_⟩
      have hloc : ({ s with
          mem := s.mem.set b f
          freebufList := s.freebufList.dequeue.1 } : Adaptor).pool.loc =
          Function.update s.pool.loc .free rest := by
        funext x
        cases x <;> simp [pool, hrest, Function.update]
      rw [hloc]
      exact .recycle hcons (mem_getElem?_of_lt hb)

/-- `lfq_enqueue` on a forwarding queue is an arrival. -/
theorem put_pool (s : Adaptor) (q : FwdQueue) (b : ℕ) (f : SimpleNameData) (calloc : Bool) :
    (s.put q b f calloc).1.pool =
      ⟨s.mem, arrive s.pool.loc b (if calloc then some (.queue q) else none)⟩ := by
  refine congrArg (Pool.mk s.mem) ?_
  funext x
  rw [arrive_apply]
  cases x with
  | queue q' =>
    by_cases hq : q' = q
    · subst hq
      cases calloc <;> simp [put, pool]
    · cases calloc <;> simp [put, pool, Function.update_of_ne hq, Ne.symm hq]
  | _ => cases calloc <;> simp [put, pool]

/-- `lfq_dequeue` on a forwarding queue, by a consumer that holds no buffer. -/
theorem take_cases (h : Owned s.pool) (hheld : s.held q = none) :
    (∃ queue, s.take q = .ok ({ s with queue := queue }, none) ∧
      ({ s with queue := queue } : Adaptor).pool = s.pool) ∨
    (∃ b queue, b < s.mem.length ∧ s.take q = .ok ({ s with
        queue := queue, held := Function.update s.held q (some b) }, some (b, s.frame b)) ∧
      Move s.pool ⟨some (.queue q), some (.held q), s.frame b, s.frame b⟩
        ({ s with queue := queue, held := Function.update s.held q (some b) } : Adaptor).pool) := by
  rcases (s.queue q).dequeue_cases with ⟨hnil, hret, hrest⟩ | ⟨b, rest, hcons, hret, hrest⟩
  · refine Or.inl ⟨Function.update s.queue q (s.queue q).dequeue.1, by simp only [take, hret], ?_⟩
    refine congrArg (Pool.mk s.mem) ?_
    funext x
    cases x with
    | queue q' =>
      by_cases hq : q' = q
      · subst hq
        simp [hnil, hrest]
      · simp [Function.update_of_ne hq]
    | _ => rfl
  · have hb : b < s.mem.length := h.lt (x := Place.queue q) (by
      show b ∈ (s.queue q).contents
      rw [hcons]
      exact List.mem_cons_self)
    refine Or.inr ⟨b, Function.update s.queue q (s.queue q).dequeue.1, hb, take_of_cons hcons hb, ?_⟩
    have hpool : ({ s with
        queue := Function.update s.queue q (s.queue q).dequeue.1
        held := Function.update s.held q (some b) } : Adaptor).pool =
        ⟨s.mem, arrive (Function.update s.pool.loc (.queue q) rest) b (some (.held q))⟩ := by
      refine congrArg (Pool.mk s.mem) ?_
      funext x
      rw [arrive_apply]
      cases x with
      | queue q' =>
        by_cases hq : q' = q
        · subst hq
          simp [hrest]
        · simp [pool, Function.update, hq]
      | held q' =>
        by_cases hq : q' = q
        · subst hq
          simp [pool, hheld, Function.update]
        · simp [pool, Function.update, hq, Ne.symm hq]
      | free => simp [pool, Function.update]
    rw [hpool]
    exact .carry _ hcons (mem_getElem?_of_lt hb)

/-- The places after the consumer of `q` has given up the buffer it held. -/
private theorem pool_drop (hheld : s.held q = some b) :
    ({ s with held := Function.update s.held q none } : Adaptor).pool.loc =
      Function.update s.pool.loc (.held q) [] := by
  funext x
  cases x with
  | held q' =>
    by_cases hq : q' = q
    · subst hq
      simp [pool]
    · simp [pool, Function.update, hq]
  | _ => simp [pool, Function.update]

/-- A consumer gives its buffer back to `freebuf_list`, or loses it when there is no node for it. -/
theorem release_move (hheld : s.held q = some b) (hb : b < s.mem.length) (calloc : Bool) :
    Move s.pool ⟨some (.held q), if calloc then some .free else none, s.frame b, s.frame b⟩
      (s.release q b calloc).pool := by
  have hpool : (s.release q b calloc).pool = ⟨s.mem, arrive (Function.update s.pool.loc (.held q) [])
      b (if calloc then some .free else none)⟩ := by
    refine congrArg (Pool.mk s.mem) ?_
    rw [← pool_drop hheld]
    funext x
    rw [arrive_apply]
    cases x <;> cases calloc <;> simp [pool, release]
  rw [hpool]
  refine .carry _ ?_ (mem_getElem?_of_lt hb)
  simp [pool, hheld]

/-- A consumer forgets its buffer. -/
theorem forget_move (hheld : s.held q = some b) (hb : b < s.mem.length) :
    Move s.pool ⟨some (.held q), none, s.frame b, s.frame b⟩
      ({ s with held := Function.update s.held q none } : Adaptor).pool := by
  have hpool : ({ s with held := Function.update s.held q none } : Adaptor).pool =
      ⟨s.mem, arrive (Function.update s.pool.loc (.held q) []) b none⟩ :=
    congrArg (Pool.mk s.mem) (pool_drop hheld)
  rw [hpool]
  refine .carry _ ?_ (mem_getElem?_of_lt hb)
  simp [pool, hheld]

end Adaptor

end MixSim
