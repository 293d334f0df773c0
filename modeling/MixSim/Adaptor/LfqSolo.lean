import MixSim.Adaptor.LfqRuns

/-!
# Calls of the queue that do not overlap

The functions of `Lfq` run a call from start to end, the steps of `LfqThreads` run it access by
access. Scheduled alone from the start of a call to its return, a thread does what the function
does: a lemma for each of the source's functions (`alone_enpool`, `alone_freePool`, `alone_safeFree`,
`alone_allocTid`, `alone_dequeueTid`, `alone_dequeue`, `alone_enqueue`), and from them `serial_run`,
for calls made one after another by any threads.
-/

namespace MixSim

namespace LfqThreads

open Execution

variable {α T : Type} [DecidableEq T] {t : T} {call : Call α} {pcs : T → Pc α}

/-- Thread `t`, alone at work, comes from `pc` to `pc'`. -/
def Alone (t : T) (call : Call α) (pcs : T → Pc α) (ctx : LfqCtx α) (pc : Pc α) (o : List (Obs T α))
    (ctx' : LfqCtx α) (pc' : Pc α) : Prop :=
  ∃ k, exec step (⟨ctx, Function.update pcs t pc⟩ : Threads T α) (List.replicate k (t, call)) =
    .ok (⟨ctx', Function.update pcs t pc'⟩, o)

namespace Alone

variable {ctx ctx₁ ctx' : LfqCtx α} {pc pc₁ pc' : Pc α} {o o₁ : List (Obs T α)}

theorem refl (ctx : LfqCtx α) (pc : Pc α) : Alone t call pcs ctx pc [] ctx pc := ⟨0, rfl⟩

theorem step (hs : threadStep ctx t call pc = .ok (ctx₁, pc₁, o₁))
    (h : Alone t call pcs ctx₁ pc₁ o ctx' pc') : Alone t call pcs ctx pc (o₁ ++ o) ctx' pc' := by
  obtain ⟨k, hk⟩ := h
  refine ⟨k + 1, ?_⟩
  have hone : LfqThreads.step (⟨ctx, Function.update pcs t pc⟩ : Threads T α) (t, call) =
      .ok (⟨ctx₁, Function.update pcs t pc₁⟩, o₁) := by
    simp only [LfqThreads.step, Function.update_self, hs, ok_bind, Function.update_idem]
  rw [List.replicate_succ, exec_cons_ok hone, hk]

/-- A step without an event. -/
theorem silent (hs : threadStep ctx t call pc = .ok (ctx₁, pc₁, []))
    (h : Alone t call pcs ctx₁ pc₁ o ctx' pc') : Alone t call pcs ctx pc o ctx' pc' := h.step hs

theorem trans (h : Alone t call pcs ctx pc o₁ ctx₁ pc₁) (h' : Alone t call pcs ctx₁ pc₁ o ctx' pc') :
    Alone t call pcs ctx pc (o₁ ++ o) ctx' pc' := by
  obtain ⟨k, hk⟩ := h
  obtain ⟨k', hk'⟩ := h'
  refine ⟨k + k', ?_⟩
  rw [List.replicate_add, exec_append_ok hk, hk']

/-- What holds at the end, and before a step where it holds after it, holds at the beginning. -/
theorem induct {P : LfqCtx α → Pc α → List (Obs T α) → Prop} (h : Alone t call pcs ctx pc o ctx' pc')
    (hend : P ctx' pc' [])
    (hstep : ∀ ctx pc ctx₁ pc₁ o₁ o, threadStep ctx t call pc = .ok (ctx₁, pc₁, o₁) → P ctx₁ pc₁ o →
      P ctx pc (o₁ ++ o)) : P ctx pc o := by
  obtain ⟨k, hk⟩ := h
  induction k generalizing ctx pc o with
  | zero =>
    obtain ⟨he, rfl⟩ := Prod.mk.inj (Except.ok.inj hk)
    obtain ⟨rfl, hpcs⟩ := Threads.mk.inj he
    have hpc := congrFun hpcs t
    rw [Function.update_self, Function.update_self] at hpc
    rw [hpc]
    exact hend
  | succ k ih =>
    obtain ⟨s₁, o₁, os, hs, ht, rfl⟩ := exec_cons_eq_ok hk
    obtain ⟨⟨ctx₁, pc₁, o₂⟩, hts, hs⟩ := bind_eq_ok hs
    cases hs
    simp only [Function.update_self] at hts
    simp only [Function.update_idem] at ht
    exact hstep ctx pc ctx₁ pc₁ o₁ os hts (ih ht)

end Alone

/-- The calls and returns of a history. -/
def calls (h : List (Obs T α)) : List (Obs T α) :=
  h.filter fun
    | .enqueue .. | .dequeue .. | .enqueued .. | .dequeued .. => true
    | .put .. | .take .. | .empty .. => false

omit [DecidableEq T] in
theorem calls_append (h h' : List (Obs T α)) : calls (h ++ h') = calls h ++ calls h' :=
  List.filter_append ..

theorem inHP_iff {ctx : LfqCtx α} {p : Ptr} :
    inHP ctx p = true ↔ ∃ i < ctx.maxHpSize, ctx.hp[i]? = some p := by
  rw [inHP, List.any_eq_true]
  constructor
  · rintro ⟨q, hq, he⟩
    rw [decide_eq_true_iff] at he
    subst he
    obtain ⟨i, hi⟩ := List.mem_iff_getElem?.1 hq
    rw [List.getElem?_take] at hi
    split at hi
    · exact ⟨i, ‹_›, hi⟩
    · cases hi
  · rintro ⟨i, hi, hp⟩
    refine ⟨p, List.mem_of_getElem? (i := i) ?_, decide_eq_true rfl⟩
    rw [List.getElem?_take, if_pos hi, hp]

/-- A thread looks through the hazard pointers for a node. -/
theorem alone_scan {ctx : LfqCtx α} {p : Ptr} {hit done : Pc α} (scan : ℕ → Pc α)
    (hhit : ∀ i < ctx.maxHpSize, ctx.hp[i]? = some p → threadStep ctx t call (scan i) = .ok (ctx, hit, []))
    (hmiss : ∀ i < ctx.maxHpSize, ctx.hp[i]? ≠ some p →
      threadStep ctx t call (scan i) = .ok (ctx, scan (i + 1), []))
    (hend : ∀ i, ctx.maxHpSize ≤ i → threadStep ctx t call (scan i) = .ok (ctx, done, [])) :
    Alone t call pcs ctx (scan 0) [] ctx (if inHP ctx p then hit else done) := by
  by_cases hin : inHP ctx p = true
  · rw [if_pos hin]
    obtain ⟨k, hk, hp⟩ := inHP_iff.1 hin
    have hrun : ∀ d i, i + d = k → Alone t call pcs ctx (scan i) [] ctx hit := by
      intro d
      induction d with
      | zero =>
        rintro i rfl
        exact .silent (hhit i hk hp) (.refl ctx hit)
      | succ d ih =>
        intro i hi
        by_cases hpi : ctx.hp[i]? = some p
        · exact .silent (hhit i (by omega) hpi) (.refl ctx hit)
        · exact .silent (hmiss i (by omega) hpi) (ih (i + 1) (by omega))
    exact hrun k 0 (Nat.zero_add k)
  · rw [if_neg hin]
    have hrun : ∀ d i, i + d = ctx.maxHpSize → Alone t call pcs ctx (scan i) [] ctx done := by
      intro d
      induction d with
      | zero =>
        intro i hi
        exact .silent (hend i (by omega)) (.refl ctx done)
      | succ d ih =>
        intro i hi
        have hpi : ctx.hp[i]? ≠ some p := fun he => hin (inHP_iff.2 ⟨i, by omega, he⟩)
        exact .silent (hmiss i (by omega) hpi) (ih (i + 1) (by omega))
    exact hrun ctx.maxHpSize 0 (Nat.zero_add _)

section Calls

variable {ctx ctx' : LfqCtx α} {tid : ℕ} {ret : Dequeued α} {lfn : Ptr}

/-- `enpool(ctx, lfn)` -/
theorem alone_enpool (h : enpool ctx lfn = .ok ctx') :
    Alone t call pcs ctx (.safeFree tid ret lfn .clearNext) [] ctx' (.freePool tid ret .lock) := by
  obtain ⟨nd, hnd, h⟩ := bind_eq_ok h
  obtain ⟨ctx₁, hstore, h⟩ := bind_eq_ok h
  obtain ⟨od, hod, h⟩ := bind_eq_ok h
  have hclear : threadStep ctx t call (.safeFree tid ret lfn .clearNext) =
      .ok (ctx₁, .safeFree tid ret lfn .exchange, []) := by
    simp only [threadStep, safeFreeStep, hnd, hstore, ok_bind]
  have hexchange : threadStep ctx₁ t call (.safeFree tid ret lfn .exchange) =
      .ok ({ ctx₁ with fpt := lfn }, .safeFree tid ret lfn (.link ctx₁.fpt), []) := rfl
  have hlink : threadStep { ctx₁ with fpt := lfn } t call (.safeFree tid ret lfn (.link ctx₁.fpt)) =
      .ok (ctx', .freePool tid ret .lock, []) := by
    simp only [threadStep, safeFreeStep, hod, h, ok_bind]
  exact .silent hclear (.silent hexchange (.silent hlink (.refl _ _)))

/-- The loop of `free_pool(ctx, false)`, from round `i` on. -/
theorem alone_freePoolLoop {fuel i : ℕ} (hi : i + fuel = maxFree) (h : freePoolLoop fuel ctx = .ok ctx') :
    Alone t call pcs ctx (.freePool tid ret (.loadHead i)) [] ctx' (.freePool tid ret .unlock) := by
  induction fuel generalizing i ctx with
  | zero =>
    have henough : threadStep ctx t call (.freePool tid ret (.loadHead i)) =
        .ok (ctx, .freePool tid ret .unlock, []) := by
      simp only [threadStep, freePoolStep, ok_bind, if_neg (show ¬ i < maxFree by omega)]
    cases h
    exact .silent henough (.refl _ _)
  | succ fuel ih =>
    obtain ⟨nd, hnd, h⟩ := bind_eq_ok h
    have hload : threadStep ctx t call (.freePool tid ret (.loadHead i)) =
        .ok (ctx, .freePool tid ret (.canFree i ctx.fph), []) := by
      simp only [threadStep, freePoolStep, ok_bind, if_pos (show i < maxFree by omega)]
    refine .silent hload ?_
    cases hfree : nd.canFree with
    | false =>
      rw [hfree, Bool.not_false, Bool.true_or, Bool.true_or, if_pos rfl] at h
      have hunread : threadStep ctx t call (.freePool tid ret (.canFree i ctx.fph)) =
          .ok (ctx, .freePool tid ret .unlock, []) := by
        simp only [threadStep, freePoolStep, hnd, ok_bind, hfree, Bool.false_eq_true, if_false]
      cases h
      exact .silent hunread (.refl _ _)
    | true =>
      have hread : threadStep ctx t call (.freePool tid ret (.canFree i ctx.fph)) =
          .ok (ctx, .freePool tid ret (.testNext i ctx.fph), []) := by
        simp only [threadStep, freePoolStep, hnd, ok_bind, hfree, if_true]
      refine .silent hread ?_
      by_cases hnext : nd.next = .null
      · rw [decide_eq_true hnext, Bool.or_true, Bool.true_or, if_pos rfl] at h
        have hsingle : threadStep ctx t call (.freePool tid ret (.testNext i ctx.fph)) =
            .ok (ctx, .freePool tid ret .unlock, []) := by
          simp only [threadStep, freePoolStep, hnd, ok_bind, if_pos hnext]
        cases h
        exact .silent hsingle (.refl _ _)
      · have htest : threadStep ctx t call (.freePool tid ret (.testNext i ctx.fph)) =
            .ok (ctx, .freePool tid ret (.scan i ctx.fph 0), []) := by
          simp only [threadStep, freePoolStep, hnd, ok_bind, if_neg hnext]
        refine .silent htest ?_
        have hscan : Alone t call pcs ctx (.freePool tid ret (.scan i ctx.fph 0)) [] ctx
            (if inHP ctx ctx.fph then .freePool tid ret .unlock
              else .freePool tid ret (.loadNext i ctx.fph)) :=
          alone_scan (fun j => .freePool tid ret (.scan i ctx.fph j))
            (fun j hj hp => by simp only [threadStep, freePoolStep, if_pos hj, if_pos hp, ok_bind])
            (fun j hj hp => by simp only [threadStep, freePoolStep, if_pos hj, if_neg hp, ok_bind])
            fun j hj => by simp only [threadStep, freePoolStep, if_neg (Nat.not_lt.2 hj), ok_bind]
        rw [hfree, decide_eq_false hnext, Bool.not_true, Bool.false_or, Bool.false_or] at h
        by_cases hin : inHP ctx ctx.fph = true
        · rw [if_pos hin] at h hscan
          cases h
          exact hscan
        · rw [if_neg hin] at h hscan
          obtain ⟨ctx₁, hgone, h⟩ := bind_eq_ok h
          have hloadNext : threadStep ctx t call (.freePool tid ret (.loadNext i ctx.fph)) =
              .ok (ctx, .freePool tid ret (.storeHead i ctx.fph nd.next), []) := by
            simp only [threadStep, freePoolStep, hnd, ok_bind]
          have hstore : threadStep ctx t call (.freePool tid ret (.storeHead i ctx.fph nd.next)) =
              .ok ({ ctx with fph := nd.next }, .freePool tid ret (.free i ctx.fph), []) := rfl
          have hfreed : threadStep { ctx with fph := nd.next } t call (.freePool tid ret (.free i ctx.fph)) =
              .ok (ctx₁, .freePool tid ret (.loadHead (i + 1)), []) := by
            simp only [threadStep, freePoolStep, hgone, ok_bind]
          exact hscan.trans (.silent hloadNext (.silent hstore (.silent hfreed (ih (by omega) h))))

/-- `free_pool(ctx, false)` -/
theorem alone_freePool (h : freePool ctx = .ok ctx') :
    Alone t call pcs ctx (.freePool tid ret .lock) [] ctx' (.freeTid tid ret) := by
  simp only [freePool] at h
  split at h
  · rename_i hf
    have hbusy : threadStep ctx t call (.freePool tid ret .lock) = .ok (ctx, .freeTid tid ret, []) := by
      simp only [threadStep, freePoolStep, if_pos hf, ok_bind]
    cases h
    exact .silent hbusy (.refl _ _)
  · rename_i hf
    obtain ⟨ctx₁, hloop, h⟩ := bind_eq_ok h
    cases h
    have hlock : threadStep ctx t call (.freePool tid ret .lock) =
        .ok ({ ctx with isFreeing := true }, .freePool tid ret (.loadHead 0), []) := by
      simp only [threadStep, freePoolStep, if_neg hf, ok_bind]
    have hunlock : threadStep ctx₁ t call (.freePool tid ret .unlock) =
        .ok ({ ctx₁ with isFreeing := false }, .freeTid tid ret, []) := rfl
    exact .silent hlock ((alone_freePoolLoop (Nat.zero_add _) hloop).trans (.silent hunlock (.refl _ _)))

/-- The lock is taken and given back around the two writes of a `free`. -/
theorem unlock_put (hf : ctx.isFreeing = false) (p : Ptr) (v w : Option (LfqNode α)) :
    { (({ ctx with isFreeing := true } : LfqCtx α).put p v).put p w with isFreeing := false } =
      (ctx.put p v).put p w := by
  obtain ⟨heap, brk, head, hp, tidMap, isFreeing, fph, fpt, maxHpSize, tail⟩ := ctx
  cases hf
  cases p <;> rfl

/-- `safe_free(ctx, lfn)` -/
theorem alone_safeFree (h : safeFree ctx lfn = .ok ctx') :
    Alone t call pcs ctx (.safeFree tid ret lfn .canFree) [] ctx' (.freeTid tid ret) := by
  obtain ⟨nd, hnd, h⟩ := bind_eq_ok h
  have henpool : (enpool ctx lfn >>= fun ctx => freePool ctx) = .ok ctx' →
      Alone t call pcs ctx (.safeFree tid ret lfn .clearNext) [] ctx' (.freeTid tid ret) := by
    intro h
    obtain ⟨ctx₁, hpool, hfree⟩ := bind_eq_ok h
    exact (alone_enpool hpool).trans (alone_freePool hfree)
  by_cases hfree : nd.canFree = true
  · have hread : threadStep ctx t call (.safeFree tid ret lfn .canFree) =
        .ok (ctx, .safeFree tid ret lfn (.scan 0), []) := by
      simp only [threadStep, safeFreeStep, hnd, ok_bind, if_pos hfree]
    refine .silent hread ?_
    have hscan : Alone t call pcs ctx (.safeFree tid ret lfn (.scan 0)) [] ctx
        (if inHP ctx lfn then .safeFree tid ret lfn .clearNext else .safeFree tid ret lfn .lock) :=
      alone_scan (fun j => .safeFree tid ret lfn (.scan j))
        (fun j hj hp => by simp only [threadStep, safeFreeStep, if_pos hj, if_pos hp, ok_bind])
        (fun j hj hp => by simp only [threadStep, safeFreeStep, if_pos hj, if_neg hp, ok_bind])
        fun j hj => by simp only [threadStep, safeFreeStep, if_neg (Nat.not_lt.2 hj), ok_bind]
    by_cases hin : inHP ctx lfn = true
    · simp only [hin, Bool.not_true, Bool.and_false, Bool.false_eq_true, if_false] at h
      rw [if_pos hin] at hscan
      exact hscan.trans (henpool h)
    · have hnow : (nd.canFree && !inHP ctx lfn) = true := by
        rw [hfree, Bool.eq_false_of_not_eq_true hin]
        rfl
      simp only [if_pos hnow] at h
      rw [if_neg hin] at hscan
      refine hscan.trans ?_
      by_cases hf : ctx.isFreeing = true
      · simp only [if_pos hf] at h
        have hbusy : threadStep ctx t call (.safeFree tid ret lfn .lock) =
            .ok (ctx, .safeFree tid ret lfn .clearNext, []) := by
          simp only [threadStep, safeFreeStep, if_pos hf, ok_bind]
        exact .silent hbusy (henpool h)
      · simp only [if_neg hf] at h
        rw [LfqCtx.load_eq_ok] at hnd
        have hget : (ctx.put lfn (some { nd with next := .poison })).get lfn =
            some { nd with next := .poison } := LfqCtx.get_put_self hnd
        rw [LfqCtx.store_of_get hnd, ok_bind, LfqCtx.free_of_get hget, ok_bind] at h
        -- the same, with the lock held
        let ctx₁ : LfqCtx α := { ctx with isFreeing := true }
        have hnd₁ : ctx₁.get lfn = some nd := (LfqCtx.get_congr rfl lfn).trans hnd
        have hget₁ : (ctx₁.put lfn (some { nd with next := .poison })).get lfn =
            some { nd with next := .poison } := LfqCtx.get_put_self hnd₁
        have hlock : threadStep ctx t call (.safeFree tid ret lfn .lock) =
            .ok (ctx₁, .safeFree tid ret lfn .poison, []) := by
          simp only [threadStep, safeFreeStep, if_neg hf, ok_bind, ctx₁]
        have hpoison : threadStep ctx₁ t call (.safeFree tid ret lfn .poison) =
            .ok (ctx₁.put lfn (some { nd with next := .poison }), .safeFree tid ret lfn .free, []) := by
          simp only [threadStep, safeFreeStep, LfqCtx.load_eq_ok.2 hnd₁, LfqCtx.store_of_get hnd₁, ok_bind]
        have hgone : threadStep (ctx₁.put lfn (some { nd with next := .poison })) t call
            (.safeFree tid ret lfn .free) =
            .ok ((ctx₁.put lfn (some { nd with next := .poison })).put lfn none,
              .safeFree tid ret lfn .unlock, []) := by
          simp only [threadStep, safeFreeStep, LfqCtx.free_of_get hget₁, ok_bind]
        have hunlock : threadStep ((ctx₁.put lfn (some { nd with next := .poison })).put lfn none) t call
            (.safeFree tid ret lfn .unlock) =
            .ok ((ctx.put lfn (some { nd with next := .poison })).put lfn none,
              .freePool tid ret .lock, []) := by
          simp only [threadStep, safeFreeStep, ok_bind, ctx₁, unlock_put (Bool.eq_false_of_not_eq_true hf)]
        exact .silent hlock (.silent hpoison (.silent hgone (.silent hunlock (alone_freePool h))))
  · have hunread : threadStep ctx t call (.safeFree tid ret lfn .canFree) =
        .ok (ctx, .safeFree tid ret lfn .clearNext, []) := by
      simp only [threadStep, safeFreeStep, hnd, ok_bind, if_neg hfree]
    simp only [Bool.eq_false_of_not_eq_true hfree, Bool.false_and, Bool.false_eq_true, if_false] at h
    exact .silent hunread (henpool h)

/-- `alloc_tid(ctx)`, with a slot free. -/
theorem alone_allocTid (h : allocTid ctx = some (ctx', tid)) :
    Alone t call pcs ctx (.testTid 0) [] ctx' (.loadHead tid) := by
  unfold allocTid at h
  split at h
  · rename_i i hfind
    cases h
    obtain ⟨htid, hmem, hbelow⟩ := List.find?_range_eq_some.1 hfind
    rw [decide_eq_true_iff] at htid
    rw [List.mem_range] at hmem
    have hrun : ∀ d i, i + d = tid → Alone t call pcs ctx (.testTid i) []
        { ctx with tidMap := ctx.tidMap.set tid 1 } (.loadHead tid) := by
      intro d
      induction d with
      | zero =>
        intro i hi
        rw [Nat.add_zero] at hi
        subst hi
        have htest : threadStep ctx t call (.testTid i) = .ok (ctx, .casTid i, []) := by
          simp only [threadStep, if_pos hmem, if_pos htid]
        have hcas : threadStep ctx t call (.casTid i) =
            .ok ({ ctx with tidMap := ctx.tidMap.set i 1 }, .loadHead i, []) := by
          simp only [threadStep, if_pos htid]
        exact .silent htest (.silent hcas (.refl _ _))
      | succ d ih =>
        intro i hi
        have hlt : i < tid := by omega
        have hused : ctx.tidMap[i]? ≠ some 0 := by simpa using hbelow i hlt
        have htest : threadStep ctx t call (.testTid i) = .ok (ctx, .testTid (i + 1), []) := by
          simp only [threadStep, if_pos (hlt.trans hmem), if_neg hused]
        exact .silent htest (ih (i + 1) (by omega))
    exact hrun tid 0 (Nat.zero_add tid)
  · cases h

/-- `alloc_tid(ctx)`, with no slot free. -/
theorem alone_allocTid_none (h : allocTid ctx = none) :
    Alone t call pcs ctx (.testTid 0) [.dequeued t .minusOne] ctx .idle := by
  unfold allocTid at h
  split at h
  · cases h
  · rename_i hfind
    have hused := List.find?_range_eq_none.1 hfind
    have hrun : ∀ d i, i + d = ctx.maxHpSize →
        Alone t call pcs ctx (.testTid i) [.dequeued t .minusOne] ctx .idle := by
      intro d
      induction d with
      | zero =>
        intro i hi
        have hend : threadStep ctx t call (.testTid i) = .ok (ctx, .idle, [.dequeued t .minusOne]) := by
          simp only [threadStep, if_neg (show ¬ i < ctx.maxHpSize by omega)]
        exact .step hend (.refl _ _)
      | succ d ih =>
        intro i hi
        have hlt : i < ctx.maxHpSize := by omega
        have hne : ctx.tidMap[i]? ≠ some 0 := by simpa using hused i hlt
        have htest : threadStep ctx t call (.testTid i) = .ok (ctx, .testTid (i + 1), []) := by
          simp only [threadStep, if_pos hlt, if_neg hne]
        exact .silent htest (ih (i + 1) (by omega))
    exact hrun _ 0 (Nat.zero_add _)

/-- `lfq_dequeue_tid(ctx, tid)`, up to the return of the slot. -/
theorem alone_dequeueTid {r : Dequeued α} (h : lfqDequeueTid ctx tid = .ok (ctx', r)) :
    ∃ o, calls o = [] ∧ Alone t call pcs ctx (.loadHead tid) o ctx' (.freeTid tid r) := by
  obtain ⟨nd, hnd, h⟩ := bind_eq_ok h
  let ctx₁ : LfqCtx α := { ctx with hp := ctx.hp.set tid ctx.head }
  have hload : threadStep ctx t call (.loadHead tid) = .ok (ctx, .storeHP tid ctx.head, []) := rfl
  have hstore : threadStep ctx t call (.storeHP tid ctx.head) =
      .ok (ctx₁, .checkHead tid ctx.head, []) := rfl
  have hcheck : threadStep ctx₁ t call (.checkHead tid ctx.head) =
      .ok (ctx₁, .loadNext tid ctx.head, []) := by
    simp only [threadStep, ctx₁, if_true]
  have hnd₁ : ctx₁.load ctx.head = .ok nd := hnd
  by_cases hnext : nd.next = .null
  · simp only [if_pos hnext] at h
    cases h
    have hempty : threadStep ctx₁ t call (.loadNext tid ctx.head) =
        .ok (ctx₁, .clearEmpty tid, [.empty t]) := by
      simp only [threadStep, hnd₁, ok_bind, if_pos hnext]
    have hclear : threadStep ctx₁ t call (.clearEmpty tid) =
        .ok ({ ctx with hp := (ctx.hp.set tid ctx.head).set tid .null }, .freeTid tid .null, []) := rfl
    exact ⟨_, rfl, .silent hload (.silent hstore (.silent hcheck (.step hempty (.silent hclear (.refl _ _)))))⟩
  · simp only [if_neg hnext] at h
    obtain ⟨md, hmd, h⟩ := bind_eq_ok h
    obtain ⟨ctx₃, hfree, h⟩ := bind_eq_ok h
    obtain ⟨ctx₄, hsafe, h⟩ := bind_eq_ok h
    let ctx₂ : LfqCtx α := { ctx₁ with head := nd.next }
    let ctx₂' : LfqCtx α := { ctx₂ with hp := ctx₂.hp.set tid .null }
    have hmd' : ctx₂'.load nd.next = .ok md := hmd
    have hfree' : ctx₂'.store nd.next { md with canFree := true } = .ok ctx₃ := hfree
    have hret : ctx₄ = ctx' ∧ threadStep ctx₂' t call (.loadData tid ctx.head nd.next) =
        .ok (ctx₂', .setCanFree tid ctx.head nd.next r, []) := by
      cases hdata : md.data with
      | none =>
        rw [hdata] at h
        cases h
        simp only [threadStep, hmd', hdata, ok_bind, and_self]
      | some x =>
        rw [hdata] at h
        cases h
        simp only [threadStep, hmd', hdata, ok_bind, and_self]
    obtain ⟨rfl, hdata⟩ := hret
    have hnext₁ : threadStep ctx₁ t call (.loadNext tid ctx.head) =
        .ok (ctx₁, .casHead tid ctx.head nd.next, []) := by
      simp only [threadStep, hnd₁, ok_bind, if_neg hnext]
    have hcas : threadStep ctx₁ t call (.casHead tid ctx.head nd.next) =
        .ok (ctx₂, .clearHP tid ctx.head nd.next, [.take t ((ctx₁.get nd.next).bind LfqNode.data)]) := by
      simp only [threadStep, ctx₁, ctx₂, if_true]
    have hclear : threadStep ctx₂ t call (.clearHP tid ctx.head nd.next) =
        .ok (ctx₂', .loadData tid ctx.head nd.next, []) := rfl
    have hset : threadStep ctx₂' t call (.setCanFree tid ctx.head nd.next r) =
        .ok (ctx₃, .safeFree tid r ctx.head .canFree, []) := by
      simp only [threadStep, hmd', hfree', ok_bind]
    exact ⟨_, rfl, .silent hload (.silent hstore (.silent hcheck (.silent hnext₁ (.step hcas
      (.silent hclear (.silent hdata (.silent hset (alone_safeFree hsafe))))))))⟩

end Calls

/-! ### The counter of addresses

The sequential functions hand out addresses in increasing order, a thread gets its addresses from
outside. -/

/-- The same memory, with another address to be handed out next. -/
def setBrk (ctx : LfqCtx α) (b : ℕ) : LfqCtx α := { ctx with brk := b }

section SetBrk

variable {ctx ctx' : LfqCtx α} {b : ℕ} {p : Ptr} {nd : LfqNode α}

theorem load_setBrk (ctx : LfqCtx α) (b : ℕ) (p : Ptr) : (setBrk ctx b).load p = ctx.load p := by
  cases p <;> rfl

theorem put_setBrk (ctx : LfqCtx α) (b : ℕ) (p : Ptr) (v : Option (LfqNode α)) :
    (setBrk ctx b).put p v = setBrk (ctx.put p v) b := by
  cases p <;> rfl

theorem store_setBrk (h : ctx.store p nd = .ok ctx') : (setBrk ctx b).store p nd = .ok (setBrk ctx' b) := by
  cases p with
  | node a =>
    cases ha : ctx.heap a with
    | none =>
      simp only [LfqCtx.store, ha] at h
      cases h
    | some m =>
      have hm : ctx.get (.node a) = some m := ha
      have hm' : (setBrk ctx b).get (.node a) = some m := ha
      rw [LfqCtx.store_of_get hm] at h
      cases h
      rw [LfqCtx.store_of_get hm', put_setBrk]
  | null => cases h
  | poison => cases h

theorem free_setBrk (h : ctx.free p = .ok ctx') : (setBrk ctx b).free p = .ok (setBrk ctx' b) := by
  obtain ⟨m, hm⟩ := LfqCtx.free_eq_ok h
  have hm' : (setBrk ctx b).get p = some m := (LfqCtx.get_congr rfl p).trans hm
  rw [LfqCtx.free_of_get hm] at h
  cases h
  rw [LfqCtx.free_of_get hm', put_setBrk]

theorem safeFreeStep_setBrk {lfn : Ptr} {pc : SafeFreePc} {r : Option SafeFreePc}
    (h : safeFreeStep ctx lfn pc = .ok (ctx', r)) :
    safeFreeStep (setBrk ctx b) lfn pc = .ok (setBrk ctx' b, r) := by
  cases pc with
  | canFree =>
    obtain ⟨nd, hnd, h⟩ := bind_eq_ok h
    cases h
    simp only [safeFreeStep, load_setBrk, hnd, ok_bind]
  | scan i =>
    simp only [safeFreeStep] at h ⊢
    split at h
    · rename_i hi
      cases h
      exact if_pos hi
    · rename_i hi
      cases h
      exact if_neg hi
  | lock =>
    simp only [safeFreeStep] at h ⊢
    split at h
    · rename_i hi
      cases h
      exact if_pos hi
    · rename_i hi
      cases h
      exact if_neg hi
  | poison =>
    obtain ⟨nd, hnd, h⟩ := bind_eq_ok h
    obtain ⟨ctx₁, hs, h⟩ := bind_eq_ok h
    cases h
    simp only [safeFreeStep, load_setBrk, hnd, store_setBrk hs, ok_bind]
  | free =>
    obtain ⟨ctx₁, hs, h⟩ := bind_eq_ok h
    cases h
    simp only [safeFreeStep, free_setBrk hs, ok_bind]
  | unlock =>
    cases h
    rfl
  | clearNext =>
    obtain ⟨nd, hnd, h⟩ := bind_eq_ok h
    obtain ⟨ctx₁, hs, h⟩ := bind_eq_ok h
    cases h
    simp only [safeFreeStep, load_setBrk, hnd, store_setBrk hs, ok_bind]
  | exchange =>
    cases h
    rfl
  | link oldTail =>
    obtain ⟨nd, hnd, h⟩ := bind_eq_ok h
    obtain ⟨ctx₁, hs, h⟩ := bind_eq_ok h
    cases h
    simp only [safeFreeStep, load_setBrk, hnd, store_setBrk hs, ok_bind]

theorem freePoolStep_setBrk {pc : FreePoolPc} {r : Option FreePoolPc}
    (h : freePoolStep ctx pc = .ok (ctx', r)) :
    freePoolStep (setBrk ctx b) pc = .ok (setBrk ctx' b, r) := by
  cases pc with
  | lock =>
    simp only [freePoolStep] at h ⊢
    split at h
    · rename_i hi
      cases h
      exact if_pos hi
    · rename_i hi
      cases h
      exact if_neg hi
  | canFree i p =>
    obtain ⟨nd, hnd, h⟩ := bind_eq_ok h
    cases h
    simp only [freePoolStep, load_setBrk, hnd, ok_bind]
  | testNext i p =>
    obtain ⟨nd, hnd, h⟩ := bind_eq_ok h
    cases h
    simp only [freePoolStep, load_setBrk, hnd, ok_bind]
  | scan i p j =>
    simp only [freePoolStep] at h ⊢
    split at h
    · rename_i hi
      cases h
      exact if_pos hi
    · rename_i hi
      cases h
      exact if_neg hi
  | loadNext i p =>
    obtain ⟨nd, hnd, h⟩ := bind_eq_ok h
    cases h
    simp only [freePoolStep, load_setBrk, hnd, ok_bind]
  | free i p =>
    obtain ⟨ctx₁, hs, h⟩ := bind_eq_ok h
    cases h
    simp only [freePoolStep, free_setBrk hs, ok_bind]
  | loadHead i =>
    cases h
    rfl
  | storeHead i p next =>
    cases h
    rfl
  | unlock =>
    cases h
    rfl

omit [DecidableEq T] in
/-- No access looks at the counter. -/
theorem threadStep_setBrk {pc pc' : Pc α} {o : List (Obs T α)}
    (h : threadStep ctx t call pc = .ok (ctx', pc', o)) :
    threadStep (setBrk ctx b) t call pc = .ok (setBrk ctx' b, pc', o) := by
  cases pc with
  | idle =>
    cases call with
    | enqueue x a =>
      simp only [threadStep] at h
      simp only [threadStep, put_setBrk]
      split at h
      · rename_i ha
        cases h
        exact if_pos ha
      · rename_i ha
        cases h
        exact if_neg ha
    | dequeue =>
      cases h
      rfl
  | linkTail oldTail n =>
    obtain ⟨nd, hnd, h⟩ := bind_eq_ok h
    obtain ⟨ctx₁, hs, h⟩ := bind_eq_ok h
    cases h
    simp only [threadStep, load_setBrk, hnd, store_setBrk hs, ok_bind]
  | testTid i =>
    simp only [threadStep] at h ⊢
    split at h
    · rename_i hi
      cases h
      exact if_pos hi
    · rename_i hi
      cases h
      exact if_neg hi
  | casTid i =>
    simp only [threadStep] at h ⊢
    split at h
    · rename_i hi
      cases h
      exact if_pos hi
    · rename_i hi
      cases h
      exact if_neg hi
  | checkHead tid oldHead =>
    cases h
    rfl
  | loadNext tid oldHead =>
    obtain ⟨nd, hnd, h⟩ := bind_eq_ok h
    simp only [threadStep, load_setBrk, hnd, ok_bind]
    split at h
    · rename_i hi
      cases h
      exact if_pos hi
    · rename_i hi
      cases h
      exact if_neg hi
  | casHead tid oldHead newHead =>
    have hget : (setBrk ctx b).get newHead = ctx.get newHead := LfqCtx.get_congr rfl newHead
    simp only [threadStep] at h
    simp only [threadStep, hget]
    split at h
    · rename_i hi
      cases h
      exact if_pos hi
    · rename_i hi
      cases h
      exact if_neg hi
  | loadData tid oldHead newHead =>
    obtain ⟨nd, hnd, h⟩ := bind_eq_ok h
    cases h
    simp only [threadStep, load_setBrk, hnd, ok_bind]
  | setCanFree tid oldHead newHead ret =>
    obtain ⟨nd, hnd, h⟩ := bind_eq_ok h
    obtain ⟨ctx₁, hs, h⟩ := bind_eq_ok h
    cases h
    simp only [threadStep, load_setBrk, hnd, store_setBrk hs, ok_bind]
  | safeFree tid ret lfn pc =>
    obtain ⟨⟨ctx₁, r⟩, hs, h⟩ := bind_eq_ok h
    simp only [threadStep, safeFreeStep_setBrk hs, ok_bind]
    cases r <;> cases h <;> rfl
  | freePool tid ret pc =>
    obtain ⟨⟨ctx₁, r⟩, hs, h⟩ := bind_eq_ok h
    simp only [threadStep, freePoolStep_setBrk hs, ok_bind]
    cases r <;> cases h <;> rfl
  | exchangeTail x n =>
    cases h
    rfl
  | loadHead tid =>
    cases h
    rfl
  | storeHP tid oldHead =>
    cases h
    rfl
  | clearEmpty tid =>
    cases h
    rfl
  | clearHP tid oldHead newHead =>
    cases h
    rfl
  | freeTid tid ret =>
    cases h
    rfl

end SetBrk

/-- The counter is the same, and where there was no node there is none. -/
def Within (ctx ctx' : LfqCtx α) : Prop := ctx'.brk = ctx.brk ∧ ∀ p, ctx.get p = none → ctx'.get p = none

namespace Within

variable {ctx ctx' ctx'' : LfqCtx α}

theorem of_heap (hheap : ctx'.heap = ctx.heap) (hbrk : ctx'.brk = ctx.brk) : Within ctx ctx' :=
  ⟨hbrk, fun p hp => (LfqCtx.get_congr hheap p).trans hp⟩

theorem refl (ctx : LfqCtx α) : Within ctx ctx := .of_heap rfl rfl

theorem put {p : Ptr} {nd : LfqNode α} (hnd : ctx.get p = some nd) (v : Option (LfqNode α)) :
    Within ctx (ctx.put p v) := by
  refine ⟨by cases p <;> rfl, fun q hq => ?_⟩
  have hne : q ≠ p := by
    rintro rfl
    rw [hnd] at hq
    cases hq
  rw [LfqCtx.get_put_of_ne hne, hq]

theorem trans (h : Within ctx ctx') (h' : Within ctx' ctx'') : Within ctx ctx'' :=
  ⟨h'.1.trans h.1, fun p hp => h'.2 p (h.2 p hp)⟩

end Within

section Dequeues

variable {ctx ctx' : LfqCtx α}

theorem SafeFreeAccess.within {lfn : Ptr} {pc : SafeFreePc} {r : Option SafeFreePc}
    (h : SafeFreeAccess ctx lfn pc ctx' r) : Within ctx ctx' := by
  cases h with
  | poison hnd => exact .put hnd _
  | free hnd => exact .put hnd _
  | clearNext hnd => exact .put hnd _
  | link hnd => exact .put hnd _
  | _ => exact .of_heap rfl rfl

theorem FreePoolAccess.within {pc : FreePoolPc} {r : Option FreePoolPc}
    (h : FreePoolAccess ctx pc ctx' r) : Within ctx ctx' := by
  cases h with
  | free hnd => exact .put hnd _
  | _ => exact .of_heap rfl rfl

omit [DecidableEq T] in
/-- A dequeue allocates nothing. -/
theorem threadStep_within {pc pc' : Pc α} {o : List (Obs T α)}
    (h : threadStep ctx t .dequeue pc = .ok (ctx', pc', o)) : Within ctx ctx' := by
  by_cases hpc : pc = .idle
  · subst hpc
    cases h
    exact .refl ctx
  · cases threadStep_ok h with
    | alloc => exact absurd rfl hpc
    | linkTail hnd => exact .put hnd _
    | setCanFree hnd => exact .put hnd _
    | safeFree ha => exact ha.within
    | safeFreeEnd ha => exact ha.within
    | freePool ha => exact ha.within
    | freePoolEnd ha => exact ha.within
    | _ => exact .of_heap rfl rfl

theorem Alone.within {pc pc' : Pc α} {o : List (Obs T α)} (h : Alone t .dequeue pcs ctx pc o ctx' pc') :
    Within ctx ctx' :=
  h.induct (P := fun ctx _ _ => Within ctx ctx') (.refl ctx') fun _ _ _ _ _ _ hs hw =>
    (threadStep_within hs).trans hw

theorem Alone.setBrk {pc pc' : Pc α} {o : List (Obs T α)} (h : Alone t call pcs ctx pc o ctx' pc') (b : ℕ) :
    Alone t call pcs (setBrk ctx b) pc o (LfqThreads.setBrk ctx' b) pc' :=
  h.induct (P := fun ctx pc o => Alone t call pcs (LfqThreads.setBrk ctx b) pc o
    (LfqThreads.setBrk ctx' b) pc') (.refl _ _) fun _ _ _ _ _ _ hs ha => ha.step (threadStep_setBrk hs)

end Dequeues

/-! ### Calls that do not overlap -/

/-- A call of the sequential functions. -/
inductive Op (α : Type)
  | enqueue (data : α) (calloc : Bool)
  | dequeue

/-- A call of thread `t`, from its start to its end. -/
def serialStep : Step (LfqCtx α) (T × Op α) (Obs T α) Fault := fun ctx i =>
  match i.2 with
  | .enqueue x calloc => do
      let (ctx, ret) ← lfqEnqueue ctx x calloc
      .ok (ctx, [.enqueue i.1 x, .enqueued i.1 ret])
  | .dequeue => do
      let (ctx, ret) ← lfqDequeue ctx
      .ok (ctx, [.dequeue i.1, .dequeued i.1 ret])

section Serial

variable {ctx ctx' : LfqCtx α} {x : α}

/-- `lfq_dequeue(ctx)` -/
theorem alone_dequeue {r : Dequeued α} (h : lfqDequeue ctx = .ok (ctx', r)) :
    ∃ o, calls o = [.dequeue t, .dequeued t r] ∧ Alone t .dequeue pcs ctx .idle o ctx' .idle := by
  have hcall : threadStep ctx t .dequeue .idle = .ok (ctx, .testTid 0, [.dequeue t]) := rfl
  simp only [lfqDequeue] at h
  split at h
  · rename_i htid
    cases h
    exact ⟨_, rfl, .step hcall (alone_allocTid_none htid)⟩
  · rename_i ctx₁ tid htid
    obtain ⟨⟨ctx₂, r'⟩, hdeq, h⟩ := bind_eq_ok h
    cases h
    have hrun : ∃ o, calls o = [] ∧
        Alone t .dequeue pcs ctx₁ (.loadHead tid) o ctx₂ (.freeTid tid r') := alone_dequeueTid hdeq
    obtain ⟨o, ho, hrun⟩ := hrun
    have hfree : threadStep ctx₂ t .dequeue (.freeTid tid r') =
        .ok (freeTid ctx₂ tid, .idle, [.dequeued t r']) := rfl
    refine ⟨_, ?_, .step hcall ((alone_allocTid htid).trans (hrun.trans (.step hfree (.refl _ _))))⟩
    rw [List.nil_append, calls_append, calls_append, ho]
    rfl

/-- `lfq_enqueue(ctx, data)`, where `calloc` finds the address that the counter shows. -/
theorem alone_enqueue {r : ℤ} (h : lfqEnqueue ctx x true = .ok (ctx', r))
    (hfresh : ctx.get (.node ctx.brk) = none) :
    Alone t (.enqueue x ctx.brk) pcs ctx .idle [.enqueue t x, .put t x, .enqueued t r]
      (setBrk ctx' ctx.brk) .idle := by
  simp only [lfqEnqueue, Bool.not_true, Bool.false_eq_true, if_false] at h
  obtain ⟨od, hod, h⟩ := bind_eq_ok h
  obtain ⟨ctx₁, hs, h⟩ := bind_eq_ok h
  cases h
  let ctx₂ : LfqCtx α := ctx.put (.node ctx.brk) (some ⟨some x, .null, false⟩)
  have hheap : ¬ (ctx.heap ctx.brk).isSome := by
    have hnone : ctx.heap ctx.brk = none := hfresh
    simp [hnone]
  have halloc : threadStep ctx t (.enqueue x ctx.brk) .idle =
      .ok (ctx₂, .exchangeTail x (.node ctx.brk), [.enqueue t x]) := by
    simp only [threadStep, if_neg hheap, ctx₂]
  have hexchange : threadStep ctx₂ t (.enqueue x ctx.brk) (.exchangeTail x (.node ctx.brk)) =
      .ok ({ ctx₂ with tail := .node ctx.brk }, .linkTail ctx.tail (.node ctx.brk), [.put t x]) := rfl
  have hod₂ : ({ ctx₂ with tail := .node ctx.brk } : LfqCtx α).load ctx.tail = .ok od := hod
  have hs₂ : ({ ctx₂ with tail := .node ctx.brk } : LfqCtx α).store ctx.tail
      { od with next := .node ctx.brk } = .ok (setBrk ctx' ctx.brk) := store_setBrk (b := ctx.brk) hs
  have hlink : threadStep { ctx₂ with tail := .node ctx.brk } t (.enqueue x ctx.brk)
      (.linkTail ctx.tail (.node ctx.brk)) = .ok (setBrk ctx' ctx.brk, .idle, [.enqueued t 0]) := by
    simp only [threadStep, hod₂, hs₂, ok_bind]
  exact .step halloc (.step hexchange (.step hlink (.refl _ _)))

/-- `lfq_enqueue(ctx, data)`, where `calloc` fails. -/
theorem alone_noMemory {r : ℤ} (h : lfqEnqueue ctx x false = .ok (ctx', r)) {a : ℕ} {nd : LfqNode α}
    (hused : ctx.get (.node a) = some nd) :
    Alone t (.enqueue x a) pcs ctx .idle [.enqueue t x, .enqueued t r] ctx' .idle := by
  cases h
  have hheap : ctx.heap a = some nd := hused
  have hcall : threadStep ctx t (.enqueue x a) .idle =
      .ok (ctx, .idle, [.enqueue t x, .enqueued t (-enomem)]) := by
    simp only [threadStep, hheap, Option.isSome_some, if_true]
  exact .step hcall (.refl _ _)

/-- No address from the counter on is in use. -/
def Unused (ctx : LfqCtx α) : Prop := ∀ a, ctx.brk ≤ a → ctx.get (.node a) = none

theorem Unused.enqueue {calloc : Bool} {r : ℤ} (hu : Unused ctx)
    (h : lfqEnqueue ctx x calloc = .ok (ctx', r)) : Unused ctx' := by
  cases calloc with
  | false =>
    cases h
    exact hu
  | true =>
    simp only [lfqEnqueue, Bool.not_true, Bool.false_eq_true, if_false] at h
    obtain ⟨od, hod, h⟩ := bind_eq_ok h
    obtain ⟨ctx₁, hs, h⟩ := bind_eq_ok h
    cases h
    rw [LfqCtx.load_eq_ok] at hod
    rw [LfqCtx.store_of_get hod] at hs
    cases hs
    obtain ⟨hbrk, hnone⟩ := Within.put hod (some { od with next := .node ctx.brk })
    intro a ha
    rw [hbrk] at ha
    have hlt : ctx.brk < a := ha
    exact hnone _ ((Function.update_of_ne hlt.ne' _ _).trans (hu a hlt.le))

theorem Unused.within (hu : Unused ctx) (h : Within ctx ctx') : Unused ctx' :=
  fun a ha => h.2 _ (hu a (h.1 ▸ ha))

omit [DecidableEq T] in
theorem Inv.used {s : Threads T α} {h : List (Obs T α)} (hi : Inv s h) :
    ∃ a nd, s.ctx.get (.node a) = some nd := by
  obtain ⟨-, -, role, chain, pool, hmem, -⟩ := hi
  obtain ⟨nd, hnd⟩ := hmem.get_some (a := s.ctx.head) (by rw [hmem.head_role]; exact nofun)
  cases hhead : s.ctx.head with
  | node a =>
    rw [hhead] at hnd
    exact ⟨a, nd, hnd⟩
  | null =>
    rw [hhead] at hnd
    cases hnd
  | poison =>
    rw [hhead] at hnd
    cases hnd

end Serial

/-- A queue with all threads idle. -/
def atRest (T : Type) (ctx : LfqCtx α) : Threads T α := ⟨ctx, fun _ => .idle⟩

/-- A call made while no other is under way is a schedule. -/
theorem serialStep_run {ctx ctx' : LfqCtx α} {op : T × Op α} {h : List (Obs T α)} {b a : ℕ} {nd : LfqNode α}
    (hs : serialStep ctx op = .ok (ctx', h)) (hu : Unused ctx) (hused : ctx.get (.node a) = some nd) :
    Unused ctx' ∧ ∃ is o, exec step (atRest T (setBrk ctx b)) is = .ok (atRest T (setBrk ctx' b), o) ∧
      calls o = h := by
  have hrest : ∀ (t : T) (ctx : LfqCtx α),
      (⟨ctx, Function.update (fun _ => Pc.idle) t .idle⟩ : Threads T α) = atRest T ctx := by
    intro t ctx
    rw [Function.update_eq_self t (fun _ : T => (Pc.idle : Pc α))]
    rfl
  have hrun : ∀ {t : T} {call : Call α} {o : List (Obs T α)},
      Alone t call (fun _ => .idle) (setBrk ctx b) .idle o (setBrk ctx' b) .idle →
      ∃ is, exec step (atRest T (setBrk ctx b)) is = .ok (atRest T (setBrk ctx' b), o) := by
    rintro t call o ⟨k, hk⟩
    rw [hrest, hrest] at hk
    exact ⟨_, hk⟩
  obtain ⟨t, op⟩ := op
  cases op with
  | enqueue x calloc =>
    obtain ⟨⟨ctx₁, r⟩, hcall, hs⟩ := bind_eq_ok hs
    cases hs
    refine ⟨hu.enqueue hcall, ?_⟩
    cases calloc with
    | true =>
      obtain ⟨is, his⟩ := hrun ((alone_enqueue hcall (hu _ le_rfl)).setBrk b)
      exact ⟨is, _, his, rfl⟩
    | false =>
      obtain ⟨is, his⟩ := hrun ((alone_noMemory hcall hused).setBrk b)
      exact ⟨is, _, his, rfl⟩
  | dequeue =>
    obtain ⟨⟨ctx₁, r⟩, hcall, hs⟩ := bind_eq_ok hs
    cases hs
    have halone : ∃ o, calls o = [.dequeue t, .dequeued t r] ∧
        Alone t .dequeue (fun _ => .idle) ctx .idle o ctx' .idle := alone_dequeue hcall
    obtain ⟨o, ho, halone⟩ := halone
    obtain ⟨is, his⟩ := hrun (halone.setBrk b)
    exact ⟨hu.within halone.within, is, o, his, ho⟩

/-- The sequential functions, called by any threads one call after another, do what the threads do
under a schedule in which no two calls overlap: they leave the same memory and give the same
answers. -/
theorem serial_run (n : ℕ) (ops : List (T × Op α)) {ctx : LfqCtx α} {h : List (Obs T α)}
    (he : exec serialStep (lfqInit α n) ops = .ok (ctx, h)) :
    ∃ is o, exec step (init T α n) is = .ok (atRest T (setBrk ctx 2), o) ∧ calls o = h := by
  have hgo : ∀ (ops : List (T × Op α)) (ctx ctx' : LfqCtx α) (h : List (Obs T α)), Unused ctx →
      (∃ is o, exec step (init T α n) is = .ok (atRest T (setBrk ctx 2), o)) →
      exec serialStep ctx ops = .ok (ctx', h) →
      ∃ is o, exec step (atRest T (setBrk ctx 2)) is = .ok (atRest T (setBrk ctx' 2), o) ∧ calls o = h := by
    intro ops
    induction ops with
    | nil =>
      rintro ctx ctx' h - - he
      cases he
      exact ⟨[], [], rfl, rfl⟩
    | cons op ops ih =>
      rintro ctx ctx' h hu ⟨is₀, o₀, hreach⟩ he
      obtain ⟨ctx₁, h₁, h₂, hs, ht, rfl⟩ := exec_cons_eq_ok he
      obtain ⟨a, nd, hused⟩ := (inv_exec hreach).used
      obtain ⟨hu₁, is₁, o₁, hrun₁, hcalls₁⟩ := serialStep_run (b := 2) hs hu hused
      obtain ⟨is₂, o₂, hrun₂, hcalls₂⟩ := ih ctx₁ ctx' h₂ hu₁
        ⟨is₀ ++ is₁, o₀ ++ o₁, by rw [exec_append_ok hreach, hrun₁]⟩ ht
      refine ⟨is₁ ++ is₂, o₁ ++ o₂, by rw [exec_append_ok hrun₁, hrun₂], ?_⟩
      rw [calls_append, hcalls₁, hcalls₂]
  have hfresh : Unused (lfqInit α n) := by
    intro a ha
    have hle : 2 ≤ a := ha
    rw [lfqInit_get, if_neg (Nat.not_lt.2 hle)]
  exact hgo ops (lfqInit α n) ctx h hfresh ⟨[], [], rfl⟩ he

/-- Three calls of two threads. -/
theorem serial_run_three : ∃ ctx, ∃ is o, exec step (init Bool ℕ 1) is = .ok (atRest Bool (setBrk ctx 2), o) ∧
    calls o = [.dequeue true, .dequeued true .null, .enqueue false 7, .enqueued false 0, .dequeue true,
      .dequeued true (.data 7)] :=
  ⟨_, serial_run 1 [(true, .dequeue), (false, .enqueue 7 true), (true, .dequeue)] rfl⟩

end LfqThreads

end MixSim
