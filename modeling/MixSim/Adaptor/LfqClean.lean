import MixSim.Adaptor.LfqHistory

/-!
# Taking a queue down

`lfq_clean` retires the nodes of the queue one after the other and then frees the pool. It frees them at
once only where `can_free` is set, which is so for the head alone: of the nodes behind it the first one
that goes to the pool stays there, since no `lfq_dequeue` has read it.
-/

namespace MixSim

open LfqThreads

variable {α : Type}

/-! ### The source's functions -/

/-- The loop of `lfg_count_freelist`; `none` when it has not come to the end in `fuel` rounds. -/
def countFrom (ctx : LfqCtx α) : ℕ → Ptr → Except Fault (Option ℕ)
  | 0, _ => .ok none
  | fuel + 1, p =>
      if p = .null then .ok (some 0)
      else do
        let nd ← ctx.load p
        let count ← countFrom ctx fuel nd.next
        .ok (count.map (· + 1))

/-- `lfg_count_freelist`. -/
def lfgCountFreelist (fuel : ℕ) (ctx : LfqCtx α) : Except Fault (Option ℕ) := countFrom ctx fuel ctx.fph

/-- The loop of `free_pool(ctx, true)`. -/
def freeAllLoop : ℕ → LfqCtx α → Except Fault (Option (LfqCtx α))
  | 0, _ => .ok none
  | fuel + 1, ctx => do
      let p := ctx.fph
      let nd ← ctx.load p
      if !nd.canFree || nd.next = .null || inHP ctx p then
        .ok (some ctx)
      else
        let ctx ← { ctx with fph := nd.next }.free p
        freeAllLoop fuel ctx

/-- `free_pool(ctx, true)`. -/
def freeAll (fuel : ℕ) (ctx : LfqCtx α) : Except Fault (Option (LfqCtx α)) := do
  if ctx.isFreeing then
    .ok (some ctx)
  else
    let ctx ← freeAllLoop fuel { ctx with isFreeing := true }
    .ok (ctx.map fun ctx => { ctx with isFreeing := false })

/-- The loop of `lfq_clean` over the nodes of the queue. -/
def cleanLoop : ℕ → LfqCtx α → Except Fault (Option (LfqCtx α))
  | 0, _ => .ok none
  | fuel + 1, ctx =>
      if ctx.head = .null then .ok (some ctx)
      else do
        let tmp := (← ctx.load ctx.head).next
        let ctx ← safeFree ctx ctx.head
        cleanLoop fuel { ctx with head := tmp }

/-- The part of `lfq_clean` that takes the free pool down; it says whether the pool is gone. -/
def cleanPool (fuel : ℕ) (ctx : LfqCtx α) : Except Fault (Option (LfqCtx α × Bool)) := do
  if ctx.fph ≠ .null ∧ ctx.fpt ≠ .null then
    match ← freeAll fuel ctx with
    | none => .ok none
    | some ctx =>
        if ctx.fph ≠ ctx.fpt then .ok (some (ctx, false))
        else
          -- free the empty node
          let ctx ← ctx.free ctx.fpt
          .ok (some ({ ctx with fph := .null, fpt := .null }, true))
  else .ok (some (ctx, true))

/-- `lfq_clean`. -/
def lfqClean (fuel : ℕ) (ctx : LfqCtx α) : Except Fault (Option (LfqCtx α × ℤ)) := do
  let cleaned ←
    if ctx.tail ≠ .null ∧ ctx.head ≠ .null then do
      let ctx ← cleanLoop fuel ctx
      .ok (ctx.map fun ctx => { ctx with tail := .null })
    else .ok (some ctx)
  match cleaned with
  | none => .ok none
  | some ctx =>
      match ← cleanPool fuel ctx with
      | none => .ok none
      | some (ctx, false) => .ok (some (ctx, -1))
      | some (ctx, true) =>
          if ctx.fph = .null ∧ ctx.fpt = .null then
            .ok (some ({ ctx with head := .null, hp := [], tidMap := [], isFreeing := false, fph := .null
                                  fpt := .null, maxHpSize := 0, tail := .null }, 0))
          else .ok (some (ctx, -1))

/-! ### The nodes while they are taken down -/

/-- The nodes of `rest` follow each other from `first` on. -/
def Walk (next : Ptr → Option Ptr) : Ptr → List Ptr → Prop
  | first, [] => first = .null
  | first, p :: rest => first = p ∧ ∃ q, next p = some q ∧ Walk next q rest

/-- The item of the node has not been read. -/
def Kept (ctx : LfqCtx α) (p : Ptr) : Prop := ∃ nd, ctx.get p = some nd ∧ nd.canFree = false

/-- The nodes of the queue still to take down are `rest`; the free pool consists of the nodes `ps`,
which have been read, and `us`, which have not. -/
structure Cleaning (ctx : LfqCtx α) (first : Ptr) (rest ps us : List Ptr) : Prop where
  walk : Walk (link ctx) first rest
  pool : SwapList.Linked .null (link ctx) (fun _ _ => False) ctx.fph ctx.fpt (ps ++ us)
  kept : ∀ p ∈ rest, Kept ctx p
  read : ∀ p ∈ ps, Sure ctx p
  unread : ∀ p ∈ us, Kept ctx p
  nodup : rest.Nodup
  apart : ∀ p ∈ rest, p ∉ ps ++ us
  nodes : ∀ p, ctx.get p ≠ none ↔ p ∈ rest ∨ p ∈ ps ++ us
  hp : ∀ p ∈ ctx.hp, p = .null

theorem Walk.congr {next next' : Ptr → Option Ptr} {first : Ptr} {rest : List Ptr}
    (h : Walk next first rest) (hn : ∀ p ∈ rest, next' p = next p) : Walk next' first rest := by
  induction rest generalizing first with
  | nil => exact h
  | cons p rest ih =>
    obtain ⟨rfl, q, hq, hrest⟩ := h
    exact ⟨rfl, q, (hn _ List.mem_cons_self).trans hq,
      ih hrest fun r hr => hn r (List.mem_cons_of_mem _ hr)⟩

theorem Kept.congr {ctx ctx' : LfqCtx α} {p : Ptr} (h : Kept ctx p) (hget : ctx'.get p = ctx.get p) :
    Kept ctx' p := by
  rwa [Kept, hget]

theorem inHP_null {ctx : LfqCtx α} {p : Ptr} (h : ∀ q ∈ ctx.hp, q = .null) (hp : p ≠ .null) :
    inHP ctx p = false := by
  rw [inHP, List.any_eq_false]
  intro q hq
  rw [h q (List.mem_of_mem_take hq), decide_eq_true_iff]
  exact hp.symm

namespace Cleaning

variable {ctx : LfqCtx α} {first : Ptr} {rest ps us : List Ptr}

section Pool

variable (h : Cleaning ctx first rest ps us)

include h

theorem fph_ne_null : ctx.fph ≠ .null := fun he => h.pool.ne_null (he ▸ h.pool.first_mem)

/-- Only what the pool is made of counts. -/
theorem congr {ctx' : LfqCtx α} (hheap : ctx'.heap = ctx.heap) (hfph : ctx'.fph = ctx.fph)
    (hfpt : ctx'.fpt = ctx.fpt) (hhp : ctx'.hp = ctx.hp) : Cleaning ctx' first rest ps us := by
  have hget : ∀ p, ctx'.get p = ctx.get p := LfqCtx.get_congr hheap
  exact {
    walk := h.walk.congr fun p _ => link_congr (hget p)
    pool := by
      rw [hfph, hfpt]
      exact h.pool.congr (fun p _ => link_congr (hget p)) fun _ _ => Iff.rfl
    kept := fun p hp => (h.kept p hp).congr (hget p)
    read := fun p hp => (h.read p hp).congr (hget p)
    unread := fun p hp => (h.unread p hp).congr (hget p)
    nodup := h.nodup
    apart := h.apart
    nodes := fun p => by rw [hget, h.nodes]
    hp := by rw [hhp]; exact h.hp }

/-- The first node of the pool, where it has been read and is not the last one, is freed. -/
theorem pop {p : Ptr} {ps' : List Ptr} (hps : ps = p :: ps') (hne : ps' ++ us ≠ []) :
    ∃ nd, ctx.get ctx.fph = some nd ∧ nd.canFree = true ∧ nd.next ≠ .null ∧
      Cleaning ({ ctx with fph := nd.next }.put ctx.fph none) first rest ps' us := by
  subst hps
  obtain ⟨b, tl, hb⟩ := List.exists_cons_of_ne_nil hne
  have hpool := h.pool
  rw [List.cons_append, hb] at hpool
  have hfph : p = ctx.fph := by
    have hhead := hpool.head
    rwa [List.head?_cons, Option.some.injEq] at hhead
  obtain ⟨nd, hnd, hfree⟩ := h.read p List.mem_cons_self
  have hlink : link ctx p = some b := by
    rcases hpool.rel ⟨[], tl, rfl⟩ with hl | ⟨-, hf⟩
    · exact hl
    · exact hf.elim
  have hbn : b ≠ .null := fun he => hpool.ne_null (by rw [he]; simp)
  obtain ⟨rest', hlist, hpop⟩ := hpool.pop (hfph ▸ hlink) hbn
  have hnext : nd.next = b := by
    rwa [link_of_get hnd, Option.some.injEq] at hlink
  subst hfph hnext
  refine ⟨nd, hnd, hfree, hbn, ?_⟩
  cases hlist
  have hnd' := h.pool.nodup
  rw [List.cons_append, List.nodup_cons] at hnd'
  have hget : ({ ctx with fph := nd.next } : LfqCtx α).get ctx.fph = some nd :=
    (LfqCtx.get_congr rfl ctx.fph).trans hnd
  have hself : ({ ctx with fph := nd.next }.put ctx.fph none).get ctx.fph = none :=
    LfqCtx.get_put_self hget
  have hother : ∀ q, q ≠ ctx.fph → ({ ctx with fph := nd.next }.put ctx.fph none).get q = ctx.get q :=
    fun q hq => (LfqCtx.get_put_of_ne hq).trans (LfqCtx.get_congr rfl q)
  have hrest : ∀ q ∈ rest, q ≠ ctx.fph := fun q hq he =>
    h.apart q hq (by rw [he]; exact List.mem_cons_self)
  have hin : ∀ q ∈ ps' ++ us, q ≠ ctx.fph := fun q hq he => hnd'.1 (he ▸ hq)
  exact {
    walk := h.walk.congr fun q hq => link_congr (hother q (hrest q hq))
    pool := by
      rw [LfqCtx.put_fph, LfqCtx.put_fpt, hb]
      exact hpop.congr (fun q hq => link_congr (hother q (hin q (by rw [hb]; exact hq)))) fun _ _ => Iff.rfl
    kept := fun q hq => (h.kept q hq).congr (hother q (hrest q hq))
    read := fun q hq => (h.read q (List.mem_cons_of_mem _ hq)).congr
      (hother q (hin q (List.mem_append_left us hq)))
    unread := fun q hq => (h.unread q hq).congr (hother q (hin q (List.mem_append_right ps' hq)))
    nodup := h.nodup
    apart := fun q hq hmem => h.apart q hq (List.mem_cons_of_mem _ hmem)
    nodes := fun q => by
      by_cases hq : q = ctx.fph
      · rw [hq]
        refine iff_of_false (not_not_intro hself) ?_
        rintro (hmem | hmem)
        · exact hrest _ hmem rfl
        · exact hnd'.1 hmem
      · rw [hother q hq, h.nodes, List.cons_append, List.mem_cons, or_iff_right hq]
    hp := by rw [LfqCtx.put_hp]; exact h.hp }

/-- Else it stays. -/
theorem stop (hps : ps = [] ∨ ∃ p, ps = [p] ∧ us = []) :
    ∃ nd, ctx.get ctx.fph = some nd ∧ (nd.canFree = false ∨ nd.next = .null) := by
  rcases hps with rfl | ⟨p, rfl, rfl⟩
  · obtain ⟨nd, hnd, hfree⟩ := h.unread ctx.fph h.pool.first_mem
    exact ⟨nd, hnd, Or.inl hfree⟩
  · have hfirst : ctx.fph = p := List.mem_singleton.1 h.pool.first_mem
    have hfinal : ctx.fpt = p := List.mem_singleton.1 h.pool.final_mem
    have hstop := h.pool.stop
    rw [hfinal, ← hfirst] at hstop
    obtain ⟨nd, hnd, hnext⟩ := get_of_link hstop
    exact ⟨nd, hnd, Or.inr hnext⟩

end Pool

/-! ### `free_pool` -/

/-- The pool has a first node that may go, or none. -/
theorem pop_or_stop (ps us : List Ptr) :
    (∃ p ps', ps = p :: ps' ∧ ps' ++ us ≠ []) ∨ ps = [] ∨ ∃ p, ps = [p] ∧ us = [] := by
  cases ps with
  | nil => exact Or.inr (Or.inl rfl)
  | cons p ps' =>
    by_cases hne : ps' ++ us = []
    · obtain ⟨rfl, rfl⟩ := List.append_eq_nil_iff.1 hne
      exact Or.inr (Or.inr ⟨p, rfl, rfl⟩)
    · exact Or.inl ⟨p, ps', rfl, hne⟩

theorem freePoolLoop_spec (fuel : ℕ) (h : Cleaning ctx first rest ps us) :
    ∃ ctx' ps', freePoolLoop fuel ctx = .ok ctx' ∧ Cleaning ctx' first rest ps' us ∧
      ctx'.isFreeing = ctx.isFreeing ∧ ps'.length ≤ ps.length := by
  induction fuel generalizing ctx ps with
  | zero => exact ⟨ctx, ps, rfl, h, rfl, le_rfl⟩
  | succ fuel ih =>
    have hhp := inHP_null h.hp h.fph_ne_null
    rcases pop_or_stop ps us with ⟨p, ps', rfl, hne⟩ | hstop
    · obtain ⟨nd, hnd, hfree, hnext, hpop⟩ := h.pop rfl hne
      obtain ⟨ctx', ps'', hok, hclean, hf, hlen⟩ := ih hpop
      refine ⟨ctx', ps'', ?_, hclean, hf.trans (LfqCtx.put_isFreeing _ _ _), hlen.trans (Nat.le_succ _)⟩
      have hget : ({ ctx with fph := nd.next } : LfqCtx α).get ctx.fph = some nd :=
        (LfqCtx.get_congr rfl ctx.fph).trans hnd
      simp only [freePoolLoop, LfqCtx.load_eq_ok.2 hnd, ok_bind, hfree, hnext, hhp, Bool.not_true,
        decide_false, Bool.or_false, Bool.false_eq_true, if_false, LfqCtx.free_of_get hget]
      exact hok
    · obtain ⟨nd, hnd, hor⟩ := h.stop hstop
      refine ⟨ctx, ps, ?_, h, rfl, le_rfl⟩
      simp only [freePoolLoop, LfqCtx.load_eq_ok.2 hnd, ok_bind]
      rcases hor with hfree | hnext
      · simp only [hfree, Bool.not_false, Bool.true_or, if_true]
      · simp only [hnext, decide_true, Bool.or_true, Bool.true_or, if_true]

theorem freeAllLoop_spec {fuel : ℕ} (h : Cleaning ctx first rest ps us) (hfuel : ps.length < fuel) :
    ∃ ctx' ps', freeAllLoop fuel ctx = .ok (some ctx') ∧ Cleaning ctx' first rest ps' us ∧
      (ps' = [] ∨ ∃ p, ps' = [p] ∧ us = []) := by
  induction fuel generalizing ctx ps with
  | zero => omega
  | succ fuel ih =>
    have hhp := inHP_null h.hp h.fph_ne_null
    rcases pop_or_stop ps us with ⟨p, ps', rfl, hne⟩ | hstop
    · obtain ⟨nd, hnd, hfree, hnext, hpop⟩ := h.pop rfl hne
      rw [List.length_cons] at hfuel
      obtain ⟨ctx', ps'', hok, hclean, hend⟩ := ih hpop (by omega)
      refine ⟨ctx', ps'', ?_, hclean, hend⟩
      have hget : ({ ctx with fph := nd.next } : LfqCtx α).get ctx.fph = some nd :=
        (LfqCtx.get_congr rfl ctx.fph).trans hnd
      simp only [freeAllLoop, LfqCtx.load_eq_ok.2 hnd, ok_bind, hfree, hnext, hhp, Bool.not_true,
        decide_false, Bool.or_false, Bool.false_eq_true, if_false, LfqCtx.free_of_get hget]
      exact hok
    · obtain ⟨nd, hnd, hor⟩ := h.stop hstop
      refine ⟨ctx, ps, ?_, h, hstop⟩
      simp only [freeAllLoop, LfqCtx.load_eq_ok.2 hnd, ok_bind]
      rcases hor with hfree | hnext
      · simp only [hfree, Bool.not_false, Bool.true_or, if_true]
      · simp only [hnext, decide_true, Bool.or_true, Bool.true_or, if_true]

theorem freePool_spec (h : Cleaning ctx first rest ps us) (hf : ctx.isFreeing = false) :
    ∃ ctx' ps', freePool ctx = .ok ctx' ∧ Cleaning ctx' first rest ps' us ∧ ctx'.isFreeing = false ∧
      ps'.length ≤ ps.length := by
  have hlocked : Cleaning { ctx with isFreeing := true } first rest ps us := h.congr rfl rfl rfl rfl
  obtain ⟨ctx', ps', hok, hclean, -, hlen⟩ := freePoolLoop_spec maxFree hlocked
  refine ⟨{ ctx' with isFreeing := false }, ps', ?_, hclean.congr rfl rfl rfl rfl, rfl, hlen⟩
  simp only [freePool, hf, Bool.false_eq_true, if_false, hok, ok_bind]

theorem freeAll_spec {fuel : ℕ} (h : Cleaning ctx first rest ps us) (hf : ctx.isFreeing = false)
    (hfuel : ps.length < fuel) :
    ∃ ctx' ps', freeAll fuel ctx = .ok (some ctx') ∧ Cleaning ctx' first rest ps' us ∧
      (ps' = [] ∨ ∃ p, ps' = [p] ∧ us = []) := by
  have hlocked : Cleaning { ctx with isFreeing := true } first rest ps us := h.congr rfl rfl rfl rfl
  obtain ⟨ctx', ps', hok, hclean, hend⟩ := freeAllLoop_spec hlocked hfuel
  refine ⟨{ ctx' with isFreeing := false }, ps', ?_, hclean.congr rfl rfl rfl rfl, hend⟩
  simp only [freeAll, hf, Bool.false_eq_true, if_false, hok, ok_bind, Option.map_some]

/-! ### `safe_free` -/

/-- A node that has not been read goes to the end of the pool. -/
theorem enpool_spec {p : Ptr} (h : Cleaning ctx p (p :: rest) ps us) :
    ∃ ctx' next, link ctx p = some next ∧ enpool ctx p = .ok ctx' ∧ Cleaning ctx' next rest ps (us ++ [p]) ∧
      ctx'.isFreeing = ctx.isFreeing := by
  obtain ⟨-, next, hnext, hwalk⟩ := h.walk
  obtain ⟨nd, hnd, hfree⟩ := h.kept p List.mem_cons_self
  have hpool := h.apart p List.mem_cons_self
  have hpt : ctx.fpt ≠ p := fun he => hpool (he ▸ h.pool.final_mem)
  obtain ⟨od, hod, -⟩ := get_of_link h.pool.stop
  have hrest := (List.nodup_cons.1 h.nodup).1
  -- the contexts after the first write, the exchange and the second write
  let ctx₁ := ctx.put p (some { nd with next := .null })
  let ctx₂ : LfqCtx α := { ctx₁ with fpt := p }
  let ctx₃ := ctx₂.put ctx.fpt (some { od with next := p })
  have hget₁ : ctx₁.get p = some { nd with next := .null } := LfqCtx.get_put_self hnd
  have hget₂ : ctx₂.get ctx.fpt = some od :=
    (LfqCtx.get_congr rfl _).trans ((LfqCtx.get_put_of_ne hpt).trans hod)
  have hself : ctx₃.get p = some { nd with next := .null } :=
    (LfqCtx.get_put_of_ne hpt.symm).trans ((LfqCtx.get_congr rfl _).trans hget₁)
  have hlast : ctx₃.get ctx.fpt = some { od with next := p } := LfqCtx.get_put_self hget₂
  have hother : ∀ q, q ≠ p → q ≠ ctx.fpt → ctx₃.get q = ctx.get q := fun q hq hq' =>
    (LfqCtx.get_put_of_ne hq').trans ((LfqCtx.get_congr rfl _).trans (LfqCtx.get_put_of_ne hq))
  have hin : ∀ q ∈ rest, ctx₃.get q = ctx.get q := fun q hq =>
    hother q (fun he => hrest (he ▸ hq))
      fun he => h.apart q (List.mem_cons_of_mem _ hq) (by rw [he]; exact h.pool.final_mem)
  refine ⟨ctx₃, next, hnext, ?_, ?_, ?_⟩
  · simp only [enpool, LfqCtx.load_eq_ok.2 hnd, LfqCtx.store_of_get hnd, ok_bind, LfqCtx.put_fpt]
    have hload : ctx₂.load ctx.fpt = .ok od := LfqCtx.load_eq_ok.2 hget₂
    show (ctx₂.load ctx.fpt >>= fun od => ctx₂.store ctx.fpt { od with next := p }) = .ok ctx₃
    rw [hload, ok_bind]
    exact LfqCtx.store_of_get hget₂
  · have hexchange : SwapList.Linked .null (link ctx₁) (fun a b => a = ctx.fpt ∧ b = p) ctx.fph p
        (ps ++ us ++ [p]) := by
      refine SwapList.Linked.exchange (h.pool.congr (fun q hq => ?_) fun _ _ => Iff.rfl) hpool ?_
        (link_of_get hget₁) fun _ _ => (or_iff_right id).symm
      · exact link_congr (LfqCtx.get_put_of_ne fun he => hpool (he ▸ hq))
      · rintro rfl
        cases hnd
    have hwrite : SwapList.Linked .null (link ctx₃) (fun _ _ => False) ctx.fph p (ps ++ us ++ [p]) := by
      refine hexchange.write ⟨rfl, rfl⟩ (link_of_get hlast) (fun c _ hc => ?_)
        fun c d => (iff_of_false (fun hcd => hcd.2 hcd.1.1) id).symm
      exact (link_congr (LfqCtx.get_put_of_ne hc)).trans (link_congr (LfqCtx.get_congr rfl c))
    have hcan : ∀ q nd', ctx.get q = some nd' → ∃ nd'', ctx₃.get q = some nd'' ∧ nd''.canFree = nd'.canFree := by
      intro q nd' hq
      by_cases hqp : q = p
      · subst hqp
        cases hnd.symm.trans hq
        exact ⟨_, hself, rfl⟩
      · by_cases hqt : q = ctx.fpt
        · subst hqt
          cases hod.symm.trans hq
          exact ⟨_, hlast, rfl⟩
        · exact ⟨nd', (hother q hqp hqt).trans hq, rfl⟩
    exact {
      walk := hwalk.congr fun q hq => link_congr (hin q hq)
      pool := by
        rw [← List.append_assoc]
        have hfph : ctx₃.fph = ctx.fph := (LfqCtx.put_fph _ _ _).trans (LfqCtx.put_fph _ _ _)
        have hfpt : ctx₃.fpt = p := LfqCtx.put_fpt _ _ _
        rw [hfph, hfpt]
        exact hwrite
      kept := fun q hq => (h.kept q (List.mem_cons_of_mem _ hq)).congr (hin q hq)
      read := fun q hq => by
        obtain ⟨nd', hnd', hfree'⟩ := h.read q hq
        obtain ⟨nd'', hnd'', hsame⟩ := hcan q nd' hnd'
        exact ⟨nd'', hnd'', hsame.trans hfree'⟩
      unread := fun q hq => by
        have hq' : ∃ nd', ctx.get q = some nd' ∧ nd'.canFree = false := by
          rcases List.mem_append.1 hq with hq | hq
          · exact h.unread q hq
          · rw [List.mem_singleton.1 hq]
            exact ⟨nd, hnd, hfree⟩
        obtain ⟨nd', hnd', hfree'⟩ := hq'
        obtain ⟨nd'', hnd'', hsame⟩ := hcan q nd' hnd'
        exact ⟨nd'', hnd'', hsame.trans hfree'⟩
      nodup := (List.nodup_cons.1 h.nodup).2
      apart := fun q hq hmem => by
        rw [← List.append_assoc, List.mem_append, List.mem_singleton] at hmem
        rcases hmem with hmem | rfl
        · exact h.apart q (List.mem_cons_of_mem _ hq) hmem
        · exact hrest hq
      nodes := fun q => by
        have hsame : ctx₃.get q ≠ none ↔ ctx.get q ≠ none := by
          constructor
          · intro hq he
            refine hq ((hother q ?_ ?_).trans he)
            · rintro rfl
              cases hnd.symm.trans he
            · rintro rfl
              cases hod.symm.trans he
          · intro hq he
            obtain ⟨nd', hnd'⟩ := Option.ne_none_iff_exists'.1 hq
            obtain ⟨nd'', hnd'', -⟩ := hcan q nd' hnd'
            cases hnd''.symm.trans he
        rw [hsame, h.nodes, ← List.append_assoc, List.mem_append (s := ps ++ us), List.mem_cons,
          List.mem_singleton]
        tauto
      hp := by
        have hhp : ctx₃.hp = ctx.hp := (LfqCtx.put_hp _ _ _).trans (LfqCtx.put_hp _ _ _)
        rw [hhp]
        exact h.hp }
  · exact (LfqCtx.put_isFreeing _ _ _).trans (LfqCtx.put_isFreeing _ _ _)

theorem safeFree_kept {p : Ptr} (h : Cleaning ctx p (p :: rest) ps us) (hf : ctx.isFreeing = false) :
    ∃ ctx' next ps', link ctx p = some next ∧ safeFree ctx p = .ok ctx' ∧
      Cleaning ctx' next rest ps' (us ++ [p]) ∧ ctx'.isFreeing = false ∧ ps'.length ≤ ps.length := by
  obtain ⟨nd, hnd, hfree⟩ := h.kept p List.mem_cons_self
  obtain ⟨ctx₁, next, hnext, henpool, hclean, hf₁⟩ := h.enpool_spec
  obtain ⟨ctx', ps', hpool, hclean', hf', hlen⟩ := hclean.freePool_spec (hf₁.trans hf)
  refine ⟨ctx', next, ps', hnext, ?_, hclean', hf', hlen⟩
  simp only [safeFree, LfqCtx.load_eq_ok.2 hnd, ok_bind, hfree, Bool.false_and, Bool.false_eq_true,
    if_false, henpool]
  exact hpool

/-! ### `lfq_clean` -/

theorem cleanLoop_spec {fuel : ℕ} (h : Cleaning ctx ctx.head rest ps us) (hf : ctx.isFreeing = false)
    (hfuel : rest.length < fuel) :
    ∃ ctx' ps', cleanLoop fuel ctx = .ok (some ctx') ∧ Cleaning ctx' .null [] ps' (us ++ rest) ∧
      ctx'.isFreeing = false ∧ ps'.length ≤ ps.length := by
  induction fuel generalizing ctx rest ps us with
  | zero => omega
  | succ fuel ih =>
    cases rest with
    | nil =>
      have hnull : ctx.head = .null := h.walk
      rw [hnull] at h
      refine ⟨ctx, ps, ?_, by rwa [List.append_nil], hf, le_rfl⟩
      rw [cleanLoop, if_pos hnull]
    | cons p rest =>
      have hp : ctx.head = p := h.walk.1
      rw [hp] at h
      obtain ⟨ctx₁, next, ps₁, hnext, hsafe, hclean, hf₁, hlen⟩ := h.safeFree_kept hf
      obtain ⟨nd, hnd, hnx⟩ := get_of_link hnext
      have hnull : p ≠ .null := by
        rintro rfl
        cases hnd
      rw [List.length_cons] at hfuel
      have hclean' : Cleaning { ctx₁ with head := next } next rest ps₁ (us ++ [p]) :=
        hclean.congr rfl rfl rfl rfl
      obtain ⟨ctx', ps', hok, hend, hf', hlen'⟩ := ih hclean' hf₁ (by omega)
      refine ⟨ctx', ps', ?_, by rwa [List.append_cons], hf', hlen'.trans hlen⟩
      simp only [cleanLoop, hp, if_neg hnull, LfqCtx.load_eq_ok.2 hnd, ok_bind, hsafe, hnx]
      exact hok

/-- Taking the pool down succeeds where at most one node has not been read. -/
theorem cleanPool_spec {fuel : ℕ} (h : Cleaning ctx .null [] ps us) (hf : ctx.isFreeing = false)
    (hfuel : ps.length < fuel) :
    ∃ ctx', cleanPool fuel ctx = .ok (some (ctx', decide (us.length ≤ 1))) ∧
      (us.length ≤ 1 → ctx'.fph = .null ∧ ctx'.fpt = .null) ∧
      ∀ p, ctx'.get p ≠ none ↔ 2 ≤ us.length ∧ p ∈ us := by
  have hfpt : ctx.fpt ≠ .null := fun he => h.pool.ne_null (he ▸ h.pool.final_mem)
  obtain ⟨ctx₁, ps₁, hok, hclean, hend⟩ := h.freeAll_spec hf hfuel
  by_cases hlen : us.length ≤ 1
  · -- the pool is one node
    have hone : ∃ p, ps₁ ++ us = [p] := by
      rcases hend with rfl | ⟨p, rfl, rfl⟩
      · rw [List.nil_append]
        obtain ⟨tl, hb⟩ := hclean.pool.eq_cons
        rw [List.nil_append] at hb
        rw [hb, List.length_cons] at hlen
        have htl : tl = [] := List.length_eq_zero_iff.1 (by omega)
        exact ⟨_, by rw [hb, htl]⟩
      · exact ⟨p, rfl⟩
    obtain ⟨p, hp⟩ := hone
    have hfirst : ctx₁.fph = p := by
      have hmem := hclean.pool.first_mem
      rwa [hp, List.mem_singleton] at hmem
    have hfinal : ctx₁.fpt = p := by
      have hmem := hclean.pool.final_mem
      rwa [hp, List.mem_singleton] at hmem
    obtain ⟨nd, hnd, -⟩ := get_of_link hclean.pool.stop
    refine ⟨{ ctx₁.put ctx₁.fpt none with fph := .null, fpt := .null }, ?_, fun _ => ⟨rfl, rfl⟩, fun q => ?_⟩
    · have heq : ¬ ctx₁.fph ≠ ctx₁.fpt := not_not_intro (hfirst.trans hfinal.symm)
      simp only [cleanPool, if_pos (And.intro h.fph_ne_null hfpt), hok, ok_bind, if_neg heq,
        LfqCtx.free_of_get hnd, decide_eq_true hlen]
    · suffices hgone : (ctx₁.put ctx₁.fpt none).get q = none from
        iff_of_false (not_not_intro ((LfqCtx.get_congr rfl q).trans hgone)) fun hq => by omega
      by_cases hqp : q = ctx₁.fpt
      · rw [hqp]
        exact LfqCtx.get_put_self hnd
      · rw [LfqCtx.get_put_of_ne hqp]
        by_contra hne
        rcases (hclean.nodes q).1 hne with hq | hq
        · cases hq
        · rw [hp, List.mem_singleton] at hq
          exact hqp (hq.trans hfinal.symm)
  · -- the pool cannot be emptied
    have hps : ps₁ = [] := by
      rcases hend with rfl | ⟨p, -, rfl⟩
      · rfl
      · exact absurd (Nat.zero_le 1) hlen
    subst hps
    have hpool := hclean.pool
    rw [List.nil_append] at hpool
    refine ⟨ctx₁, ?_, fun hle => absurd hle hlen, fun q => ?_⟩
    · have hne : ctx₁.fph ≠ ctx₁.fpt := by
        obtain ⟨tl, htl⟩ := hpool.eq_cons
        cases tl with
        | nil =>
          rw [htl] at hlen
          exact absurd le_rfl hlen
        | cons b tl => exact hpool.ne_final (b := b) ⟨[], tl, by rw [htl]; rfl⟩
      simp only [cleanPool, if_pos (And.intro h.fph_ne_null hfpt), hok, ok_bind, if_pos hne,
        decide_eq_false hlen]
    · rw [hclean.nodes, List.nil_append]
      exact ⟨fun hq => ⟨by omega, hq.resolve_left List.not_mem_nil⟩, fun hq => Or.inr hq.2⟩

end Cleaning

theorem LfqCtx.put_put_heap (ctx : LfqCtx α) (p : Ptr) (v w : Option (LfqNode α)) :
    ((ctx.put p v).put p w).heap = (ctx.put p w).heap := by
  cases p with
  | node a => simp only [LfqCtx.put, Function.update_idem]
  | null => rfl
  | poison => rfl

/-- `lfq_clean` on a queue with the waiting nodes `ns` and the free pool `ps`. -/
theorem lfqClean_spec {ctx : LfqCtx α} {nd : LfqNode α} {ns ps : List Ptr} {fuel : ℕ}
    (hnd : ctx.get ctx.head = some nd) (hfree : nd.canFree = true)
    (h : Cleaning (ctx.put ctx.head none) nd.next ns ps []) (htail : ctx.tail ≠ .null)
    (hf : ctx.isFreeing = false) (hns : ns.length + 1 < fuel) (hps : ps.length < fuel) :
    ∃ ctx', lfqClean fuel ctx = .ok (some (ctx', if ns.length ≤ 1 then 0 else -1)) ∧
      ∀ p, ctx'.get p ≠ none ↔ 2 ≤ ns.length ∧ p ∈ ns := by
  have hhead : ctx.head ≠ .null := fun he => by
    rw [he] at hnd
    cases hnd
  obtain ⟨fuel, rfl⟩ := Nat.exists_eq_add_of_lt hns
  -- the node that was read last is freed at once
  let ctx₀ := (ctx.put ctx.head (some { nd with next := .poison })).put ctx.head none
  have hget : (ctx.put ctx.head (some { nd with next := .poison })).get ctx.head =
      some { nd with next := .poison } := LfqCtx.get_put_self hnd
  have h₀ : Cleaning ctx₀ nd.next ns ps [] :=
    h.congr (LfqCtx.put_put_heap ctx ctx.head _ _) (by simp [ctx₀]) (by simp [ctx₀]) (by simp [ctx₀])
  have hf₀ : ctx₀.isFreeing = false := by simp [ctx₀, hf]
  obtain ⟨ctx₁, ps₁, hpool, hclean, hf₁, hlen⟩ := h₀.freePool_spec hf₀
  have hhp : inHP ctx ctx.head = false := by
    refine inHP_null (fun q hq => h.hp q ?_) hhead
    rwa [LfqCtx.put_hp]
  have hsafe : safeFree ctx ctx.head = .ok ctx₁ := by
    have hnow : (nd.canFree && !inHP ctx ctx.head) = true := by rw [hfree, hhp]; rfl
    simp only [safeFree, LfqCtx.load_eq_ok.2 hnd, ok_bind, if_pos hnow, hf, Bool.false_eq_true, if_false,
      LfqCtx.store_of_get hnd, LfqCtx.free_of_get hget]
    exact hpool
  -- the others go into the pool
  have hclean' : Cleaning { ctx₁ with head := nd.next } nd.next ns ps₁ [] := hclean.congr rfl rfl rfl rfl
  obtain ⟨ctx₂, ps₂, hloop, hend, hf₂, hlen'⟩ := hclean'.cleanLoop_spec hf₁
    (show ns.length < ns.length + 1 + fuel by omega)
  have hcleanLoop : cleanLoop (ns.length + 1 + fuel + 1) ctx = .ok (some ctx₂) := by
    rw [cleanLoop, if_neg hhead]
    simp only [LfqCtx.load_eq_ok.2 hnd, ok_bind, hsafe]
    exact hloop
  have hend' : Cleaning { ctx₂ with tail := .null } .null [] ps₂ ns := hend.congr rfl rfl rfl rfl
  obtain ⟨ctx₃, hcleanPool, hnull, hnodes⟩ := hend'.cleanPool_spec hf₂
    (show ps₂.length < ns.length + 1 + fuel + 1 by omega)
  by_cases hle : ns.length ≤ 1
  · rw [decide_eq_true hle] at hcleanPool
    let ctx₄ : LfqCtx α := { ctx₃ with
      head := .null, hp := [], tidMap := [], isFreeing := false, fph := .null, fpt := .null
      maxHpSize := 0, tail := .null }
    have hsame : ∀ p, ctx₄.get p = ctx₃.get p := LfqCtx.get_congr rfl
    refine ⟨ctx₄, ?_, fun p => by rw [hsame, hnodes]⟩
    simp only [lfqClean, if_pos (And.intro htail hhead), hcleanLoop, ok_bind, Option.map_some, hcleanPool,
      if_pos (hnull hle), if_pos hle]
    rfl
  · rw [decide_eq_false hle] at hcleanPool
    refine ⟨ctx₃, ?_, hnodes⟩
    simp only [lfqClean, if_pos (And.intro htail hhead), hcleanLoop, ok_bind, Option.map_some, hcleanPool,
      if_neg hle]

/-! ### A queue that no thread is at work on -/

namespace LfqThreads

open Execution

variable {T : Type}

/-- The thread slot of a thread whose hazard pointer may be set. -/
def hazard : Pc α → Option ℕ
  | .loadHead i | .storeHP i _ | .checkHead i _ | .loadNext i _ | .clearEmpty i | .casHead i _ _
  | .clearHP i _ _ => some i
  | _ => none

/-- A hazard pointer is set by the thread that holds its slot. -/
def Hazards (s : Threads T α) : Prop :=
  ∀ (i : ℕ) (p : Ptr), s.ctx.hp[i]? = some p → p = .null ∨ ∃ t, hazard (s.pc t) = some i

theorem access_hazard {ctx ctx' : LfqCtx α} {t : T} {pc pc' : Pc α} {o : List (Obs T α)}
    (ha : Access ctx t pc ctx' pc' o) :
    (ctx'.hp = ctx.hp ∧ ∀ i, hazard pc = some i → hazard pc' = some i) ∨
      ∃ i p, ctx'.hp = ctx.hp.set i p ∧ hazard pc = some i ∧ (p = .null ∨ hazard pc' = some i) := by
  cases ha with
  | storeHP => exact Or.inr ⟨_, _, rfl, rfl, Or.inr rfl⟩
  | clearEmpty => exact Or.inr ⟨_, _, rfl, rfl, Or.inl rfl⟩
  | clearHP => exact Or.inr ⟨_, _, rfl, rfl, Or.inl rfl⟩
  | safeFree ha => exact Or.inl ⟨by cases ha <;> simp, nofun⟩
  | safeFreeEnd ha => exact Or.inl ⟨by cases ha <;> simp, nofun⟩
  | freePool ha => exact Or.inl ⟨by cases ha <;> simp, nofun⟩
  | freePoolEnd ha => exact Or.inl ⟨by cases ha <;> rfl, nofun⟩
  | freeTid => exact Or.inl ⟨rfl, nofun⟩
  | linkTail hnd => exact Or.inl ⟨LfqCtx.put_hp _ _ _, nofun⟩
  | setCanFree hnd => exact Or.inl ⟨LfqCtx.put_hp _ _ _, nofun⟩
  | _ => exact Or.inl ⟨rfl, fun i hi => by cases hi <;> rfl⟩

theorem hazards_step [DecidableEq T] {s s' : Threads T α} {i : T × Call α} {o : List (Obs T α)}
    (h : Hazards s) (hs : step s i = .ok (s', o)) : Hazards s' := by
  obtain ⟨ctx', pc', ha, rfl⟩ := step_ok hs
  have hnow : ∀ j, hazard pc' = some j → ∃ u, hazard (Function.update s.pc i.1 pc' u) = some j :=
    fun j hj => ⟨i.1, by rw [Function.update_self, hj]⟩
  have hother : ∀ u j, u ≠ i.1 → hazard (s.pc u) = some j →
      ∃ u, hazard (Function.update s.pc i.1 pc' u) = some j :=
    fun u j hu hj => ⟨u, by rw [Function.update_of_ne hu, hj]⟩
  intro j q hq
  rcases access_hazard ha with ⟨hhp, hkeep⟩ | ⟨k, p, hhp, hk, hor⟩
  · rw [hhp] at hq
    refine (h j q hq).imp_right fun ⟨u, hu⟩ => ?_
    by_cases hut : u = i.1
    · rw [hut] at hu
      exact hnow j (hkeep j hu)
    · exact hother u j hut hu
  · rw [hhp] at hq
    by_cases hkj : k = j
    · subst hkj
      have hlt : k < (s.ctx.hp.set k p).length := (List.getElem?_eq_some_iff.1 hq).1
      rw [List.length_set] at hlt
      rw [List.getElem?_set_self hlt, Option.some.injEq] at hq
      exact hor.imp hq.symm.trans (hnow k)
    · rw [List.getElem?_set_ne hkj] at hq
      refine (h j q hq).imp_right fun ⟨u, hu⟩ => hother u j ?_ hu
      rintro rfl
      rw [hk, Option.some.injEq] at hu
      exact hkj hu

/-- Nodes that are linked to the end can be walked. -/
theorem walk_of_chain {next : Ptr → Option Ptr} {a : Ptr} {ns : List Ptr}
    (hchain : (a :: ns).IsChain fun p q => next p = some q)
    (hlast : ∀ p, (a :: ns).getLast? = some p → next p = some .null) :
    ∃ q, next a = some q ∧ Walk next q ns := by
  induction ns generalizing a with
  | nil => exact ⟨.null, hlast a rfl, rfl⟩
  | cons b ns ih =>
    obtain ⟨hab, hrest⟩ := List.isChain_cons_cons.1 hchain
    exact ⟨b, hab, rfl, ih hrest fun p hp => hlast p (by rw [List.getLast?_cons_cons, hp])⟩

section Idle

variable {role : Ptr → Role T} {chain pool : List Ptr} {s : Threads T α}

/-- When no thread is in a call, every node is in the queue or in the free pool. -/
theorem Mem.get_idle (h : Mem role chain pool s) (hidle : ∀ t, s.pc t = .idle) (p : Ptr) :
    s.ctx.get p ≠ none ↔ p ∈ chain ∨ p ∈ pool := by
  rw [ne_eq, ← h.unused, ← h.pooled, h.queue.mem_iff, ← h.head, ← h.waiting]
  cases hp : role p with
  | unused => simp
  | fresh t =>
    have hfresh := (h.fresh t p).1 hp
    rw [hidle] at hfresh
    cases hfresh
  | waiting => simp
  | head => simp
  | retired t =>
    have hown := (h.retired t p).1 hp
    rw [hidle] at hown
    cases hown
  | pooled => simp

/-- When no thread is in a call, every node that has been read is marked so. -/
theorem Mem.sure_idle (h : Mem role chain pool s) (hidle : ∀ t, s.pc t = .idle) {p : Ptr}
    (hp : (role p).Read) : Sure s.ctx p := by
  obtain ⟨nd, hnd⟩ := h.read_get hp
  refine ⟨nd, hnd, (h.read p nd hp hnd).resolve_right ?_⟩
  rintro ⟨t, ht⟩
  rw [hidle] at ht
  cases ht

theorem Mem.disjoint (h : Mem role chain pool s) {p : Ptr} (hp : p ∈ chain) : p ∉ pool := by
  rw [← h.pooled]
  rcases h.chain_role hp with hrole | hrole <;> rw [hrole] <;> exact nofun

/-- What `lfq_clean` needs holds when no thread is in a call. -/
theorem Mem.cleaning (h : Mem role chain pool s) (hhp : Hazards s) (hidle : ∀ t, s.pc t = .idle) :
    ∃ nd, s.ctx.get s.ctx.head = some nd ∧ nd.canFree = true ∧
      Cleaning (s.ctx.put s.ctx.head none) nd.next chain.tail pool [] := by
  obtain ⟨nd, hnd, hfree⟩ := h.sure_idle hidle (p := s.ctx.head) (by rw [h.head_role]; trivial)
  refine ⟨nd, hnd, hfree, ?_⟩
  obtain ⟨ns, hns⟩ := h.queue.eq_cons
  have hnone : ∀ a b, ¬ ∃ t, pend (s.pc t) = some (a, b) := by
    rintro a b ⟨t, ht⟩
    rw [hidle] at ht
    cases ht
  have hhead : ∀ p ∈ chain.tail, p ≠ s.ctx.head := fun p hp he => h.queue.first_notMem (he ▸ hp)
  have hpool : ∀ p ∈ pool, p ≠ s.ctx.head := fun p hp he => h.disjoint h.queue.first_mem (he ▸ hp)
  have hother : ∀ p, p ≠ s.ctx.head → (s.ctx.put s.ctx.head none).get p = s.ctx.get p :=
    fun p hp => LfqCtx.get_put_of_ne hp
  have hself : (s.ctx.put s.ctx.head none).get s.ctx.head = none := LfqCtx.get_put_self hnd
  have hwalk : Walk (link s.ctx) nd.next chain.tail := by
    have hchain := h.queue.chain
    have hlast := h.queue.last
    rw [hns] at hchain hlast
    obtain ⟨q, hq, hrest⟩ := walk_of_chain
      (hchain.imp fun a b hab => hab.resolve_right fun hp => hnone a b hp.2) fun p hp => by
        rw [hlast, Option.some.injEq] at hp
        exact hp ▸ h.queue.stop
    rw [link_of_get hnd, Option.some.injEq] at hq
    rw [hns, List.tail_cons, hq]
    exact hrest
  exact {
    walk := hwalk.congr fun p hp => link_congr (hother p (hhead p hp))
    pool := by
      rw [LfqCtx.put_fph, LfqCtx.put_fpt, List.append_nil]
      refine h.freePool.congr (fun p hp => link_congr (hother p (hpool p hp))) fun a b => ?_
      refine iff_of_false id ?_
      rintro ⟨t, ht⟩
      rw [hidle] at ht
      cases ht
    kept := fun p hp => by
      obtain ⟨m, hm, hcan, -⟩ := h.unread p hp
      exact ⟨m, (hother p (hhead p hp)).trans hm, hcan⟩
    read := fun p hp => (h.sure_idle hidle (by rw [(h.pooled p).2 hp]; trivial)).congr (hother p (hpool p hp))
    unread := nofun
    nodup := h.queue.nodup.sublist (List.tail_sublist chain)
    apart := fun p hp => by
      rw [List.append_nil]
      exact h.disjoint (List.mem_of_mem_tail hp)
    nodes := fun p => by
      rw [List.append_nil]
      by_cases hp : p = s.ctx.head
      · rw [hp]
        refine iff_of_false (not_not_intro hself) ?_
        rintro (hmem | hmem)
        · exact hhead _ hmem rfl
        · exact hpool _ hmem rfl
      · rw [hother p hp, h.get_idle hidle, h.queue.mem_iff, or_iff_right hp]
    hp := fun p hp => by
      rw [LfqCtx.put_hp] at hp
      obtain ⟨i, hi⟩ := List.mem_iff_getElem?.1 hp
      refine (hhp i p hi).resolve_right ?_
      rintro ⟨t, ht⟩
      rw [hidle] at ht
      cases ht }

end Idle

/-- After any run, when no thread is in a call, `lfq_clean` returns `0` and frees every node where at
most one item is waiting; where more are waiting it returns `-1`, and exactly their nodes are left. -/
theorem clean_idle [DecidableEq T] (n : ℕ) (is : List (T × Call α)) {s : Threads T α}
    {h : List (Obs T α)} (he : exec step (init T α n) is = .ok (s, h)) (hidle : ∀ t, s.pc t = .idle) :
    ∃ (waiting : List Ptr) (bound : ℕ), waiting.Nodup ∧
      (puts h).map some = takes h ++ waiting.map (item s.ctx) ∧ ∀ fuel > bound, ∃ ctx',
        lfqClean fuel s.ctx = .ok (some (ctx', if waiting.length ≤ 1 then 0 else -1)) ∧
          ∀ p, ctx'.get p ≠ none ↔ 2 ≤ waiting.length ∧ p ∈ waiting := by
  have hind : Inductive (step (T := T) (α := α)) (fun _ _ => True) fun s h => Inv s h ∧ Hazards s :=
    inductive_inv.and fun _ _ _ _ _ _ hhp _ hs => hazards_step hhp hs
  have hstart : Hazards (init T α n) := fun i p hp => by
    have hmem := List.mem_of_getElem? hp
    exact Or.inl (List.eq_of_mem_replicate hmem)
  obtain ⟨⟨-, hlock, role, chain, pool, hmem, hfifo⟩, hhp⟩ :=
    hind.exec ⟨inv_init n, hstart⟩ (along_true _ is) he
  obtain ⟨nd, hnd, hfree, hclean⟩ := hmem.cleaning hhp hidle
  have hf : s.ctx.isFreeing = false := by
    by_contra hf
    obtain ⟨t, ht⟩ := hlock.holder (Bool.eq_true_of_not_eq_false hf)
    rw [hidle] at ht
    cases ht
  have htail : s.ctx.tail ≠ .null := fun he => hmem.queue.ne_null (he ▸ hmem.queue.final_mem)
  exact ⟨chain.tail, chain.tail.length + 1 + pool.length, hclean.nodup, hfifo, fun fuel hfuel =>
    lfqClean_spec hnd hfree hclean htail hf (by omega) (by omega)⟩

/-- Two items are waiting. -/
theorem clean_idle_two : ∃ s h, exec step (init Unit ℕ 1)
      (List.replicate 3 ((), .enqueue 7 2) ++ List.replicate 3 ((), .enqueue 8 3)) = .ok (s, h) ∧
    puts h = [7, 8] ∧ ∃ (waiting : List Ptr) (bound : ℕ), waiting.Nodup ∧
      (puts h).map some = takes h ++ waiting.map (item s.ctx) ∧ ∀ fuel > bound, ∃ ctx',
        lfqClean fuel s.ctx = .ok (some (ctx', if waiting.length ≤ 1 then 0 else -1)) ∧
          ∀ p, ctx'.get p ≠ none ↔ 2 ≤ waiting.length ∧ p ∈ waiting :=
  ⟨_, _, rfl, rfl, clean_idle 1
    (List.replicate 3 ((), .enqueue 7 2) ++ List.replicate 3 ((), .enqueue 8 3)) rfl fun _ => rfl⟩

/-! ### How many nodes there are -/

theorem countFrom_spec {ctx : LfqCtx α} {l : List Ptr} {p : Ptr} (h : Walk (link ctx) p l) {fuel : ℕ}
    (hfuel : l.length < fuel) : countFrom ctx fuel p = .ok (some l.length) := by
  induction l generalizing p fuel with
  | nil =>
    obtain ⟨fuel, rfl⟩ := Nat.exists_eq_add_of_lt hfuel
    have hp : p = .null := h
    rw [List.length_nil, Nat.zero_add, countFrom, if_pos hp]
  | cons q l ih =>
    obtain ⟨fuel, rfl⟩ := Nat.exists_eq_add_of_lt hfuel
    obtain ⟨rfl, r, hr, hrest⟩ := h
    obtain ⟨nd, hnd, rfl⟩ := get_of_link hr
    have hp : p ≠ .null := by
      rintro rfl
      cases hnd
    have hcount := ih hrest (show l.length < l.length + 1 + fuel by omega)
    rw [List.length_cons, countFrom, if_neg hp, LfqCtx.load_eq_ok.2 hnd, ok_bind, hcount, ok_bind]
    rfl

/-- After any run, when no thread is in a call, there are as many nodes as items are waiting, one more
for the queue, and those that `lfg_count_freelist` counts. -/
theorem nodes_idle [DecidableEq T] (n : ℕ) (is : List (T × Call α)) {s : Threads T α}
    {h : List (Obs T α)} (he : exec step (init T α n) is = .ok (s, h)) (hidle : ∀ t, s.pc t = .idle) :
    ∃ (count bound : ℕ), (∀ fuel > bound, lfgCountFreelist fuel s.ctx = .ok (some count)) ∧
      {p | s.ctx.get p ≠ none}.ncard + (takes h).length = (puts h).length + 1 + count := by
  obtain ⟨-, -, role, chain, pool, hmem, hfifo⟩ := inv_exec he
  have hwalk : Walk (link s.ctx) s.ctx.fph pool := by
    obtain ⟨ps, hps⟩ := hmem.freePool.eq_cons
    have hchain := hmem.freePool.chain
    have hlast := hmem.freePool.last
    rw [hps] at hchain hlast ⊢
    have hnone : ∀ a b, ¬ ∃ t, poolPend (s.pc t) = some (a, b) := by
      rintro a b ⟨t, ht⟩
      rw [hidle] at ht
      cases ht
    refine ⟨rfl, walk_of_chain (hchain.imp fun a b hab => hab.resolve_right fun hp => hnone a b hp.2)
      fun p hp => ?_⟩
    rw [hlast, Option.some.injEq] at hp
    exact hp ▸ hmem.freePool.stop
  refine ⟨pool.length, pool.length, fun fuel hfuel => countFrom_spec hwalk hfuel, ?_⟩
  have hnodup : (chain ++ pool).Nodup :=
    List.nodup_append.2 ⟨hmem.queue.nodup, hmem.freePool.nodup, fun p hp q hq he =>
      hmem.disjoint hp (he ▸ hq)⟩
  have hset : {p | s.ctx.get p ≠ none} = ((chain ++ pool).toFinset : Set Ptr) := by
    ext p
    rw [Set.mem_ofPred_eq, hmem.get_idle hidle, List.coe_toFinset, Set.mem_ofPred_eq, List.mem_append]
  have hlen := congrArg List.length hfifo
  rw [List.length_map, List.length_append, List.length_map] at hlen
  obtain ⟨ns, hns⟩ := hmem.queue.eq_cons
  rw [hset, Set.ncard_coe_finset, List.toFinset_card_of_nodup hnodup, List.length_append]
  rw [hns, List.tail_cons] at hlen
  rw [hns, List.length_cons]
  omega

/-- One item is waiting. -/
theorem nodes_idle_one : ∃ s h,
    exec step (init Unit ℕ 1) (List.replicate 3 ((), .enqueue 7 2)) = .ok (s, h) ∧
      puts h = [7] ∧ ∃ (count bound : ℕ),
        (∀ fuel > bound, lfgCountFreelist fuel s.ctx = .ok (some count)) ∧
          {p | s.ctx.get p ≠ none}.ncard + (takes h).length = (puts h).length + 1 + count :=
  ⟨_, _, rfl, rfl, nodes_idle 1 (List.replicate 3 ((), .enqueue 7 2)) rfl fun _ => rfl⟩

end LfqThreads

end MixSim
