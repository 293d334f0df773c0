import MixSim.Adaptor.LfqRoles

/-!
# What the accesses do to the roles

One lemma for each access that changes a list or the role of a node: the exchanges of the two tails,
the links behind them, the compare-and-swap of the head, the frees. The accesses that only move a thread
(`Mem.walk`) or write a field that no list depends on (`Mem.put`) are done at once.
-/

namespace MixSim

namespace LfqThreads

open Execution

variable {α T : Type} {role : Ptr → Role T} {chain pool : List Ptr} {s : Threads T α}
  {t : T} {pc pc' : Pc α}

/-! ### What the roles say -/

theorem get_of_link {ctx : LfqCtx α} {a b : Ptr} (hl : link ctx a = some b) :
    ∃ nd, ctx.get a = some nd ∧ nd.next = b := Option.map_eq_some_iff.1 hl

theorem guard_tid {i : ℕ} {a : Ptr} (h : guard pc = some (i, a)) : tid pc = some i := by
  cases pc <;> cases h <;> rfl

theorem pop_locked {p : Ptr} (h : pop pc = some p) : locked pc = true := by
  cases pc with
  | freePool i ret pc => cases pc <;> first | rfl | cases h
  | _ => cases h

/-- Only the node that a thread holds or is about to take is found to be read. -/
theorem sure_cases {p : Ptr} (h : sure pc = some p) : own pc = some p ∨ pop pc = some p := by
  cases pc with
  | safeFree i ret lfn pc => cases pc <;> first | exact Or.inl h | cases h
  | freePool i ret pc => cases pc <;> first | exact Or.inr h | exact Or.inl h
  | _ => cases h

theorem Local.claim {ctx : LfqCtx α} {b : Ptr} (h : Local role ctx pc) (hb : LfqThreads.claim pc = some b) :
    (role b).Read ∧ Unread ctx b := by
  cases pc with
  | clearHP i a c =>
    cases hb
    exact h
  | loadData i a c =>
    cases hb
    exact h
  | setCanFree i a c ret =>
    cases hb
    exact h
  | _ => cases hb

theorem Local.sure {ctx : LfqCtx α} {p : Ptr} (h : Local role ctx pc)
    (hp : LfqThreads.sure pc = some p) : Sure ctx p := by
  cases pc with
  | safeFree i ret lfn pc =>
    cases pc with
    | scan j =>
      cases hp
      exact h
    | lock =>
      cases hp
      exact h
    | poison =>
      cases hp
      exact h
    | free =>
      cases hp
      exact h
    | _ => cases hp
  | freePool i ret pc =>
    cases pc with
    | testNext k q =>
      cases hp
      exact h.2
    | scan k q j =>
      cases hp
      exact h.2.1
    | loadNext k q =>
      cases hp
      exact h.2.1
    | storeHead k q b =>
      cases hp
      exact h.2.1
    | free k q =>
      cases hp
      exact h
    | _ => cases hp
  | _ => cases hp

/-- A thread that may take a node off the pool has found the first one. -/
theorem Local.pop {ctx : LfqCtx α} {p : Ptr} (h : Local role ctx pc) (hp : LfqThreads.pop pc = some p) :
    ctx.fph = p := by
  cases pc with
  | freePool i ret pc =>
    cases pc with
    | canFree k q =>
      cases hp
      exact h
    | testNext k q =>
      cases hp
      exact h.1
    | scan k q j =>
      cases hp
      exact h.1
    | loadNext k q =>
      cases hp
      exact h.1
    | storeHead k q b =>
      cases hp
      exact h.1
    | _ => cases hp
  | _ => cases hp

theorem update_role_iff {p q : Ptr} {r r' : Role T} (hr : r' ≠ r) (hp : role p ≠ r) :
    Function.update role p r' q = r ↔ role q = r := by
  by_cases hq : q = p
  · subst hq
    rw [Function.update_self]
    exact iff_of_false hr hp
  · rw [Function.update_of_ne hq]

namespace Mem

section Facts

variable (h : Mem role chain pool s)

include h

theorem get_some {a : Ptr} (ha : role a ≠ .unused) : ∃ nd, s.ctx.get a = some nd :=
  Option.ne_none_iff_exists'.1 fun hnone => ha ((h.unused a).2 hnone)

theorem read_get {a : Ptr} (ha : (role a).Read) : ∃ nd, s.ctx.get a = some nd :=
  h.get_some fun he => by rw [he] at ha; exact ha

theorem own_role {a : Ptr} (ha : own (s.pc t) = some a) : role a = .retired t := (h.retired t a).2 ha

theorem fresh_role {a : Ptr} (ha : LfqThreads.fresh (s.pc t) = some a) : role a = .fresh t :=
  (h.fresh t a).2 ha

theorem fph_role : role s.ctx.fph = .pooled := (h.pooled _).2 h.freePool.first_mem

theorem head_role : role s.ctx.head = .head := (h.head _).2 rfl

/-- A node of the queue is the head or waiting. -/
theorem chain_role {a : Ptr} (ha : a ∈ chain) : role a = .head ∨ role a = .waiting :=
  (h.queue.mem_iff.1 ha).imp (h.head a).2 (h.waiting a).2

theorem notMem_chain {a : Ptr} (hh : role a ≠ .head) (hw : role a ≠ .waiting) : a ∉ chain :=
  fun ha => (h.chain_role ha).elim hh hw

theorem notMem_pool {a : Ptr} (hp : role a ≠ .pooled) : a ∉ pool := fun ha => hp ((h.pooled a).2 ha)

theorem ne_null {a : Ptr} (ha : role a ≠ .unused) : a ≠ .null := by
  rintro rfl
  exact ha ((h.unused _).2 rfl)

/-- A thread finds a node wherever it looks for one. -/
theorem reads {p : Ptr} (hp : reads (s.pc t) = some p) : ∃ nd, s.ctx.get p = some nd := by
  have hlocal := h.threads t
  have hown : ∀ a, own (s.pc t) = some a → ∃ nd, s.ctx.get a = some nd := fun a ha =>
    h.get_some (by rw [h.own_role ha]; exact nofun)
  cases hpc : s.pc t with
  | linkTail a b =>
    rw [hpc] at hp
    cases hp
    obtain ⟨nd, hnd, -⟩ := get_of_link (h.queue.pending _ _ ⟨t, by rw [hpc]; rfl⟩).2
    exact ⟨nd, hnd⟩
  | loadNext i a =>
    rw [hpc] at hp hlocal
    cases hp
    exact h.read_get hlocal.2
  | loadData i a b =>
    rw [hpc] at hp hlocal
    cases hp
    exact h.read_get hlocal.1
  | setCanFree i a b ret =>
    rw [hpc] at hp hlocal
    cases hp
    exact h.read_get hlocal.1
  | safeFree i ret lfn pc =>
    rw [hpc] at hp hown
    cases pc with
    | link a =>
      cases hp
      obtain ⟨nd, hnd, -⟩ := get_of_link (h.freePool.pending _ _ ⟨t, by rw [hpc]; rfl⟩).2
      exact ⟨nd, hnd⟩
    | canFree => exact hown p hp
    | poison => exact hown p hp
    | free => exact hown p hp
    | clearNext => exact hown p hp
    | _ => cases hp
  | freePool i ret pc =>
    rw [hpc] at hp hown hlocal
    have hfph : s.ctx.fph = p → ∃ nd, s.ctx.get p = some nd := by
      rintro rfl
      exact h.get_some (by rw [h.fph_role]; exact nofun)
    cases pc with
    | canFree k q =>
      cases hp
      exact hfph hlocal
    | testNext k q =>
      cases hp
      exact hfph hlocal.1
    | loadNext k q =>
      cases hp
      exact hfph hlocal.1
    | free k q => exact hown p hp
    | _ => cases hp
  | _ =>
    rw [hpc] at hp
    cases hp

end Facts

end Mem

/-- What a thread holds that the others must respect is not more than before. -/
structure Same (pc pc' : Pc α) : Prop where
  fresh : fresh pc' = fresh pc
  own : own pc' = own pc
  pend : pend pc' = pend pc
  poolPend : poolPend pc' = poolPend pc
  claim : claim pc' = claim pc

theorem Apart.move {n : ℕ} {pcu : Pc α} (h : Apart n pc pcu) (h' : Apart n pcu pc)
    (hclaim : ∀ b, LfqThreads.claim pc' = some b → LfqThreads.claim pc = some b)
    (hpend : ∀ l, LfqThreads.pend pc' = some l → LfqThreads.pend pc = some l)
    (hpoolPend : ∀ l, LfqThreads.poolPend pc' = some l → LfqThreads.poolPend pc = some l)
    (hscan : ∀ a i j, passed n pc' = some (a, i) → guard pcu = some (j, a) → i ≤ j)
    (hguard : ∀ a i j, passed n pcu = some (a, i) → guard pc' = some (j, a) → i ≤ j) :
    Apart n pc' pcu ∧ Apart n pcu pc' where
  left := {
    claim := fun b hb => h.claim b (hclaim b hb)
    pend := fun l hl => h.pend l (hpend l hl)
    poolPend := fun l hl => h.poolPend l (hpoolPend l hl)
    scan := hscan }
  right := {
    claim := fun b hb hb' => h'.claim b hb (hclaim b hb')
    pend := fun l hl hl' => h'.pend l hl (hpend l hl')
    poolPend := fun l hl hl' => h'.poolPend l hl (hpoolPend l hl')
    scan := hguard }

theorem Apart.same {n : ℕ} {pcu : Pc α} (h : Apart n pc pcu) (h' : Apart n pcu pc) (hs : Same pc pc')
    (hscan : ∀ a i j, passed n pc' = some (a, i) → guard pcu = some (j, a) → i ≤ j)
    (hguard : ∀ a i j, passed n pcu = some (a, i) → guard pc' = some (j, a) → i ≤ j) :
    Apart n pc' pcu ∧ Apart n pcu pc' :=
  h.move h' (fun b hb => by rwa [← hs.claim]) (fun l hl => by rwa [← hs.pend])
    (fun l hl => by rwa [← hs.poolPend]) hscan hguard

theorem keep_update {β : Type} {f : Pc α → Option β} (hpc : s.pc t = pc) (hf : f pc' = f pc) (x : β) :
    (f pc' = some x ∨ ∃ u, u ≠ t ∧ f (s.pc u) = some x) ↔ ∃ u, f (s.pc u) = some x := by
  constructor
  · rintro (h | ⟨u, -, h⟩)
    · exact ⟨t, by rw [hpc, ← hf, h]⟩
    · exact ⟨u, h⟩
  · rintro ⟨u, h⟩
    by_cases hu : u = t
    · subst hu
      exact Or.inl (by rw [hf, ← hpc, h])
    · exact Or.inr ⟨u, hu, h⟩

theorem pend_update {f : Pc α → Option (Ptr × Ptr)} (hpc : s.pc t = pc) (hf : f pc' = f pc) (a b : Ptr) :
    (f pc' = some (a, b) ∨ ∃ u, u ≠ t ∧ f (s.pc u) = some (a, b)) ↔ ∃ u, f (s.pc u) = some (a, b) :=
  keep_update hpc hf (a, b)

/-- A node is still to be read by the same thread. -/
theorem Mem.read_keep (h : Mem role chain pool s) (hpc : s.pc t = pc)
    (hclaim : LfqThreads.claim pc' = LfqThreads.claim pc) {a : Ptr} {nd : LfqNode α}
    (ha : (role a).Read) (hnd : s.ctx.get a = some nd) :
    nd.canFree = true ∨ LfqThreads.claim pc' = some a ∨
      ∃ u, u ≠ t ∧ LfqThreads.claim (s.pc u) = some a :=
  (h.read a nd ha hnd).imp_right (keep_update hpc hclaim a).2

section Put

variable {p : Ptr} {nd nd' : LfqNode α} {f : Pc α → Option (Ptr × Ptr)} {first final : Ptr} {l : List Ptr}

/-- A list of nodes does not change with a node that is not in it, or with another field. -/
theorem linked_put (hl : SwapList.Linked .null (link s.ctx) (fun a b => ∃ u, f (s.pc u) = some (a, b))
    first final l) (hnd : s.ctx.get p = some nd) (hp : p ∉ l ∨ nd'.next = nd.next) (hpc : s.pc t = pc)
    (hf : f pc' = f pc) : SwapList.Linked .null (link (s.ctx.put p (some nd')))
      (fun a b => f pc' = some (a, b) ∨ ∃ u, u ≠ t ∧ f (s.pc u) = some (a, b)) first final l := by
  refine hl.congr (fun a ha => ?_) (pend_update hpc hf)
  by_cases hap : a = p
  · subst hap
    rw [link_of_get (LfqCtx.get_put_self hnd), link_of_get hnd, hp.resolve_left (not_not_intro ha)]
  · exact link_congr (LfqCtx.get_put_of_ne hap)

/-- The thread with a pending link writes it. -/
theorem linked_write {b : Ptr}
    (hl : SwapList.Linked .null (link s.ctx) (fun a b => ∃ u, f (s.pc u) = some (a, b)) first final l)
    (hnd : s.ctx.get p = some nd) (hnext : nd'.next = b) (hpc : s.pc t = pc)
    (hf : f pc = some (p, b)) (hf' : f pc' = none) (hother : ∀ u, u ≠ t → f (s.pc u) ≠ some (p, b)) :
    SwapList.Linked .null (link (s.ctx.put p (some nd')))
      (fun a b => f pc' = some (a, b) ∨ ∃ u, u ≠ t ∧ f (s.pc u) = some (a, b)) first final l := by
  have hmine : ∃ u, f (s.pc u) = some (p, b) := ⟨t, by rw [hpc, hf]⟩
  refine hl.write hmine ?_ (fun c _ hc => link_congr (LfqCtx.get_put_of_ne hc)) fun c d => ?_
  · rw [link_of_get (LfqCtx.get_put_self hnd), hnext]
  · constructor
    · rintro (h | ⟨u, hu, h⟩)
      · rw [hf'] at h
        cases h
      · refine ⟨⟨u, h⟩, ?_⟩
        rintro rfl
        -- a node has one neighbour, so this would be the same link
        have hd := hl.neighbour_unique (hl.pending c d ⟨u, h⟩).1 (hl.pending c b hmine).1
        exact hother u hu (hd ▸ h)
    · rintro ⟨⟨u, h⟩, hc⟩
      refine Or.inr ⟨u, ?_, h⟩
      rintro rfl
      rw [hpc, hf, Option.some.injEq, Prod.mk.injEq] at h
      exact hc h.1.symm

end Put

variable [DecidableEq T]

/-- A step that leaves the nodes alone. -/
theorem Mem.move (h : Mem role chain pool s) (hpc : s.pc t = pc) {ctx' : LfqCtx α}
    (hheap : ctx'.heap = s.ctx.heap) (hhead : ctx'.head = s.ctx.head) (htail : ctx'.tail = s.ctx.tail)
    (hfph : ctx'.fph = s.ctx.fph) (hfpt : ctx'.fpt = s.ctx.fpt)
    (hmax : ctx'.maxHpSize = s.ctx.maxHpSize)
    (hhp : ∀ u, u ≠ t → ∀ i, tid (s.pc u) = some i → ctx'.hp[i]? = s.ctx.hp[i]?) (hs : Same pc pc')
    (hlocal : Local role ctx' pc')
    (hscan : ∀ u, u ≠ t → ∀ a i j, passed s.ctx.maxHpSize pc' = some (a, i) →
      guard (s.pc u) = some (j, a) → i ≤ j)
    (hguard : ∀ u, u ≠ t → ∀ a i j, passed s.ctx.maxHpSize (s.pc u) = some (a, i) →
      guard pc' = some (j, a) → i ≤ j) :
    Mem role chain pool ⟨ctx', Function.update s.pc t pc'⟩ := by
  have hget : ∀ a, ctx'.get a = s.ctx.get a := LfqCtx.get_congr hheap
  refine h.change {
    queue := ?_
    freePool := ?_
    unused := fun a => by rw [h.unused, hget]
    fresh := fun a => by rw [h.fresh, hpc, hs.fresh]
    fresh_others := fun _ _ _ => Iff.rfl
    waiting := h.waiting
    head := fun a => by rw [h.head, hhead]
    retired := fun a => by rw [h.retired, hpc, hs.own]
    retired_others := fun _ _ _ => Iff.rfl
    pooled := h.pooled
    unread := fun a ha => (h.unread a ha).congr (hget a)
    read := fun a nd ha hnd => h.read_keep hpc hs.claim ha ((hget a).symm.trans hnd)
    thread := hlocal
    rely := fun u hu => rely_roles hheap (hhp u hu) (fun _ ha => ha) (fun _ _ ha => ha) fun _ _ => hfph
    maxHpSize := hmax
    apart := fun u hu => ?_ }
  · rw [hhead, htail]
    exact h.queue.congr (fun a _ => link_congr (hget a)) (pend_update hpc hs.pend)
  · rw [hfph, hfpt]
    exact h.freePool.congr (fun a _ => link_congr (hget a)) (pend_update hpc hs.poolPend)
  · have hapart := h.apart t u hu.symm
    have hapart' := h.apart u t hu
    rw [hpc] at hapart hapart'
    exact hapart.same hapart' hs (hscan u hu) (hguard u hu)

/-- A step that only moves on in the program. -/
theorem Mem.walk (h : Mem role chain pool s) (hpc : s.pc t = pc) (hs : Same pc pc')
    (hlocal : Local role s.ctx pc')
    (hscan : ∀ u, u ≠ t → ∀ a i j, passed s.ctx.maxHpSize pc' = some (a, i) →
      guard (s.pc u) = some (j, a) → i ≤ j)
    (hguard : ∀ u, u ≠ t → ∀ a i j, passed s.ctx.maxHpSize (s.pc u) = some (a, i) →
      guard pc' = some (j, a) → i ≤ j) :
    Mem role chain pool ⟨s.ctx, Function.update s.pc t pc'⟩ :=
  h.move hpc rfl rfl rfl rfl rfl rfl (fun _ _ _ _ => rfl) hs hlocal hscan hguard

/-! ### The steps that write to a node -/

theorem Mem.put (h : Mem role chain pool s) (hpc : s.pc t = pc) {p : Ptr} {nd nd' : LfqNode α}
    (hnd : s.ctx.get p = some nd) (hdata : nd'.data = nd.data)
    (hqueue : SwapList.Linked .null (link (s.ctx.put p (some nd')))
      (fun a b => pend pc' = some (a, b) ∨ ∃ u, u ≠ t ∧ pend (s.pc u) = some (a, b)) s.ctx.head
      s.ctx.tail chain)
    (hpool : SwapList.Linked .null (link (s.ctx.put p (some nd')))
      (fun a b => poolPend pc' = some (a, b) ∨ ∃ u, u ≠ t ∧ poolPend (s.pc u) = some (a, b)) s.ctx.fph
      s.ctx.fpt pool)
    (hfree : nd'.canFree = nd.canFree ∨
      (nd'.canFree = true ∧ (role p).Read ∧ claim pc = some p))
    (hfresh : ∀ u, role p ≠ .fresh u)
    (hnext : nd'.next = nd.next ∨ ((∀ u, u ≠ t → role p ≠ .retired u) ∧
      (nd.next = .null ∨ role p = .retired t)))
    (hs : LfqThreads.fresh pc' = LfqThreads.fresh pc) (hs' : own pc' = own pc)
    (hclaim : claim pc' = claim pc ∨ (nd'.canFree = true ∧ claim pc = some p))
    (hlocal : Local role (s.ctx.put p (some nd')) pc')
    (hapart : ∀ u, u ≠ t → Apart s.ctx.maxHpSize pc' (s.pc u) ∧ Apart s.ctx.maxHpSize (s.pc u) pc') :
    Mem role chain pool ⟨s.ctx.put p (some nd'), Function.update s.pc t pc'⟩ := by
  have hself : (s.ctx.put p (some nd')).get p = some nd' := LfqCtx.get_put_self hnd
  have hother : ∀ q, q ≠ p → (s.ctx.put p (some nd')).get q = s.ctx.get q :=
    fun q hq => LfqCtx.get_put_of_ne hq
  refine h.change {
    queue := by rwa [LfqCtx.put_head, LfqCtx.put_tail]
    freePool := by rwa [LfqCtx.put_fph, LfqCtx.put_fpt]
    unused := fun a => ?_
    fresh := fun a => by rw [h.fresh, hpc, hs]
    fresh_others := fun _ _ _ => Iff.rfl
    waiting := h.waiting
    head := fun a => by rw [h.head, LfqCtx.put_head]
    retired := fun a => by rw [h.retired, hpc, hs']
    retired_others := fun _ _ _ => Iff.rfl
    pooled := h.pooled
    unread := fun a ha => ?_
    read := fun a m ha hm => ?_
    thread := hlocal
    rely := fun u hu => rely_put hnd hdata ?_ ?_ ?_
    maxHpSize := LfqCtx.put_maxHpSize _ _ _
    apart := hapart }
  · rw [h.unused]
    by_cases hap : a = p
    · subst hap
      simp [hself, hnd]
    · rw [hother a hap]
  · by_cases hap : a = p
    · subst hap
      obtain ⟨m, hm, hcan, hsome⟩ := h.unread a ha
      rw [hnd] at hm
      cases hm
      rcases hfree with hfree | ⟨-, hread, -⟩
      · exact ⟨nd', hself, hfree.trans hcan, by rwa [hdata]⟩
      · rw [(h.waiting a).2 ha] at hread
        exact hread.elim
    · exact (h.unread a ha).congr (hother a hap)
  · by_cases hap : a = p
    · subst hap
      rw [hself, Option.some.injEq] at hm
      subst hm
      rcases hclaim with hclaim | ⟨hcan, -⟩
      · rcases hfree with hfree | ⟨hfree, -⟩
        · rw [hfree]
          exact h.read_keep hpc hclaim ha hnd
        · exact Or.inl hfree
      · exact Or.inl hcan
    · rw [hother a hap] at hm
      rcases hclaim with hclaim | ⟨-, hclaim⟩
      · exact h.read_keep hpc hclaim ha hm
      · refine (h.read a m ha hm).imp_right fun ⟨u, hu⟩ => Or.inr ⟨u, ?_, hu⟩
        rintro rfl
        rw [hpc, hclaim, Option.some.injEq] at hu
        exact hap hu.symm
  · refine hfree.imp_right fun ⟨hcan, _, hclaim⟩ => ⟨hcan, ?_⟩
    have hapart := h.apart t u hu.symm
    rw [hpc] at hapart
    exact hapart.claim p hclaim
  · exact fun hu' => hfresh u (h.fresh_role hu')
  · refine hnext.imp_right fun ⟨hret, hor⟩ => ⟨fun hu' => hret u hu (h.own_role hu'), ?_⟩
    refine hor.imp_right fun hown => ⟨?_, fun hpop => ?_⟩
    · rw [hown]
      exact nofun
    · have hfph := h.fph_role
      rw [(h.threads u).pop hpop, hown] at hfph
      cases hfph

namespace Mem

section Writes

variable (h : Mem role chain pool s)

include h

/-- `old_tail->next = insert_node` -/
theorem linkTail {a n : Ptr} (hpc : s.pc t = .linkTail a n) {nd : LfqNode α}
    (hnd : s.ctx.get a = some nd) :
    Mem role chain pool ⟨s.ctx.put a (some { nd with next := n }), Function.update s.pc t .idle⟩ := by
  obtain ⟨hin, hnull⟩ := h.queue.pending a n ⟨t, by rw [hpc]; rfl⟩
  have hrole := h.chain_role (hin.subset List.mem_cons_self)
  rw [link_of_get hnd, Option.some.injEq] at hnull
  have hpool : a ∉ pool := by
    rw [← h.pooled]
    rcases hrole with hrole | hrole <;> rw [hrole] <;> exact nofun
  refine h.put hpc hnd rfl (linked_write h.queue hnd rfl hpc rfl rfl fun u hu => ?_)
    (linked_put h.freePool hnd (Or.inl hpool) hpc rfl) (Or.inl rfl) (fun u => ?_)
    (Or.inr ⟨fun u _ => ?_, Or.inl hnull⟩) rfl rfl (Or.inl rfl) trivial fun u hu => ?_
  · have hapart := h.apart t u hu.symm
    rw [hpc] at hapart
    exact hapart.pend _ rfl
  · rcases hrole with hrole | hrole <;> rw [hrole] <;> exact nofun
  · rcases hrole with hrole | hrole <;> rw [hrole] <;> exact nofun
  · exact (h.apart t u hu.symm).move (h.apart u t hu) nofun nofun nofun nofun nofun

/-- `new_head->can_free = true` -/
theorem setCanFree {i : ℕ} {a b : Ptr} {ret : Dequeued α} (hpc : s.pc t = .setCanFree i a b ret)
    {nd : LfqNode α} (hnd : s.ctx.get b = some nd) :
    Mem role chain pool ⟨s.ctx.put b (some { nd with canFree := true }),
      Function.update s.pc t (.safeFree i ret a .canFree)⟩ := by
  have hlocal := h.threads t
  rw [hpc] at hlocal
  have hread : (role b).Read := hlocal.1
  refine h.put hpc hnd rfl (linked_put h.queue hnd (Or.inr rfl) hpc rfl)
    (linked_put h.freePool hnd (Or.inr rfl) hpc rfl) (Or.inr ⟨rfl, hread, rfl⟩) (fun u he => ?_)
    (Or.inl rfl) rfl rfl (Or.inr ⟨rfl, rfl⟩) trivial fun u hu => ?_
  · rw [he] at hread
    exact hread
  · exact (h.apart t u hu.symm).move (h.apart u t hu) nofun nofun nofun nofun nofun

/-- A thread writes to the link of the node that it has taken off. -/
theorem writeOwn {i : ℕ} {a next : Ptr} {ret : Dequeued α} {pc pc' : SafeFreePc}
    (hpc : s.pc t = .safeFree i ret a pc) {nd : LfqNode α} (hnd : s.ctx.get a = some nd)
    (hown : own (.safeFree i ret a pc : Pc α) = some a)
    (hown' : own (.safeFree i ret a pc' : Pc α) = some a)
    (hlocal : Local role (s.ctx.put a (some { nd with next := next })) (.safeFree i ret a pc'))
    (hscan : ∀ p j, passed s.ctx.maxHpSize (.safeFree i ret a pc' : Pc α) = some (p, j) →
      passed s.ctx.maxHpSize (.safeFree i ret a pc : Pc α) = some (p, j)) :
    Mem role chain pool ⟨s.ctx.put a (some { nd with next := next }),
      Function.update s.pc t (.safeFree i ret a pc')⟩ := by
  have hrole : role a = .retired t := h.own_role (by rw [hpc, hown])
  have hqueue : a ∉ chain := by
    intro ha
    have hrole' := h.chain_role ha
    rw [hrole] at hrole'
    rcases hrole' with hrole' | hrole' <;> cases hrole'
  have hpool : a ∉ pool := by
    rw [← h.pooled, hrole]
    exact nofun
  have hlink : ∀ pc : SafeFreePc, own (.safeFree i ret a pc : Pc α) = some a →
      LfqThreads.poolPend (.safeFree i ret a pc : Pc α) = none := by
    rintro (_ | _ | _ | _ | _ | _ | _ | _ | _) hown <;> first | rfl | cases hown
  refine h.put hpc hnd rfl (linked_put h.queue hnd (Or.inl hqueue) hpc rfl)
    (linked_put h.freePool hnd (Or.inl hpool) hpc ?_) (Or.inl rfl) (fun u => ?_)
    (Or.inr ⟨fun u hu he => ?_, Or.inr hrole⟩) rfl (hown'.trans hown.symm) (Or.inl rfl) hlocal fun u hu => ?_
  · rw [hlink pc hown, hlink pc' hown']
  · rw [hrole]
    exact nofun
  · rw [hrole] at he
    cases he
    exact hu rfl
  · have hapart := h.apart t u hu.symm
    rw [hpc] at hapart
    refine hapart.move (by have := h.apart u t hu; rwa [hpc] at this) nofun nofun ?_ ?_ nofun
    · rw [hlink pc' hown']
      exact nofun
    · exact fun p k j hp hj => hapart.scan p k j (hscan p k hp) hj

/-- `old_tail->free_next = lfn` -/
theorem linkPool {i : ℕ} {a b : Ptr} {ret : Dequeued α} (hpc : s.pc t = .safeFree i ret b (.link a))
    {nd : LfqNode α} (hnd : s.ctx.get a = some nd) :
    Mem role chain pool ⟨s.ctx.put a (some { nd with next := b }),
      Function.update s.pc t (.freePool i ret .lock)⟩ := by
  obtain ⟨hin, hnull⟩ := h.freePool.pending a b ⟨t, by rw [hpc]; rfl⟩
  have hrole : role a = .pooled := (h.pooled a).2 (hin.subset List.mem_cons_self)
  rw [link_of_get hnd, Option.some.injEq] at hnull
  have hqueue : a ∉ chain := by
    intro ha
    have hrole' := h.chain_role ha
    rw [hrole] at hrole'
    rcases hrole' with hrole' | hrole' <;> cases hrole'
  refine h.put hpc hnd rfl (linked_put h.queue hnd (Or.inl hqueue) hpc rfl)
    (linked_write h.freePool hnd rfl hpc rfl rfl fun u hu => ?_) (Or.inl rfl) (fun u => ?_)
    (Or.inr ⟨fun u _ => ?_, Or.inl hnull⟩) rfl rfl (Or.inl rfl) trivial fun u hu => ?_
  · have hapart := h.apart t u hu.symm
    rw [hpc] at hapart
    exact hapart.poolPend _ rfl
  · rw [hrole]
    exact nofun
  · rw [hrole]
    exact nofun
  · exact (h.apart t u hu.symm).move (h.apart u t hu) nofun nofun nofun nofun nofun

end Writes

end Mem

/-! ### The steps that give a node another role -/

namespace Mem

section Roles

variable (h : Mem role chain pool s)

include h

/-- `calloc` -/
theorem alloc {x : α} {n : ℕ} (hpc : s.pc t = .idle) (hn : s.ctx.get (.node n) = none) :
    Mem (Function.update role (.node n) (.fresh t)) chain pool
      ⟨s.ctx.put (.node n) (some ⟨some x, .null, false⟩),
        Function.update s.pc t (.exchangeTail x (.node n))⟩ := by
  have hrole : role (.node n) = .unused := (h.unused _).2 hn
  have hself : (s.ctx.put (.node n) (some ⟨some x, .null, false⟩)).get (.node n) =
      some ⟨some x, .null, false⟩ := LfqCtx.get_put_node n
  have hother : ∀ q, q ≠ .node n →
      (s.ctx.put (.node n) (some ⟨some x, .null, false⟩)).get q = s.ctx.get q :=
    fun q hq => LfqCtx.get_put_of_ne hq
  have hqueue : Ptr.node n ∉ chain := h.notMem_chain (by rw [hrole]; exact nofun) (by rw [hrole]; exact nofun)
  have hpool : Ptr.node n ∉ pool := h.notMem_pool (by rw [hrole]; exact nofun)
  have hne : ∀ r : Role T, r ≠ .unused → (∀ u, r ≠ .fresh u) → ∀ a,
      Function.update role (.node n) (.fresh t) a = r ↔ role a = r := fun r hr hr' a =>
    update_role_iff (hr' t).symm (by rw [hrole]; exact hr.symm)
  refine h.change {
    queue := ?_
    freePool := ?_
    unused := fun a => ?_
    fresh := fun a => ?_
    fresh_others := fun u hu a => update_role_iff (fun he => hu (by cases he; rfl)) (by rw [hrole]; exact nofun)
    waiting := fun a => (hne .waiting nofun nofun a).trans (h.waiting a)
    head := fun a => by rw [hne .head nofun nofun a, h.head, LfqCtx.put_head]
    retired := fun a => by rw [hne (.retired t) nofun nofun a, h.retired, hpc]; rfl
    retired_others := fun u _ a => hne (.retired u) nofun nofun a
    pooled := fun a => (hne .pooled nofun nofun a).trans (h.pooled a)
    unread := fun a ha => (h.unread a ha).congr (hother a fun he => hqueue (he ▸ List.mem_of_mem_tail ha))
    read := fun a m ha hm => ?_
    thread := hself
    rely := fun u hu => ?_
    maxHpSize := rfl
    apart := fun u hu => (h.apart t u hu.symm).move (h.apart u t hu) nofun nofun nofun nofun nofun }
  · exact h.queue.congr (fun a ha => link_congr (hother a fun he => hqueue (he ▸ ha)))
      (pend_update hpc rfl)
  · exact h.freePool.congr (fun a ha => link_congr (hother a fun he => hpool (he ▸ ha)))
      (pend_update hpc rfl)
  · by_cases ha : a = .node n
    · subst ha
      rw [Function.update_self, hself]
      exact iff_of_false nofun nofun
    · rw [Function.update_of_ne ha, h.unused, hother a ha]
  · by_cases ha : a = .node n
    · subst ha
      rw [Function.update_self]
      exact iff_of_true rfl rfl
    · rw [Function.update_of_ne ha, h.fresh, hpc]
      exact iff_of_false nofun fun he => ha (Option.some.inj he).symm
  · have han : a ≠ .node n := by
      rintro rfl
      rw [Function.update_self] at ha
      exact ha
    rw [Function.update_of_ne han] at ha
    rw [hother a han] at hm
    exact h.read_keep hpc rfl ha hm
  · refine rely_swap (fun a ha => Function.update_of_ne ha _ _) hother rfl rfl ?_ ?_ ?_ ?_ ?_ ?_
    · intro he
      have hrole' := h.fresh_role he
      rw [hrole] at hrole'
      cases hrole'
    · intro i _
      rw [hrole]
      exact id
    · exact fun _ hun => hun.ne_none hn
    · exact fun _ hs => hs.ne_none hn
    · intro he
      have hrole' := h.own_role he
      rw [hrole] at hrole'
      cases hrole'
    · intro _ he
      have hrole' := h.fph_role
      rw [he, hrole] at hrole'
      cases hrole'

/-- `XCHG(&ctx->tail, insert_node)` -/
theorem exchangeTail {x : α} {n : Ptr} (hpc : s.pc t = .exchangeTail x n) :
    Mem (Function.update role n .waiting) (chain ++ [n]) pool
      ⟨{ s.ctx with tail := n }, Function.update s.pc t (.linkTail s.ctx.tail n)⟩ := by
  have hrole : role n = .fresh t := h.fresh_role (by rw [hpc]; rfl)
  have hget : s.ctx.get n = some ⟨some x, .null, false⟩ := by
    have hlocal := h.threads t
    rwa [hpc] at hlocal
  have hqueue : n ∉ chain := h.notMem_chain (by rw [hrole]; exact nofun) (by rw [hrole]; exact nofun)
  have hsame : ∀ a, ({ s.ctx with tail := n } : LfqCtx α).get a = s.ctx.get a := LfqCtx.get_congr rfl
  have htail : (chain ++ [n]).tail = chain.tail ++ [n] := by
    obtain ⟨rest, hrest⟩ := h.queue.eq_cons
    rw [hrest]
    rfl
  have hne : ∀ r : Role T, r ≠ .waiting → r ≠ .fresh t → ∀ a,
      Function.update role n .waiting a = r ↔ role a = r := fun r hr hr' a =>
    update_role_iff hr.symm (by rw [hrole]; exact hr'.symm)
  refine h.change {
    queue := ?_
    freePool := h.freePool.congr (fun a _ => link_congr (hsame a)) (pend_update hpc rfl)
    unused := fun a => by rw [hne .unused nofun nofun a, h.unused, hsame]
    fresh := fun a => ?_
    fresh_others := fun u hu a => hne (.fresh u) nofun (fun he => hu (by cases he; rfl)) a
    waiting := fun a => ?_
    head := fun a => by rw [hne .head nofun nofun a, h.head]
    retired := fun a => by rw [hne (.retired t) nofun nofun a, h.retired, hpc]; rfl
    retired_others := fun u _ a => hne (.retired u) nofun nofun a
    pooled := fun a => by rw [hne .pooled nofun nofun a, h.pooled]
    unread := fun a ha => ?_
    read := fun a m ha hm => ?_
    thread := trivial
    rely := fun u hu => rely_roles rfl (fun _ _ => rfl) (fun a ha => ?_) (fun a _ he => ?_) fun _ _ => rfl
    maxHpSize := rfl
    apart := fun u hu => ?_ }
  · refine SwapList.Linked.exchange (h.queue.congr (fun a _ => link_congr (hsame a)) fun _ _ => Iff.rfl)
      hqueue (h.ne_null (by rw [hrole]; exact nofun)) (link_of_get ((hsame n).trans hget)) fun a b => ?_
    constructor
    · rintro (he | ⟨u, -, he⟩)
      · cases he
        exact Or.inr ⟨rfl, rfl⟩
      · exact Or.inl ⟨u, he⟩
    · rintro (⟨u, he⟩ | ⟨rfl, rfl⟩)
      · refine Or.inr ⟨u, ?_, he⟩
        rintro rfl
        rw [hpc] at he
        cases he
      · exact Or.inl rfl
  · by_cases ha : a = n
    · subst ha
      rw [Function.update_self]
      exact iff_of_false nofun nofun
    · rw [Function.update_of_ne ha, h.fresh, hpc]
      exact iff_of_false (fun he => ha (Option.some.inj he).symm) nofun
  · rw [htail, List.mem_append, List.mem_singleton, ← h.waiting]
    by_cases ha : a = n
    · subst ha
      rw [Function.update_self]
      exact iff_of_true rfl (Or.inr rfl)
    · rw [Function.update_of_ne ha, or_iff_left ha]
  · rw [htail, List.mem_append, List.mem_singleton] at ha
    rcases ha with ha | rfl
    · exact (h.unread a ha).congr (hsame a)
    · exact ⟨_, (hsame a).trans hget, rfl, rfl⟩
  · have han : a ≠ n := by
      rintro rfl
      rw [Function.update_self] at ha
      exact ha
    rw [Function.update_of_ne han] at ha
    exact h.read_keep hpc rfl ha ((hsame a).symm.trans hm)
  · have han : a ≠ n := by
      rintro rfl
      rw [hrole] at ha
      exact ha
    rwa [Function.update_of_ne han]
  · exact (hne .head nofun nofun a).1 he
  · -- a link that is pending leads to a node of the queue
    have hnew : ∀ a, LfqThreads.pend (s.pc u) ≠ some (a, n) := fun a he =>
      hqueue ((h.queue.pending a n ⟨u, he⟩).1.subset (by simp))
    exact ⟨⟨nofun, fun l hl he => hnew s.ctx.tail (he.trans hl.symm), nofun, nofun⟩,
      ⟨nofun, fun l hl he => hnew s.ctx.tail (hl.trans he.symm), nofun, nofun⟩⟩

/-- `CAS(&ctx->head, old_head, new_head)` -/
theorem casHead {i : ℕ} {b : Ptr} (hpc : s.pc t = .casHead i s.ctx.head b) :
    ∃ rest, chain = s.ctx.head :: b :: rest ∧
      Mem (Function.update (Function.update role s.ctx.head (.retired t)) b .head) (b :: rest) pool
        ⟨{ s.ctx with head := b }, Function.update s.pc t (.clearHP i s.ctx.head b)⟩ := by
  have hlocal := h.threads t
  rw [hpc] at hlocal
  obtain ⟨-, -, hlink, hb⟩ := hlocal
  obtain ⟨rest, hchain, hqueue⟩ := h.queue.pop (hlink h.head_role) hb
  refine ⟨rest, hchain, ?_⟩
  have hsame : ∀ a, ({ s.ctx with head := b } : LfqCtx α).get a = s.ctx.get a := LfqCtx.get_congr rfl
  have hbtail : b ∈ chain.tail := by
    rw [hchain]
    exact List.mem_cons_self
  have hrole : role b = .waiting := (h.waiting b).2 hbtail
  have hbh : b ≠ s.ctx.head := by
    rintro rfl
    rw [h.head_role] at hrole
    cases hrole
  have hnd := h.queue.nodup
  rw [hchain, List.nodup_cons, List.nodup_cons] at hnd
  have hne : ∀ r : Role T, r ≠ .waiting → r ≠ .head → r ≠ .retired t → ∀ a,
      Function.update (Function.update role s.ctx.head (.retired t)) b .head a = r ↔ role a = r := by
    intro r hw hh ht a
    rw [update_role_iff hh.symm (by rw [Function.update_of_ne hbh, hrole]; exact hw.symm),
      update_role_iff ht.symm (by rw [h.head_role]; exact hh.symm)]
  have hother : ∀ a, a ≠ b → a ≠ s.ctx.head →
      Function.update (Function.update role s.ctx.head (.retired t)) b .head a = role a := by
    intro a hab hah
    rw [Function.update_of_ne hab, Function.update_of_ne hah]
  have hhead : Function.update (Function.update role s.ctx.head (.retired t)) b .head s.ctx.head =
      .retired t := by rw [Function.update_of_ne hbh.symm, Function.update_self]
  refine h.change {
    queue := hqueue.congr (fun a _ => link_congr (hsame a)) (pend_update hpc rfl)
    freePool := h.freePool.congr (fun a _ => link_congr (hsame a)) (pend_update hpc rfl)
    unused := fun a => by rw [hne .unused nofun nofun nofun a, h.unused, hsame]
    fresh := fun a => by rw [hne (.fresh t) nofun nofun nofun a, h.fresh, hpc]; rfl
    fresh_others := fun u _ a => hne (.fresh u) nofun nofun nofun a
    waiting := fun a => ?_
    head := fun a => ?_
    retired := fun a => ?_
    retired_others := fun u hu a => hne (.retired u) nofun nofun (fun he => hu (by cases he; rfl)) a
    pooled := fun a => by rw [hne .pooled nofun nofun nofun a, h.pooled]
    unread := fun a ha => (h.unread a (by rw [hchain]; exact List.mem_cons_of_mem _ ha)).congr (hsame a)
    read := fun a m ha hm => ?_
    thread := ⟨by rw [Function.update_self]; trivial, (h.unread b hbtail).congr (hsame b)⟩
    rely := fun u hu => rely_roles rfl (fun _ _ => rfl) (fun a ha => ?_) (fun a ha he => ?_) fun _ _ => rfl
    maxHpSize := rfl
    apart := fun u hu => ?_ }
  · rw [List.tail_cons]
    by_cases hab : a = b
    · subst hab
      rw [Function.update_self]
      exact iff_of_false nofun hnd.2.1
    · by_cases hah : a = s.ctx.head
      · subst hah
        rw [hhead]
        exact iff_of_false nofun fun hmem => hnd.1 (List.mem_cons_of_mem _ hmem)
      · rw [hother a hab hah, h.waiting, hchain, List.tail_cons, List.mem_cons, or_iff_right hab]
  · by_cases hab : a = b
    · subst hab
      rw [Function.update_self]
      exact iff_of_true rfl rfl
    · by_cases hah : a = s.ctx.head
      · subst hah
        rw [hhead]
        exact iff_of_false nofun hab
      · rw [hother a hab hah, h.head]
        exact iff_of_false hah hab
  · by_cases hab : a = b
    · subst hab
      rw [Function.update_self]
      exact iff_of_false nofun fun he => hbh (Option.some.inj he).symm
    · by_cases hah : a = s.ctx.head
      · subst hah
        rw [hhead]
        exact iff_of_true rfl rfl
      · rw [hother a hab hah, h.retired, hpc]
        exact iff_of_false nofun fun he => hah (Option.some.inj he).symm
  · by_cases hab : a = b
    · exact Or.inr (Or.inl (by rw [hab]; rfl))
    · have hread : (role a).Read := by
        by_cases hah : a = s.ctx.head
        · rw [hah, h.head_role]
          trivial
        · rwa [hother a hab hah] at ha
      refine (h.read a m hread ((hsame a).symm.trans hm)).imp_right fun ⟨u, hu⟩ => Or.inr ⟨u, ?_, hu⟩
      rintro rfl
      rw [hpc] at hu
      cases hu
  · by_cases hab : a = b
    · subst hab
      rw [Function.update_self]
      trivial
    · by_cases hah : a = s.ctx.head
      · subst hah
        rw [hhead]
        trivial
      · rwa [hother a hab hah]
  · by_cases hab : a = b
    · subst hab
      rw [hrole] at ha
      exact ha.elim
    · by_cases hah : a = s.ctx.head
      · rw [hah, hhead] at he
        cases he
      · rwa [hother a hab hah] at he
  · -- nobody else is about to read the item of a node that waits
    have hclaim : claim (s.pc u) ≠ some b := fun he => by
      have hread := ((h.threads u).claim he).1
      rw [hrole] at hread
      exact hread
    exact ⟨⟨fun c hc he => hclaim (he.trans hc.symm), nofun, nofun, nofun⟩,
      ⟨fun c hc he => hclaim (hc.trans he.symm), nofun, nofun, nofun⟩⟩

/-- `free(p)` -/
theorem free (hslots : Slots s) {a : Ptr} (hpc : s.pc t = pc) (hown : own pc = some a)
    (hsure : sure pc = some a) (hscan : passed s.ctx.maxHpSize pc = some (a, s.ctx.maxHpSize))
    (hpend : LfqThreads.pend pc' = LfqThreads.pend pc)
    (hpoolPend : LfqThreads.poolPend pc' = LfqThreads.poolPend pc)
    (hfresh' : LfqThreads.fresh pc' = LfqThreads.fresh pc) (hown' : own pc' = none)
    (hclaim' : claim pc' = claim pc) (hguard' : guard pc' = none)
    (hscan' : passed s.ctx.maxHpSize pc' = none)
    (hlocal : Local (Function.update role a .unused) (s.ctx.put a none) pc') :
    Mem (Function.update role a .unused) chain pool
      ⟨s.ctx.put a none, Function.update s.pc t pc'⟩ := by
  have hrole : role a = .retired t := h.own_role (by rw [hpc, hown])
  have hS : Sure s.ctx a := by
    have hlocal := h.threads t
    rw [hpc] at hlocal
    exact hlocal.sure hsure
  obtain ⟨nd, hnd, -⟩ := id hS
  have hself : (s.ctx.put a none).get a = none := LfqCtx.get_put_self hnd
  have hother : ∀ q, q ≠ a → (s.ctx.put a none).get q = s.ctx.get q :=
    fun q hq => LfqCtx.get_put_of_ne hq
  have hqueue : a ∉ chain := h.notMem_chain (by rw [hrole]; exact nofun) (by rw [hrole]; exact nofun)
  have hpool : a ∉ pool := h.notMem_pool (by rw [hrole]; exact nofun)
  have hne : ∀ r : Role T, r ≠ .unused → r ≠ .retired t → ∀ q,
      Function.update role a .unused q = r ↔ role q = r := fun r hr hr' q =>
    update_role_iff hr.symm (by rw [hrole]; exact hr'.symm)
  refine h.change {
    queue := ?_
    freePool := ?_
    unused := fun q => ?_
    fresh := fun q => by rw [hne (.fresh t) nofun nofun q, h.fresh, hpc, hfresh']
    fresh_others := fun u _ q => hne (.fresh u) nofun nofun q
    waiting := fun q => by rw [hne .waiting nofun nofun q, h.waiting]
    head := fun q => by rw [hne .head nofun nofun q, h.head, LfqCtx.put_head]
    retired := fun q => ?_
    retired_others := fun u hu q => hne (.retired u) nofun (fun he => hu (by cases he; rfl)) q
    pooled := fun q => by rw [hne .pooled nofun nofun q, h.pooled]
    unread := fun q hq => (h.unread q hq).congr
      (hother q fun he => hqueue (he ▸ List.mem_of_mem_tail hq))
    read := fun q m hq hm => ?_
    thread := hlocal
    rely := fun u hu => ?_
    maxHpSize := LfqCtx.put_maxHpSize _ _ _
    apart := fun u hu => ?_ }
  · rw [LfqCtx.put_head, LfqCtx.put_tail]
    exact h.queue.congr (fun q hq => link_congr (hother q fun he => hqueue (he ▸ hq)))
      (pend_update hpc hpend)
  · rw [LfqCtx.put_fph, LfqCtx.put_fpt]
    exact h.freePool.congr (fun q hq => link_congr (hother q fun he => hpool (he ▸ hq)))
      (pend_update hpc hpoolPend)
  · by_cases hqa : q = a
    · subst hqa
      rw [Function.update_self]
      exact iff_of_true rfl hself
    · rw [Function.update_of_ne hqa, h.unused, hother q hqa]
  · rw [hown']
    by_cases hqa : q = a
    · subst hqa
      rw [Function.update_self]
      exact iff_of_false nofun nofun
    · rw [Function.update_of_ne hqa, h.retired, hpc, hown]
      exact iff_of_false (fun he => hqa (Option.some.inj he).symm) nofun
  · have hqa : q ≠ a := by
      rintro rfl
      rw [Function.update_self] at hq
      exact hq
    rw [Function.update_of_ne hqa] at hq
    rw [hother q hqa] at hm
    exact h.read_keep hpc hclaim' hq hm
  · refine rely_swap (fun q hq => Function.update_of_ne hq _ _) hother (LfqCtx.put_hp _ _ _)
      (LfqCtx.put_fph _ _ _) ?_ ?_ ?_ ?_ ?_ ?_
    · intro he
      have hrole' := h.fresh_role he
      rw [hrole] at hrole'
      cases hrole'
    · -- a hazard pointer on the node would have been seen
      intro j hj _
      have hapart := h.apart t u hu.symm
      rw [hpc] at hapart
      have hle := hapart.scan a _ j hscan hj
      have hlt := (List.getElem?_eq_some_iff.1 (hslots.held u j (guard_tid hj))).1
      rw [hslots.tidMap_length] at hlt
      omega
    · exact fun _ hun => hS.not_unread hun
    · intro he _
      rcases sure_cases he with he | he
      · have hrole' := h.own_role he
        rw [hrole] at hrole'
        cases hrole'
        exact hu rfl
      · have hrole' := h.fph_role
        rw [(h.threads u).pop he, hrole] at hrole'
        cases hrole'
    · intro he
      have hrole' := h.own_role he
      rw [hrole] at hrole'
      cases hrole'
      exact hu rfl
    · intro _ he
      have hrole' := h.fph_role
      rw [he, hrole] at hrole'
      cases hrole'
  · have hapart := h.apart t u hu.symm
    have hapart' := h.apart u t hu
    rw [hpc] at hapart hapart'
    refine hapart.move hapart' (fun b hb => by rwa [← hclaim']) (fun l hl => by rwa [← hpend])
      (fun l hl => by rwa [← hpoolPend]) ?_ ?_
    · rw [hscan']
      exact nofun
    · rw [hguard']
      exact nofun

/-- `XCHG(&ctx->fpt, lfn)` -/
theorem exchangePool {i : ℕ} {a : Ptr} {ret : Dequeued α} (hpc : s.pc t = .safeFree i ret a .exchange) :
    Mem (Function.update role a .pooled) chain (pool ++ [a])
      ⟨{ s.ctx with fpt := a }, Function.update s.pc t (.safeFree i ret a (.link s.ctx.fpt))⟩ := by
  have hrole : role a = .retired t := h.own_role (by rw [hpc]; rfl)
  have hlink : link s.ctx a = some .null := by
    have hlocal := h.threads t
    rwa [hpc] at hlocal
  have hpool : a ∉ pool := h.notMem_pool (by rw [hrole]; exact nofun)
  have hsame : ∀ q, ({ s.ctx with fpt := a } : LfqCtx α).get q = s.ctx.get q := LfqCtx.get_congr rfl
  have hne : ∀ r : Role T, r ≠ .pooled → r ≠ .retired t → ∀ q,
      Function.update role a .pooled q = r ↔ role q = r := fun r hr hr' q =>
    update_role_iff hr.symm (by rw [hrole]; exact hr'.symm)
  have hread : ∀ q, (Function.update role a .pooled q).Read → (role q).Read := by
    intro q hq
    by_cases hqa : q = a
    · rw [hqa, hrole]
      trivial
    · rwa [Function.update_of_ne hqa] at hq
  refine h.change {
    queue := h.queue.congr (fun q _ => link_congr (hsame q)) (pend_update hpc rfl)
    freePool := ?_
    unused := fun q => by rw [hne .unused nofun nofun q, h.unused, hsame]
    fresh := fun q => by rw [hne (.fresh t) nofun nofun q, h.fresh, hpc]; rfl
    fresh_others := fun u _ q => hne (.fresh u) nofun nofun q
    waiting := fun q => by rw [hne .waiting nofun nofun q, h.waiting]
    head := fun q => by rw [hne .head nofun nofun q, h.head]
    retired := fun q => ?_
    retired_others := fun u hu q => hne (.retired u) nofun (fun he => hu (by cases he; rfl)) q
    pooled := fun q => ?_
    unread := fun q hq => (h.unread q hq).congr (hsame q)
    read := fun q m hq hm => h.read_keep hpc rfl (hread q hq) ((hsame q).symm.trans hm)
    thread := trivial
    rely := fun u hu => rely_roles rfl (fun _ _ => rfl) (fun q hq => ?_) (fun q _ he => ?_) fun _ _ => rfl
    maxHpSize := rfl
    apart := fun u hu => ?_ }
  · refine SwapList.Linked.exchange
      (h.freePool.congr (fun q _ => link_congr (hsame q)) fun _ _ => Iff.rfl)
      hpool (h.ne_null (by rw [hrole]; exact nofun)) ((link_congr (hsame a)).trans hlink) fun c d => ?_
    constructor
    · rintro (he | ⟨u, -, he⟩)
      · cases he
        exact Or.inr ⟨rfl, rfl⟩
      · exact Or.inl ⟨u, he⟩
    · rintro (⟨u, he⟩ | ⟨rfl, rfl⟩)
      · refine Or.inr ⟨u, ?_, he⟩
        rintro rfl
        rw [hpc] at he
        cases he
      · exact Or.inl rfl
  · by_cases hqa : q = a
    · subst hqa
      rw [Function.update_self]
      exact iff_of_false nofun nofun
    · rw [Function.update_of_ne hqa, h.retired, hpc]
      exact iff_of_false (fun he => hqa (Option.some.inj he).symm) nofun
  · rw [List.mem_append, List.mem_singleton, ← h.pooled]
    by_cases hqa : q = a
    · subst hqa
      rw [Function.update_self]
      exact iff_of_true rfl (Or.inr rfl)
    · rw [Function.update_of_ne hqa, or_iff_left hqa]
  · by_cases hqa : q = a
    · subst hqa
      rw [Function.update_self]
      trivial
    · rwa [Function.update_of_ne hqa]
  · exact (hne .head nofun nofun q).1 he
  · -- a link that is pending leads to a node of the pool
    have hnew : ∀ q, LfqThreads.poolPend (s.pc u) ≠ some (q, a) := fun q he =>
      hpool ((h.freePool.pending q a ⟨u, he⟩).1.subset (by simp))
    exact ⟨⟨nofun, nofun, fun l hl he => hnew s.ctx.fpt (he.trans hl.symm), nofun⟩,
      ⟨nofun, nofun, fun l hl he => hnew s.ctx.fpt (hl.trans he.symm), nofun⟩⟩

/-- `ctx->fph = p->free_next` -/
theorem storeHead (hlock : Lock s) {i k : ℕ} {p b : Ptr} {ret : Dequeued α}
    (hpc : s.pc t = .freePool i ret (.storeHead k p b)) :
    ∃ rest, pool = p :: b :: rest ∧
      Mem (Function.update role p (.retired t)) chain (b :: rest)
        ⟨{ s.ctx with fph := b }, Function.update s.pc t (.freePool i ret (.free k p))⟩ := by
  have hlocal := h.threads t
  rw [hpc] at hlocal
  obtain ⟨rfl, hsure, hlink, hb⟩ := hlocal
  obtain ⟨rest, hlist, hpool⟩ := h.freePool.pop hlink hb
  refine ⟨rest, hlist, ?_⟩
  have hsame : ∀ q, ({ s.ctx with fph := b } : LfqCtx α).get q = s.ctx.get q := LfqCtx.get_congr rfl
  have hrole := h.fph_role
  have hnd := h.freePool.nodup
  rw [hlist, List.nodup_cons] at hnd
  have hne : ∀ r : Role T, r ≠ .pooled → r ≠ .retired t → ∀ q,
      Function.update role s.ctx.fph (.retired t) q = r ↔ role q = r := fun r hr hr' q =>
    update_role_iff hr'.symm (by rw [hrole]; exact hr.symm)
  have hread : ∀ q, (Function.update role s.ctx.fph (.retired t) q).Read → (role q).Read := by
    intro q hq
    by_cases hqp : q = s.ctx.fph
    · rw [hqp, hrole]
      trivial
    · rwa [Function.update_of_ne hqp] at hq
  refine h.change {
    queue := h.queue.congr (fun q _ => link_congr (hsame q)) (pend_update hpc rfl)
    freePool := hpool.congr (fun q _ => link_congr (hsame q)) (pend_update hpc rfl)
    unused := fun q => by rw [hne .unused nofun nofun q, h.unused, hsame]
    fresh := fun q => by rw [hne (.fresh t) nofun nofun q, h.fresh, hpc]; rfl
    fresh_others := fun u _ q => hne (.fresh u) nofun nofun q
    waiting := fun q => by rw [hne .waiting nofun nofun q, h.waiting]
    head := fun q => by rw [hne .head nofun nofun q, h.head]
    retired := fun q => ?_
    retired_others := fun u hu q => hne (.retired u) nofun (fun he => hu (by cases he; rfl)) q
    pooled := fun q => ?_
    unread := fun q hq => (h.unread q hq).congr (hsame q)
    read := fun q m hq hm => h.read_keep hpc rfl (hread q hq) ((hsame q).symm.trans hm)
    thread := hsure.congr (hsame _)
    rely := fun u hu => rely_roles rfl (fun _ _ => rfl) (fun q hq => ?_) (fun q _ he => ?_) fun q hq => ?_
    maxHpSize := rfl
    apart := fun u hu => ?_ }
  · by_cases hqp : q = s.ctx.fph
    · subst hqp
      rw [Function.update_self]
      exact iff_of_true rfl rfl
    · rw [Function.update_of_ne hqp, h.retired, hpc]
      exact iff_of_false nofun fun he => hqp (Option.some.inj he).symm
  · by_cases hqp : q = s.ctx.fph
    · subst hqp
      rw [Function.update_self]
      exact iff_of_false nofun hnd.1
    · rw [Function.update_of_ne hqp, h.pooled, hlist, List.mem_cons, or_iff_right hqp]
  · by_cases hqp : q = s.ctx.fph
    · subst hqp
      rw [Function.update_self]
      trivial
    · rwa [Function.update_of_ne hqp]
  · exact (hne .head nofun nofun q).1 he
  · -- nobody else may take a node off the pool
    exact absurd (hlock.unique u t (pop_locked hq) (by rw [hpc]; rfl)) hu
  · have hapart := h.apart t u hu.symm
    have hapart' := h.apart u t hu
    rw [hpc] at hapart hapart'
    exact hapart.move hapart' nofun nofun nofun hapart.scan nofun

end Roles

end Mem

end LfqThreads

end MixSim
