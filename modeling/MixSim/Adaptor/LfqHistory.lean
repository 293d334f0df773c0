import MixSim.Adaptor.LfqRuns

/-!
# What the calls of the threads return

An `lfq_enqueue` takes effect at the exchange of the tail, an `lfq_dequeue` at the compare-and-swap of
the head: in the order of these events the queue is first in, first out, and each thread's calls return
what their events say (`linearizable`). `NULL` is not as sharp: a node whose predecessor is not yet
linked to it hides the nodes behind it, and `nothing` says what the answer still tells.
-/

namespace MixSim

namespace LfqThreads

open Execution

variable {α T : Type}

/-! ### The calls of a thread -/

/-- The thread of an event. -/
def Obs.thread : Obs T α → T
  | .enqueue t _ | .dequeue t | .put t _ | .take t _ | .empty t | .enqueued t _ | .dequeued t _ => t

/-- The events of a thread. -/
def eventsOf [DecidableEq T] (t : T) (h : List (Obs T α)) : List (Obs T α) :=
  h.filter fun o => o.thread = t

/-- Calls of a thread that have returned: an `lfq_enqueue` puts its item or returns `-ENOMEM`; an
`lfq_dequeue` returns the item that it takes, `NULL` where it finds none, or `(void *) -1`. -/
inductive Calls (t : T) : List (Obs T α) → Prop
  | nil : Calls t []
  | noMemory {h : List (Obs T α)} (x : α) (hc : Calls t h) :
      Calls t (h ++ [.enqueue t x, .enqueued t (-enomem)])
  | enqueue {h : List (Obs T α)} (x : α) (hc : Calls t h) :
      Calls t (h ++ [.enqueue t x, .put t x, .enqueued t 0])
  | tooMany {h : List (Obs T α)} (hc : Calls t h) : Calls t (h ++ [.dequeue t, .dequeued t .minusOne])
  | empty {h : List (Obs T α)} (hc : Calls t h) :
      Calls t (h ++ [.dequeue t, .empty t, .dequeued t .null])
  | dequeue {h : List (Obs T α)} (x : α) (hc : Calls t h) :
      Calls t (h ++ [.dequeue t, .take t (some x), .dequeued t (.data x)])

/-- The events of the call that a thread is in. -/
def Open (ctx : LfqCtx α) (t : T) : Pc α → List (Obs T α) → Prop
  | .idle, r => r = []
  | .exchangeTail x _, r => r = [.enqueue t x]
  | .linkTail _ _, r => ∃ x, r = [.enqueue t x, .put t x]
  | .clearEmpty _, r => r = [.dequeue t, .empty t]
  | .clearHP _ _ b, r | .loadData _ _ b, r =>
      ∃ x, item ctx b = some x ∧ r = [.dequeue t, .take t (some x)]
  | .setCanFree _ _ _ ret, r | .safeFree _ ret _ _, r | .freePool _ ret _, r =>
      ∃ x, ret = .data x ∧ r = [.dequeue t, .take t (some x)]
  | .freeTid _ ret, r =>
      (ret = .null ∧ r = [.dequeue t, .empty t]) ∨
        ∃ x, ret = .data x ∧ r = [.dequeue t, .take t (some x)]
  | _, r => r = [.dequeue t]

/-- The events of a thread are calls that have returned, and the call that it is in. -/
def Told [DecidableEq T] (s : Threads T α) (h : List (Obs T α)) (t : T) : Prop :=
  ∃ done rest, eventsOf t h = done ++ rest ∧ Calls t done ∧ Open s.ctx t (s.pc t) rest

section Step

variable {ctx ctx' : LfqCtx α} {t : T} {pc pc' : Pc α} {o : List (Obs T α)}

/-- The item of a node does not change. -/
theorem access_data (ha : Access ctx t pc ctx' pc' o) {a : Ptr} {nd nd' : LfqNode α}
    (hnd : ctx.get a = some nd) (hnd' : ctx'.get a = some nd') : nd'.data = nd.data := by
  have hput : ∀ {p : Ptr} {m m' : LfqNode α}, ctx.get p = some m →
      (ctx.put p (some m')).get a = some nd' → m'.data = m.data → nd'.data = nd.data := by
    intro p m m' hm hget hdata
    by_cases hap : a = p
    · subst hap
      rw [LfqCtx.get_put_self hm, Option.some.injEq] at hget
      rw [hm, Option.some.injEq] at hnd
      rw [← hget, hdata, hnd]
    · rw [LfqCtx.get_put_of_ne hap, hnd, Option.some.injEq] at hget
      rw [hget]
  have hsame : ctx'.heap = ctx.heap → nd'.data = nd.data := by
    intro hheap
    rw [LfqCtx.get_congr hheap, hnd, Option.some.injEq] at hnd'
    rw [hnd']
  have hfree : ∀ {p : Ptr} {m : LfqNode α}, ctx.get p = some m → (ctx.put p none).get a = some nd' →
      nd'.data = nd.data := by
    intro p m hm hget
    by_cases hap : a = p
    · subst hap
      rw [LfqCtx.get_put_self hm] at hget
      cases hget
    · rw [LfqCtx.get_put_of_ne hap, hnd, Option.some.injEq] at hget
      rw [hget]
  cases ha with
  | alloc hn =>
    rename_i x b
    have hab : a ≠ .node b := by
      rintro rfl
      rw [hn] at hnd
      cases hnd
    rw [LfqCtx.get_put_of_ne hab, hnd, Option.some.injEq] at hnd'
    rw [hnd']
  | linkTail hm => exact hput hm hnd' rfl
  | setCanFree hm => exact hput hm hnd' rfl
  | safeFree ha =>
    cases ha with
    | poison hm => exact hput hm hnd' rfl
    | free hm => exact hfree hm hnd'
    | clearNext hm => exact hput hm hnd' rfl
    | _ => exact hsame rfl
  | safeFreeEnd ha =>
    cases ha with
    | link hm => exact hput hm hnd' rfl
    | _ => exact hsame rfl
  | freePool ha =>
    cases ha with
    | free hm => exact hfree hm hnd'
    | _ => exact hsame rfl
  | freePoolEnd ha => cases ha <;> exact hsame rfl
  | _ => exact hsame rfl

/-- An access goes on with the call that the thread is in, or ends it. -/
theorem access_open (ha : Access ctx t pc ctx' pc' o) {r : List (Obs T α)} (h : Open ctx t pc r)
    (hitem : ∀ i a b, pc = .casHead i a b → ctx.head = a → ∃ x, item ctx b = some x) :
    (pc' = .idle ∧ ∀ done, Calls t done → Calls t (done ++ (r ++ o))) ∨ Open ctx' t pc' (r ++ o) := by
  cases ha with
  | noMemory =>
    cases h
    exact Or.inl ⟨rfl, fun done hd => hd.noMemory _⟩
  | alloc hn =>
    cases h
    exact Or.inr rfl
  | dequeue =>
    cases h
    exact Or.inr rfl
  | exchangeTail =>
    cases h
    exact Or.inr ⟨_, rfl⟩
  | linkTail hnd =>
    obtain ⟨x, rfl⟩ := h
    exact Or.inl ⟨rfl, fun done hd => hd.enqueue x⟩
  | noTid hi =>
    cases h
    exact Or.inl ⟨rfl, fun done hd => hd.tooMany⟩
  | empty hnd hnext =>
    cases h
    exact Or.inr rfl
  | clearEmpty =>
    cases h
    exact Or.inr (Or.inl ⟨rfl, rfl⟩)
  | casHead =>
    cases h
    obtain ⟨x, hx⟩ := hitem _ _ _ rfl rfl
    exact Or.inr ⟨x, hx, by rw [← hx]; rfl⟩
  | clearHP =>
    obtain ⟨x, hx, rfl⟩ := h
    exact Or.inr ⟨x, hx, rfl⟩
  | loadData hnd =>
    obtain ⟨x, hx, rfl⟩ := h
    rw [item, hnd, Option.bind_some] at hx
    rw [hx]
    exact Or.inr ⟨x, rfl, rfl⟩
  | setCanFree hnd =>
    obtain ⟨x, rfl, rfl⟩ := h
    exact Or.inr ⟨x, rfl, rfl⟩
  | safeFree ha =>
    obtain ⟨x, rfl, rfl⟩ := h
    exact Or.inr ⟨x, rfl, rfl⟩
  | safeFreeEnd ha =>
    obtain ⟨x, rfl, rfl⟩ := h
    exact Or.inr ⟨x, rfl, rfl⟩
  | freePool ha =>
    obtain ⟨x, rfl, rfl⟩ := h
    exact Or.inr ⟨x, rfl, rfl⟩
  | freePoolEnd ha =>
    obtain ⟨x, rfl, rfl⟩ := h
    exact Or.inr (Or.inr ⟨x, rfl, rfl⟩)
  | freeTid =>
    rcases h with ⟨rfl, rfl⟩ | ⟨x, rfl, rfl⟩
    · exact Or.inl ⟨rfl, fun done hd => hd.empty⟩
    · exact Or.inl ⟨rfl, fun done hd => hd.dequeue x⟩
  | _ =>
    cases h
    exact Or.inr rfl

/-- An access is an event of its thread. -/
theorem access_thread (ha : Access ctx t pc ctx' pc' o) : ∀ e ∈ o, e.thread = t := by
  cases ha <;> simp [Obs.thread]

end Step

section Runs

variable [DecidableEq T]

theorem eventsOf_append (t : T) (h o : List (Obs T α)) :
    eventsOf t (h ++ o) = eventsOf t h ++ eventsOf t o := List.filter_append _ _

theorem eventsOf_self {t : T} {o : List (Obs T α)} (h : ∀ e ∈ o, e.thread = t) : eventsOf t o = o :=
  List.filter_eq_self.2 fun e he => decide_eq_true (h e he)

theorem eventsOf_other {t u : T} {o : List (Obs T α)} (h : ∀ e ∈ o, e.thread = t) (hu : u ≠ t) :
    eventsOf u o = [] :=
  List.filter_eq_nil_iff.2 fun e he => by rw [h e he, decide_eq_true_iff]; exact hu.symm

theorem inductive_told :
    Inductive (step (T := T) (α := α)) (fun _ _ => True) fun s h => Inv s h ∧ ∀ t, Told s h t := by
  refine inductive_inv.and ?_
  rintro s h ⟨t, call⟩ s' o hinv htold - hs u
  obtain ⟨-, -, role, chain, pool, hmem, -⟩ := id hinv
  obtain ⟨-, -, role', chain', pool', hmem', -⟩ := inductive_inv hinv trivial hs
  obtain ⟨ctx', pc', ha, rfl⟩ := step_ok hs
  obtain ⟨done, rest, hevents, hdone, hrest⟩ := htold u
  by_cases hu : u = t
  · subst hu
    have hitem : ∀ i a b, s.pc u = .casHead i a b → s.ctx.head = a → ∃ x, item s.ctx b = some x := by
      rintro i a b hpc rfl
      obtain ⟨rest, hchain, -⟩ := hmem.casHead hpc
      exact hmem.item_waiting (by rw [hchain]; exact List.mem_cons_self)
    rcases access_open ha hrest hitem with ⟨hidle, hcalls⟩ | hopen
    · refine ⟨done ++ (rest ++ o), [], ?_, hcalls done hdone, ?_⟩
      · rw [eventsOf_append, hevents, eventsOf_self (access_thread ha), List.append_nil, List.append_assoc]
      · simp only [Function.update_self, hidle]
        rfl
    · refine ⟨done, rest ++ o, ?_, hdone, ?_⟩
      · rw [eventsOf_append, hevents, eventsOf_self (access_thread ha), List.append_assoc]
      · simp only [Function.update_self]
        exact hopen
  · refine ⟨done, rest, ?_, hdone, ?_⟩
    · rw [eventsOf_append, eventsOf_other (access_thread ha) hu, List.append_nil, hevents]
    · -- the node from which the thread is about to read keeps its item
      have hlocal := hmem.threads u
      have hlocal' := hmem'.threads u
      simp only [Function.update_of_ne hu] at hlocal' ⊢
      have hkeep : ∀ b, claim (s.pc u) = some b → item ctx' b = item s.ctx b := by
        intro b hb
        obtain ⟨nd, hnd, -⟩ := (hlocal.claim hb).2
        obtain ⟨nd', hnd', -⟩ := (hlocal'.claim hb).2
        rw [item, item, hnd, hnd']
        exact access_data ha hnd hnd'
      generalize s.pc u = pcu at *
      cases pcu with
      | clearHP i a b =>
        obtain ⟨x, hx, hr⟩ := hrest
        exact ⟨x, (hkeep b rfl).trans hx, hr⟩
      | loadData i a b =>
        obtain ⟨x, hx, hr⟩ := hrest
        exact ⟨x, (hkeep b rfl).trans hx, hr⟩
      | _ => exact hrest

/-- In every order in which the accesses of the threads come, the queue is a queue: the items are
taken in the order in which they were put, none is lost, none comes twice, and every call puts its own
item or returns the item that it takes, between its begin and its return. -/
theorem linearizable (n : ℕ) (is : List (T × Call α)) {s : Threads T α} {h : List (Obs T α)}
    (he : exec step (init T α n) is = .ok (s, h)) :
    takes h <+: (puts h).map some ∧ ∀ t, ∃ done rest, eventsOf t h = done ++ rest ∧ Calls t done ∧
      Open s.ctx t (s.pc t) rest := by
  have hstart : ∀ t, Told (init T α n) [] t := fun t => ⟨[], [], rfl, .nil, rfl⟩
  obtain ⟨⟨-, -, role, chain, pool, -, hfifo⟩, htold⟩ :=
    inductive_told.exec ⟨inv_init n, hstart⟩ (along_true _ is) he
  exact ⟨⟨_, hfifo.symm⟩, htold⟩

end Runs

/-- One thread enqueues an item while another one looks for it. -/
theorem linearizable_seven : ∃ s h, exec step (init Bool ℕ 1)
      ([(false, .enqueue 7 2), (true, .dequeue), (false, .dequeue), (false, .dequeue)] ++
        List.replicate 9 (true, .dequeue)) = .ok (s, h) ∧
    takes h = [some 7] ∧ takes h <+: (puts h).map some ∧
    ∀ t, ∃ done rest, eventsOf t h = done ++ rest ∧ Calls t done ∧ Open s.ctx t (s.pc t) rest :=
  ⟨_, _, rfl, rfl, linearizable 1 ([(false, .enqueue 7 2), (true, .dequeue), (false, .dequeue),
    (false, .dequeue)] ++ List.replicate 9 (true, .dequeue)) rfl⟩

/-! ### What `NULL` says -/

section Empty

variable [DecidableEq T]

/-- How many items have been taken since the last call of thread `t` began. -/
def takesSince (t : T) (h : List (Obs T α)) : ℕ :=
  h.foldl (fun k o =>
    match o with
    | .dequeue u => if u = t then 0 else k
    | .take _ _ => k + 1
    | _ => k) 0

/-- An `lfq_enqueue` of thread `u` has put its item, and has not returned. -/
def Putting (u : T) (h : List (Obs T α)) : Prop := ∃ x, (eventsOf u h).getLast? = some (.put u x)

/-- What a thread finds that finds nothing to take: all that was put is taken, or an `lfq_enqueue` is
about to return, or another thread has taken an item in the meantime. -/
def Nothing (h : List (Obs T α)) (o : Obs T α) : Prop :=
  ∀ t, o = .empty t → (puts h).map some = takes h ∨ (∃ u, Putting u h) ∨ 0 < takesSince t h

/-- The head that a thread works with. -/
def oldHead : Pc α → Option Ptr
  | .storeHP _ a | .checkHead _ a | .loadNext _ a | .casHead _ a _ => some a
  | _ => none

omit [DecidableEq T] in
theorem takes_cons (e : Obs T α) (o : List (Obs T α)) : takes (e :: o) = takes [e] ++ takes o :=
  takes_append [e] o

theorem takesSince_append {t : T} (h : List (Obs T α)) {o : List (Obs T α)} (ho : .dequeue t ∉ o) :
    takesSince t (h ++ o) = takesSince t h + (takes o).length := by
  induction o generalizing h with
  | nil =>
    rw [List.append_nil]
    rfl
  | cons e o ih =>
    rw [List.mem_cons, not_or] at ho
    have hone : takesSince t (h ++ [e]) = takesSince t h + (takes [e]).length := by
      rw [takesSince, takesSince, List.foldl_append]
      cases e with
      | dequeue u =>
        have hu : u ≠ t := by
          rintro rfl
          exact ho.1 rfl
        exact if_neg hu
      | _ => rfl
    rw [List.append_cons, ih _ ho.2, hone, takes_cons e o, List.length_append, Nat.add_assoc]

section Access

omit [DecidableEq T]

variable {ctx ctx' : LfqCtx α} {t : T} {pc pc' : Pc α} {o : List (Obs T α)}

/-- Who moves the head takes an item. -/
theorem access_head (ha : Access ctx t pc ctx' pc' o) : ctx'.head = ctx.head ∨ 0 < (takes o).length := by
  cases ha with
  | casHead => exact Or.inr Nat.one_pos
  | safeFree ha => cases ha <;> simp
  | safeFreeEnd ha => cases ha <;> simp
  | freePool ha => cases ha <;> simp
  | freePoolEnd ha => exact Or.inl (by cases ha <;> rfl)
  | freeTid => exact Or.inl rfl
  | _ => simp

/-- A thread works with a head that it has found. -/
theorem access_oldHead (ha : Access ctx t pc ctx' pc' o) {a : Ptr} (h : oldHead pc' = some a) :
    .dequeue t ∉ o ∧ (oldHead pc = some a ∨ ctx'.head = a) := by
  cases ha <;> cases h <;> simp [oldHead]

theorem access_empty (ha : Access ctx t pc ctx' pc' o) {u : T} (h : .empty u ∈ o) :
    o = [.empty t] ∧ ∃ i a nd, pc = .loadNext i a ∧ ctx.get a = some nd ∧ nd.next = .null := by
  cases ha with
  | empty hnd hnext => exact ⟨rfl, _, _, _, rfl, hnd, hnext⟩
  | _ => simp at h

end Access

theorem inductive_nothing : Inductive (step (T := T) (α := α)) (fun _ _ => True) fun s h =>
    (Inv s h ∧ ∀ t, Told s h t) ∧ (∀ t a, oldHead (s.pc t) = some a → s.ctx.head ≠ a → 0 < takesSince t h) ∧
      Always Nothing h := by
  refine inductive_told.and ?_
  rintro s h ⟨t, call⟩ s' o ⟨⟨-, -, role, chain, pool, hmem, hfifo⟩, htold⟩ ⟨hhead, halways⟩ - hs
  obtain ⟨ctx', pc', ha, rfl⟩ := step_ok hs
  refine ⟨fun u a hu hne => ?_, halways.append fun pre e post ho u hu => ?_⟩
  · have hstill : ∀ {v : T}, .dequeue v ∉ o → oldHead (s.pc v) = some a → 0 < takesSince v (h ++ o) := by
      intro v hv hold
      rw [takesSince_append h hv]
      by_cases hsame : s.ctx.head = a
      · rcases access_head ha with hkeep | htake
        · exact absurd (hkeep.trans hsame) hne
        · omega
      · have hpos := hhead v a hold hsame
        omega
    rcases update_cases hu with ⟨rfl, hu'⟩ | ⟨hut, hu'⟩
    · obtain ⟨hnone, hold | hnew⟩ := access_oldHead ha hu'
      · exact hstill hnone hold
      · exact absurd hnew hne
    · exact hstill (fun hmem => hut (access_thread ha _ hmem)) hu'
  · subst hu
    obtain ⟨rfl, i, a, nd, hpc, hnd, hnull⟩ := access_empty ha (u := u) (by rw [ho]; simp)
    rcases List.append_eq_singleton_iff.1 ho.symm with ⟨rfl, he⟩ | ⟨-, he⟩ <;> cases he
    rw [List.append_nil]
    by_cases hold : s.ctx.head = a
    · subst hold
      obtain ⟨rest, hchain⟩ := hmem.queue.eq_cons
      cases rest with
      | nil =>
        rw [Fifo, hchain, List.tail_cons, List.map_nil, List.append_nil] at hfifo
        exact Or.inl hfifo
      | cons b rest =>
        -- something waits, so the link to it is pending
        have hin : [s.ctx.head, b] <:+: chain := ⟨[], rest, by rw [hchain]; rfl⟩
        have hb : b ≠ .null := fun he => hmem.queue.ne_null (he ▸ hin.subset (by simp))
        rcases hmem.queue.rel hin with hl | ⟨-, v, hv⟩
        · rw [link_of_get hnd, hnull, Option.some.injEq] at hl
          exact absurd hl.symm hb
        · obtain ⟨done, r, hevents, -, hopen⟩ := htold v
          refine Or.inr (Or.inl ⟨v, ?_⟩)
          cases hpcv : s.pc v with
          | linkTail c d =>
            rw [hpcv] at hopen
            obtain ⟨x, rfl⟩ := hopen
            exact ⟨x, by rw [hevents]; simp⟩
          | _ =>
            rw [hpcv] at hv
            cases hv
    · exact Or.inr (Or.inr (hhead t a (by rw [hpc]; rfl) hold))

/-- An `lfq_dequeue` returns `NULL` only where it has found that all that was put is taken, or that
another call is in its way: an `lfq_enqueue` that has put an item and has not returned, or an
`lfq_dequeue` that has taken an item since this call began. -/
theorem nothing (n : ℕ) (is : List (T × Call α)) {s : Threads T α} {h : List (Obs T α)}
    (he : exec step (init T α n) is = .ok (s, h)) : Always Nothing h := by
  have hstart : ∀ t, Told (init T α n) [] t := fun t => ⟨[], [], rfl, .nil, rfl⟩
  have hall := inductive_nothing.exec ⟨⟨inv_init n, hstart⟩, nofun, always_nil⟩ (along_true _ is) he
  exact hall.2.2

end Empty

/-- A thread finds nothing, since another one has not yet linked its node. -/
theorem nothing_putting : ∃ s h, exec step (init Bool ℕ 1)
      ([(false, .enqueue 7 2), (false, .dequeue)] ++ List.replicate 8 (true, .dequeue)) = .ok (s, h) ∧
    .empty true ∈ h ∧ Always Nothing h :=
  ⟨_, _, rfl, by decide,
    nothing 1 ([(false, .enqueue 7 2), (false, .dequeue)] ++ List.replicate 8 (true, .dequeue)) rfl⟩

end LfqThreads

end MixSim
