import MixSim.Adaptor.LfqRuns

/-!
# Progress of threads on a queue

The accesses a thread still makes in its call, the retries of its loop included, are a number (`rank`);
an access of the thread brings it down, unless the call returns, and only the compare-and-swap that moves
the head brings up those of others. So the accesses of all threads are bounded until some call returns.
-/

namespace MixSim

namespace LfqThreads

open Execution

variable {α T : Type}

/-! ### Lock-freedom -/

/-- What `free_pool` has still to do after round `i`. -/
def roundRank (n i : ℕ) : ℕ := 2 + (maxFree - (i + 1)) * (n + 8)

/-- How many accesses `free_pool` makes at most, with `n` hazard pointers. -/
def freePoolRank (n : ℕ) : FreePoolPc → ℕ
  | .lock => 3 + maxFree * (n + 8)
  | .loadHead i => 2 + (maxFree - i) * (n + 8)
  | .canFree i _ => roundRank n i + (n + 6)
  | .testNext i _ => roundRank n i + (n + 5)
  | .scan i _ j => roundRank n i + (n - j + 4)
  | .loadNext i _ => roundRank n i + 3
  | .storeHead i _ _ => roundRank n i + 2
  | .free i _ => roundRank n i + 1
  | .unlock => 1

/-- How many accesses `safe_free` makes at most, and the rest of the call. -/
def safeFreeRank (n : ℕ) (pc : SafeFreePc) : ℕ :=
  1 + freePoolRank n .lock +
    match pc with
    | .canFree => n + 6
    | .scan i => n - i + 5
    | .lock => 4
    | .poison | .clearNext => 3
    | .free | .exchange => 2
    | .unlock | .link _ => 1

/-- What a thread that has taken an item has still to do. -/
def takenRank (n : ℕ) : ℕ := safeFreeRank n .canFree + 3

/-- How many accesses a thread makes at most until it returns, if nobody moves the head; a thread that
is about to move the head has `c` more. -/
def rank (n c : ℕ) (head : Ptr) : Pc α → ℕ
  | .idle => takenRank n + c + (2 * n + 7)
  | .exchangeTail _ _ => 2
  | .linkTail _ _ => 1
  | .testTid i => takenRank n + c + (2 * (n - i) + 6)
  | .casTid i => takenRank n + c + (2 * (n - (i + 1)) + 7)
  | .loadHead _ => takenRank n + c + 5
  | .storeHP _ a => takenRank n + c + if a = head then 4 else 7
  | .checkHead _ a => takenRank n + c + if a = head then 3 else 6
  | .loadNext _ a => takenRank n + c + if a = head then 2 else 7
  | .casHead _ a _ => takenRank n + c + if a = head then 1 else 6
  | .clearEmpty _ => 2
  | .clearHP _ _ _ => takenRank n
  | .loadData _ _ _ => safeFreeRank n .canFree + 2
  | .setCanFree _ _ _ _ => safeFreeRank n .canFree + 1
  | .safeFree _ _ _ pc => safeFreeRank n pc
  | .freePool _ _ pc => 1 + freePoolRank n pc
  | .freeTid _ _ => 1

/-- The most accesses that a call needs while nobody moves the head. -/
def callBound (n c : ℕ) : ℕ := takenRank n + c + (2 * n + 7)

theorem callBound_eq (n c : ℕ) : callBound n c = 153 * n + c + 1220 := by
  simp only [callBound, takenRank, safeFreeRank, freePoolRank, maxFree]
  omega

/-- A call returns. -/
def Obs.Returns : Obs T α → Prop
  | .enqueued _ _ | .dequeued _ _ => True
  | _ => False

section Ranks

variable {n c : ℕ} {head head' : Ptr} {ctx ctx' : LfqCtx α} {t : T} {pc pc' : Pc α} {o : List (Obs T α)}

theorem SafeFreeAccess.rank_lt {lfn : Ptr} {pc pc' : SafeFreePc}
    (h : SafeFreeAccess ctx lfn pc ctx' (some pc')) (hn : ctx.maxHpSize = n) :
    safeFreeRank n pc' < safeFreeRank n pc := by
  cases h <;> simp only [safeFreeRank] <;> omega

theorem SafeFreeAccess.rank_end {lfn : Ptr} {pc : SafeFreePc}
    (h : SafeFreeAccess ctx lfn pc ctx' none) : 1 + freePoolRank n .lock < safeFreeRank n pc := by
  cases h <;> simp only [safeFreeRank] <;> omega

theorem FreePoolAccess.rank_lt {pc pc' : FreePoolPc} (h : FreePoolAccess ctx pc ctx' (some pc'))
    (hn : ctx.maxHpSize = n) : freePoolRank n pc' < freePoolRank n pc := by
  cases h with
  | loadHead hi =>
    rename_i i
    obtain ⟨k, hk⟩ := Nat.exists_eq_add_of_lt hi
    have h1 : maxFree - i = k + 1 := by omega
    have h2 : maxFree - (i + 1) = k := by omega
    simp only [freePoolRank, roundRank, h1, h2, Nat.succ_mul]
    omega
  | lock hf =>
    simp only [freePoolRank, Nat.sub_zero]
    omega
  | free hnd =>
    simp only [freePoolRank, roundRank]
    omega
  | _ =>
    simp only [freePoolRank, roundRank]
    omega

theorem FreePoolAccess.rank_end {pc : FreePoolPc} (h : FreePoolAccess ctx pc ctx' none) :
    0 < freePoolRank n pc := by
  cases h <;> simp only [freePoolRank] <;> omega

/-- Every access brings a thread nearer to its return, and one that moves the head by `c` more. -/
theorem access_rank (ha : Access ctx t pc ctx' pc' o) (hn : ctx.maxHpSize = n) :
    (∃ e ∈ o, e.Returns) ∨ (ctx'.head = ctx.head ∧ rank n c ctx'.head pc' < rank n c ctx.head pc) ∨
      rank n c ctx'.head pc' + c < rank n c ctx.head pc := by
  cases ha with
  | noMemory => exact Or.inl ⟨_, List.mem_cons_of_mem _ List.mem_cons_self, trivial⟩
  | linkTail hnd => exact Or.inl ⟨_, List.mem_cons_self, trivial⟩
  | noTid hi => exact Or.inl ⟨_, List.mem_cons_self, trivial⟩
  | freeTid => exact Or.inl ⟨_, List.mem_cons_self, trivial⟩
  | casHead =>
    refine Or.inr (Or.inr ?_)
    simp only [rank, if_true]
    omega
  | retry hne =>
    refine Or.inr (Or.inl ⟨rfl, ?_⟩)
    simp only [rank, if_neg hne]
    omega
  | casHeadFails hne =>
    refine Or.inr (Or.inl ⟨rfl, ?_⟩)
    simp only [rank, if_neg hne.symm]
    omega
  | storeHP =>
    refine Or.inr (Or.inl ⟨rfl, ?_⟩)
    simp only [rank]
    split <;> omega
  | loadNext hnd hnext =>
    refine Or.inr (Or.inl ⟨rfl, ?_⟩)
    simp only [rank]
    split <;> omega
  | empty hnd hnext =>
    refine Or.inr (Or.inl ⟨rfl, ?_⟩)
    simp only [rank, takenRank]
    split <;> omega
  | safeFree ha =>
    have hlt := ha.rank_lt hn
    exact Or.inr (Or.inl ⟨by cases ha <;> simp, hlt⟩)
  | safeFreeEnd ha =>
    have hlt := ha.rank_end (n := n)
    exact Or.inr (Or.inl ⟨by cases ha <;> simp, hlt⟩)
  | freePool ha =>
    have hlt := ha.rank_lt hn
    exact Or.inr (Or.inl ⟨by cases ha <;> simp, Nat.add_lt_add_left hlt 1⟩)
  | freePoolEnd ha =>
    have hlt := ha.rank_end (n := n)
    refine Or.inr (Or.inl ⟨by cases ha <;> rfl, ?_⟩)
    simp only [rank]
    omega
  | setCanFree hnd =>
    refine Or.inr (Or.inl ⟨LfqCtx.put_head _ _ _, ?_⟩)
    simp only [rank]
    omega
  | alloc hn =>
    refine Or.inr (Or.inl ⟨rfl, ?_⟩)
    simp only [rank]
    omega
  | _ =>
    refine Or.inr (Or.inl ⟨rfl, ?_⟩)
    simp only [rank, takenRank, if_true]
    omega

theorem freePoolRank_le (pc : FreePoolPc) : freePoolRank n pc ≤ freePoolRank n .lock := by
  have hround : ∀ i, roundRank n i + (n + 8) ≤ 2 + maxFree * (n + 8) := by
    intro i
    have hle : (maxFree - (i + 1)) * (n + 8) ≤ 149 * (n + 8) :=
      Nat.mul_le_mul_right _ (by simp only [maxFree]; omega)
    simp only [roundRank, maxFree] at hle ⊢
    omega
  cases pc with
  | lock => exact le_rfl
  | loadHead i =>
    have hle : (maxFree - i) * (n + 8) ≤ maxFree * (n + 8) := Nat.mul_le_mul_right _ (Nat.sub_le _ _)
    simp only [freePoolRank]
    omega
  | unlock =>
    simp only [freePoolRank]
    omega
  | canFree i _ =>
    have hle := hround i
    simp only [freePoolRank]
    omega
  | testNext i _ =>
    have hle := hround i
    simp only [freePoolRank]
    omega
  | scan i _ j =>
    have hle := hround i
    simp only [freePoolRank]
    omega
  | loadNext i _ =>
    have hle := hround i
    simp only [freePoolRank]
    omega
  | storeHead i _ _ =>
    have hle := hround i
    simp only [freePoolRank]
    omega
  | free i _ =>
    have hle := hround i
    simp only [freePoolRank]
    omega

theorem safeFreeRank_le (pc : SafeFreePc) : safeFreeRank n pc ≤ safeFreeRank n .canFree := by
  cases pc <;> simp only [safeFreeRank] <;> omega

theorem rank_le (pc : Pc α) : rank n c head pc ≤ callBound n c := by
  have htaken : safeFreeRank n .canFree = 1 + freePoolRank n .lock + (n + 6) := rfl
  cases pc with
  | safeFree tid ret lfn pc =>
    have hle := safeFreeRank_le (n := n) pc
    simp only [rank, callBound, takenRank]
    omega
  | freePool tid ret pc =>
    have hle := freePoolRank_le (n := n) pc
    simp only [rank, callBound, takenRank]
    omega
  | storeHP tid a =>
    simp only [rank, callBound]
    split <;> omega
  | checkHead tid a =>
    simp only [rank, callBound]
    split <;> omega
  | loadNext tid a =>
    simp only [rank, callBound]
    split <;> omega
  | casHead tid a b =>
    simp only [rank, callBound]
    split <;> omega
  | _ =>
    simp only [rank, callBound, takenRank]
    omega

/-- A thread whose head is out of date has at most five accesses more to make. -/
theorem rank_head (pc : Pc α) : rank n c head' pc ≤ rank n c head pc + 5 := by
  cases pc with
  | storeHP tid a =>
    simp only [rank]
    split <;> split <;> omega
  | checkHead tid a =>
    simp only [rank]
    split <;> split <;> omega
  | loadNext tid a =>
    simp only [rank]
    split <;> split <;> omega
  | casHead tid a b =>
    simp only [rank]
    split <;> split <;> omega
  | _ => exact Nat.le_add_right _ 5

end Ranks

section LockFree

variable [DecidableEq T] [Fintype T]

/-- What all threads together have still to do. -/
def totalRank (s : Threads T α) : ℕ :=
  ∑ t, rank s.ctx.maxHpSize (5 * Fintype.card T) s.ctx.head (s.pc t)

theorem step_totalRank {s s' : Threads T α} {i : T × Call α} {o : List (Obs T α)}
    (hs : step s i = .ok (s', o)) : (∃ e ∈ o, e.Returns) ∨ totalRank s' < totalRank s := by
  obtain ⟨ctx', pc', ha, rfl⟩ := step_ok hs
  have hsplit : ∀ f : T → ℕ, ∑ u, f u = f i.1 + ∑ u ∈ Finset.univ.erase i.1, f u := fun f =>
    (Finset.add_sum_erase _ f (Finset.mem_univ i.1)).symm
  have hothers : ∀ u ∈ Finset.univ.erase i.1, Function.update s.pc i.1 pc' u = s.pc u := fun u hu =>
    Function.update_of_ne (Finset.ne_of_mem_erase hu) _ _
  rcases access_rank (c := 5 * Fintype.card T) ha rfl with hret | ⟨hhead, hlt⟩ | hlt
  · exact Or.inl hret
  · refine Or.inr ?_
    have hsum : ∑ u ∈ Finset.univ.erase i.1, rank s.ctx.maxHpSize (5 * Fintype.card T) ctx'.head
        (Function.update s.pc i.1 pc' u) = ∑ u ∈ Finset.univ.erase i.1,
        rank s.ctx.maxHpSize (5 * Fintype.card T) s.ctx.head (s.pc u) :=
      Finset.sum_congr rfl fun u hu => by rw [hothers u hu, hhead]
    simp only [totalRank, ha.maxHpSize]
    rw [hsplit, hsplit, hsum, Function.update_self]
    omega
  · -- the others may have to start again
    refine Or.inr ?_
    have hsum : ∑ u ∈ Finset.univ.erase i.1, rank s.ctx.maxHpSize (5 * Fintype.card T) ctx'.head
        (Function.update s.pc i.1 pc' u) ≤ ∑ u ∈ Finset.univ.erase i.1,
        (rank s.ctx.maxHpSize (5 * Fintype.card T) s.ctx.head (s.pc u) + 5) :=
      Finset.sum_le_sum fun u hu => by rw [hothers u hu]; exact rank_head (s.pc u)
    rw [Finset.sum_add_distrib, Finset.sum_const, Finset.card_erase_of_mem (Finset.mem_univ _),
      smul_eq_mul, Finset.card_univ] at hsum
    simp only [totalRank, ha.maxHpSize]
    rw [hsplit, hsplit, Function.update_self]
    have hcard : (Fintype.card T - 1) * 5 ≤ 5 * Fintype.card T := by omega
    omega

omit [Fintype T] in
theorem maxHpSize_exec {n : ℕ} {is : List (T × Call α)} {s : Threads T α} {h : List (Obs T α)}
    (he : exec step (init T α n) is = .ok (s, h)) : s.ctx.maxHpSize = n := by
  have hind : Inductive (step (T := T) (α := α)) (fun _ _ => True) fun s _ => s.ctx.maxHpSize = n := by
    rintro s h i s' o hn - hs
    obtain ⟨ctx', pc', ha, rfl⟩ := step_ok hs
    exact ha.maxHpSize.trans hn
  exact hind.exec (h := []) rfl (along_true _ is) he

/-- However the accesses of the threads are ordered, and wherever some of them have stopped, some call
returns within a bounded number of accesses: no thread ever waits for another one. -/
theorem lock_free (n : ℕ) (is₁ is₂ : List (T × Call α))
    (hlen : Fintype.card T * (153 * n + 5 * Fintype.card T + 1220) < is₂.length) :
    ∃ s h s' o, exec step (init T α n) is₁ = .ok (s, h) ∧ exec step s is₂ = .ok (s', o) ∧
      ∃ e ∈ o, e.Returns := by
  obtain ⟨s, h, hs⟩ := exists_exec_ok (α := α) n is₁
  obtain ⟨s'', h'', hs''⟩ := exists_exec_ok n (is₁ ++ is₂)
  rw [exec_append_ok hs] at hs''
  cases he : exec step s is₂ with
  | error f =>
    rw [he] at hs''
    cases hs''
  | ok r =>
    refine ⟨s, h, r.1, r.2, hs, he, ?_⟩
    refine (exec_length_le (fun _ _ _ _ => step_totalRank) he).resolve_right fun hle => ?_
    have hrank : totalRank s ≤ Fintype.card T * (153 * n + 5 * Fintype.card T + 1220) := by
      rw [totalRank, maxHpSize_exec hs, ← callBound_eq, ← smul_eq_mul, ← Finset.card_univ]
      exact Finset.sum_le_card_nsmul _ _ _ fun u _ => rank_le (s.pc u)
    omega

end LockFree

/-- One thread has stopped before it has linked its node; the calls of the other one return. -/
theorem lock_free_stopped : ∃ s h s' o,
    exec step (init Bool ℕ 1) [(false, .enqueue 7 2), (false, .enqueue 7 2)] = .ok (s, h) ∧
      s.pc false = .linkTail (init Bool ℕ 1).ctx.tail (.node 2) ∧
      exec step s (List.replicate 2767 (true, .dequeue)) = .ok (s', o) ∧ ∃ e ∈ o, e.Returns := by
  have hrun : ∃ s h, exec step (init Bool ℕ 1) [(false, .enqueue 7 2), (false, .enqueue 7 2)] =
      .ok (s, h) ∧ s.pc false = .linkTail (init Bool ℕ 1).ctx.tail (.node 2) := ⟨_, _, rfl, rfl⟩
  obtain ⟨s, h, hs, hpc⟩ := hrun
  obtain ⟨t, h', s', o, ht, ho, hret⟩ := lock_free 1 [(false, .enqueue 7 2), (false, .enqueue 7 2)]
    (List.replicate 2767 (true, .dequeue)) (by rw [List.length_replicate]; decide)
  rw [hs] at ht
  cases ht
  exact ⟨s, h, s', o, hs, hpc, ho, hret⟩

end LfqThreads

end MixSim
