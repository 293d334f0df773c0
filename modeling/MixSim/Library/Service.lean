import MixSim.Library.Execution

/-!
# Servers that work through a queue

A server takes jobs off a queue and works on one at a time. Between its turns anything may happen to
the rest of the system, and more jobs may join the queue. A turn brings the job in hand closer to its
end, or takes the next one; no job takes more than `cost` turns (`Server`). However the turns are
interleaved with other steps, with `cost` turns for each of the first jobs there is a moment when it has
taken just these and has dealt with them (`Server.clears`).
-/

namespace Execution

variable {σ ι ο φ α : Type*}

/-- A server in a system: the inputs that give it a turn, its queue, what an output takes off the
queue, and a bound on the turns that are left of the job in hand. -/
structure Server (step : Step σ ι ο φ) (Inv : σ → Prop) (α : Type*) where
  turns : ι → Prop
  queue : σ → List α
  takes : ο → List α
  rest : σ → ℕ
  cost : ℕ
  cost_pos : 0 < cost
  keep : ∀ {s i s' o}, Inv s → step s i = .ok (s', o) → Inv s'
  fifo : ∀ {s i s' o}, Inv s → step s i = .ok (s', o) → queue s <+: o.flatMap takes ++ queue s'
  wait : ∀ {s i s' o}, Inv s → step s i = .ok (s', o) →
    rest s' ≤ rest s + cost * (o.flatMap takes).length
  work : ∀ {s i s' o}, Inv s → step s i = .ok (s', o) → turns i →
    rest s' + 1 ≤ rest s + cost * (o.flatMap takes).length ∨ rest s' = 0 ∧ queue s = []
  one : ∀ {s i s' o}, Inv s → step s i = .ok (s', o) →
    o.flatMap takes = [] ∨ rest s = 0 ∧ (o.flatMap takes).length = 1

namespace Server

variable {step : Step σ ι ο φ} {Inv : σ → Prop} (S : Server step Inv α)

/-- What a history has taken off the queue. -/
def taken (h : List ο) : List α := h.flatMap S.takes

variable {s t : σ} {is : List ι} {os : List ο} {k : ℕ}

theorem taken_append (h o : List ο) : S.taken (h ++ o) = S.taken h ++ S.taken o := List.flatMap_append

include S in
theorem keep_exec (hI : Inv s) (he : exec step s is = .ok (t, os)) : Inv t := by
  induction is generalizing s os with
  | nil =>
    cases he
    exact hI
  | cons i is ih =>
    obtain ⟨s', o, os', hs, hrest, rfl⟩ := exec_cons_eq_ok he
    exact ih (S.keep hI hs) hrest

/-- What waited is taken in order, before what has joined later. -/
theorem taken_prefix (hI : Inv s) (he : exec step s is = .ok (t, os)) :
    S.queue s <+: S.taken os ++ S.queue t := by
  induction is generalizing s os with
  | nil =>
    cases he
    exact List.prefix_refl _
  | cons i is ih =>
    obtain ⟨s', o, os', hs, hrest, rfl⟩ := exec_cons_eq_ok he
    rw [taken_append, List.append_assoc]
    refine (S.fifo hI hs).trans ?_
    exact (List.prefix_append_right_inj _).2 (ih (S.keep hI hs) hrest)

/-- Enough turns for the job in hand and the first `k` jobs of the queue: at some moment of the run just
these have been taken, and the server has finished the last of them. -/
theorem clears_first [DecidablePred S.turns] (hI : Inv s) (he : exec step s is = .ok (t, os))
    (hk : k ≤ (S.queue s).length) (hn : S.rest s + S.cost * k ≤ is.countP S.turns) :
    ∃ is₁ is₂ m os₁, is = is₁ ++ is₂ ∧ exec step s is₁ = .ok (m, os₁) ∧ (S.taken os₁).length = k ∧
      S.rest m = 0 := by
  induction is generalizing s os k with
  | nil =>
    rw [List.countP_nil] at hn
    have hmul : S.cost * k = 0 := by omega
    have hk0 : k = 0 := (Nat.mul_eq_zero.1 hmul).resolve_left S.cost_pos.ne'
    subst hk0
    exact ⟨[], [], s, [], rfl, rfl, rfl, by omega⟩
  | cons i is ih =>
    obtain ⟨s', o, os', hs, hrest, rfl⟩ := exec_cons_eq_ok he
    by_cases hdone : S.rest s = 0 ∧ k = 0
    · exact ⟨[], i :: is, s, [], rfl, rfl, hdone.2.symm, hdone.1⟩
    · have hlen : (S.queue s).length ≤ (S.taken o ++ S.queue s').length := (S.fifo hI hs).length_le
      have hwait : S.rest s' ≤ S.rest s + S.cost * (S.taken o).length := S.wait hI hs
      have hone : S.taken o = [] ∨ S.rest s = 0 ∧ (S.taken o).length = 1 := S.one hI hs
      rw [List.length_append] at hlen
      -- a job is taken only where there is one to be taken
      have hkd : (S.taken o).length ≤ k := by
        rcases hone with hnil | ⟨hzero, hlen⟩
        · rw [hnil]
          exact Nat.zero_le k
        · omega
      have hsplit : S.cost * k = S.cost * (S.taken o).length + S.cost * (k - (S.taken o).length) := by
        rw [← Nat.mul_add, Nat.add_sub_cancel' hkd]
      have hnext : S.rest s' + S.cost * (k - (S.taken o).length) ≤ is.countP S.turns := by
        by_cases hturn : S.turns i
        · rw [List.countP_cons_of_pos (by simpa using hturn)] at hn
          rcases S.work hI hs hturn with hless | ⟨hzero, hnil⟩
          · have hless : S.rest s' + 1 ≤ S.rest s + S.cost * (S.taken o).length := hless
            omega
          · have hk0 : k = 0 := by
              rw [hnil] at hk
              exact Nat.le_zero.1 hk
            rw [hk0, Nat.zero_sub, Nat.mul_zero]
            omega
        · rw [List.countP_cons_of_neg (by simpa using hturn)] at hn
          omega
      obtain ⟨is₁, is₂, m, os₁, rfl, hm, hlen₁, hzero⟩ :=
        ih (S.keep hI hs) hrest (by omega) hnext
      refine ⟨i :: is₁, is₂, m, o ++ os₁, rfl, by rw [exec_cons_ok hs, hm], ?_, hzero⟩
      rw [taken_append, List.length_append, hlen₁, Nat.add_sub_cancel' hkd]

/-- With turns enough for all that waits, there is a moment when just this has been taken, in order, and
the server has finished it. -/
theorem clears [DecidablePred S.turns] (hI : Inv s) (he : exec step s is = .ok (t, os))
    (hn : S.rest s + S.cost * (S.queue s).length ≤ is.countP S.turns) :
    ∃ is₁ is₂ m os₁, is = is₁ ++ is₂ ∧ exec step s is₁ = .ok (m, os₁) ∧ S.taken os₁ = S.queue s ∧
      S.rest m = 0 := by
  obtain ⟨is₁, is₂, m, os₁, his, hm, hlen, hzero⟩ := S.clears_first hI he le_rfl hn
  refine ⟨is₁, is₂, m, os₁, his, hm, ?_, hzero⟩
  have hpre := List.prefix_of_prefix_length_le (S.taken_prefix hI hm) (List.prefix_append _ _)
    hlen.ge
  exact (hpre.eq_of_length hlen.symm).symm

section Hand

variable (hand : σ → List α) (gives : ο → List α)

/-- What is taken stays in hand until it is given away. -/
theorem through (hkeep : ∀ {s i s' o}, Inv s → step s i = .ok (s', o) →
      hand s ++ S.taken o = o.flatMap gives ++ hand s')
    (hI : Inv s) (he : exec step s is = .ok (t, os)) :
    hand s ++ S.taken os = os.flatMap gives ++ hand t := by
  induction is generalizing s os with
  | nil =>
    cases he
    simp [taken]
  | cons i is ih =>
    obtain ⟨s', o, os', hs, hrest, rfl⟩ := exec_cons_eq_ok he
    rw [taken_append, ← List.append_assoc, hkeep hI hs, List.append_assoc, ih (S.keep hI hs) hrest,
      List.flatMap_append, List.append_assoc]

end Hand

end Server

end Execution
