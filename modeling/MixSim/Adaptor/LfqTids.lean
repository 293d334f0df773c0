import MixSim.Adaptor.LfqHistory

/-!
# Thread slots suffice

A thread looks for a slot from the first on and goes past a slot only where it has found it taken, so
that a call could end with `(void *) -1` though slots become free behind the thread. It does not where
each thread that calls `lfq_dequeue` could have a slot: at most `n - j` threads hold or look at one of
the slots from `j` on (`Levels.card`), since whoever passes slot `j` leaves its holder behind.
-/

namespace MixSim

namespace LfqThreads

open Execution

variable {α T : Type}

/-- The slot that a thread holds or looks at. -/
def level : Pc α → Option ℕ
  | .testTid i | .casTid i => some i
  | pc => tid pc

/-- The thread holds or looks at slot `j` or a later one. -/
def above (j : ℕ) (pc : Pc α) : Bool :=
  match level pc with
  | some i => decide (j ≤ i)
  | none => false

theorem above_iff {j : ℕ} {pc : Pc α} : above j pc = true ↔ ∃ i, level pc = some i ∧ j ≤ i := by
  unfold above
  split
  · rename_i i hi
    rw [decide_eq_true_iff, hi]
    exact ⟨fun h => ⟨i, rfl, h⟩, fun ⟨k, hk, h⟩ => by cases hk; exact h⟩
  · rename_i hi
    rw [hi]
    exact iff_of_false nofun nofun

theorem tid_level {pc : Pc α} {i : ℕ} (h : tid pc = some i) : level pc = some i := by
  cases pc <;> first | exact h | cases h

/-- A thread looks at the next slot only where it has found one to be taken. -/
theorem access_level {ctx ctx' : LfqCtx α} {t : T} {pc pc' : Pc α} {o : List (Obs T α)}
    (ha : Access ctx t pc ctx' pc' o) : level pc' = level pc ∨ level pc' = none ∨
      (pc = .idle ∧ pc' = .testTid 0) ∨
      ∃ j, (pc = .casTid j ∨ (pc = .testTid j ∧ j < ctx.maxHpSize)) ∧ pc' = .testTid (j + 1) ∧
        ctx.tidMap[j]? ≠ some 0 := by
  cases ha with
  | dequeue => exact Or.inr (Or.inr (Or.inl ⟨rfl, rfl⟩))
  | taken hi hfree => exact Or.inr (Or.inr (Or.inr ⟨_, Or.inr ⟨rfl, hi⟩, rfl, hfree⟩))
  | casTidFails hfree => exact Or.inr (Or.inr (Or.inr ⟨_, Or.inl rfl, rfl, hfree⟩))
  | noTid hi => exact Or.inr (Or.inl rfl)
  | freeTid => exact Or.inr (Or.inl rfl)
  | _ => exact Or.inl rfl

theorem access_casTid {ctx ctx' : LfqCtx α} {t : T} {pc : Pc α} {i : ℕ} {o : List (Obs T α)}
    (ha : Access ctx t pc ctx' (.casTid i) o) : i < ctx.maxHpSize := by
  cases ha with
  | testTid hi hfree => exact hi

section Slots

variable [DecidableEq T]

/-- Only the threads of `S` look for a slot, and at most `#S - j` of them have come to slot `j`. -/
structure Levels (S : Finset T) (s : Threads T α) : Prop where
  mem : ∀ t i, level (s.pc t) = some i → t ∈ S
  card : ∀ j, (S.filter fun t => above j (s.pc t)).card ≤ S.card - j
  lt : ∀ t i, s.pc t = .casTid i → i < s.ctx.maxHpSize

theorem step_dequeue {s s' : Threads T α} {t : T} {call : Call α} {o : List (Obs T α)} {i : ℕ}
    (hs : step s (t, call) = .ok (s', o)) (h : s.pc t = .idle) (h' : s'.pc t = .testTid i) :
    call = .dequeue := by
  cases call with
  | dequeue => rfl
  | enqueue x a =>
    obtain ⟨⟨ctx', pc', o'⟩, hok, hs⟩ := bind_eq_ok hs
    cases hs
    rw [h] at hok
    simp only [Function.update_self] at h'
    simp only [threadStep] at hok
    split at hok <;> cases hok <;> cases h'

/-- A thread goes on to slot `j + 1` where another one holds slot `j`. -/
theorem Levels.advance {S : Finset T} {s : Threads T α} (h : Levels S s) {t u : T} {j : ℕ} {pc' : Pc α}
    (htu : u ≠ t) (ht : level (s.pc t) = some j) (hu : level (s.pc u) = some j)
    (hpc' : level pc' = some (j + 1)) (k : ℕ) :
    (S.filter fun v => above k (Function.update s.pc t pc' v)).card ≤ S.card - k := by
  have hold : ∀ v, above k (Function.update s.pc t pc' v) = true →
      above k (s.pc v) = true ∨ (v = t ∧ k = j + 1) := by
    intro v hv
    rcases update_cases hv with ⟨rfl, hv'⟩ | ⟨-, hv'⟩
    · obtain ⟨i, hi, hki⟩ := above_iff.1 hv'
      rw [hpc', Option.some.injEq] at hi
      subst hi
      rcases Nat.lt_or_eq_of_le hki with hlt | rfl
      · exact Or.inl (above_iff.2 ⟨j, ht, by omega⟩)
      · exact Or.inr ⟨rfl, rfl⟩
    · exact Or.inl hv'
  by_cases hk : k = j + 1
  · subst hk
    -- neither of the two has come to slot `j + 1` before
    have hnot : ∀ v, level (s.pc v) = some j → v ∉ S.filter fun v => above (j + 1) (s.pc v) := by
      intro v hv hmem
      obtain ⟨i, hi, hle⟩ := above_iff.1 (Finset.mem_filter.1 hmem).2
      rw [hv, Option.some.injEq] at hi
      omega
    have hsub : insert u (insert t (S.filter fun v => above (j + 1) (s.pc v))) ⊆
        S.filter fun v => above j (s.pc v) := by
      intro v hv
      rw [Finset.mem_insert, Finset.mem_insert] at hv
      rcases hv with rfl | rfl | hv
      · exact Finset.mem_filter.2 ⟨h.mem v j hu, above_iff.2 ⟨j, hu, le_rfl⟩⟩
      · exact Finset.mem_filter.2 ⟨h.mem v j ht, above_iff.2 ⟨j, ht, le_rfl⟩⟩
      · obtain ⟨hS, habove⟩ := Finset.mem_filter.1 hv
        obtain ⟨i, hi, hle⟩ := above_iff.1 habove
        exact Finset.mem_filter.2 ⟨hS, above_iff.2 ⟨i, hi, by omega⟩⟩
    have hnew : (S.filter fun v => above (j + 1) (Function.update s.pc t pc' v)) ⊆
        insert t (S.filter fun v => above (j + 1) (s.pc v)) := by
      intro v hv
      obtain ⟨hS, habove⟩ := Finset.mem_filter.1 hv
      rcases hold v habove with hv | ⟨rfl, -⟩
      · exact Finset.mem_insert_of_mem (Finset.mem_filter.2 ⟨hS, hv⟩)
      · exact Finset.mem_insert_self _ _
    have hcard := (Finset.card_le_card hsub).trans (h.card j)
    have hcard' := Finset.card_le_card hnew
    have hu' : u ∉ insert t (S.filter fun v => above (j + 1) (s.pc v)) := by
      rw [Finset.mem_insert, not_or]
      exact ⟨htu, hnot u hu⟩
    rw [Finset.card_insert_of_notMem hu', Finset.card_insert_of_notMem (hnot t ht)] at hcard
    rw [Finset.card_insert_of_notMem (hnot t ht)] at hcard'
    omega
  · refine (Finset.card_le_card fun v hv => ?_).trans (h.card k)
    obtain ⟨hS, habove⟩ := Finset.mem_filter.1 hv
    exact Finset.mem_filter.2 ⟨hS, (hold v habove).resolve_right fun hv => hk hv.2⟩

/-- A thread that keeps its slot, or goes without one. -/
theorem Levels.keep {S : Finset T} {s : Threads T α} (h : Levels S s) {t : T} {pc' : Pc α}
    (hpc' : ∀ i, level pc' = some i → level (s.pc t) = some i) (k : ℕ) :
    (S.filter fun v => above k (Function.update s.pc t pc' v)).card ≤ S.card - k := by
  refine (Finset.card_le_card fun v hv => ?_).trans (h.card k)
  obtain ⟨hS, habove⟩ := Finset.mem_filter.1 hv
  refine Finset.mem_filter.2 ⟨hS, ?_⟩
  rcases update_cases habove with ⟨rfl, hv'⟩ | ⟨-, hv'⟩
  · obtain ⟨i, hi, hle⟩ := above_iff.1 hv'
    exact above_iff.2 ⟨i, hpc' i hi, hle⟩
  · exact hv'

theorem levels_step {S : Finset T} {s s' : Threads T α} {i : T × Call α} {o : List (Obs T α)}
    (h : Levels S s) (hslots : Slots s) (hi : i.2 = .dequeue → i.1 ∈ S)
    (hs : step s i = .ok (s', o)) : Levels S s' := by
  obtain ⟨ctx', pc', ha, rfl⟩ := step_ok hs
  have hlt : ∀ u k, Function.update s.pc i.1 pc' u = .casTid k → k < ctx'.maxHpSize := by
    intro u k hu
    rw [ha.maxHpSize]
    rcases update_cases (f := id) hu with ⟨rfl, hpc⟩ | ⟨-, hpc⟩
    · rw [show pc' = .casTid k from hpc] at ha
      exact access_casTid ha
    · exact h.lt u k hpc
  have hmem : (∀ k, level pc' = some k → i.1 ∈ S) →
      ∀ u k, level (Function.update s.pc i.1 pc' u) = some k → u ∈ S := by
    intro hpc u k hu
    rcases update_cases hu with ⟨rfl, hu'⟩ | ⟨-, hu'⟩
    · exact hpc k hu'
    · exact h.mem u k hu'
  rcases access_level ha with hsame | hnone | ⟨hidle, rfl⟩ | ⟨j, hpc, rfl, htaken⟩
  · have hback : ∀ k, level pc' = some k → level (s.pc i.1) = some k := fun k hk => hsame ▸ hk
    exact ⟨hmem fun k hk => h.mem _ k (hback k hk), h.keep hback, hlt⟩
  · have hback : ∀ k, level pc' = some k → level (s.pc i.1) = some k := fun k hk => by
      rw [hnone] at hk
      cases hk
    exact ⟨hmem fun k hk => h.mem _ k (hback k hk), h.keep hback, hlt⟩
  · -- the thread begins to look
    have hS : i.1 ∈ S := hi (step_dequeue hs hidle (Function.update_self _ _ _))
    refine ⟨hmem fun _ _ => hS, fun k => ?_, hlt⟩
    cases k with
    | zero => exact Finset.card_filter_le _ _
    | succ k =>
      refine (Finset.card_le_card fun v hv => ?_).trans (h.card (k + 1))
      obtain ⟨hSv, habove⟩ := Finset.mem_filter.1 hv
      refine Finset.mem_filter.2 ⟨hSv, ?_⟩
      rcases update_cases habove with ⟨rfl, hv'⟩ | ⟨-, hv'⟩
      · obtain ⟨m, hm, hle⟩ := above_iff.1 hv'
        cases hm
        omega
      · exact hv'
  · have hlevel : level (s.pc i.1) = some j := by
      rcases hpc with hpc | ⟨hpc, -⟩ <;> rw [hpc] <;> rfl
    have hj : j < s.ctx.maxHpSize := by
      rcases hpc with hpc | ⟨-, hj⟩
      · exact h.lt _ j hpc
      · exact hj
    obtain ⟨u, hu⟩ := (hslots.holder j hj).resolve_left htaken
    have hut : u ≠ i.1 := by
      rintro rfl
      rcases hpc with hpc | ⟨hpc, -⟩ <;> rw [hpc] at hu <;> cases hu
    exact ⟨hmem fun _ _ => h.mem _ j hlevel, h.advance hut hlevel (tid_level hu) rfl, hlt⟩

omit [DecidableEq T] in
theorem levels_init (S : Finset T) (n : ℕ) : Levels S (init T α n) where
  mem _ _ h := by cases h
  card j := by
    rw [Finset.filter_false_of_mem fun _ _ => nofun]
    exact Nat.zero_le _
  lt _ _ h := by cases h

omit [DecidableEq T] in
/-- A call returns `(void *) -1` where the thread has looked at all slots. -/
theorem access_minusOne {ctx ctx' : LfqCtx α} {t u : T} {pc pc' : Pc α} {o r : List (Obs T α)}
    (ha : Access ctx t pc ctx' pc' o) (hr : Open ctx t pc r) (h : .dequeued u .minusOne ∈ o) :
    ∃ i, pc = .testTid i ∧ ctx.maxHpSize ≤ i := by
  cases ha with
  | noTid hi => exact ⟨_, rfl, hi⟩
  | freeTid =>
    rw [List.mem_singleton, Obs.dequeued.injEq] at h
    rcases hr with ⟨rfl, -⟩ | ⟨x, rfl, -⟩ <;> cases h.2
  | _ => simp at h

/-- With a slot for each thread that calls `lfq_dequeue`, however many others call `lfq_enqueue`, no
`lfq_dequeue` returns `(void *) -1`. -/
theorem tids_suffice {n : ℕ} {S : Finset T} (hn : S.card ≤ n) (is : List (T × Call α))
    (hS : ∀ i ∈ is, i.2 = .dequeue → i.1 ∈ S) {s : Threads T α} {h : List (Obs T α)}
    (he : exec step (init T α n) is = .ok (s, h)) (t : T) : .dequeued t .minusOne ∉ h := by
  have hind : Inductive (step (T := T) (α := α)) (fun _ i => i.2 = .dequeue → i.1 ∈ S) fun s h =>
      (Inv s h ∧ ∀ t, Told s h t) ∧
        (Levels S s ∧ s.ctx.maxHpSize = n ∧ ∀ u, .dequeued u .minusOne ∉ h) := by
    refine (inductive_told.mono fun _ _ _ => trivial).and ?_
    rintro s h i s' o ⟨⟨hslots, -⟩, htold⟩ ⟨hlevels, hmax, hnone⟩ hG hs
    refine ⟨levels_step hlevels hslots hG hs, ?_, fun u hu => ?_⟩
    · obtain ⟨ctx', pc', ha, rfl⟩ := step_ok hs
      exact ha.maxHpSize.trans hmax
    · rcases List.mem_append.1 hu with hu | hu
      · exact hnone u hu
      · obtain ⟨ctx', pc', ha, rfl⟩ := step_ok hs
        obtain ⟨done, r, -, -, hr⟩ := htold i.1
        obtain ⟨k, hpc, hk⟩ := access_minusOne ha hr hu
        -- at least one thread has come to slot `k`
        have hmem : i.1 ∈ S.filter fun v => above k (s.pc v) :=
          Finset.mem_filter.2 ⟨hlevels.mem i.1 k (by rw [hpc]; rfl),
            above_iff.2 ⟨k, by rw [hpc]; rfl, le_rfl⟩⟩
        have hpos := Finset.card_pos.2 ⟨_, hmem⟩
        have hcard := hlevels.card k
        omega
  have hstart : ∀ t, Told (init T α n) [] t := fun t => ⟨[], [], rfl, .nil, rfl⟩
  have hall := hind.exec ⟨⟨inv_init n, hstart⟩, levels_init S n, rfl, nofun⟩
    (Along.of_forall (fun i hi _ => hS i hi) _) he
  exact hall.2.2.2 t

end Slots

/-- One thread enqueues, and two dequeue: both find the first slot free, and one of them gets it. -/
theorem tids_suffice_two : Reaches step (init (Fin 3) ℕ 2)
    (List.replicate 3 (0, .enqueue 7 2) ++ (List.replicate 30 [(1, .dequeue), (2, .dequeue)]).flatten)
    fun _ h => .dequeued 1 (.data 7) ∈ h ∧ .dequeued 2 .null ∈ h ∧ ∀ t, .dequeued t .minusOne ∉ h := by
  have hrun : Reaches step (init (Fin 3) ℕ 2)
      (List.replicate 3 (0, .enqueue 7 2) ++ (List.replicate 30 [(1, .dequeue), (2, .dequeue)]).flatten)
      fun _ h => .dequeued 1 (.data 7) ∈ h ∧ .dequeued 2 .null ∈ h := by decide +kernel
  obtain ⟨s, h, he, h₁, h₂⟩ := hrun
  exact ⟨s, h, he, h₁, h₂, tids_suffice (S := {1, 2}) (by decide) _ (by simp) he⟩

end LfqThreads

end MixSim
