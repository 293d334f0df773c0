import Mathlib.Data.List.Perm.Basic
import Mathlib.Tactic

/-!
# Event queues

The queue of a discrete-event simulator: events with the times they are due, in the order in which
they will be taken off. A new event goes behind the ones that are due no later (`schedule`). `times`
are the times of the pending events of one kind; scheduling an event of that kind adds its time,
scheduling another leaves them.
-/

namespace EventQueue

variable {ε : Type*}

/-- Schedule an event. -/
def schedule (t : ℕ) (e : ε) : List (ℕ × ε) → List (ℕ × ε)
  | [] => [(t, e)]
  | x :: q => if x.1 ≤ t then x :: schedule t e q else (t, e) :: x :: q

/-- The events are in the order of their times. -/
def Sorted (q : List (ℕ × ε)) : Prop := q.Pairwise (·.1 ≤ ·.1)

/-- The times of the events of one kind. -/
def times (kind : ε → Bool) (q : List (ℕ × ε)) : List ℕ := (q.filter (kind ·.2)).map Prod.fst

variable {t : ℕ} {e : ε} {q : List (ℕ × ε)} {kind : ε → Bool}

theorem mem_schedule {x : ℕ × ε} : x ∈ schedule t e q ↔ x = (t, e) ∨ x ∈ q := by
  induction q with
  | nil => simp [schedule]
  | cons y q ih =>
    rw [schedule]
    split_ifs
    · rw [List.mem_cons, ih, List.mem_cons]
      tauto
    · rw [List.mem_cons]

theorem Sorted.schedule (h : Sorted q) (t : ℕ) (e : ε) : Sorted (schedule t e q) := by
  induction q with
  | nil => exact List.pairwise_singleton _ _
  | cons y q ih =>
    obtain ⟨hy, hq⟩ := List.pairwise_cons.1 h
    rw [EventQueue.schedule]
    split_ifs with hle
    · refine List.pairwise_cons.2 ⟨fun x hx => ?_, ih hq⟩
      rcases mem_schedule.1 hx with rfl | hx
      · exact hle
      · exact hy x hx
    · refine List.pairwise_cons.2 ⟨fun x hx => ?_, h⟩
      rcases List.mem_cons.1 hx with rfl | hx
      · exact (not_le.1 hle).le
      · exact (not_le.1 hle).le.trans (hy x hx)

/-- The first event is due first. -/
theorem Sorted.head_le {x : ℕ × ε} (h : Sorted (x :: q)) {s : ℕ} (hs : s ∈ times kind (x :: q)) :
    x.1 ≤ s := by
  obtain ⟨y, hy, rfl⟩ := List.mem_map.1 hs
  rcases List.mem_cons.1 (List.mem_filter.1 hy).1 with rfl | hmem
  · exact le_rfl
  · exact (List.pairwise_cons.1 h).1 y hmem

theorem Sorted.tail {x : ℕ × ε} (h : Sorted (x :: q)) : Sorted q := (List.pairwise_cons.1 h).2

theorem times_cons_of_not {x : ℕ × ε} (h : kind x.2 = false) : times kind (x :: q) = times kind q := by
  simp [times, h]

theorem times_cons_of {x : ℕ × ε} (h : kind x.2 = true) :
    times kind (x :: q) = x.1 :: times kind q := by
  simp [times, h]

/-- An event of another kind leaves the times. -/
theorem times_schedule_of_not (h : kind e = false) : times kind (schedule t e q) = times kind q := by
  induction q with
  | nil => exact times_cons_of_not (x := (t, e)) h
  | cons y q ih =>
    rw [schedule]
    split_ifs
    · cases hy : kind y.2 with
      | true => rw [times_cons_of hy, times_cons_of hy, ih]
      | false => rw [times_cons_of_not hy, times_cons_of_not hy, ih]
    · exact times_cons_of_not (x := (t, e)) h

/-- An event of the kind, where none is pending. -/
theorem times_schedule_of_nil (h : kind e = true) (hnil : times kind q = []) :
    times kind (schedule t e q) = [t] := by
  induction q with
  | nil => exact times_cons_of (x := (t, e)) h
  | cons y q ih =>
    cases hy : kind y.2 with
    | true =>
      rw [times_cons_of hy] at hnil
      cases hnil
    | false =>
      have hrest := hnil
      rw [times_cons_of_not hy] at hrest
      rw [schedule]
      split_ifs
      · rw [times_cons_of_not hy, ih hrest]
      · rw [times_cons_of (x := (t, e)) h, hnil]

end EventQueue
