import Mathlib.Tactic

/-!
# Linked segments in a heap

A heap maps addresses to nodes; what the nodes are is left open. Three relations say how a node is
read: `isNil n`, it is the last one; `isNext n b`, it points to `b`; `holds n x`, it carries `x`.
`Seg heap a bs` says that the node at `a` is followed by exactly the nodes `bs`, given with their
addresses and values. The node at `a` is the dummy of a queue: its own value does not count.

A queue appends a node after the last one (`Seg.append`); a segment is untouched by what happens to
other nodes (`Seg.congr`).
-/

namespace LinkedSegment

open Function (update)

variable {N α : Type*}

section Seg

variable (isNil : N → Prop) (isNext : N → ℕ → Prop) (holds : N → α → Prop)

/-- The node at `a` is followed by exactly the nodes `bs`. -/
def Seg (heap : ℕ → Option N) : ℕ → List (ℕ × α) → Prop
  | a, [] => ∃ n, heap a = some n ∧ isNil n
  | a, (b, x) :: bs =>
      (∃ n, heap a = some n ∧ isNext n b) ∧ (∃ m, heap b = some m ∧ holds m x) ∧ Seg heap b bs

/-- The address of the last node of a segment. -/
def lastAddr : ℕ → List (ℕ × α) → ℕ
  | a, [] => a
  | _, (b, _) :: bs => lastAddr b bs

/-- The addresses of a segment, the dummy included. -/
def addrs (a : ℕ) (bs : List (ℕ × α)) : List ℕ := a :: bs.map Prod.fst

end Seg

variable {isNil : N → Prop} {isNext : N → ℕ → Prop} {holds : N → α → Prop}
  {heap heap' : ℕ → Option N} {a : ℕ} {bs : List (ℕ × α)}

@[simp] theorem addrs_nil (a : ℕ) : addrs a ([] : List (ℕ × α)) = [a] := rfl

@[simp] theorem addrs_cons (a b : ℕ) (x : α) (bs : List (ℕ × α)) :
    addrs a ((b, x) :: bs) = a :: addrs b bs := rfl

theorem addrs_snoc (a b : ℕ) (x : α) (bs : List (ℕ × α)) :
    addrs a (bs ++ [(b, x)]) = addrs a bs ++ [b] := by
  simp [addrs]

theorem lastAddr_snoc (a b : ℕ) (x : α) (bs : List (ℕ × α)) :
    lastAddr a (bs ++ [(b, x)]) = b := by
  induction bs generalizing a with
  | nil => rfl
  | cons c bs ih => exact ih c.1

theorem lastAddr_mem (a : ℕ) (bs : List (ℕ × α)) : lastAddr a bs ∈ addrs a bs := by
  induction bs generalizing a with
  | nil => simp [lastAddr]
  | cons c bs ih => exact List.mem_cons_of_mem _ (ih c.1)

/-- A segment depends only on the nodes at its own addresses. -/
theorem Seg.congr (h : Seg isNil isNext holds heap a bs) (hh : ∀ b ∈ addrs a bs, heap' b = heap b) :
    Seg isNil isNext holds heap' a bs := by
  induction bs generalizing a with
  | nil =>
    obtain ⟨n, hn, hnil⟩ := h
    exact ⟨n, by rw [hh a (by simp), hn], hnil⟩
  | cons c bs ih =>
    obtain ⟨b, x⟩ := c
    obtain ⟨⟨n, hn, hnext⟩, ⟨m, hm, hx⟩, hseg⟩ := h
    refine ⟨⟨n, by rw [hh a (by simp), hn], hnext⟩, ⟨m, ?_, hx⟩, ?_⟩
    · rw [hh b (by simp [addrs]), hm]
    · exact ih hseg fun c hc => hh c (List.mem_cons_of_mem _ hc)

/-- Every address of a segment holds a node. -/
theorem Seg.alloc (h : Seg isNil isNext holds heap a bs) {b : ℕ} (hb : b ∈ addrs a bs) :
    ∃ n, heap b = some n := by
  induction bs generalizing a with
  | nil =>
    obtain ⟨n, hn, -⟩ := h
    rw [addrs_nil, List.mem_singleton] at hb
    exact ⟨n, hb ▸ hn⟩
  | cons c bs ih =>
    obtain ⟨⟨n, hn, -⟩, -, hseg⟩ := h
    rcases List.mem_cons.1 hb with rfl | hb
    · exact ⟨n, hn⟩
    · exact ih hseg hb

/-- The last node of a segment points nowhere. -/
theorem Seg.last (h : Seg isNil isNext holds heap a bs) :
    ∃ n, heap (lastAddr a bs) = some n ∧ isNil n := by
  induction bs generalizing a with
  | nil => exact h
  | cons c bs ih => exact ih h.2.2

/-- Link a new node after the last one: the node written over the last one points to it and carries
what the last one carried. -/
theorem Seg.append (h : Seg isNil isNext holds heap a bs) (hnd : (addrs a bs).Nodup) {c : ℕ} {x : α}
    {last last' new : N} (hc : c ∉ addrs a bs) (hl : heap (lastAddr a bs) = some last)
    (hnext : isNext last' c) (hholds : ∀ y, holds last y → holds last' y)
    (hnew : isNil new) (hx : holds new x) :
    Seg isNil isNext holds (update (update heap c (some new)) (lastAddr a bs) (some last'))
      a (bs ++ [(c, x)]) := by
  induction bs generalizing a with
  | nil =>
    have hca : c ≠ a := fun hca => hc (by simp [hca])
    refine ⟨⟨last', by simp [lastAddr], hnext⟩, ⟨new, ?_, hx⟩, new, ?_, hnew⟩ <;>
      rw [lastAddr, Function.update_of_ne hca, Function.update_self]
  | cons d bs ih =>
    obtain ⟨b, y⟩ := d
    obtain ⟨⟨n, hn, hnb⟩, ⟨m, hm, hy⟩, hseg⟩ := h
    rw [addrs_cons, List.nodup_cons] at hnd
    rw [addrs_cons, List.mem_cons, not_or] at hc
    have hlast : lastAddr a ((b, y) :: bs) = lastAddr b bs := rfl
    rw [hlast] at hl ⊢
    have hal : a ≠ lastAddr b bs := fun he => hnd.1 (he ▸ lastAddr_mem b bs)
    have hcb : b ≠ c := fun he => hc.2 (he ▸ List.mem_cons_self)
    refine ⟨⟨n, ?_, hnb⟩, ?_, ih hseg hnd.2 hc.2 hl⟩
    · rw [Function.update_of_ne hal, Function.update_of_ne (Ne.symm hc.1), hn]
    · -- the node at `b` is the one written over when it is the last
      by_cases hbl : b = lastAddr b bs
      · rw [← hbl, hm] at hl
        cases hl
        exact ⟨last', by rw [← hbl, Function.update_self], hholds y hy⟩
      · exact ⟨m, by rw [Function.update_of_ne hbl, Function.update_of_ne hcb, hm], hy⟩

end LinkedSegment
