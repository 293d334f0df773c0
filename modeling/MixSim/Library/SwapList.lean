import Mathlib.Data.List.Chain
import Mathlib.Tactic

/-!
# Lists whose tail is exchanged before it is linked

A linked list can be extended by several writers at a time: a writer exchanges the tail pointer with
its new node, and only then links the old tail to it. In between the list is broken at the old tail;
the link is *pending*. A reader takes nodes off the front, and stops at a link that is not written.

Nothing is assumed about the memory: `link a` is the link field of the node at `a`, and `none` where
there is no node; `pend a b` says that a writer is about to link `a` to `b`. `Linked` says that the
nodes of `l` are linked in this order, but for the pending links. The operations of the list keep it:
`Linked.exchange`, `Linked.write` and `Linked.pop`.
-/

namespace SwapList

variable {A : Type*} {null : A} {link link' : A → Option A} {pend pend' : A → A → Prop}
  {first final : A} {l : List A}

/-- The nodes of `l` are linked in this order, and each link that is missing is pending. -/
structure Linked (null : A) (link : A → Option A) (pend : A → A → Prop) (first final : A)
    (l : List A) : Prop where
  head : l.head? = some first
  last : l.getLast? = some final
  chain : l.IsChain fun a b => link a = some b ∨ (link a = some null ∧ pend a b)
  stop : link final = some null
  nodup : l.Nodup
  ne_null : null ∉ l
  pending : ∀ a b, pend a b → [a, b] <:+: l ∧ link a = some null

theorem linked_single {a : A} (ha : link a = some null) (hne : a ≠ null) (hp : ∀ b c, ¬ pend b c) :
    Linked null link pend a a [a] where
  head := rfl
  last := rfl
  chain := .singleton a
  stop := ha
  nodup := List.nodup_singleton a
  ne_null := by simpa using hne.symm
  pending b c hbc := absurd hbc (hp b c)

namespace Linked

section Facts

variable (h : Linked null link pend first final l)

include h

theorem eq_cons : ∃ rest, l = first :: rest := by
  have hhead := h.head
  cases l with
  | nil => cases hhead
  | cons a rest =>
    cases hhead
    exact ⟨rest, rfl⟩

theorem first_mem : first ∈ l := List.mem_of_head? h.head

theorem final_mem : final ∈ l := List.mem_of_getLast? h.last

/-- The first node is not among the others. -/
theorem first_notMem : first ∉ l.tail := by
  obtain ⟨rest, rfl⟩ := h.eq_cons
  exact (List.nodup_cons.1 h.nodup).1

/-- A node is the first one or among the others. -/
theorem mem_iff {a : A} : a ∈ l ↔ a = first ∨ a ∈ l.tail := by
  obtain ⟨rest, rfl⟩ := h.eq_cons
  exact List.mem_cons

/-- Two neighbours are linked, or about to be. -/
theorem rel {a b : A} (hab : [a, b] <:+: l) : link a = some b ∨ (link a = some null ∧ pend a b) := by
  have hchain := h.chain.infix hab
  rwa [List.isChain_pair] at hchain

/-- A node other than the last has a neighbour. -/
theorem neighbour {a : A} (ha : a ∈ l) (hne : a ≠ final) : ∃ b, [a, b] <:+: l := by
  obtain ⟨s, t, rfl⟩ := List.append_of_mem ha
  cases t with
  | nil =>
    have hlast := h.last
    rw [List.getLast?_append_cons, List.getLast?_singleton, Option.some.injEq] at hlast
    exact absurd hlast hne
  | cons b t => exact ⟨b, s, t, by simp⟩

/-- A node has one neighbour, and the last has none. -/
theorem neighbour_unique {a b c : A} (hb : [a, b] <:+: l) (hc : [a, c] <:+: l) : b = c := by
  obtain ⟨s, t, hs⟩ := hb
  obtain ⟨s', t', hs'⟩ := hc
  have heq : s ++ a :: b :: t = s' ++ a :: c :: t' := by
    simpa using hs.trans hs'.symm
  have hnd := h.nodup
  rw [← hs'] at hnd
  have hnd' : (s' ++ a :: c :: t').Nodup := by simpa using hnd
  obtain ⟨-, hnd', hdisj⟩ := List.nodup_append.1 hnd'
  have hna : a ∉ s' := fun hmem => hdisj _ hmem _ List.mem_cons_self rfl
  obtain ⟨-, -, htail⟩ := (List.append_cons_inj_of_notMem hna (List.nodup_cons.1 hnd').1).1 heq.symm
  exact (List.cons.inj htail).1.symm

theorem ne_final {a b : A} (hab : [a, b] <:+: l) : a ≠ final := by
  rintro rfl
  obtain ⟨s, t, rfl⟩ := hab
  have hlast := h.last
  have hnd := (List.nodup_append.1 (List.append_assoc s _ t ▸ h.nodup)).2.1
  have hmem : a ∈ b :: t := by
    rw [List.append_assoc] at hlast
    have hin : [a, b] ++ t = a :: b :: t := rfl
    rw [hin, List.getLast?_append_cons, List.getLast?_cons_cons] at hlast
    exact List.mem_of_getLast? hlast
  exact (List.nodup_cons.1 hnd).1 hmem

/-- A link that is written leads to the neighbour. -/
theorem neighbour_of_link {a b : A} (ha : a ∈ l) (hl : link a = some b) (hb : b ≠ null) :
    [a, b] <:+: l := by
  have hne : a ≠ final := by
    rintro rfl
    rw [h.stop] at hl
    cases hl
    exact hb rfl
  obtain ⟨c, hc⟩ := h.neighbour ha hne
  rcases h.rel hc with hl' | ⟨hl', -⟩
  · rw [hl] at hl'
    cases hl'
    exact hc
  · rw [hl] at hl'
    cases hl'
    exact absurd rfl hb

end Facts

/-! ### The operations -/

variable (h : Linked null link pend first final l)

include h

/-- Only the nodes of the list, and which links are pending, count. -/
theorem congr (hl : ∀ a ∈ l, link' a = link a) (hp : ∀ a b, pend' a b ↔ pend a b) :
    Linked null link' pend' first final l where
  head := h.head
  last := h.last
  chain := h.chain.imp_of_mem_imp fun a b ha _ hab => by rwa [hl a ha, hp]
  stop := by rw [hl final h.final_mem, h.stop]
  nodup := h.nodup
  ne_null := h.ne_null
  pending a b hab := by
    obtain ⟨hin, hnull⟩ := h.pending a b ((hp a b).1 hab)
    exact ⟨hin, by rw [hl a (hin.subset List.mem_cons_self), hnull]⟩

/-- The tail pointer is exchanged with a new node; the link to it is pending. -/
theorem exchange {n : A} (hn : n ∉ l) (hne : n ≠ null) (hlink : link n = some null)
    (hp : ∀ a b, pend' a b ↔ pend a b ∨ (a = final ∧ b = n)) :
    Linked null link pend' first n (l ++ [n]) where
  head := by
    obtain ⟨rest, rfl⟩ := h.eq_cons
    rfl
  last := List.getLast?_concat
  chain := by
    refine (h.chain.imp fun a b hab => ?_).append (.singleton n) ?_
    · rw [hp]
      tauto
    · intro a ha b hb
      rw [h.last, Option.mem_some_iff] at ha
      rw [List.head?_cons, Option.mem_some_iff] at hb
      subst ha hb
      exact Or.inr ⟨h.stop, (hp _ _).2 (Or.inr ⟨rfl, rfl⟩)⟩
  stop := hlink
  nodup := by
    rw [List.nodup_append_comm]
    exact List.nodup_cons.2 ⟨hn, h.nodup⟩
  ne_null := by
    rw [List.mem_append, List.mem_singleton]
    rintro (hmem | rfl)
    · exact h.ne_null hmem
    · exact hne rfl
  pending a b hab := by
    rcases (hp a b).1 hab with hab | ⟨rfl, rfl⟩
    · obtain ⟨hin, hnull⟩ := h.pending a b hab
      exact ⟨hin.trans (List.prefix_append l [n]).isInfix, hnull⟩
    · refine ⟨?_, h.stop⟩
      obtain ⟨s, rfl⟩ := List.getLast?_eq_some_iff.1 h.last
      exact ⟨s, [], by simp⟩

/-- The writer of a pending link writes it. -/
theorem write {a b : A} (hab : pend a b) (hl : link' a = some b)
    (hother : ∀ c ∈ l, c ≠ a → link' c = link c)
    (hp : ∀ c d, pend' c d ↔ pend c d ∧ c ≠ a) : Linked null link' pend' first final l where
  head := h.head
  last := h.last
  chain := by
    refine (List.isChain_isInfix l).imp fun c d hcd => ?_
    by_cases hca : c = a
    · subst hca
      rw [h.neighbour_unique hcd (h.pending c b hab).1]
      exact Or.inl hl
    · rw [hother c (hcd.subset List.mem_cons_self) hca, hp]
      have hrel := h.rel hcd
      tauto
  stop := by
    rw [hother final h.final_mem (h.ne_final (h.pending a b hab).1).symm, h.stop]
  nodup := h.nodup
  ne_null := h.ne_null
  pending c d hcd := by
    obtain ⟨hcd, hca⟩ := (hp c d).1 hcd
    obtain ⟨hin, hnull⟩ := h.pending c d hcd
    exact ⟨hin, by rw [hother c (hin.subset List.mem_cons_self) hca, hnull]⟩

/-- The first node is taken off, where its link is written. -/
theorem pop {b : A} (hl : link first = some b) (hb : b ≠ null) :
    ∃ rest, l = first :: b :: rest ∧ Linked null link pend b final (b :: rest) := by
  obtain ⟨rest, rfl⟩ := h.eq_cons
  have hin := h.neighbour_of_link List.mem_cons_self hl hb
  cases rest with
  | nil =>
    have hlen := hin.length_le
    rw [List.length_cons, List.length_singleton, List.length_singleton] at hlen
    omega
  | cons c rest =>
    have hc : b = c := h.neighbour_unique hin ⟨[], rest, rfl⟩
    subst hc
    refine ⟨rest, rfl, ⟨rfl, ?_, h.chain.tail, h.stop, h.nodup.of_cons, ?_, ?_⟩⟩
    · have hlast := h.last
      rwa [List.getLast?_cons_cons] at hlast
    · exact fun hmem => h.ne_null (List.mem_cons_of_mem _ hmem)
    · intro c d hcd
      obtain ⟨hin', hnull⟩ := h.pending c d hcd
      refine ⟨?_, hnull⟩
      -- the link of the node that is taken off is written, so it is not pending
      rcases List.infix_cons_iff.1 hin' with hpre | hin'
      · obtain ⟨rfl, -⟩ := List.cons_prefix_cons.1 hpre
        rw [hl] at hnull
        cases hnull
        exact absurd rfl hb
      · exact hin'

end Linked

end SwapList
