import Mathlib.Tactic

/-!
# Buffers that travel between places

A pool is a growing collection of buffers, each with its contents, and a family of places, each a
queue of buffers. A buffer travels: it leaves the front of a place, or is newly allocated, may be
rewritten on the way, and arrives at the end of a place, or is lost. Nothing else touches a buffer.

* `Owned`: no buffer is in two places, or twice in one. Every travel keeps it (`Move.owned`), so
  a buffer is never rewritten while it waits somewhere.
* Each place is therefore a FIFO of contents (`Moves.frames`): what has left, followed by what is
  there, is what was there, followed by what has arrived.
* `Conserved`: every buffer is somewhere. Travels that lose nothing keep it (`Moves.conserved`), and the
  buffers that are nowhere are as many as the travels that lose one (`Moves.card_lost`).
-/

namespace BufferPool

variable {π F : Type*}

/-- The contents of the buffers `0, 1, …`, and the buffers in each place, first out first. -/
structure Pool (π F : Type*) where
  mem : List F
  loc : π → List ℕ

/-- The contents of the buffers in a place. -/
def Pool.frames (p : Pool π F) (x : π) : List F := (p.loc x).filterMap (p.mem[·]?)

/-- No buffer is in two places or twice in one, and all buffers exist. -/
structure Owned (p : Pool π F) : Prop where
  nodup : ∀ x, (p.loc x).Nodup
  exclusive : ∀ {x y b}, b ∈ p.loc x → b ∈ p.loc y → x = y
  lt : ∀ {x b}, b ∈ p.loc x → b < p.mem.length

/-- Every buffer is in some place. -/
def Conserved (p : Pool π F) : Prop := ∀ b < p.mem.length, ∃ x, b ∈ p.loc x

/-- A travel: from a place or from the allocator, to a place or to nowhere, with the contents of
the buffer before and after. -/
structure Travel (π F : Type*) where
  src : Option π
  dst : Option π
  old : F
  new : F

variable [DecidableEq π]

/-- What a travel takes from a place. -/
def Travel.outs (t : Travel π F) (x : π) : List F := if t.src = some x then [t.old] else []

/-- What a travel brings to a place. -/
def Travel.ins (t : Travel π F) (x : π) : List F := if t.dst = some x then [t.new] else []

/-- What travels take from a place, in order. -/
def outs (ts : List (Travel π F)) (x : π) : List F := ts.flatMap (·.outs x)

/-- What travels bring to a place, in order. -/
def ins (ts : List (Travel π F)) (x : π) : List F := ts.flatMap (·.ins x)

/-- The places after buffer `b` has arrived. -/
def arrive (loc : π → List ℕ) (b : ℕ) : Option π → π → List ℕ
  | none => loc
  | some y => Function.update loc y (loc y ++ [b])

/-- One travel. -/
inductive Move : Pool π F → Travel π F → Pool π F → Prop
  | recycle {p x y b rest f g} (hx : p.loc x = b :: rest) (hf : p.mem[b]? = some f) :
      Move p ⟨some x, y, f, g⟩ ⟨p.mem.set b g, arrive (Function.update p.loc x rest) b y⟩
  | fresh {p y g} : Move p ⟨none, y, g, g⟩ ⟨p.mem ++ [g], arrive p.loc p.mem.length y⟩

/-- A sequence of travels. -/
inductive Moves : Pool π F → List (Travel π F) → Pool π F → Prop
  | nil {p} : Moves p [] p
  | cons {p p' p'' t ts} (h : Move p t p') (hs : Moves p' ts p'') : Moves p (t :: ts) p''

variable {p p' p'' : Pool π F} {t : Travel π F} {ts : List (Travel π F)} {x : π}

theorem Move.moves (h : Move p t p') : Moves p [t] p' := .cons h .nil

theorem Move.congr_pool (h : Move p t p') (hp : p'' = p') : Move p t p'' := hp ▸ h

/-- A buffer that travels without being rewritten. -/
theorem Move.carry {b : ℕ} {rest : List ℕ} {f : F} (y : Option π) (hx : p.loc x = b :: rest)
    (hf : p.mem[b]? = some f) :
    Move p ⟨some x, y, f, f⟩ ⟨p.mem, arrive (Function.update p.loc x rest) b y⟩ := by
  have hmem : p.mem.set b f = p.mem := by
    obtain ⟨hb, rfl⟩ := List.getElem?_eq_some_iff.1 hf
    exact List.set_getElem_self hb
  have hm := Move.recycle (y := y) (g := f) hx hf
  rwa [hmem] at hm

/-! ### Arrivals -/

section Arrive

variable {loc : π → List ℕ} {b c : ℕ} {y : Option π}

theorem arrive_apply : arrive loc b y x = loc x ++ if y = some x then [b] else [] := by
  cases y with
  | none => simp [arrive]
  | some y =>
    by_cases hxy : y = x
    · subst hxy
      simp [arrive]
    · simp [arrive, hxy, Function.update_of_ne (Ne.symm hxy)]

theorem mem_arrive : c ∈ arrive loc b y x ↔ c ∈ loc x ∨ (c = b ∧ y = some x) := by
  rw [arrive_apply, List.mem_append]
  by_cases hy : y = some x <;> simp [hy]

theorem mem_depart {rest : List ℕ} {z : π} (hx : loc x = b :: rest) (hn : (loc x).Nodup)
    (hne : ∀ y, b ∈ loc y → y = x) :
    c ∈ Function.update loc x rest z ↔ c ∈ loc z ∧ c ≠ b := by
  rw [hx, List.nodup_cons] at hn
  by_cases hz : z = x
  · subst hz
    rw [Function.update_self, hx, List.mem_cons]
    constructor
    · intro hc
      exact ⟨Or.inr hc, fun hcb => hn.1 (hcb ▸ hc)⟩
    · rintro ⟨rfl | hc, hcb⟩
      · exact absurd rfl hcb
      · exact hc
  · rw [Function.update_of_ne hz]
    constructor
    · intro hc
      exact ⟨hc, fun hcb => hz (hne z (hcb ▸ hc))⟩
    · exact And.left

end Arrive

/-! ### Ownership -/

/-- An arrival of a buffer that is nowhere keeps ownership exclusive. -/
theorem Owned.arrive {loc : π → List ℕ} {mem : List F} {b : ℕ} (y : Option π)
    (h : Owned ⟨mem, loc⟩) (hb : b < mem.length) (hfree : ∀ x, b ∉ loc x) :
    Owned ⟨mem, BufferPool.arrive loc b y⟩ where
  nodup x := by
    dsimp only
    rw [arrive_apply]
    by_cases hy : y = some x
    · rw [if_pos hy, List.nodup_append_comm]
      exact List.nodup_cons.2 ⟨hfree x, h.nodup x⟩
    · rw [if_neg hy, List.append_nil]
      exact h.nodup x
  exclusive {x z c} hx hz := by
    rw [mem_arrive] at hx hz
    rcases hx with hx | ⟨rfl, rfl⟩ <;> rcases hz with hz | ⟨hc, hz⟩
    · exact h.exclusive hx hz
    · exact absurd (hc ▸ hx) (hfree x)
    · exact absurd hz (hfree z)
    · exact Option.some.inj hz
  lt {x c} hx := by
    rw [mem_arrive] at hx
    rcases hx with hx | ⟨rfl, -⟩
    · exact h.lt hx
    · exact hb

/-- A buffer that leaves the front of its place is nowhere. -/
theorem Owned.depart {b : ℕ} {rest : List ℕ} (h : Owned p) (hx : p.loc x = b :: rest) (g : F) :
    Owned ⟨p.mem.set b g, Function.update p.loc x rest⟩ ∧ ∀ y, b ∉ Function.update p.loc x rest y := by
  have hbx : b ∈ p.loc x := by rw [hx]; exact List.mem_cons_self
  have hiff : ∀ c z, c ∈ Function.update p.loc x rest z ↔ c ∈ p.loc z ∧ c ≠ b := fun c z =>
    mem_depart hx (h.nodup x) fun y hy => h.exclusive hy hbx
  refine ⟨⟨fun z => ?_, fun {y z c} hy hz => ?_, fun {z c} hz => ?_⟩, fun y hy => ?_⟩
  · by_cases hz : z = x
    · subst hz
      have hn := h.nodup z
      rw [hx, List.nodup_cons] at hn
      simpa using hn.2
    · simpa [Function.update_of_ne hz] using h.nodup z
  · exact h.exclusive ((hiff c y).1 hy).1 ((hiff c z).1 hz).1
  · rw [List.length_set]
    exact h.lt ((hiff c z).1 hz).1
  · exact ((hiff b y).1 hy).2 rfl

theorem Move.owned (hm : Move p t p') (h : Owned p) : Owned p' := by
  cases hm with
  | recycle hx hf =>
    rename_i x y b rest f g
    have hb : b ∈ p.loc x := by rw [hx]; exact List.mem_cons_self
    obtain ⟨hdep, hfree⟩ := h.depart hx g
    exact hdep.arrive y (by rw [List.length_set]; exact h.lt hb) hfree
  | fresh =>
    rename_i y g
    have hgrow : Owned ⟨p.mem ++ [g], p.loc⟩ := by
      refine ⟨h.nodup, h.exclusive, fun {x b} hb => ?_⟩
      have := h.lt hb
      rw [List.length_append]
      omega
    exact hgrow.arrive y (by simp) fun x hx => (h.lt hx).false

theorem Moves.owned (hm : Moves p ts p') (h : Owned p) : Owned p' := by
  induction hm with
  | nil => exact h
  | cons hm _ ih => exact ih (hm.owned h)

/-! ### Each place is a FIFO -/

theorem filterMap_set {mem : List F} {bs : List ℕ} {b : ℕ} (g : F) (hb : b ∉ bs) :
    bs.filterMap ((mem.set b g)[·]?) = bs.filterMap (mem[·]?) := by
  refine List.filterMap_congr fun c hc => ?_
  have hbc : b ≠ c := by
    rintro rfl
    exact hb hc
  exact List.getElem?_set_ne hbc

theorem filterMap_grow {mem : List F} {bs : List ℕ} (g : F) (hb : ∀ b ∈ bs, b < mem.length) :
    bs.filterMap ((mem ++ [g])[·]?) = bs.filterMap (mem[·]?) :=
  List.filterMap_congr fun c hc => List.getElem?_append_left (hb c hc)

/-- What a travel takes from a place was there. -/
theorem Move.old_mem {y : Option π} {f g : F} (hm : Move p ⟨some x, y, f, g⟩ p') :
    f ∈ p.frames x := by
  cases hm with
  | recycle hx hf =>
    rw [Pool.frames, List.mem_filterMap]
    exact ⟨_, by rw [hx]; exact List.mem_cons_self, hf⟩

/-- What a travel takes from a place, followed by what is left there, is what was there followed by
what the travel brings. -/
theorem Move.frames (hm : Move p t p') (h : Owned p) (z : π) :
    t.outs z ++ p'.frames z = p.frames z ++ t.ins z := by
  cases hm with
  | recycle hx hf =>
    rename_i x y b rest f g
    have hb : b < p.mem.length := h.lt (by rw [hx]; exact List.mem_cons_self)
    obtain ⟨-, hfree⟩ := h.depart hx g
    have hnew : ((if y = some z then [b] else []).filterMap ((p.mem.set b g)[·]?)) =
        if y = some z then [g] else [] := by
      by_cases hy : y = some z <;> simp [hy, hb]
    simp only [Pool.frames, Travel.outs, Travel.ins, arrive_apply, List.filterMap_append,
      filterMap_set g (hfree z), hnew, ← List.append_assoc, Option.some.injEq]
    congr 1
    by_cases hz : x = z
    · subst hz
      simp [hx, hf]
    · simp [hz, Function.update_of_ne (Ne.symm hz)]
  | fresh =>
    rename_i y g
    have hnew : ((if y = some z then [p.mem.length] else []).filterMap ((p.mem ++ [g])[·]?)) =
        if y = some z then [g] else [] := by
      by_cases hy : y = some z <;> simp [hy]
    simp only [Pool.frames, Travel.outs, Travel.ins, arrive_apply, List.filterMap_append,
      filterMap_grow g fun b hb => h.lt hb, hnew, reduceCtorEq, if_false, List.nil_append]

theorem Moves.frames (hm : Moves p ts p') (h : Owned p) (z : π) :
    outs ts z ++ p'.frames z = p.frames z ++ ins ts z := by
  induction hm with
  | nil => simp [outs, ins]
  | cons hm _ ih =>
    rename_i p q r t ts hs
    calc outs (t :: ts) z ++ r.frames z
        = t.outs z ++ (outs ts z ++ r.frames z) := by simp [outs]
      _ = (t.outs z ++ q.frames z) ++ ins ts z := by rw [ih (hm.owned h), List.append_assoc]
      _ = p.frames z ++ ins (t :: ts) z := by rw [hm.frames h]; simp [ins]

/-! ### Conservation -/

theorem Move.conserved (hm : Move p t p') (hdst : t.dst ≠ none) (h : Conserved p) : Conserved p' := by
  cases hm with
  | recycle hx hf =>
    rename_i x y b rest f g
    obtain ⟨y, rfl⟩ := Option.ne_none_iff_exists'.1 hdst
    intro c hc
    rw [List.length_set] at hc
    obtain ⟨z, hz⟩ := h c hc
    by_cases hcb : c = b
    · exact ⟨y, mem_arrive.2 (Or.inr ⟨hcb, rfl⟩)⟩
    · refine ⟨z, ?_⟩
      dsimp only
      rw [mem_arrive]
      left
      by_cases hzx : z = x
      · subst hzx
        rw [hx, List.mem_cons] at hz
        rw [Function.update_self]
        exact hz.resolve_left hcb
      · rw [Function.update_of_ne hzx]
        exact hz
  | fresh =>
    rename_i y g
    obtain ⟨y, rfl⟩ := Option.ne_none_iff_exists'.1 hdst
    intro c hc
    rw [List.length_append, List.length_singleton] at hc
    by_cases hcl : c = p.mem.length
    · exact ⟨y, mem_arrive.2 (Or.inr ⟨hcl, rfl⟩)⟩
    · obtain ⟨z, hz⟩ := h c (by omega)
      refine ⟨z, ?_⟩
      dsimp only
      rw [mem_arrive]
      exact Or.inl hz

/-- Travels that all arrive somewhere lose no buffer. -/
theorem Moves.conserved (hm : Moves p ts p') (hdst : ∀ t ∈ ts, t.dst ≠ none) (h : Conserved p) :
    Conserved p' := by
  induction hm with
  | nil => exact h
  | cons hm _ ih =>
    exact ih (fun u hu => hdst u (List.mem_cons_of_mem _ hu))
      (hm.conserved (hdst _ List.mem_cons_self) h)

/-! ### Losses -/

section Losses

variable [Fintype π]

/-- The buffers that are in no place. -/
def Pool.lost (p : Pool π F) : Finset ℕ :=
  (Finset.range p.mem.length).filter fun b => ∀ x, b ∉ p.loc x

omit [DecidableEq π] in
theorem mem_lost {b : ℕ} : b ∈ p.lost ↔ b < p.mem.length ∧ ∀ x, b ∉ p.loc x := by
  rw [Pool.lost, Finset.mem_filter, Finset.mem_range]

omit [DecidableEq π] in
/-- Where one buffer has arrived, or is lost, and the others are where they were. -/
theorem card_lost {b : ℕ} {y : Option π} (hb : b ∉ p.lost) (hlt : b < p'.mem.length)
    (hlen : ∀ c, c ≠ b → (c < p'.mem.length ↔ c < p.mem.length))
    (hloc : ∀ c z, c ∈ p'.loc z ↔ c ∈ p.loc z ∧ c ≠ b ∨ c = b ∧ y = some z) :
    p'.lost.card = p.lost.card + if y = none then 1 else 0 := by
  have hothers : ∀ c, c ≠ b → (c ∈ p'.lost ↔ c ∈ p.lost) := by
    intro c hc
    simp [mem_lost, hlen c hc, hloc, hc]
  cases y with
  | none =>
    have hlost : p'.lost = insert b p.lost := by
      ext c
      rw [Finset.mem_insert]
      by_cases hc : c = b
      · subst hc
        simp [mem_lost, hlt, hloc]
      · simp [hothers c hc, hc]
    rw [hlost, Finset.card_insert_of_notMem hb, if_pos rfl]
  | some y =>
    have hlost : p'.lost = p.lost := by
      ext c
      by_cases hc : c = b
      · subst hc
        have hy : c ∈ p'.loc y := (hloc c y).2 (.inr ⟨rfl, rfl⟩)
        exact iff_of_false (fun h => (mem_lost.1 h).2 y hy) hb
      · exact hothers c hc
    rw [hlost, if_neg (by simp), Nat.add_zero]

/-- A travel to nowhere loses one buffer, and no other travel loses any. -/
theorem Move.card_lost (hm : Move p t p') (h : Owned p) :
    p'.lost.card = p.lost.card + if t.dst = none then 1 else 0 := by
  cases hm with
  | recycle hx hf =>
    rename_i x y b rest f g
    have hbx : b ∈ p.loc x := by rw [hx]; exact List.mem_cons_self
    refine BufferPool.card_lost (b := b) (fun hl => (mem_lost.1 hl).2 x hbx) ?_ (fun c _ => ?_)
      fun c z => ?_
    · rw [List.length_set]
      exact h.lt hbx
    · rw [List.length_set]
    · rw [mem_arrive, mem_depart hx (h.nodup x) fun y hy => h.exclusive hy hbx]
  | fresh =>
    rename_i y g
    refine BufferPool.card_lost (b := p.mem.length) (fun hl => ?_) (by simp) (fun c hc => ?_)
      fun c z => ?_
    · exact (mem_lost.1 hl).1.false
    · rw [List.length_append, List.length_singleton]
      omega
    · rw [mem_arrive]
      refine or_congr_left ⟨fun hc => ⟨hc, (h.lt hc).ne⟩, And.left⟩

/-- The buffers that are lost are as many as the travels to nowhere. -/
theorem Moves.card_lost (hm : Moves p ts p') (h : Owned p) :
    p'.lost.card = p.lost.card + ts.countP (·.dst = none) := by
  induction hm with
  | nil => rfl
  | cons hm _ ih =>
    rw [ih (hm.owned h), hm.card_lost h, List.countP_cons, Nat.add_assoc]
    congr 1
    simp [Nat.add_comm]

omit [DecidableEq π] in
theorem conserved_iff : Conserved p ↔ p.lost = ∅ := by
  simp [Conserved, Finset.eq_empty_iff_forall_notMem, mem_lost]

omit [DecidableEq π] in
/-- Every buffer is in one place, or lost. -/
theorem Owned.length_mem (h : Owned p) :
    p.mem.length = ∑ x, (p.loc x).length + p.lost.card := by
  have hplaced : (Finset.univ.biUnion fun x => (p.loc x).toFinset) =
      (Finset.range p.mem.length).filter fun b => ¬ ∀ x, b ∉ p.loc x := by
    ext b
    simp only [Finset.mem_biUnion, Finset.mem_univ, true_and, List.mem_toFinset, Finset.mem_filter,
      Finset.mem_range, not_forall, not_not]
    exact ⟨fun ⟨x, hx⟩ => ⟨h.lt hx, x, hx⟩, And.right⟩
  have hcard : (Finset.univ.biUnion fun x => (p.loc x).toFinset).card = ∑ x, (p.loc x).length := by
    rw [Finset.card_biUnion fun x _ y _ hxy => ?_]
    · exact Finset.sum_congr rfl fun x _ => List.toFinset_card_of_nodup (h.nodup x)
    · refine Finset.disjoint_left.2 fun b hx hy => hxy ?_
      exact h.exclusive (List.mem_toFinset.1 hx) (List.mem_toFinset.1 hy)
  have hsplit := Finset.card_filter_add_card_filter_not (s := Finset.range p.mem.length)
    fun b => ∀ x, b ∉ p.loc x
  rw [Finset.card_range, ← hplaced, hcard] at hsplit
  rw [← hsplit, Nat.add_comm]
  rfl

end Losses

end BufferPool
