import MixSim.Adaptor.Invariant

/-!
# Lost buffers

A turn loses the buffer it handles in three cases: `nut_set` returns 0 or -1, `nut_get` returns
`NULL`, or `lfq_enqueue` gets no memory for a node. In a run whose steps avoid these, every buffer
ever created is in `freebuf_list`, in a forwarding queue, or in the hands of a consumer
(`buffers_conserved`).
-/

namespace MixSim

open BufferPool Execution SlotTable

namespace Adaptor

variable {s s' : Adaptor} {o : List Obs}

/-- Every buffer is free, in a forwarding queue, or in the hands of a consumer. -/
def AllPlaced (s : Adaptor) : Prop :=
  ∀ b < s.mem.length, b ∈ s.freebufList.contents ∨ (∃ q, b ∈ (s.queue q).contents) ∨
    ∃ q, s.held q = some b

theorem allPlaced_iff : s.AllPlaced ↔ Conserved s.pool := by
  refine forall_congr' fun b => imp_congr_right fun _ => ?_
  constructor
  · rintro (hb | ⟨q, hb⟩ | ⟨q, hb⟩)
    · exact ⟨.free, hb⟩
    · exact ⟨.queue q, hb⟩
    · exact ⟨.held q, by simp [pool, hb]⟩
  · rintro ⟨x, hb⟩
    cases x with
    | free => exact Or.inl hb
    | queue q => exact Or.inr (Or.inl ⟨q, hb⟩)
    | held q => exact Or.inr (Or.inr ⟨q, by simpa [pool] using hb⟩)

/-- The address is new for the key, and the entry of the key has room for it. -/
def Joins (t : Nut) (k : List UInt8) (addr : SockaddrIn) : Prop :=
  ∀ as ∈ t.abs k, (∀ b ∈ as, ipPort b ≠ ipPort addr) ∧ as.length ≠ maxAddrPername

/-- The step loses no buffer: the nodes for `lfq_enqueue` are there, an arriving Interest joins its
entry in the table or gets a new one, and Data taken off its queue has a live entry. -/
def NoLeak (s : Adaptor) : Event → Prop
  | .nipInterestIn none _ | .nipDataIn none _ => True
  | .nipInterestIn (some _) alloc | .nipDataIn (some _) alloc => alloc.calloc = true
  | .udpDataIn datagram alloc => datagram ≠ [] → alloc.calloc = true
  | .nipInterestOut _ _ calloc | .nipDataOut _ _ calloc | .udpInterestOut calloc => calloc = true
  | .udpInterestIn datagram addr alloc => datagram ≠ [] → alloc.calloc = true ∧
      ∀ f ∈ s.filled alloc.malloc (·.memcpy (datagram.take 2048)), Joins s.nutTable (nutKey f.name) addr
  | .udpDataOut calloc => calloc = true ∧ (s.held .realtosimData = none →
      ∀ f ∈ (s.waiting .realtosimData).head?, f.nlen ≤ bufSize ∧ s.nutTable.abs (nutKey f.name) ≠ none)

/-- `nut_set` returns 1 for an address that joins. -/
theorem Joins.ret {t t' : Nut} {k : List UInt8} {addr : SockaddrIn} {ret : ℤ}
    {grow : Option (ℕ → NutEntry)} (hJ : Joins t k addr) (h : t.WF)
    (hset : SetOutcome t k addr grow (.ok (t', ret))) : ret = 1 := by
  cases hset with
  | same hat hany =>
    obtain ⟨b, hb, heq⟩ := any_sameAddr_iff.1 hany
    exact absurd heq ((hJ _ (hat.lookup h.unique)).1 b hb)
  | full hat hany hlen => exact absurd hlen (hJ _ (hat.lookup h.unique)).2
  | add => rfl
  | new => rfl

/-- A step that loses no buffer moves each one from place to place. -/
theorem Turn.lossless {ev : Event} (ht : Turn s ev (.ok (s', o))) (h : s.Sound)
    (hG : s.NoLeak ev) : ∃ ts, Traffic s s' o ts ∧ Lossless ts := by
  cases ht with
  | nothing => exact ⟨[], .still rfl (fun _ => rfl) (fun _ => rfl), fun _ => nofun⟩
  | nipInterestIn ht | nipDataIn ht => exact ht.traffic.imp fun ts hts => ⟨hts.1, hts.2 hG⟩
  | udpDataIn hne ht => exact ht.traffic.imp fun ts hts => ⟨hts.1, hts.2 (hG hne)⟩
  | nipInterestOut ht | nipDataOut ht => exact ht.traffic.imp fun ts hts => ⟨hts.1, hts.2 hG⟩
  | udpInterestIn ht =>
    rename_i datagram addr alloc
    by_cases hne : datagram = []
    · subst hne
      cases ht with
      | empty => exact ⟨[], .still rfl (fun _ => rfl) (fun _ => rfl), fun _ => nofun⟩
      | accepted hne | dropped hne => exact absurd rfl hne
    · obtain ⟨hcalloc, hjoins⟩ := hG hne
      refine ht.traffic.imp fun ts hts => ⟨hts.1, hts.2 hcalloc fun f t ret hf hset => ?_⟩
      exact (hjoins f hf).ret h.wf hset
  | udpInterestOut ht => exact ht.traffic.imp fun ts hts => ⟨hts.1, hts.2 hG⟩
  | udpDataOut ht =>
    refine ht.traffic.imp fun ts hts => ⟨hts.1, hts.2 hG.1 fun hheld f hf => ?_⟩
    refine hG.2 hheld f ?_
    have hw := hts.1.waiting h.owned .realtosimData
    have hq : (s.waiting .realtosimData ++ MixSim.enqueued .realtosimData o).head? = some f := by
      rw [← hw, hf]
      rfl
    have hnil : MixSim.enqueued .realtosimData o = [] := by
      cases ht <;> rfl
    rwa [hnil, List.append_nil] at hq

theorem conserved_step :
    Inductive step NoLeak (fun s h => s.Inv h ∧ Conserved s.pool) := by
  refine (inv_step.mono fun _ _ _ => trivial).and fun s h ev s' o hI hC hG hs => ?_
  have ht := step_turn hI.toSound ev
  rw [hs] at ht
  obtain ⟨ts, hT, hl⟩ := ht.lossless hI.toSound hG
  exact hT.moves.conserved hl hC

section Init

variable (blocks : Fin 16 → SimpleNameData) (junk : ℕ → NutEntry)

theorem initAdaptor_conserved : Conserved (initAdaptor blocks junk).pool := by
  intro b hb
  refine ⟨.free, ?_⟩
  rw [initAdaptor_loc, if_pos rfl, List.mem_range]
  simpa [initAdaptor, pool] using hb

/-- In a run whose steps lose no buffer, every buffer ever created is in one of its places. -/
theorem buffers_conserved {evs : List Event} {s : Adaptor} {h : List Obs}
    (hG : Along step NoLeak (initAdaptor blocks junk) evs)
    (he : exec step (initAdaptor blocks junk) evs = .ok (s, h)) : s.AllPlaced :=
  allPlaced_iff.2 (conserved_step.exec
    ⟨initAdaptor_inv blocks junk, initAdaptor_conserved blocks junk⟩ hG he).2

end Init

/-! ### Two runs -/

instance (s : Adaptor) : Decidable s.AllPlaced := inferInstanceAs (Decidable (∀ b < _, _))

instance (t : Nut) (k : List UInt8) (addr : SockaddrIn) : Decidable (Joins t k addr) :=
  inferInstanceAs (Decidable (∀ as ∈ _, _))

instance (s : Adaptor) : (ev : Event) → Decidable (s.NoLeak ev)
  | .nipInterestIn none _ | .nipDataIn none _ => isTrue trivial
  | .nipInterestIn (some _) _ | .nipDataIn (some _) _ => inferInstanceAs (Decidable (_ = true))
  | .udpDataIn _ _ => inferInstanceAs (Decidable (_ → _ = true))
  | .nipInterestOut _ _ _ | .nipDataOut _ _ _ | .udpInterestOut _ =>
      inferInstanceAs (Decidable (_ = true))
  | .udpInterestIn datagram addr alloc => inferInstanceAs (Decidable (datagram ≠ [] →
      alloc.calloc = true ∧ ∀ f ∈ s.filled alloc.malloc (·.memcpy (datagram.take 2048)),
        Joins s.nutTable (nutKey f.name) addr))
  | .udpDataOut _ => inferInstanceAs (Decidable (_ ∧ (_ → ∀ f ∈ _, _)))

/-- An exchange without a loss. -/
theorem buffers_conserved_exchange :
    Reaches step (initAdaptor (fun _ => .zero) fun _ => .zero) exchange fun s h =>
      s.AllPlaced ∧ (MixSim.dequeued .realtosimData h).length = 1 := by
  have hrun : Reaches step (initAdaptor (fun _ => .zero) fun _ => .zero) exchange fun _ h =>
      (MixSim.dequeued .realtosimData h).length = 1 := by decide +kernel
  obtain ⟨s, h, he, hone⟩ := hrun
  exact ⟨s, h, he, buffers_conserved _ _ (by decide +kernel) he, hone⟩

/-- A repeated Interest: the buffer of the second is in no place afterwards. -/
theorem buffers_not_conserved : ¬ ∀ (blocks : Fin 16 → SimpleNameData) (junk : ℕ → NutEntry)
    (evs : List Event) (s : Adaptor) (h : List Obs),
    exec step (initAdaptor blocks junk) evs = .ok (s, h) → s.AllPlaced := by
  intro hall
  have hrun : Reaches step (initAdaptor (fun _ => .zero) fun _ => .zero)
      [.udpInterestIn (nameDgram [47, 97]) ⟨2, 1, 1⟩ allocOk,
        .udpInterestIn (nameDgram [47, 97]) ⟨2, 1, 1⟩ allocOk]
      (fun s _ => ¬ s.AllPlaced) := by decide +kernel
  obtain ⟨s, h, he, hlost⟩ := hrun
  exact hlost (hall _ _ _ s h he)

end Adaptor

end MixSim
