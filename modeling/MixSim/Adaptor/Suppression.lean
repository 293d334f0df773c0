import MixSim.Adaptor.Delivery

/-!
# When an Interest is suppressed

`udp_interest_in` drops an Interest for a name that has an entry. The entry is made before the first
Interest is queued, and `nip_interest_out` takes no notice of the table when it sends. So the drop is
right only as long as nothing gets lost on the way: when every `isend` of an Interest for `N`
succeeds, a live entry for `N` means that one waits, is in hand, or has been sent since the entry was
created (`dropped_while_outstanding`).
-/

namespace MixSim

open BufferPool Execution SlotTable

/-! ### What has happened to a name -/

/-- The observation is the end of the entry for a key. -/
def Obs.Ends (k : List UInt8) : Obs → Prop
  | .done .realtosimData f => nutKey f.name = k
  | _ => False

instance (k : List UInt8) : (x : Obs) → Decidable (x.Ends k)
  | .done .realtosimData _ => inferInstanceAs (Decidable (_ = _))
  | .done .realtosimInterest _ | .done .simtorealInterest _ | .done .simtorealData _ => isFalse id
  | .recv _ _ | .enqueue _ _ | .dequeue _ _ | .isend _ _ _ | .sendto _ _ _ | .nutSet _ _ _ =>
      isFalse id

/-- What an observation adds to those made since the entry for a key was created. -/
def Obs.since (k : List UInt8) (l : Option (List Obs)) (x : Obs) : Option (List Obs) :=
  match l with
  | none =>
      match x with
      | .nutSet name _ ret => if nutKey name = k ∧ ret = 1 then some [] else none
      | _ => none
  | some l => if x.Ends k then none else some (l ++ [x])

/-- What has been observed since the live entry for a key was created. -/
def liveSince (k : List UInt8) (h : List Obs) : Option (List Obs) := h.foldl (Obs.since k) none

/-- An Interest for `N` was sent to the network stack. -/
def Obs.SentFor (N : List UInt8) : Obs → Prop
  | .isend .simtorealInterest m ret => m.name = N ∧ 0 ≤ ret
  | _ => False

instance (N : List UInt8) : (x : Obs) → Decidable (x.SentFor N)
  | .isend .simtorealInterest _ _ => inferInstanceAs (Decidable (_ ∧ _))
  | .isend .realtosimInterest _ _ | .isend .simtorealData _ _ | .isend .realtosimData _ _ =>
      isFalse id
  | .recv _ _ | .enqueue _ _ | .dequeue _ _ | .done _ _ | .sendto _ _ _ | .nutSet _ _ _ =>
      isFalse id

section Histories

variable {k N : List UInt8} {h o l : List Obs} {x : Obs}

theorem liveSince_snoc (k : List UInt8) (h : List Obs) (x : Obs) :
    liveSince k (h ++ [x]) = x.since k (liveSince k h) := by
  rw [liveSince, List.foldl_append]
  rfl

/-- As long as the entry lives, everything is recorded. -/
theorem liveSince_append (hl : liveSince k h = some l) (ho : ∀ x ∈ o, ¬ x.Ends k) :
    liveSince k (h ++ o) = some (l ++ o) := by
  induction o using List.reverseRecOn with
  | nil => simpa using hl
  | append_singleton o x ih =>
    have ih' := ih fun y hy => ho y (List.mem_append_left _ hy)
    rw [← List.append_assoc, liveSince_snoc, ih', Obs.since, if_neg (ho x (by simp)),
      List.append_assoc]

/-- With a call of `nut_set` that returns 1 the entry is there. -/
theorem liveSince_nutSet {name : List UInt8} (addr : SockaddrIn) (m : Message)
    (hk : nutKey name = k) (ho : ∀ x ∈ o, ¬ x.Ends k) :
    ∃ l, liveSince k (h ++ ([.recv .simtorealInterest m, .nutSet name addr 1] ++ o)) = some l := by
  have hset : ∃ l, liveSince k (h ++ [.recv .simtorealInterest m] ++ [.nutSet name addr 1]) = some l := by
    rw [liveSince_snoc, liveSince_snoc]
    rcases liveSince k h with _ | l
    · refine ⟨[], ?_⟩
      show (if nutKey name = k ∧ (1 : ℤ) = 1 then some [] else none) = some ([] : List Obs)
      rw [if_pos ⟨hk, rfl⟩]
    · exact ⟨_, rfl⟩
  obtain ⟨l, hl⟩ := hset
  refine ⟨l ++ o, ?_⟩
  have happ := liveSince_append hl ho
  simpa using happ

theorem not_ends_of_bystander (hx : ¬ Adaptor.OfTable x) : ¬ x.Ends k := by
  cases x with
  | done q f =>
    cases q with
    | realtosimData => exact absurd rfl hx
    | _ => exact id
  | _ => exact id

end Histories

namespace Adaptor

variable {s s' : Adaptor} {o h : List Obs} {ev : Event} {N : List UInt8} {f : SimpleNameData}

/-! ### Interests on their way to the network stack -/

/-- The Interests that `nip_interest_out` has in hand or has yet to take. -/
def onTheWay (s : Adaptor) : List SimpleNameData :=
  (s.held .simtorealInterest).toList.map s.frame ++ s.waiting .simtorealInterest

/-- An Interest for `N` waits, is in hand, or has been sent since the entry for `N` was created. -/
def Outstanding (N : List UInt8) (s : Adaptor) (h : List Obs) : Prop :=
  ∃ l ∈ liveSince (nutKey N) h, (∃ f ∈ s.onTheWay, f.name = N) ∨ ∃ x ∈ l, x.SentFor N

instance (N : List UInt8) (s : Adaptor) (h : List Obs) : Decidable (s.Outstanding N h) :=
  inferInstanceAs (Decidable (∃ l ∈ liveSince (nutKey N) h, _ ∨ _))

/-- No Interest for `N` gets lost: `isend` succeeds with it, and there is a queue node for it. -/
def SendsOk (N : List UInt8) (s : Adaptor) : Event → Prop
  | .nipInterestOut waitWrite isend _ => waitWrite = true →
      ∀ b ∈ s.held .simtorealInterest, (s.frame b).name = N → 0 ≤ isend
  | .udpInterestIn datagram _ alloc => datagram ≠ [] →
      ∀ f ∈ s.filled alloc.malloc (·.memcpy (datagram.take 2048)), f.name = N → alloc.calloc = true
  | _ => True

instance (N : List UInt8) (s : Adaptor) : (ev : Event) → Decidable (s.SendsOk N ev)
  | .nipInterestOut _ _ _ => inferInstanceAs (Decidable (_ → ∀ b ∈ _, _ → _))
  | .udpInterestIn _ _ _ => inferInstanceAs (Decidable (_ → ∀ f ∈ _, _ → _))
  | .nipInterestIn _ _ | .nipDataIn _ _ | .nipDataOut _ _ _
  | .udpDataIn _ _ | .udpInterestOut _ | .udpDataOut _ => isTrue trivial

/-- Where the hands of `nip_interest_out` are left alone, what is on its way stays on it. -/
theorem onTheWay_mono {ts : List (Travel Place SimpleNameData)} (hT : Traffic s s' o ts)
    (hs : s.Sound) (hheld : s'.held .simtorealInterest = s.held .simtorealInterest)
    (hd : MixSim.dequeued .simtorealInterest o = []) :
    s'.onTheWay = s.onTheWay ++ MixSim.enqueued .simtorealInterest o := by
  have hwaiting := hT.waiting hs.owned .simtorealInterest
  rw [hd, List.nil_append] at hwaiting
  have hhand : (s'.held .simtorealInterest).toList.map s'.frame =
      (s.held .simtorealInterest).toList.map s.frame := by
    rcases hb : s.held .simtorealInterest with _ | b
    · rw [hheld, hb]
      rfl
    · have hb' := hheld.trans hb
      rw [hb', Option.toList_some, List.map_singleton, List.map_singleton,
        hT.frame_eq hs.owned hb hb' hd]
  rw [onTheWay, hhand, hwaiting, ← List.append_assoc]
  rfl

/-- A frame that waits in a queue is taken off it, or goes on waiting. -/
theorem Traffic.waiting_mem {ts : List (Travel Place SimpleNameData)} {q : FwdQueue}
    (hT : Traffic s s' o ts) (hs : s.Sound) (hf : f ∈ s.waiting q) :
    f ∈ MixSim.dequeued q o ∨ f ∈ s'.waiting q := by
  have hf' := List.mem_append_left (MixSim.enqueued q o) hf
  rwa [← hT.waiting hs.owned q, List.mem_append] at hf'

/-- An Interest on its way stays on it until `nip_interest_out` sends it. -/
theorem Turn.onTheWay (ht : Turn s ev (.ok (s', o))) (hs : s.Sound) (hok : s.SendsOk f.name ev)
    (hf : f ∈ s.onTheWay) : f ∈ s'.onTheWay ∨ ∃ x ∈ o, x.SentFor f.name := by
  obtain ⟨ts, hT⟩ := ht.traffic
  have hstay : s'.held .simtorealInterest = s.held .simtorealInterest →
      MixSim.dequeued .simtorealInterest o = [] → f ∈ s'.onTheWay := by
    intro hheld hd
    rw [onTheWay_mono hT hs hheld hd]
    exact List.mem_append_left _ hf
  cases ht with
  | nothing => exact Or.inl hf
  | nipInterestIn ht | nipDataIn ht | udpDataIn _ ht =>
    cases ht with
    | ok => exact Or.inl (hstay rfl (by split_ifs <;> rfl))
  | nipInterestOut ht =>
    cases ht with
    | idle => exact Or.inl (hstay rfl rfl)
    | wait => exact Or.inl (hstay rfl rfl)
    | take hheld hmove =>
      rename_i b queue
      -- the first one waiting is now in hand
      have hway : s.onTheWay = s.waiting .simtorealInterest := by rw [Adaptor.onTheWay, hheld]; rfl
      rw [hway] at hf
      left
      rw [Adaptor.onTheWay, List.mem_append]
      refine (hT.waiting_mem hs hf).imp (fun hd => ?_) id
      have hfb : f = s.frame b := by simpa [MixSim.dequeued, Obs.takes] using hd
      rw [hfb]
      dsimp only
      rw [Function.update_self]
      exact List.mem_singleton_self _
    | sent hheld hfit hmove hwrite =>
      rename_i b
      rw [Adaptor.onTheWay, hheld, List.mem_append] at hf
      rcases hf with hf | hf
      · have hfb : f = s.frame b := by simpa using hf
        subst hfb
        exact Or.inr ⟨_, List.mem_cons_self, rfl, hok hwrite b hheld rfl⟩
      · left
        rw [Adaptor.onTheWay, List.mem_append]
        exact Or.inr ((hT.waiting_mem hs hf).resolve_left (by simp [MixSim.dequeued, Obs.takes]))
  | nipDataOut ht =>
    cases ht with
    | idle | wait => exact Or.inl (hstay rfl rfl)
    | take => exact Or.inl (hstay rfl rfl)
    | sent => exact Or.inl (hstay rfl rfl)
  | udpInterestIn ht =>
    cases ht with
    | empty => exact Or.inl hf
    | accepted => exact Or.inl (hstay rfl (by split_ifs <;> rfl))
    | dropped => exact Or.inl (hstay rfl rfl)
  | udpInterestOut ht =>
    cases ht with
    | idle | take | send | finish => exact Or.inl (hstay rfl rfl)
  | udpDataOut ht =>
    cases ht with
    | idle | unknown | start | send | next | finish => exact Or.inl (hstay rfl rfl)

/-! ### A live entry means an Interest outstanding -/

/-- As long as there is an entry for `N`, an Interest for `N` is outstanding. -/
structure Covered (N : List UInt8) (s : Adaptor) (h : List Obs) : Prop extends s.TableInv h where
  covered : s.nutTable.abs (nutKey N) ≠ none → s.Outstanding N h

/-- A step that does not end the entry for `N` leaves an Interest for it outstanding. -/
theorem Outstanding.mono (hO : s.Outstanding N h) (ho : ∀ x ∈ o, ¬ x.Ends (nutKey N))
    (hway : ∀ f ∈ s.onTheWay, f.name = N → f ∈ s'.onTheWay ∨ ∃ x ∈ o, x.SentFor N) :
    s'.Outstanding N (h ++ o) := by
  obtain ⟨l, hl, hout⟩ := hO
  refine ⟨l ++ o, liveSince_append hl ho, ?_⟩
  rcases hout with ⟨f, hf, hname⟩ | ⟨x, hx, hsent⟩
  · rcases hway f hf hname with hf' | ⟨x, hx, hsent⟩
    · exact Or.inl ⟨f, hf', hname⟩
    · exact Or.inr ⟨x, List.mem_append_right _ hx, hsent⟩
  · exact Or.inr ⟨x, List.mem_append_left _ hx, hsent⟩

/-- The conditions under which no Interest for `N` is suppressed for nothing. -/
def SuppressOk (N : List UInt8) (s : Adaptor) (ev : Event) : Prop := s.SendsOk N ev ∧ s.NoAlias N ev

instance (N : List UInt8) (s : Adaptor) (ev : Event) : Decidable (s.SuppressOk N ev) :=
  inferInstanceAs (Decidable (_ ∧ _))

theorem Turn.covered (ht : Turn s ev (.ok (s', o))) (hC : s.Covered N h)
    (hok : s.SuppressOk N ev) (hlive : s'.nutTable.abs (nutKey N) ≠ none) :
    s'.Outstanding N (h ++ o) := by
  have hway : ∀ f ∈ s.onTheWay, f.name = N → f ∈ s'.onTheWay ∨ ∃ x ∈ o, x.SentFor N := by
    rintro f hf rfl
    exact ht.onTheWay hC.toSound hok.1 hf
  rcases ht.bystander with hB | ⟨datagram, addr, alloc, rfl, hin⟩ | ⟨calloc, rfl, hout⟩
  · rw [hB.nut] at hlive
    exact (hC.covered hlive).mono (fun x hx => not_ends_of_bystander (hB.obs x hx)) hway
  · cases hin with
    | empty => exact (hC.covered hlive).mono (by simp) hway
    | accepted _ hf _ _ hset =>
      rename_i d f t src old mem free queue hne hfill hnlen hsrc hmove
      have hends : ∀ x ∈ if alloc.calloc then [Obs.enqueue .simtorealInterest f] else [],
          ¬ x.Ends (nutKey N) := by
        split_ifs <;> simp [Obs.Ends]
      by_cases hkey : nutKey f.name = nutKey N
      · -- the Interest is for `N`, and goes into the queue
        have hdatagram : datagram ≠ [] := List.ne_nil_of_take_ne_nil hne
        have hname := hok.2 hdatagram f hf hkey
        obtain ⟨l, hl⟩ := liveSince_nutSet (h := h) addr
          (FwdQueue.simtorealInterest.dgramMessage (datagram.take 2048)) hkey hends
        refine ⟨l, hl, Or.inl ⟨f, ?_, hname⟩⟩
        obtain ⟨ts, hT⟩ := ht.traffic
        rw [onTheWay_mono hT hC.toSound rfl (by split_ifs <;> rfl), hok.1 hdatagram f hf hname]
        simp [MixSim.enqueued, Obs.puts]
      · have href := hset.refines hC.wf
        have habs : t.abs (nutKey N) = s.nutTable.abs (nutKey N) := by
          have hother := AddrMap.set_of_ne (m := s.nutTable.abs) (a := addr) (Ne.symm hkey)
          rwa [href] at hother
        have hlive' : s.nutTable.abs (nutKey N) ≠ none := habs ▸ hlive
        refine (hC.covered hlive').mono ?_ hway
        intro x hx
        rw [List.mem_append] at hx
        rcases hx with hx | hx
        · rcases List.mem_pair.1 hx with rfl | rfl <;> exact id
        · exact hends x hx
    | dropped _ _ _ _ hset hret =>
      have hsame := hset.eq_of_ne_one hret
      subst hsame
      exact (hC.covered hlive).mono (by simp [Obs.Ends]) hway
  · cases hout with
    | idle | next => exact (hC.covered hlive).mono (by simp) hway
    | unknown | start | send => exact (hC.covered hlive).mono (by simp [Obs.Ends]) hway
    | finish hheld harr hphase hat hi hwf hslots =>
      rename_i b as t hmove
      have habs : t.abs = s.nutTable.abs.del (nutKey (s.frame b).name) := abs_clear hC.wf hat hslots
      have hlive' : t.abs (nutKey N) ≠ none := hlive
      have hkey : nutKey N ≠ nutKey (s.frame b).name := by
        intro hkey
        rw [habs, AddrMap.del, hkey, Function.update_self] at hlive'
        exact hlive' rfl
      rw [habs, AddrMap.del, Function.update_of_ne hkey] at hlive'
      refine (hC.covered hlive').mono (fun x hx => ?_) hway
      rw [List.mem_singleton] at hx
      subst hx
      exact hkey.symm

theorem covered_step : Inductive step (SuppressOk N) (Covered N) := by
  intro s h ev s' o hC hok hs
  have ht := step_turn hC.toSound ev
  rw [hs] at ht
  exact ⟨tableInv_step hC.toTableInv trivial hs, ht.covered hC hok⟩

/-! ### Runs -/

section Runs

variable (blocks : Fin 16 → SimpleNameData) (junk : ℕ → NutEntry)

/-- When no Interest for `N` gets lost, and no other name has its key, an Interest for `N` that
`udp_interest_in` drops because `nut_set` does not return 1 leaves another one outstanding. -/
theorem dropped_while_outstanding {evs : List Event}
    (hG : Along step (SuppressOk N) (initAdaptor blocks junk) evs) :
    ∀ s h addr ret, exec step (initAdaptor blocks junk) evs = .ok (s, h) →
      h.getLast? = some (.nutSet N addr ret) → ret ≠ 1 → s.Outstanding N h := by
  intro s h addr ret he hlast _
  have h0 : (initAdaptor blocks junk).Covered N [] := by
    refine ⟨initAdaptor_tableInv blocks junk, fun hlive => absurd ?_ hlive⟩
    rw [(initAdaptor_tableInv blocks junk).table]
    rfl
  have hC : s.Covered N h := by simpa using covered_step.exec h0 hG he
  refine hC.covered ?_
  obtain ⟨pre, rfl⟩ := List.getLast?_eq_some_iff.1 hlast
  rw [hC.table, tableOf_snoc]
  exact AddrMap.set_ne_none

/-- A second Interest, dropped while the first one is in hand. -/
theorem dropped_while_outstanding_exchange :
    Reaches step (initAdaptor (fun _ => .zero) fun _ => .zero)
      [.udpInterestIn (nameDgram [47, 97]) ⟨2, 1, 1⟩ allocOk, .nipInterestOut true 1 true,
        .udpInterestIn (nameDgram [47, 97]) ⟨2, 1, 1⟩ allocOk] fun s h =>
      h.getLast? = some (.nutSet [47, 97] ⟨2, 1, 1⟩ 0) ∧ s.Outstanding [47, 97] h := by
  have hrun : Reaches step (initAdaptor (fun _ => .zero) fun _ => .zero)
      [.udpInterestIn (nameDgram [47, 97]) ⟨2, 1, 1⟩ allocOk, .nipInterestOut true 1 true,
        .udpInterestIn (nameDgram [47, 97]) ⟨2, 1, 1⟩ allocOk] fun _ h =>
      h.getLast? = some (.nutSet [47, 97] ⟨2, 1, 1⟩ 0) := by decide +kernel
  obtain ⟨s, h, he, hlast⟩ := hrun
  exact ⟨s, h, he, hlast,
    dropped_while_outstanding _ _ (by decide +kernel) s h _ _ he hlast (by decide)⟩

/-- After a failed `isend` the Interest is lost, but its entry stays, and the retransmission of the
same requester is dropped. -/
theorem dropped_after_failed_isend : ¬ ∀ (blocks : Fin 16 → SimpleNameData) (junk : ℕ → NutEntry)
    (N : List UInt8) (evs : List Event) s h addr ret,
      exec step (initAdaptor blocks junk) evs = .ok (s, h) →
        h.getLast? = some (.nutSet N addr ret) → ret ≠ 1 → s.Outstanding N h := by
  intro hall
  have hrun : Reaches step (initAdaptor (fun _ => .zero) fun _ => .zero)
      [.udpInterestIn (nameDgram [47, 97]) ⟨2, 1, 1⟩ allocOk, .nipInterestOut true 1 true,
        .nipInterestOut true (-1) true, .udpInterestIn (nameDgram [47, 97]) ⟨2, 1, 1⟩ allocOk]
      fun s h => h.getLast? = some (.nutSet [47, 97] ⟨2, 1, 1⟩ 0) ∧ ¬ s.Outstanding [47, 97] h := by
    decide +kernel
  obtain ⟨s, h, he, hlast, hout⟩ := hrun
  exact hout (hall _ _ _ _ s h _ _ he hlast (by decide))

end Runs

end Adaptor

end MixSim
