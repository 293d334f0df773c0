import MixSim.Library.Execution
import MixSim.Simulator.RoundTrip

/-!
# `ProducerVirtual`, a producer that fetches the time before it answers

`OnInterest` notes the name of the Interest in `m_interestName` and asks the real network for the
time, with the sequence number of the Interest. `OnData` answers with the name noted last. With
several requests outstanding that need not be the Interest that the fetched Data belongs to.
-/

namespace MixSim

open CText Execution

/-- The members of `ProducerVirtual` that change or decide something. -/
structure ProducerVirtual (N : Type) where
  mInterestName : N
  mActive : Bool

namespace ProducerVirtual

/-- What the stack calls. -/
inductive Event (N : Type)
  | onInterest (interest : N)
  | onData (data : N) (content : List UInt8)

/-- What the application hands to the stack: the Interest of `FetchTime`, and the response to a
fetched Data with its number. -/
inductive Sent (N : Type)
  | interest (name : N)
  | response (seq : ℕ) (name : N) (content : List UInt8)

/-- The text of a string literal. -/
def ascii (s : String) : List UInt8 := s.toList.map code

/-- The text of the name that `FetchTime` asks for. -/
def timeUri : List UInt8 := ascii "/mixsim/real/time"

/-- `"%.*s"` of the content, with its size as the precision. A negative precision counts as none. -/
def printedContent (content : List UInt8) : Except Fault (List UInt8) :=
  if 0 ≤ asInt content.length then .ok (cstr (content.take (asInt content.length).toNat))
  else if 0 ∈ content then .ok (cstr content) else .error .outOfBounds

/-- The text `"(%u)[%s]:[%.*s]"` of a response. -/
def responseText (seq : ℕ) (printed : List UInt8) : List UInt8 :=
  ascii "(" ++ decimal seq ++ ascii ")[I am a provider inside ndnSIM!]:[" ++ printed ++ ascii "]"

/-- The size of the array `buf` of `OnData`. -/
def responseBufSize : ℕ := 2048

/-- `Buffer(buf, len)` after `len = snprintf(buf, 2048, …)` of a text: `len` bytes are copied from
the array, which holds the text up to its own size and a terminating zero. -/
def responseContent (text : List UInt8) : Except Fault (List UInt8) :=
  let len := snprintfResult text.length
  if 0 ≤ len ∧ len ≤ responseBufSize then
    .ok ((text.take (responseBufSize - 1) ++ [0]).take len.toNat)
  else .error .outOfBounds

section Code

variable {N : Type} (X : NdnCxx N)

/-- `FetchTime`. -/
def fetchTime (seq : ℕ) : Except Fault (Sent N) :=
  match X.ofUri timeUri with
  | none => .error .uncaught
  | some nameWithSequence => .ok (.interest (X.appendSequenceNumber nameWithSequence seq))

/-- `OnInterest`. -/
def onInterest (s : ProducerVirtual N) (interest : N) :
    Except Fault (ProducerVirtual N × List (Sent N)) :=
  if s.mActive then
    match X.toSequenceNumber interest with
    | none => .error .uncaught
    | some seq => do
        let sent ← fetchTime X (seq % 2 ^ 32)
        .ok ({ s with mInterestName := interest }, [sent])
  else .ok (s, [])

/-- `OnData`. -/
def onData (s : ProducerVirtual N) (data : N) (content : List UInt8) :
    Except Fault (ProducerVirtual N × List (Sent N)) :=
  match X.toSequenceNumber data with
  | none => .error .uncaught
  | some n => do
      let seq := n % 2 ^ 32
      let printed ← printedContent content
      let response ← responseContent (responseText seq printed)
      .ok (s, [.response seq s.mInterestName response])

/-- One event. -/
def step : Step (ProducerVirtual N) (Event N) (Sent N) Fault
  | s, .onInterest interest => onInterest X s interest
  | s, .onData data content => onData X s data content

end Code

/-! ### What is asked of a run -/

section Spec

variable {N : Type} (X : NdnCxx N)

/-- The Interests of a run. -/
def interests : List (Event N) → List N
  | [] => []
  | .onInterest i :: es => i :: interests es
  | .onData _ _ :: es => interests es

/-- `P` holds at each fetched Data, of the Interests before it, the latest first. -/
def AtData (P : List N → N → List UInt8 → Prop) : List N → List (Event N) → Prop
  | _, [] => True
  | seen, .onInterest i :: es => AtData P (i :: seen) es
  | seen, .onData d content :: es => P seen d content ∧ AtData P seen es

instance decidableAtData (P : List N → N → List UInt8 → Prop) [∀ l d c, Decidable (P l d c)] :
    (seen : List N) → (es : List (Event N)) → Decidable (AtData P seen es)
  | _, [] => inferInstanceAs (Decidable True)
  | seen, .onInterest i :: es => decidableAtData P (i :: seen) es
  | seen, .onData d content :: es =>
      have := decidableAtData P seen es
      inferInstanceAs (Decidable (P seen d content ∧ AtData P seen es))

/-- The Data named `d` answers what `FetchTime` has sent for the Interest `i`. -/
def Fetches (i d : N) : Prop :=
  ∃ n ∈ X.toSequenceNumber i, X.toSequenceNumber d = some (n % 2 ^ 32)

/-- The Interests end in different sequence numbers, and each fetched Data answers a `FetchTime`
Interest that has been sent before. -/
structure Requested (active : Bool) (es : List (Event N)) : Prop where
  numbered : ∀ i ∈ interests es, (X.toSequenceNumber i).isSome
  distinct : ((interests es).map X.toSequenceNumber).Nodup
  fetched : AtData (fun seen d _ => active = true ∧ ∃ i ∈ seen, Fetches X i d) [] es

/-- The responses, each with the number of the Data it was made for. -/
def responses : List (Sent N) → List (ℕ × N)
  | [] => []
  | .interest _ :: os => responses os
  | .response seq name _ :: os => (seq, name) :: responses os

/-- Each response is named like the Interest with the number of the fetched Data, no Interest is
answered twice, and none whose fetched Data has arrived stays unanswered. -/
structure Answers (es : List (Event N)) (os : List (Sent N)) : Prop where
  named : ∀ r ∈ responses os, r.2 ∈ interests es ∧ X.toSequenceNumber r.2 = some r.1
  once : ((responses os).map Prod.snd).Nodup
  all : AtData (fun seen d _ => ∀ i ∈ seen, Fetches X i d → i ∈ (responses os).map Prod.snd) [] es

/-- The numbers of the fetched Data. -/
def dataNumbers : List (Event N) → List (Option ℕ)
  | [] => []
  | .onInterest _ :: es => dataNumbers es
  | .onData d _ :: es => X.toSequenceNumber d :: dataNumbers es

/-- The text of the response to a Data fits the array. -/
def Fits (d : N) (content : List UInt8) : Prop :=
  ∃ n ∈ X.toSequenceNumber d, ∃ printed, printedContent content = .ok printed ∧
    (responseText (n % 2 ^ 32) printed).length ≤ responseBufSize

/-- Each fetched Data arrives while the Interest received last is the one with its number, no number
arrives twice, no other Interest has asked for the number, and the text of the response fits. -/
structure InTurn (es : List (Event N)) : Prop where
  last : AtData (fun seen d _ => ∃ i ∈ seen.head?, X.toSequenceNumber i = X.toSequenceNumber d)
    [] es
  once : (dataNumbers X es).Nodup
  alone : AtData (fun seen d _ => ∀ i ∈ seen, Fetches X i d →
    X.toSequenceNumber i = X.toSequenceNumber d) [] es
  fits : AtData (fun _ d content => Fits X d content) [] es

end Spec

section AtData

variable {N : Type} {P Q : List N → N → List UInt8 → Prop} {seen : List N} {es : List (Event N)}

theorem AtData.mono (h : ∀ l d c, P l d c → Q l d c) (hP : AtData P seen es) :
    AtData Q seen es := by
  induction es generalizing seen with
  | nil => trivial
  | cons e es ih =>
    cases e with
    | onInterest i => exact ih hP
    | onData d content => exact ⟨h _ _ _ hP.1, ih hP.2⟩

theorem AtData.and (hP : AtData P seen es) (hQ : AtData Q seen es) :
    AtData (fun l d c => P l d c ∧ Q l d c) seen es := by
  induction es generalizing seen with
  | nil => trivial
  | cons e es ih =>
    cases e with
    | onInterest i => exact ih hP hQ
    | onData d content => exact ⟨⟨hP.1, hQ.1⟩, ih hP.2 hQ.2⟩

/-- The Interests before a fetched Data are Interests of the run. -/
theorem atData_mem (seen : List N) (es : List (Event N)) :
    AtData (fun l _ _ => ∀ i ∈ l, i ∈ seen ∨ i ∈ interests es) seen es := by
  induction es generalizing seen with
  | nil => trivial
  | cons e es ih =>
    cases e with
    | onInterest i =>
      refine (ih (i :: seen)).mono fun l d c h j hj => ?_
      rcases h j hj with hmem | hmem
      · rcases List.mem_cons.1 hmem with rfl | hmem
        · exact Or.inr List.mem_cons_self
        · exact Or.inl hmem
      · exact Or.inr (List.mem_cons_of_mem _ hmem)
    | onData d content => exact ⟨fun i hi => Or.inl hi, ih seen⟩

end AtData

/-! ### What a run answers -/

section Runs

variable {N : Type} {X : NdnCxx N} {s t : ProducerVirtual N} {es : List (Event N)}
  {os : List (Sent N)} {l : List N} {last d time : N} {content text : List UInt8}

/-- A text of at most 2048 bytes is sent; for a longer one the copy runs over the end of `buf`. -/
theorem responseContent_isOk :
    (∃ r, responseContent text = .ok r) ↔ text.length ≤ responseBufSize := by
  unfold responseContent snprintfResult responseBufSize
  dsimp only
  constructor
  · rintro ⟨r, hr⟩
    by_contra hlong
    rw [if_neg (by split_ifs <;> omega)] at hr
    cases hr
  · intro hle
    rw [if_pos (by split_ifs <;> omega)]
    exact ⟨_, rfl⟩

/-- As many bytes are sent as the text has. -/
theorem length_responseContent {r : List UInt8} (h : responseContent text = .ok r) :
    r.length = text.length := by
  have hle := responseContent_isOk.1 ⟨r, h⟩
  unfold responseContent snprintfResult responseBufSize at h
  unfold responseBufSize at hle
  dsimp only at h
  rw [if_pos (show text.length < 2 ^ 31 by omega), if_pos (by omega)] at h
  cases h
  rw [List.length_take, List.length_append, List.length_take, List.length_singleton]
  omega

/-- A fetched Data is answered with the name noted last, or the text of the response does not fit. -/
theorem onData_cases (X : NdnCxx N) (s : ProducerVirtual N) (d : N) (content : List UInt8) :
    (Fits X d content ∧ ∃ r, onData X s d content =
      .ok (s, [.response ((X.toSequenceNumber d).getD 0 % 2 ^ 32) s.mInterestName r])) ∨
    (¬ Fits X d content ∧ ∃ e, onData X s d content = .error e) := by
  rcases hd : X.toSequenceNumber d with _ | n
  · refine Or.inr ⟨?_, .uncaught, by rw [onData, hd]⟩
    rintro ⟨n, hn, -⟩
    rw [hd] at hn
    cases hn
  have hcode : onData X s d content = printedContent content >>= fun printed =>
      responseContent (responseText (n % 2 ^ 32) printed) >>= fun response =>
        .ok (s, [.response (n % 2 ^ 32) s.mInterestName response]) := by
    rw [onData, hd]
  have hfits : Fits X d content ↔ ∃ printed, printedContent content = .ok printed ∧
      (responseText (n % 2 ^ 32) printed).length ≤ responseBufSize := by
    rw [Fits, hd]
    exact ⟨fun ⟨_, hn, h⟩ => by cases hn; exact h, fun h => ⟨n, rfl, h⟩⟩
  rw [hcode, hfits, Option.getD_some]
  rcases hp : printedContent content with e | printed
  · exact Or.inr ⟨fun ⟨p, hp', _⟩ => (by cases hp'), e, rfl⟩
  rw [ok_bind]
  by_cases hle : (responseText (n % 2 ^ 32) printed).length ≤ responseBufSize
  · obtain ⟨r, hr⟩ := responseContent_isOk.2 hle
    exact Or.inl ⟨⟨printed, rfl, hle⟩, r, by rw [hr, ok_bind]⟩
  · rcases hr : responseContent (responseText (n % 2 ^ 32) printed) with e | r
    · refine Or.inr ⟨?_, e, rfl⟩
      rintro ⟨p, hp', hle'⟩
      cases hp'
      exact hle hle'
    · exact absurd (responseContent_isOk.1 ⟨r, hr⟩) hle

/-- An Interest is noted and the time is fetched for it. -/
theorem onInterest_eq (htime : X.ofUri timeUri = some time) (hactive : s.mActive = true) {i : N}
    (hi : (X.toSequenceNumber i).isSome) : ∃ name,
      onInterest X s i = .ok ({ s with mInterestName := i }, [.interest name]) := by
  obtain ⟨n, hn⟩ := Option.isSome_iff_exists.1 hi
  have hfetch : fetchTime X (n % 2 ^ 32) =
      .ok (.interest (X.appendSequenceNumber time (n % 2 ^ 32))) := by
    rw [fetchTime, htime]
  refine ⟨X.appendSequenceNumber time (n % 2 ^ 32), ?_⟩
  rw [onInterest, if_pos hactive, hn]
  dsimp only
  rw [hfetch, ok_bind]

/-- The numbers and names of the responses of a run. -/
def replies (X : NdnCxx N) : N → List (Event N) → List (ℕ × N)
  | _, [] => []
  | _, .onInterest i :: es => replies X i es
  | last, .onData d _ :: es => ((X.toSequenceNumber d).getD 0 % 2 ^ 32, last) :: replies X last es

/-- A run of a started application ends when all responses fit, with the replies. -/
theorem exec_replies (es : List (Event N)) (l : List N) (htime : X.ofUri timeUri = some time)
    (hactive : s.mActive = true)
    (hnum : ∀ i ∈ interests es, (X.toSequenceNumber i).isSome) :
    (AtData (fun _ d content => Fits X d content) l es ∧
      ∃ t os, exec (step X) s es = .ok (t, os) ∧ responses os = replies X s.mInterestName es) ∨
    (¬ AtData (fun _ d content => Fits X d content) l es ∧
      ∃ e, exec (step X) s es = .error e) := by
  induction es generalizing s l with
  | nil => exact Or.inl ⟨trivial, s, [], rfl, rfl⟩
  | cons e es ih =>
    cases e with
    | onInterest i =>
      obtain ⟨name, hstep⟩ := onInterest_eq htime hactive (hnum i List.mem_cons_self)
      have hrest := ih (s := { s with mInterestName := i }) (i :: l) hactive
        fun j hj => hnum j (List.mem_cons_of_mem _ hj)
      rw [exec_cons_ok (show step X s (.onInterest i) = _ from hstep)]
      rcases hrest with ⟨hfits, t, os, hexec, hres⟩ | ⟨hfits, e, hexec⟩
      · exact Or.inl ⟨hfits, t, [.interest name] ++ os, by rw [hexec], hres⟩
      · exact Or.inr ⟨hfits, e, by rw [hexec]⟩
    | onData d content =>
      rcases onData_cases X s d content with ⟨hfit, r, hstep⟩ | ⟨hfit, e, hstep⟩
      · rw [exec_cons_ok (show step X s (.onData d content) = _ from hstep)]
        rcases ih l hactive hnum with ⟨hfits, t, os, hexec, hres⟩ | ⟨hfits, e, hexec⟩
        · refine Or.inl ⟨⟨hfit, hfits⟩, t, [.response ((X.toSequenceNumber d).getD 0 % 2 ^ 32)
            s.mInterestName r] ++ os, by rw [hexec], ?_⟩
          exact congrArg (List.cons _) hres
        · exact Or.inr ⟨fun h => hfits h.2, e, by rw [hexec]⟩
      · refine Or.inr ⟨fun h => hfit h.1, e, ?_⟩
        have hstep' : step X s (.onData d content) = .error e := hstep
        rw [exec, hstep']

/-- Without fetched Data nothing is sent back. -/
theorem exec_inactive (hactive : s.mActive = false) (hno : AtData (fun _ _ _ => False) l es) :
    exec (step X) s es = .ok (s, []) := by
  induction es generalizing l with
  | nil => rfl
  | cons e es ih =>
    cases e with
    | onInterest i =>
      have hstep : step X s (.onInterest i) = .ok (s, []) := by
        rw [step, onInterest, hactive, if_neg Bool.false_ne_true]
      rw [exec_cons_ok hstep, ih hno]
      rfl
    | onData d content => exact absurd hno.1 id

end Runs

/-! ### Which replies are right -/

section Replies

variable {N : Type} {X : NdnCxx N} {es : List (Event N)} {l : List N} {last : N}

/-- The number of a fetched Data fits `uint32_t`. -/
def Narrow (X : NdnCxx N) (d : N) : Prop := ∃ v < 2 ^ 32, X.toSequenceNumber d = some v

theorem Narrow.getD_mod {d : N} (h : Narrow X d) :
    some ((X.toSequenceNumber d).getD 0 % 2 ^ 32) = X.toSequenceNumber d := by
  obtain ⟨v, hv, hd⟩ := h
  rw [hd, Option.getD_some, Nat.mod_eq_of_lt hv]

theorem Fetches.narrow {i d : N} (h : Fetches X i d) : Narrow X d := by
  obtain ⟨n, -, hd⟩ := h
  exact ⟨n % 2 ^ 32, Nat.mod_lt n (by norm_num), hd⟩

/-- The replies have the numbers of the fetched Data. -/
theorem map_fst_replies (h : AtData (fun _ d _ => Narrow X d) l es) (last : N) :
    (replies X last es).map (fun r => some r.1) = dataNumbers X es := by
  induction es generalizing l last with
  | nil => rfl
  | cons e es ih =>
    cases e with
    | onInterest i => exact ih h i
    | onData d content =>
      rw [replies, dataNumbers, List.map_cons, ih h.2 last, h.1.getD_mod]

theorem dataNumbers_lt (h : AtData (fun _ d _ => Narrow X d) l es) {n : ℕ}
    (hn : some n ∈ dataNumbers X es) : n < 2 ^ 32 := by
  induction es generalizing l with
  | nil => cases hn
  | cons e es ih =>
    cases e with
    | onInterest i => exact ih h hn
    | onData d content =>
      rcases List.mem_cons.1 hn with heq | hn
      · obtain ⟨v, hv, hd⟩ := h.1
        rw [hd] at heq
        cases heq
        exact hv
      · exact ih h.2 hn

/-- Every reply has the name of an Interest, if one comes before each fetched Data. -/
theorem mem_replies (h : AtData (fun m _ _ => m ≠ []) l es) (hlast : ∀ i ∈ l.head?, i = last) :
    ∀ r ∈ replies X last es, r.2 ∈ l ∨ r.2 ∈ interests es := by
  induction es generalizing l last with
  | nil => exact fun r hr => absurd hr List.not_mem_nil
  | cons e es ih =>
    cases e with
    | onInterest i =>
      intro r hr
      rcases ih (l := i :: l) h (by simp) r hr with hmem | hmem
      · rcases List.mem_cons.1 hmem with rfl | hmem
        · exact Or.inr List.mem_cons_self
        · exact Or.inl hmem
      · exact Or.inr (List.mem_cons_of_mem _ hmem)
    | onData d content =>
      intro r hr
      rcases List.mem_cons.1 hr with rfl | hr
      · obtain ⟨i, hi⟩ : ∃ i, i ∈ l.head? := by
          rcases l with _ | ⟨i, l⟩
          · exact absurd rfl h.1
          · exact ⟨i, rfl⟩
        rw [← hlast i hi]
        exact Or.inl (List.mem_of_mem_head? hi)
      · exact ih h.2 hlast r hr

/-- The Interest received last before a fetched Data is among the names of the replies. -/
theorem last_mem_replies (X : NdnCxx N) (es : List (Event N)) (hlast : ∀ i ∈ l.head?, i = last) :
    AtData (fun m _ _ => ∀ i ∈ m.head?, i ∈ (replies X last es).map Prod.snd) l es := by
  induction es generalizing l last with
  | nil => trivial
  | cons e es ih =>
    cases e with
    | onInterest i => exact ih (l := i :: l) (by simp)
    | onData d content =>
      refine ⟨fun i hi => ?_, (ih hlast).mono fun m d c h i hi => List.mem_cons_of_mem _ (h i hi)⟩
      rw [hlast i hi]
      exact List.mem_cons_self

/-- The replies have the numbers of the Interests whose names they have exactly when each fetched
Data belongs to the Interest received last. -/
theorem replies_match_iff (h : AtData (fun m d _ => m ≠ [] ∧ Narrow X d) l es)
    (hlast : ∀ i ∈ l.head?, i = last) :
    (∀ r ∈ replies X last es, X.toSequenceNumber r.2 = some r.1) ↔
      AtData (fun m d _ => ∃ i ∈ m.head?, X.toSequenceNumber i = X.toSequenceNumber d) l es := by
  induction es generalizing l last with
  | nil => exact ⟨fun _ => trivial, fun _ r hr => absurd hr List.not_mem_nil⟩
  | cons e es ih =>
    cases e with
    | onInterest i => exact ih (l := i :: l) h (by simp)
    | onData d content =>
      have hhead : X.toSequenceNumber last = X.toSequenceNumber d ↔
          ∃ i ∈ l.head?, X.toSequenceNumber i = X.toSequenceNumber d := by
        constructor
        · intro heq
          rcases l with _ | ⟨i, l⟩
          · exact absurd rfl h.1.1
          · exact ⟨i, rfl, by rw [hlast i rfl]; exact heq⟩
        · rintro ⟨i, hi, heq⟩
          rw [← hlast i hi]
          exact heq
      rw [replies, List.forall_mem_cons, ih h.2 hlast, h.1.2.getD_mod, hhead]
      exact Iff.rfl

/-- Two Interests of a run with the same number are the same. -/
theorem Requested.inj {active : Bool} (h : Requested X active es) {i j : N}
    (hi : i ∈ interests es) (hj : j ∈ interests es)
    (hij : X.toSequenceNumber i = X.toSequenceNumber j) : i = j :=
  List.inj_on_of_nodup_map h.distinct hi hj hij

/-- What is known at each fetched Data of a run. -/
theorem Requested.atData {active : Bool} (h : Requested X active es) :
    AtData (fun m d _ => (∃ i ∈ m, Fetches X i d) ∧ ∀ i ∈ m, i ∈ interests es) [] es :=
  (h.fetched.and (atData_mem [] es)).mono fun _ _ _ hl =>
    ⟨hl.1.2, fun i hi => (hl.2 i hi).resolve_left List.not_mem_nil⟩

/-- The replies to a run are right exactly when the Data arrive in turn. -/
theorem replies_right_iff {active : Bool} {os : List (Sent N)} (h : Requested X active es)
    (hos : responses os = replies X last es)
    (hfits : AtData (fun _ d content => Fits X d content) [] es) :
    Answers X es os ↔ InTurn X es := by
  have hnarrow : AtData (fun m d _ => m ≠ [] ∧ Narrow X d) [] es := by
    refine h.atData.mono fun m d c hl => ?_
    obtain ⟨i, hi, hfetch⟩ := hl.1
    exact ⟨List.ne_nil_of_mem hi, hfetch.narrow⟩
  have hlast : ∀ i ∈ ([] : List N).head?, i = last := fun i hi => (by cases hi)
  have hmatch := replies_match_iff hnarrow hlast
  have hmem := mem_replies (X := X) (hnarrow.mono fun _ _ _ hl => hl.1) hlast
  have hnums := map_fst_replies (hnarrow.mono fun _ _ _ hl => hl.2) last
  -- with the right numbers, the names repeat as the numbers do
  have hnames (hright : ∀ r ∈ replies X last es, X.toSequenceNumber r.2 = some r.1) :
      ((replies X last es).map Prod.snd).map X.toSequenceNumber = dataNumbers X es := by
    rw [← hnums, List.map_map]
    exact List.map_congr_left hright
  constructor
  · rintro ⟨hnamed, honce, hall⟩
    rw [hos] at hnamed honce hall
    have hright := fun r hr => (hnamed r hr).2
    refine ⟨hmatch.1 hright, ?_, ?_, hfits⟩
    · rw [← hnames hright]
      refine honce.map_on fun i hi j hj hij => ?_
      obtain ⟨r, hr, rfl⟩ := List.mem_map.1 hi
      obtain ⟨r', hr', rfl⟩ := List.mem_map.1 hj
      exact h.inj (hnamed r hr).1 (hnamed r' hr').1 hij
    · refine hall.mono fun m d c hl i hi hfetch => ?_
      obtain ⟨r, hr, rfl⟩ := List.mem_map.1 (hl i hi hfetch)
      -- an answered Interest has a number that a Data can have
      obtain ⟨n, hn, hd⟩ := hfetch
      have hlt : r.1 < 2 ^ 32 := by
        have hfst : some r.1 ∈ dataNumbers X es := by
          rw [← hnums]
          exact List.mem_map.2 ⟨r, hr, rfl⟩
        exact dataNumbers_lt (hnarrow.mono fun _ _ _ hl => hl.2) hfst
      have hnr := hright r hr
      rw [hn] at hnr
      cases hnr
      rw [hn, hd, Nat.mod_eq_of_lt hlt]
  · rintro ⟨hl, honce, halone, -⟩
    have hright := hmatch.2 hl
    refine ⟨?_, ?_, ?_⟩
    · rw [hos]
      exact fun r hr => ⟨(hmem r hr).resolve_left List.not_mem_nil, hright r hr⟩
    · rw [hos]
      rw [← hnames hright] at honce
      exact honce.of_map _
    · rw [hos]
      have hall := ((hl.and halone).and h.atData).and (last_mem_replies X es hlast)
      refine hall.mono fun m d c hd i hi hfetch => ?_
      obtain ⟨⟨⟨⟨j, hj, hjd⟩, hal⟩, -, hmemb⟩, hans⟩ := hd
      have hij : i = j := h.inj (hmemb i hi) (hmemb j (List.mem_of_mem_head? hj))
        ((hal i hi hfetch).trans hjd.symm)
      rw [hij]
      exact hans j hj

theorem replies_eq_nil (h : AtData (fun _ _ _ => False) l es) (last : N) :
    replies X last es = [] := by
  induction es generalizing l last with
  | nil => rfl
  | cons e es ih =>
    cases e with
    | onInterest i => exact ih h i
    | onData d content => exact absurd h.1 id

/-- A run on requested Data ends with right responses exactly when the Data arrive in turn. -/
theorem answers_iff_in_turn (X : NdnCxx N) (s : ProducerVirtual N) (es : List (Event N)) (time : N)
    (htime : X.ofUri timeUri = some time) (h : Requested X s.mActive es) :
    (∃ t os, exec (step X) s es = .ok (t, os) ∧ Answers X es os) ↔ InTurn X es := by
  have hrun : (AtData (fun _ d content => Fits X d content) [] es ∧
      ∃ t os, exec (step X) s es = .ok (t, os) ∧ responses os = replies X s.mInterestName es) ∨
      (¬ AtData (fun _ d content => Fits X d content) [] es ∧
        ∃ e, exec (step X) s es = .error e) := by
    rcases hactive : s.mActive with _ | _
    · have hno : AtData (fun _ _ _ => False) [] es := by
        refine h.fetched.mono fun _ _ _ hl => ?_
        rw [hactive] at hl
        exact Bool.false_ne_true hl.1
      exact Or.inl ⟨hno.mono fun _ _ _ hf => hf.elim, s, [], exec_inactive hactive hno,
        (replies_eq_nil hno _).symm⟩
    · exact exec_replies es [] htime hactive h.numbered
  rcases hrun with ⟨hfits, t, os, hexec, hos⟩ | ⟨hfits, e, hexec⟩
  · have hiff := replies_right_iff h hos hfits
    constructor
    · rintro ⟨t', os', hexec', hans⟩
      rw [hexec] at hexec'
      cases hexec'
      exact hiff.1 hans
    · exact fun hin => ⟨t, os, hexec, hiff.2 hin⟩
  · constructor
    · rintro ⟨t', os', hexec', -⟩
      rw [hexec] at hexec'
      cases hexec'
    · exact fun hin => absurd hin.fits hfits

/-- Two Interests in turn, each answered when its time has come. -/
theorem answers_iff_in_turn_two :
    let es : List (Event (List UInt8 × Option ℕ)) := [.onInterest (nameA, some 1),
      .onData (timeUri, some 1) [49], .onInterest (nameA, some 2), .onData (timeUri, some 2) [50]]
    InTurn plainNames es ∧
      ∃ t os, exec (step plainNames) ⟨(nameA, none), true⟩ es = .ok (t, os) ∧
        Answers plainNames es os := by
  intro es
  have hin : InTurn plainNames es := by
    refine ⟨⟨⟨_, rfl, rfl⟩, ⟨_, rfl, rfl⟩, trivial⟩, by decide, ?_, ?_⟩
    · simp [es, AtData, Fetches, plainNames]
    · exact ⟨⟨1, rfl, _, rfl, by decide⟩, ⟨2, rfl, _, rfl, by decide⟩, trivial⟩
  refine ⟨hin, (answers_iff_in_turn plainNames ⟨(nameA, none), true⟩ es (timeUri, none) rfl
    ⟨by decide, by decide, ⟨rfl, _, List.mem_cons_self, 1, rfl, rfl⟩,
      ⟨rfl, _, List.mem_cons_self, 2, rfl, rfl⟩, trivial⟩).2 hin⟩

/-- With two Interests outstanding, the response to the first has the name of the second. -/
theorem answers_other_interest :
    Requested plainNames true [.onInterest (nameA, some 1), .onInterest (nameA, some 2),
      .onData (timeUri, some 1) []] ∧
    ¬ ∃ t os, exec (step plainNames) ⟨(nameA, none), true⟩ [.onInterest (nameA, some 1),
      .onInterest (nameA, some 2), .onData (timeUri, some 1) []] = .ok (t, os) ∧
      Answers plainNames [.onInterest (nameA, some 1), .onInterest (nameA, some 2),
        .onData (timeUri, some 1) []] os := by
  refine ⟨⟨by decide, by decide, ⟨⟨rfl, (nameA, some 1), ?_, 1, rfl, rfl⟩, trivial⟩⟩, ?_⟩
  · exact List.mem_cons_of_mem _ List.mem_cons_self
  · rintro ⟨t, os, hexec, hans⟩
    rcases exec_replies (X := plainNames) (s := ⟨(nameA, none), true⟩) [.onInterest (nameA, some 1),
        .onInterest (nameA, some 2), .onData (timeUri, some 1) []] [] rfl rfl (by decide) with
      ⟨-, t', os', hexec', hos⟩ | ⟨-, e, hexec'⟩
    · rw [hexec] at hexec'
      cases hexec'
      have hnamed := (hans.named (1, (nameA, some 2)) (by rw [hos]; exact List.mem_cons_self)).2
      exact absurd hnamed (by decide)
    · rw [hexec] at hexec'
      cases hexec'

end Replies

end ProducerVirtual

end MixSim
