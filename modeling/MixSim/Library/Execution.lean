import Mathlib.Tactic

/-!
# Runs of a fallible step function

A system is given by a step function: in a state it takes an input and either faults or moves to
the next state and emits outputs. `exec` runs a list of inputs, collecting the outputs into a
history; the first fault ends the run. Everything an invariant may speak about is a state together
with the history that led to it.

* `Along step G s is`: every step of the run of `is` from `s` meets the condition `G`;
* `Inductive step G Inv`: the steps meeting `G` preserve `Inv`; `Inductive.exec` carries an
  inductive property along a run, `Inductive.fault` bounds the faults a run can end in;
* `Refines step step' G I abs`: as long as `G` is met, `step` cannot be told from `step'`;
* `mapOut g step`: the same system, of whose outputs less is seen;
* `peak step load s is`: the largest load of a state in the run, and when a size is that peak;
* `Always P h`: every output of the history `h` stands in relation `P` to what came before it.
-/

namespace Execution

variable {σ ι ο φ : Type*}

/-- A fallible step with outputs. -/
abbrev Step (σ ι ο φ : Type*) := σ → ι → Except φ (σ × List ο)

/-- Run a list of inputs; the outputs are collected in order, the first fault ends the run. -/
def exec (step : Step σ ι ο φ) (s : σ) : List ι → Except φ (σ × List ο)
  | [] => .ok (s, [])
  | i :: is =>
      match step s i with
      | .error f => .error f
      | .ok (s', o) =>
          match exec step s' is with
          | .error f => .error f
          | .ok (s'', os) => .ok (s'', o ++ os)

/-- Every step of the run meets the condition `G`. -/
def Along (step : Step σ ι ο φ) (G : σ → ι → Prop) : σ → List ι → Prop
  | _, [] => True
  | s, i :: is => G s i ∧ ∀ s' o, step s i = .ok (s', o) → Along step G s' is

/-- The steps meeting `G` preserve `Inv`. -/
def Inductive (step : Step σ ι ο φ) (G : σ → ι → Prop) (Inv : σ → List ο → Prop) : Prop :=
  ∀ ⦃s h i s' o⦄, Inv s h → G s i → step s i = .ok (s', o) → Inv s' (h ++ o)

section Runs

variable {step : Step σ ι ο φ} {G G' : σ → ι → Prop} {Inv : σ → List ο → Prop}

@[simp] theorem exec_nil (s : σ) : exec step s [] = .ok (s, []) := rfl

theorem exec_cons_ok {s s' : σ} {i : ι} {is : List ι} {o : List ο} (h : step s i = .ok (s', o)) :
    exec step s (i :: is) =
      match exec step s' is with
      | .error f => .error f
      | .ok (s'', os) => .ok (s'', o ++ os) := by
  simp only [exec, h]

/-- A successful run of `i :: is` is a successful step followed by a successful run. -/
theorem exec_cons_eq_ok {s t : σ} {i : ι} {is : List ι} {os : List ο}
    (h : exec step s (i :: is) = .ok (t, os)) :
    ∃ s' o os', step s i = .ok (s', o) ∧ exec step s' is = .ok (t, os') ∧ os = o ++ os' := by
  unfold exec at h
  split at h
  · cases h
  · rename_i s' o hs
    split at h
    · cases h
    · rename_i t' os' ht
      cases h
      exact ⟨s', o, os', hs, ht, rfl⟩

/-- A run faults in its first step or after it. -/
theorem exec_cons_eq_error {s : σ} {i : ι} {is : List ι} {f : φ}
    (h : exec step s (i :: is) = .error f) :
    step s i = .error f ∨ ∃ s' o, step s i = .ok (s', o) ∧ exec step s' is = .error f := by
  unfold exec at h
  split at h
  · rename_i f' hs
    cases h
    exact Or.inl hs
  · rename_i s' o hs
    split at h
    · rename_i f' ht
      cases h
      exact Or.inr ⟨s', o, hs, ht⟩
    · cases h

/-- Successful runs compose. -/
theorem exec_append_ok {s m : σ} {is js : List ι} {o₁ : List ο}
    (h : exec step s is = .ok (m, o₁)) :
    exec step s (is ++ js) =
      match exec step m js with
      | .error f => .error f
      | .ok (t, o₂) => .ok (t, o₁ ++ o₂) := by
  induction is generalizing s o₁ with
  | nil =>
    cases h
    rcases hj : exec step m js with f | ⟨t, o⟩ <;> simp [hj]
  | cons i is ih =>
    obtain ⟨s', o, os', hs, ht, rfl⟩ := exec_cons_eq_ok h
    rw [List.cons_append, exec_cons_ok hs, ih ht]
    cases exec step m js <;> simp [List.append_assoc]

/-- A successful run is a successful run of its first part, and of the rest from there. -/
theorem exec_append_eq_ok {s t : σ} {is js : List ι} {os : List ο}
    (h : exec step s (is ++ js) = .ok (t, os)) :
    ∃ m o₁ o₂, exec step s is = .ok (m, o₁) ∧ exec step m js = .ok (t, o₂) ∧ os = o₁ ++ o₂ := by
  induction is generalizing s os with
  | nil => exact ⟨s, [], os, rfl, h, rfl⟩
  | cons i is ih =>
    obtain ⟨s', o, os', hs, hrest, rfl⟩ := exec_cons_eq_ok h
    obtain ⟨m, o₁, o₂, hm, hjs, rfl⟩ := ih hrest
    exact ⟨m, o ++ o₁, o₂, by rw [exec_cons_ok hs, hm], hjs, (List.append_assoc _ _ _).symm⟩

theorem Along.mono (hG : ∀ s i, G s i → G' s i) {s : σ} {is : List ι} (h : Along step G s is) :
    Along step G' s is := by
  induction is generalizing s with
  | nil => trivial
  | cons i is ih => exact ⟨hG s i h.1, fun s' o hs => ih (h.2 s' o hs)⟩

theorem Along.and {s : σ} {is : List ι} (h : Along step G s is) (h' : Along step G' s is) :
    Along step (fun s i => G s i ∧ G' s i) s is := by
  induction is generalizing s with
  | nil => trivial
  | cons i is ih => exact ⟨⟨h.1, h'.1⟩, fun s' o hs => ih (h.2 s' o hs) (h'.2 s' o hs)⟩

/-- The condition holds along the first part of a run. -/
theorem Along.left {s : σ} {is js : List ι} (h : Along step G s (is ++ js)) : Along step G s is := by
  induction is generalizing s with
  | nil => trivial
  | cons i is ih => exact ⟨h.1, fun s' o hs => ih (h.2 s' o hs)⟩

/-- The condition holds along the two parts of a run. -/
theorem Along.of_append {s m : σ} {is js : List ι} {os : List ο} (h : Along step G s (is ++ js))
    (he : Execution.exec step s is = .ok (m, os)) : Along step G s is ∧ Along step G m js := by
  refine ⟨h.left, ?_⟩
  induction is generalizing s os with
  | nil =>
    cases he
    exact h
  | cons i is ih =>
    obtain ⟨s', o, os', hs, hrest, -⟩ := exec_cons_eq_ok he
    exact ih (h.2 s' o hs) hrest

/-- An inductive property holds at the end of a run that starts with it. -/
theorem Inductive.exec (hI : Inductive step G Inv) {s t : σ} {h os : List ο} {is : List ι}
    (h0 : Inv s h) (hG : Along step G s is) (he : exec step s is = .ok (t, os)) :
    Inv t (h ++ os) := by
  induction is generalizing s h os with
  | nil => cases he; simpa using h0
  | cons i is ih =>
    obtain ⟨s', o, os', hs, ht, rfl⟩ := exec_cons_eq_ok he
    have hnext := ih (hI h0 hG.1 hs) (hG.2 s' o hs) ht
    rwa [List.append_assoc] at hnext

/-- A run that starts with an inductive property faults only as a step from it can. -/
theorem Inductive.fault (hI : Inductive step G Inv) {F : φ → Prop}
    (hF : ∀ ⦃s h i f⦄, Inv s h → G s i → step s i = .error f → F f)
    {s : σ} {h : List ο} {is : List ι} {f : φ}
    (h0 : Inv s h) (hG : Along step G s is) (he : Execution.exec step s is = .error f) : F f := by
  induction is generalizing s h with
  | nil => cases he
  | cons i is ih =>
    rcases exec_cons_eq_error he with hs | ⟨s', o, hs, ht⟩
    · exact hF h0 hG.1 hs
    · exact ih (hI h0 hG.1 hs) (hG.2 s' o hs) ht

/-- A property preserved by the steps that start with an inductive one is inductive with it. -/
theorem Inductive.and {Inv' : σ → List ο → Prop} (hI : Inductive step G Inv)
    (hI' : ∀ ⦃s h i s' o⦄, Inv s h → Inv' s h → G s i → step s i = .ok (s', o) → Inv' s' (h ++ o)) :
    Inductive step G (fun s h => Inv s h ∧ Inv' s h) :=
  fun _ _ _ _ _ h hG hs => ⟨hI h.1 hG hs, hI' h.1 h.2 hG hs⟩

theorem Inductive.mono (hI : Inductive step G' Inv) (hG : ∀ s i, G s i → G' s i) :
    Inductive step G Inv :=
  fun _ _ i _ _ h hg hs => hI h (hG _ i hg) hs

/-- A condition on the inputs alone. -/
theorem Along.of_forall {is : List ι} (h : ∀ i ∈ is, ∀ s, G s i) (s : σ) : Along step G s is := by
  induction is generalizing s with
  | nil => trivial
  | cons i is ih =>
    exact ⟨h i List.mem_cons_self s, fun s' _ _ => ih (fun j hj => h j (List.mem_cons_of_mem _ hj)) s'⟩

theorem along_true (s : σ) (is : List ι) : Along step (fun _ _ => True) s is :=
  .of_forall (fun _ _ _ => trivial) s

/-- Whether a condition is met along a run can be computed. -/
instance decidableAlong [∀ s i, Decidable (G s i)] : ∀ s is, Decidable (Along step G s is)
  | _, [] => isTrue trivial
  | s, i :: is =>
      match h : step s i with
      | .error _ => decidable_of_iff (G s i)
          ⟨fun hG => ⟨hG, fun _ _ hs => by rw [h] at hs; cases hs⟩, And.left⟩
      | .ok (s', _) =>
          have := decidableAlong s' is
          decidable_of_iff (G s i ∧ Along step G s' is)
            ⟨fun hG => ⟨hG.1, fun _ _ hs => by rw [h] at hs; cases hs; exact hG.2⟩,
              fun hG => ⟨hG.1, hG.2 _ _ h⟩⟩

/-- The run ends in a state, with a history, that meet `P`. -/
def Reaches (step : Step σ ι ο φ) (s : σ) (is : List ι) (P : σ → List ο → Prop) : Prop :=
  ∃ t os, exec step s is = .ok (t, os) ∧ P t os

theorem Reaches.mono {P Q : σ → List ο → Prop} {s : σ} {is : List ι} (h : Reaches step s is P)
    (hPQ : ∀ t os, P t os → Q t os) : Reaches step s is Q := by
  obtain ⟨t, os, he, hP⟩ := h
  exact ⟨t, os, he, hPQ t os hP⟩

/-- A run takes a step, and goes on from there. -/
theorem Reaches.cons {P : σ → List ο → Prop} {s s' : σ} {i : ι} {is : List ι} {o : List ο}
    (hs : step s i = .ok (s', o)) (h : Reaches step s' is fun t os => P t (o ++ os)) :
    Reaches step s (i :: is) P := by
  obtain ⟨t, os, he, hP⟩ := h
  exact ⟨t, o ++ os, by rw [exec_cons_ok hs, he], hP⟩

/-- A run goes on where another has ended. -/
theorem Reaches.append {P : σ → List ο → Prop} {s : σ} {is js : List ι}
    (h : Reaches step s is fun m o => Reaches step m js fun t os => P t (o ++ os)) :
    Reaches step s (is ++ js) P := by
  obtain ⟨m, o, he, t, os, he', hP⟩ := h
  exact ⟨t, o ++ os, by rw [exec_append_ok he, he'], hP⟩

instance decidableReaches {P : σ → List ο → Prop} [∀ t os, Decidable (P t os)] (s : σ) (is : List ι) :
    Decidable (Reaches step s is P) :=
  match h : exec step s is with
  | .ok (t, os) => decidable_of_iff (P t os)
      ⟨fun hP => ⟨t, os, h, hP⟩, fun ⟨_, _, he, hP⟩ => by rw [h] at he; cases he; exact hP⟩
  | .error _ => isFalse fun ⟨_, _, he, _⟩ => by rw [h] at he; cases he

instance decidableExecError [DecidableEq φ] (s : σ) (is : List ι) (f : φ) :
    Decidable (exec step s is = .error f) :=
  match h : exec step s is with
  | .ok _ => isFalse fun he => by cases he
  | .error f' => decidable_of_iff (f' = f) ⟨fun he => he ▸ rfl, fun he => by cases he; rfl⟩

/-- Where every step shows an output in `R` or brings a number down, a run without such an output is
not longer than the number. -/
theorem exec_length_le {pot : σ → ℕ} {R : ο → Prop}
    (hdec : ∀ s i s' o, step s i = .ok (s', o) → (∃ e ∈ o, R e) ∨ pot s' < pot s) {s t : σ} {is : List ι}
    {os : List ο} (he : Execution.exec step s is = .ok (t, os)) :
    (∃ e ∈ os, R e) ∨ is.length + pot t ≤ pot s := by
  induction is generalizing s os with
  | nil =>
    cases he
    exact Or.inr (by simp)
  | cons i is ih =>
    obtain ⟨s', o, os', hs, ht, rfl⟩ := exec_cons_eq_ok he
    rcases hdec s i s' o hs with ⟨e, he, hR⟩ | hlt
    · exact Or.inl ⟨e, List.mem_append_left os' he, hR⟩
    · rcases ih ht with ⟨e, he, hR⟩ | hle
      · exact Or.inl ⟨e, List.mem_append_right o he, hR⟩
      · rw [List.length_cons]
        exact Or.inr (by omega)

end Runs

/-! ### Refinement -/

section Refinement

variable {τ ψ : Type*} {step : Step σ ι ο φ} {step' : Step τ ι ο ψ} {G : σ → ι → Prop}
  {I : σ → Prop} {abs : σ → τ}

/-- The steps meeting `G` from states in `I` keep `I`, do not fault, and are steps of `step'` on the
abstract states, with the same outputs. -/
def Refines (step : Step σ ι ο φ) (step' : Step τ ι ο ψ) (G : σ → ι → Prop) (I : σ → Prop)
    (abs : σ → τ) : Prop :=
  ∀ ⦃s i⦄, I s → G s i → ∃ s' o, step s i = .ok (s', o) ∧ step' (abs s) i = .ok (abs s', o) ∧ I s'

/-- A refined system has the same runs, with the same outputs. -/
theorem Refines.exec (hR : Refines step step' G I abs) {s : σ} {is : List ι} (hI : I s)
    (hG : Along step G s is) :
    ∃ t os, exec step s is = .ok (t, os) ∧ Execution.exec step' (abs s) is = .ok (abs t, os) ∧
      I t := by
  induction is generalizing s with
  | nil => exact ⟨s, [], rfl, rfl, hI⟩
  | cons i is ih =>
    obtain ⟨s', o, hs, hs', hI'⟩ := hR hI hG.1
    obtain ⟨t, os, ht, ht', hIt⟩ := ih hI' (hG.2 s' o hs)
    refine ⟨t, o ++ os, ?_, ?_, hIt⟩
    · rw [exec_cons_ok hs, ht]
    · rw [exec_cons_ok hs', ht']

end Refinement

/-! ### What is seen of a run -/

section MapOut

variable {ρ : Type*} {step : Step σ ι ο φ} {G : σ → ι → Prop} (g : ο → ρ)

/-- The same system, with other outputs. -/
def mapOut (step : Step σ ι ο φ) : Step σ ι ρ φ := fun s i =>
  (step s i).map fun r => (r.1, r.2.map g)

theorem exec_mapOut (s : σ) (is : List ι) :
    exec (mapOut g step) s is = (exec step s is).map fun r => (r.1, r.2.map g) := by
  induction is generalizing s with
  | nil => rfl
  | cons i is ih =>
    rcases hs : step s i with f | ⟨s', o⟩
    · have hs' : mapOut g step s i = .error f := by rw [mapOut, hs]; rfl
      rw [exec, exec, hs, hs']
      rfl
    · have hs' : mapOut g step s i = .ok (s', o.map g) := by rw [mapOut, hs]; rfl
      rw [exec_cons_ok hs, exec_cons_ok hs', ih]
      cases exec step s' is <;> simp [Except.map]

/-- A condition along the run does not depend on what is seen of it. -/
theorem Along.mapOut {s : σ} {is : List ι} (h : Along step G s is) :
    Along (Execution.mapOut g step) G s is := by
  induction is generalizing s with
  | nil => trivial
  | cons i is ih =>
    refine ⟨h.1, fun s' o hs => ?_⟩
    rcases hstep : step s i with f | ⟨t, o'⟩
    · rw [Execution.mapOut, hstep] at hs
      cases hs
    · rw [Execution.mapOut, hstep] at hs
      cases hs
      exact ih (h.2 t o' hstep)

end MapOut

/-! ### Peaks -/

/-- The largest value of a measure in the states of a run, up to its first fault. -/
def peak (step : Step σ ι ο φ) (load : σ → ℕ) : σ → List ι → ℕ
  | s, [] => load s
  | s, i :: is => max (load s) (match step s i with
      | .ok (s', _) => peak step load s' is
      | .error _ => 0)

section Peak

variable {step : Step σ ι ο φ} (size load : σ → ℕ)

theorem load_le_peak (s : σ) (is : List ι) : load s ≤ peak step load s is := by
  cases is with
  | nil => exact le_rfl
  | cons => exact le_max_left _ _

/-- A size that each step raises to the load where this has outgrown it is the peak of the load. -/
theorem Inductive.size_eq_peak {G : σ → ι → Prop} {Inv : σ → List ο → Prop}
    (hI : Inductive step G Inv) (hle : ∀ {s h}, Inv s h → load s ≤ size s)
    (hsize : ∀ {s h i s' o}, Inv s h → G s i → step s i = .ok (s', o) →
      size s' = max (size s) (load s'))
    {s t : σ} {h os : List ο} {is : List ι} (h0 : Inv s h) (hG : Along step G s is)
    (he : Execution.exec step s is = .ok (t, os)) : size t = max (size s) (peak step load s is) := by
  induction is generalizing s h os with
  | nil =>
    cases he
    exact (max_eq_left (hle h0)).symm
  | cons i is ih =>
    obtain ⟨s', o, os', hs, hrest, -⟩ := exec_cons_eq_ok he
    have hnext := ih (hI h0 hG.1 hs) (hG.2 s' o hs) hrest
    have hpeak : load s' ≤ peak step load s' is := load_le_peak load s' is
    have hload : load s ≤ size s := hle h0
    rw [hnext, hsize h0 hG.1 hs, peak, hs]
    dsimp only
    omega

/-- A refined system has the same peaks. -/
theorem Refines.peak_eq {τ ψ : Type*} {step' : Step τ ι ο ψ} {G : σ → ι → Prop} {I : σ → Prop}
    {abs : σ → τ} {load : σ → ℕ} {load' : τ → ℕ} (hR : Refines step step' G I abs)
    (hload : ∀ s, I s → load s = load' (abs s)) {s : σ} {is : List ι} (hI : I s)
    (hG : Along step G s is) : peak step load s is = peak step' load' (abs s) is := by
  induction is generalizing s with
  | nil => exact hload s hI
  | cons i is ih =>
    obtain ⟨s', o, hs, hs', hI'⟩ := hR hI hG.1
    rw [peak, peak, hs, hs']
    dsimp only
    rw [hload s hI, ih hI' (hG.2 s' o hs)]

end Peak

/-! ### Properties of histories -/

/-- Every output of the history stands in relation `P` to the outputs before it. -/
def Always (P : List ο → ο → Prop) (h : List ο) : Prop :=
  ∀ pre o post, h = pre ++ o :: post → P pre o

variable {P : List ο → ο → Prop} {h : List ο}

theorem always_nil : Always P [] := by
  intro pre o post hp
  simp at hp

theorem Always.snoc {o : ο} (hh : Always P h) (ho : P h o) : Always P (h ++ [o]) := by
  intro pre o' post hp
  rcases List.eq_nil_or_concat post with rfl | ⟨post', x, rfl⟩
  · obtain ⟨rfl, ho'⟩ := List.append_inj' hp rfl
    cases ho'
    exact ho
  · have hp' : h ++ [o] = (pre ++ o' :: post') ++ [x] := by simpa using hp
    obtain ⟨rfl, -⟩ := List.append_inj' hp' rfl
    exact hh pre o' post' rfl

/-- Outputs that each stand in the relation to what came before them. -/
theorem Always.append {o : List ο} (hh : Always P h)
    (ho : ∀ a x b, o = a ++ x :: b → P (h ++ a) x) : Always P (h ++ o) := by
  induction o generalizing h with
  | nil => simpa using hh
  | cons x o ih =>
    have hx : P h x := by simpa using ho [] x o rfl
    have hrest := ih (hh.snoc hx) fun a y b hy => by
      simpa using ho (x :: a) y b (by rw [hy]; rfl)
    simpa using hrest

theorem Always.append_left {h' : List ο} (hh : Always P (h ++ h')) : Always P h := by
  rintro pre o post rfl
  exact hh pre o (post ++ h') (by simp)

end Execution
