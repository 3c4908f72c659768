import Mathlib.Logic.Relation
import Mathlib.Tactic.Common

/-! Runs of a partial step function. What the steps reach is what the fuelled
interpreter returns, whatever its fuel, so a script may be proved through the
reachability relation and still be evaluated. -/
namespace YuToolbox.StepRuns

variable {σ : Type*} (step : σ → Option σ)

/-- Step until no step is left; `none` when the fuel ends first. -/
def run : ℕ → σ → Option σ
  | 0, _ => none
  | fuel+1, s =>
    match step s with
    | none => some s
    | some t => run fuel t

/-- Some finite number of steps leads from one state to the other. -/
def Reaches : σ → σ → Prop := Relation.ReflTransGen (fun s t => step s = some t)

variable {step}

theorem Reaches.refl (s : σ) : Reaches step s s := Relation.ReflTransGen.refl

theorem Reaches.single {s t : σ} (h : step s = some t) : Reaches step s t :=
  Relation.ReflTransGen.single h

theorem Reaches.trans {s t u : σ} (hst : Reaches step s t) (htu : Reaches step t u) :
    Reaches step s u :=
  Relation.ReflTransGen.trans hst htu

theorem Reaches.head {s t u : σ} (h : step s = some t) (htu : Reaches step t u) :
    Reaches step s u :=
  Relation.ReflTransGen.head h htu

/-- What the steps between reached states preserve holds of what is reached. -/
theorem Reaches.invariant {P : σ → Prop} {s t : σ} (hst : Reaches step s t)
    (hp : ∀ u v, Reaches step s u → P u → step u = some v → P v) (hs : P s) : P t := by
  induction hst with
  | refl => exact hs
  | tail hsu huv ih => exact hp _ _ hsu ih huv

theorem run_of_halted {s : σ} (h : step s = none) (fuel : ℕ) :
    run step (fuel+1) s = some s := by
  simp only [run, h]

theorem run_of_step {s t : σ} (h : step s = some t) (fuel : ℕ) :
    run step (fuel+1) s = run step fuel t := by
  simp only [run, h]

/-- A run that halts is found by the interpreter, given enough fuel. -/
theorem Reaches.run_eq {s t : σ} (h : Reaches step s t) (hh : step t = none) :
    ∃ fuel, run step fuel s = some t := by
  -- from the end of the run: each step in front of it costs one unit of fuel
  induction h using Relation.ReflTransGen.head_induction_on with
  | refl => exact ⟨1, run_of_halted hh 0⟩
  | head hst _ ih =>
    obtain ⟨fuel, hf⟩ := ih
    exact ⟨fuel+1, (run_of_step hst fuel).trans hf⟩

theorem run_more_fuel {fuel more : ℕ} {s t : σ} (h : run step fuel s = some t)
    (hle : fuel ≤ more) : run step more s = some t := by
  induction fuel generalizing s more with
  | zero => simp [run] at h
  | succ fuel ih =>
    obtain ⟨more, rfl⟩ : ∃ m, more = m+1 := ⟨more-1, by omega⟩
    cases hs : step s with
    | none => simpa only [run_of_halted hs] using h
    | some u =>
      rw [run_of_step hs] at h ⊢
      exact ih h (by omega)

/-- Two halting runs from one state end in the same state. -/
theorem run_deterministic {fuel more : ℕ} {s t u : σ} (ht : run step fuel s = some t)
    (hu : run step more s = some u) : t = u := by
  have hl := run_more_fuel ht (Nat.le_max_left fuel more)
  have hr := run_more_fuel hu (Nat.le_max_right fuel more)
  exact Option.some.inj (hl.symm.trans hr)

/-- Where a view of the states turns one step function into another, it turns the runs of the one
into the runs of the other. -/
theorem run_view {τ : Type*} {next : τ → Option τ} (view : σ → τ)
    (h : ∀ s, (step s).map view = next (view s)) (fuel : ℕ) (s : σ) :
    (run step fuel s).map view = run next fuel (view s) := by
  induction fuel generalizing s with
  | zero => rfl
  | succ fuel ih =>
    have hs := h s
    cases hstep : step s with
    | none =>
      rw [hstep] at hs
      rw [run_of_halted hstep, run_of_halted hs.symm]
      rfl
    | some t =>
      rw [hstep] at hs
      rw [run_of_step hstep, run_of_step hs.symm]
      exact ih t

/-- Some run from the state comes to an end. -/
def Halts (step : σ → Option σ) (s : σ) : Prop := ∃ t, Reaches step s t ∧ step t = none

section Halts

theorem reaches_of_run {fuel : ℕ} {s t : σ} (h : run step fuel s = some t) :
    Reaches step s t ∧ step t = none := by
  induction fuel generalizing s with
  | zero => cases h
  | succ fuel ih =>
    cases hs : step s with
    | none =>
      rw [run_of_halted hs] at h
      obtain rfl := Option.some.inj h
      exact ⟨Reaches.refl s, hs⟩
    | some u =>
      rw [run_of_step hs] at h
      obtain ⟨hreach, ht⟩ := ih h
      exact ⟨Reaches.head hs hreach, ht⟩

theorem halts_iff_run (s : σ) : Halts step s ↔ ∃ fuel t, run step fuel s = some t := by
  constructor
  · rintro ⟨t, hreach, ht⟩
    obtain ⟨fuel, hrun⟩ := hreach.run_eq ht
    exact ⟨fuel, t, hrun⟩
  · rintro ⟨fuel, t, hrun⟩
    exact ⟨t, reaches_of_run hrun⟩

theorem Halts.of_reaches {s t : σ} (hst : Reaches step s t) (ht : Halts step t) :
    Halts step s := by
  obtain ⟨u, htu, hu⟩ := ht
  exact ⟨u, hst.trans htu, hu⟩

/-- There is only one run from a state, so what it reaches halts with it. -/
theorem Reaches.halts {s t : σ} (hst : Reaches step s t) (hs : Halts step s) : Halts step t := by
  induction hst using Relation.ReflTransGen.head_induction_on with
  | refl => exact hs
  | head hsu _ ih =>
    obtain ⟨v, hsv, hv⟩ := hs
    apply ih
    rcases Relation.ReflTransGen.cases_head hsv with rfl | ⟨w, hsw, hwv⟩
    · rw [hsu] at hv
      cases hv
    · obtain rfl := Option.some.inj (hsu.symm.trans hsw)
      exact ⟨v, hwv, hv⟩

/-- Where every state of a kind has a step to one of that kind, no run ends. -/
theorem not_halts_of_invariant {I : σ → Prop} (hI : ∀ s, I s → ∃ t, step s = some t ∧ I t)
    {s : σ} (hs : I s) : ¬ Halts step s := by
  rintro ⟨t, hst, ht⟩
  -- along the run to the state where it is said to end
  induction hst using Relation.ReflTransGen.head_induction_on with
  | refl =>
    obtain ⟨u, hu, -⟩ := hI _ hs
    rw [ht] at hu
    cases hu
  | head hsu _ ih =>
    obtain ⟨v, hv, hIv⟩ := hI _ hs
    obtain rfl := Option.some.inj (hsu.symm.trans hv)
    exact ih hIv

/-- A run ends where a number gets smaller again and again. -/
theorem halts_of_measure {P : σ → Prop} (size : σ → ℕ)
    (hP : ∀ s, P s → step s = none ∨ ∃ t, Reaches step s t ∧ P t ∧ size t < size s)
    {s : σ} (hs : P s) : Halts step s := by
  induction hn : size s using Nat.strongRecOn generalizing s with
  | ind n ih =>
    rcases hP s hs with hnone | ⟨t, hst, ht, hlt⟩
    · exact ⟨s, Reaches.refl s, hnone⟩
    · exact Halts.of_reaches hst (ih _ (hn ▸ hlt) ht rfl)

end Halts

end YuToolbox.StepRuns
