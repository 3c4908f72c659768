import Mathlib.Data.List.Basic
import Mathlib.Tactic.Common

/-! Runs of a system whose steps are taken by name. A step function says which actions a
state allows; a run is a list of actions, in the order of one interleaving. -/
namespace YuToolbox.TransitionRuns

variable {σ α : Type*} (step : σ → α → Option σ)

/-- The state after a list of actions, if each is possible when its turn comes. -/
def exec : σ → List α → Option σ
  | s, [] => some s
  | s, a :: as => (step s a).bind (fun t => exec t as)

/-- Each step that a run takes meets a condition on the state before it. -/
def Along (cond : σ → α → Prop) : σ → List α → Prop
  | _, [] => True
  | s, a :: as => (step s a).elim True (fun t => cond s a ∧ Along cond t as)

instance decidableAlong (cond : σ → α → Prop) [∀ s a, Decidable (cond s a)] (s : σ)
    (as : List α) : Decidable (Along step cond s as) :=
  match as with
  | [] => isTrue trivial
  | a :: as =>
    match h : step s a with
    | none => isTrue (by rw [Along, h]; trivial)
    | some t =>
      have := decidableAlong cond t as
      decidable_of_iff (cond s a ∧ Along step cond t as) (by rw [Along, h]; rfl)

variable {step}

theorem exec_cons {s t u : σ} {a : α} {as : List α} (hst : step s a = some t)
    (htu : exec step t as = some u) : exec step s (a :: as) = some u := by
  rw [exec, hst, Option.bind_some, htu]

theorem exec_cons_inv {s u : σ} {a : α} {as : List α} (h : exec step s (a :: as) = some u) :
    ∃ t, step s a = some t ∧ exec step t as = some u :=
  Option.bind_eq_some_iff.mp h

theorem exec_append {s t u : σ} {as bs : List α} (hst : exec step s as = some t)
    (htu : exec step t bs = some u) : exec step s (as ++ bs) = some u := by
  induction as generalizing s with
  | nil =>
    obtain rfl := Option.some.inj hst
    exact htu
  | cons a as ih =>
    obtain ⟨v, hsv, hvt⟩ := exec_cons_inv hst
    exact exec_cons hsv (ih hvt)

/-- What the steps of a run preserve holds at its end. -/
theorem exec_invariant {P : σ → Prop} {s t : σ} {as : List α}
    (hp : ∀ a ∈ as, ∀ s t, P s → step s a = some t → P t)
    (h : exec step s as = some t) (hs : P s) : P t := by
  induction as generalizing s with
  | nil =>
    obtain rfl := Option.some.inj h
    exact hs
  | cons a as ih =>
    obtain ⟨u, hsu, hut⟩ := exec_cons_inv h
    have hu : P u := hp a List.mem_cons_self s u hs hsu
    exact ih (fun b hb => hp b (List.mem_cons_of_mem a hb)) hut hu

section Along

variable {cond q : σ → α → Prop}

theorem along_cons {s t : σ} {a : α} (hst : step s a = some t) (as : List α) :
    Along step cond s (a :: as) ↔ cond s a ∧ Along step cond t as := by
  rw [Along, hst, Option.elim_some]

/-- A condition along a run is a condition on each of its steps. -/
theorem along_step {s u t : σ} {pre post : List α} {a : α}
    (h : Along step cond s (pre ++ a :: post)) (hpre : exec step s pre = some u)
    (hut : step u a = some t) : cond u a := by
  induction pre generalizing s with
  | nil =>
    obtain rfl := Option.some.inj hpre
    exact ((along_cons hut post).mp h).1
  | cons b pre ih =>
    obtain ⟨v, hsv, hvu⟩ := exec_cons_inv hpre
    exact ih ((along_cons hsv _).mp h).2 hvu

/-- An invariant that the steps meeting one condition preserve, and that gives another
condition, carries the one to the other along a run. -/
theorem along_of_invariant {P : σ → Prop}
    (hp : ∀ s a t, P s → cond s a → step s a = some t → P t)
    (hq : ∀ s a t, P s → step s a = some t → q s a)
    {s : σ} {as : List α} (h : Along step cond s as) (hs : P s) : Along step q s as := by
  -- the invariant moves along with the state before each step
  induction as generalizing s with
  | nil => trivial
  | cons a as ih =>
    cases hst : step s a with
    | none => rw [Along, hst]; trivial
    | some t =>
      rw [along_cons hst] at h ⊢
      exact ⟨hq s a t hs hst, ih h.2 (hp s a t hs h.1 hst)⟩

/-- What steps that meet a condition preserve holds at the end of a run of such steps. -/
theorem exec_along_invariant {P : σ → Prop}
    (hp : ∀ s a t, P s → cond s a → step s a = some t → P t) {s t : σ} {as : List α}
    (hc : Along step cond s as) (h : exec step s as = some t) (hs : P s) : P t := by
  induction as generalizing s with
  | nil =>
    obtain rfl := Option.some.inj h
    exact hs
  | cons a as ih =>
    obtain ⟨u, hsu, hut⟩ := exec_cons_inv h
    obtain ⟨ha, hrest⟩ := (along_cons hsu as).mp hc
    exact ih hrest hut (hp s a u hs ha hsu)

end Along

section Simulation

variable {τ β : Type*} {step' : τ → β → Option τ} {view : α → β} {R : σ → τ → Prop}

/-- When each step has a step that matches it, each run has a run. -/
theorem exec_matched (hstep : ∀ s a x t, R s a → step s x = some t →
      ∃ b, step' a (view x) = some b ∧ R t b)
    {s t : σ} {a : τ} {run : List α} (h : R s a) (hrun : exec step s run = some t) :
    ∃ b, exec step' a (run.map view) = some b ∧ R t b := by
  induction run generalizing s a with
  | nil =>
    obtain rfl := Option.some.inj hrun
    exact ⟨a, rfl, h⟩
  | cons x run ih =>
    obtain ⟨u, hsu, hrest⟩ := exec_cons_inv hrun
    obtain ⟨c, hc, hu⟩ := hstep s a x u h hsu
    obtain ⟨b, hb, ht⟩ := ih hu hrest
    exact ⟨b, exec_cons hc hb, ht⟩

/-- When each step on the other side is the view of one, each run there is the view of a run. -/
theorem exec_realised (hstep : ∀ s a e b, R s a → step' a e = some b →
      ∃ x t, view x = e ∧ step s x = some t ∧ R t b)
    {s : σ} {a b : τ} {events : List β} (h : R s a) (hrun : exec step' a events = some b) :
    ∃ run t, run.map view = events ∧ exec step s run = some t ∧ R t b := by
  induction events generalizing s a with
  | nil =>
    obtain rfl := Option.some.inj hrun
    exact ⟨[], s, rfl, rfl, h⟩
  | cons e events ih =>
    obtain ⟨c, hc, hrest⟩ := exec_cons_inv hrun
    obtain ⟨x, u, rfl, hsu, hu⟩ := hstep s a e c h hc
    obtain ⟨run, t, rfl, ht, hb⟩ := ih hu hrest
    exact ⟨x :: run, t, rfl, exec_cons hsu ht, hb⟩

end Simulation

end YuToolbox.TransitionRuns
