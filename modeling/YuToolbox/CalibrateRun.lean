import YuToolbox.CalibrateLoad
import YuToolbox.CalibrateLoop

/-! `serial.sh`: `Calibrate` from the measured load to its end. A division by zero breaks the
function off, the clock may show anything, and what the arithmetic of the shell makes of a new
value of `us_sleep` is a parameter. -/
namespace YuToolbox.CalibrateRun

open StepRuns
open CalibrateLoad (divide)
open CalibrateLoop (Setup wrap)

/-- The speed, what `date +%s` says at each call, and what `diff` and `hit` are from before. -/
structure Env where
  speed : ℤ
  clock : ℕ → ℤ
  diff : ℤ
  hit : ℤ

/-- The variables of the loops, and what `usleep` has been given so far. -/
structure State extends CalibrateLoop.State where
  usleeps : List ℤ
  aborted : Bool

/-- `$((a % b))`. -/
def modulo (a b : ℤ) : Option ℤ := if b = 0 then none else some (a.tmod b)

/-- The new `us_sleep` and the `reason` of each arm of the window. -/
def arm (delta usSleep : ℤ) : ℤ × ℤ :=
  if delta < -5 then (usSleep - usSleep.tdiv 4, 1)
  else if delta > 5 then (usSleep + usSleep.tdiv 3, 1)
  else if delta < -1 then (usSleep - usSleep.tdiv 5, 1)
  else if delta > 1 then (usSleep + usSleep.tdiv 10, 2)
  else if delta = -1 then (usSleep - 1000, 3)
  else (usSleep + 8000, 4)

section Loops

variable (arith : ℤ → ℤ) (env : Env)

def change (value : ℤ) (s : State) : State :=
  { s with usSleep := arith value, events := s.events ++ [.change] }

def window (delta : ℤ) (s : State) : State :=
  let t := change arith (arm delta s.usSleep).1 s
  -- one arm looks at the sign
  if delta = -1 ∧ t.usSleep < 0 then { t with pc := .ended }
  else { t with reason := (arm delta s.usSleep).2, wind := t.wind+1, pc := .passEnd }

/-- `${cmd}` and `usleep $us_sleep`. -/
def runCmd (s : State) : State :=
  { s with events := s.events ++ [.command], usleeps := s.usleeps ++ [s.usSleep] }

def measure (s : State) : Option State := do
  let diff := env.clock s.tick - s.tstart
  let tps ← divide (1001 - s.run) (diff+1)
  some { s with
    diff
    tps
    run := s.run-1
    hit := if tps = env.speed then s.hit+1 else 0
    tick := s.tick+1 }

def settle (s : State) : Option State :=
  if s.tps = env.speed ∧ s.hit > 10 then
    some { s with pc := .ended, events := s.events ++ [.matched] }
  else do
    let rest ← modulo (s.diff+1) s.wind
    some (if rest = 0 then window arith (s.tps - env.speed) s
      else if s.run < -5 then { s with pc := .passEnd } else s)

def setOut (s : State) : Option State := do
  let dur ← divide 1000 env.speed
  some { s with
    run := 1000
    dur
    tstart := env.clock s.tick
    tick := s.tick+1
    reason := 0
    wind := if s.wind > env.speed then env.speed else s.wind
    pc := .inner }

def finish (s : State) : State :=
  if s.reason > 0 then { s with pc := .passStart }
  else if s.run ≤ 5 ∧ s.run ≥ -5 then { s with pc := .ended, events := s.events ++ [.matched] }
  else if s.run < -5 then { change arith (s.usSleep + 10000) s with pc := .passStart }
  else
    let s := change arith (s.usSleep - 10000) s
    if s.usSleep < 0 then { s with pc := .ended } else { s with pc := .passStart }

/-- An error of the arithmetic. -/
def abort (s : State) : State := { s with aborted := true }

def step (s : State) : Option State :=
  if s.aborted then none
  else
    match s.pc with
    | .passStart => some ((setOut env s).getD (abort s))
    | .inner =>
      if s.diff ≤ s.dur then
        some ((measure env (runCmd s) >>= settle arith env).getD (abort (runCmd s)))
      else some { s with pc := .passEnd }
    | .passEnd => some (finish arith s)
    | .ended => none

def start : State where
  pc := .passStart
  usSleep := 43488
  wind := 10
  run := 0
  dur := 0
  tstart := 0
  diff := env.diff
  tps := 0
  hit := env.hit
  reason := 0
  tick := 0
  events := []
  usleeps := []
  aborted := false

/-- The function with the load measured, in its loops, and after its other ends. -/
inductive Point where
  | measured (load : ℕ)
  | loops (s : State)
  | exited
  | aborted

def next : Point → Option Point
  | .measured load =>
    match CalibrateLoad.check load env.speed with
    | none => some .aborted
    | some (_, true) => some .exited
    | some (_, false) => some (.loops (start env))
  | .loops s => (step arith env s).map .loops
  | .exited => none
  | .aborted => none

/-- No arithmetic has failed. -/
def Point.Sound : Point → Prop
  | .loops s => s.aborted = false
  | .aborted => False
  | _ => True

end Loops

/-- The environment that the loops of a set-up run in. -/
def ofSetup (setup : Setup) : Env := ⟨setup.speed, setup.clock, setup.diff, setup.hit⟩

section Frame

variable (arith : ℤ → ℤ) (delta : ℤ) (s : State)

/-- The window gives `us_sleep` its new value, and ends the function if one arm finds that
negative. -/
theorem window_spec :
    (window arith delta s).aborted = s.aborted ∧ (window arith delta s).usleeps = s.usleeps ∧
      (window arith delta s).usSleep = arith (arm delta s.usSleep).1 ∧
      ((window arith delta s).pc = .ended ∨
        (window arith delta s).pc = .passEnd ∧
          (delta = -1 → ¬ arith (arm delta s.usSleep).1 < 0)) := by
  unfold window
  dsimp only
  split
  · exact ⟨rfl, rfl, rfl, Or.inl rfl⟩
  · rename_i hneg
    exact ⟨rfl, rfl, rfl, Or.inr ⟨rfl, fun hone h => hneg ⟨hone, h⟩⟩⟩

theorem finish_frame :
    (finish arith s).aborted = s.aborted ∧ (finish arith s).usleeps = s.usleeps := by
  unfold finish
  split
  · exact ⟨rfl, rfl⟩
  split
  · exact ⟨rfl, rfl⟩
  split
  · exact ⟨rfl, rfl⟩
  · dsimp only
    split
    · exact ⟨rfl, rfl⟩
    · exact ⟨rfl, rfl⟩

theorem measure_frame {env : Env} {m : State} (h : measure env s = some m) :
    m.aborted = s.aborted ∧ m.usleeps = s.usleeps ∧ m.usSleep = s.usSleep ∧ m.pc = s.pc := by
  obtain ⟨tps, -, hm⟩ := Option.bind_eq_some_iff.mp h
  obtain rfl := Option.some.inj hm
  exact ⟨rfl, rfl, rfl, rfl⟩

/-- What a round makes of what it has measured. -/
theorem settle_cases {env : Env} {t : State} (h : settle arith env s = some t) :
    t = { s with pc := .ended, events := s.events ++ [.matched] } ∨
      t = window arith (s.tps - env.speed) s ∨ t = { s with pc := .passEnd } ∨ t = s := by
  unfold settle at h
  split at h
  · exact Or.inl (Option.some.inj h).symm
  · obtain ⟨rest, -, h⟩ := Option.bind_eq_some_iff.mp h
    obtain rfl := Option.some.inj h
    apply Or.inr
    split
    · exact Or.inl rfl
    split
    · exact Or.inr (Or.inl rfl)
    · exact Or.inr (Or.inr rfl)

/-- What a step is, at each point of a pass. -/
theorem step_cases {env : Env} {t : State} (h : step arith env s = some t) :
    (s.pc = .passStart ∧ (setOut env s = some t ∨ t = abort s)) ∨
      (s.pc = .inner ∧ s.diff ≤ s.dur ∧
        ((∃ m, measure env (runCmd s) = some m ∧ settle arith env m = some t) ∨
          t = abort (runCmd s))) ∨
      (s.pc = .inner ∧ t = { s with pc := .passEnd }) ∨
      (s.pc = .passEnd ∧ t = finish arith s) := by
  unfold step at h
  split at h
  · cases h
  cases hpc : s.pc with
  | passStart =>
    simp only [hpc, Option.some.injEq] at h
    refine Or.inl ⟨rfl, ?_⟩
    cases hset : setOut env s with
    | none =>
      rw [hset] at h
      exact Or.inr h.symm
    | some u =>
      rw [hset] at h
      exact Or.inl (congrArg some h)
  | inner =>
    simp only [hpc] at h
    split at h
    · rename_i henter
      refine Or.inr (Or.inl ⟨rfl, henter, ?_⟩)
      obtain rfl := Option.some.inj h
      cases hround : measure env (runCmd s) >>= settle arith env with
      | none => exact Or.inr rfl
      | some u => exact Or.inl (Option.bind_eq_some_iff.mp hround)
    · exact Or.inr (Or.inr (Or.inl ⟨rfl, (Option.some.inj h).symm⟩))
  | passEnd =>
    simp only [hpc, Option.some.injEq] at h
    exact Or.inr (Or.inr (Or.inr ⟨rfl, h.symm⟩))
  | ended =>
    simp only [hpc, reduceCtorEq] at h

end Frame

section View

variable {setup : Setup} {s t : State}

/-- The end of an arm that does not look at the sign. -/
theorem window_of_ne (arith : ℤ → ℤ) {delta : ℤ} (h : delta ≠ -1) (s : State) :
    window arith delta s = { change arith (arm delta s.usSleep).1 s with
      reason := (arm delta s.usSleep).2
      wind := s.wind+1
      pc := .passEnd } :=
  if_neg (fun hand => h hand.1)

theorem window_view (delta : ℤ) (s : State) :
    (window wrap delta s).toState = CalibrateLoop.window delta s.toState := by
  by_cases hone : delta = -1
  · -- both look at the sign of the same value
    have hsign : window wrap delta s =
        if wrap (s.usSleep - 1000) < 0 then { change wrap (s.usSleep - 1000) s with pc := .ended }
        else { change wrap (s.usSleep - 1000) s with
          reason := 3
          wind := s.wind+1
          pc := .passEnd } := by
      subst hone
      exact if_congr (and_iff_right rfl) rfl rfl
    rw [hsign, apply_ite State.toState, hone]
    rfl
  · rw [window_of_ne wrap hone, CalibrateLoop.window, if_neg hone]
    unfold arm
    rw [if_neg hone]
    split_ifs <;> rfl

theorem finish_view (s : State) :
    (finish wrap s).toState = CalibrateLoop.finish s.toState := by
  unfold finish CalibrateLoop.finish
  split_ifs
  · rfl
  · rfl
  · rfl
  · exact apply_ite State.toState _ _ _

theorem divide_of_pos (a : ℤ) {b : ℤ} (hb : 0 < b) : divide a b = some (a.tdiv b) :=
  if_neg (Int.ne_of_gt hb)

theorem modulo_of_pos (a : ℤ) {b : ℤ} (hb : 0 < b) : modulo a b = some (a.tmod b) :=
  if_neg (Int.ne_of_gt hb)

theorem measure_view (h : 0 < (CalibrateLoop.sample setup s.toState).diff+1) :
    ∃ m, measure (ofSetup setup) (runCmd s) = some m ∧
      m.toState = CalibrateLoop.sample setup s.toState ∧ m.aborted = s.aborted := by
  have hdivide : divide (1001 - s.run) (setup.clock s.tick - s.tstart+1) = _ :=
    divide_of_pos (1001 - s.run) h
  simp only [measure, ofSetup, runCmd, hdivide, Option.bind_eq_bind, Option.bind_some,
    Option.some.injEq, exists_eq_left']
  exact ⟨rfl, trivial⟩

theorem settle_view (setup : Setup) (h : 0 < s.wind) :
    ∃ u, settle wrap (ofSetup setup) s = some u ∧
      u.toState = CalibrateLoop.settle setup s.toState ∧ u.aborted = s.aborted := by
  unfold settle CalibrateLoop.settle
  by_cases hmatched : s.tps = setup.speed ∧ s.hit > 10
  · rw [if_pos hmatched]
    exact ⟨_, if_pos hmatched, rfl, rfl⟩
  · have hnot : ¬ (s.tps = (ofSetup setup).speed ∧ s.hit > 10) := hmatched
    rw [if_neg hmatched, if_neg hnot, modulo_of_pos _ h, Option.bind_eq_bind, Option.bind_some]
    refine ⟨_, rfl, ?_⟩
    split_ifs
    · exact ⟨window_view _ s, (window_spec wrap _ s).1⟩
    · exact ⟨rfl, rfl⟩
    · exact ⟨rfl, rfl⟩

/-- Where nothing is divided by zero, the loops do what they do with a clock that does not go back
and 64 bits. -/
theorem step_view (hs : s.aborted = false)
    (hdivisors : s.pc = .inner → 0 < (CalibrateLoop.sample setup s.toState).wind ∧
      0 < (CalibrateLoop.sample setup s.toState).diff+1) :
    (step wrap (ofSetup setup) s).map State.toState = CalibrateLoop.step setup s.toState ∧
      ∀ t, step wrap (ofSetup setup) s = some t → t.aborted = false := by
  have hnot : ¬ s.aborted = true := by rw [hs]; exact Bool.false_ne_true
  rw [step, if_neg hnot, CalibrateLoop.step]
  cases hpc : s.pc with
  | passStart =>
    have hspeed : 0 < (ofSetup setup).speed := setup.speed_pos
    simp only [setOut, divide_of_pos 1000 hspeed, Option.bind_eq_bind, Option.bind_some,
      Option.getD_some, Option.map_some]
    refine ⟨rfl, ?_⟩
    intro t ht
    obtain rfl := Option.some.inj ht
    exact hs
  | inner =>
    -- neither of the two divisors of a round is zero, so it is measured and settled
    obtain ⟨hwind, hdiff⟩ := hdivisors hpc
    obtain ⟨m, hm, hview, hma⟩ := measure_view hdiff
    have hmwind : 0 < m.wind := by rw [hview]; exact hwind
    obtain ⟨u, hu, hsettled, hua⟩ := settle_view setup hmwind
    simp only [hm, hu, Option.bind_eq_bind, Option.bind_some, Option.getD_some]
    by_cases henter : s.diff ≤ s.dur
    · rw [if_pos henter, if_pos henter, Option.map_some, hsettled, hview]
      refine ⟨rfl, ?_⟩
      intro t ht
      obtain rfl := Option.some.inj ht
      rw [hua, hma, hs]
    · rw [if_neg henter, if_neg henter]
      refine ⟨rfl, ?_⟩
      intro t ht
      obtain rfl := Option.some.inj ht
      exact hs
  | passEnd =>
    refine ⟨congrArg some (finish_view s), ?_⟩
    intro t ht
    obtain rfl := Option.some.inj ht
    rw [(finish_frame wrap s).1, hs]
  | ended =>
    refine ⟨rfl, ?_⟩
    intro t ht
    simp only [reduceCtorEq] at ht

/-- No run of the loops comes to a division by zero, and what it reaches is reached there. -/
theorem reaches_view (h : Reaches (step wrap (ofSetup setup)) (start (ofSetup setup)) s) :
    s.aborted = false ∧
      Reaches (CalibrateLoop.step setup) (CalibrateLoop.start setup) s.toState := by
  apply h.invariant _ ⟨rfl, Reaches.refl _⟩
  rintro u v - ⟨hu, hreach⟩ huv
  obtain ⟨hview, hnot⟩ := step_view hu (CalibrateLoop.divisors_pos hreach)
  rw [huv, Option.map_some] at hview
  exact ⟨hnot v huv, hreach.trans (Reaches.single hview.symm)⟩

end View

section Divisors

/-- No division by zero in any run of the function from where the load is measured. -/
def NoZeroDivisor (locale : CalibrateLoad.Locale) (setup : Setup)
    (batches : Fin 3 → CalibrateLoad.Batch) : Prop :=
  ∀ load p, CalibrateLoad.load locale batches = some load →
    Reaches (next wrap (ofSetup setup)) (.measured load) p → p.Sound

/-- The guard is for large loads only. -/
theorem next_zero (arith : ℤ → ℤ) (env : Env) :
    next arith env (.measured 0) = some .aborted := by
  have hdivide : divide 1000000 ((0 : ℕ) : ℤ) = none := if_pos rfl
  have hcheck : CalibrateLoad.check 0 env.speed = none := by
    rw [CalibrateLoad.check, if_neg (by omega), hdivide]
    rfl
  rw [next, hcheck]

theorem check_of_pos {load : ℕ} (hload : 0 < load) (speed : ℤ) :
    ∃ lines exits, CalibrateLoad.check load speed = some (lines, exits) := by
  have hpos : (0 : ℤ) < load := Int.natCast_pos.mpr hload
  rw [CalibrateLoad.check, divide_of_pos _ hpos, Option.bind_eq_bind, Option.bind_some]
  split_ifs
  · exact ⟨_, _, rfl⟩
  · exact ⟨_, _, rfl⟩
  · exact ⟨_, _, rfl⟩

/-- What is reached behind a load that is not zero. -/
theorem sound_of_reaches {setup : Setup} {load : ℕ} (hload : 0 < load) {p : Point}
    (h : Reaches (next wrap (ofSetup setup)) (.measured load) p) : p.Sound := by
  -- in the loops, the state is one that they reach from their start
  have hinv : p = .measured load ∨ p = .exited ∨
      ∃ s, p = .loops s ∧ Reaches (step wrap (ofSetup setup)) (start (ofSetup setup)) s := by
    apply h.invariant _ (Or.inl rfl)
    rintro u v - hu huv
    rcases hu with rfl | rfl | ⟨s, rfl, hs⟩
    · obtain ⟨lines, exits, hcheck⟩ := check_of_pos hload setup.speed
      have hcheck' : CalibrateLoad.check load (ofSetup setup).speed = some (lines, exits) := hcheck
      simp only [next, hcheck'] at huv
      cases exits with
      | true =>
        obtain rfl := Option.some.inj huv
        exact Or.inr (Or.inl rfl)
      | false =>
        obtain rfl := Option.some.inj huv
        exact Or.inr (Or.inr ⟨_, rfl, Reaches.refl _⟩)
    · cases huv
    · obtain ⟨t, ht, rfl⟩ := Option.map_eq_some_iff.mp huv
      exact Or.inr (Or.inr ⟨t, rfl, hs.trans (Reaches.single ht)⟩)
  rcases hinv with rfl | rfl | ⟨s, rfl, hs⟩
  · trivial
  · trivial
  · exact (reaches_view hs).1

/-- Nothing is divided by zero exactly when the last batch has taken some thousandths of a second
that the measurement does not lose, unless it has printed something that is taken for its time:
then the function is broken off before it divides. -/
theorem noZeroDivisor_iff (locale : CalibrateLoad.Locale) (setup : Setup)
    (batches : Fin 3 → CalibrateLoad.Batch) :
    NoZeroDivisor locale setup batches ↔
      ((batches 2).Quiet locale → (batches 2).real.millis ≠ 0) := by
  constructor
  · intro h hquiet hzero
    have hload : CalibrateLoad.load locale batches = some 0 := by
      rw [CalibrateLoad.load_eq hquiet, hzero]
    exact h 0 .aborted hload (Reaches.single (next_zero wrap _))
  · intro hmillis load p hload hreach
    by_cases hquiet : (batches 2).Quiet locale
    · have hne := hmillis hquiet
      rw [CalibrateLoad.load_eq hquiet, Option.some.injEq] at hload
      exact sound_of_reaches (by omega) hreach
    · rw [CalibrateLoad.load_loud hquiet] at hload
      cases hload

/-- Five runs for which the clock of `time` is too coarse. -/
def fastBatch : CalibrateLoad.Batch := CalibrateLoad.waitingBatch CalibrateLoad.noTime

/-- The largest speed is a million divided by a load of 0. -/
theorem not_noZeroDivisor_fastBatch :
    ¬ ∀ locale setup batches, NoZeroDivisor locale setup batches := by
  intro h
  have hquiet : fastBatch.Quiet CalibrateLoad.posix := CalibrateLoad.quiet_waitingBatch _ _
  have hload : CalibrateLoad.load CalibrateLoad.posix (fun _ => fastBatch) = _ :=
    CalibrateLoad.load_eq hquiet
  exact h CalibrateLoad.posix CalibrateLoop.slowRun (fun _ => fastBatch) 0 .aborted hload
    (Reaches.single (next_zero wrap _))

end Divisors

end YuToolbox.CalibrateRun
