import Mathlib.Algebra.Order.Ring.Int
import YuToolbox.StepRuns

/-! `serial.sh`: the outer loop of `Calibrate`, which looks for the sleep that gives a command its
speed. Of the variables, `diff`, `hit` and `wind` keep their values from one pass to the next. -/
namespace YuToolbox.CalibrateLoop

open StepRuns

/-- The speed, what `date +%s` says at each call, and the values that `diff` and `hit` have from
before, which are 0 when they are not set. -/
structure Setup where
  speed : ℤ
  speed_pos : 1 ≤ speed
  clock : ℕ → ℤ
  clock_mono : ∀ i j, i ≤ j → clock i ≤ clock j
  diff : ℤ
  hit : ℤ

/-- A run of the command, an assignment to `us_sleep`, and the report. -/
inductive Event where
  | command
  | change
  | matched
  deriving DecidableEq

inductive Pc where
  | passStart
  | inner
  | passEnd
  | ended
  deriving DecidableEq

/-- `tick` counts the calls of `date`. -/
structure State where
  pc : Pc
  usSleep : ℤ
  wind : ℤ
  run : ℤ
  dur : ℤ
  tstart : ℤ
  diff : ℤ
  tps : ℤ
  hit : ℤ
  reason : ℤ
  tick : ℕ
  events : List Event

/-- The arithmetic of the shell has 64 bits; of the variables only `us_sleep` can leave them. -/
def wrap (x : ℤ) : ℤ := x.bmod (2^64)

def State.change (s : State) (value : ℤ) : State :=
  { s with usSleep := wrap value, events := s.events ++ [.change] }

/-- The end of an arm of the window: the pass is broken off. -/
def State.retry (s : State) (reason : ℤ) : State :=
  { s with reason, wind := s.wind+1, pc := .passEnd }

/-- The arms of the window. -/
def window (delta : ℤ) (s : State) : State :=
  if delta < -5 then (s.change (s.usSleep - s.usSleep.tdiv 4)).retry 1
  else if delta > 5 then (s.change (s.usSleep + s.usSleep.tdiv 3)).retry 1
  else if delta < -1 then (s.change (s.usSleep - s.usSleep.tdiv 5)).retry 1
  else if delta > 1 then (s.change (s.usSleep + s.usSleep.tdiv 10)).retry 2
  else if delta = -1 then
    let s := s.change (s.usSleep - 1000)
    if s.usSleep < 0 then { s with pc := .ended } else s.retry 3
  else (s.change (s.usSleep + 8000)).retry 4

/-- A round of the inner loop, as far as it measures. `c_run` is 1001. -/
def sample (setup : Setup) (s : State) : State :=
  let diff := setup.clock s.tick - s.tstart
  let tps := (1001 - s.run).tdiv (diff+1)
  { s with
    diff
    tps
    run := s.run-1
    hit := if tps = setup.speed then s.hit+1 else 0
    tick := s.tick+1
    events := s.events ++ [.command] }

/-- What the round makes of it. -/
def settle (setup : Setup) (s : State) : State :=
  if s.tps = setup.speed ∧ s.hit > 10 then
    { s with pc := .ended, events := s.events ++ [.matched] }
  else if (s.diff+1).tmod s.wind = 0 then window (s.tps - setup.speed) s
  else if s.run < -5 then { s with pc := .passEnd }
  else s

/-- What a pass does behind its inner loop. -/
def finish (s : State) : State :=
  if s.reason > 0 then { s with pc := .passStart }
  else if s.run ≤ 5 ∧ s.run ≥ -5 then { s with pc := .ended, events := s.events ++ [.matched] }
  else if s.run < -5 then { s.change (s.usSleep + 10000) with pc := .passStart }
  else
    let s := s.change (s.usSleep - 10000)
    if s.usSleep < 0 then { s with pc := .ended } else { s with pc := .passStart }

/-- What a pass does before its inner loop; `diff` and `hit` stay as they are. -/
def setOut (setup : Setup) (s : State) : State :=
  { s with
    run := 1000
    dur := Int.tdiv 1000 setup.speed
    tstart := setup.clock s.tick
    tick := s.tick+1
    reason := 0
    -- `wind=speed` is the name, which arithmetic takes for its value
    wind := if s.wind > setup.speed then setup.speed else s.wind
    pc := .inner }

def step (setup : Setup) (s : State) : Option State :=
  match s.pc with
  | .passStart => some (setOut setup s)
  | .inner =>
    some (if s.diff ≤ s.dur then settle setup (sample setup s) else { s with pc := .passEnd })
  | .passEnd => some (finish s)
  | .ended => none

def start (setup : Setup) : State where
  pc := .passStart
  usSleep := 43488
  wind := 10
  run := 0
  dur := 0
  tstart := 0
  diff := setup.diff
  tps := 0
  hit := setup.hit
  reason := 0
  tick := 0
  events := []

/-- Between a change of `us_sleep` and what rests on it, another change or the report, the command
has been run. -/
def Fresh (events : List Event) : Prop :=
  ∀ a b c e, events = a ++ .change :: (b ++ e :: c) → e ≠ .command → .command ∈ b

/-- The command has not been run since some change. -/
def Stale (events : List Event) : Prop :=
  ∃ a b, events = a ++ .change :: b ∧ .command ∉ b

section Events

variable {events : List Event}

theorem fresh_append (e : Event) :
    Fresh (events ++ [e]) ↔ Fresh events ∧ (e ≠ .command → ¬ Stale events) := by
  constructor
  · intro h
    refine ⟨?_, ?_⟩
    · rintro a b c e' rfl he'
      apply h a b (c ++ [e]) e' _ he'
      simp only [List.append_assoc, List.cons_append]
    · rintro he ⟨a, b, rfl, hb⟩
      apply hb
      apply h a b [] e _ he
      simp only [List.append_assoc, List.cons_append]
  · rintro ⟨hfresh, hstale⟩ a b c e' heq he'
    -- the last event is the new one or an old one
    rcases List.eq_nil_or_concat c with rfl | ⟨c, d, rfl⟩
    · have hsplit : events ++ [e] = (a ++ .change :: b) ++ [e'] := by simp [heq]
      obtain ⟨hevents, hlast⟩ := List.append_inj' hsplit rfl
      obtain rfl := List.singleton_inj.mp hlast
      by_contra hb
      exact hstale he' ⟨a, b, hevents, hb⟩
    · have hsplit : events ++ [e] = (a ++ .change :: (b ++ e' :: c)) ++ [d] := by simp [heq]
      obtain ⟨hevents, -⟩ := List.append_inj' hsplit rfl
      exact hfresh a b c e' hevents he'

theorem stale_change : Stale (events ++ [.change]) := ⟨events, [], rfl, List.not_mem_nil⟩

/-- Only a change makes the events stale. -/
theorem stale_append {e : Event} (he : e ≠ .change) (h : Stale (events ++ [e])) :
    e ≠ .command ∧ Stale events := by
  obtain ⟨a, b, heq, hb⟩ := h
  rcases List.eq_nil_or_concat b with rfl | ⟨b, d, rfl⟩
  · obtain ⟨-, hlast⟩ := List.append_inj' heq rfl
    exact absurd (List.singleton_inj.mp hlast) he
  · have hsplit : events ++ [e] = (a ++ .change :: b) ++ [d] := by simp [heq]
    obtain ⟨hevents, hlast⟩ := List.append_inj' hsplit rfl
    obtain rfl := List.singleton_inj.mp hlast
    rw [List.concat_eq_append, List.mem_append, not_or] at hb
    refine ⟨?_, a, b, hevents, hb.1⟩
    rintro rfl
    exact hb.2 List.mem_cons_self

theorem not_stale_command : ¬ Stale (events ++ [.command]) :=
  fun h => (stale_append (by decide) h).1 rfl

end Events

section Steps

variable {setup : Setup} {s t : State}

theorem window_spec (delta : ℤ) (s : State) :
    (window delta s).events = s.events ++ [.change] ∧ s.wind ≤ (window delta s).wind ∧
      ((window delta s).pc = .ended ∨
        (window delta s).pc = .passEnd ∧ 0 < (window delta s).reason) := by
  have hretry : ∀ (value reason : ℤ), 0 < reason →
      ((s.change value).retry reason).events = s.events ++ [.change] ∧
        s.wind ≤ ((s.change value).retry reason).wind ∧
        (((s.change value).retry reason).pc = .ended ∨
          ((s.change value).retry reason).pc = .passEnd ∧
            0 < ((s.change value).retry reason).reason) := by
    intro value reason hreason
    refine ⟨rfl, ?_, Or.inr ⟨rfl, hreason⟩⟩
    simp only [State.retry, State.change]
    omega
  unfold window
  split
  · exact hretry _ 1 (by decide)
  split
  · exact hretry _ 1 (by decide)
  split
  · exact hretry _ 1 (by decide)
  split
  · exact hretry _ 2 (by decide)
  split
  · dsimp only
    split
    · exact ⟨rfl, Int.le_refl _, Or.inl rfl⟩
    · exact hretry _ 3 (by decide)
  · exact hretry _ 4 (by decide)

/-- What a round may do: report, change `us_sleep`, which breaks the pass off, or neither. -/
theorem settle_cases (setup : Setup) (s : State) :
    s.wind ≤ (settle setup s).wind ∧
      (((settle setup s).events = s.events ++ [.matched] ∧ (settle setup s).pc = .ended) ∨
        ((settle setup s).events = s.events ++ [.change] ∧
          ((settle setup s).pc = .ended ∨
            (settle setup s).pc = .passEnd ∧ 0 < (settle setup s).reason)) ∨
        settle setup s = { s with pc := .passEnd } ∨ settle setup s = s) := by
  unfold settle
  split
  · exact ⟨Int.le_refl _, Or.inl ⟨rfl, rfl⟩⟩
  split
  · obtain ⟨hevents, hwind, hpc⟩ := window_spec (s.tps - setup.speed) s
    exact ⟨hwind, Or.inr (Or.inl ⟨hevents, hpc⟩)⟩
  split
  · exact ⟨Int.le_refl _, Or.inr (Or.inr (Or.inl rfl))⟩
  · exact ⟨Int.le_refl _, Or.inr (Or.inr (Or.inr rfl))⟩

theorem finish_cases (s : State) :
    (finish s).wind = s.wind ∧
      ((0 < s.reason ∧ (finish s).events = s.events ∧ (finish s).pc = .passStart) ∨
        (¬ 0 < s.reason ∧ (finish s).events = s.events ++ [.matched] ∧ (finish s).pc = .ended) ∨
        (¬ 0 < s.reason ∧ (finish s).events = s.events ++ [.change] ∧
          ((finish s).pc = .passStart ∨ (finish s).pc = .ended))) := by
  unfold finish
  split
  · rename_i h
    exact ⟨rfl, Or.inl ⟨h, rfl, rfl⟩⟩
  rename_i h
  split
  · exact ⟨rfl, Or.inr (Or.inl ⟨h, rfl, rfl⟩)⟩
  split
  · exact ⟨rfl, Or.inr (Or.inr ⟨h, rfl, Or.inl rfl⟩)⟩
  · dsimp only
    split
    · exact ⟨rfl, Or.inr (Or.inr ⟨h, rfl, Or.inr rfl⟩)⟩
    · exact ⟨rfl, Or.inr (Or.inr ⟨h, rfl, Or.inl rfl⟩)⟩

/-- What one step is, at each point of a pass. -/
theorem step_cases (h : step setup s = some t) :
    (s.pc = .passStart ∧ t = setOut setup s) ∨
      (s.pc = .inner ∧ s.diff ≤ s.dur ∧ t = settle setup (sample setup s)) ∨
      (s.pc = .inner ∧ ¬ s.diff ≤ s.dur ∧ t = { s with pc := .passEnd }) ∨
      (s.pc = .passEnd ∧ t = finish s) := by
  unfold step at h
  cases hpc : s.pc with
  | passStart =>
    simp only [hpc, Option.some.injEq] at h
    exact Or.inl ⟨rfl, h.symm⟩
  | inner =>
    simp only [hpc, Option.some.injEq] at h
    by_cases hd : s.diff ≤ s.dur
    · rw [if_pos hd] at h
      exact Or.inr (Or.inl ⟨rfl, hd, h.symm⟩)
    · rw [if_neg hd] at h
      exact Or.inr (Or.inr (Or.inl ⟨rfl, hd, h.symm⟩))
  | passEnd =>
    simp only [hpc, Option.some.injEq] at h
    exact Or.inr (Or.inr (Or.inr ⟨rfl, h.symm⟩))
  | ended =>
    simp only [hpc, reduceCtorEq] at h

end Steps

section Divisors

variable {setup : Setup} {s t : State}

/-- The start of a pass is one of the times that the clock has shown. -/
def Sound (setup : Setup) (s : State) : Prop :=
  0 < s.wind ∧ (s.pc = .inner → ∃ i ≤ s.tick, s.tstart = setup.clock i)

theorem step_sound (h : step setup s = some t) (hs : Sound setup s) : Sound setup t := by
  obtain ⟨hwind, htime⟩ := hs
  rcases step_cases h with ⟨-, rfl⟩ | ⟨hpc, -, rfl⟩ | ⟨-, -, rfl⟩ | ⟨-, rfl⟩
  · have hspeed := setup.speed_pos
    refine ⟨?_, fun _ => ⟨s.tick, Nat.le_succ _, rfl⟩⟩
    dsimp only [setOut]
    split <;> omega
  · obtain ⟨hle, hcases⟩ := settle_cases setup (sample setup s)
    refine ⟨Int.lt_of_lt_of_le hwind hle, ?_⟩
    intro hinner
    rcases hcases with ⟨-, hend⟩ | ⟨-, hend | ⟨hend, -⟩⟩ | heq | heq
    · exact absurd (hinner.symm.trans hend) (by decide)
    · exact absurd (hinner.symm.trans hend) (by decide)
    · exact absurd (hinner.symm.trans hend) (by decide)
    · rw [heq] at hinner
      cases hinner
    · -- the loop goes on, and the pass is the one that it was
      obtain ⟨i, hi, htstart⟩ := htime hpc
      rw [heq]
      exact ⟨i, Nat.le_succ_of_le hi, htstart⟩
  · exact ⟨hwind, nofun⟩
  · obtain ⟨hsame, hcases⟩ := finish_cases s
    refine ⟨hsame ▸ hwind, ?_⟩
    intro hinner
    rcases hcases with ⟨-, -, hend⟩ | ⟨-, -, hend⟩ | ⟨-, -, hend | hend⟩
    all_goals exact absurd (hinner.symm.trans hend) (by decide)

/-- The speed is positive and the clock does not go back, so nothing is divided by zero. -/
theorem divisors_pos (hreach : Reaches (step setup) (start setup) s) (hpc : s.pc = .inner) :
    0 < (sample setup s).wind ∧ 0 < (sample setup s).diff+1 := by
  have hstart : Sound setup (start setup) := ⟨show (0 : ℤ) < 10 by decide, nofun⟩
  obtain ⟨hwind, htime⟩ := hreach.invariant (fun _ _ _ hu huv => step_sound huv hu) hstart
  obtain ⟨i, hi, htstart⟩ := htime hpc
  have hclock := setup.clock_mono _ _ hi
  refine ⟨hwind, ?_⟩
  dsimp only [sample]
  omega

end Divisors

/-- What is known at each point of a pass when no pass starts with a `diff` that keeps it from its
inner loop. -/
def Rested (s : State) : Prop :=
  Fresh s.events ∧
    match s.pc with
    | .passStart | .ended => True
    | .inner => s.diff ≤ s.dur ∨ ¬ Stale s.events
    | .passEnd => 0 < s.reason ∨ ¬ Stale s.events

theorem Rested.of_passStart {s : State} (h : Fresh s.events) (hpc : s.pc = .passStart) :
    Rested s := by
  refine ⟨h, ?_⟩
  rw [hpc]
  trivial

theorem Rested.of_ended {s : State} (h : Fresh s.events) (hpc : s.pc = .ended) : Rested s := by
  refine ⟨h, ?_⟩
  rw [hpc]
  trivial

theorem Rested.of_passEnd {s : State} (h : Fresh s.events) (hpc : s.pc = .passEnd)
    (hreason : 0 < s.reason ∨ ¬ Stale s.events) : Rested s := by
  refine ⟨h, ?_⟩
  rw [hpc]
  exact hreason

theorem step_rested {setup : Setup} {s t : State} (h : step setup s = some t)
    (hcond : s.pc = .passStart → s.diff ≤ Int.tdiv 1000 setup.speed) (hs : Rested s) :
    Rested t := by
  obtain ⟨hfresh, hpoint⟩ := hs
  rcases step_cases h with ⟨hpc, rfl⟩ | ⟨hpc, -, rfl⟩ | ⟨hpc, hd, rfl⟩ | ⟨hpc, rfl⟩
  · exact ⟨hfresh, Or.inl (hcond hpc)⟩
  · -- the command has just been run, so what comes now rests on it
    have hstale : ¬ Stale (sample setup s).events := not_stale_command
    have hsample : Fresh (sample setup s).events :=
      (fresh_append .command).mpr ⟨hfresh, fun hne => absurd rfl hne⟩
    have hone (e : Event) : Fresh ((sample setup s).events ++ [e]) :=
      (fresh_append e).mpr ⟨hsample, fun _ => hstale⟩
    obtain ⟨-, ⟨hevents, hend⟩ | ⟨hevents, hend⟩ | heq | heq⟩ :=
      settle_cases setup (sample setup s)
    · exact Rested.of_ended (hevents ▸ hone _) hend
    · rcases hend with hend | ⟨hend, hreason⟩
      · exact Rested.of_ended (hevents ▸ hone _) hend
      · exact Rested.of_passEnd (hevents ▸ hone _) hend (Or.inl hreason)
    · rw [heq]
      exact ⟨hsample, Or.inr hstale⟩
    · rw [heq]
      refine ⟨hsample, ?_⟩
      rw [show (sample setup s).pc = .inner from hpc]
      exact Or.inr hstale
  · -- the inner loop ends by its condition, so it has had a round
    rw [hpc] at hpoint
    exact ⟨hfresh, Or.inr (hpoint.resolve_left hd)⟩
  · rw [hpc] at hpoint
    have hone (hreason : ¬ 0 < s.reason) (e : Event) : Fresh (s.events ++ [e]) :=
      (fresh_append e).mpr ⟨hfresh, fun _ => hpoint.resolve_left hreason⟩
    obtain ⟨-, ⟨-, hevents, hend⟩ | ⟨hreason, hevents, hend⟩ | ⟨hreason, hevents, hend⟩⟩ :=
      finish_cases s
    · exact Rested.of_passStart (hevents ▸ hfresh) hend
    · exact Rested.of_ended (hevents ▸ hone hreason _) hend
    · rcases hend with hend | hend
      · exact Rested.of_passStart (hevents ▸ hone hreason _) hend
      · exact Rested.of_ended (hevents ▸ hone hreason _) hend

/-- Every pass that is over, but not the run with it, has changed `us_sleep` at its end. -/
def Behind (s : State) : Prop :=
  match s.pc with
  | .passStart => Stale s.events ∨ (s.events = [] ∧ s.usSleep = 43488)
  | .inner => s.reason = 0
  | .passEnd => 0 < s.reason → Stale s.events
  | .ended => True

theorem step_behind {setup : Setup} {s t : State} (h : step setup s = some t) (hs : Behind s) :
    Behind t := by
  unfold Behind at hs
  rcases step_cases h with ⟨-, rfl⟩ | ⟨hpc, -, rfl⟩ | ⟨hpc, -, rfl⟩ | ⟨hpc, rfl⟩
  · exact rfl
  · rw [hpc] at hs
    have hreason : (sample setup s).reason = 0 := hs
    obtain ⟨-, ⟨-, hend⟩ | ⟨hevents, hend⟩ | heq | heq⟩ := settle_cases setup (sample setup s)
    · rw [Behind, hend]
      trivial
    · rcases hend with hend | ⟨hend, -⟩
      · rw [Behind, hend]
        trivial
      · rw [Behind, hend, hevents]
        exact fun _ => stale_change
    · rw [heq]
      exact fun hpos => absurd hreason (Int.ne_of_gt hpos)
    · rw [heq, Behind, show (sample setup s).pc = .inner from hpc]
      exact hreason
  · rw [hpc] at hs
    have hreason : s.reason = 0 := hs
    exact fun hpos => absurd hreason (Int.ne_of_gt hpos)
  · rw [hpc] at hs
    obtain ⟨-, ⟨hreason, hevents, hend⟩ | ⟨-, -, hend⟩ | ⟨-, hevents, hend⟩⟩ := finish_cases s
    · rw [Behind, hend, hevents]
      exact Or.inl (hs hreason)
    · rw [Behind, hend]
      trivial
    · rcases hend with hend | hend
      · rw [Behind, hend, hevents]
        exact Or.inl stale_change
      · rw [Behind, hend]
        trivial

/-- Behind an inner loop without a round, the sleep is shortened. -/
theorem finish_of_no_round {s : State} (hreason : s.reason = 0) (hrun : s.run = 1000) :
    (finish s).events = s.events ++ [.change] ∧ (finish s).diff = s.diff ∧
      (0 ≤ wrap (s.usSleep - 10000) → (finish s).pc = .passStart) := by
  rw [finish, if_neg (by omega), if_neg (by omega), if_neg (by omega)]
  by_cases hneg : (s.change (s.usSleep - 10000)).usSleep < 0
  · rw [if_pos hneg]
    exact ⟨rfl, rfl, fun hpos => absurd hneg (Int.not_lt.mpr hpos)⟩
  · rw [if_neg hneg]
    exact ⟨rfl, rfl, fun _ => rfl⟩

/-- A pass that starts with too large a `diff` runs no command. -/
theorem skipped_pass {setup : Setup} {s : State} (hpc : s.pc = .passStart)
    (hd : ¬ s.diff ≤ Int.tdiv 1000 setup.speed) :
    ∃ t, Reaches (step setup) s t ∧ t.events = s.events ++ [.change] ∧ t.diff = s.diff ∧
      (0 ≤ wrap (s.usSleep - 10000) → t.pc = .passStart) := by
  have hsetOut : step setup s = some (setOut setup s) := by simp only [step, hpc]
  have hleave : step setup (setOut setup s) = some { setOut setup s with pc := .passEnd } :=
    congrArg some (if_neg hd)
  exact ⟨_, Reaches.head hsetOut (Reaches.head hleave (Reaches.single rfl)),
    finish_of_no_round rfl rfl⟩

theorem not_fresh_of_skipped {setup : Setup} {s : State} (hpc : s.pc = .passStart)
    (hd : ¬ s.diff ≤ Int.tdiv 1000 setup.speed) (hs : Behind s) :
    ∃ t, Reaches (step setup) s t ∧ ¬ Fresh t.events := by
  obtain ⟨t, hreach, hevents, hdiff, hnext⟩ := skipped_pass hpc hd
  rw [Behind, hpc] at hs
  rcases hs with hstale | ⟨-, hsleep⟩
  · refine ⟨t, hreach, ?_⟩
    rw [hevents, fresh_append]
    exact fun h => h.2 (by decide) hstale
  · -- the first pass has no change before it; the second has that of the first
    rw [hsleep] at hnext
    obtain ⟨u, hreach', hevents', -⟩ := skipped_pass (hnext (by decide)) (hdiff ▸ hd)
    refine ⟨u, hreach.trans hreach', ?_⟩
    rw [hevents', fresh_append, hevents]
    exact fun h => h.2 (by decide) stale_change

theorem behind_of_reached {setup : Setup} {s : State} (h : Reaches (step setup) (start setup) s) :
    Behind s :=
  h.invariant (fun _ _ _ hu huv => step_behind huv hu) (Or.inr ⟨rfl, rfl⟩)

/-- 200 times a second, and a first run that takes six seconds. -/
def slowRun : Setup where
  speed := 200
  speed_pos := by decide
  clock := fun i => if i = 0 then 0 else 6
  clock_mono := by
    intro i j hij
    split <;> split <;> omega
  diff := 0
  hit := 0

/-- The six seconds are more than the five that a pass has, and the next pass still sees them. -/
theorem not_fresh_slowRun : ¬ ∀ setup s, Reaches (step setup) (start setup) s → Fresh s.events := by
  intro h
  obtain ⟨s, hreach, hpc, hd⟩ : ∃ s, Reaches (step slowRun) (start slowRun) s ∧
      s.pc = .passStart ∧ ¬ s.diff ≤ Int.tdiv 1000 slowRun.speed := by
    refine ⟨_, Reaches.head rfl (Reaches.head rfl (Reaches.head rfl (Reaches.single rfl))), ?_⟩
    decide
  obtain ⟨t, hst, ht⟩ := not_fresh_of_skipped hpc hd (behind_of_reached hreach)
  exact ht (h slowRun t (hreach.trans hst))

/-- Every decision of a run rests on a new sample exactly when no pass of it starts with a `diff`
that is more than its time, and so without its inner loop. -/
theorem fresh_iff (setup : Setup) :
    (∀ s, Reaches (step setup) (start setup) s → Fresh s.events) ↔
      ∀ s, Reaches (step setup) (start setup) s → s.pc = .passStart →
        s.diff ≤ Int.tdiv 1000 setup.speed := by
  constructor
  · intro h s hreach hpc
    by_contra hd
    obtain ⟨t, hst, ht⟩ := not_fresh_of_skipped hpc hd (behind_of_reached hreach)
    exact ht (h t (hreach.trans hst))
  · intro h s hreach
    have hstart : Rested (start setup) := by
      apply Rested.of_passStart _ rfl
      intro a b c e heq
      simp [start] at heq
    exact (hreach.invariant (fun u v hu hru huv => step_rested huv (h u hu) hru) hstart).1

end YuToolbox.CalibrateLoop
