import YuToolbox.CalibrateRun

/-! `serial.sh`: what the loops of `Calibrate` make of `us_sleep`: the direction in which a window
moves it, and its sign when `usleep` is given it. -/
namespace YuToolbox.CalibrateSleep

open StepRuns CalibrateRun
open CalibrateLoop (wrap)

/-- A round from `s` comes to `m`, and there the window is looked at. -/
structure AtWindow (env : Env) (s m : State) : Prop where
  goesOn : s.aborted = false
  inner : s.pc = .inner
  enters : s.diff ≤ s.dur
  measured : measure env (runCmd s) = some m
  unmatched : ¬ (m.tps = env.speed ∧ m.hit > 10)
  boundary : modulo (m.diff+1) m.wind = some 0

/-- The command is too slow, so it sleeps no longer; it is too fast, so it sleeps no shorter; or it
is as it should be, and so is the sleep. -/
structure Directed (tps speed before after : ℤ) : Prop where
  slow : tps < speed → after ≤ before
  fast : speed < tps → before ≤ after
  right : tps = speed → after = before

/-- The longer sleep of an arm that lengthens it still has 64 bits. -/
def Fits (delta usSleep : ℤ) : Prop :=
  if delta > 5 then 4*usSleep < 3*2^63
  else if delta > 1 then 11*usSleep < 10*2^63
  else usSleep < 2^63-8000

section Arms

variable {delta us : ℤ}

/-- Of the arms for a command that is too slow, one does not look at how long the sleep is. -/
theorem arm_slow (hdelta : delta < 0) (hus : 0 ≤ us) :
    (arm delta us).1 ≤ us ∧ -1000 ≤ (arm delta us).1 := by
  unfold arm
  split_ifs <;> simp only [Int.tdiv_eq_ediv_of_nonneg hus] <;> omega

/-- The last arm is also the one for a command that is as it should be. -/
theorem arm_zero (us : ℤ) : (arm 0 us).1 = us+8000 := rfl

theorem arm_nonneg (hdelta : delta ≠ -1) (hus : 0 ≤ us) : 0 ≤ (arm delta us).1 := by
  unfold arm
  split_ifs <;> simp only [Int.tdiv_eq_ediv_of_nonneg hus] <;> omega

theorem arm_fast (hdelta : 0 < delta) (hus : 0 ≤ us) (hmax : us < 2^63) :
    us ≤ (arm delta us).1 ∧ (arm delta us).1 < 2^64 ∧
      ((arm delta us).1 < 2^63 ↔ Fits delta us) := by
  unfold arm Fits
  split_ifs <;> simp only [Int.tdiv_eq_ediv_of_nonneg hus] <;> omega

theorem wrap_of_lt {x : ℤ} (hmin : -2^63 ≤ x) (hmax : x < 2^63) : wrap x = x := by
  apply Int.bmod_eq_of_le
  · omega
  · omega

theorem wrap_neg {x : ℤ} (hmin : 2^63 ≤ x) (hmax : x < 2^64) : wrap x < 0 := by
  unfold wrap
  rw [Int.bmod_def]
  omega

theorem wrap_range (x : ℤ) : -2^63 ≤ wrap x ∧ wrap x < 2^63 := by
  unfold wrap
  rw [Int.bmod_def]
  omega

theorem wrap_arm_slow (hdelta : delta < 0) (hus : 0 ≤ us) (hmax : us < 2^63) :
    wrap (arm delta us).1 ≤ us := by
  obtain ⟨hle, hmin⟩ := arm_slow hdelta hus
  rw [wrap_of_lt (by omega) (by omega)]
  exact hle

theorem wrap_arm_zero (hus : 0 ≤ us) (hmax : us < 2^63) : wrap (arm 0 us).1 ≠ us := by
  rw [arm_zero]
  rcases lt_or_ge (us+8000) (2^63) with hlt | hge
  · rw [wrap_of_lt (by omega) hlt]
    omega
  · have hneg := wrap_neg hge (by omega)
    omega

/-- A sum that does not fit comes out negative, and so less than the sleep was. -/
theorem wrap_arm_fast (hdelta : 0 < delta) (hus : 0 ≤ us) (hmax : us < 2^63) :
    us ≤ wrap (arm delta us).1 ↔ Fits delta us := by
  obtain ⟨hle, hover, hfits⟩ := arm_fast hdelta hus hmax
  rw [← hfits]
  constructor
  · intro hup
    by_contra hge
    have hneg := wrap_neg (not_lt.mp hge) hover
    omega
  · intro hlt
    rw [wrap_of_lt (by omega) hlt]
    exact hle

end Arms

section Steps

variable {arith : ℤ → ℤ} {env : Env} {s m t : State}

theorem step_of_atWindow (h : AtWindow env s m) :
    step arith env s = some (window arith (m.tps - env.speed) m) := by
  have hnot : ¬ s.aborted = true := by rw [h.goesOn]; exact Bool.false_ne_true
  have hsettle : settle arith env m = some (window arith (m.tps - env.speed) m) := by
    rw [settle, if_neg h.unmatched, h.boundary]
    rfl
  rw [step, if_neg hnot, h.inner]
  simp only [if_pos h.enters, h.measured, Option.bind_eq_bind, Option.bind_some, hsettle,
    Option.getD_some]

/-- A step leaves `us_sleep` alone, or what it is given has gone through the arithmetic. -/
theorem step_usSleep (h : step arith env s = some t) :
    t.usSleep = s.usSleep ∨ ∃ value, t.usSleep = arith value := by
  -- a pass sets out, a round settles, the inner loop is left, a pass is finished
  rcases step_cases arith s h with ⟨-, hset | rfl⟩ | ⟨-, -, ⟨m, hm, hsettle⟩ | rfl⟩ |
    ⟨-, rfl⟩ | ⟨-, rfl⟩
  · obtain ⟨dur, -, hset⟩ := Option.bind_eq_some_iff.mp hset
    obtain rfl := Option.some.inj hset
    exact Or.inl rfl
  · exact Or.inl rfl
  · obtain ⟨-, -, hsame, -⟩ := measure_frame _ hm
    rcases settle_cases arith m hsettle with rfl | rfl | rfl | rfl
    · exact Or.inl hsame
    · exact Or.inr ⟨_, (window_spec arith _ m).2.2.1⟩
    · exact Or.inl hsame
    · exact Or.inl hsame
  · exact Or.inl rfl
  · exact Or.inl rfl
  · unfold finish
    split
    · exact Or.inl rfl
    split
    · exact Or.inl rfl
    split
    · exact Or.inr ⟨_, rfl⟩
    · dsimp only
      split
      · exact Or.inr ⟨_, rfl⟩
      · exact Or.inr ⟨_, rfl⟩

end Steps

/-- With 64 bits, a sleep that is reached has as many. -/
theorem usSleep_lt {env : Env} {s : State} (h : Reaches (step wrap env) (start env) s) :
    s.usSleep < 2^63 := by
  apply h.invariant (P := fun s => s.usSleep < 2^63)
  · rintro u v - hu huv
    rcases step_usSleep huv with hsame | ⟨value, hvalue⟩
    · rw [hsame]
      exact hu
    · rw [hvalue]
      exact (wrap_range value).2
  · exact (by decide : (43488 : ℤ) < 2^63)

/-- The window moves the sleep in the right direction exactly when the command does not have the
speed that it should have, and the new sleep does not overflow. -/
theorem directed_iff (env : Env) (s m t : State)
    (hreach : Reaches (step wrap env) (start env) s) (hwindow : AtWindow env s m)
    (hstep : step wrap env s = some t) (hus : 0 ≤ m.usSleep) :
    Directed m.tps env.speed m.usSleep t.usSleep ↔
      m.tps ≠ env.speed ∧ (env.speed < m.tps → Fits (m.tps - env.speed) m.usSleep) := by
  have hmax : m.usSleep < 2^63 := by
    have hsame : m.usSleep = s.usSleep := (measure_frame _ hwindow.measured).2.2.1
    rw [hsame]
    exact usSleep_lt hreach
  have hnew : t.usSleep = wrap (arm (m.tps - env.speed) m.usSleep).1 := by
    rw [step_of_atWindow hwindow] at hstep
    obtain rfl := Option.some.inj hstep
    exact (window_spec wrap _ m).2.2.1
  rw [hnew]
  rcases Int.lt_trichotomy m.tps env.speed with hslow | hright | hfast
  · have hdown := wrap_arm_slow (Int.sub_neg_of_lt hslow) hus hmax
    exact iff_of_true ⟨fun _ => hdown, by omega, by omega⟩ ⟨by omega, by omega⟩
  · -- the arm adds 8000, and a sum that wraps is not the old value either
    refine iff_of_false ?_ (fun h => h.1 hright)
    intro h
    have hsame := h.right hright
    rw [hright, Int.sub_self] at hsame
    exact wrap_arm_zero hus hmax hsame
  · have hup := wrap_arm_fast (Int.sub_pos_of_lt hfast) hus hmax
    constructor
    · intro h
      exact ⟨by omega, fun _ => hup.mp (h.fast hfast)⟩
    · rintro ⟨-, hfits⟩
      exact ⟨by omega, fun _ => hup.mpr (hfits hfast), by omega⟩

/-- Once a second, and the clock stands still in the first pass. -/
def steady : Env := ⟨1, fun _ => 0, 0, 0⟩

/-- The first pass, and its first round up to the window. -/
theorem atWindow_steady : ∃ s m, Reaches (step wrap steady) (start steady) s ∧
    AtWindow steady s m ∧ m.tps = 1 ∧ m.usSleep = 43488 := by
  refine ⟨_, _, Reaches.single rfl, ⟨rfl, rfl, ?_, rfl, ?_, rfl⟩, rfl, rfl⟩
  · decide
  · decide

theorem directed_iff_steady : ∃ s m t, AtWindow steady s m ∧ step wrap steady s = some t ∧
    (Directed m.tps steady.speed m.usSleep t.usSleep ↔
      m.tps ≠ steady.speed ∧ (steady.speed < m.tps → Fits (m.tps - steady.speed) m.usSleep)) := by
  obtain ⟨s, m, hreach, hwindow, -, hus⟩ := atWindow_steady
  have hstep : step wrap steady s = _ := step_of_atWindow hwindow
  exact ⟨s, m, _, hwindow, hstep, directed_iff steady s m _ hreach hwindow hstep (by omega)⟩

/-- One run in a second is what is asked for, and the sleep gets longer. -/
theorem not_directed_steady : ¬ ∀ env s m t, Reaches (step wrap env) (start env) s →
    AtWindow env s m → step wrap env s = some t → 0 ≤ m.usSleep →
      Directed m.tps env.speed m.usSleep t.usSleep := by
  intro h
  obtain ⟨s, m, hreach, hwindow, htps, hus⟩ := atWindow_steady
  have hdirected := h steady s m _ hreach hwindow (step_of_atWindow hwindow) (by omega)
  have hsame := hdirected.right htps
  rw [(window_spec wrap _ m).2.2.1, htps, hus] at hsame
  exact absurd hsame (by decide)

/-- Nothing negative has been given to `usleep`, and nothing negative is left for it: the function
has ended where `us_sleep` is negative. -/
structure Awake (s : State) : Prop where
  given : ∀ value ∈ s.usleeps, 0 ≤ value
  left : s.usSleep < 0 → s.pc = .ended

section Sign

variable {env : Env} {s m t : State}

theorem Awake.nonneg (hs : Awake s) (hpc : s.pc ≠ .ended) : 0 ≤ s.usSleep := by
  by_contra hneg
  exact hpc (hs.left (not_le.mp hneg))

theorem Awake.of_nonneg (hgiven : ∀ value ∈ t.usleeps, 0 ≤ value) (h : 0 ≤ t.usSleep) :
    Awake t :=
  ⟨hgiven, fun hneg => absurd hneg (not_lt.mpr h)⟩

theorem window_awake (delta : ℤ) (hgiven : ∀ value ∈ s.usleeps, 0 ≤ value)
    (hus : 0 ≤ s.usSleep) : Awake (window id delta s) := by
  obtain ⟨-, hsame, hnew, hpc⟩ := window_spec id delta s
  refine ⟨by rw [hsame]; exact hgiven, ?_⟩
  intro hneg
  rw [hnew, id] at hneg
  rcases hpc with hpc | ⟨-, hlooked⟩
  · exact hpc
  · -- all arms but the one that looks at the sign keep it
    by_cases hdelta : delta = -1
    · exact absurd hneg (hlooked hdelta)
    · have hnonneg := arm_nonneg hdelta hus
      omega

theorem finish_awake (hgiven : ∀ value ∈ s.usleeps, 0 ≤ value) (hus : 0 ≤ s.usSleep) :
    Awake (finish id s) := by
  unfold finish
  split
  · exact Awake.of_nonneg hgiven hus
  split
  · exact Awake.of_nonneg hgiven hus
  split
  · have hmore : 0 ≤ s.usSleep+10000 := by omega
    exact Awake.of_nonneg hgiven hmore
  · dsimp only
    split
    · exact ⟨hgiven, fun _ => rfl⟩
    · rename_i hneg
      exact Awake.of_nonneg hgiven (not_lt.mp hneg)

/-- What is given to `usleep` in a round is the sleep that the round starts with. -/
theorem runCmd_given (hs : Awake s) (hpc : s.pc ≠ .ended) :
    ∀ value ∈ (runCmd s).usleeps, 0 ≤ value := by
  intro value hvalue
  rcases List.mem_append.mp hvalue with hold | hnew
  · exact hs.given value hold
  · rw [List.mem_singleton.mp hnew]
    exact hs.nonneg hpc

theorem step_awake (h : step id env s = some t) (hs : Awake s) : Awake t := by
  rcases step_cases id s h with ⟨hpc, hset | rfl⟩ | ⟨hpc, -, ⟨m, hm, hsettle⟩ | rfl⟩ |
    ⟨hpc, rfl⟩ | ⟨hpc, rfl⟩
  -- wherever a step is possible the function has not ended, so the sleep is not negative
  all_goals have hne : s.pc ≠ .ended := by rw [hpc]; decide
  · obtain ⟨dur, -, hset⟩ := Option.bind_eq_some_iff.mp hset
    obtain rfl := Option.some.inj hset
    exact Awake.of_nonneg hs.given (hs.nonneg hne)
  · exact Awake.of_nonneg hs.given (hs.nonneg hne)
  · obtain ⟨-, hsame, hsleep, -⟩ := measure_frame _ hm
    have hgiven : ∀ value ∈ m.usleeps, 0 ≤ value := by
      rw [hsame]
      exact runCmd_given hs hne
    have hus : 0 ≤ m.usSleep := by
      rw [hsleep]
      exact hs.nonneg hne
    -- of what a round may make of it, only the window touches the sleep
    rcases settle_cases id m hsettle with rfl | rfl | rfl | rfl
    · exact Awake.of_nonneg hgiven hus
    · exact window_awake _ hgiven hus
    · exact Awake.of_nonneg hgiven hus
    · exact Awake.of_nonneg hgiven hus
  · exact Awake.of_nonneg (runCmd_given hs hne) (hs.nonneg hne)
  · exact Awake.of_nonneg hs.given (hs.nonneg hne)
  · exact finish_awake hs.given (hs.nonneg hne)

end Sign

/-- In exact arithmetic, `usleep` is never given a negative value, whatever the clock shows. -/
theorem usleep_nonneg (env : Env) (s : State) (h : Reaches (step id env) (start env) s) :
    Awake s :=
  h.invariant (fun _ _ _ hu huv => step_awake huv hu) ⟨nofun, nofun⟩

/-- Two steps of it, with a round whose sleep is 43488. -/
theorem usleep_nonneg_steady : ∃ s, s.usleeps = [43488] ∧ Awake s := by
  obtain ⟨s, hreach, hgiven⟩ : ∃ s, Reaches (step id steady) (start steady) s ∧
      s.usleeps = [43488] :=
    ⟨_, Reaches.head rfl (Reaches.single rfl), rfl⟩
  exact ⟨s, hgiven, usleep_nonneg steady s hreach⟩

end YuToolbox.CalibrateSleep
