import YuToolbox.TransitionRuns

/-! `hung_task.c`: the load of the module hangs in a lock that it holds itself, until the callback
of a timer gives it free. Once the module is gone, neither the callback nor its timer is left. -/
namespace YuToolbox.HungTask

open TransitionRuns

/-- What `init_hung_task_test` does next. -/
inductive InitPc where
  | mutexInit
  | mutexLock
  | hrtimerInit
  | hrtimerStart
  | mutexLockAgain
  deriving DecidableEq

/-- In `exit` the loop of `exit_hung_task_test` looks at the timer. -/
inductive Module where
  | unloaded
  | init (pc : InitPc)
  | loaded
  | exit
  deriving DecidableEq

/-- `test_hrtimer_free_mutex_func` before `mutex_unlock` and behind it. -/
inductive CallbackPc where
  | unlock
  | ret
  deriving DecidableEq

inductive Timer where
  | inactive
  | enqueued (expires : ℕ)
  | running (pc : CallbackPc)
  deriving DecidableEq

/-- `hrtimer_active`: also while the callback runs. -/
def Timer.active (t : Timer) : Bool := t ≠ .inactive

/-- The module with its mutex and its timer, and the time in nanoseconds. What the counters say is
how often `mutex_unlock` and the whole load have returned; `begun` is the time of the last
`hrtimer_start`. -/
structure State where
  now : ℕ
  module : Module
  locked : Bool
  timer : Timer
  begun : ℕ
  released : ℕ
  loads : ℕ
  deriving DecidableEq

def start : State := ⟨0, .unloaded, false, .inactive, 0, 0, 0⟩

/-- `ktime_set(20, 0)`. -/
def ktime : ℕ := 20*1000000000

inductive Action where
  | insmod
  | init
  | rmmod
  | exit
  | expire
  | callback
  | tick (ns : ℕ)

def initStep (s : State) : InitPc → Option State
  | .mutexInit => some { s with locked := false, module := .init .mutexLock }
  | .mutexLock =>
    if s.locked then none else some { s with locked := true, module := .init .hrtimerInit }
  | .hrtimerInit => some { s with timer := .inactive, module := .init .hrtimerStart }
  | .hrtimerStart =>
    some { s with
      timer := .enqueued (s.now+ktime)
      begun := s.now
      module := .init .mutexLockAgain }
  -- this is where the task hangs
  | .mutexLockAgain =>
    if s.locked then none
    else some { s with locked := true, module := .loaded, loads := s.loads+1 }

def callbackStep (s : State) : CallbackPc → State
  | .unlock => { s with locked := false, timer := .running .ret, released := s.released+1 }
  -- `HRTIMER_NORESTART`
  | .ret => { s with timer := .inactive }

def step (s : State) : Action → Option State
  | .insmod => if s.module = .unloaded then some { s with module := .init .mutexInit } else none
  | .init =>
    match s.module with
    | .init pc => initStep s pc
    | _ => none
  | .rmmod => if s.module = .loaded then some { s with module := .exit } else none
  | .exit =>
    if s.module = .exit then
      -- another round of the loop, or the end
      if s.timer.active then some s else some { s with module := .unloaded }
    else none
  | .expire =>
    match s.timer with
    | .enqueued expires =>
      if expires ≤ s.now then some { s with timer := .running .unlock } else none
    | _ => none
  | .callback =>
    match s.timer with
    | .running pc => some (callbackStep s pc)
    | _ => none
  | .tick ns => some { s with now := s.now+ns }

/-- No timer is set, and every lock of a load has been given free. -/
def State.Quiet (s : State) : Prop := s.timer = .inactive ∧ s.released = s.loads

/-- The second `mutex_lock` waits for the callback. -/
def State.Hanging (s : State) : Prop :=
  s.locked = true ∧ s.released = s.loads ∧
    (s.timer = .enqueued (s.begun+ktime) ∨
      s.timer = .running .unlock ∧ s.begun+ktime ≤ s.now)

/-- The callback has given the lock free, and has at most its return to come. -/
def State.Past (s : State) : Prop :=
  (s.timer = .running .ret ∨ s.timer = .inactive) ∧ s.begun+ktime ≤ s.now

/-- What holds at each place in the life of the module. -/
def Sound (s : State) : Prop :=
  match s.module with
  | .unloaded | .init .mutexInit => s.Quiet
  | .init .mutexLock => s.Quiet ∧ s.locked = false
  | .init .hrtimerInit | .init .hrtimerStart => s.Quiet ∧ s.locked = true
  | .init .mutexLockAgain =>
    s.Hanging ∨ s.Past ∧ s.locked = false ∧ s.released = s.loads+1
  | .loaded | .exit => s.Past ∧ s.locked = true ∧ s.released = s.loads

section Steps

variable {s t : State}

/-- What does not move the module on has to keep what is known of the timer at each place. -/
theorem Sound.stay (hs : Sound s) (hmodule : t.module = s.module) (hlocked : t.locked = s.locked)
    (hcount : t.released = s.released ∧ t.loads = s.loads) (hquiet : s.Quiet → t.Quiet)
    (hhanging : s.Hanging → t.Hanging) (hpast : s.Past → t.Past) : Sound t := by
  unfold Sound at hs ⊢
  rw [hmodule, hlocked, hcount.1, hcount.2]
  split at hs
  · exact hquiet hs
  · exact hquiet hs
  · exact ⟨hquiet hs.1, hs.2⟩
  · exact ⟨hquiet hs.1, hs.2⟩
  · exact ⟨hquiet hs.1, hs.2⟩
  · exact hs.imp hhanging (fun hfreed => ⟨hpast hfreed.1, hfreed.2⟩)
  · exact ⟨hpast hs.1, hs.2⟩
  · exact ⟨hpast hs.1, hs.2⟩

theorem sound_init (hs : Sound s) (h : step s .init = some t) : Sound t := by
  simp only [step] at h
  split at h
  · rename_i pc hmodule
    simp only [Sound, hmodule] at hs
    cases pc with
    | mutexInit =>
      obtain rfl := Option.some.inj h
      exact ⟨hs, rfl⟩
    | mutexLock =>
      obtain ⟨hquiet, hfree⟩ := hs
      rw [initStep, hfree, if_neg Bool.false_ne_true] at h
      obtain rfl := Option.some.inj h
      exact ⟨hquiet, rfl⟩
    | hrtimerInit =>
      obtain ⟨hquiet, hlocked⟩ := hs
      obtain rfl := Option.some.inj h
      exact ⟨⟨rfl, hquiet.2⟩, hlocked⟩
    | hrtimerStart =>
      obtain ⟨hquiet, hlocked⟩ := hs
      obtain rfl := Option.some.inj h
      exact Or.inl ⟨hlocked, hquiet.2, Or.inl rfl⟩
    | mutexLockAgain =>
      rw [initStep] at h
      split at h
      · cases h
      · rename_i hfree
        obtain rfl := Option.some.inj h
        -- a free lock means that the callback is past its unlock
        rcases hs with ⟨hlocked, -⟩ | ⟨hpast, -, hcount⟩
        · exact absurd hlocked hfree
        · exact ⟨hpast, rfl, hcount⟩
  · cases h

theorem sound_insmod (hs : Sound s) (h : step s .insmod = some t) : Sound t := by
  simp only [step] at h
  split at h
  · rename_i hmodule
    simp only [Sound, hmodule] at hs
    obtain rfl := Option.some.inj h
    exact hs
  · cases h

theorem sound_rmmod (hs : Sound s) (h : step s .rmmod = some t) : Sound t := by
  simp only [step] at h
  split at h
  · rename_i hmodule
    simp only [Sound, hmodule] at hs
    obtain rfl := Option.some.inj h
    exact hs
  · cases h

/-- The loop is left only with a timer that has come to rest. -/
theorem sound_exit (hs : Sound s) (h : step s .exit = some t) : Sound t := by
  simp only [step] at h
  split at h
  · rename_i hmodule
    split at h
    · obtain rfl := Option.some.inj h
      exact hs
    · rename_i hactive
      simp only [Sound, hmodule] at hs
      have hrest : s.timer = .inactive := by simpa [Timer.active] using hactive
      obtain rfl := Option.some.inj h
      exact ⟨hrest, hs.2.2⟩
  · cases h

/-- A timer that can expire is that of a load which hangs. -/
theorem hanging_of_timer (hs : Sound s)
    (h : s.timer ≠ .inactive ∧ s.timer ≠ .running .ret) :
    s.module = .init .mutexLockAgain ∧ s.Hanging := by
  have hquiet : ¬ s.Quiet := fun hq => h.1 hq.1
  have hpast : ¬ s.Past := fun hp => hp.1.elim h.2 h.1
  unfold Sound at hs
  split at hs
  · exact absurd hs hquiet
  · exact absurd hs hquiet
  · exact absurd hs.1 hquiet
  · exact absurd hs.1 hquiet
  · exact absurd hs.1 hquiet
  · rename_i hmodule
    refine ⟨hmodule, hs.resolve_right ?_⟩
    intro hfreed
    exact hpast hfreed.1
  · exact absurd hs.1 hpast
  · exact absurd hs.1 hpast

theorem sound_expire (hs : Sound s) (h : step s .expire = some t) : Sound t := by
  simp only [step] at h
  split at h
  · rename_i expires htimer
    split at h
    · rename_i hle
      have hother : s.timer ≠ .inactive ∧ s.timer ≠ .running .ret := by
        rw [htimer]
        exact ⟨by simp, by simp⟩
      obtain ⟨hmodule, hlocked, hcount, hwhen⟩ := hanging_of_timer hs hother
      obtain rfl := Option.some.inj h
      have hexpires : s.begun+ktime ≤ s.now := by
        rcases hwhen with hwhen | ⟨hwhen, -⟩
        · rw [htimer] at hwhen
          cases hwhen
          exact hle
        · rw [htimer] at hwhen
          cases hwhen
      simp only [Sound, hmodule]
      exact Or.inl ⟨hlocked, hcount, Or.inr ⟨rfl, hexpires⟩⟩
    · cases h
  · cases h

theorem sound_callback (hs : Sound s) (h : step s .callback = some t) : Sound t := by
  simp only [step] at h
  split at h
  · rename_i pc htimer
    obtain rfl := Option.some.inj h
    cases pc with
    | unlock =>
      have hother : s.timer ≠ .inactive ∧ s.timer ≠ .running .ret := by
        rw [htimer]
        exact ⟨by simp, by simp⟩
      obtain ⟨hmodule, -, hcount, hwhen⟩ := hanging_of_timer hs hother
      have hexpires : s.begun+ktime ≤ s.now := by
        rcases hwhen with hwhen | ⟨-, hwhen⟩
        · rw [htimer] at hwhen
          cases hwhen
        · exact hwhen
      simp only [Sound, callbackStep, hmodule]
      exact Or.inr ⟨⟨Or.inl rfl, hexpires⟩, trivial, congrArg (·+1) hcount⟩
    | ret =>
      -- wherever the module is, only the callback's return was left
      have hquiet : ¬ s.Quiet := fun hq => absurd (htimer.symm.trans hq.1) (by simp)
      have hhanging : ¬ s.Hanging := by
        rintro ⟨-, -, hwhen | ⟨hwhen, -⟩⟩ <;> exact absurd (htimer.symm.trans hwhen) (by simp)
      have hpast : s.Past → State.Past { s with timer := .inactive } :=
        fun hp => ⟨Or.inr rfl, hp.2⟩
      exact hs.stay rfl rfl ⟨rfl, rfl⟩ (fun hq => absurd hq hquiet)
        (fun hh => absurd hh hhanging) hpast
  · cases h

/-- Time passes, and what has expired stays so. -/
theorem sound_tick {ns : ℕ} (hs : Sound s) (h : step s (.tick ns) = some t) : Sound t := by
  obtain rfl := Option.some.inj h
  have hpast : s.Past → State.Past { s with now := s.now+ns } :=
    fun hp => ⟨hp.1, Nat.le_add_right_of_le hp.2⟩
  have hhanging : s.Hanging → State.Hanging { s with now := s.now+ns } := by
    rintro ⟨hlocked, hcount, hwhen⟩
    exact ⟨hlocked, hcount, hwhen.imp_right (fun hw => ⟨hw.1, Nat.le_add_right_of_le hw.2⟩)⟩
  exact hs.stay rfl rfl ⟨rfl, rfl⟩ id hhanging hpast

theorem sound_step {a : Action} (hs : Sound s) (h : step s a = some t) : Sound t := by
  cases a with
  | insmod => exact sound_insmod hs h
  | init => exact sound_init hs h
  | rmmod => exact sound_rmmod hs h
  | exit => exact sound_exit hs h
  | expire => exact sound_expire hs h
  | callback => exact sound_callback hs h
  | tick ns => exact sound_tick hs h

theorem sound_start : Sound start := ⟨rfl, rfl⟩

theorem sound_exec {run : List Action} (h : exec step start run = some s) : Sound s :=
  exec_invariant (fun _ _ _ _ hs hst => sound_step hs hst) h sound_start

end Steps

/-- However often the module is loaded and removed: when it is gone, no timer is left that could
call into it. The load hangs exactly as long as the callback has not given the lock free, which is
no less than twenty seconds, and each load is freed by a callback of its own. -/
theorem hung_law (run : List Action) (s : State) (h : exec step start run = some s) :
    (s.module = .unloaded → step s .expire = none ∧ step s .callback = none) ∧
      (s.module = .init .mutexLockAgain → (step s .init = none ↔ s.released = s.loads)) ∧
      (s.module = .loaded ∨ s.module = .exit →
        s.begun+ktime ≤ s.now ∧ s.released = s.loads) := by
  have hs := sound_exec h
  refine ⟨fun hmodule => ?_, fun hmodule => ?_, fun hmodule => ?_⟩
  · simp only [Sound, hmodule] at hs
    simp only [step, hs.1, and_self]
  · simp only [Sound, hmodule] at hs
    rcases hs with ⟨hlocked, hcount, -⟩ | ⟨-, hfree, hcount⟩
    · simp [step, initStep, hmodule, hlocked, hcount]
    · have hmore : s.released ≠ s.loads := by omega
      simp [step, initStep, hmodule, hfree, hmore]
  · rcases hmodule with hmodule | hmodule
    · simp only [Sound, hmodule] at hs
      exact ⟨hs.1.2, hs.2.2⟩
    · simp only [Sound, hmodule] at hs
      exact ⟨hs.1.2, hs.2.2⟩

theorem hung_law_loaded : ∃ s,
    exec step start [.insmod, .init, .init, .init, .init, .tick ktime, .expire, .callback, .init] =
      some s ∧ s.begun+ktime ≤ s.now ∧ s.released = s.loads := by
  have hrun : exec step start
      [.insmod, .init, .init, .init, .init, .tick ktime, .expire, .callback, .init] =
        some ⟨ktime, .loaded, true, .running .ret, 0, 1, 1⟩ := by decide
  exact ⟨_, hrun, (hung_law _ _ hrun).2.2 (Or.inl rfl)⟩

section Returns

variable {s : State}

/-- The module is removed after at most so many actions, none of which loads it again. -/
def Removes (n : ℕ) (s : State) : Prop :=
  ∃ as t, as.length ≤ n ∧ .insmod ∉ as ∧ exec step s as = some t ∧ t.module = .unloaded

theorem Removes.head {n : ℕ} {t : State} {a : Action} (ha : a ≠ .insmod)
    (hst : step s a = some t) (h : Removes n t) : Removes (n+1) s := by
  obtain ⟨as, u, hlen, has, hrun, hu⟩ := h
  refine ⟨a :: as, u, Nat.succ_le_succ hlen, ?_, exec_cons hst hrun, hu⟩
  exact List.not_mem_cons_of_ne_of_not_mem (Ne.symm ha) has

theorem Removes.mono {m n : ℕ} (hmn : m ≤ n) (h : Removes m s) : Removes n s := by
  obtain ⟨as, t, hlen, hrest⟩ := h
  exact ⟨as, t, Nat.le_trans hlen hmn, hrest⟩

theorem removes_exit (hs : Sound s) (hmodule : s.module = .exit) : Removes 2 s := by
  have hpast : s.Past := by
    simp only [Sound, hmodule] at hs
    exact hs.1
  have hquiet (t : State) (ht : t.module = .exit) (hrest : t.timer = .inactive) : Removes 1 t := by
    refine ⟨[.exit], { t with module := .unloaded }, Nat.le_refl 1, by simp, ?_, rfl⟩
    simp [exec, step, ht, hrest, Timer.active]
  rcases hpast.1 with htimer | htimer
  · -- the callback returns first
    apply Removes.head (a := .callback) (by simp) (by simp only [step, htimer]; rfl)
    exact hquiet _ hmodule rfl
  · exact (hquiet s hmodule htimer).mono (by decide)

theorem removes_loaded (hs : Sound s) (hmodule : s.module = .loaded) : Removes 3 s := by
  have hstep : step s .rmmod = some { s with module := .exit } := by
    simp only [step, hmodule, if_true]
  exact Removes.head (by simp) hstep (removes_exit (sound_step hs hstep) rfl)

theorem removes_free (hs : Sound s) (hmodule : s.module = .init .mutexLockAgain)
    (hfree : s.locked = false) : Removes 4 s := by
  have hstep : step s .init =
      some { s with locked := true, module := .loaded, loads := s.loads+1 } := by
    simp [step, initStep, hmodule, hfree]
  exact Removes.head (by simp) hstep (removes_loaded (sound_step hs hstep) rfl)

theorem removes_unlock (hs : Sound s) (hmodule : s.module = .init .mutexLockAgain)
    (htimer : s.timer = .running .unlock) : Removes 5 s := by
  have hstep : step s .callback = some (callbackStep s .unlock) := by simp only [step, htimer]
  exact Removes.head (by simp) hstep (removes_free (sound_step hs hstep) hmodule rfl)

theorem removes_again (hs : Sound s) (hmodule : s.module = .init .mutexLockAgain) :
    Removes 7 s := by
  have hsplit := hs
  simp only [Sound, hmodule] at hsplit
  rcases hsplit with ⟨-, -, htimer | ⟨htimer, -⟩⟩ | ⟨-, hfree, -⟩
  · -- wait for the timer, and let it expire
    have htick : step s (.tick (s.begun+ktime)) = some { s with now := s.now+(s.begun+ktime) } :=
      rfl
    have hexpire : step { s with now := s.now+(s.begun+ktime) } .expire =
        some { s with now := s.now+(s.begun+ktime), timer := .running .unlock } := by
      simp only [step, htimer]
      rw [if_pos (Nat.le_add_left _ _)]
    have hticked := sound_step hs htick
    apply Removes.head (by simp) htick
    apply Removes.head (by simp) hexpire
    exact removes_unlock (sound_step hticked hexpire) hmodule rfl
  · exact (removes_unlock hs hmodule htimer).mono (by decide)
  · exact (removes_free hs hmodule hfree).mono (by decide)

theorem removes_init (hs : Sound s) {pc : InitPc} (hmodule : s.module = .init pc) :
    Removes 11 s := by
  have hnext {n : ℕ} {s t : State} (hs : Sound s) (hst : step s .init = some t)
      (h : Sound t → Removes n t) : Removes (n+1) s :=
    Removes.head (by simp) hst (h (sound_step hs hst))
  have hstart {s : State} (hs : Sound s) (hm : s.module = .init .hrtimerStart) : Removes 8 s := by
    apply hnext hs (by simp only [step, hm]; rfl)
    intro ht
    exact removes_again ht rfl
  have htimer {s : State} (hs : Sound s) (hm : s.module = .init .hrtimerInit) : Removes 9 s := by
    apply hnext hs (by simp only [step, hm]; rfl)
    intro ht
    exact hstart ht rfl
  have hlock {s : State} (hs : Sound s) (hm : s.module = .init .mutexLock) : Removes 10 s := by
    have hfree : s.locked = false := by
      simp only [Sound, hm] at hs
      exact hs.2
    apply hnext hs (by simp only [step, hm, initStep, hfree]; rfl)
    intro ht
    exact htimer ht rfl
  cases pc with
  | mutexInit =>
    apply hnext hs (by simp only [step, hmodule]; rfl)
    intro ht
    exact hlock ht rfl
  | mutexLock => exact (hlock hs hmodule).mono (by decide)
  | hrtimerInit => exact (htimer hs hmodule).mono (by decide)
  | hrtimerStart => exact (hstart hs hmodule).mono (by decide)
  | mutexLockAgain => exact (removes_again hs hmodule).mono (by decide)

end Returns

/-- The load hangs, but not for ever: from every state that can be reached eleven actions are enough
to have the module loaded and removed. -/
theorem hung_ends (run : List Action) (s : State) (h : exec step start run = some s) :
    ∃ as t, as.length ≤ 11 ∧ .insmod ∉ as ∧ exec step s as = some t ∧ t.module = .unloaded := by
  have hs := sound_exec h
  cases hmodule : s.module with
  | unloaded => exact ⟨[], s, Nat.zero_le 11, List.not_mem_nil, rfl, hmodule⟩
  | init pc => exact removes_init hs hmodule
  | loaded => exact (removes_loaded hs hmodule).mono (by decide)
  | exit => exact (removes_exit hs hmodule).mono (by decide)

theorem hung_ends_hanging : ∃ as t, as.length ≤ 11 ∧ .insmod ∉ as ∧
    exec step ⟨0, .init .mutexLockAgain, true, .enqueued ktime, 0, 0, 0⟩ as = some t ∧
      t.module = .unloaded := by
  have hrun : exec step start [.insmod, .init, .init, .init, .init] =
      some ⟨0, .init .mutexLockAgain, true, .enqueued ktime, 0, 0, 0⟩ := by decide
  exact hung_ends _ _ hrun

end YuToolbox.HungTask
