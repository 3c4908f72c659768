import YuToolbox.TransitionRuns

/-! The module `waitqueue.c` from `insmod` to its unloading: `init_module`, the deferred
`my_workqueue_handler`, `cleanup_module`, and the signals that end an interruptible
sleep, in every interleaving. -/
namespace YuToolbox.WaitQueue

open TransitionRuns

/-- Where `init_module` is: in the loop of `start_waitqueue_test`, about to test the
condition of `wait_event_interruptible`, asleep in it, behind it, or returned. -/
inductive InitPc where
  | creating
  | testing
  | asleep
  | awake
  | returned
  deriving DecidableEq

/-- Where the work item is: not scheduled, waiting for a worker, in `msleep`, before
`stop = 1`, before the wake-up, before its return, or done. -/
inductive WorkPc where
  | idle
  | queued
  | sleeping
  | stopping
  | waking
  | returning
  | finished
  deriving DecidableEq

inductive CleanupPc where
  | notCalled
  | stoppingThreads
  | returned
  | unloaded
  deriving DecidableEq

structure State where
  init : InitPc
  i : ℕ
  waitThreads : List ℕ
  signalPending : Bool
  stop : ℕ
  work : WorkPc
  cleanup : CleanupPc
  deriving DecidableEq

def start : State := ⟨.creating, 0, [], false, 0, .idle, .notCalled⟩

/-- `kthreadCreate` says whether the kernel could make the thread; `handler` is the next
step of `my_workqueue_handler`, its timer included. -/
inductive Action where
  | kthreadCreate (ok : Bool)
  | scheduleWork
  | waitEvent
  | initReturn
  | signal
  | handler
  | rmmod
  | kthreadStop
  | cleanupReturn
  | unload
  deriving DecidableEq

def WorkPc.stopped (pc : WorkPc) : Prop := pc = .waking ∨ pc = .returning ∨ pc = .finished

/-- A task asleep in `wait_event_interruptible` goes back to the test of its condition. -/
def InitPc.wake : InitPc → InitPc
  | .asleep => .testing
  | pc => pc

def handlerStep (s : State) : Option State :=
  match s.work with
  | .idle => none
  | .queued => some { s with work := .sleeping }
  | .sleeping => some { s with work := .stopping }
  | .stopping => some { s with work := .waking, stop := 1 }
  | .waking => some { s with work := .returning, init := s.init.wake }
  | .returning => some { s with work := .finished }
  | .finished => none

def step (numThreads : ℕ) (s : State) : Action → Option State
  | .kthreadCreate ok =>
    if s.init = .creating ∧ s.i < numThreads then
      some { s with
        i := s.i+1
        waitThreads := if ok then s.i :: s.waitThreads else s.waitThreads }
    else none
  | .scheduleWork =>
    if s.init = .creating ∧ numThreads ≤ s.i then
      some { s with init := .testing, work := .queued }
    else none
  | .waitEvent =>
    if s.init = .testing then
      -- the value that tells a signal from `stop == 1` is not looked at
      some { s with init := if s.stop = 1 ∨ s.signalPending then .awake else .asleep }
    else none
  | .initReturn => if s.init = .awake then some { s with init := .returned } else none
  | .signal =>
    if s.init ≠ .returned then some { s with signalPending := true, init := s.init.wake }
    else none
  | .handler => handlerStep s
  | .rmmod =>
    if s.init = .returned ∧ s.cleanup = .notCalled then
      some { s with cleanup := .stoppingThreads }
    else none
  -- neither `cancel_work_sync` nor a flush of `workq` comes in between
  | .kthreadStop =>
    match s.cleanup, s.waitThreads with
    | .stoppingThreads, _ :: threads => some { s with waitThreads := threads }
    | _, _ => none
  | .cleanupReturn =>
    if s.cleanup = .stoppingThreads ∧ s.waitThreads = [] then
      some { s with cleanup := .returned }
    else none
  | .unload => if s.cleanup = .returned then some { s with cleanup := .unloaded } else none

/-- `cleanup_module` has returned, and the module's text may be gone. -/
def State.gone (s : State) : Prop := s.cleanup = .returned ∨ s.cleanup = .unloaded

instance (s : State) : Decidable s.gone := inferInstanceAs (Decidable (_ ∨ _))

/-- The step is none of `my_workqueue_handler` after `cleanup_module` has returned. -/
def Fenced (s : State) (a : Action) : Prop := a = .handler → ¬ s.gone

/-- `cleanup_module` does not return before the work item has run to its end. -/
def WorkFinishedFirst (s : State) (a : Action) : Prop := a = .cleanupReturn → s.work = .finished

instance (s : State) (a : Action) : Decidable (WorkFinishedFirst s a) :=
  inferInstanceAs (Decidable (_ → _))

theorem wake_cases (pc : InitPc) : pc.wake = pc ∨ pc.wake = .testing := by
  cases pc <;> simp [InitPc.wake]

structure HandlerStep (s t : State) : Prop where
  cleanup : t.cleanup = s.cleanup
  signal : t.signalPending = s.signalPending
  scheduled : s.work ≠ .idle
  unfinished : s.work ≠ .finished
  init : t.init = s.init ∨ t.init = s.init.wake
  stop : t.stop = s.stop ∧ (s.work.stopped → t.work.stopped) ∨ t.stop = 1 ∧ t.work.stopped

/-- What a step of `init_module`, or a signal that meets it, changes. -/
structure InitStep (s t : State) (a : Action) : Prop where
  running : s.init ≠ .returned
  cleanup : t.cleanup = s.cleanup
  stop : t.stop = s.stop
  work : s.init = .creating ∨ t.work = s.work
  creating : t.init = .creating → s.init = .creating ∧ t.work = s.work
  signal : a = .signal ∨ t.signalPending = s.signalPending
  -- the wait ends only behind `stop = 1` or a signal
  awake : t.init = .awake ∨ t.init = .returned →
    s.stop = 1 ∨ s.signalPending = true ∨ s.init = .awake

/-- What a step of `cleanup_module`, or the unloading behind it, changes. -/
structure CleanupStep (s t : State) (a : Action) : Prop where
  init : t.init = s.init
  work : t.work = s.work
  stop : t.stop = s.stop
  signal : t.signalPending = s.signalPending
  called : t.cleanup ≠ .notCalled
  behind_init : s.cleanup = .notCalled → s.init = .returned
  gone : s.gone → t.gone
  returns : t.gone → s.gone ∨ a = .cleanupReturn

section Steps

variable {n : ℕ} {s t : State} {a : Action}

theorem handlerStep_cases (h : handlerStep s = some t) : HandlerStep s t := by
  unfold handlerStep at h
  cases hw : s.work <;> simp only [hw] at h
  case idle => cases h
  case finished => cases h
  case waking =>
    obtain rfl := Option.some.inj h
    exact ⟨rfl, rfl, by simp [hw], by simp [hw], Or.inr rfl,
      Or.inl ⟨rfl, fun _ => by simp [WorkPc.stopped]⟩⟩
  all_goals
    obtain rfl := Option.some.inj h
    exact ⟨rfl, rfl, by simp [hw], by simp [hw], Or.inl rfl, by simp [WorkPc.stopped, hw]⟩

theorem waitEvent_cases (h : step n s .waitEvent = some t) : InitStep s t .waitEvent := by
  simp only [step, Option.ite_none_right_eq_some] at h
  obtain ⟨hi, h⟩ := h
  obtain rfl := Option.some.inj h
  by_cases hc : s.stop = 1 ∨ s.signalPending = true
  · have hawake : s.stop = 1 ∨ s.signalPending = true ∨ s.init = .awake := hc.imp id Or.inl
    simp only [if_pos hc]
    exact ⟨by simp [hi], rfl, rfl, Or.inr rfl, by simp, Or.inr rfl,
      fun _ => hawake⟩
  · simp only [if_neg hc]
    exact ⟨by simp [hi], rfl, rfl, Or.inr rfl, by simp, Or.inr rfl,
      by simp⟩

theorem signal_cases (h : step n s .signal = some t) : InitStep s t .signal := by
  simp only [step, Option.ite_none_right_eq_some] at h
  obtain ⟨hi, h⟩ := h
  obtain rfl := Option.some.inj h
  refine ⟨hi, rfl, rfl, Or.inr rfl, fun ht => ?_, Or.inl rfl, fun ht => ?_⟩
  · rcases wake_cases s.init with hw | hw
    · exact ⟨hw.symm.trans ht, rfl⟩
    · cases hw.symm.trans ht
  · rcases wake_cases s.init with hw | hw
    · rw [hw] at ht
      exact Or.inr (Or.inr (ht.resolve_right hi))
    · simp [hw] at ht

/-- A step belongs to the work item, to `init_module` or a signal on it, or to
`cleanup_module` and the unloading. -/
theorem step_cases (h : step n s a = some t) :
    (a = .handler ∧ HandlerStep s t) ∨ InitStep s t a ∨ CleanupStep s t a := by
  cases a with
  | handler => exact Or.inl ⟨rfl, handlerStep_cases h⟩
  | waitEvent => exact Or.inr (Or.inl (waitEvent_cases h))
  | signal => exact Or.inr (Or.inl (signal_cases h))
  | kthreadCreate ok =>
    simp only [step, Option.ite_none_right_eq_some] at h
    obtain ⟨⟨hi, -⟩, h⟩ := h
    obtain rfl := Option.some.inj h
    exact Or.inr (Or.inl ⟨by simp [hi], rfl, rfl, Or.inl hi, fun _ => ⟨hi, rfl⟩, Or.inr rfl,
      by simp [hi]⟩)
  | scheduleWork =>
    simp only [step, Option.ite_none_right_eq_some] at h
    obtain ⟨⟨hi, -⟩, h⟩ := h
    obtain rfl := Option.some.inj h
    exact Or.inr (Or.inl ⟨by simp [hi], rfl, rfl, Or.inl hi, by simp, Or.inr rfl,
      by simp⟩)
  | initReturn =>
    simp only [step, Option.ite_none_right_eq_some] at h
    obtain ⟨hi, h⟩ := h
    obtain rfl := Option.some.inj h
    exact Or.inr (Or.inl ⟨by simp [hi], rfl, rfl, Or.inr rfl, by simp, Or.inr rfl,
      fun _ => Or.inr (Or.inr hi)⟩)
  | rmmod =>
    simp only [step, Option.ite_none_right_eq_some] at h
    obtain ⟨⟨hi, hc⟩, h⟩ := h
    obtain rfl := Option.some.inj h
    exact Or.inr (Or.inr ⟨rfl, rfl, rfl, rfl, by simp, fun _ => hi, by simp [State.gone, hc],
      by simp [State.gone]⟩)
  | kthreadStop =>
    simp only [step] at h
    split at h
    · rename_i hc _
      obtain rfl := Option.some.inj h
      exact Or.inr (Or.inr ⟨rfl, rfl, rfl, rfl, by simp [hc], by simp [hc], id, Or.inl⟩)
    · cases h
  | cleanupReturn =>
    simp only [step, Option.ite_none_right_eq_some] at h
    obtain ⟨⟨hc, -⟩, h⟩ := h
    obtain rfl := Option.some.inj h
    exact Or.inr (Or.inr ⟨rfl, rfl, rfl, rfl, by simp, by simp [hc], fun _ => Or.inl rfl,
      fun _ => Or.inr rfl⟩)
  | unload =>
    simp only [step, Option.ite_none_right_eq_some] at h
    obtain ⟨hc, h⟩ := h
    obtain rfl := Option.some.inj h
    exact Or.inr (Or.inr ⟨rfl, rfl, rfl, rfl, by simp, by simp [hc], fun _ => Or.inr rfl,
      fun _ => Or.inl (Or.inl hc)⟩)

theorem State.gone_congr (h : t.cleanup = s.cleanup) : t.gone ↔ s.gone := by
  rw [State.gone, State.gone, h]

theorem returned_of_cleanup (h : step n s a = some t)
    (hs : s.cleanup ≠ .notCalled → s.init = .returned) :
    t.cleanup ≠ .notCalled → t.init = .returned := by
  intro ht
  obtain ⟨-, hstep⟩ | hstep | hstep := step_cases h
  · have hret := hs (hstep.cleanup ▸ ht)
    have hinit := hstep.init
    -- the wake-up does not reach an `init_module` that has returned
    rw [hret] at hinit
    exact hinit.elim id id
  · exact absurd (hs (hstep.cleanup ▸ ht)) hstep.running
  · rw [hstep.init]
    by_cases hc : s.cleanup = .notCalled
    · exact hstep.behind_init hc
    · exact hs hc

theorem not_notCalled_of_gone (h : s.gone) : s.cleanup ≠ .notCalled := by
  rcases h with h | h <;> simp [h]

/-- After `cleanup_module` only a step of the handler changes the work item. -/
theorem gone_step (h : step n s a = some t) (hs : s.cleanup ≠ .notCalled → s.init = .returned)
    (hgone : s.gone) (ha : a ≠ .handler) : t.gone ∧ t.work = s.work := by
  have hret := hs (not_notCalled_of_gone hgone)
  obtain ⟨hhandler, -⟩ | hstep | hstep := step_cases h
  · exact absurd hhandler ha
  · exact absurd hret hstep.running
  · exact ⟨hstep.gone hgone, hstep.work⟩

/-- The work item is over when `cleanup_module` has returned, and a step keeps it so if
it lets `cleanup_module` return only then. -/
theorem finished_of_gone (h : step n s a = some t) (ha : WorkFinishedFirst s a)
    (hs : s.cleanup ≠ .notCalled → s.init = .returned) (hfin : s.gone → s.work = .finished) :
    t.gone → t.work = .finished := by
  intro ht
  obtain ⟨-, hstep⟩ | hstep | hstep := step_cases h
  · exact absurd (hfin ((State.gone_congr hstep.cleanup).mp ht)) hstep.unfinished
  · have hgone : s.gone := (State.gone_congr hstep.cleanup).mp ht
    exact absurd (hs (not_notCalled_of_gone hgone)) hstep.running
  · rw [hstep.work]
    exact (hstep.returns ht).elim hfin ha

end Steps

section Runs

variable {n : ℕ} {s t : State} {run : List Action}

/-- If `cleanup_module` waits for the work item, no step of the handler comes after it. -/
theorem fenced_of_finished_first (h : Along (step n) WorkFinishedFirst start run) :
    Along (step n) Fenced start run := by
  let P : State → Prop := fun s =>
    (s.cleanup ≠ .notCalled → s.init = .returned) ∧ (s.gone → s.work = .finished)
  refine along_of_invariant (P := P) (fun s a t hs ha hst => ?_) (fun s a t hs hst => ?_) h ?_
  · exact ⟨returned_of_cleanup hst hs.1, finished_of_gone hst ha hs.1 hs.2⟩
  · rintro rfl hgone
    exact (handlerStep_cases hst).unfinished (hs.2 hgone)
  · exact ⟨fun h => absurd rfl h, fun h => absurd h (by decide)⟩

/-- A run without a step of the handler after `cleanup_module` leaves the work item where
`cleanup_module` left it. -/
theorem work_of_fenced (h : Along (step n) Fenced s run) (hrun : exec (step n) s run = some t)
    (hs : s.cleanup ≠ .notCalled → s.init = .returned) (hgone : s.gone) : t.work = s.work := by
  induction run generalizing s with
  | nil =>
    obtain rfl := Option.some.inj hrun
    rfl
  | cons a run ih =>
    obtain ⟨u, hsu, hut⟩ := exec_cons_inv hrun
    obtain ⟨hfence, hrest⟩ := (along_cons hsu run).mp h
    obtain ⟨hu, hw⟩ := gone_step hsu hs hgone (fun ha => hfence ha hgone)
    rw [ih hrest hut (returned_of_cleanup hsu hs) hu, hw]

/-- If the work item runs to its end and no step of the handler comes after
`cleanup_module`, then `cleanup_module` has waited for it. -/
theorem finished_first_of_fenced (h : Along (step n) Fenced s run)
    (hrun : exec (step n) s run = some t) (hs : s.cleanup ≠ .notCalled → s.init = .returned)
    (hdone : t.work = .finished) : Along (step n) WorkFinishedFirst s run := by
  induction run generalizing s with
  | nil => trivial
  | cons a run ih =>
    obtain ⟨u, hsu, hut⟩ := exec_cons_inv hrun
    obtain ⟨-, hrest⟩ := (along_cons hsu run).mp h
    have hu := returned_of_cleanup hsu hs
    refine (along_cons hsu run).mpr ⟨?_, ih hrest hut hu⟩
    rintro rfl
    simp only [step, Option.ite_none_right_eq_some] at hsu
    obtain ⟨-, hsu⟩ := hsu
    obtain rfl := Option.some.inj hsu
    -- no step of the handler is left, so the work item is where it will end
    rw [← hdone, work_of_fenced hrest hut hu (Or.inl rfl)]

/-- In every run in which `cleanup_module` returns only when the work item has run to its
end, no step of the handler comes after it; and a run in which the work item comes to
its end is safe in no other case. -/
theorem handler_fenced_iff (n : ℕ) (run : List Action) :
    (Along (step n) WorkFinishedFirst start run → Along (step n) Fenced start run) ∧
    ∀ t, exec (step n) start run = some t → t.work = .finished →
      (Along (step n) Fenced start run ↔ Along (step n) WorkFinishedFirst start run) := by
  refine ⟨fenced_of_finished_first, fun t hrun hdone => ⟨fun h => ?_, fenced_of_finished_first⟩⟩
  exact finished_first_of_fenced h hrun (fun h => absurd rfl h) hdone

end Runs

/-- What holds while no signal arrives: the wait ends only behind `stop = 1`. -/
structure Undisturbed (s : State) : Prop where
  called : s.cleanup ≠ .notCalled → s.init = .returned
  quiet : s.signalPending = false
  waited : s.init = .awake ∨ s.init = .returned → s.stop = 1
  stopped : s.stop = 1 → s.work.stopped
  unscheduled : s.init = .creating → s.work = .idle

theorem undisturbed_start : Undisturbed start :=
  ⟨fun h => absurd rfl h, rfl, by decide, fun h => absurd h (by decide), fun _ => rfl⟩

theorem undisturbed_step {n : ℕ} {s t : State} {a : Action} (ha : a ≠ .signal)
    (hs : Undisturbed s) (h : step n s a = some t) : Undisturbed t := by
  have hcalled := returned_of_cleanup h hs.called
  obtain ⟨-, hstep⟩ | hstep | hstep := step_cases h
  · -- the handler moves `init_module` only from `asleep` back to the test
    have hpc : t.init = s.init ∨ t.init = .testing := by
      rcases hstep.init with hinit | hinit
      · exact Or.inl hinit
      · rw [hinit]
        exact wake_cases s.init
    refine ⟨hcalled, hstep.signal.trans hs.quiet, fun ht => ?_, fun ht => ?_, fun ht => ?_⟩
    · rcases hpc with hpc | hpc
      · have hone := hs.waited (hpc ▸ ht)
        rcases hstep.stop with ⟨hstop, -⟩ | ⟨hstop, -⟩
        · exact hstop.trans hone
        · exact hstop
      · rw [hpc] at ht
        rcases ht with ht | ht <;> cases ht
    · rcases hstep.stop with ⟨hstop, hkeep⟩ | ⟨-, hwork⟩
      · exact hkeep (hs.stopped (hstop ▸ ht))
      · exact hwork
    · rcases hpc with hpc | hpc
      · exact absurd (hs.unscheduled (hpc ▸ ht)) hstep.scheduled
      · rw [hpc] at ht
        cases ht
  · have hquiet := hstep.signal.resolve_left ha
    refine ⟨hcalled, hquiet.trans hs.quiet, fun ht => ?_, fun ht => ?_, fun ht => ?_⟩
    · rw [hstep.stop]
      rcases hstep.awake ht with hone | hpending | hinit
      · exact hone
      · rw [hs.quiet] at hpending
        cases hpending
      · exact hs.waited (Or.inl hinit)
    · have hone := hs.stopped (hstep.stop ▸ ht)
      rcases hstep.work with hinit | hwork
      · -- the work item was not even scheduled, so it cannot have set `stop`
        rw [hs.unscheduled hinit] at hone
        rcases hone with hone | hone | hone <;> cases hone
      · rwa [hwork]
    · obtain ⟨hinit, hw⟩ := hstep.creating ht
      exact hw.trans (hs.unscheduled hinit)
  · refine ⟨hcalled, hstep.signal.trans hs.quiet, ?_, ?_, ?_⟩
    · rw [hstep.init, hstep.stop]
      exact hs.waited
    · rw [hstep.stop, hstep.work]
      exact hs.stopped
    · rw [hstep.init, hstep.work]
      exact hs.unscheduled

/-- Without a signal, all that can be left of the handler when the module is cleaned up is
its wake-up call and its return. -/
theorem handler_stopped_of_no_signal {n : ℕ} {run : List Action} {t : State}
    (hsignal : .signal ∉ run) (hrun : exec (step n) start run = some t)
    (hc : t.cleanup ≠ .notCalled) : t.work.stopped := by
  have ht : Undisturbed t := exec_invariant
    (fun a ha s t hs hst => undisturbed_step (fun h => hsignal (h ▸ ha)) hs hst) hrun
    undisturbed_start
  exact ht.stopped (ht.waited (Or.inr (ht.called hc)))

/-- 80 threads are made, and the wait for the work item begins. -/
def insmod : List Action :=
  List.replicate 80 (.kthreadCreate true) ++ [.scheduleWork, .waitEvent]

def rmmod : List Action := .rmmod :: List.replicate 80 .kthreadStop ++ [.cleanupReturn, .unload]

/-- The work item fires, `init_module` returns, and the module is unloaded later. -/
def usualRun : List Action :=
  insmod ++ List.replicate 5 .handler ++ [.waitEvent, .initReturn] ++ rmmod

/-- A signal ends the wait while the handler sleeps, and the module is unloaded. -/
def interruptedRun : List Action :=
  insmod ++ [.handler, .signal, .waitEvent, .initReturn] ++ rmmod

theorem handler_fenced_iff_usual : Along (step 80) Fenced start usualRun :=
  (handler_fenced_iff 80 usualRun).1 (by decide +kernel)

theorem handler_stopped_of_no_signal_usual :
    ∃ t, exec (step 80) start usualRun = some t ∧ t.cleanup = .unloaded ∧ t.work.stopped := by
  let unloaded : State := ⟨.returned, 80, [], false, 1, .finished, .unloaded⟩
  have hrun : exec (step 80) start usualRun = some unloaded := by decide +kernel
  have hsignal : .signal ∉ usualRun := by decide +kernel
  exact ⟨unloaded, hrun, rfl, handler_stopped_of_no_signal hsignal hrun (by decide)⟩

/-- After an interrupted wait the handler still sleeps when the module is unloaded, and
its timer then runs into the freed text. -/
theorem handler_runs_after_unload : ¬ ∀ (n : ℕ) (run : List Action) (t : State),
    exec (step n) start run = some t → Along (step n) Fenced start run := by
  intro h
  let unloaded : State := ⟨.returned, 80, [], true, 0, .sleeping, .unloaded⟩
  have hrun : exec (step 80) start interruptedRun = some unloaded := by decide +kernel
  have hend : exec (step 80) start (interruptedRun ++ [.handler]) =
      some { unloaded with work := .stopping } := by decide +kernel
  exact along_step (h 80 _ _ hend) hrun rfl rfl (Or.inr rfl)

end YuToolbox.WaitQueue
