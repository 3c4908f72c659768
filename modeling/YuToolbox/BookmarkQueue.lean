import Mathlib.Data.List.Nodup
import Mathlib.Logic.Function.Basic
import YuToolbox.TransitionRuns

/-! The threads of `waitqueue.c` on `bookmark_wait_queue`, in every interleaving with the module
that starts, wakes and stops them. An entry of the queue lies on the stack of its thread. -/
namespace YuToolbox.BookmarkQueue

open TransitionRuns

/-- Where a thread is: not made, made but never woken, about to look whether it is stopped already,
and then the places in `wait_queue_test_thread`. -/
inductive Pc where
  | absent
  | created
  | starting
  | adding
  | looping
  | asleep
  | woken
  | removing
  | exited
  deriving DecidableEq

structure Thread where
  pc : Pc
  shouldStop : Bool
  deriving DecidableEq

/-- Where the module is: in the loop of `start_waitqueue_test`, there before `wake_up_process`,
behind it, in the loop of `stop_test_threads` with the nodes that are left, in `kthread_stop`, or
behind that loop. -/
inductive MainPc where
  | creating (i : ℕ)
  | waking (i : ℕ)
  | loaded
  | stopping (left : List ℕ)
  | waiting (k : ℕ) (left : List ℕ)
  | done
  deriving DecidableEq

structure State where
  thread : ℕ → Thread
  queue : List ℕ
  waitThreads : List ℕ
  main : MainPc

def start : State := ⟨fun _ => ⟨.absent, false⟩, [], [], .creating 0⟩

inductive Action where
  | kthreadCreate (ok : Bool)
  | wakeUpProcess
  | startReturn
  | wakeQueue
  | stopTestThreads
  | kthreadStop
  | kthreadStopped
  | stopReturn
  | thread (k : ℕ)
  | timeout (k : ℕ)

/-- `wake_up_process`: a thread that is about to sleep is not woken. -/
def Thread.wake (t : Thread) : Thread :=
  match t.pc with
  | .created => { t with pc := .starting }
  | .asleep => { t with pc := .woken }
  | _ => t

def State.setThread (s : State) (k : ℕ) (t : Thread) : State :=
  { s with thread := Function.update s.thread k t }

/-- The next step of thread `k`, unless it sleeps. -/
def threadStep (s : State) (k : ℕ) : Option State :=
  let t := s.thread k
  match t.pc with
  -- a thread that is stopped before it runs never calls its function
  | .starting => some (s.setThread k { t with pc := if t.shouldStop then .exited else .adding })
  | .adding => some { s.setThread k { t with pc := .looping } with queue := k :: s.queue }
  -- nothing is looked at between the last test and the sleep
  | .looping => some (s.setThread k { t with pc := .asleep })
  | .woken => some (s.setThread k { t with pc := if t.shouldStop then .removing else .looping })
  | .removing => some { s.setThread k { t with pc := .exited } with queue := s.queue.erase k }
  | _ => none

def step (numThreads : ℕ) (s : State) : Action → Option State
  | .kthreadCreate ok =>
    match s.main with
    | .creating i =>
      if i < numThreads then
        if ok then
          some { s.setThread i ⟨.created, false⟩ with
            waitThreads := i :: s.waitThreads
            main := .waking i }
        else some { s with main := .creating (i+1) }
      else none
    | _ => none
  | .wakeUpProcess =>
    match s.main with
    | .waking i => some { s.setThread i (s.thread i).wake with main := .creating (i+1) }
    | _ => none
  | .startReturn =>
    match s.main with
    | .creating i => if numThreads ≤ i then some { s with main := .loaded } else none
    | _ => none
  | .wakeQueue =>
    match s.main with
    | .loaded =>
      some { s with thread := fun k => if k ∈ s.queue then (s.thread k).wake else s.thread k }
    | _ => none
  | .stopTestThreads =>
    match s.main with
    | .loaded => some { s with main := .stopping s.waitThreads }
    | _ => none
  | .kthreadStop =>
    match s.main with
    | .stopping (k :: left) =>
      some { s.setThread k (Thread.wake ⟨(s.thread k).pc, true⟩) with main := .waiting k left }
    | _ => none
  -- `wake_up_process` behind `kthread_stop` is left out: the thread that it names has ended
  | .kthreadStopped =>
    match s.main with
    | .waiting k left =>
      if (s.thread k).pc = .exited then some { s with main := .stopping left } else none
    | _ => none
  | .stopReturn =>
    match s.main with
    | .stopping [] => some { s with main := .done }
    | _ => none
  | .thread k => threadStep s k
  | .timeout k =>
    if (s.thread k).pc = .asleep then some (s.setThread k (s.thread k).wake) else none

/-- Between `add_wait_queue` and `remove_wait_queue`. -/
def Pc.queued : Pc → Bool
  | .looping | .asleep | .woken | .removing => true
  | _ => false

/-- No step of the thread is to come. -/
def Pc.over (pc : Pc) : Prop := pc = .absent ∨ pc = .exited

/-- The first number that no thread has had yet. -/
def MainPc.next : MainPc → Option ℕ
  | .creating i => some i
  | .waking i => some (i+1)
  | _ => none

/-- The threads that `stop_test_threads` has not seen the end of. -/
def MainPc.left : MainPc → List ℕ
  | .stopping left => left
  | .waiting k left => k :: left
  | _ => []

def MainPc.cleaning : MainPc → Bool
  | .stopping _ | .waiting _ _ | .done => true
  | _ => false

structure Sound (s : State) : Prop where
  queued : ∀ k, k ∈ s.queue ↔ (s.thread k).pc.queued = true
  nodup : s.queue.Nodup
  made : ∀ k, k ∈ s.waitThreads ↔ (s.thread k).pc ≠ .absent
  later : ∀ i, s.main.next = some i → ∀ k, i ≤ k → (s.thread k).pc = .absent
  listed : ∀ k ∈ s.main.left, k ∈ s.waitThreads
  allOver : s.main.cleaning = true → ∀ k, k ∉ s.main.left → (s.thread k).pc.over
  asked : ∀ k left, s.main = .waiting k left →
    (s.thread k).shouldStop = true ∧ (s.thread k).pc ≠ .created

section Steps

variable {n : ℕ} {s t : State} {k : ℕ}

theorem sound_start : Sound start where
  queued _ := by simp [start, Pc.queued]
  nodup := List.nodup_nil
  made _ := by simp [start]
  later _ _ _ _ := rfl
  listed := nofun
  allOver := nofun
  asked := nofun

/-- A thread that has been made moves on: it does not go back to its making, one that has exited
stays so, and one that has been told to stop stays told. -/
structure Thread.Moves (t u : Thread) : Prop where
  made : t.pc ≠ .absent
  kept : u.pc ≠ .absent
  exited : t.pc = .exited → u.pc = .exited
  begun : t.pc ≠ .created → u.pc ≠ .created
  asked : t.shouldStop = true → u.shouldStop = true

theorem Thread.moves {t : Thread} {pc : Pc} (ht : t.pc ≠ .absent ∧ t.pc ≠ .exited)
    (hpc : pc ≠ .absent ∧ pc ≠ .created) : t.Moves ⟨pc, t.shouldStop⟩ where
  made := ht.1
  kept := hpc.1
  exited h := absurd h ht.2
  begun _ := hpc.2
  asked := id

theorem Sound.move (hs : Sound s) {u : Thread} {queue : List ℕ} (hu : (s.thread k).Moves u)
    (hqueue : ∀ j, j ∈ queue ↔ if j = k then u.pc.queued = true else j ∈ s.queue)
    (hnodup : queue.Nodup) : Sound { s.setThread k u with queue := queue } where
  queued j := by
    rw [hqueue]
    by_cases hj : j = k
    · subst hj
      simp [State.setThread]
    · simp only [if_neg hj, State.setThread, Function.update_of_ne hj]
      exact hs.queued j
  nodup := hnodup
  made j := by
    by_cases hj : j = k
    · subst hj
      simp only [State.setThread, Function.update_self]
      exact iff_of_true ((hs.made j).mpr hu.made) hu.kept
    · simp only [State.setThread, Function.update_of_ne hj]
      exact hs.made j
  later i hi j hj := by
    by_cases hjk : j = k
    · subst hjk
      exact absurd (hs.later i hi j hj) hu.made
    · simp only [State.setThread, Function.update_of_ne hjk]
      exact hs.later i hi j hj
  listed := hs.listed
  allOver hclean j hj := by
    by_cases hjk : j = k
    · subst hjk
      simp only [State.setThread, Function.update_self]
      exact Or.inr (hu.exited ((hs.allOver hclean j hj).resolve_left hu.made))
    · simp only [State.setThread, Function.update_of_ne hjk]
      exact hs.allOver hclean j hj
  asked j left hmain := by
    obtain ⟨hask, hpc⟩ := hs.asked j left hmain
    by_cases hj : j = k
    · subst hj
      simp only [State.setThread, Function.update_self]
      exact ⟨hu.asked hask, hu.begun hpc⟩
    · simp only [State.setThread, Function.update_of_ne hj]
      exact ⟨hask, hpc⟩

/-- A move that leaves the queue alone. -/
theorem Sound.stay (hs : Sound s) {u : Thread} (hu : (s.thread k).Moves u)
    (hqueued : u.pc.queued = (s.thread k).pc.queued) : Sound (s.setThread k u) := by
  apply hs.move hu ?_ hs.nodup
  intro j
  by_cases hj : j = k
  · subst hj
    rw [if_pos rfl, hqueued]
    exact hs.queued j
  · rw [if_neg hj]

/-- Each place in the function leads to the next; only two of the moves change the queue. -/
theorem sound_threadStep (hs : Sound s) (h : threadStep s k = some t) : Sound t := by
  simp only [threadStep] at h
  have hmem := hs.queued k
  split at h
  · rename_i hpc
    obtain rfl := Option.some.inj h
    apply hs.stay
    · apply Thread.moves
      · rw [hpc]
        decide
      · split <;> decide
    · rw [hpc]
      split <;> rfl
  · rename_i hpc
    obtain rfl := Option.some.inj h
    have hout : k ∉ s.queue := by simp [hmem, hpc, Pc.queued]
    apply hs.move
    · apply Thread.moves (by rw [hpc]; decide) (by decide)
    · intro j
      by_cases hj : j = k
      · simp [hj, Pc.queued]
      · simp [hj]
    · exact List.nodup_cons.mpr ⟨hout, hs.nodup⟩
  · rename_i hpc
    obtain rfl := Option.some.inj h
    apply hs.stay (Thread.moves (by rw [hpc]; decide) (by decide))
    rw [hpc]
    rfl
  · rename_i hpc
    obtain rfl := Option.some.inj h
    apply hs.stay
    · apply Thread.moves
      · rw [hpc]
        decide
      · split <;> decide
    · rw [hpc]
      split <;> rfl
  · rename_i hpc
    obtain rfl := Option.some.inj h
    apply hs.move
    · apply Thread.moves (by rw [hpc]; decide) (by decide)
    · intro j
      rw [hs.nodup.mem_erase_iff]
      by_cases hj : j = k
      · simp [hj, Pc.queued]
      · simp [hj]
    · exact hs.nodup.erase k
  · cases h

theorem Sound.withMain (hs : Sound s) (main : MainPc)
    (hlater : ∀ i, main.next = some i → ∀ k, i ≤ k → (s.thread k).pc = .absent)
    (hlisted : ∀ k ∈ main.left, k ∈ s.waitThreads)
    (hover : main.cleaning = true → ∀ k, k ∉ main.left → (s.thread k).pc.over)
    (hasked : ∀ k left, main = .waiting k left →
      (s.thread k).shouldStop = true ∧ (s.thread k).pc ≠ .created) :
    Sound { s with main := main } :=
  ⟨hs.queued, hs.nodup, hs.made, hlater, hlisted, hover, hasked⟩

theorem wake_eq (u : Thread) : u.wake = u ∨ (u.pc = .created ∧ u.wake = ⟨.starting, u.shouldStop⟩) ∨
    (u.pc = .asleep ∧ u.wake = ⟨.woken, u.shouldStop⟩) := by
  obtain ⟨pc, shouldStop⟩ := u
  cases pc <;> simp [Thread.wake]

theorem Sound.wake (hs : Sound s) (k : ℕ) : Sound (s.setThread k (s.thread k).wake) := by
  rcases wake_eq (s.thread k) with hsame | ⟨hpc, hwake⟩ | ⟨hpc, hwake⟩
  · rw [hsame, State.setThread, Function.update_eq_self]
    exact hs
  · rw [hwake]
    apply hs.stay (Thread.moves (by rw [hpc]; decide) (by decide))
    rw [hpc]
    rfl
  · rw [hwake]
    apply hs.stay (Thread.moves (by rw [hpc]; decide) (by decide))
    rw [hpc]
    rfl

theorem sound_kthreadCreate {ok : Bool} (hs : Sound s) (h : step n s (.kthreadCreate ok) = some t) :
    Sound t := by
  simp only [step] at h
  split at h
  · rename_i i hmain
    have hlater := hs.later i (by rw [hmain]; rfl)
    split at h
    · split at h
      · obtain rfl := Option.some.inj h
        have habsent := hlater i (Nat.le_refl i)
        have hout : i ∉ s.queue := by simp [hs.queued, habsent, Pc.queued]
        have hlisted : ∀ m ∈ (MainPc.waking i).left, m ∈ i :: s.waitThreads :=
          List.forall_mem_nil _
        refine ⟨fun j => ?_, hs.nodup, fun j => ?_, fun j hj m hm => ?_, hlisted,
          fun h => absurd h Bool.false_ne_true, fun j left h => ?_⟩
        · by_cases hj : j = i
          · subst hj
            simp [State.setThread, Pc.queued, hout]
          · simp only [State.setThread, Function.update_of_ne hj]
            exact hs.queued j
        · by_cases hj : j = i
          · simp [hj, State.setThread]
          · simp only [State.setThread, Function.update_of_ne hj, List.mem_cons, hj, false_or]
            exact hs.made j
        · -- the numbers behind this one are still free
          have hji : i+1 = j := Option.some.inj hj
          have hne : m ≠ i := by omega
          simp only [State.setThread, Function.update_of_ne hne]
          exact hlater m (by omega)
        · cases h
      · obtain rfl := Option.some.inj h
        apply hs.withMain (.creating (i+1))
        · intro j hj m hm
          have hji : i+1 = j := Option.some.inj hj
          exact hlater m (by omega)
        · exact List.forall_mem_nil _
        · intro hclean
          exact absurd hclean Bool.false_ne_true
        · intro j left hmain
          cases hmain
    · cases h
  · cases h

theorem sound_wakeUpProcess (hs : Sound s) (h : step n s .wakeUpProcess = some t) : Sound t := by
  simp only [step] at h
  split at h
  · rename_i i hmain
    obtain rfl := Option.some.inj h
    apply (hs.wake i).withMain (.creating (i+1)) ?_ nofun nofun nofun
    intro j hj
    apply (hs.wake i).later j
    have hnext : s.main.next = some (i+1) := by rw [hmain]; rfl
    exact hnext.trans hj
  · cases h

theorem sound_startReturn (hs : Sound s) (h : step n s .startReturn = some t) : Sound t := by
  simp only [step] at h
  split at h
  · split at h
    · obtain rfl := Option.some.inj h
      exact hs.withMain .loaded nofun nofun nofun nofun
    · cases h
  · cases h

theorem wake_queued (u : Thread) : u.wake.pc.queued = u.pc.queued := by
  rcases wake_eq u with h | ⟨hpc, h⟩ | ⟨hpc, h⟩
  · rw [h]
  · rw [h, hpc]
    rfl
  · rw [h, hpc]
    rfl

theorem wake_absent (u : Thread) : u.wake.pc = .absent ↔ u.pc = .absent := by
  rcases wake_eq u with h | ⟨hpc, h⟩ | ⟨hpc, h⟩
  · rw [h]
  · simp [h, hpc]
  · simp [h, hpc]

theorem sound_wakeQueue (hs : Sound s) (h : step n s .wakeQueue = some t) : Sound t := by
  simp only [step] at h
  split at h
  · rename_i hmain
    obtain rfl := Option.some.inj h
    refine ⟨fun j => ?_, hs.nodup, fun j => ?_, ?_, ?_, ?_, ?_⟩
    · rw [hs.queued]
      simp only
      split
      · rw [wake_queued]
      · rfl
    · rw [hs.made]
      simp only
      split
      · rw [ne_eq, ne_eq, wake_absent]
      · rfl
    · simp [hmain, MainPc.next]
    · simp [hmain, MainPc.left]
    · simp [hmain, MainPc.cleaning]
    · simp [hmain]
  · cases h

theorem sound_stopTestThreads (hs : Sound s) (h : step n s .stopTestThreads = some t) :
    Sound t := by
  simp only [step] at h
  split at h
  · obtain rfl := Option.some.inj h
    apply hs.withMain (.stopping s.waitThreads) nofun (fun k hk => hk) ?_ nofun
    intro _ k hk
    have hnot : k ∉ s.waitThreads := hk
    rw [hs.made, not_not] at hnot
    exact Or.inl hnot
  · cases h

theorem sound_kthreadStop (hs : Sound s) (h : step n s .kthreadStop = some t) : Sound t := by
  simp only [step] at h
  split at h
  · rename_i k left hmain
    obtain rfl := Option.some.inj h
    have hlist : ∀ j ∈ k :: left, j ∈ s.waitThreads := by
      have hlisted := hs.listed
      rwa [hmain] at hlisted
    have hmade := (hs.made k).mp (hlist k List.mem_cons_self)
    have hover : ∀ j, j ∉ k :: left → (s.thread j).pc.over := by
      have hover := hs.allOver
      rw [hmain] at hover
      exact hover rfl
    -- the flag first, and then the wake-up
    have hflag : Sound (s.setThread k ⟨(s.thread k).pc, true⟩) :=
      hs.stay ⟨hmade, hmade, id, id, fun _ => rfl⟩ rfl
    have hwake := hflag.wake k
    have hself : (s.setThread k ⟨(s.thread k).pc, true⟩).thread k = ⟨(s.thread k).pc, true⟩ :=
      Function.update_self _ _ _
    rw [hself, State.setThread, State.setThread, Function.update_idem] at hwake
    apply hwake.withMain (.waiting k left) nofun hlist ?_ ?_
    · intro hclean j hj
      have hne : j ≠ k := fun h => hj (h ▸ List.mem_cons_self)
      simp only [Function.update_of_ne hne]
      exact hover j hj
    · intro j left' hwait
      obtain ⟨rfl, -⟩ := MainPc.waiting.inj hwait
      simp only [Function.update_self]
      cases (s.thread k).pc <;> simp [Thread.wake]
  · cases h

theorem sound_kthreadStopped (hs : Sound s) (h : step n s .kthreadStopped = some t) :
    Sound t := by
  simp only [step] at h
  split at h
  · rename_i k left hmain
    split at h
    · rename_i hpc
      obtain rfl := Option.some.inj h
      have hlisted := hs.listed
      have hover := hs.allOver
      rw [hmain] at hlisted hover
      have hrest : ∀ j ∈ left, j ∈ s.waitThreads :=
        fun j hj => hlisted j (List.mem_cons_of_mem k hj)
      apply hs.withMain (.stopping left) nofun hrest ?_ nofun
      intro _ j hj
      by_cases hjk : j = k
      · rw [hjk]
        exact Or.inr hpc
      · exact hover rfl j (List.not_mem_cons_of_ne_of_not_mem hjk hj)
    · cases h
  · cases h

theorem sound_stopReturn (hs : Sound s) (h : step n s .stopReturn = some t) : Sound t := by
  simp only [step] at h
  split at h
  · rename_i hmain
    obtain rfl := Option.some.inj h
    have hover := hs.allOver
    rw [hmain] at hover
    exact hs.withMain .done nofun nofun hover nofun
  · cases h

theorem sound_step {a : Action} (hs : Sound s) (h : step n s a = some t) : Sound t := by
  cases a with
  | kthreadCreate ok => exact sound_kthreadCreate hs h
  | wakeUpProcess => exact sound_wakeUpProcess hs h
  | startReturn => exact sound_startReturn hs h
  | wakeQueue => exact sound_wakeQueue hs h
  | stopTestThreads => exact sound_stopTestThreads hs h
  | kthreadStop => exact sound_kthreadStop hs h
  | kthreadStopped => exact sound_kthreadStopped hs h
  | stopReturn => exact sound_stopReturn hs h
  | thread k => exact sound_threadStep hs h
  | timeout k =>
    simp only [step] at h
    split at h
    · obtain rfl := Option.some.inj h
      exact hs.wake k
    · cases h

end Steps

theorem sound_exec {n : ℕ} {run : List Action} {s : State} (h : exec (step n) start run = some s) :
    Sound s :=
  exec_invariant (fun _ _ _ _ hs hst => sound_step hs hst) h sound_start

/-- At every moment the queue has exactly the threads between `add_wait_queue` and
`remove_wait_queue`, each once. When `stop_test_threads` has returned it is empty, and no thread
takes another step. -/
theorem queue_law (n : ℕ) (run : List Action) (s : State) (h : exec (step n) start run = some s) :
    (∀ k, k ∈ s.queue ↔ (s.thread k).pc.queued = true) ∧ s.queue.Nodup ∧
      (s.main = .done → s.queue = [] ∧
        ∀ k, step n s (.thread k) = none ∧ step n s (.timeout k) = none) := by
  have hs := sound_exec h
  refine ⟨hs.queued, hs.nodup, fun hdone => ?_⟩
  have hover (k : ℕ) : (s.thread k).pc.over := by
    have hover := hs.allOver
    rw [hdone] at hover
    exact hover rfl k List.not_mem_nil
  refine ⟨List.eq_nil_iff_forall_not_mem.mpr fun k hk => ?_, fun k => ?_⟩
  · have hqueued := (hs.queued k).mp hk
    rcases hover k with hpc | hpc <;> simp [hpc, Pc.queued] at hqueued
  · rcases hover k with hpc | hpc <;> simp [step, threadStep, hpc]

/-- One thread is made, goes to sleep, and is stopped while it sleeps. -/
def sleepingRun : List Action :=
  [.kthreadCreate true, .wakeUpProcess, .startReturn, .thread 0, .thread 0, .thread 0,
    .stopTestThreads, .kthreadStop]

def stoppedRun : List Action :=
  sleepingRun ++ [.thread 0, .thread 0, .kthreadStopped, .stopReturn]

theorem queue_law_stopped : ∃ s, exec (step 1) start stoppedRun = some s ∧ s.queue = [] ∧
    ∀ k, step 1 s (.thread k) = none ∧ step 1 s (.timeout k) = none :=
  ⟨_, rfl, (queue_law 1 stoppedRun _ rfl).2.2 rfl⟩

section Returns

variable {n : ℕ}

/-- The steps that a thread has at most left once it has been told to stop; the sleep among them
ends with its time at the latest. -/
def Pc.rank : Pc → ℕ
  | .absent | .created | .exited => 0
  | .starting | .removing => 1
  | .woken => 2
  | .asleep => 3
  | .looping => 4
  | .adding => 5

/-- The thread has been woken and told to stop. -/
structure Told (t : Thread) : Prop where
  asked : t.shouldStop = true
  awake : t.pc ≠ .absent ∧ t.pc ≠ .created

/-- What a step of a thread that has been told to stop is: its place and that it still is told. -/
theorem told_step_to {s t : State} {k : ℕ} {a : Action} {pc : Pc} (hstep : step n s a = some t)
    (ha : a = .thread k ∨ a = .timeout k) (hmain : t.main = s.main)
    (ht : t.thread k = ⟨pc, true⟩) (hpc : pc ≠ .absent ∧ pc ≠ .created)
    (hrank : pc.rank < (s.thread k).pc.rank) :
    ∃ a t, (a = .thread k ∨ a = .timeout k) ∧ step n s a = some t ∧ t.main = s.main ∧
      Told (t.thread k) ∧ (t.thread k).pc.rank < (s.thread k).pc.rank := by
  refine ⟨a, t, ha, hstep, hmain, ?_, ?_⟩
  · rw [ht]
    exact ⟨rfl, hpc⟩
  · rw [ht]
    exact hrank

theorem told_step {s : State} {k : ℕ} (hk : Told (s.thread k)) (hpc : (s.thread k).pc ≠ .exited) :
    ∃ a t, (a = .thread k ∨ a = .timeout k) ∧ step n s a = some t ∧ t.main = s.main ∧
      Told (t.thread k) ∧ (t.thread k).pc.rank < (s.thread k).pc.rank := by
  obtain ⟨hasked, habsent, hcreated⟩ := hk
  have hself (u : Thread) : (s.setThread k u).thread k = u := Function.update_self _ _ _
  cases hplace : (s.thread k).pc with
  | absent => exact absurd hplace habsent
  | created => exact absurd hplace hcreated
  | exited => exact absurd hplace hpc
  | starting =>
    have hstep : step n s (.thread k) = some (s.setThread k ⟨.exited, true⟩) := by
      simp only [step, threadStep, hplace, hasked, if_true]
    have hrank : Pc.exited.rank < (s.thread k).pc.rank := by rw [hplace]; decide
    exact hplace ▸ told_step_to hstep (Or.inl rfl) rfl (hself _) (by decide) hrank
  | adding =>
    have hstep : step n s (.thread k) =
        some { s.setThread k ⟨.looping, true⟩ with queue := k :: s.queue } := by
      simp only [step, threadStep, hplace, hasked]
    have hrank : Pc.looping.rank < (s.thread k).pc.rank := by rw [hplace]; decide
    exact hplace ▸ told_step_to hstep (Or.inl rfl) rfl (hself _) (by decide) hrank
  | looping =>
    have hstep : step n s (.thread k) = some (s.setThread k ⟨.asleep, true⟩) := by
      simp only [step, threadStep, hplace, hasked]
    have hrank : Pc.asleep.rank < (s.thread k).pc.rank := by rw [hplace]; decide
    exact hplace ▸ told_step_to hstep (Or.inl rfl) rfl (hself _) (by decide) hrank
  | asleep =>
    have hstep : step n s (.timeout k) = some (s.setThread k ⟨.woken, true⟩) := by
      simp only [step, Thread.wake, hplace, hasked, if_true]
    have hrank : Pc.woken.rank < (s.thread k).pc.rank := by rw [hplace]; decide
    exact hplace ▸ told_step_to hstep (Or.inr rfl) rfl (hself _) (by decide) hrank
  | woken =>
    have hstep : step n s (.thread k) = some (s.setThread k ⟨.removing, true⟩) := by
      simp only [step, threadStep, hplace, hasked, if_true]
    have hrank : Pc.removing.rank < (s.thread k).pc.rank := by rw [hplace]; decide
    exact hplace ▸ told_step_to hstep (Or.inl rfl) rfl (hself _) (by decide) hrank
  | removing =>
    have hstep : step n s (.thread k) =
        some { s.setThread k ⟨.exited, true⟩ with queue := s.queue.erase k } := by
      simp only [step, threadStep, hplace, hasked]
    have hrank : Pc.exited.rank < (s.thread k).pc.rank := by rw [hplace]; decide
    exact hplace ▸ told_step_to hstep (Or.inl rfl) rfl (hself _) (by decide) hrank

theorem told_exits {s : State} {k : ℕ} (hk : Told (s.thread k)) :
    ∃ as t, (∀ a ∈ as, a = .thread k ∨ a = .timeout k) ∧ as.length ≤ (s.thread k).pc.rank ∧
      exec (step n) s as = some t ∧ t.main = s.main ∧ (t.thread k).pc = .exited := by
  generalize hr : (s.thread k).pc.rank = r
  induction r using Nat.strongRecOn generalizing s with
  | _ r ih =>
    by_cases hpc : (s.thread k).pc = .exited
    · exact ⟨[], s, nofun, Nat.zero_le _, rfl, rfl, hpc⟩
    · obtain ⟨a, u, ha, hstep, hmain, hu, hrank⟩ := told_step (n := n) hk hpc
      obtain ⟨as, t, has, hlen, hrun, hmain', hexit⟩ := ih _ (hr ▸ hrank) hu rfl
      refine ⟨a :: as, t, List.forall_mem_cons.mpr ⟨ha, has⟩, ?_, exec_cons hstep hrun,
        hmain'.trans hmain, hexit⟩
      rw [List.length_cons]
      omega

/-- Whenever `stop_test_threads` waits in `kthread_stop`, five steps of that one thread are enough
for the call to return: a wake-up that comes too early is made up for by the end of the sleep. -/
theorem kthreadStop_returns (n : ℕ) (run : List Action) (s : State)
    (h : exec (step n) start run = some s) (k : ℕ) (left : List ℕ)
    (hmain : s.main = .waiting k left) :
    ∃ as t, (∀ a ∈ as, a = .thread k ∨ a = .timeout k) ∧ as.length ≤ 5 ∧
      exec (step n) s (as ++ [.kthreadStopped]) = some t ∧ t.main = .stopping left := by
  have hs := sound_exec h
  obtain ⟨hasked, hcreated⟩ := hs.asked k left hmain
  have hmade : (s.thread k).pc ≠ .absent := by
    apply (hs.made k).mp
    apply hs.listed
    rw [hmain]
    exact List.mem_cons_self
  obtain ⟨as, t, has, hlen, hrun, hmain', hexit⟩ :=
    told_exits (n := n) ⟨hasked, hmade, hcreated⟩
  have hstep : step n t .kthreadStopped = some { t with main := .stopping left } := by
    simp only [step, hmain', hmain, if_pos hexit]
  have hrank : (s.thread k).pc.rank ≤ 5 := by
    cases (s.thread k).pc <;> decide
  exact ⟨as, _, has, by omega, exec_append hrun (exec_cons hstep rfl), rfl⟩

theorem kthreadStop_returns_sleeping : ∃ s, exec (step 1) start sleepingRun = some s ∧
    ∃ as t, (∀ a ∈ as, a = .thread 0 ∨ a = .timeout 0) ∧ as.length ≤ 5 ∧
      exec (step 1) s (as ++ [.kthreadStopped]) = some t ∧ t.main = .stopping [] :=
  ⟨_, rfl, kthreadStop_returns 1 sleepingRun _ rfl 0 [] rfl⟩

end Returns

end YuToolbox.BookmarkQueue
