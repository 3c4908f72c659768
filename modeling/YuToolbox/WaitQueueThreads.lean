import YuToolbox.KernelList
import YuToolbox.WaitQueue

/-! The threads of `waitqueue.c`: the list that `start_waitqueue_test` builds,
`stop_test_threads`, which takes it down, and the calls that both make. -/
namespace YuToolbox.WaitQueueThreads

open KernelList TransitionRuns

/-- The static head of `wait_threads_list`. -/
def waitThreadsList : Addr := 1

/-- Which calls of `kthread_create` succeed, and the addresses of the tasks and of the
nodes; `kmalloc` succeeds. -/
structure Answers where
  kthreadCreate : ℕ → Bool
  task : ℕ → Addr
  node : ℕ → Addr
  task_inj : Function.Injective task
  node_inj : Function.Injective node
  node_ne_head : ∀ i, node i ≠ waitThreadsList

inductive Call where
  | kthreadCreate (p : Addr)
  | warnOn
  | kmalloc (w : Addr)
  | wakeUpProcess (p : Addr)
  | kthreadStop (p : Addr)
  | kfree (w : Addr)
  deriving DecidableEq

/-- The task that a call is an operation on. -/
def Call.task : Call → Option Addr
  | .kthreadCreate p | .wakeUpProcess p | .kthreadStop p => some p
  | .warnOn | .kmalloc _ | .kfree _ => none

/-- A node's data is its `p`, if it has been set. -/
structure State where
  heap : Heap (Option Addr)
  finishTest : ℕ
  calls : List Call

def start : State where
  heap := fun a => if a = waitThreadsList then some ⟨waitThreadsList, waitThreadsList, none⟩
    else none
  finishTest := 0
  calls := []

/-- The loop of `start_waitqueue_test` with some rounds left. -/
def startLoop (a : Answers) : ℕ → ℕ → State → Option State
  | 0, _, s => some s
  | rounds+1, i, s =>
    if a.kthreadCreate i then do
      let p := a.task i
      let w := a.node i
      let heap ← initListHead (alloc s.heap w ⟨0, 0, none⟩) w
      let heap ← store heap w (fun c => { c with data := some p })
      let heap ← listAdd heap w waitThreadsList
      startLoop a rounds (i+1) { s with
        heap
        calls := s.calls ++ [.kthreadCreate p, .kmalloc w, .wakeUpProcess p] }
    else startLoop a rounds (i+1) { s with calls := s.calls ++ [.warnOn] }

def startWaitqueueTest (a : Answers) (numThreads : ℕ) : Option State :=
  startLoop a numThreads 0 start

/-- The body of the loop of `stop_test_threads`. -/
def stopBody (pos : Addr) (s : State) : Option State := do
  let p ← (s.heap pos).bind Cell.data
  -- the task is woken once more, behind the call that gave it up
  let calls := s.calls ++ [.kthreadStop p, .wakeUpProcess p]
  let heap ← free s.heap pos
  some { s with heap, calls := calls ++ [.kfree pos] }

def stopTestThreads (fuel : ℕ) (s : State) : Option State :=
  listForEachEntrySafe State.heap waitThreadsList stopBody fuel { s with finishTest := 1 }

inductive ThreadCall where
  | addWaitQueue
  | scheduleTimeoutInterruptible
  | removeWaitQueue
  deriving DecidableEq

/-- The loop of `wait_queue_test_thread`, with what `kthread_should_stop` says after each
sleep. -/
def threadLoop (shouldStop : ℕ → Bool) : ℕ → ℕ → List ThreadCall → Option (List ThreadCall)
  | 0, _, _ => none
  | fuel+1, i, calls =>
    let calls := calls ++ [.scheduleTimeoutInterruptible]
    if shouldStop i then some (calls ++ [.removeWaitQueue])
    else threadLoop shouldStop fuel (i+1) calls

def waitQueueTestThread (shouldStop : ℕ → Bool) (fuel : ℕ) : Option (List ThreadCall) :=
  threadLoop shouldStop fuel 0 [.addWaitQueue]

/-- No call is an operation on a task that `kthread_stop` has returned for. -/
def QuietAfterStop (calls : List Call) : Prop :=
  calls.Pairwise (fun c d => ∀ p, c = .kthreadStop p → d.task ≠ some p)

/-- Every thread made is stopped once and no other, every node is freed once, and a stopped
task is left alone. -/
def StopLaw (a : Answers) (numThreads : ℕ) : Prop :=
  ∃ s fuel t, startWaitqueueTest a numThreads = some s ∧ stopTestThreads fuel s = some t ∧
    (∀ p, t.calls.count (.kthreadStop p) = t.calls.count (.kthreadCreate p)) ∧
    (∀ w, t.calls.count (.kfree w) = t.calls.count (.kmalloc w)) ∧ QuietAfterStop t.calls

/-- The nodes of the threads made before round `i`, each with its task, as `list_add` orders
them. -/
def created (a : Answers) : ℕ → List (Addr × Addr)
  | 0 => []
  | i+1 => if a.kthreadCreate i then (a.node i, a.task i) :: created a i else created a i

def createCalls (w p : Addr) : List Call := [.kthreadCreate p, .kmalloc w, .wakeUpProcess p]

def startCalls (a : Answers) : ℕ → List Call
  | 0 => []
  | i+1 => startCalls a i ++
    if a.kthreadCreate i then createCalls (a.node i) (a.task i) else [.warnOn]

def stopCalls (es : List (Addr × Addr)) : List Call :=
  es.flatMap (fun e => [.kthreadStop e.2, .wakeUpProcess e.2, .kfree e.1])

/-- The list's entries as the heap has them. -/
def onHeap (es : List (Addr × Addr)) : List (Addr × Option Addr) :=
  es.map (fun e => (e.1, some e.2))

theorem map_fst_onHeap (es : List (Addr × Addr)) : (onHeap es).map Prod.fst = es.map Prod.fst := by
  rw [onHeap, List.map_map]
  rfl

section Start

variable {a : Answers} {i : ℕ} {s : State}

theorem node_not_mem_created (a : Answers) {i j : ℕ} (h : j ≤ i) :
    a.node i ∉ (created a j).map Prod.fst := by
  induction j with
  | zero => simp [created]
  | succ j ih =>
    have hrest := ih (by omega)
    rw [created]
    split
    · apply List.not_mem_cons_of_ne_of_not_mem _ hrest
      intro he
      have := a.node_inj he
      omega
    · exact hrest

/-- The state before round `i` of `start_waitqueue_test`. -/
structure Started (a : Answers) (i : ℕ) (s : State) : Prop where
  holds : Holds s.heap waitThreadsList (onHeap (created a i))
  calls : s.calls = startCalls a i

theorem started_start (a : Answers) : Started a 0 start :=
  ⟨holds_nil waitThreadsList none, rfl⟩

theorem started_step (hs : Started a i s) (rounds : ℕ) :
    ∃ t, startLoop a (rounds+1) i s = startLoop a rounds (i+1) t ∧ Started a (i+1) t := by
  cases hk : a.kthreadCreate i with
  | false =>
    refine ⟨{ s with calls := s.calls ++ [.warnOn] }, by rw [startLoop, hk]; rfl, ?_, ?_⟩
    · have hsame : created a (i+1) = created a i := by rw [created, hk]; rfl
      rw [hsame]
      exact hs.holds
    · rw [startCalls, hk, hs.calls]
      rfl
  | true =>
    have hout : a.node i ∉ waitThreadsList :: (onHeap (created a i)).map Prod.fst := by
      rw [map_fst_onHeap]
      exact List.not_mem_cons_of_ne_of_not_mem (a.node_ne_head i)
        (node_not_mem_created a (Nat.le_refl i))
    obtain ⟨h₁, h₂, h₃, hinit, hstore, hadd, hholds⟩ :=
      hs.holds.push hout ⟨0, 0, none⟩ (some (a.task i))
    refine ⟨{ s with heap := h₃, calls := s.calls ++ [.kthreadCreate (a.task i),
      .kmalloc (a.node i), .wakeUpProcess (a.task i)] }, ?_, ?_, ?_⟩
    · simp only [startLoop, hk, if_true, Option.bind_eq_bind, hinit, hstore, hadd,
        Option.bind_some]
    · have hmore : created a (i+1) = (a.node i, a.task i) :: created a i := by rw [created, hk]; rfl
      rw [hmore]
      exact hholds
    · rw [startCalls, hk, hs.calls]
      rfl

theorem started_run (a : Answers) (i rounds : ℕ) :
    ∃ t, startLoop a (i+rounds) 0 start = startLoop a rounds i t ∧ Started a i t := by
  induction i generalizing rounds with
  | zero => exact ⟨start, by rw [Nat.zero_add], started_start a⟩
  | succ i ih =>
    obtain ⟨t, ht, hstarted⟩ := ih (rounds+1)
    obtain ⟨u, hu, hstarted'⟩ := started_step hstarted rounds
    refine ⟨u, ?_, hstarted'⟩
    rw [← hu, ← ht, Nat.add_right_comm, Nat.add_assoc]

/-- `start_waitqueue_test` returns for every number of threads and every pattern of failures. -/
theorem startWaitqueueTest_run (a : Answers) (n : ℕ) :
    ∃ s, startWaitqueueTest a n = some s ∧ Started a n s := by
  obtain ⟨t, ht, hstarted⟩ := started_run a n 0
  exact ⟨t, by rw [startWaitqueueTest, ← Nat.add_zero n, ht, startLoop], hstarted⟩

end Start

section Stop

variable {a : Answers} {i : ℕ} {s : State}

/-- One round of `stop_test_threads`, on the entry in front. -/
theorem stopBody_step {w p : Addr} {es : List (Addr × Addr)}
    (hh : HoldsAhead s.heap waitThreadsList (onHeap ((w, p) :: es))) :
    ∃ t, stopBody w s = some t ∧ HoldsAhead t.heap waitThreadsList (onHeap es) ∧
      t.calls = s.calls ++ stopCalls [(w, p)] := by
  obtain ⟨h', hfree, hahead⟩ := hh.free
  have hp : (s.heap w).bind Cell.data = some p := hh.bind_data
  refine ⟨{ s with heap := h', calls := s.calls ++ [.kthreadStop p, .wakeUpProcess p] ++
    [.kfree w] }, ?_, hahead, ?_⟩
  · simp only [stopBody, hp, Option.bind_eq_bind, Option.bind_some]
    rw [hfree]
    rfl
  · rw [List.append_assoc]
    rfl

/-- `stop_test_threads` goes through the list once, and frees all of it. -/
theorem stopTestThreads_run {es : List (Addr × Addr)}
    (hh : Holds s.heap waitThreadsList (onHeap es)) :
    ∃ t, stopTestThreads (es.length+1) s = some t ∧ t.calls = s.calls ++ stopCalls es ∧
      ∀ w, w ≠ waitThreadsList → t.heap w = none := by
  let inv (ahead : List (Addr × Option Addr)) (t : State) : Prop :=
    ∃ es', ahead = onHeap es' ∧ t.calls ++ stopCalls es' = s.calls ++ stopCalls es
  have hrun := Holds.forEach_run State.heap stopBody inv (s := { s with finishTest := 1 }) hh
    ⟨es, rfl, rfl⟩
    (by
      rintro e ahead t ht ⟨es', hes', hcalls⟩
      cases es' with
      | nil => cases hes'
      | cons e' es' =>
        obtain ⟨rfl, rfl⟩ := List.cons.inj hes'
        obtain ⟨u, hu, hahead, hcalls'⟩ := stopBody_step ht
        refine ⟨u, hu, hahead, es', rfl, ?_⟩
        rw [hcalls', ← hcalls, List.append_assoc]
        rfl)
  obtain ⟨t, ht, hahead, es', hnil, hcalls⟩ := hrun
  obtain rfl : es' = [] := List.map_eq_nil_iff.mp hnil.symm
  rw [onHeap, List.length_map] at ht
  refine ⟨t, ht, by rw [← hcalls, stopCalls, List.flatMap_nil, List.append_nil], ?_⟩
  intro w hw
  exact hahead.only w (by simpa using hw)

end Stop

section Thread

variable {shouldStop : ℕ → Bool}

theorem threadLoop_sleeps {i k : ℕ} (h : ∀ j, i ≤ j → j < i+k → shouldStop j = false) (fuel : ℕ)
    (calls : List ThreadCall) : threadLoop shouldStop (k+fuel) i calls =
      threadLoop shouldStop fuel (i+k)
        (calls ++ List.replicate k .scheduleTimeoutInterruptible) := by
  induction k generalizing i calls with
  | zero => rw [Nat.zero_add, Nat.add_zero, List.replicate_zero, List.append_nil]
  | succ k ih =>
    have hrest : ∀ j, i+1 ≤ j → j < i+1+k → shouldStop j = false :=
      fun j hi hj => h j (by omega) (by omega)
    rw [Nat.add_right_comm, threadLoop, h i (Nat.le_refl i) (by omega)]
    simp only [Bool.false_eq_true, if_false]
    rw [ih hrest, List.append_assoc, List.replicate_succ, Nat.add_assoc, Nat.add_comm 1 k]
    rfl

/-- A thread sleeps until it is told to stop, and leaves the wait queue. -/
theorem waitQueueTestThread_stops {k : ℕ} (h : ∀ j < k, shouldStop j = false)
    (hk : shouldStop k = true) : waitQueueTestThread shouldStop (k+1) =
      some (.addWaitQueue :: List.replicate (k+1) .scheduleTimeoutInterruptible ++
        [.removeWaitQueue]) := by
  rw [waitQueueTestThread, threadLoop_sleeps (fun j _ hj => h j (by omega)), Nat.zero_add,
    threadLoop, if_pos hk, List.replicate_succ', List.singleton_append, List.cons_append]

/-- It does not end on its own before that. -/
theorem waitQueueTestThread_waits {k : ℕ} (h : ∀ j < k, shouldStop j = false) :
    waitQueueTestThread shouldStop k = none := by
  rw [waitQueueTestThread, ← Nat.add_zero k, threadLoop_sleeps (fun j _ hj => h j (by omega)),
    threadLoop]

end Thread

section Threads

variable {a : Answers} {n : ℕ} {s t : WaitQueue.State} {action : WaitQueue.Action}

/-- `kthread_create` is answered in this way. -/
def Answered (a : Answers) (s : WaitQueue.State) (action : WaitQueue.Action) : Prop :=
  ∀ ok, action = .kthreadCreate ok → ok = a.kthreadCreate s.i

/-- Before `cleanup_module` only `kthread_create` changes the list. -/
theorem waitThreads_step (h : WaitQueue.step n s action = some t) (ht : t.cleanup = .notCalled) :
    (∃ ok, action = .kthreadCreate ok ∧ t.i = s.i+1 ∧
      t.waitThreads = if ok then s.i :: s.waitThreads else s.waitThreads) ∨
    t.i = s.i ∧ t.waitThreads = s.waitThreads := by
  cases action with
  | kthreadCreate ok =>
    simp only [WaitQueue.step, Option.ite_none_right_eq_some] at h
    obtain ⟨-, h⟩ := h
    obtain rfl := Option.some.inj h
    exact .inl ⟨ok, rfl, rfl, rfl⟩
  | handler =>
    simp only [WaitQueue.step, WaitQueue.handlerStep] at h
    split at h
    case h_1 | h_7 => cases h
    all_goals
      obtain rfl := Option.some.inj h
      exact .inr ⟨rfl, rfl⟩
  | kthreadStop =>
    -- takes a thread off the list, but not before `cleanup_module`
    simp only [WaitQueue.step] at h
    split at h
    · rename_i hc _
      obtain rfl := Option.some.inj h
      cases hc.symm.trans ht
    · cases h
  | _ =>
    simp only [WaitQueue.step, Option.ite_none_right_eq_some] at h
    obtain ⟨-, h⟩ := h
    obtain rfl := Option.some.inj h
    exact .inr ⟨rfl, rfl⟩

/-- The system's state has the threads of the list, in its order, in every interleaving. -/
theorem created_waitThreads {run : List WaitQueue.Action}
    (hok : Along (WaitQueue.step n) (Answered a) WaitQueue.start run)
    (hrun : exec (WaitQueue.step n) WaitQueue.start run = some t) (ht : t.cleanup = .notCalled) :
    created a t.i = t.waitThreads.map (fun j => (a.node j, a.task j)) := by
  let P : WaitQueue.State → Prop := fun s => s.cleanup = .notCalled →
    created a s.i = s.waitThreads.map (fun j => (a.node j, a.task j))
  refine exec_along_invariant (P := P) (fun s action t hs hc hst ht => ?_) hok hrun
    (fun _ => rfl) ht
  have hsame := hs ?_
  · rcases waitThreads_step hst ht with ⟨ok, hok, hi, hthreads⟩ | ⟨hi, hthreads⟩
    · rw [hi, hthreads, hc ok hok, created, hsame]
      split <;> rfl
    · rw [hi, hthreads, hsame]
  · -- `cleanup_module` is not called twice
    rcases WaitQueue.step_cases hst with ⟨-, hstep⟩ | hstep | hstep
    · exact hstep.cleanup ▸ ht
    · exact hstep.cleanup ▸ ht
    · exact absurd ht hstep.called

end Threads

section Law

variable (a : Answers) (n : ℕ)

/-- Two calls that are made equally often for one thread are so over all rounds. -/
theorem count_balanced (c d : Call) (hthread : ∀ w p,
      (createCalls w p ++ stopCalls [(w, p)]).count c =
        (createCalls w p ++ stopCalls [(w, p)]).count d)
    (hwarn : [Call.warnOn].count c = [Call.warnOn].count d) :
    (startCalls a n ++ stopCalls (created a n)).count c =
      (startCalls a n ++ stopCalls (created a n)).count d := by
  induction n with
  | zero => rfl
  | succ n ih =>
    -- a round adds its calls at the end of the one log and in front of the other
    simp only [List.count_append] at ih hthread ⊢
    rw [startCalls, created]
    split
    · have hround := hthread (a.node n) (a.task n)
      have hstop : stopCalls ((a.node n, a.task n) :: created a n) =
          stopCalls [(a.node n, a.task n)] ++ stopCalls (created a n) := by simp [stopCalls]
      simp only [hstop, List.count_append]
      omega
    · simp only [List.count_append]
      omega

theorem count_kthreadStop (p : Addr) :
    (startCalls a n ++ stopCalls (created a n)).count (.kthreadStop p) =
      (startCalls a n ++ stopCalls (created a n)).count (.kthreadCreate p) := by
  refine count_balanced a n (.kthreadStop p) (.kthreadCreate p) (fun w q => ?_) rfl
  simp [createCalls, stopCalls, List.count_cons]

theorem count_kfree (w : Addr) :
    (startCalls a n ++ stopCalls (created a n)).count (.kfree w) =
      (startCalls a n ++ stopCalls (created a n)).count (.kmalloc w) := by
  refine count_balanced a n (.kfree w) (.kmalloc w) (fun v p => ?_) rfl
  simp [createCalls, stopCalls, List.count_cons]

/-- A thread on the list is woken behind its `kthread_stop`. -/
theorem not_quietAfterStop {es : List (Addr × Addr)} {e : Addr × Addr} (he : e ∈ es)
    (calls : List Call) : ¬QuietAfterStop (calls ++ stopCalls es) := by
  intro hquiet
  -- the three calls of its round stand in the log, in their order
  have hround : (stopCalls [e]).Sublist (calls ++ stopCalls es) := by
    apply List.Sublist.trans _ (List.sublist_append_right calls (stopCalls es))
    rw [stopCalls, List.flatMap_singleton]
    exact List.sublist_flatten_of_mem (List.mem_map_of_mem he)
  have hpair := List.Pairwise.sublist hround hquiet
  exact (List.pairwise_cons.mp hpair).1 (.wakeUpProcess e.2) (by simp) e.2 rfl rfl

theorem created_eq_nil (h : ∀ i < n, a.kthreadCreate i = false) : created a n = [] := by
  induction n with
  | zero => rfl
  | succ n ih =>
    rw [created, h n (Nat.lt_succ_self n), ih (fun i hi => h i (Nat.lt_succ_of_lt hi))]
    rfl

theorem mem_created {i : ℕ} (hi : i < n) (hk : a.kthreadCreate i = true) :
    (a.node i, a.task i) ∈ created a n := by
  induction n with
  | zero => cases hi
  | succ n ih =>
    rw [created]
    rcases Nat.lt_succ_iff_lt_or_eq.mp hi with hi | rfl
    · split
      · exact List.mem_cons_of_mem _ (ih hi)
      · exact ih hi
    · rw [if_pos hk]
      exact List.mem_cons_self

/-- Before `stop_test_threads` nothing is stopped. -/
theorem quiet_startCalls : QuietAfterStop (startCalls a n) := by
  have hnone (p : Addr) : Call.kthreadStop p ∉ startCalls a n := by
    induction n with
    | zero => simp [startCalls]
    | succ n ih =>
      rw [startCalls, List.mem_append]
      rintro (h | h)
      · exact ih h
      · split at h <;> simp [createCalls] at h
  apply List.pairwise_of_forall_mem_list
  rintro c hc d - p rfl
  exact absurd hc (hnone p)

/-- Both functions return, whatever `kthread_create` answers, with these calls made. -/
theorem start_stop_run : ∃ s t, startWaitqueueTest a n = some s ∧
    stopTestThreads ((created a n).length+1) s = some t ∧
    t.calls = startCalls a n ++ stopCalls (created a n) ∧
    ∀ w, w ≠ waitThreadsList → t.heap w = none := by
  obtain ⟨s, hs, hstarted⟩ := startWaitqueueTest_run a n
  obtain ⟨t, ht, hcalls, hheap⟩ := stopTestThreads_run hstarted.holds
  exact ⟨s, t, hs, ht, by rw [hcalls, hstarted.calls], hheap⟩

/-- The bookkeeping is right, and the law fails as soon as there is a thread to stop, for the
wake-up that follows its `kthread_stop`. -/
theorem stopLaw_iff : StopLaw a n ↔ ∀ i < n, a.kthreadCreate i = false := by
  obtain ⟨s, t, hs, ht, hcalls, -⟩ := start_stop_run a n
  constructor
  · rintro ⟨s', fuel, t', hs', ht', -, -, hquiet⟩ i hi
    obtain rfl := Option.some.inj (hs.symm.trans hs')
    obtain rfl := listForEachEntrySafe_unique ht ht'
    rw [hcalls] at hquiet
    by_contra hk
    exact not_quietAfterStop (mem_created a n hi (by simpa using hk)) _ hquiet
  · intro hnone
    refine ⟨s, _, t, hs, ht, ?_, ?_, ?_⟩
    · rw [hcalls]
      exact count_kthreadStop a n
    · rw [hcalls]
      exact count_kfree a n
    · rw [hcalls, created_eq_nil a n hnone, stopCalls, List.flatMap_nil, List.append_nil]
      exact quiet_startCalls a n

end Law

/-- Every `kthread_create` succeeds. -/
def allCreated : Answers where
  kthreadCreate := fun _ => true
  task := fun i => i
  node := fun i => i+2
  task_inj := fun _ _ h => h
  node_inj := fun _ _ h => Nat.succ.inj (Nat.succ.inj h)
  node_ne_head := fun i h => Nat.succ_ne_zero i (Nat.succ.inj h)

theorem not_forall_stopLaw : ¬ ∀ a n, StopLaw a n := by
  intro hlaw
  obtain ⟨s', fuel, t', hs', ht', -, -, hquiet⟩ := hlaw allCreated 80
  obtain ⟨s, t, hs, ht, hcalls, -⟩ := start_stop_run allCreated 80
  obtain rfl := Option.some.inj (hs.symm.trans hs')
  obtain rfl := listForEachEntrySafe_unique ht ht'
  rw [hcalls] at hquiet
  exact not_quietAfterStop (mem_created allCreated 80 (i := 0) (by decide) rfl) _ hquiet

end YuToolbox.WaitQueueThreads
