import Mathlib.Data.Fintype.Card
import YuToolbox.InstancePool
import YuToolbox.TransitionRuns

/-! `kretprobe_example.c`: the calls of the probed function, by any tasks and one in another, with
the instances that the probe has for them. Which of the free ones a call gets is left open. -/
namespace YuToolbox.Kretprobe

open InstancePool TransitionRuns

/-- The private data of an instance. -/
structure MyData where
  entryStamp : ℤ

/-- The probe, with the name and the address of its function. -/
structure Probe where
  funcName : String
  addr : BitVec 64

abbrev maxactive : ℕ := 20

abbrev Instance := Fin maxactive

inductive Line where
  | planted (funcName : String) (addr : BitVec 64)
  | returned (funcName : String) (retval : BitVec 64) (delta : ℤ)
  | unregistered (addr : BitVec 64)
  | missed (nmissed : ℤ) (funcName : String)
  deriving DecidableEq

def entryHandler (mm : Bool) (now : ℤ) (data : MyData) : ℤ × MyData :=
  -- kernel threads are skipped
  if !mm then (1, data) else (0, { data with entryStamp := now })

/-- The line of `kretprobe_exit`; `nmissed` is an `int`, the last 32 bits of the count. -/
def missedLine (p : Probe) (nmissed : ℕ) : Line :=
  .missed (BitVec.ofNat 32 nmissed).toInt p.funcName

def retHandler (p : Probe) (retval : BitVec 64) (now : ℤ) (data : MyData) : Line :=
  .returned p.funcName retval (now - data.entryStamp)

/-- A call that has not returned: before its entry handler, probed, or not probed. -/
inductive Frame where
  | entering (ri : Instance)
  | probed (ri : Instance)
  | plain
  deriving DecidableEq

def Frame.instance? : Frame → Option Instance
  | .entering ri => some ri
  | .probed ri => some ri
  | .plain => none

/-- A task in its entry handler does not call. -/
def inHandler : List Frame → Bool
  | .entering _ :: _ => true
  | _ => false

/-- The calls of each task, the newest first. -/
structure State where
  data : Instance → MyData
  used : Finset Instance
  calls : ℕ → List Frame
  nmissed : ℕ
  registered : Bool
  log : List Line

/-- Behind `kretprobe_init`. -/
def start (p : Probe) : State :=
  ⟨fun _ => ⟨0⟩, ∅, fun _ => [], 0, true, [.planted p.funcName p.addr]⟩

inductive Action where
  | call (task : ℕ) (ri : Instance)
  | entry (task : ℕ) (now : ℤ)
  | ret (task : ℕ) (retval : BitVec 64) (now : ℤ)
  | exit
  deriving DecidableEq

section Steps

variable (mm : ℕ → Bool) (p : Probe)

def callStep (s : State) (task : ℕ) (ri : Instance) : Option State :=
  let push (f : Frame) : ℕ → List Frame := Function.update s.calls task (f :: s.calls task)
  if inHandler (s.calls task) then none
  else if !s.registered then some { s with calls := push .plain }
  else if s.used.card = maxactive then
    some { s with calls := push .plain, nmissed := s.nmissed+1 }
  else if ri ∈ s.used then none
  else some { s with calls := push (.entering ri), used := insert ri s.used }

def entryStep (s : State) (task : ℕ) (now : ℤ) : Option State :=
  match s.calls task with
  | .entering ri :: calls =>
    let result := entryHandler (mm task) now (s.data ri)
    let data := Function.update s.data ri result.2
    -- with another result the instance goes back
    if result.1 ≠ 0 then
      some { s with
        data
        used := s.used.erase ri
        calls := Function.update s.calls task (.plain :: calls) }
    else some { s with data, calls := Function.update s.calls task (.probed ri :: calls) }
  | _ => none

def retStep (s : State) (task : ℕ) (retval : BitVec 64) (now : ℤ) : Option State :=
  match s.calls task with
  | .probed ri :: calls =>
    some { s with
      used := s.used.erase ri
      calls := Function.update s.calls task calls
      -- an instance without its probe has no handler
      log := if s.registered then s.log ++ [retHandler p retval now (s.data ri)] else s.log }
  | .plain :: calls => some { s with calls := Function.update s.calls task calls }
  | _ => none

def kretprobeExit (s : State) : Option State :=
  if s.registered then
    some { s with
      registered := false
      log := s.log ++ [.unregistered p.addr, missedLine p s.nmissed] }
  else none

def step (s : State) : Action → Option State
  | .call task ri => callStep s task ri
  | .entry task now => entryStep mm s task now
  | .ret task retval now => retStep p s task retval now
  | .exit => kretprobeExit p s

end Steps

/-- What happens, whatever instance a call gets. -/
inductive Event where
  | call (task : ℕ)
  | entry (task : ℕ) (now : ℤ)
  | ret (task : ℕ) (retval : BitVec 64) (now : ℤ)
  | exit

def Action.event : Action → Event
  | .call task _ => .call task
  | .entry task now => .entry task now
  | .ret task retval now => .ret task retval now
  | .exit => .exit

/-- A call that knows itself when it began. -/
inductive Call where
  | entering
  | timed (began : ℤ)
  | plain
  deriving DecidableEq

/-- The probe as it is meant: no instances, only how many calls may be probed at a time. -/
structure Meant where
  calls : ℕ → List Call
  active : ℕ
  nmissed : ℕ
  registered : Bool
  log : List Line

def Meant.start (p : Probe) : Meant := ⟨fun _ => [], 0, 0, true, [.planted p.funcName p.addr]⟩

section MeantSteps

variable (mm : ℕ → Bool) (p : Probe)

def Meant.callStep (a : Meant) (task : ℕ) : Option Meant :=
  let push (c : Call) : ℕ → List Call := Function.update a.calls task (c :: a.calls task)
  if (a.calls task).head? = some .entering then none
  else if !a.registered then some { a with calls := push .plain }
  else if a.active = maxactive then
    some { a with calls := push .plain, nmissed := a.nmissed+1 }
  else some { a with calls := push .entering, active := a.active+1 }

def Meant.entryStep (a : Meant) (task : ℕ) (now : ℤ) : Option Meant :=
  match a.calls task with
  | .entering :: calls =>
    if mm task then some { a with calls := Function.update a.calls task (.timed now :: calls) }
    else
      some { a with
        calls := Function.update a.calls task (.plain :: calls)
        active := a.active-1 }
  | _ => none

def Meant.retStep (a : Meant) (task : ℕ) (retval : BitVec 64) (now : ℤ) : Option Meant :=
  match a.calls task with
  | .timed began :: calls =>
    some { a with
      calls := Function.update a.calls task calls
      active := a.active-1
      log :=
        if a.registered then a.log ++ [.returned p.funcName retval (now - began)] else a.log }
  | .plain :: calls => some { a with calls := Function.update a.calls task calls }
  | _ => none

def Meant.exit (a : Meant) : Option Meant :=
  if a.registered then
    some { a with
      registered := false
      log := a.log ++ [.unregistered p.addr, missedLine p a.nmissed] }
  else none

def Meant.step (a : Meant) : Event → Option Meant
  | .call task => a.callStep task
  | .entry task now => a.entryStep mm task now
  | .ret task retval now => a.retStep p task retval now
  | .exit => a.exit p

end MeantSteps

/-- The call that a frame stands for. -/
def Frame.view (data : Instance → MyData) : Frame → Call
  | .entering _ => .entering
  | .probed ri => .timed (data ri).entryStamp
  | .plain => .plain

def State.held (s : State) (task : ℕ) : List Instance := (s.calls task).filterMap Frame.instance?

/-- The instances hold what the calls know, and none is lost or held by two calls. -/
structure Refines (s : State) (a : Meant) : Prop where
  calls : ∀ task, (s.calls task).map (Frame.view s.data) = a.calls task
  pool : Pool s.used s.held
  active : s.used.card = a.active
  nmissed : s.nmissed = a.nmissed
  registered : s.registered = a.registered
  log : s.log = a.log

/-- The instance of the action is a free one, if it needs one. -/
def Suits (s : State) : Action → Prop
  | .call _ ri => s.registered = true → s.used.card ≠ maxactive → ri ∉ s.used
  | _ => True

section Refinement

variable {mm : ℕ → Bool} {p : Probe} {s t : State} {a b : Meant} {task : ℕ} {ri : Instance}
  {frames new : List Frame}

theorem map_update {data : Instance → MyData} {calls : ℕ → List Frame} {calls' : ℕ → List Call}
    (h : ∀ k, (calls k).map (Frame.view data) = calls' k) {new' : List Call}
    (hnew : new.map (Frame.view data) = new') (k : ℕ) :
    (Function.update calls task new k).map (Frame.view data) =
      Function.update calls' task new' k := by
  by_cases hk : k = task
  · subst hk
    rw [Function.update_self, Function.update_self, hnew]
  · rw [Function.update_of_ne hk, Function.update_of_ne hk, h]

theorem held_update (calls : ℕ → List Frame) (task : ℕ) (new : List Frame) :
    (fun k => (Function.update calls task new k).filterMap Frame.instance?) =
      Function.update (fun k => (calls k).filterMap Frame.instance?) task
        (new.filterMap Frame.instance?) := by
  funext k
  by_cases hk : k = task
  · subst hk
    rw [Function.update_self, Function.update_self]
  · rw [Function.update_of_ne hk, Function.update_of_ne hk]

/-- Frames without an instance do not see its data. -/
theorem map_view_update {data : Instance → MyData} (d : MyData)
    (h : ri ∉ frames.filterMap Frame.instance?) :
    frames.map (Frame.view (Function.update data ri d)) = frames.map (Frame.view data) := by
  apply List.map_congr_left
  intro f hf
  cases f with
  | entering i => rfl
  | plain => rfl
  | probed i =>
    have hne : i ≠ ri := by
      rintro rfl
      exact h (List.mem_filterMap.mpr ⟨.probed i, hf, rfl⟩)
    rw [Frame.view, Frame.view, Function.update_of_ne hne]

theorem pool_update (s : State) (task : ℕ) {used : Finset Instance}
    (hnew : Pool used (Function.update s.held task (new.filterMap Frame.instance?))) :
    Pool used (fun k => (Function.update s.calls task new k).filterMap Frame.instance?) := by
  rw [held_update]
  exact hnew

theorem inHandler_iff (data : Instance → MyData) (frames : List Frame) :
    inHandler frames = true ↔ (frames.map (Frame.view data)).head? = some .entering := by
  unfold inHandler
  split
  · exact iff_of_true rfl rfl
  · rename_i h
    apply iff_of_false Bool.false_ne_true
    intro hhead
    cases frames with
    | nil => cases hhead
    | cons f rest =>
      cases f with
      | entering i => exact h i rest rfl
      | probed i => cases Option.some.inj hhead
      | plain => cases Option.some.inj hhead

/-- A call without an instance changes nothing that is held. -/
theorem pool_plain (h : Refines s a) (task : ℕ) :
    Pool s.used (fun k => (Function.update s.calls task (.plain :: s.calls task) k).filterMap
      Frame.instance?) := by
  apply pool_update
  have hsame : (Frame.plain :: s.calls task).filterMap Frame.instance? = s.held task := rfl
  rw [hsame, Function.update_eq_self]
  exact h.pool

theorem call_refines (h : Refines s a)
    (hri : s.registered = true → s.used.card ≠ maxactive → ri ∉ s.used) :
    Option.Rel Refines (callStep s task ri) (a.callStep task) := by
  have hcalls := h.calls task
  have hpush (f : Frame) : ∀ k, (Function.update s.calls task (f :: s.calls task) k).map
      (Frame.view s.data) = Function.update a.calls task (f.view s.data :: a.calls task) k := by
    apply map_update h.calls
    rw [List.map_cons, hcalls]
  have hbusy := inHandler_iff s.data (s.calls task)
  rw [hcalls] at hbusy
  unfold callStep Meant.callStep
  by_cases hin : inHandler (s.calls task) = true
  · rw [if_pos hin, if_pos (hbusy.mp hin)]
    exact .none
  rw [if_neg hin, if_neg (fun hhead => hin (hbusy.mpr hhead))]
  by_cases hreg : s.registered = true
  · have hs : ¬ (!s.registered) = true := by
      rw [hreg]
      exact Bool.false_ne_true
    have ha : ¬ (!a.registered) = true := by rwa [← h.registered]
    rw [if_neg hs, if_neg ha]
    by_cases hfull : s.used.card = maxactive
    · have hactive : a.active = maxactive := h.active.symm.trans hfull
      rw [if_pos hfull, if_pos hactive]
      exact .some ⟨hpush .plain, pool_plain h task, h.active, congrArg (·+1) h.nmissed,
        h.registered, h.log⟩
    · have hactive : a.active ≠ maxactive := fun heq => hfull (h.active.trans heq)
      have hfree := hri hreg hfull
      rw [if_neg hfull, if_neg hactive, if_neg hfree]
      have hcard : (insert ri s.used).card = a.active+1 := by
        rw [Finset.card_insert_of_notMem hfree, h.active]
      exact .some ⟨hpush (.entering ri), pool_update s task (h.pool.take hfree), hcard, h.nmissed,
        h.registered, h.log⟩
  · have hs : (!s.registered) = true := by
      rw [Bool.not_eq_true] at hreg
      rw [hreg]
      rfl
    have ha : (!a.registered) = true := by rwa [← h.registered]
    rw [if_pos hs, if_pos ha]
    exact .some ⟨hpush .plain, pool_plain h task, h.active, h.nmissed, h.registered, h.log⟩

theorem held_cons {f : Frame} (hcalls : s.calls task = f :: frames)
    (hf : f.instance? = some ri) :
    s.held task = ri :: frames.filterMap Frame.instance? := by
  rw [State.held, hcalls, List.filterMap_cons_some hf]

/-- The newest call holds its instance, and no other frame sees the data of that. -/
theorem map_update_data (h : Refines s a) {f : Frame} (hcalls : s.calls task = f :: frames)
    (hf : f.instance? = some ri) (d : MyData) (g : Frame) (k : ℕ) :
    (Function.update s.calls task (g :: frames) k).map
        (Frame.view (Function.update s.data ri d)) =
      Function.update a.calls task
        (g.view (Function.update s.data ri d) :: frames.map (Frame.view s.data)) k := by
  have hheld := held_cons hcalls hf
  by_cases hk : k = task
  · subst hk
    rw [Function.update_self, Function.update_self, List.map_cons,
      map_view_update d (h.pool.not_mem_rest hheld)]
  · rw [Function.update_of_ne hk, Function.update_of_ne hk, ← h.calls,
      map_view_update d (h.pool.not_mem_other hheld hk)]

theorem card_giveBack (h : Refines s a) {f : Frame} (hcalls : s.calls task = f :: frames)
    (hf : f.instance? = some ri) : (s.used.erase ri).card = a.active-1 := by
  rw [Finset.card_erase_of_mem (h.pool.mem_used (held_cons hcalls hf)), h.active]

theorem entry_refines (h : Refines s a) (mm : ℕ → Bool) (task : ℕ) (now : ℤ) :
    Option.Rel Refines (entryStep mm s task now) (a.entryStep mm task now) := by
  have hview := h.calls task
  unfold entryStep Meant.entryStep
  rw [← hview]
  cases hcalls : s.calls task with
  | nil => exact .none
  | cons f frames =>
    cases f with
    | probed i => exact .none
    | plain => exact .none
    | entering ri =>
      have hheld := held_cons hcalls rfl
      have hdata := map_update_data h hcalls rfl (entryHandler (mm task) now (s.data ri)).2
      simp only [List.map_cons, Frame.view]
      cases hmm : mm task with
      | false =>
        -- the instance of a kernel thread goes back at once
        rw [hmm] at hdata
        exact .some ⟨hdata .plain, pool_update s task (h.pool.giveBack hheld),
          card_giveBack h hcalls rfl, h.nmissed, h.registered, h.log⟩
      | true =>
        rw [hmm] at hdata
        have hstamp : Frame.view (Function.update s.data ri ⟨now⟩) (.probed ri) = .timed now := by
          rw [Frame.view, Function.update_self]
        have hprobed := hdata (.probed ri)
        have hpool : Pool s.used (Function.update s.held task
            ((Frame.probed ri :: frames).filterMap Frame.instance?)) := by
          have hsame : (Frame.probed ri :: frames).filterMap Frame.instance? = s.held task :=
            hheld.symm
          rw [hsame, Function.update_eq_self]
          exact h.pool
        apply Option.Rel.some
        refine ⟨fun k => ?_, pool_update s task hpool, h.active, h.nmissed, h.registered, h.log⟩
        rw [← hstamp]
        exact hprobed k

theorem ret_refines (h : Refines s a) (p : Probe) (task : ℕ) (retval : BitVec 64) (now : ℤ) :
    Option.Rel Refines (retStep p s task retval now) (a.retStep p task retval now) := by
  have hview := h.calls task
  unfold retStep Meant.retStep
  rw [← hview]
  cases hcalls : s.calls task with
  | nil => exact .none
  | cons f frames =>
    have hpop : ∀ k, (Function.update s.calls task frames k).map (Frame.view s.data) =
        Function.update a.calls task (frames.map (Frame.view s.data)) k :=
      map_update h.calls rfl
    cases f with
    | entering i => exact .none
    | plain =>
      have hpool : Pool s.used (Function.update s.held task
          (frames.filterMap Frame.instance?)) := by
        have hsame : frames.filterMap Frame.instance? = s.held task := by
          rw [State.held, hcalls]
          rfl
        rw [hsame, Function.update_eq_self]
        exact h.pool
      exact .some ⟨hpop, pool_update s task hpool, h.active, h.nmissed, h.registered, h.log⟩
    | probed ri =>
      have hlog : (if s.registered then s.log ++ [retHandler p retval now (s.data ri)]
            else s.log) =
          if a.registered then
            a.log ++ [.returned p.funcName retval (now - (s.data ri).entryStamp)]
          else a.log := by
        rw [h.registered, h.log]
        rfl
      exact .some ⟨hpop, pool_update s task (h.pool.giveBack (held_cons hcalls rfl)),
        card_giveBack h hcalls rfl, h.nmissed, h.registered, hlog⟩

theorem exit_refines (h : Refines s a) (p : Probe) :
    Option.Rel Refines (kretprobeExit p s) (a.exit p) := by
  unfold kretprobeExit Meant.exit
  rw [h.registered, h.log, h.nmissed]
  split
  · exact .some ⟨h.calls, h.pool, h.active, rfl, rfl, rfl⟩
  · exact .none

/-- With an instance that is free, the probe does what it is meant to. -/
theorem step_refines (h : Refines s a) (mm : ℕ → Bool) (p : Probe) {action : Action}
    (hsuits : Suits s action) :
    Option.Rel Refines (step mm p s action) (a.step mm p action.event) := by
  cases action with
  | call task ri => exact call_refines h hsuits
  | entry task now => exact entry_refines h mm task now
  | ret task retval now => exact ret_refines h p task retval now
  | exit => exact exit_refines h p

theorem suits_of_step {action : Action} (hst : step mm p s action = some t) : Suits s action := by
  cases action with
  | call task ri =>
    intro hreg hfull hused
    have hs : ¬ (!s.registered) = true := by
      rw [hreg]
      exact Bool.false_ne_true
    simp only [step, callStep, if_neg hs, if_neg hfull, if_pos hused, ite_self] at hst
    cases hst
  | entry task now => trivial
  | ret task retval now => trivial
  | exit => trivial

/-- As long as not all instances are used there is one for the next call. -/
theorem exists_suits (s : State) (e : Event) :
    ∃ action : Action, action.event = e ∧ Suits s action := by
  cases e with
  | call task =>
    by_cases hall : ∀ ri, ri ∈ s.used
    · have hcard : s.used.card = maxactive := by
        rw [Finset.eq_univ_iff_forall.mpr hall, Finset.card_univ, Fintype.card_fin]
      exact ⟨.call task ⟨0, by decide⟩, rfl, fun _ hfull => absurd hcard hfull⟩
    · obtain ⟨ri, hri⟩ := not_forall.mp hall
      exact ⟨.call task ri, rfl, fun _ _ => hri⟩
  | entry task now => exact ⟨.entry task now, rfl, trivial⟩
  | ret task retval now => exact ⟨.ret task retval now, rfl, trivial⟩
  | exit => exact ⟨.exit, rfl, trivial⟩

theorem refines_start (p : Probe) : Refines (start p) (Meant.start p) :=
  ⟨fun _ => rfl, pool_empty, rfl, rfl, rfl, rfl⟩

/-- A step that is possible is one that is meant. -/
theorem step_matched {action : Action} (h : Refines s a) (hst : step mm p s action = some t) :
    ∃ b, a.step mm p action.event = some b ∧ Refines t b := by
  have hrel := step_refines h mm p (suits_of_step hst)
  rw [hst] at hrel
  cases hm : a.step mm p action.event with
  | none =>
    rw [hm] at hrel
    cases hrel
  | some b =>
    rw [hm] at hrel
    cases hrel with
    | some hb => exact ⟨b, rfl, hb⟩

/-- What is meant can be done, with one of the free instances. -/
theorem step_realised {e : Event} (h : Refines s a) (hst : a.step mm p e = some b) :
    ∃ (action : Action) (t : State), action.event = e ∧ step mm p s action = some t ∧
      Refines t b := by
  obtain ⟨action, rfl, hsuits⟩ := exists_suits s e
  have hrel := step_refines h mm p hsuits
  rw [hst] at hrel
  cases hs : step mm p s action with
  | none =>
    rw [hs] at hrel
    cases hrel
  | some t =>
    rw [hs] at hrel
    cases hrel with
    | some hb => exact ⟨action, t, rfl, hs, hb⟩

theorem run_refines {run : List Action} (h : Refines s a)
    (hrun : exec (step mm p) s run = some t) :
    ∃ b, exec (Meant.step mm p) a (run.map Action.event) = some b ∧ Refines t b :=
  exec_matched (fun _ _ _ _ hs hst => step_matched hs hst) h hrun

theorem run_realised {events : List Event} (h : Refines s a)
    (hrun : exec (Meant.step mm p) a events = some b) :
    ∃ run t, run.map Action.event = events ∧ exec (step mm p) s run = some t ∧ Refines t b :=
  exec_realised (fun _ _ _ _ hs hst => step_realised hs hst) h hrun

end Refinement

/-- Whatever calls there are, of any tasks and one in another, the module prints what it is meant
to: of each probed call the time from its own beginning to its own return. No instance is lost or
held twice, whichever free ones the calls get. -/
theorem report_law (mm : ℕ → Bool) (p : Probe) (events : List Event) (log : List Line) :
    ((∃ run s, run.map Action.event = events ∧ exec (step mm p) (start p) run = some s ∧
        s.log = log) ↔
      ∃ a, exec (Meant.step mm p) (Meant.start p) events = some a ∧ a.log = log) ∧
    ∀ run s, exec (step mm p) (start p) run = some s → Pool s.used s.held := by
  refine ⟨⟨?_, ?_⟩, fun run s hrun => ?_⟩
  · rintro ⟨run, s, rfl, hrun, rfl⟩
    obtain ⟨a, ha, hs⟩ := run_refines (refines_start p) hrun
    exact ⟨a, ha, hs.log.symm⟩
  · rintro ⟨a, ha, rfl⟩
    obtain ⟨run, s, hevents, hrun, hs⟩ := run_realised (refines_start p) ha
    exact ⟨run, s, hevents, hrun, hs.log⟩
  · obtain ⟨a, -, hs⟩ := run_refines (refines_start p) hrun
    exact hs.pool

section Accounts

variable {mm : ℕ → Bool} {p : Probe} {s t : State}

def Line.isReturned : Line → Bool
  | .returned _ _ _ => true
  | _ => false

def Action.isCall : Action → Bool
  | .call _ _ => true
  | _ => false

/-- The entry handler of a kernel thread. -/
def Action.isSkipped (mm : ℕ → Bool) : Action → Bool
  | .entry task _ => !mm task
  | _ => false

/-- What has been probed or missed so far. -/
def State.seen (s : State) : ℕ := s.log.countP Line.isReturned + s.used.card + s.nmissed

/-- A return is seen once: as one in progress, and then as a line. -/
theorem seen_ret {task : ℕ} {retval : BitVec 64} {now : ℤ} (hpool : Pool s.used s.held)
    (hreg : s.registered = true) (hst : retStep p s task retval now = some t) :
    t.registered = true ∧ t.seen = s.seen := by
  unfold retStep at hst
  split at hst
  · rename_i ri calls hcalls
    obtain rfl := Option.some.inj hst
    have hmem := hpool.mem_used (held_cons hcalls rfl)
    have hcard := Finset.card_erase_add_one hmem
    refine ⟨hreg, ?_⟩
    simp only [State.seen, if_pos hreg, List.countP_append]
    have hline : [retHandler p retval now (s.data ri)].countP Line.isReturned = 1 := rfl
    omega
  · obtain rfl := Option.some.inj hst
    exact ⟨hreg, rfl⟩
  · cases hst

theorem seen_entry {task : ℕ} {now : ℤ} (hpool : Pool s.used s.held) (hreg : s.registered = true)
    (hst : entryStep mm s task now = some t) :
    t.registered = true ∧ t.seen+(if mm task then 0 else 1) = s.seen := by
  unfold entryStep at hst
  split at hst
  · rename_i ri calls hcalls
    have hmem := hpool.mem_used (held_cons hcalls rfl)
    have hcard := Finset.card_erase_add_one hmem
    cases hmm : mm task with
    | false =>
      rw [hmm] at hst
      obtain rfl := Option.some.inj hst
      refine ⟨hreg, ?_⟩
      simp only [State.seen, Bool.false_eq_true, if_false]
      omega
    | true =>
      rw [hmm] at hst
      obtain rfl := Option.some.inj hst
      exact ⟨hreg, rfl⟩
  · cases hst

theorem seen_call {task : ℕ} {ri : Instance} (hreg : s.registered = true)
    (hst : callStep s task ri = some t) : t.registered = true ∧ t.seen = s.seen+1 := by
  have hs : ¬ (!s.registered) = true := by
    rw [hreg]
    exact Bool.false_ne_true
  unfold callStep at hst
  simp only [if_neg hs] at hst
  split at hst
  · cases hst
  split at hst
  · obtain rfl := Option.some.inj hst
    exact ⟨hreg, rfl⟩
  split at hst
  · cases hst
  · rename_i hfree
    obtain rfl := Option.some.inj hst
    refine ⟨hreg, ?_⟩
    simp only [State.seen, Finset.card_insert_of_notMem hfree]
    omega

theorem seen_step {action : Action} (hpool : Pool s.used s.held) (hreg : s.registered = true)
    (hexit : action ≠ .exit) (hst : step mm p s action = some t) :
    t.registered = true ∧ t.seen+[action].countP (Action.isSkipped mm) =
      s.seen+[action].countP Action.isCall := by
  cases action with
  | call task ri => exact seen_call hreg hst
  | entry task now =>
    obtain ⟨hreg', hseen⟩ := seen_entry hpool hreg hst
    refine ⟨hreg', ?_⟩
    rw [← hseen]
    cases hmm : mm task <;> simp [Action.isSkipped, Action.isCall, hmm]
  | ret task retval now => exact seen_ret hpool hreg hst
  | exit => exact absurd rfl hexit

theorem seen_run {run : List Action} {a : Meant} (h : Refines s a) (hreg : s.registered = true)
    (hexit : .exit ∉ run) (hrun : exec (step mm p) s run = some t) :
    t.seen+run.countP (Action.isSkipped mm) = s.seen+run.countP Action.isCall := by
  induction run generalizing s a with
  | nil =>
    obtain rfl := Option.some.inj hrun
    rfl
  | cons action run ih =>
    obtain ⟨u, hst, hrest⟩ := exec_cons_inv hrun
    rw [List.mem_cons, not_or] at hexit
    obtain ⟨hne, hexit⟩ := hexit
    obtain ⟨hreg', hseen⟩ := seen_step h.pool hreg (Ne.symm hne) hst
    obtain ⟨b, -, hb⟩ := step_matched h hst
    have hrun := ih hb hreg' hexit hrest
    have hcount (q : Action → Bool) :
        (action :: run).countP q = [action].countP q+run.countP q := by
      change ([action] ++ run).countP q = _
      exact List.countP_append
    rw [hcount, hcount]
    omega

end Accounts

/-- As long as the probe is there, every call of the function is counted once: it is in progress,
printed as returned, missed, or of a kernel thread whose entry handler has run. -/
theorem calls_accounted (mm : ℕ → Bool) (p : Probe) (run : List Action) (s : State)
    (h : exec (step mm p) (start p) run = some s) (hexit : .exit ∉ run) :
    s.log.countP Line.isReturned+s.used.card+s.nmissed+run.countP (Action.isSkipped mm) =
      run.countP Action.isCall := by
  have hseen := seen_run (refines_start p) rfl hexit h
  have hstart : (start p).seen = 0 := rfl
  rw [hstart, Nat.zero_add] at hseen
  exact hseen

theorem calls_accounted_nested : ∃ s,
    exec (step (fun task => task = 0) ⟨"_do_fork", 0⟩) (start ⟨"_do_fork", 0⟩)
        [.call 0 3, .entry 0 10, .call 0 4, .entry 0 20, .call 1 5, .entry 1 25, .ret 0 7 30] =
      some s ∧
    s.log.countP Line.isReturned+s.used.card+s.nmissed+1 = 3 := by
  obtain ⟨s, hs⟩ : ∃ s, exec (step (fun task => task = 0) ⟨"_do_fork", 0⟩) (start ⟨"_do_fork", 0⟩)
      [.call 0 3, .entry 0 10, .call 0 4, .entry 0 20, .call 1 5, .entry 1 25, .ret 0 7 30] =
        some s := ⟨_, rfl⟩
  exact ⟨s, hs, calls_accounted _ _ _ s hs (by decide)⟩

end YuToolbox.Kretprobe
