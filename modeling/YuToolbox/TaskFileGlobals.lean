import YuToolbox.TaskFile
import Mathlib.Data.List.Forall2

/-! `awk.awk` with all its variables. In awk only the parameters of a function are its own; every
other name is one for the whole program, and keeps its value from call to call and from line to
line. -/
namespace YuToolbox.TaskGlobals

open Awk StepRuns

/-- What the helpers assign. -/
structure Scratch where
  dest : List Text
  fetchNode : Text
  url : Text
  fetchStart : Text
  fetchEnd : Text
  ret : Text
  key : Text
  value : Text
  param : Text
  st : Text
  stet : Text
  et : Text
  pss : Text
  pse : Text
  seps : Text
  tasknode : Text

/-- What `oparse_taskfile` assigns. -/
structure Main where
  paramContent : Text
  gitUrl : Text
  var : Text
  pr : List Text
  len : ℕ
  tname : Text
  s : ℕ
  node : Text
  giturl : Text
  pc : Text
  tc : Text
  taskContent : Text

structure Globals extends Scratch, Main

/-- Nothing has been assigned yet. -/
def fresh : Globals where
  dest := []
  fetchNode := []
  url := []
  fetchStart := []
  fetchEnd := []
  ret := []
  key := []
  value := []
  param := []
  st := []
  stet := []
  et := []
  pss := []
  pse := []
  seps := []
  tasknode := []
  paramContent := []
  gitUrl := []
  var := []
  pr := []
  len := 0
  tname := []
  s := 0
  node := []
  giturl := []
  pc := []
  tc := []
  taskContent := []

def parseEquation (line : Text) (isKey : Bool) : StateM Globals Text := do
  modify fun g => { g with dest := split "=".toList line }
  if isKey then
    return (← get).dest.getD 0 []
  return (← get).dest.getD 1 []

def parseRestraint (line space : Text) : StateM Globals Text := do
  modify fun g => { g with fetchNode := [] }
  if matchesLiteral "fetch_url".toList line then
    let url ← parseEquation line false
    modify fun g => { g with url }
    modify fun g => { g with fetchStart := space ++ "<fetch url=".toList }
    modify fun g => { g with fetchEnd := "/>".toList }
    modify fun g => { g with fetchNode := g.fetchStart ++ g.url ++ g.fetchEnd }
  return (← get).fetchNode

def getparam (name value space : Text) : StateM Globals Text := do
  modify fun g => { g with param := space ++ "<param name=\"".toList ++ name ++ "\"".toList ++
    " value=\"".toList ++ value ++ "\"/>".toList }
  return (← get).param

def parseTaskparam (line algn : Text) : StateM Globals Text := do
  modify fun g => { g with ret := [] }
  if matchesLiteral "=".toList line then
    let key ← parseEquation line true
    modify fun g => { g with key }
    let value ← parseEquation line false
    modify fun g => { g with value }
    let g ← get
    let ret ← getparam g.key g.value ("\t\t\t\t\t".toList ++ algn)
    modify fun g => { g with ret }
  return (← get).ret

/-- Its `param` is a parameter and hides the variable of that name. -/
def gettask (taskname param git space : Text) : StateM Globals Text := do
  modify fun g => { g with st := space ++ "<task".toList }
  modify fun g => { g with stet := space ++ "<task/>".toList }
  modify fun g => { g with et := space ++ "</task>".toList }
  modify fun g => { g with pss := space ++ "\t".toList ++ "<params>".toList }
  modify fun g => { g with pse := space ++ "\t".toList ++ "</params>".toList }
  modify fun g => { g with seps := space ++ "\t".toList ++ "<params/>".toList }
  modify fun g => { g with
    tasknode := g.st ++ " name=\"".toList ++ taskname ++ "\" role=\"STANDALONE\">".toList }
  if git.length > 0 then
    modify fun g => { g with tasknode := g.tasknode ++ "\n".toList ++ git }
  if param.length > 0 then
    modify fun g => { g with tasknode := g.tasknode ++ "\n".toList ++ g.pss ++ param ++
      "\n".toList ++ g.pse ++ "\n".toList ++ g.et }
  else
    modify fun g => { g with
      tasknode := g.tasknode ++ "\n".toList ++ g.seps ++ "\n".toList ++ g.et }
  return (← get).tasknode

/-- The body of the loop over the pieces of a line, for `pr[s]`. -/
def piece (algn : Text) : StateM Globals Unit := do
  let g ← get
  let node ← parseRestraint (g.pr.getD (g.s-1) []) ("\t\t\t\t".toList ++ algn)
  modify fun g => { g with node }
  if node.length > 0 then
    modify fun g => { g with giturl := g.node }
  else
    -- `gsub` writes the piece without its quotes back into the array
    modify fun g => { g with
      pr := g.pr.set (g.s-1) ((g.pr.getD (g.s-1) []).filter (· != '"')) }
    let g ← get
    let pc ← parseTaskparam (g.pr.getD (g.s-1) []) algn
    modify fun g => { g with pc }
    if pc.length > 0 then
      modify fun g => { g with paramContent := g.paramContent ++ "\n".toList ++ g.pc }

/-- `for(s=1;s<=len;s++)`, with the number of pieces that are left. -/
def pieces (algn : Text) : ℕ → StateM Globals Unit
  | 0 => pure ()
  | n+1 => do
    piece algn
    modify fun g => { g with s := g.s+1 }
    pieces algn n

/-- The body of the loop over the lines. -/
def line (algn : Text) : StateM Globals Unit := do
  modify fun g => { g with pr := split "\" ".toList g.var }
  modify fun g => { g with len := g.pr.length }
  -- of an empty line this is `pr[0]`, which is not set
  modify fun g => { g with tname := g.pr.getD (g.len-1) [] }
  modify fun g => { g with s := 1 }
  pieces algn (← get).len
  let g ← get
  let tc ← gettask g.tname g.paramContent g.giturl ("\t\t\t".toList ++ algn)
  modify fun g => { g with tc }
  if tc.length > 0 then
    modify fun g => { g with taskContent := g.taskContent ++ "\n".toList ++ g.tc }
  modify fun g => { g with paramContent := [] }
  modify fun g => { g with giturl := [] }

/-- The file, and the variables. -/
structure State where
  records : List Text
  broken : Bool
  globals : Globals

/-- `while(getline var < filename)`: at an error `getline` returns -1, which is true, and leaves
`var` alone. -/
def step (algn : Text) (s : State) : Option State :=
  match s.records with
  | record :: records =>
    some ⟨records, s.broken, ((line algn).run { s.globals with var := record }).2⟩
  | [] => if s.broken then some ⟨[], s.broken, ((line algn).run s.globals).2⟩ else none

/-- `giturl` and `task_content` are not set here; what is set is `git_url`. -/
def start (file : TaskFile.File) (g : Globals) : State :=
  ⟨file.records, file.broken, { g with paramContent := [], gitUrl := [] }⟩

def oparseTaskfile (fuel : ℕ) (file : TaskFile.File) (algn : Text) (g : Globals) : Option Text :=
  (run (step algn) fuel (start file g)).map (fun s => s.globals.taskContent)

section Helpers

variable (g : Globals)

theorem run_parseRestraint (line space : Text) :
    ∃ h, (parseRestraint line space).run g =
      (TaskFile.parseRestraint line space, { g with toScratch := h }) := by
  unfold parseRestraint TaskFile.parseRestraint
  split
  · exact ⟨_, rfl⟩
  · exact ⟨_, rfl⟩

theorem run_parseTaskparam (line algn : Text) :
    ∃ h, (parseTaskparam line algn).run g =
      (TaskFile.parseTaskparam line algn, { g with toScratch := h }) := by
  unfold parseTaskparam TaskFile.parseTaskparam
  split
  · exact ⟨_, rfl⟩
  · exact ⟨_, rfl⟩

theorem run_gettask (taskname param git space : Text) :
    ∃ h, (gettask taskname param git space).run g =
      (TaskFile.gettask taskname param git space, { g with toScratch := h }) := by
  unfold gettask TaskFile.gettask
  split <;> split <;> exact ⟨_, rfl⟩

end Helpers

/-- What the pieces of a line are collected in. -/
def Globals.collected (g : Globals) : TaskFile.Collected := ⟨g.paramContent, g.giturl⟩

theorem run_bind_of {α β : Type} {x : StateM Globals α} {f : α → StateM Globals β}
    {g h : Globals} {a : α} (hx : x.run g = (a, h)) : (x >>= f).run g = (f a).run h := by
  rw [StateT.run_bind, hx]
  rfl

theorem run_modify_bind {β : Type} (f : Globals → Globals) (k : Unit → StateM Globals β)
    (g : Globals) : (modify f >>= k).run g = (k ()).run (f g) := rfl

theorem run_get_bind {β : Type} (k : Globals → StateM Globals β) (g : Globals) :
    (get >>= k).run g = (k g).run g := rfl

/-- Of what the pieces behind it and the task read, a piece changes what they are collected in. -/
structure Collects (g : Globals) (c : TaskFile.Collected) (h : Globals) : Prop where
  collected : h.collected = c
  tname : h.tname = g.tname
  taskContent : h.taskContent = g.taskContent
  var : h.var = g.var
  s : h.s = g.s
  rest : h.pr.drop g.s = g.pr.drop g.s

/-- The piece that `gsub` has written back is the one that is read next. -/
theorem getD_set_filter (pr : List Text) (i : ℕ) (p : Char → Bool) :
    (pr.set i ((pr.getD i []).filter p)).getD i [] = (pr.getD i []).filter p := by
  by_cases hi : i < pr.length
  · simp [List.getD_eq_getElem?_getD, hi]
  · rw [List.set_eq_of_length_le (Nat.le_of_not_lt hi),
      List.getD_eq_getElem?_getD, List.getElem?_eq_none (Nat.le_of_not_lt hi)]
    rfl

theorem run_piece (algn : Text) (g : Globals) (hs : 0 < g.s) :
    Collects g (TaskFile.piece algn g.collected (g.pr.getD (g.s-1) []))
      ((piece algn).run g).2 := by
  obtain ⟨h, hh⟩ := run_parseRestraint g (g.pr.getD (g.s-1) []) ("\t\t\t\t".toList ++ algn)
  unfold piece TaskFile.piece
  rw [run_get_bind, run_bind_of hh, run_modify_bind]
  by_cases hnode : 0 < (TaskFile.parseRestraint (g.pr.getD (g.s-1) [])
      ("\t\t\t\t".toList ++ algn)).length
  · -- a fetch URL, and the piece stays as it is
    simp only [if_pos hnode]
    constructor <;> rfl
  · -- the piece is written back without its quotes, and so it is read
    simp only [if_neg hnode]
    rw [run_modify_bind, run_get_bind]
    simp only [getD_set_filter]
    obtain ⟨h', hh'⟩ := run_parseTaskparam
      ⟨h, { g.toMain with
        node := TaskFile.parseRestraint (g.pr.getD (g.s-1) []) ("\t\t\t\t".toList ++ algn)
        pr := g.pr.set (g.s-1) ((g.pr.getD (g.s-1) []).filter (· != '"')) }⟩
      ((g.pr.getD (g.s-1) []).filter (· != '"')) algn
    rw [run_bind_of hh', run_modify_bind]
    have hrest : (g.pr.set (g.s-1) ((g.pr.getD (g.s-1) []).filter (· != '"'))).drop g.s =
        g.pr.drop g.s := List.drop_set_of_lt (by omega)
    by_cases hpc : 0 < (TaskFile.parseTaskparam ((g.pr.getD (g.s-1) []).filter (· != '"'))
        algn).length
    · simp only [if_pos hpc]
      exact ⟨rfl, rfl, rfl, rfl, rfl, hrest⟩
    · simp only [if_neg hpc]
      exact ⟨rfl, rfl, rfl, rfl, rfl, hrest⟩

theorem run_pieces (algn : Text) (n : ℕ) (g : Globals) (hs : 0 < g.s)
    (hn : (g.pr.drop (g.s-1)).length = n) :
    ∃ h, ((pieces algn n).run g).2 = h ∧
      h.collected = (g.pr.drop (g.s-1)).foldl (TaskFile.piece algn) g.collected ∧
      h.tname = g.tname ∧ h.taskContent = g.taskContent ∧ h.var = g.var := by
  induction n generalizing g with
  | zero =>
    refine ⟨g, rfl, ?_, rfl, rfl, rfl⟩
    rw [List.length_eq_zero_iff.mp hn]
    rfl
  | succ n ih =>
    have hp := run_piece algn g hs
    set g' := ((piece algn).run g).2
    have hlt : g.s-1 < g.pr.length := by
      rw [List.length_drop] at hn
      omega
    -- the piece at `s`, and those behind it, which are still as `split` left them
    have hdrop : g.pr.drop (g.s-1) = g.pr.getD (g.s-1) [] :: g.pr.drop g.s := by
      rw [List.drop_eq_getElem_cons hlt, List.getD_eq_getElem?_getD,
        List.getElem?_eq_getElem hlt, Nat.sub_add_cancel hs]
      rfl
    have hrest : g'.pr.drop g'.s = g.pr.drop g.s := by rw [hp.s, hp.rest]
    obtain ⟨h, hh, hcollected, htname, htask, hvar⟩ := ih { g' with s := g'.s+1 }
      (Nat.succ_pos _) (by
        rw [hdrop, List.length_cons] at hn
        exact (congrArg List.length hrest).trans (Nat.succ.inj hn))
    refine ⟨h, hh, ?_, htname.trans hp.tname, htask.trans hp.taskContent, hvar.trans hp.var⟩
    calc
      h.collected = (g'.pr.drop g'.s).foldl (TaskFile.piece algn) g'.collected := hcollected
      _ = (g.pr.drop (g.s-1)).foldl (TaskFile.piece algn) g.collected := by
        rw [hrest, hp.collected, hdrop, List.foldl_cons]

/-- What is read of the variables when the next line is processed. -/
def State.view (s : State) : TaskFile.State :=
  ⟨s.records, s.broken, s.globals.var, s.globals.collected, s.globals.taskContent⟩

/-- The values the other variables have at the start of a line do not matter. -/
theorem line_view (algn : Text) (records : List Text) (broken : Bool) (g : Globals) :
    State.view ⟨records, broken, ((line algn).run g).2⟩ =
      TaskFile.line algn (State.view ⟨records, broken, g⟩) := by
  unfold line
  simp only [run_modify_bind, run_get_bind]
  -- the variables at the start of the loop over the pieces
  set g₁ : Globals := { g with
    pr := split "\" ".toList g.var
    len := (split "\" ".toList g.var).length
    tname := (split "\" ".toList g.var).getD ((split "\" ".toList g.var).length-1) []
    s := 1 }
  obtain ⟨g₂, hpieces, hcollected, htname, htask, hvar⟩ :=
    run_pieces algn g₁.len g₁ Nat.one_pos rfl
  have hrun : (pieces algn g₁.len).run g₁ = ((), g₂) := Prod.ext rfl hpieces
  rw [run_bind_of hrun, run_get_bind]
  obtain ⟨h, hh⟩ := run_gettask g₂ g₂.tname g₂.paramContent g₂.giturl ("\t\t\t".toList ++ algn)
  rw [run_bind_of hh, run_modify_bind]
  simp only [if_pos (TaskFile.gettask_length_pos _ _ _ _), run_modify_bind]
  have hname : g₂.tname = (split "\" ".toList g.var).getLastD [] := by
    rw [htname, List.getLastD_eq_getLast?, List.getLast?_eq_getElem?, ← List.getD_eq_getElem?_getD]
  have hc : g₂.collected =
      (split "\" ".toList g.var).foldl (TaskFile.piece algn) g.collected := hcollected
  have hparam := congrArg TaskFile.Collected.paramContent hc
  have hgit := congrArg TaskFile.Collected.giturl hc
  rw [TaskFile.line_appends]
  simp only [State.view]
  rw [← hname, ← hparam, ← hgit]
  show TaskFile.State.mk records broken g₂.var ⟨[], []⟩ _ = _
  rw [hvar, htask]
  rfl

/-- One step with all the variables is one step of what is read of them. -/
theorem step_view (algn : Text) (s : State) :
    (step algn s).map State.view = TaskFile.step algn s.view := by
  obtain ⟨records, broken, g⟩ := s
  cases records with
  | cons record records =>
    exact congrArg some (line_view algn records broken { g with var := record })
  | nil =>
    cases broken
    · rfl
    · exact congrArg some (line_view algn [] true g)

/-- From a fresh start, the variables of the whole program come to what the lines are given. -/
theorem oparseTaskfile_fresh (fuel : ℕ) (file : TaskFile.File) (algn : Text) :
    oparseTaskfile fuel file algn fresh = TaskFile.oparseTaskfile fuel file algn := by
  unfold oparseTaskfile TaskFile.oparseTaskfile
  have hview : (start file fresh).view = TaskFile.start file := rfl
  rw [← hview, ← run_view State.view (step_view algn), Option.map_map]
  rfl

end YuToolbox.TaskGlobals
