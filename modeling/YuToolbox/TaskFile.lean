import YuToolbox.AwkSplit
import YuToolbox.StepRuns

/-! `awk.awk`: the task file and what `oparse_taskfile` makes of it. -/
namespace YuToolbox.TaskFile

open Awk StepRuns

def parseEquation (line : Text) (isKey : Bool) : Text :=
  let dest := split "=".toList line
  -- what stands behind a second equals sign is in none of the two
  if isKey then dest.getD 0 [] else dest.getD 1 []

def parseRestraint (line space : Text) : Text :=
  if matchesLiteral "fetch_url".toList line then
    let url := parseEquation line false
    let fetchStart := space ++ "<fetch url=".toList
    let fetchEnd := "/>".toList
    fetchStart ++ url ++ fetchEnd
  else []

def getparam (name value space : Text) : Text :=
  space ++ "<param name=\"".toList ++ name ++ "\"".toList ++ " value=\"".toList ++ value ++
    "\"/>".toList

def parseTaskparam (line algn : Text) : Text :=
  if matchesLiteral "=".toList line then
    getparam (parseEquation line true) (parseEquation line false) ("\t\t\t\t\t".toList ++ algn)
  else []

def gettask (taskname param git space : Text) : Text :=
  let st := space ++ "<task".toList
  let et := space ++ "</task>".toList
  let pss := space ++ "\t".toList ++ "<params>".toList
  let pse := space ++ "\t".toList ++ "</params>".toList
  let seps := space ++ "\t".toList ++ "<params/>".toList
  let tasknode := st ++ " name=\"".toList ++ taskname ++ "\" role=\"STANDALONE\">".toList
  let tasknode := if git.length > 0 then tasknode ++ "\n".toList ++ git else tasknode
  if param.length > 0 then
    tasknode ++ "\n".toList ++ pss ++ param ++ "\n".toList ++ pse ++ "\n".toList ++ et
  else tasknode ++ "\n".toList ++ seps ++ "\n".toList ++ et

/-- A file as `getline` finds it: its records, and whether reading past them is an error
(a missing file, a directory) rather than the end of the file. -/
structure File where
  records : List Text
  broken : Bool

structure Collected where
  paramContent : Text
  giturl : Text

/-- The globals that are still read when the next line is processed, and the file. -/
structure State where
  records : List Text
  broken : Bool
  var : Text
  collected : Collected
  taskContent : Text

def piece (algn : Text) (c : Collected) (pr : Text) : Collected :=
  let node := parseRestraint pr ("\t\t\t\t".toList ++ algn)
  if node.length > 0 then { c with giturl := node }
  else
    -- `gsub` takes every quote out of the piece
    let pc := parseTaskparam (pr.filter (· != '"')) algn
    if pc.length > 0 then { c with paramContent := c.paramContent ++ "\n".toList ++ pc } else c

def line (algn : Text) (s : State) : State :=
  let pr := split "\" ".toList s.var
  let tname := pr.getLastD []
  let c := pr.foldl (piece algn) s.collected
  -- the last piece is the name
  let tc := gettask tname c.paramContent c.giturl ("\t\t\t".toList ++ algn)
  { s with
    taskContent := if tc.length > 0 then s.taskContent ++ "\n".toList ++ tc else s.taskContent
    collected := ⟨[], []⟩ }

/-- `while(getline var < filename)`: at an error `getline` returns -1, which is true, and
leaves `var` alone. -/
def step (algn : Text) (s : State) : Option State :=
  match s.records with
  | record :: records => some (line algn { s with records := records, var := record })
  | [] => if s.broken then some (line algn s) else none

def start (file : File) : State := ⟨file.records, file.broken, [], ⟨[], []⟩, []⟩

def oparseTaskfile (fuel : ℕ) (file : File) (algn : Text) : Option Text :=
  (run (step algn) fuel (start file)).map State.taskContent

/-- The indentation that `BEGIN` chooses for `e_tag`. -/
def aligin (tag : Text) : Text := if tag = "recipe".toList then [] else "\t".toList

def taskText (algn record : Text) : Text :=
  let pr := split "\" ".toList record
  let c := pr.foldl (piece algn) ⟨[], []⟩
  gettask (pr.getLastD []) c.paramContent c.giturl ("\t\t\t".toList ++ algn)

theorem gettask_length_pos (taskname param git space : Text) :
    0 < (gettask taskname param git space).length := by
  unfold gettask
  simp only
  split <;> simp only [List.length_append] <;> exact Nat.lt_of_lt_of_le (by decide)
    (Nat.le_add_left ("</task>".toList).length _)

theorem line_appends (algn : Text) (s : State) :
    line algn s = { s with
      taskContent := s.taskContent ++ "\n".toList ++
        gettask ((split "\" ".toList s.var).getLastD [])
          ((split "\" ".toList s.var).foldl (piece algn) s.collected).paramContent
          ((split "\" ".toList s.var).foldl (piece algn) s.collected).giturl
          ("\t\t\t".toList ++ algn)
      collected := ⟨[], []⟩ } := by
  obtain ⟨records, broken, var, collected, taskContent⟩ := s
  simp only [line, if_pos (gettask_length_pos _ _ _ _)]

theorem line_eq (algn : Text) {s : State} (h : s.collected = ⟨[], []⟩) :
    line algn s = { s with
      taskContent := s.taskContent ++ "\n".toList ++ taskText algn s.var } := by
  obtain ⟨records, broken, var, collected, taskContent⟩ := s
  obtain rfl : collected = ⟨[], []⟩ := h
  rw [line_appends]
  rfl

theorem records_reach (algn : Text) (records : List Text) (var content : Text) :
    ∃ last, Reaches (step algn) ⟨records, false, var, ⟨[], []⟩, content⟩
      ⟨[], false, last, ⟨[], []⟩,
        content ++ records.flatMap (fun record => "\n".toList ++ taskText algn record)⟩ := by
  induction records generalizing var content with
  | nil =>
    refine ⟨var, ?_⟩
    rw [List.flatMap_nil, List.append_nil]
    exact Reaches.refl _
  | cons record records ih =>
    obtain ⟨last, hlast⟩ := ih record (content ++ "\n".toList ++ taskText algn record)
    refine ⟨last, Reaches.head (congrArg some (line_eq algn rfl)) ?_⟩
    rw [List.flatMap_cons, ← List.append_assoc, ← List.append_assoc]
    exact hlast

/-- On a file that can be read, `oparse_taskfile` returns the task elements of its lines. -/
theorem oparseTaskfile_readable (algn : Text) (records : List Text) :
    ∃ fuel, oparseTaskfile fuel ⟨records, false⟩ algn =
      some (records.flatMap (fun record => "\n".toList ++ taskText algn record)) := by
  obtain ⟨last, hlast⟩ := records_reach algn records [] []
  obtain ⟨fuel, hrun⟩ := hlast.run_eq rfl
  exact ⟨fuel, congrArg (Option.map State.taskContent) hrun⟩

theorem oparseTaskfile_eq {fuel : ℕ} {algn text : Text} {records : List Text}
    (h : oparseTaskfile fuel ⟨records, false⟩ algn = some text) :
    text = records.flatMap (fun record => "\n".toList ++ taskText algn record) := by
  obtain ⟨last, hlast⟩ := records_reach algn records [] []
  obtain ⟨more, hmore⟩ := hlast.run_eq rfl
  obtain ⟨s, hs, rfl⟩ := Option.map_eq_some_iff.mp h
  rw [run_deterministic hs hmore]
  rfl

end YuToolbox.TaskFile
