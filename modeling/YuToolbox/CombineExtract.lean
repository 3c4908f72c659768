import YuToolbox.StepRuns
import YuToolbox.AwkInput

/-! `combine_extract.awk`, one rule of the script after the other. The loop over the
notify block reads the main input with a plain `getline`, so the script is a step
function: each step handles one record or one pass of that loop. -/
namespace YuToolbox.CombineExtract

open Awk

/-- The tags the script's regular expressions look for, and the closing tag it prints. -/
inductive Tag
  | job | whiteboard | notify | notifyEnd | recipeSet | recipeSetEnd | jobEnd
  deriving DecidableEq

def Tag.literal : Tag → Text
  | .job => "<job".toList
  | .whiteboard => "<whiteboard".toList
  | .notify => "<notify>".toList
  | .notifyEnd => "</notify>".toList
  | .recipeSet => "<recipeSet>".toList
  | .recipeSetEnd => "</recipeSet>".toList
  | .jobEnd => "</job>".toList

def has (tag : Tag) (line : Text) : Bool := matchesLiteral tag.literal line

inductive Control
  | records | notifyLoop | ended
  deriving DecidableEq

structure Vars where
  jobStart : Bool
  whiteBoard : Bool
  mailCc : Bool
  currPos : ℕ
  tPos : ℕ
  l : Text
  out : List Text
  deriving DecidableEq

structure State extends Vars where
  input : Input
  control : Control
  headRange : Bool
  notifyRange : Bool
  recipeRange : Bool
  deriving DecidableEq

/-- BEGIN: an unset `t_pos` counts as 0. -/
def beginVars (tPos : Option ℕ) : Vars where
  jobStart := false
  whiteBoard := false
  mailCc := false
  currPos := 0
  tPos := tPos.getD 0
  l := []
  out := []

def ready (input : Input) (v : Vars) : State :=
  { v with input, control := .records, headRange := false, notifyRange := false,
           recipeRange := false }

def print (line : Text) (s : State) : State := { s with out := s.out ++ [line] }

/-- `getline l`: at the end of all input the variable keeps its value. -/
def getlineL (s : State) : State :=
  match getline s.input with
  | some (record, input) => { s with l := record, input := input }
  | none => s

/-- The body of the rule `/<job.*/, /<whiteboard.*/`. Every path of it ends in `next`. -/
def headBody (record : Text) (s : State) : State :=
  if !s.jobStart && has .job record then
    print record { s with jobStart := true }
  else if !s.whiteBoard && has .whiteboard record then
    print record { s with whiteBoard := true }
  else if has .notify record && !s.mailCc then
    -- the first line behind the tag is printed before the loop tests it
    let s := getlineL (print record s)
    print s.l { s with control := .notifyLoop }
  else s

/-- The rule `/<notify>/, /<\/notify>/`. -/
def notifyRule (record : Text) (s : State) : State :=
  if rangeFires s.notifyRange (has .notify record) then
    let s := { s with
      notifyRange := rangeAfter s.notifyRange (has .notify record) (has .notifyEnd record) }
    let s := if s.mailCc then s else print record s
    if has .notifyEnd record then { s with mailCc := true } else s
  else s

/-- The rule `/<recipeSet>/, /<\/recipeSet>/`. -/
def recipeRule (record : Text) (s : State) : State :=
  if rangeFires s.recipeRange (has .recipeSet record) then
    let s := { s with
      recipeRange := rangeAfter s.recipeRange (has .recipeSet record) (has .recipeSetEnd record) }
    let s := if s.currPos = s.tPos then print record s else s
    if has .recipeSetEnd record then
      let s := { s with currPos := s.currPos+1 }
      -- the only place that sets the counter back
      if s.currPos > s.tPos then
        { s with currPos := 0, input := nextfile s.input }
      else s
    else s
  else s

def rules (record : Text) (s : State) : State :=
  if rangeFires s.headRange (has .job record) then
    headBody record { s with
      headRange := rangeAfter s.headRange (has .job record) (has .whiteboard record) }
  else
    -- both of these rules see the record, in this order
    recipeRule record (notifyRule record s)

/-- One record, one pass of the notify loop, one file boundary, or END. -/
def step (s : State) : Option State :=
  match s.control with
  | .ended => none
  | .notifyLoop =>
    -- at the end of all input `l` keeps its value and the loop goes on for ever
    if has .notifyEnd s.l then some { s with mailCc := true, control := .records }
    else
      let s := getlineL s
      some (print s.l s)
  | .records =>
    match s.input with
    | [] => some (print "</job>".toList { s with control := .ended })
    | [] :: files => some { s with input := files }
    | (record :: records) :: files => some (rules record { s with input := records :: files })

/-- What `awk -v t_pos=... -f combine_extract.awk files` prints, when the fuel is enough. -/
def combineExtract (fuel : ℕ) (tPos : Option ℕ) (files : Input) : Option (List Text) :=
  (StepRuns.run step fuel (ready files (beginVars tPos))).map (fun s => s.out)

end YuToolbox.CombineExtract
