import YuToolbox.AwkInput
import YuToolbox.TaskFileEnds
import YuToolbox.TaskFileRoundTrip
import YuToolbox.XmlInsert

/-! `awk.awk` on a job file: the tasks are printed in front of every line with the end tag. Read as
XML, they are new last children of the elements of that name. -/
namespace YuToolbox.TaskJob

open Awk TaskFile

/-- `reg`, for a tag whose only operator is `|`: the alternatives of the expression, without the
`.*` at its ends. -/
def reg (tag : Text) : List Text := ("</".toList ++ tag ++ ">".toList).splitOn '|'

def matchesReg (tag record : Text) : Bool := (reg tag).any (matchesLiteral · record)

/-- Both rules. -/
def rules (tag tasks record : Text) : Text :=
  -- the first one leaves with `next`
  if matchesReg tag record then printLine tasks ++ printLine record else printLine record

/-- The whole script, on the files named on its command line. -/
def awkAwk (fuel : ℕ) (fs : TaskGlobals.FileSystem) (eFile eTag : Text) (input : Input) :
    Option Text :=
  (TaskGlobals.tasks fuel fs eFile eTag).map
    (fun tasks => input.flatten.flatMap (rules eTag tasks))

/-- An XML name that stands for itself in a regular expression. -/
def Plain (tag : Text) : Prop := Xml.isName tag = true ∧ '.' ∉ tag

instance (tag : Text) : Decidable (Plain tag) := instDecidableAnd

section Rules

variable {tag : Text}

theorem bar_not_mem (h : Plain tag) : '|' ∉ "</".toList ++ tag ++ ">".toList := by
  have htag : '|' ∉ tag := fun hmem => absurd (Xml.isNameChar_of_mem h.1 hmem) (by decide)
  simp [htag]

theorem matchesReg_iff (h : Plain tag) (record : Text) :
    matchesReg tag record = true ↔ "</".toList ++ tag ++ ">".toList <:+: record := by
  rw [matchesReg, reg, List.splitOn_eq_singleton (bar_not_mem h), List.any_cons, List.any_nil,
    Bool.or_false, matchesLiteral_iff]

theorem flatMap_rules (h : Plain tag) (tasks : Text) (records : List Text) :
    records.flatMap (rules tag tasks) = Xml.insertLines tag tasks records := by
  unfold Xml.insertLines
  apply List.flatMap_congr
  intro record _
  by_cases hin : "</".toList ++ tag ++ ">".toList <:+: record
  · rw [if_pos hin, rules, if_pos ((matchesReg_iff h record).mpr hin), printLine, printLine,
      List.append_assoc]
    rfl
  · rw [if_neg hin, rules, if_neg (fun hreg => hin ((matchesReg_iff h record).mp hreg)), printLine]
    rfl

end Rules

/-- What `BEGIN` makes of a task file. -/
def tasksText (tag : Text) (lines : List TaskLine) : Text :=
  (lines.map TaskLine.parsed).flatMap (taskElement (aligin tag))

theorem tasks_eq {fs : TaskGlobals.FileSystem} {eFile : Text} {lines : List TaskLine}
    (h : fs.file eFile = ⟨lines.map TaskLine.text, false⟩) (tag : Text) :
    ∃ fuel, TaskGlobals.tasks fuel fs eFile tag = some (tasksText tag lines) := by
  obtain ⟨fuel, hrun⟩ := oparseTaskfile_readable (aligin tag) (lines.map TaskLine.text)
  refine ⟨fuel, ?_⟩
  rw [TaskGlobals.tasks, h, TaskGlobals.oparseTaskfile_fresh, hrun, oparseTaskfile_lines hrun]
  rfl

/-- The tasks are elements, the ones that the lines of the task file stand for. -/
theorem builds_tasksText {lines : List TaskLine} (h : ∀ l ∈ lines, l.Faithful) (tag : Text) :
    ∃ raws tags, Xml.Lexes (tasksText tag lines) raws ∧ raws.mapM Xml.tagOf = some tags ∧
      Xml.Builds tags (lines.map (fun l => taskNode l.task)) := by
  have hquotable : ∀ t ∈ lines.map TaskLine.parsed, t.Quotable := by
    intro t ht
    obtain ⟨l, -, rfl⟩ := List.mem_map.mp ht
    exact l.parsed_quotable
  have hdecode : (lines.map TaskLine.parsed).mapM decodeTask = some (lines.map TaskLine.task) :=
    (mapM_map_eq_some_iff _ _ _ _).mpr (fun l hl => l.decode_parsed_iff.mpr (h l hl))
  have hlex : Xml.Lexes (tasksText tag lines) ((lines.map TaskLine.parsed).flatMap rawTask) :=
    Xml.Lexes.flatMap (fun t ht => lexes_taskElement (spaces_aligin tag) (hquotable t ht))
  have htags := mapM_rawTasks (lines.map TaskLine.parsed)
  rw [hdecode, Option.map_some] at htags
  refine ⟨_, _, hlex, htags, ?_⟩
  have hbuild := Xml.Builds.flatMap builds_taskTags (lines.map TaskLine.task)
  rwa [List.map_map] at hbuild

/-- In a job of whole tags, whose end tags of the name each begin their line, the script gives every
element of the name the tasks of a faithful task file as its last children, in the order of the
lines, and changes nothing else; a job that cannot be read stays so. -/
theorem awkAwk_read {tag : Text} (htag : Plain tag) {input : Input}
    (hinput : ∀ record ∈ input.flatten, Xml.Laid tag record) {lines : List TaskLine}
    (hlines : ∀ l ∈ lines, l.Faithful) {fs : TaskGlobals.FileSystem} {eFile : Text}
    (hfile : fs.file eFile = ⟨lines.map TaskLine.text, false⟩) :
    ∃ output, (∃ fuel, awkAwk fuel fs eFile tag input = some output) ∧
      Xml.read output = (Xml.read (input.flatten.flatMap printLine)).map
        (Xml.appendToAll tag (lines.map (fun l => taskNode l.task))) := by
  obtain ⟨fuel, htasks⟩ := tasks_eq hfile tag
  obtain ⟨raws, tags, hlex, hread, hbuild⟩ := builds_tasksText hlines tag
  refine ⟨_, ⟨fuel, by rw [awkAwk, htasks, Option.map_some, flatMap_rules htag]⟩, ?_⟩
  exact Xml.read_insertLines hinput htag.1 hlex hread hbuild

theorem sampleKey_free : ∀ c ∈ "a".toList, c ≠ '=' ∧ c ≠ '"' ∧ isBlank c = false := by
  simp [isBlank]

theorem sampleValue_free :
    ∀ c ∈ "b".toList, c ≠ '"' ∧ c ≠ '\n' ∧ c ≠ '&' ∧ c ≠ '<' ∧ c ≠ '>' := by
  simp

def sampleField : Field :=
  ⟨"a".toList, "b".toList, List.cons_ne_nil _ _, sampleKey_free, sampleValue_free⟩

theorem sampleName_free : ∀ c ∈ "/t".toList, c ≠ '"' ∧ c ≠ '=' ∧ isBlank c = false := by
  simp [isBlank]

theorem sample_no_fetch :
    ¬ "fetch_url".toList <:+: lineText [sampleField] "/t".toList := by
  decide

def sampleLine : TaskLine := ⟨[sampleField], "/t".toList, sampleName_free, sample_no_fetch⟩

def sampleFiles : TaskGlobals.FileSystem where
  file name := if name.isEmpty then ⟨[], true⟩ else ⟨[sampleLine.text], false⟩
  nameless := rfl

theorem sampleLine_faithful : ∀ l ∈ [sampleLine], l.Faithful := by
  intro l hl
  obtain rfl := List.mem_singleton.mp hl
  have hfields : ∀ f ∈ sampleLine.fields, f.key = "a".toList ∧ f.value = "b".toList := by
    simp [sampleLine, sampleField]
  refine ⟨fun f hf => ?_, List.all_eq_true.mp rfl⟩
  obtain ⟨hkey, hvalue⟩ := hfields f hf
  rw [Field.Uncut, hkey, hvalue]
  exact ⟨by decide, List.all_eq_true.mp rfl, List.all_eq_true.mp rfl⟩

def sampleJob : Input := [["<job>".toList, "<recipe>".toList, "</recipe>".toList, "</job>".toList]]

theorem sampleJob_laid (tag : Text) :
    ∀ record ∈ sampleJob.flatten, '\n' ∉ record ∧ Xml.Laid tag record := by
  have hnone : ∀ p ∈ ([] : List (Text × Text)), Xml.Unquoted p.1 ∧ '"' ∉ p.2 := by simp
  have hblank : Xml.Spaces [] := List.forall_mem_nil _
  have hstop (name : Text) (hname : Xml.isName name = true) :
      Xml.Laid tag (Xml.stopTag name).text := by
    have hfree : Xml.Unquoted ('/' :: name) :=
      List.forall_mem_cons.mpr ⟨by decide, Xml.unquoted_of_isName hname⟩
    apply Xml.Laid.single hblank hnone hfree (Xml.tagOf_stopTag hname) rfl
    intro heq
    rw [← beq_iff_eq.mp heq]
  have hstart (name : Text) (hfree : Xml.Unquoted name)
      (htag : Xml.tagOf ⟨[], name⟩ = some (.start name [])) :
      Xml.Laid tag (Xml.RawTag.text ⟨[], name⟩) :=
    Xml.Laid.single hblank hnone hfree htag rfl (fun h => absurd h Bool.false_ne_true)
  intro record hrecord
  have hmem : record = "<job>".toList ∨ record = "<recipe>".toList ∨ record = "</recipe>".toList ∨
      record = "</job>".toList := by
    simpa [sampleJob] using hrecord
  rcases hmem with rfl | rfl | rfl | rfl
  · exact ⟨by decide, hstart "job".toList (by decide) rfl⟩
  · exact ⟨by decide, hstart "recipe".toList (by decide) rfl⟩
  · exact ⟨by decide, hstop "recipe".toList (by decide)⟩
  · exact ⟨by decide, hstop "job".toList (by decide)⟩

theorem sampleJob_read : Xml.read (sampleJob.flatten.flatMap printLine) =
    some [.element "job".toList [] [.element "recipe".toList [] []]] := rfl

theorem sampleFiles_file {name : Text} (h : name.isEmpty = false) :
    sampleFiles.file name = ⟨[sampleLine].map TaskLine.text, false⟩ := by
  simp only [sampleFiles, h, Bool.false_eq_true, if_false, List.map_cons, List.map_nil]

theorem awkAwk_read_sample : ∃ output,
    (∃ fuel, awkAwk fuel sampleFiles "tasks".toList "recipe".toList sampleJob = some output) ∧
    Xml.read output = some [.element "job".toList []
      [.element "recipe".toList [] [taskNode sampleLine.task]]] := by
  have hlaid := fun record h => (sampleJob_laid "recipe".toList record h).2
  have hfile := sampleFiles_file (show "tasks".toList.isEmpty = false from rfl)
  obtain ⟨output, hrun, hread⟩ := awkAwk_read (by decide) hlaid sampleLine_faithful hfile
  refine ⟨output, hrun, ?_⟩
  rw [hread, sampleJob_read]
  rfl

section Lines

theorem Field.params_of_uncut {f : Field} (h : f.Uncut) : f.params = [(f.key, f.value)] := by
  rw [f.params_cut h.2, takeWhile_equals.mp h.1]

theorem parsed_of_faithful {l : TaskLine} (h : l.Faithful) : l.parsed = l.task := by
  have hfields : l.fields.flatMap Field.params = l.fields.map (fun f => (f.key, f.value)) := by
    rw [List.map_eq_flatMap]
    apply List.flatMap_congr
    intro f hf
    exact Field.params_of_uncut (h.1 f hf).1
  rw [TaskLine.parsed, TaskLine.task, hfields]

def broken (lines : List Text) : Text := lines.flatMap (fun line => "\n".toList ++ line)

def paramsLines (algn : Text) (params : List (Text × Text)) : List Text :=
  let indent := "\t\t\t".toList ++ algn ++ "\t".toList
  if params.isEmpty then [indent ++ Xml.RawTag.text ⟨[], "params/".toList⟩]
  else (indent ++ Xml.RawTag.text ⟨[], "params".toList⟩) ::
    params.map (fun p => "\t\t\t\t\t".toList ++ algn ++ (rawParam p).text) ++
    [indent ++ Xml.RawTag.text ⟨[], "/params".toList⟩]

/-- The lines of a task element; each holds one tag. -/
def taskLines (algn : Text) (t : Task) : List Text :=
  ("\t\t\t".toList ++ algn ++ (openTask t.name).text) :: paramsLines algn t.params ++
    ["\t\t\t".toList ++ algn ++ Xml.RawTag.text ⟨[], "/task".toList⟩]

theorem broken_append (lines lines' : List Text) :
    broken (lines ++ lines') = broken lines ++ broken lines' := List.flatMap_append

theorem broken_paramsLines (algn : Text) (params : List (Text × Text)) :
    broken (paramsLines algn params) = paramsText algn params := by
  unfold paramsLines paramsText
  by_cases h : params.isEmpty = true
  · simp only [if_pos h]
    simp [broken]
  · have hparams : broken (params.map (fun p =>
        "\t\t\t\t\t".toList ++ algn ++ (rawParam p).text)) = params.flatMap (paramLine algn) := by
      rw [broken, List.flatMap_map]
      apply List.flatMap_congr
      intro p _
      simp [paramLine, getparam, rawParam, Xml.RawTag.text]
    simp only [if_neg h]
    rw [broken_append, broken, List.flatMap_cons, ← broken, hparams]
    simp [broken]

theorem broken_taskLines (algn : Text) (t : Task) :
    broken (taskLines algn t) = taskElement algn t := by
  rw [taskElement_eq, taskLines, broken_append, broken, List.flatMap_cons, ← broken,
    broken_paramsLines]
  simp [broken]

theorem printLine_broken (lines : List Text) :
    printLine (broken lines) = ([] :: lines).flatMap printLine := by
  induction lines with
  | nil => rfl
  | cons line lines ih =>
    have hrest : broken lines ++ "\n".toList = "\n".toList ++ lines.flatMap printLine := ih
    rw [broken, List.flatMap_cons, ← broken, printLine, List.append_assoc, hrest]
    simp [printLine]

/-- A task of one line of the task file: read as it stands, and on one line. -/
structure OneLine (t : Task) : Prop where
  quotable : t.Quotable
  decodes : decodeTask t = some t
  name_line : '\n' ∉ t.name
  params_line : ∀ p ∈ t.params, '\n' ∉ p.1 ∧ '\n' ∉ p.2

theorem oneLine_of_faithful {l : TaskLine} (h : l.Faithful) : OneLine l.task where
  quotable := parsed_of_faithful h ▸ l.parsed_quotable
  decodes := by
    have hdecode := l.decode_parsed_iff.mpr h
    rwa [parsed_of_faithful h] at hdecode
  name_line := fun hmem => absurd (l.name_free _ hmem).2.2 (by decide)
  params_line := by
    intro p hp
    obtain ⟨f, -, rfl⟩ := List.mem_map.mp hp
    constructor
    · exact fun hmem => absurd (f.key_free _ hmem).2.2 (by decide)
    · exact fun hmem => (f.value_free _ hmem).2.1 rfl

variable {algn : Text}

theorem mem_paramsLines {params : List (Text × Text)} {line : Text}
    (h : line ∈ paramsLines algn params) :
    (∃ tail ∈ ["params/".toList, "params".toList, "/params".toList],
      line = "\t\t\t".toList ++ algn ++ "\t".toList ++ Xml.RawTag.text ⟨[], tail⟩) ∨
    ∃ p ∈ params, line = "\t\t\t\t\t".toList ++ algn ++ (rawParam p).text := by
  unfold paramsLines at h
  simp only at h
  split at h
  · exact Or.inl ⟨_, List.mem_cons_self, List.mem_singleton.mp h⟩
  · rcases List.mem_append.mp h with h | h
    · rcases List.mem_cons.mp h with rfl | h
      · exact Or.inl ⟨_, by simp, rfl⟩
      · obtain ⟨p, hp, rfl⟩ := List.mem_map.mp h
        exact Or.inr ⟨p, hp, rfl⟩
    · exact Or.inl ⟨_, by simp, List.mem_singleton.mp h⟩

theorem mem_taskLines {t : Task} {line : Text} (h : line ∈ taskLines algn t) :
    line = "\t\t\t".toList ++ algn ++ (openTask t.name).text ∨
      line ∈ paramsLines algn t.params ∨
      line = "\t\t\t".toList ++ algn ++ Xml.RawTag.text ⟨[], "/task".toList⟩ := by
  rcases List.mem_append.mp h with h | h
  · exact (List.mem_cons.mp h).imp_right Or.inl
  · exact Or.inr (Or.inr (List.mem_singleton.mp h))

theorem newline_not_mem_taskLines (h : '\n' ∉ algn) {t : Task} (ht : OneLine t) {line : Text}
    (hline : line ∈ taskLines algn t) : '\n' ∉ line := by
  rcases mem_taskLines hline with rfl | hline | rfl
  · simp [h, Xml.RawTag.text, openTask, ht.name_line]
  · rcases mem_paramsLines hline with ⟨tail, htail, rfl⟩ | ⟨p, hp, rfl⟩
    · have hfree : ∀ tail ∈ ["params/".toList, "params".toList, "/params".toList],
          '\n' ∉ tail := by decide
      simp [h, Xml.RawTag.text, hfree tail htail]
    · obtain ⟨hkey, hvalue⟩ := ht.params_line p hp
      simp [h, Xml.RawTag.text, rawParam, hkey, hvalue]
  · simp [h, Xml.RawTag.text]

theorem decodes_of_oneLine {t : Task} (h : OneLine t) :
    Xml.decode t.name = some t.name ∧ ∀ p ∈ t.params, decodeParam p = some p := by
  have hdecode := h.decodes
  rw [decodeTask] at hdecode
  obtain ⟨name, hname, hdecode⟩ := Option.bind_eq_some_iff.mp hdecode
  obtain ⟨params, hparams, hdecode⟩ := Option.map_eq_some_iff.mp hdecode
  obtain rfl : name = t.name := congrArg Task.name hdecode
  obtain rfl : params = t.params := congrArg Task.params hdecode
  refine ⟨hname, ?_⟩
  have hall := (mapM_map_eq_some_iff decodeParam id id t.params).mp (by simpa using hparams)
  exact hall

theorem laid_paramsLines (h : Xml.Spaces algn) {t : Task} (ht : OneLine t) {tag : Text}
    (hparams : tag ≠ "params".toList) (hparam : tag ≠ "param".toList) {line : Text}
    (hline : line ∈ paramsLines algn t.params) : Xml.Laid tag line := by
  have hname : ("params".toList == tag) = false := beq_eq_false_iff_ne.mpr (Ne.symm hparams)
  rcases mem_paramsLines hline with ⟨tail, htail, rfl⟩ | ⟨p, hp, rfl⟩
  · have hindent : Xml.Spaces ("\t\t\t".toList ++ algn ++ "\t".toList) :=
      Xml.Spaces.append (Xml.Spaces.append (by decide) h) (by decide)
    have hnone : ∀ p ∈ ([] : List (Text × Text)), Xml.Unquoted p.1 ∧ '"' ∉ p.2 := by simp
    have hfree : ∀ tail ∈ ["params/".toList, "params".toList, "/params".toList],
        Xml.Unquoted tail := by decide
    have htag : ∃ tg, Xml.tagOf ⟨[], tail⟩ = some tg ∧ tg.empties tag = false ∧
        tg.stops tag = false := by
      rw [List.mem_cons, List.mem_cons, List.mem_singleton] at htail
      rcases htail with rfl | rfl | rfl
      · exact ⟨.empty "params".toList [], rfl, hname, rfl⟩
      · exact ⟨.start "params".toList [], rfl, rfl, rfl⟩
      · exact ⟨.stop "params".toList, rfl, rfl, hname⟩
    obtain ⟨tg, htg, hempty, hstop⟩ := htag
    apply Xml.Laid.single hindent hnone (hfree tail htail) htg hempty
    intro h
    rw [hstop] at h
    cases h
  · have hindent : Xml.Spaces ("\t\t\t\t\t".toList ++ algn) := Xml.Spaces.append (by decide) h
    obtain ⟨hkey, hvalue⟩ := ht.quotable.2 p hp
    have hvalues : ∀ q ∈ (rawParam p).values, Xml.Unquoted q.1 ∧ '"' ∉ q.2 := by
      simp only [rawParam, List.forall_mem_cons]
      exact ⟨⟨by decide, hkey⟩, ⟨by decide, hvalue⟩, by simp⟩
    have htail : Xml.Unquoted "/".toList := by decide
    have htag : Xml.tagOf (rawParam p) = some (paramTag p) := by
      rw [tagOf_rawParam, (decodes_of_oneLine ht).2 p hp]
      rfl
    exact Xml.Laid.single hindent hvalues htail htag
      (beq_eq_false_iff_ne.mpr (Ne.symm hparam)) (fun h => absurd h Bool.false_ne_true)

/-- The new lines are laid out for another pass, unless its tag is that of the parameters. -/
theorem laid_taskLines (h : Xml.Spaces algn) {t : Task} (ht : OneLine t) {tag : Text}
    (hparams : tag ≠ "params".toList) (hparam : tag ≠ "param".toList) {line : Text}
    (hline : line ∈ taskLines algn t) : Xml.Laid tag line := by
  have hindent : Xml.Spaces ("\t\t\t".toList ++ algn) := Xml.Spaces.append (by decide) h
  rcases mem_taskLines hline with rfl | hline | rfl
  · have hvalues : ∀ q ∈ (openTask t.name).values, Xml.Unquoted q.1 ∧ '"' ∉ q.2 := by
      simp only [openTask, List.forall_mem_cons]
      exact ⟨⟨by decide, ht.quotable.1⟩, ⟨by decide, by decide⟩, by simp⟩
    have htail : Xml.Unquoted [] := by decide
    have htag := tagOf_openTask t.name
    rw [(decodes_of_oneLine ht).1, Option.map_some] at htag
    exact Xml.Laid.single hindent hvalues htail htag rfl (fun h => absurd h Bool.false_ne_true)
  · exact laid_paramsLines h ht hparams hparam hline
  · have hnone : ∀ p ∈ ([] : List (Text × Text)), Xml.Unquoted p.1 ∧ '"' ∉ p.2 := by simp
    have htail : Xml.Unquoted "/task".toList := by decide
    have htag : Xml.tagOf ⟨[], "/task".toList⟩ = some (.stop "task".toList) := rfl
    apply Xml.Laid.single hindent hnone htail htag rfl
    intro hstop
    rw [← beq_iff_eq.mp hstop]
    rfl

/-- The records of the output of one pass. -/
def outRecords (tag : Text) (lines : List TaskLine) (record : Text) : List Text :=
  if "</".toList ++ tag ++ ">".toList <:+: record then
    ([] :: (lines.map TaskLine.task).flatMap (taskLines (aligin tag))) ++ [record]
  else [record]

theorem tasksText_broken {lines : List TaskLine} (h : ∀ l ∈ lines, l.Faithful) (tag : Text) :
    tasksText tag lines =
      broken ((lines.map TaskLine.task).flatMap (taskLines (aligin tag))) := by
  rw [tasksText, broken, List.flatMap_assoc, List.flatMap_map, List.flatMap_map]
  apply List.flatMap_congr
  intro l hl
  rw [parsed_of_faithful (h l hl), ← broken_taskLines, broken]

theorem rules_outRecords {tag : Text} (htag : Plain tag) {lines : List TaskLine}
    (h : ∀ l ∈ lines, l.Faithful) (record : Text) :
    rules tag (tasksText tag lines) record = (outRecords tag lines record).flatMap printLine := by
  unfold outRecords
  by_cases hin : "</".toList ++ tag ++ ">".toList <:+: record
  · rw [if_pos hin, rules, if_pos ((matchesReg_iff htag record).mpr hin), tasksText_broken h,
      printLine_broken, List.flatMap_append, List.flatMap_singleton]
  · rw [if_neg hin, rules, if_neg (fun hreg => hin ((matchesReg_iff htag record).mp hreg)),
      List.flatMap_singleton]

theorem newline_not_mem_aligin (tag : Text) : '\n' ∉ aligin tag := by
  unfold aligin
  split <;> decide

/-- What one pass prints is laid out for another one. -/
theorem outRecords_laid {tag tag' : Text} {lines : List TaskLine} (h : ∀ l ∈ lines, l.Faithful)
    (hparams : tag' ≠ "params".toList) (hparam : tag' ≠ "param".toList) {record : Text}
    (hrecord : '\n' ∉ record ∧ Xml.Laid tag' record) :
    ∀ line ∈ outRecords tag lines record, '\n' ∉ line ∧ Xml.Laid tag' line := by
  intro line hline
  unfold outRecords at hline
  split at hline
  · rcases List.mem_append.mp hline with hline | hline
    · rcases List.mem_cons.mp hline with rfl | hline
      · exact ⟨List.not_mem_nil, Xml.Laid.nil tag'⟩
      · obtain ⟨t, ht, hline⟩ := List.mem_flatMap.mp hline
        obtain ⟨l, hl, rfl⟩ := List.mem_map.mp ht
        have hone := oneLine_of_faithful (h l hl)
        exact ⟨newline_not_mem_taskLines (newline_not_mem_aligin tag) hone hline,
          laid_taskLines (spaces_aligin tag) hone hparams hparam hline⟩
    · rwa [List.mem_singleton.mp hline]
  · rwa [List.mem_singleton.mp hline]

end Lines

/-- A second pass over the output, with another task file and another tag, which is not one of those
that a task brings with it for its parameters, adds its tasks to those of the first. -/
theorem awkAwk_twice {tag tag' : Text} (htag : Plain tag) (htag' : Plain tag')
    (hparams : tag' ≠ "params".toList) (hparam : tag' ≠ "param".toList) {input : Input}
    (hinput : ∀ record ∈ input.flatten,
      '\n' ∉ record ∧ Xml.Laid tag record ∧ Xml.Laid tag' record)
    {lines lines' : List TaskLine} (hlines : ∀ l ∈ lines, l.Faithful)
    (hlines' : ∀ l ∈ lines', l.Faithful) {fs : TaskGlobals.FileSystem} {eFile eFile' : Text}
    (hfile : fs.file eFile = ⟨lines.map TaskLine.text, false⟩)
    (hfile' : fs.file eFile' = ⟨lines'.map TaskLine.text, false⟩) :
    ∃ output output', (∃ fuel, awkAwk fuel fs eFile tag input = some output) ∧
      (∃ fuel, awkAwk fuel fs eFile' tag' [records output] = some output') ∧
      Xml.read output' = (Xml.read (input.flatten.flatMap printLine)).map (fun nodes =>
        Xml.appendToAll tag' (lines'.map (fun l => taskNode l.task))
          (Xml.appendToAll tag (lines.map (fun l => taskNode l.task)) nodes)) := by
  obtain ⟨fuel, htasks⟩ := tasks_eq hfile tag
  obtain ⟨fuel', htasks'⟩ := tasks_eq hfile' tag'
  obtain ⟨raws, tags, hlex, hread, hbuild⟩ := builds_tasksText hlines tag
  obtain ⟨raws', tags', hlex', hread', hbuild'⟩ := builds_tasksText hlines' tag'
  let out := input.flatten.flatMap (outRecords tag lines)
  have hout : input.flatten.flatMap (rules tag (tasksText tag lines)) = out.flatMap printLine := by
    rw [List.flatMap_assoc]
    apply List.flatMap_congr
    intro record _
    exact rules_outRecords htag hlines record
  have hlaid : ∀ line ∈ out, '\n' ∉ line ∧ Xml.Laid tag' line := by
    intro line hline
    obtain ⟨record, hrecord, hline⟩ := List.mem_flatMap.mp hline
    obtain ⟨hnewline, -, hlaid⟩ := hinput record hrecord
    exact outRecords_laid hlines hparams hparam ⟨hnewline, hlaid⟩ line hline
  have hrecords : records (out.flatMap printLine) = out :=
    records_lines (fun line hline => (hlaid line hline).1)
  refine ⟨_, _, ⟨fuel, by rw [awkAwk, htasks, Option.map_some, hout]⟩,
    ⟨fuel', by rw [awkAwk, htasks', Option.map_some, hrecords]⟩, ?_⟩
  have hsecond := Xml.read_insertLines (fun line hline => (hlaid line hline).2) htag'.1 hlex'
    hread' hbuild'
  have hfirst := Xml.read_insertLines (fun record hrecord => (hinput record hrecord).2.1) htag.1
    hlex hread hbuild
  have hprint : out.flatMap (· ++ ['\n']) = Xml.insertLines tag (tasksText tag lines)
      input.flatten := by
    rw [← flatMap_rules htag, hout]
    rfl
  rw [hprint, hfirst, Option.map_map] at hsecond
  rw [List.flatten_cons, List.flatten_nil, List.append_nil, flatMap_rules htag', hsecond]
  rfl

theorem awkAwk_twice_sample : ∃ output output',
    (∃ fuel, awkAwk fuel sampleFiles "tasks".toList "recipe".toList sampleJob = some output) ∧
    (∃ fuel, awkAwk fuel sampleFiles "more".toList "job".toList [records output] =
      some output') ∧
    Xml.read output' = some [.element "job".toList []
      [.element "recipe".toList [] [taskNode sampleLine.task], taskNode sampleLine.task]] := by
  have hlaid : ∀ record ∈ sampleJob.flatten, '\n' ∉ record ∧
      Xml.Laid "recipe".toList record ∧ Xml.Laid "job".toList record := by
    intro record h
    have hrecipe := sampleJob_laid "recipe".toList record h
    have hjob := sampleJob_laid "job".toList record h
    exact ⟨hrecipe.1, hrecipe.2, hjob.2⟩
  have hfile := sampleFiles_file (show "tasks".toList.isEmpty = false from rfl)
  have hfile' := sampleFiles_file (show "more".toList.isEmpty = false from rfl)
  obtain ⟨output, output', hrun, hrun', hread⟩ := awkAwk_twice (by decide) (by decide) (by decide)
    (by decide) hlaid sampleLine_faithful sampleLine_faithful hfile hfile'
  refine ⟨output, output', hrun, hrun', ?_⟩
  rw [hread, sampleJob_read]
  rfl

end YuToolbox.TaskJob
