import YuToolbox.TaskFile
import YuToolbox.XmlReader

/-! The task elements that `oparse_taskfile` writes, read back as XML. Names and values are
written as they are, so that reading decodes each of them once. -/
namespace YuToolbox.TaskFile

open Awk

structure Task where
  name : Text
  params : List (Text × Text)
  deriving DecidableEq

def paramLine (algn : Text) (p : Text × Text) : Text :=
  "\n".toList ++ getparam p.1 p.2 ("\t\t\t\t\t".toList ++ algn)

/-- A task without a fetch node, with the line break before it. -/
def taskElement (algn : Text) (t : Task) : Text :=
  "\n".toList ++ gettask t.name (t.params.flatMap (paramLine algn)) [] ("\t\t\t".toList ++ algn)

def readParam (node : Xml.Node) : Option (Text × Text) :=
  if node.name = "param".toList then do
    let name ← node.attr "name".toList
    let value ← node.attr "value".toList
    some (name, value)
  else none

/-- The task that a `task` element stands for: its parameters are those of its `params`. -/
def readTask (node : Xml.Node) : Option Task :=
  if node.name = "task".toList then do
    let name ← node.attr "name".toList
    let lists := node.children.filter (·.name = "params".toList)
    let params ← (lists.flatMap Xml.Node.children).mapM readParam
    some ⟨name, params⟩
  else none

def readTasks (text : Text) : Option (List Task) :=
  (Xml.read text).bind (fun nodes => nodes.mapM readTask)

def decodeParam (p : Text × Text) : Option (Text × Text) :=
  (Xml.decode p.1).bind (fun name => (Xml.decode p.2).map (fun value => (name, value)))

def decodeTask (t : Task) : Option Task :=
  (Xml.decode t.name).bind (fun name =>
    (t.params.mapM decodeParam).map (fun params => ⟨name, params⟩))

def Task.Quotable (t : Task) : Prop :=
  '"' ∉ t.name ∧ ∀ p ∈ t.params, '"' ∉ p.1 ∧ '"' ∉ p.2

def rawParam (p : Text × Text) : Xml.RawTag :=
  ⟨[("param name=".toList, p.1), (" value=".toList, p.2)], "/".toList⟩

def rawParams (params : List (Text × Text)) : List Xml.RawTag :=
  if params.isEmpty then [⟨[], "params/".toList⟩]
  else ⟨[], "params".toList⟩ :: params.map rawParam ++ [⟨[], "/params".toList⟩]

def openTask (name : Text) : Xml.RawTag :=
  ⟨[("task name=".toList, name), (" role=".toList, "STANDALONE".toList)], []⟩

def rawTask (t : Task) : List Xml.RawTag :=
  openTask t.name :: rawParams t.params ++ [⟨[], "/task".toList⟩]

def paramTag (p : Text × Text) : Xml.Tag :=
  .empty "param".toList [("name".toList, p.1), ("value".toList, p.2)]

def paramsTags (params : List (Text × Text)) : List Xml.Tag :=
  if params.isEmpty then [.empty "params".toList []]
  else .start "params".toList [] :: params.map paramTag ++ [.stop "params".toList]

def taskTags (t : Task) : List Xml.Tag :=
  .start "task".toList [("name".toList, t.name), ("role".toList, "STANDALONE".toList)] ::
    paramsTags t.params ++ [.stop "task".toList]

def paramNode (p : Text × Text) : Xml.Node :=
  .element "param".toList [("name".toList, p.1), ("value".toList, p.2)] []

def taskNode (t : Task) : Xml.Node :=
  .element "task".toList [("name".toList, t.name), ("role".toList, "STANDALONE".toList)]
    [.element "params".toList [] (t.params.map paramNode)]

section Traverse

variable {α β γ : Type*}

theorem mapM_cons_eq_some_iff (f : α → Option β) (x : α) (xs : List α) (y : β) (ys : List β) :
    (x :: xs).mapM f = some (y :: ys) ↔ f x = some y ∧ xs.mapM f = some ys := by
  rw [List.mapM_cons]
  cases f x with
  | none => simp
  | some z => cases xs.mapM f <;> simp

theorem mapM_eq_none_of_mem {f : α → Option β} {xs : List α} {x : α} (hx : x ∈ xs)
    (h : f x = none) : xs.mapM f = none := by
  induction xs with
  | nil => cases hx
  | cons y ys ih =>
    rw [List.mapM_cons]
    rcases List.mem_cons.mp hx with rfl | hx
    · rw [h]
      rfl
    · rw [ih hx]
      cases f y <;> rfl

theorem length_of_mapM_eq_some {f : α → Option β} {xs : List α} {ys : List β}
    (h : xs.mapM f = some ys) : ys.length = xs.length := by
  induction xs generalizing ys with
  | nil =>
    obtain rfl := Option.some.inj h
    rfl
  | cons x xs ih =>
    cases ys with
    | nil =>
      rw [List.mapM_cons] at h
      cases hx : f x <;> cases hxs : xs.mapM f <;> simp [hx, hxs] at h
    | cons y ys =>
      rw [List.length_cons, List.length_cons, ih ((mapM_cons_eq_some_iff f x xs y ys).mp h).2]

/-- A list is traversed to given values exactly if each of its elements is. -/
theorem mapM_map_eq_some_iff (f : β → Option γ) (g : α → β) (h : α → γ) (xs : List α) :
    (xs.map g).mapM f = some (xs.map h) ↔ ∀ x ∈ xs, f (g x) = some (h x) := by
  induction xs with
  | nil => simp
  | cons x xs ih =>
    rw [List.map_cons, List.map_cons, mapM_cons_eq_some_iff, ih, List.forall_mem_cons]

/-- Where each part is traversed to what its value stands for, the whole is. -/
theorem mapM_flatMap {δ : Type*} {f : β → Option γ} {g : α → List β} {d : α → Option δ}
    {k : δ → List γ} (h : ∀ x, (g x).mapM f = (d x).map k) (xs : List α) :
    (xs.flatMap g).mapM f = (xs.mapM d).map (fun ys => ys.flatMap k) := by
  induction xs with
  | nil => rfl
  | cons x xs ih =>
    rw [List.flatMap_cons, List.mapM_append, h, ih, List.mapM_cons]
    cases d x with
    | none => rfl
    | some y => cases xs.mapM d <;> rfl

end Traverse

section Tags

theorem tagOf_rawParam (p : Text × Text) :
    Xml.tagOf (rawParam p) = (decodeParam p).map paramTag := by
  simp only [rawParam, decodeParam, Xml.tagOf, Xml.attrsOf]
  cases Xml.decode p.1 with
  | none => rfl
  | some name => cases Xml.decode p.2 <;> rfl

theorem tagOf_openTask (name : Text) :
    Xml.tagOf (openTask name) = (Xml.decode name).map (fun name => .start "task".toList
      [("name".toList, name), ("role".toList, "STANDALONE".toList)]) := by
  simp only [openTask, Xml.tagOf, Xml.attrsOf]
  cases Xml.decode name <;> rfl

theorem mapM_rawParam (params : List (Text × Text)) :
    (params.map rawParam).mapM Xml.tagOf =
      (params.mapM decodeParam).map (fun params => params.map paramTag) := by
  have hparam (p : Text × Text) :
      [rawParam p].mapM Xml.tagOf = (decodeParam p).map (fun p => [paramTag p]) := by
    rw [List.mapM_cons, tagOf_rawParam]
    cases decodeParam p <;> rfl
  simp only [List.map_eq_flatMap]
  exact mapM_flatMap hparam params

theorem mapM_between {first last : Xml.RawTag} {start stop : Xml.Tag}
    (hfirst : Xml.tagOf first = some start) (hlast : Xml.tagOf last = some stop)
    (raws : List Xml.RawTag) :
    (first :: raws ++ [last]).mapM Xml.tagOf =
      (raws.mapM Xml.tagOf).map (fun tags => start :: tags ++ [stop]) := by
  rw [List.mapM_append, List.mapM_cons, hfirst, List.mapM_cons, hlast]
  cases raws.mapM Xml.tagOf <;> rfl

theorem mapM_rawParams (params : List (Text × Text)) :
    (rawParams params).mapM Xml.tagOf = (params.mapM decodeParam).map paramsTags := by
  cases params with
  | nil => rfl
  | cons p params =>
    have hstart : Xml.tagOf ⟨[], "params".toList⟩ = some (.start "params".toList []) := rfl
    have hstop : Xml.tagOf ⟨[], "/params".toList⟩ = some (.stop "params".toList) := rfl
    have htags := mapM_between hstart hstop ((p :: params).map rawParam)
    rw [mapM_rawParam, List.mapM_cons] at htags
    rw [rawParams, List.isEmpty_cons, if_neg Bool.false_ne_true, htags, List.mapM_cons]
    cases decodeParam p with
    | none => rfl
    | some p => cases params.mapM decodeParam <;> rfl

/-- The tags of a task element are those of the task as it is read. -/
theorem mapM_rawTask (t : Task) :
    (rawTask t).mapM Xml.tagOf = (decodeTask t).map taskTags := by
  rw [rawTask, decodeTask]
  cases hname : Xml.decode t.name with
  | none =>
    rw [List.cons_append, List.mapM_cons, tagOf_openTask, hname]
    rfl
  | some name =>
    have hstart := tagOf_openTask t.name
    rw [hname, Option.map_some] at hstart
    rw [mapM_between hstart rfl, mapM_rawParams]
    cases t.params.mapM decodeParam <;> rfl

theorem builds_taskTags (t : Task) : Xml.Builds (taskTags t) [taskNode t] := by
  apply Xml.Builds.element
  unfold paramsTags
  split
  · rename_i h
    rw [List.isEmpty_iff.mp h]
    apply Xml.Builds.empty
  · apply Xml.Builds.element
    rw [List.map_eq_flatMap]
    exact Xml.Builds.flatMap (fun p => Xml.Builds.empty _ _) t.params

theorem mapM_paramNode (params : List (Text × Text)) :
    (params.map paramNode).mapM readParam = some params := by
  have hparams := (mapM_map_eq_some_iff readParam paramNode id params).mpr (fun _ _ => rfl)
  rwa [List.map_id] at hparams

theorem readTask_taskNode (t : Task) : readTask (taskNode t) = some t := by
  have hparams := mapM_paramNode t.params
  have hread : readTask (taskNode t) =
      ((t.params.map paramNode ++ []).mapM readParam).bind
        (fun params => some ⟨t.name, params⟩) := rfl
  rw [hread, List.append_nil, hparams]
  rfl

theorem mapM_taskNode (tasks : List Task) : (tasks.map taskNode).mapM readTask = some tasks := by
  have htasks := (mapM_map_eq_some_iff readTask taskNode id tasks).mpr
    (fun t _ => readTask_taskNode t)
  rwa [List.map_id] at htasks

theorem mapM_rawTasks (tasks : List Task) : (tasks.flatMap rawTask).mapM Xml.tagOf =
    (tasks.mapM decodeTask).map (fun tasks => tasks.flatMap taskTags) :=
  mapM_flatMap mapM_rawTask tasks

end Tags

section Text

variable {algn : Text}

theorem lexes_param (h : Xml.Spaces algn) {p : Text × Text} (hp : '"' ∉ p.1 ∧ '"' ∉ p.2) :
    Xml.Lexes (paramLine algn p) [rawParam p] := by
  have htext : paramLine algn p = "\n\t\t\t\t\t".toList ++ algn ++ (rawParam p).text := by
    simp [paramLine, getparam, rawParam, Xml.RawTag.text]
  have hvalues : ∀ q ∈ (rawParam p).values, Xml.Unquoted q.1 ∧ '"' ∉ q.2 := by
    simp only [rawParam, List.forall_mem_cons]
    exact ⟨⟨by decide, hp.1⟩, ⟨by decide, hp.2⟩, by simp⟩
  have htail : Xml.Unquoted "/".toList := by decide
  have hindent : Xml.Spaces "\n\t\t\t\t\t".toList := by decide
  rw [htext]
  exact Xml.Lexes.spaces_append (hindent.append h) (Xml.Lexes.tag hvalues htail)

theorem lexes_paramLines (h : Xml.Spaces algn) {params : List (Text × Text)}
    (hp : ∀ p ∈ params, '"' ∉ p.1 ∧ '"' ∉ p.2) :
    Xml.Lexes (params.flatMap (paramLine algn)) (params.map rawParam) := by
  rw [List.map_eq_flatMap]
  exact Xml.Lexes.flatMap (fun p hmem => lexes_param h (hp p hmem))

theorem lexes_line {indent tail : Text} (h : Xml.Spaces indent) (htail : Xml.Unquoted tail) :
    Xml.Lexes (indent ++ Xml.RawTag.text ⟨[], tail⟩) [⟨[], tail⟩] :=
  Xml.Lexes.spaces_append h (Xml.Lexes.tag (fun _ hq => absurd hq List.not_mem_nil) htail)

def paramsText (algn : Text) (params : List (Text × Text)) : Text :=
  let indent := "\n\t\t\t".toList ++ algn ++ "\t".toList
  if params.isEmpty then indent ++ Xml.RawTag.text ⟨[], "params/".toList⟩
  else indent ++ Xml.RawTag.text ⟨[], "params".toList⟩ ++ params.flatMap (paramLine algn) ++
    (indent ++ Xml.RawTag.text ⟨[], "/params".toList⟩)

theorem lexes_paramsText (h : Xml.Spaces algn) {params : List (Text × Text)}
    (hp : ∀ p ∈ params, '"' ∉ p.1 ∧ '"' ∉ p.2) :
    Xml.Lexes (paramsText algn params) (rawParams params) := by
  have hindent : Xml.Spaces ("\n\t\t\t".toList ++ algn ++ "\t".toList) :=
    Xml.Spaces.append (Xml.Spaces.append (by decide) h) (by decide)
  unfold paramsText rawParams
  split
  · exact lexes_line hindent (by decide)
  · exact ((lexes_line hindent (by decide)).append (lexes_paramLines h hp)).append
      (lexes_line hindent (by decide))

theorem taskElement_eq (algn : Text) (t : Task) : taskElement algn t =
    "\n\t\t\t".toList ++ algn ++ (openTask t.name).text ++ paramsText algn t.params ++
      ("\n\t\t\t".toList ++ algn ++ Xml.RawTag.text ⟨[], "/task".toList⟩) := by
  obtain ⟨name, params⟩ := t
  cases params with
  | nil => simp [taskElement, gettask, paramsText, openTask, Xml.RawTag.text]
  | cons p params =>
    have hpos : 0 < ((p :: params).flatMap (paramLine algn)).length := by
      rw [List.flatMap_cons, List.length_append, paramLine, List.length_append]
      exact Nat.lt_of_lt_of_le (by decide)
        (Nat.le_trans (Nat.le_add_right ("\n".toList).length _) (Nat.le_add_right _ _))
    rw [taskElement, gettask, if_pos hpos]
    simp [paramsText, openTask, Xml.RawTag.text]

theorem lexes_openTask (h : Xml.Spaces algn) {name : Text} (hname : '"' ∉ name) :
    Xml.Lexes ("\n\t\t\t".toList ++ algn ++ (openTask name).text) [openTask name] := by
  have hindent : Xml.Spaces ("\n\t\t\t".toList ++ algn) := Xml.Spaces.append (by decide) h
  have hvalues : ∀ q ∈ (openTask name).values, Xml.Unquoted q.1 ∧ '"' ∉ q.2 := by
    simp only [openTask, List.forall_mem_cons]
    exact ⟨⟨by decide, hname⟩, ⟨by decide, by decide⟩, by simp⟩
  have htail : Xml.Unquoted [] := by decide
  exact Xml.Lexes.spaces_append hindent (Xml.Lexes.tag hvalues htail)

theorem lexes_taskElement (h : Xml.Spaces algn) {t : Task} (ht : t.Quotable) :
    Xml.Lexes (taskElement algn t) (rawTask t) := by
  have hindent : Xml.Spaces ("\n\t\t\t".toList ++ algn) := Xml.Spaces.append (by decide) h
  rw [taskElement_eq]
  exact ((lexes_openTask h ht.1).append (lexes_paramsText h ht.2)).append
    (lexes_line hindent (by decide))

/-- The task elements are read as the tasks they were written from, with every name and
value read once as an attribute. -/
theorem readTasks_taskElements (h : Xml.Spaces algn) {tasks : List Task}
    (ht : ∀ t ∈ tasks, t.Quotable) :
    readTasks (tasks.flatMap (taskElement algn)) = tasks.mapM decodeTask := by
  have hlex : Xml.Lexes (tasks.flatMap (taskElement algn)) (tasks.flatMap rawTask) :=
    Xml.Lexes.flatMap (fun t hmem => lexes_taskElement h (ht t hmem))
  have htags := hlex []
  rw [List.append_nil] at htags
  rw [readTasks, Xml.read, htags]
  simp only [Xml.lex, Option.map_some, List.append_nil, Option.bind_eq_bind, Option.bind_some,
    mapM_rawTasks]
  cases tasks.mapM decodeTask with
  | none => rfl
  | some tasks =>
    have hbuild := (Xml.Builds.flatMap builds_taskTags tasks) [] [] []
    rw [List.append_nil] at hbuild
    rw [Option.map_some, Option.bind_some, hbuild]
    exact mapM_taskNode tasks

end Text

end YuToolbox.TaskFile
