import Mathlib.Data.List.TakeWhile
import YuToolbox.TaskFileXml

/-! A task file of lines `K1="V1" … Kn="Vn" NAME` through `oparse_taskfile` and back. The
quotes and the equals sign are cut at by `split` wherever they stand, so a value with an
equals sign, or a space right behind its opening quote, comes back changed. -/
namespace YuToolbox.TaskFile

open Awk StepRuns

structure Field where
  key : Text
  value : Text
  key_ne : key ≠ []
  key_free : ∀ c ∈ key, c ≠ '=' ∧ c ≠ '"' ∧ isBlank c = false
  value_free : ∀ c ∈ value, c ≠ '"' ∧ c ≠ '\n' ∧ c ≠ '&' ∧ c ≠ '<' ∧ c ≠ '>'

def Field.text (f : Field) : Text := f.key ++ "=\"".toList ++ f.value ++ "\" ".toList

def lineText (fields : List Field) (name : Text) : Text := fields.flatMap Field.text ++ name

structure TaskLine where
  fields : List Field
  name : Text
  name_free : ∀ c ∈ name, c ≠ '"' ∧ c ≠ '=' ∧ isBlank c = false
  no_fetch : ¬ "fetch_url".toList <:+: lineText fields name

def TaskLine.text (l : TaskLine) : Text := lineText l.fields l.name

def TaskLine.task (l : TaskLine) : Task := ⟨l.name, l.fields.map (fun f => (f.key, f.value))⟩

/-- The value has no equals sign and no space in front. -/
def Field.Uncut (f : Field) : Prop := '=' ∉ f.value ∧ f.value.head? ≠ some ' '

/-- The line has only uncut values, and all its text stands for itself in XML. -/
def TaskLine.Faithful (l : TaskLine) : Prop :=
  (∀ f ∈ l.fields, f.Uncut ∧ (∀ c ∈ f.key, Xml.plain c = true) ∧
    ∀ c ∈ f.value, Xml.plain c = true) ∧ ∀ c ∈ l.name, Xml.plain c = true

def Field.pieces (f : Field) : List Text :=
  if f.value.head? = some ' ' then [f.key ++ ['='], f.value.tail]
  else [f.key ++ ['='] ++ ['"'] ++ f.value]

/-- The parameter that a piece without a fetch URL gives. -/
def pieceParam (pr : Text) : Option (Text × Text) :=
  let pr := pr.filter (· != '"')
  if matchesLiteral "=".toList pr then some (parseEquation pr true, parseEquation pr false)
  else none

def Field.params (f : Field) : List (Text × Text) := f.pieces.filterMap pieceParam

def TaskLine.parsed (l : TaskLine) : Task := ⟨l.name, l.fields.flatMap Field.params⟩

section Split

theorem Field.quote_not_mem_key (f : Field) : '"' ∉ f.key ++ ['='] := by
  rw [List.mem_append, List.mem_singleton]
  rintro (h | h)
  · exact (f.key_free _ h).2.1 rfl
  · exact absurd h (by decide)

theorem Field.quote_not_mem_value (f : Field) : '"' ∉ f.value :=
  fun h => (f.value_free _ h).1 rfl

/-- A quoted value without a space in front is one piece with its key. -/
theorem splitFrom_equation {key value : Text} (hkey : '"' ∉ key ++ ['=']) (hvalue : '"' ∉ value)
    (hspace : value.head? ≠ some ' ') (text : Text) :
    splitFrom "\" ".toList [] 0 (key ++ "=\"".toList ++ value ++ "\" ".toList ++ text) =
      (key ++ ['='] ++ ['"'] ++ value) :: splitFrom "\" ".toList [] 0 text := by
  have hq : ("\" ".toList).head? = some '"' := rfl
  have htext : key ++ "=\"".toList ++ value ++ "\" ".toList ++ text =
      (key ++ ['=']) ++ '"' :: (value ++ ("\" ".toList ++ text)) := by simp
  have hopen : ¬ "\" ".toList <+: '"' :: (value ++ ("\" ".toList ++ text)) := by
    intro h
    obtain ⟨-, h⟩ := List.cons_prefix_cons.mp h
    cases value with
    | nil => exact absurd (List.cons_prefix_cons.mp h).1 (by decide)
    | cons c v => exact hspace (congrArg some (List.cons_prefix_cons.mp h).1.symm)
  rw [htext, splitFrom_free hq hkey, List.nil_append, splitFrom_char hopen,
    splitFrom_free hq hvalue, splitFrom_sep (by decide)]

theorem splitFrom_field (f : Field) (text : Text) :
    splitFrom "\" ".toList [] 0 (f.text ++ text) =
      f.pieces ++ splitFrom "\" ".toList [] 0 text := by
  have hvalue := f.quote_not_mem_value
  rw [Field.pieces]
  split
  · rename_i hspace
    obtain ⟨v, hv⟩ := List.head?_eq_some_iff.mp hspace
    have hq : ("\" ".toList).head? = some '"' := rfl
    -- the opening quote and the space behind it are taken for the end of a field
    have htext : f.text ++ text =
        (f.key ++ ['=']) ++ ("\" ".toList ++ (v ++ ("\" ".toList ++ text))) := by
      simp [Field.text, hv]
    have hv' : '"' ∉ v := fun h => hvalue (hv ▸ List.mem_cons_of_mem ' ' h)
    rw [htext, splitFrom_free hq f.quote_not_mem_key, List.nil_append, splitFrom_sep (by decide),
      splitFrom_free hq hv', splitFrom_sep (by decide), hv]
    rfl
  · exact splitFrom_equation f.quote_not_mem_key hvalue ‹_› text

theorem splitFrom_line (fields : List Field) {name : Text} (h : '"' ∉ name) :
    splitFrom "\" ".toList [] 0 (lineText fields name) =
      fields.flatMap Field.pieces ++ [name] := by
  have hq : ("\" ".toList).head? = some '"' := rfl
  rw [lineText, splitFrom_flatMap (fun f _ => splitFrom_field f), splitFrom_whole hq h]

end Split

section Pieces

theorem filter_quote {text : Text} (h : '"' ∉ text) : text.filter (· != '"') = text := by
  apply List.filter_eq_self.mpr
  intro c hc
  rw [bne_iff_ne]
  rintro rfl
  exact h hc

/-- `split` cuts an equation at its first two equals signs. -/
theorem parseEquation_equation {key : Text} (h : '=' ∉ key) (value : Text) :
    parseEquation (key ++ '=' :: value) true = key ∧
      parseEquation (key ++ '=' :: value) false = value.takeWhile (· != '=') := by
  have hsplit : split "=".toList (key ++ '=' :: value) = key :: splitFrom ['='] [] 0 value := by
    have hne : (key ++ '=' :: value).isEmpty = false := by cases key <;> rfl
    have hq : ("=".toList).head? = some '=' := rfl
    have hsep := splitFrom_sep (List.cons_ne_nil '=' []) key value
    rw [split, hne, if_neg Bool.false_ne_true, splitFrom_free hq h, List.nil_append]
    exact hsep
  have hhead := splitFrom_singleton '=' [] value
  constructor
  · rw [parseEquation, hsplit]
    rfl
  · rw [parseEquation, hsplit]
    simp only [Bool.false_eq_true, if_false, List.getD_eq_getElem?_getD, List.getElem?_cons_succ,
      ← List.head?_eq_getElem?, hhead, Option.getD_some, List.nil_append]

theorem pieceParam_equation {pr key value : Text} (h : '=' ∉ key)
    (hpr : pr.filter (· != '"') = key ++ '=' :: value) :
    pieceParam pr = some (key, value.takeWhile (· != '=')) := by
  have hin : matchesLiteral "=".toList (key ++ '=' :: value) = true :=
    (matchesLiteral_iff _ _).mpr ⟨key, value, by simp⟩
  obtain ⟨hkey, hvalue⟩ := parseEquation_equation h value
  simp only [pieceParam, hpr, hin, if_true, hkey, hvalue]

theorem pieceParam_none {pr : Text} (h : '=' ∉ pr) : pieceParam pr = none := by
  have hin : matchesLiteral "=".toList (pr.filter (· != '"')) = false := by
    rw [Bool.eq_false_iff, ne_eq, matchesLiteral_iff]
    intro hin
    exact h (List.mem_filter.mp (hin.subset List.mem_cons_self)).1
  simp only [pieceParam, hin, Bool.false_eq_true, if_false]

theorem parseEquation_subset (line : Text) (isKey : Bool) : parseEquation line isKey ⊆ line := by
  have hget : ∀ i, (split "=".toList line).getD i [] ⊆ line := by
    intro i
    rw [List.getD_eq_getElem?_getD]
    cases hi : (split "=".toList line)[i]? with
    | none => exact List.nil_subset _
    | some x => exact (infix_of_mem_split (List.mem_of_getElem? hi)).subset
  cases isKey with
  | false => exact hget 1
  | true => exact hget 0

theorem quote_not_mem_pieceParam {pr : Text} {p : Text × Text} (h : pieceParam pr = some p) :
    '"' ∉ p.1 ∧ '"' ∉ p.2 := by
  have hquote : '"' ∉ pr.filter (· != '"') := by simp
  unfold pieceParam at h
  simp only at h
  split at h
  · obtain rfl := Option.some.inj h
    exact ⟨fun hp => hquote (parseEquation_subset _ true hp),
      fun hp => hquote (parseEquation_subset _ false hp)⟩
  · cases h

theorem piece_eq (algn : Text) {pr : Text} (h : ¬ "fetch_url".toList <:+: pr) (c : Collected) :
    piece algn c pr = { c with
      paramContent := c.paramContent ++ (pieceParam pr).toList.flatMap (paramLine algn) } := by
  have hfetch : matchesLiteral "fetch_url".toList pr = false := by
    rwa [Bool.eq_false_iff, ne_eq, matchesLiteral_iff]
  unfold piece pieceParam parseRestraint parseTaskparam
  simp only [hfetch, Bool.false_eq_true, if_false, List.length_nil, gt_iff_lt, Nat.lt_irrefl]
  split
  · have hpos : 0 < (getparam (parseEquation (pr.filter (· != '"')) true)
        (parseEquation (pr.filter (· != '"')) false) ("\t\t\t\t\t".toList ++ algn)).length := by
      simp [getparam]
    rw [if_pos hpos]
    simp [paramLine]
  · simp

theorem foldl_piece (algn : Text) {prs : List Text}
    (h : ∀ pr ∈ prs, ¬ "fetch_url".toList <:+: pr) (c : Collected) :
    prs.foldl (piece algn) c = { c with
      paramContent := c.paramContent ++ (prs.filterMap pieceParam).flatMap (paramLine algn) } := by
  induction prs generalizing c with
  | nil => simp
  | cons pr prs ih =>
    rw [List.foldl_cons, piece_eq algn (h pr List.mem_cons_self),
      ih (fun q hq => h q (List.mem_cons_of_mem pr hq))]
    cases hp : pieceParam pr <;> simp [hp]

end Pieces

section Lines

theorem TaskLine.quote_not_mem_name (l : TaskLine) : '"' ∉ l.name :=
  fun h => (l.name_free _ h).1 rfl

theorem TaskLine.pieceParam_name (l : TaskLine) : pieceParam l.name = none :=
  pieceParam_none (fun h => (l.name_free _ h).2.1 rfl)

theorem TaskLine.text_eq_nil {l : TaskLine} (h : l.text = []) : l.fields = [] ∧ l.name = [] := by
  obtain ⟨hfields, hname⟩ := List.append_eq_nil_iff.mp h
  refine ⟨?_, hname⟩
  apply List.eq_nil_iff_forall_not_mem.mpr
  intro f hf
  have hf := List.flatMap_eq_nil_iff.mp hfields f hf
  simp [Field.text] at hf

theorem TaskLine.filterMap_pieces (l : TaskLine) :
    (l.fields.flatMap Field.pieces ++ [l.name]).filterMap pieceParam = l.parsed.params := by
  rw [List.filterMap_append, List.filterMap_flatMap, List.filterMap_cons, l.pieceParam_name,
    List.filterMap_nil, List.append_nil]
  rfl

/-- What is cut out of a line: its name comes last, the rest gives its parameters, and
nothing is a fetch URL. -/
theorem TaskLine.split_text (l : TaskLine) :
    (split "\" ".toList l.text).getLastD [] = l.name ∧
      (split "\" ".toList l.text).filterMap pieceParam = l.parsed.params ∧
      ∀ pr ∈ split "\" ".toList l.text, ¬ "fetch_url".toList <:+: pr := by
  have hfetch : ∀ pr ∈ split "\" ".toList l.text, ¬ "fetch_url".toList <:+: pr :=
    fun pr hpr hin => l.no_fetch (hin.trans (infix_of_mem_split hpr))
  -- the empty line has no pieces, and an empty name
  by_cases hnil : l.text = []
  · obtain ⟨hfields, hname⟩ := TaskLine.text_eq_nil hnil
    have hsplit : split "\" ".toList l.text = [] := by rw [hnil]; rfl
    refine ⟨?_, ?_, hfetch⟩
    · rw [hsplit, hname]
      rfl
    · rw [hsplit, TaskLine.parsed, hfields]
      rfl
  · have hsplit : split "\" ".toList l.text = l.fields.flatMap Field.pieces ++ [l.name] := by
      rw [split, if_neg (by rwa [List.isEmpty_iff])]
      exact splitFrom_line l.fields l.quote_not_mem_name
    refine ⟨?_, ?_, hfetch⟩
    · rw [hsplit, List.getLastD_concat]
    · rw [hsplit, l.filterMap_pieces]

theorem TaskLine.taskText_eq (l : TaskLine) (algn : Text) :
    "\n".toList ++ taskText algn l.text = taskElement algn l.parsed := by
  obtain ⟨hname, hparams, hfetch⟩ := l.split_text
  let params := l.parsed.params.flatMap (paramLine algn)
  have hcollected : (split "\" ".toList l.text).foldl (piece algn) ⟨[], []⟩ = ⟨params, []⟩ := by
    rw [foldl_piece algn hfetch, hparams]
    rfl
  calc "\n".toList ++ taskText algn l.text
      = "\n".toList ++ gettask l.name params [] ("\t\t\t".toList ++ algn) := by
        simp only [taskText, hcollected, hname]
    _ = taskElement algn l.parsed := rfl

theorem TaskLine.parsed_quotable (l : TaskLine) : l.parsed.Quotable := by
  refine ⟨l.quote_not_mem_name, fun p hp => ?_⟩
  obtain ⟨f, -, hf⟩ := List.mem_flatMap.mp hp
  obtain ⟨pr, -, hpr⟩ := List.mem_filterMap.mp hf
  exact quote_not_mem_pieceParam hpr

end Lines

section Fields

theorem Field.equals_not_mem_key (f : Field) : '=' ∉ f.key := fun h => (f.key_free _ h).1 rfl

theorem Field.filter_key (f : Field) : f.key.filter (· != '"') = f.key :=
  filter_quote (fun h => (f.key_free _ h).2.1 rfl)

theorem Field.params_space (f : Field) (h : f.value.head? = some ' ') :
    ∃ more, f.params = (f.key, []) :: more := by
  have hpiece : pieceParam (f.key ++ ['=']) = some (f.key, []) := by
    have hpr : (f.key ++ ['=']).filter (· != '"') = f.key ++ '=' :: [] := by
      rw [List.filter_append, f.filter_key]
      rfl
    exact pieceParam_equation f.equals_not_mem_key hpr
  rw [Field.params, Field.pieces, if_pos h, List.filterMap_cons_some hpiece]
  exact ⟨_, rfl⟩

theorem Field.params_cut (f : Field) (h : f.value.head? ≠ some ' ') :
    f.params = [(f.key, f.value.takeWhile (· != '='))] := by
  have hpiece : pieceParam (f.key ++ ['='] ++ ['"'] ++ f.value) =
      some (f.key, f.value.takeWhile (· != '=')) := by
    apply pieceParam_equation f.equals_not_mem_key
    rw [List.filter_append, List.filter_append, List.filter_append, f.filter_key,
      filter_quote f.quote_not_mem_value]
    simp
  rw [Field.params, Field.pieces, if_neg h, List.filterMap_cons_some hpiece]
  rfl

theorem Field.exists_params (f : Field) : ∃ value more, f.params = (f.key, value) :: more := by
  by_cases h : f.value.head? = some ' '
  · obtain ⟨more, hmore⟩ := f.params_space h
    exact ⟨_, more, hmore⟩
  · exact ⟨_, [], f.params_cut h⟩

theorem decodeParam_eq_some_iff (p q : Text × Text) :
    decodeParam p = some q ↔ Xml.decode p.1 = some q.1 ∧ Xml.decode p.2 = some q.2 := by
  unfold decodeParam
  cases Xml.decode p.1 <;> cases Xml.decode p.2 <;> simp [Prod.ext_iff]

def Field.Kept (f : Field) : Prop :=
  ∃ p, f.params = [p] ∧ decodeParam p = some (f.key, f.value)

theorem takeWhile_equals {text : Text} :
    '=' ∉ text ↔ text.takeWhile (· != '=') = text := by
  rw [List.takeWhile_eq_self_iff]
  constructor
  · intro h c hc
    rw [bne_iff_ne]
    rintro rfl
    exact h hc
  · intro h hc
    exact absurd (h '=' hc) (by decide)

/-- A field is kept exactly if its value is uncut and stands for itself in XML. -/
theorem Field.kept_iff (f : Field) : f.Kept ↔
    f.Uncut ∧ (∀ c ∈ f.key, Xml.plain c = true) ∧ ∀ c ∈ f.value, Xml.plain c = true := by
  unfold Field.Kept Field.Uncut
  rw [← Xml.decode_eq_self_iff, ← Xml.decode_eq_self_iff]
  constructor
  · rintro ⟨p, hp, hdecode⟩
    obtain ⟨hkey, hvalue⟩ := (decodeParam_eq_some_iff _ _).mp hdecode
    have hspace : f.value.head? ≠ some ' ' := by
      intro hspace
      obtain ⟨more, hmore⟩ := f.params_space hspace
      obtain rfl : p = (f.key, []) := (List.cons.inj (hp.symm.trans hmore)).1
      -- the value was not empty, but nothing is read back
      have hnil : [] = f.value := Option.some.inj (Xml.decode_nil.symm.trans hvalue)
      rw [← hnil] at hspace
      cases hspace
    obtain rfl : p = (f.key, f.value.takeWhile (· != '=')) :=
      (List.cons.inj (hp.symm.trans (f.params_cut hspace))).1
    have hlen : f.value.length ≤ (f.value.takeWhile (· != '=')).length := Xml.length_decode hvalue
    -- what is read back is no longer than what was written
    have hwhole : f.value.takeWhile (· != '=') = f.value :=
      (List.takeWhile_prefix _).eq_of_length_le hlen
    rw [hwhole] at hvalue
    exact ⟨⟨takeWhile_equals.mpr hwhole, hspace⟩, hkey, hvalue⟩
  · rintro ⟨⟨hequals, hspace⟩, hkey, hvalue⟩
    refine ⟨(f.key, f.value), ?_, (decodeParam_eq_some_iff _ _).mpr ⟨hkey, hvalue⟩⟩
    rw [f.params_cut hspace, takeWhile_equals.mp hequals]

theorem length_le_flatMap_params (fields : List Field) :
    fields.length ≤ (fields.flatMap Field.params).length := by
  induction fields with
  | nil => exact Nat.le_refl 0
  | cons f fields ih =>
    obtain ⟨value, more, hf⟩ := f.exists_params
    rw [List.flatMap_cons, List.length_append, hf, List.length_cons, List.length_cons]
    omega

theorem mapM_params_iff (fields : List Field) :
    (fields.flatMap Field.params).mapM decodeParam = some (fields.map (fun f => (f.key, f.value))) ↔
      ∀ f ∈ fields, f.Kept := by
  induction fields with
  | nil => simp
  | cons f fields ih =>
    obtain ⟨value, more, hf⟩ := f.exists_params
    rw [List.flatMap_cons, hf, List.cons_append, List.map_cons, mapM_cons_eq_some_iff,
      List.forall_mem_cons, ← ih]
    constructor
    · rintro ⟨hparam, hrest⟩
      -- a second parameter of the field would make the list too long
      have hlen := length_of_mapM_eq_some hrest
      have hle := length_le_flatMap_params fields
      rw [List.length_map, List.length_append] at hlen
      obtain rfl : more = [] := List.eq_nil_of_length_eq_zero (by omega)
      exact ⟨⟨_, hf, hparam⟩, hrest⟩
    · rintro ⟨⟨p, hp, hparam⟩, hrest⟩
      obtain ⟨rfl, rfl⟩ := List.cons.inj (hf.symm.trans hp)
      exact ⟨hparam, hrest⟩

end Fields

theorem TaskLine.decode_parsed_iff (l : TaskLine) :
    decodeTask l.parsed = some l.task ↔ l.Faithful := by
  have hfields : (∀ f ∈ l.fields, f.Kept) ↔ ∀ f ∈ l.fields, f.Uncut ∧
      (∀ c ∈ f.key, Xml.plain c = true) ∧ ∀ c ∈ f.value, Xml.plain c = true :=
    forall₂_congr (fun f _ => f.kept_iff)
  rw [TaskLine.Faithful, ← hfields, ← mapM_params_iff, ← Xml.decode_eq_self_iff, decodeTask,
    TaskLine.parsed, TaskLine.task]
  cases Xml.decode l.name <;> cases (l.fields.flatMap Field.params).mapM decodeParam <;>
    simp [and_comm]

theorem spaces_aligin (tag : Text) : Xml.Spaces (aligin tag) := by
  unfold aligin
  split <;> decide

/-- What the script returns for the task file: the elements of the parsed tasks. -/
theorem oparseTaskfile_lines {fuel : ℕ} {algn xml : Text} {lines : List TaskLine}
    (h : oparseTaskfile fuel ⟨lines.map TaskLine.text, false⟩ algn = some xml) :
    xml = (lines.map TaskLine.parsed).flatMap (taskElement algn) := by
  rw [oparseTaskfile_eq h, List.flatMap_map, List.flatMap_map]
  apply List.flatMap_congr
  intro l _
  exact l.taskText_eq algn

theorem readTasks_lines (tag : Text) (lines : List TaskLine) :
    readTasks ((lines.map TaskLine.parsed).flatMap (taskElement (aligin tag))) =
        some (lines.map TaskLine.task) ↔ ∀ l ∈ lines, l.Faithful := by
  have hquotable : ∀ t ∈ lines.map TaskLine.parsed, t.Quotable := by
    intro t ht
    obtain ⟨l, -, rfl⟩ := List.mem_map.mp ht
    exact l.parsed_quotable
  rw [readTasks_taskElements (spaces_aligin tag) hquotable, mapM_map_eq_some_iff]
  exact forall₂_congr (fun l _ => l.decode_parsed_iff)

/-- The task file is read back as its list of tasks exactly if in each line no value has an
equals sign or a space in front, and all names and values stand for themselves in XML. -/
theorem task_file_round_trip_iff (tag : Text) (lines : List TaskLine) :
    (∃ fuel xml, oparseTaskfile fuel ⟨lines.map TaskLine.text, false⟩ (aligin tag) = some xml) ∧
    ∀ fuel xml, oparseTaskfile fuel ⟨lines.map TaskLine.text, false⟩ (aligin tag) = some xml →
      (readTasks xml = some (lines.map TaskLine.task) ↔ ∀ l ∈ lines, l.Faithful) := by
  obtain ⟨fuel, hfuel⟩ := oparseTaskfile_readable (aligin tag) (lines.map TaskLine.text)
  refine ⟨⟨fuel, _, hfuel⟩, fun fuel xml h => ?_⟩
  rw [oparseTaskfile_lines h]
  exact readTasks_lines tag lines

def cutLine : TaskLine where
  fields := [⟨"a".toList, "b=c".toList, by decide, by simp [isBlank], by simp⟩]
  name := "/t".toList
  name_free := by simp [isBlank]
  no_fetch := by decide

/-- A value with an equals sign comes back cut off. -/
theorem task_file_round_trip_cut : ¬ ∀ (tag : Text) (lines : List TaskLine) (fuel : ℕ) (xml : Text),
    oparseTaskfile fuel ⟨lines.map TaskLine.text, false⟩ (aligin tag) = some xml →
    readTasks xml = some (lines.map TaskLine.task) := by
  intro h
  have htag := oparseTaskfile_readable (aligin "recipe".toList) ([cutLine].map TaskLine.text)
  obtain ⟨fuel, hfuel⟩ := htag
  have hread := h "recipe".toList [cutLine] fuel _ hfuel
  rw [oparseTaskfile_lines hfuel, readTasks_lines] at hread
  have hfield := (hread cutLine List.mem_cons_self).1 _ List.mem_cons_self
  exact hfield.1.1 (by decide)

end YuToolbox.TaskFile
