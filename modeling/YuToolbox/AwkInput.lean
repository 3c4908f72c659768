import YuToolbox.AwkText

/-! The main input of an awk program (the files not yet read, each as its remaining
records) and the evaluation of a range pattern `/begin/, /end/`. -/
namespace YuToolbox.Awk

/-- The current file's remaining records come first, then the files after it. -/
abbrev Input := List (List Text)

/-- Plain `getline`: the next record, across file boundaries; `none` when every file
is exhausted. -/
def getline : Input → Option (Text × Input)
  | [] => none
  | [] :: files => getline files
  | (record :: records) :: files => some (record, records :: files)

def nextfile : Input → Input := List.tail

/-- The records of a text; a newline at its end starts none. -/
def records (text : Text) : List Text :=
  let pieces := text.splitOn '\n'
  if pieces.getLastD [] = [] then pieces.dropLast else pieces

theorem splitOn_lines {lines : List Text} (h : ∀ line ∈ lines, '\n' ∉ line) :
    (lines.flatMap printLine).splitOn '\n' = lines ++ [[]] := by
  induction lines with
  | nil => rfl
  | cons line lines ih =>
    have htext : (line :: lines).flatMap printLine = line ++ '\n' :: lines.flatMap printLine := by
      rw [List.flatMap_cons, printLine, List.append_assoc]
      rfl
    rw [htext, List.splitOn_append_cons_self_of_not_mem (h line List.mem_cons_self),
      ih (fun l hl => h l (List.mem_cons_of_mem line hl)), List.cons_append]

/-- Printed lines are read back as the records they were. -/
theorem records_lines {lines : List Text} (h : ∀ line ∈ lines, '\n' ∉ line) :
    records (lines.flatMap printLine) = lines := by
  simp only [records, splitOn_lines h, List.getLastD_concat, if_true, List.dropLast_concat]

def rangeFires (inRange begins : Bool) : Bool := inRange || begins

/-- The state of a range pattern after a record: the end pattern is tested on the
record that opened the range as well. -/
def rangeAfter (inRange begins ends : Bool) : Bool := rangeFires inRange begins && !ends

/-- The records of a text that a range pattern selects, from a given state. -/
def rangeRecords (begins ends : Text → Bool) : Bool → List Text → List Text
  | _, [] => []
  | inRange, record :: records =>
    let rest := rangeRecords begins ends (rangeAfter inRange (begins record) (ends record)) records
    -- the record that ends the range is still selected
    if rangeFires inRange (begins record) then record :: rest else rest

section RangeRecords

variable {begins ends : Text → Bool}

theorem rangeRecords_outside {pre : List Text} (h : ∀ r ∈ pre, begins r = false)
    (post : List Text) :
    rangeRecords begins ends false (pre ++ post) = rangeRecords begins ends false post := by
  -- on the records in front: none of them moves the state
  induction pre with
  | nil => rfl
  | cons r pre ih =>
    have hr : begins r = false := h r List.mem_cons_self
    rw [List.cons_append, rangeRecords]
    simp only [hr, rangeFires, rangeAfter, Bool.or_self, Bool.false_and, Bool.false_eq_true,
      if_false]
    exact ih (fun r' hr' => h r' (List.mem_cons_of_mem _ hr'))

theorem rangeRecords_inside {body : List Text} (h : ∀ r ∈ body, ends r = false)
    {stop : Text} (hs : ends stop = true) (post : List Text) :
    rangeRecords begins ends true (body ++ stop :: post) =
      body ++ stop :: rangeRecords begins ends false post := by
  induction body with
  | nil => simp [rangeRecords, rangeFires, rangeAfter, hs]
  | cons r body ih =>
    have hr : ends r = false := h r List.mem_cons_self
    have hrest := ih (fun r' hr' => h r' (List.mem_cons_of_mem _ hr'))
    simp [rangeRecords, rangeFires, rangeAfter, hr, hrest]

/-- A block that opens and closes on different records is selected whole. -/
theorem rangeRecords_block {start stop : Text} {body : List Text}
    (hb : begins start = true) (he : ends start = false)
    (h : ∀ r ∈ body, ends r = false) (hs : ends stop = true) (post : List Text) :
    rangeRecords begins ends false (start :: body ++ stop :: post) =
      start :: body ++ stop :: rangeRecords begins ends false post := by
  rw [List.cons_append, rangeRecords]
  simp only [hb, he, rangeFires, rangeAfter, Bool.or_true, Bool.not_false, Bool.and_self, if_true,
    rangeRecords_inside h hs post, List.cons_append]

end RangeRecords

end YuToolbox.Awk
