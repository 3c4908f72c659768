import YuToolbox.CombineExtract

/-! Job files of the shape the script is written for, and what the script does with one
of them: the invariant of a run is that every file starts outside all three ranges. -/
namespace YuToolbox.CombineExtract

open Awk StepRuns

def Tag.all : List Tag :=
  [.job, .whiteboard, .notify, .notifyEnd, .recipeSet, .recipeSetEnd, .jobEnd]

def tagsOf (line : Text) : List Tag := Tag.all.filter (fun tag => has tag line)

theorem has_eq_mem_tagsOf (tag : Tag) (line : Text) : has tag line = decide (tag ∈ tagsOf line) := by
  have hall : tag ∈ Tag.all := by cases tag <;> decide
  simp only [tagsOf, List.mem_filter, hall, true_and, Bool.decide_eq_true]

structure NotifyBlock where
  start : Text
  body : List Text
  stop : Text
  start_tags : tagsOf start = [.notify]
  body_tags : ∀ line ∈ body, tagsOf line = []
  stop_tags : tagsOf stop = [.notifyEnd]

def NotifyBlock.lines (n : NotifyBlock) : List Text := n.start :: n.body ++ [n.stop]

/-- A recipeSet whose tags stand on separate lines. Its lines may carry other tags as
long as the job and notify rules do not start on them. -/
structure RecipeSet where
  start : Text
  body : List Text
  stop : Text
  start_begins : has .recipeSet start = true
  start_separate : has .recipeSetEnd start = false
  body_inside : ∀ line ∈ body, has .recipeSet line = false ∧ has .recipeSetEnd line = false
  stop_ends : has .recipeSetEnd stop = true
  stop_separate : has .recipeSet stop = false
  quiet : ∀ line ∈ start :: body ++ [stop], has .job line = false ∧ has .notify line = false

def RecipeSet.lines (r : RecipeSet) : List Text := r.start :: r.body ++ [r.stop]

/-- What stands around the recipeSets of a job file. -/
structure Frame where
  job : Text
  notify : Option NotifyBlock
  whiteboard : Text
  jobEnd : Text
  job_tags : tagsOf job = [.job]
  whiteboard_tags : tagsOf whiteboard = [.whiteboard]
  jobEnd_tags : tagsOf jobEnd = [.jobEnd]

def Frame.notifyLines (f : Frame) : List Text := (f.notify.map NotifyBlock.lines).getD []

structure JobFile extends Frame where
  recipeSets : List RecipeSet

def JobFile.lines (f : JobFile) : List Text :=
  f.job :: f.notifyLines ++ f.whiteboard :: f.recipeSets.flatMap RecipeSet.lines ++ [f.jobEnd]

theorem NotifyBlock.tagsOf_lines (n : NotifyBlock) {line : Text} (h : line ∈ n.lines) :
    tagsOf line ⊆ [.notify, .notifyEnd] := by
  simp only [NotifyBlock.lines, List.cons_append, List.mem_cons, List.mem_append,
    List.not_mem_nil, or_false] at h
  rcases h with rfl | h | rfl
  · simp [n.start_tags]
  · simp [n.body_tags line h]
  · simp [n.stop_tags]

theorem Frame.tagsOf_notifyLines (f : Frame) {line : Text} (h : line ∈ f.notifyLines) :
    tagsOf line ⊆ [.notify, .notifyEnd] := by
  cases hn : f.notify with
  | none => simp [Frame.notifyLines, hn] at h
  | some n => exact n.tagsOf_lines (by simpa [Frame.notifyLines, hn] using h)

theorem has_eq_false_of_subset {tags : List Tag} {line : Text} (h : tagsOf line ⊆ tags)
    {tag : Tag} (ht : tag ∉ tags) : has tag line = false := by
  rw [has_eq_mem_tagsOf, decide_eq_false_iff_not]
  exact fun hm => ht (h hm)

def linesAt (sets : List RecipeSet) (i : ℕ) : List Text := (sets[i]?.map RecipeSet.lines).getD []

def inHead (input : Input) (v : Vars) : State := { ready input v with headRange := true }

def inSet (input : Input) (v : Vars) : State := { ready input v with recipeRange := true }

def inNotifyLoop (input : Input) (v : Vars) : State :=
  { inHead input v with control := .notifyLoop }

def Vars.print (v : Vars) (lines : List Text) : Vars := { v with out := v.out ++ lines }

theorem Vars.print_nil (v : Vars) : v.print [] = v := by
  simp only [Vars.print, List.append_nil]

theorem Vars.print_print (v : Vars) (a b : List Text) : (v.print a).print b = v.print (a ++ b) := by
  simp only [Vars.print, List.append_assoc]

/-- A flag's line is printed only while the flag is still unset. -/
def oneShot (flag : Bool) (lines : List Text) : List Text := if flag then [] else lines

theorem mem_of_mem_oneShot {flag : Bool} {lines : List Text} {line : Text}
    (h : line ∈ oneShot flag lines) : line ∈ lines := by
  cases flag <;> simp [oneShot] at h
  exact h

section Head

variable {records : List Text} {files : Input}

theorem job_line_step {job : Text} (h : tagsOf job = [.job]) (v : Vars) :
    step (ready ((job :: records) :: files) v) =
      some (inHead (records :: files)
        { v.print (oneShot v.jobStart [job]) with jobStart := true }) := by
  obtain ⟨jobStart, whiteBoard, mailCc, currPos, tPos, l, out⟩ := v
  cases jobStart <;> cases whiteBoard <;>
    simp [step, ready, inHead, rules, headBody, print, Vars.print, oneShot, rangeFires, rangeAfter,
      has_eq_mem_tagsOf, h]

theorem whiteboard_line_step {line : Text} (h : tagsOf line = [.whiteboard]) (v : Vars) :
    step (inHead ((line :: records) :: files) v) =
      some (ready (records :: files)
        { v.print (oneShot v.whiteBoard [line]) with whiteBoard := true }) := by
  obtain ⟨jobStart, whiteBoard, mailCc, currPos, tPos, l, out⟩ := v
  cases jobStart <;> cases whiteBoard <;>
    simp [step, ready, inHead, rules, headBody, print, Vars.print, oneShot, rangeFires, rangeAfter,
      has_eq_mem_tagsOf, h]

theorem notify_lines_skip {lines : List Text} (v : Vars) (hv : v.mailCc = true)
    (h : ∀ line ∈ lines, has .job line = false ∧ has .whiteboard line = false) :
    Reaches step (inHead ((lines ++ records) :: files) v) (inHead (records :: files) v) := by
  -- one step for each line: it is neither printed nor does it end the head
  induction lines with
  | nil => exact Reaches.refl _
  | cons line lines ih =>
    obtain ⟨hj, hw⟩ := h line List.mem_cons_self
    have hskip : step (inHead ((line :: lines ++ records) :: files) v) =
        some (inHead ((lines ++ records) :: files) v) := by
      simp [step, ready, inHead, rules, headBody, rangeFires, rangeAfter, hj, hw, hv]
    apply Reaches.head hskip
    exact ih (fun line' h' => h line' (List.mem_cons_of_mem _ h'))

theorem notify_start_step {line next : Text} (h : tagsOf line = [.notify]) (v : Vars)
    (hv : v.mailCc = false) :
    step (inHead ((line :: next :: records) :: files) v) =
      some (inNotifyLoop (records :: files) { v.print [line, next] with l := next }) := by
  simp [step, ready, inHead, inNotifyLoop, rules, headBody, print, Vars.print, getlineL, getline,
    rangeFires, rangeAfter, has_eq_mem_tagsOf, h, hv]

theorem notify_loop_read {next : Text} (v : Vars) (h : tagsOf v.l = []) :
    step (inNotifyLoop ((next :: records) :: files) v) =
      some (inNotifyLoop (records :: files) { v.print [next] with l := next }) := by
  simp [step, ready, inHead, inNotifyLoop, print, Vars.print, getlineL, getline, has_eq_mem_tagsOf,
    h]

theorem notify_loop_leave (v : Vars) (h : tagsOf v.l = [.notifyEnd]) :
    step (inNotifyLoop (records :: files) v) =
      some (inHead (records :: files) { v with mailCc := true }) := by
  simp [step, ready, inHead, inNotifyLoop, has_eq_mem_tagsOf, h]

variable (records files) in
/-- The loop copies lines up to and including the closing tag. -/
theorem notify_loop_steps {body : List Text} {stop : Text}
    (hb : ∀ line ∈ body, tagsOf line = []) (hs : tagsOf stop = [.notifyEnd]) (v : Vars)
    (hl : tagsOf v.l = []) :
    Reaches step (inNotifyLoop ((body ++ stop :: records) :: files) v)
      (inHead (records :: files) { v.print (body ++ [stop]) with l := stop, mailCc := true }) := by
  -- `l` holds the line read last, which is already printed
  induction body generalizing v with
  | nil =>
    apply Reaches.head (notify_loop_read v hl)
    exact Reaches.single (notify_loop_leave _ hs)
  | cons next body ih =>
    have hrest := ih (fun line' h' => hb line' (List.mem_cons_of_mem _ h'))
      { v.print [next] with l := next } (hb next List.mem_cons_self)
    have hout : v.print (next :: body ++ [stop]) = (v.print [next]).print (body ++ [stop]) :=
      (v.print_print [next] (body ++ [stop])).symm
    rw [hout]
    exact Reaches.head (notify_loop_read v hl) hrest

theorem notify_block_steps (n : NotifyBlock) (v : Vars) (hv : v.mailCc = false) :
    Reaches step (inHead ((n.lines ++ records) :: files) v)
      (inHead (records :: files) { v.print n.lines with l := n.stop, mailCc := true }) := by
  have hbody := n.body_tags
  -- the line behind the opening tag is read before the loop: the closing one, or a body line
  cases hb : n.body with
  | nil =>
    have hlines : n.lines = [n.start, n.stop] := by simp [NotifyBlock.lines, hb]
    rw [hlines]
    apply Reaches.head (notify_start_step n.start_tags v hv)
    exact Reaches.single (notify_loop_leave _ n.stop_tags)
  | cons next body =>
    rw [hb] at hbody
    have hrecords : n.lines ++ records = n.start :: next :: (body ++ n.stop :: records) := by
      simp [NotifyBlock.lines, hb]
    have hout : v.print n.lines = (v.print [n.start, next]).print (body ++ [n.stop]) := by
      simp [Vars.print, NotifyBlock.lines, hb]
    have hloop := notify_loop_steps records files
      (fun line hm => hbody line (List.mem_cons_of_mem _ hm)) n.stop_tags
      { v.print [n.start, next] with l := next } (hbody next List.mem_cons_self)
    rw [hrecords, hout]
    exact Reaches.head (notify_start_step n.start_tags v hv) hloop

variable (records files) in
theorem notify_part_steps (f : Frame) (v : Vars) :
    ∃ l', Reaches step (inHead ((f.notifyLines ++ records) :: files) v)
      (inHead (records :: files) { v.print (oneShot v.mailCc f.notifyLines) with
        l := l', mailCc := v.mailCc || f.notify.isSome }) := by
  cases hm : v.mailCc with
  | true =>
    -- an earlier file had a block
    refine ⟨v.l, ?_⟩
    have hskip : ∀ line ∈ f.notifyLines, has .job line = false ∧ has .whiteboard line = false :=
      fun line h => ⟨has_eq_false_of_subset (f.tagsOf_notifyLines h) (by decide),
        has_eq_false_of_subset (f.tagsOf_notifyLines h) (by decide)⟩
    have hsame : { v.print (oneShot true f.notifyLines) with
        l := v.l, mailCc := true || f.notify.isSome } = v := by
      obtain ⟨jobStart, whiteBoard, mailCc, currPos, tPos, l, out⟩ := v
      simpa [Vars.print, oneShot] using hm.symm
    rw [hsame]
    exact notify_lines_skip v hm hskip
  | false =>
    cases hn : f.notify with
    | none =>
      -- nothing to read, and the flag stays down
      refine ⟨v.l, ?_⟩
      have hlines : f.notifyLines = [] := by simp [Frame.notifyLines, hn]
      have hsame : { v.print (oneShot false []) with
          l := v.l, mailCc := false || (none : Option NotifyBlock).isSome } = v := by
        obtain ⟨jobStart, whiteBoard, mailCc, currPos, tPos, l, out⟩ := v
        simpa [Vars.print, oneShot] using hm.symm
      rw [hlines, hsame]
      exact Reaches.refl _
    | some n =>
      refine ⟨n.stop, ?_⟩
      have hlines : f.notifyLines = n.lines := by simp [Frame.notifyLines, hn]
      rw [hlines]
      exact notify_block_steps n v hm

def headerLines (jobStart whiteBoard mailCc : Bool) (f : Frame) : List Text :=
  oneShot jobStart [f.job] ++ oneShot mailCc f.notifyLines ++ oneShot whiteBoard [f.whiteboard]

variable (records files) in
/-- The lines up to the whiteboard: each flag lets its own through once. -/
theorem head_steps (f : Frame) (v : Vars) :
    ∃ l', Reaches step
      (ready ((f.job :: (f.notifyLines ++ f.whiteboard :: records)) :: files) v)
      (ready (records :: files)
        { v.print (headerLines v.jobStart v.whiteBoard v.mailCc f) with
          jobStart := true, whiteBoard := true, mailCc := v.mailCc || f.notify.isSome,
          l := l' }) := by
  let v₁ : Vars := { v.print (oneShot v.jobStart [f.job]) with jobStart := true }
  obtain ⟨l', hnotify⟩ := notify_part_steps (f.whiteboard :: records) files f v₁
  let v₂ : Vars := { v₁.print (oneShot v.mailCc f.notifyLines) with
    l := l', mailCc := v.mailCc || f.notify.isSome }
  have hboard : step (inHead ((f.whiteboard :: records) :: files) v₂) = some (ready _ _) :=
    whiteboard_line_step f.whiteboard_tags v₂
  have hout : v.print (headerLines v.jobStart v.whiteBoard v.mailCc f) =
      ((v.print (oneShot v.jobStart [f.job])).print (oneShot v.mailCc f.notifyLines)).print
        (oneShot v.whiteBoard [f.whiteboard]) := by
    rw [Vars.print_print, Vars.print_print, headerLines, List.append_assoc]
  refine ⟨l', Reaches.head (job_line_step f.job_tags v) (hnotify.trans ?_)⟩
  rw [hout]
  exact Reaches.single hboard

end Head

section Sets

variable {records : List Text} {files : Input}

/-- Recipe lines are printed at the target position only. -/
def Vars.show (v : Vars) (lines : List Text) : Vars :=
  v.print (if v.currPos = v.tPos then lines else [])

theorem Vars.show_show (v : Vars) (a b : List Text) : (v.show a).show b = v.show (a ++ b) := by
  by_cases h : v.currPos = v.tPos <;> simp [Vars.show, Vars.print, h]

theorem set_start_step {line : Text} (v : Vars) (hj : has .job line = false)
    (hn : has .notify line = false) (hb : has .recipeSet line = true)
    (he : has .recipeSetEnd line = false) :
    step (ready ((line :: records) :: files) v) =
      some (inSet (records :: files) (v.show [line])) := by
  by_cases hc : v.currPos = v.tPos <;>
    simp [step, ready, inSet, rules, notifyRule, recipeRule, print, Vars.show, Vars.print,
      rangeFires, rangeAfter, hj, hn, hb, he, hc]

theorem set_body_step {line : Text} (v : Vars) (hj : has .job line = false)
    (hn : has .notify line = false) (he : has .recipeSetEnd line = false) :
    step (inSet ((line :: records) :: files) v) =
      some (inSet (records :: files) (v.show [line])) := by
  by_cases hc : v.currPos = v.tPos <;>
    simp [step, ready, inSet, rules, notifyRule, recipeRule, print, Vars.show, Vars.print,
      rangeFires, rangeAfter, hj, hn, he, hc]

variable (records files) in
/-- The closing line counts the recipeSet; past the target it drops the file. -/
theorem set_stop_step {line : Text} (v : Vars) (hj : has .job line = false)
    (hn : has .notify line = false) (he : has .recipeSetEnd line = true) :
    step (inSet ((line :: records) :: files) v) =
      some (if v.tPos < v.currPos+1 then ready files { v.show [line] with currPos := 0 }
      else ready (records :: files) { v.show [line] with currPos := v.currPos+1 }) := by
  by_cases hc : v.currPos = v.tPos <;> by_cases hlt : v.tPos < v.currPos+1 <;>
    simp [step, ready, inSet, rules, notifyRule, recipeRule, print, Vars.show, Vars.print,
      rangeFires, rangeAfter, nextfile, hj, hn, he, hc, hlt]

theorem set_body_steps {body : List Text} (v : Vars)
    (h : ∀ line ∈ body, has .job line = false ∧ has .notify line = false ∧
      has .recipeSetEnd line = false) :
    Reaches step (inSet ((body ++ records) :: files) v)
      (inSet (records :: files) (v.show body)) := by
  induction body generalizing v with
  | nil =>
    have hnil : v.show [] = v := by simp [Vars.show, Vars.print_nil]
    rw [hnil]
    exact Reaches.refl _
  | cons line body ih =>
    obtain ⟨hj, hn, he⟩ := h line List.mem_cons_self
    have hrest := ih (v.show [line]) (fun line' h' => h line' (List.mem_cons_of_mem _ h'))
    rw [Vars.show_show] at hrest
    exact Reaches.head (set_body_step v hj hn he) hrest

variable (records files) in
theorem recipeSet_steps (r : RecipeSet) (v : Vars) :
    Reaches step (ready ((r.lines ++ records) :: files) v)
      (if v.tPos < v.currPos+1 then ready files { v.show r.lines with currPos := 0 }
      else ready (records :: files) { v.show r.lines with currPos := v.currPos+1 }) := by
  have hquiet := r.quiet
  simp only [List.cons_append, List.mem_cons, List.mem_append, List.not_mem_nil, or_false]
    at hquiet
  have hstart := hquiet r.start (Or.inl rfl)
  have hstop := hquiet r.stop (Or.inr (Or.inr rfl))
  have hbody : ∀ line ∈ r.body, has .job line = false ∧ has .notify line = false ∧
      has .recipeSetEnd line = false := by
    intro line hm
    have hq := hquiet line (Or.inr (Or.inl hm))
    exact ⟨hq.1, hq.2, (r.body_inside line hm).2⟩
  have hopen : step (ready ((r.start :: (r.body ++ r.stop :: records)) :: files) v) =
      some (inSet ((r.body ++ r.stop :: records) :: files) (v.show [r.start])) :=
    set_start_step v hstart.1 hstart.2 r.start_begins r.start_separate
  have hclose := set_stop_step records files
    ((v.show [r.start]).show r.body) hstop.1 hstop.2 r.stop_ends
  have hall : ((v.show [r.start]).show r.body).show [r.stop] = v.show r.lines := by
    rw [Vars.show_show, Vars.show_show]
    rfl
  rw [hall] at hclose
  have hlines : r.lines ++ records = r.start :: (r.body ++ r.stop :: records) := by
    simp [RecipeSet.lines]
  rw [hlines]
  apply Reaches.head hopen
  exact (set_body_steps _ hbody).trans (Reaches.single hclose)

/-- The counter after a file with `n` recipeSets that was entered at `c`. -/
def nextPos (t c n : ℕ) : ℕ := if t < c+n then 0 else c+n

theorem nextPos_le {t c : ℕ} (n : ℕ) : nextPos t c n ≤ t := by
  unfold nextPos
  split <;> omega

theorem linesAt_zero (r : RecipeSet) (sets : List RecipeSet) : linesAt (r :: sets) 0 = r.lines := rfl

theorem linesAt_succ (r : RecipeSet) (sets : List RecipeSet) (i : ℕ) :
    linesAt (r :: sets) (i+1) = linesAt sets i := rfl

variable (records files) in
/-- All recipeSets of a file: the counter decides which one is printed. -/
theorem recipeSets_steps (sets : List RecipeSet) (v : Vars) (hc : v.currPos ≤ v.tPos) :
    Reaches step (ready ((sets.flatMap RecipeSet.lines ++ records) :: files) v)
      (if v.tPos < v.currPos+sets.length then
        ready files { v.print (linesAt sets (v.tPos-v.currPos)) with currPos := 0 }
      else ready (records :: files)
        { v.print (linesAt sets (v.tPos-v.currPos)) with currPos := v.currPos+sets.length }) := by
  -- on the recipeSets still to come; the counter stays within the target all along
  induction sets generalizing v with
  | nil =>
    rw [if_neg (by simp only [List.length_nil]; omega)]
    simpa [linesAt, Vars.print_nil] using Reaches.refl (ready (records :: files) v)
  | cons r sets ih =>
    have hone := recipeSet_steps (sets.flatMap RecipeSet.lines ++ records) files r v
    rw [← List.append_assoc, ← List.flatMap_cons] at hone
    by_cases heq : v.currPos = v.tPos
    · -- the target: printed, and `nextfile` drops the rest of the file
      rw [if_pos (by omega)] at hone
      rw [if_pos (by simp only [List.length_cons]; omega),
        show v.tPos-v.currPos = 0 by omega, linesAt_zero]
      simpa only [Vars.show, heq, if_true] using hone
    · -- before the target: counted, not printed
      rw [if_neg (by omega)] at hone
      simp only [Vars.show, heq, if_false, Vars.print_nil] at hone
      have hrest := ih { v with currPos := v.currPos+1 } (show v.currPos+1 ≤ v.tPos by omega)
      dsimp only at hrest
      rw [show v.tPos-v.currPos = (v.tPos-(v.currPos+1))+1 by omega, linesAt_succ,
        List.length_cons, show v.currPos+(sets.length+1) = v.currPos+1+sets.length by omega]
      exact hone.trans hrest

theorem jobEnd_line_step {line : Text} (h : tagsOf line = [.jobEnd]) (v : Vars) :
    step (ready ((line :: records) :: files) v) = some (ready (records :: files) v) := by
  simp [step, ready, rules, notifyRule, recipeRule, rangeFires, has_eq_mem_tagsOf, h]

theorem file_boundary_step (v : Vars) : step (ready ([] :: files) v) = some (ready files v) := rfl

end Sets

def Vars.afterFile (v : Vars) (f : JobFile) (l : Text) : Vars where
  jobStart := true
  whiteBoard := true
  mailCc := v.mailCc || f.notify.isSome
  currPos := nextPos v.tPos v.currPos f.recipeSets.length
  tPos := v.tPos
  l := l
  out := v.out ++ headerLines v.jobStart v.whiteBoard v.mailCc f.toFrame ++
    linesAt f.recipeSets (v.tPos-v.currPos)

/-- One whole file. It is left outside every range, with the one-shot flags set and the
counter still inside the target, which is all the next file needs. -/
theorem file_steps (f : JobFile) (files : Input) (v : Vars) (hc : v.currPos ≤ v.tPos) :
    ∃ l', Reaches step (ready (f.lines :: files) v) (ready files (v.afterFile f l')) := by
  let sets := f.recipeSets.flatMap RecipeSet.lines ++ [f.jobEnd]
  have hlines : f.lines = f.job :: (f.notifyLines ++ f.whiteboard :: sets) := by
    simp [JobFile.lines, sets]
  obtain ⟨l', hhead⟩ := head_steps sets files f.toFrame v
  rw [← hlines] at hhead
  let v₃ : Vars := { v.print (headerLines v.jobStart v.whiteBoard v.mailCc f.toFrame) with
    jobStart := true, whiteBoard := true, mailCc := v.mailCc || f.notify.isSome, l := l' }
  -- the counter comes from the files before this one
  have hsets := recipeSets_steps [f.jobEnd] files f.recipeSets v₃ hc
  refine ⟨l', hhead.trans ?_⟩
  have hafter (c : ℕ) (h : nextPos v.tPos v.currPos f.recipeSets.length = c) :
      { v₃.print (linesAt f.recipeSets (v₃.tPos-v₃.currPos)) with currPos := c } =
        v.afterFile f l' := by
    simp only [Vars.afterFile, h]
    rfl
  by_cases hlt : v₃.tPos < v₃.currPos+f.recipeSets.length
  · rw [if_pos hlt, hafter 0 (if_pos hlt)] at hsets
    exact hsets
  · -- too few recipeSets: the file is read to its end, and the counter is kept
    rw [if_neg hlt, hafter (v₃.currPos+f.recipeSets.length) (if_neg hlt)] at hsets
    apply hsets.trans
    exact Reaches.head (jobEnd_line_step f.jobEnd_tags _) (Reaches.single (file_boundary_step _))

/-- What the script prints for a list of files, from a given state of its flags. -/
def printed (tPos : ℕ) : Bool → Bool → Bool → ℕ → List JobFile → List Text
  | _, _, _, _, [] => []
  | jobStart, whiteBoard, mailCc, currPos, f :: files =>
    headerLines jobStart whiteBoard mailCc f.toFrame ++ linesAt f.recipeSets (tPos-currPos) ++
      printed tPos true true (mailCc || f.notify.isSome)
        (nextPos tPos currPos f.recipeSets.length) files

theorem files_steps (fs : List JobFile) (v : Vars) (hc : v.currPos ≤ v.tPos) :
    ∃ v' : Vars, Reaches step (ready (fs.map JobFile.lines) v) (ready [] v') ∧
      v'.out = v.out ++ printed v.tPos v.jobStart v.whiteBoard v.mailCc v.currPos fs := by
  induction fs generalizing v with
  | nil => exact ⟨v, Reaches.refl _, by simp [printed]⟩
  | cons f fs ih =>
    obtain ⟨l', hfile⟩ := file_steps f (fs.map JobFile.lines) v hc
    obtain ⟨v', hrest, hout⟩ := ih (v.afterFile f l') (nextPos_le f.recipeSets.length)
    refine ⟨v', hfile.trans hrest, ?_⟩
    rw [hout]
    simp [Vars.afterFile, printed]

/-- The script terminates on job files, with this output. -/
theorem combineExtract_output (t : ℕ) (fs : List JobFile) :
    ∃ fuel, combineExtract fuel (some t) (fs.map JobFile.lines) =
      some (printed t false false false 0 fs ++ ["</job>".toList]) := by
  obtain ⟨v, hrun, hout⟩ := files_steps fs (beginVars (some t)) (Nat.zero_le t)
  have hend : step (ready [] v) =
      some { ready [] (v.print ["</job>".toList]) with control := .ended } := rfl
  obtain ⟨fuel, hf⟩ := (hrun.trans (Reaches.single hend)).run_eq rfl
  refine ⟨fuel, ?_⟩
  have hprint : v.out ++ ["</job>".toList] =
      printed t false false false 0 fs ++ ["</job>".toList] := by
    rw [hout]
    rfl
  rw [combineExtract, hf, Option.map_some, ← hprint]
  rfl

theorem combineExtract_unique {fuel : ℕ} {t : ℕ} {fs : List JobFile} {out : List Text}
    (h : combineExtract fuel (some t) (fs.map JobFile.lines) = some out) :
    out = printed t false false false 0 fs ++ ["</job>".toList] := by
  obtain ⟨more, hm⟩ := combineExtract_output t fs
  obtain ⟨s, hs, rfl⟩ := Option.map_eq_some_iff.mp h
  obtain ⟨s', hs', hout⟩ := Option.map_eq_some_iff.mp hm
  rw [← hout, run_deterministic hs hs']

end YuToolbox.CombineExtract
