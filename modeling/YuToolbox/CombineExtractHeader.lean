import YuToolbox.CombineExtractFiles

/-! The header of the combined job: one job line, one whiteboard line, the first notify
block and one closing `</job>`, however the headers are spread over the files. -/
namespace YuToolbox.CombineExtract

open Awk StepRuns

/-- A recipeSet without a header tag, up to the line of its closing tag. Its opening tag can stand
on that line as well. -/
structure PlainSet where
  front : List Text
  stop : Text
  tags : ∀ line ∈ front ++ [stop], tagsOf line ⊆ [.recipeSet, .recipeSetEnd]
  stop_ends : has .recipeSetEnd stop = true

def PlainSet.lines (r : PlainSet) : List Text := r.front ++ [r.stop]

/-- A job file whose recipeSets carry no header tag. -/
structure PlainJobFile extends Frame where
  recipeSets : List PlainSet

def PlainJobFile.lines (f : PlainJobFile) : List Text :=
  f.job :: f.notifyLines ++ f.whiteboard :: f.recipeSets.flatMap PlainSet.lines ++ [f.jobEnd]

def linesOf (fs : List PlainJobFile) : Input := fs.map PlainJobFile.lines

def firstNotify (fs : List PlainJobFile) : List Text :=
  ((fs.findSome? (fun f => f.notify)).map NotifyBlock.lines).getD []

def Free (tag : Tag) (lines : List Text) : Prop := ∀ line ∈ lines, has tag line = false

structure SingleHeader (f : PlainJobFile) (fs : List PlainJobFile) (out : List Text) : Prop where
  job : out.filter (has .job) = [f.job]
  whiteboard : out.filter (has .whiteboard) = [f.whiteboard]
  notify : ∃ before after, out = before ++ firstNotify (f :: fs) ++ after ∧
    Free .notify before ∧ Free .notifyEnd before ∧ Free .notify after ∧ Free .notifyEnd after
  jobEnd : out.filter (has .jobEnd) = ["</job>".toList]
  jobEnd_last : out.getLast? = some "</job>".toList

section Steps

/-- Lines that carry no other tag than those of a recipeSet. -/
def Plain (lines : List Text) : Prop := ∀ line ∈ lines, tagsOf line ⊆ [.recipeSet, .recipeSetEnd]

/-- From one state of the variables to the other only such lines come out, and only the counter
changes. -/
def Vars.Selects (v v' : Vars) : Prop :=
  ∃ shown c, Plain shown ∧ v' = { v.print shown with currPos := c }

theorem Vars.Selects.refl (v : Vars) : v.Selects v :=
  ⟨[], v.currPos, List.forall_mem_nil _, by rw [Vars.print_nil]⟩

theorem Vars.Selects.trans {v v' v'' : Vars} (h : v.Selects v') (h' : v'.Selects v'') :
    v.Selects v'' := by
  obtain ⟨a, c, ha, rfl⟩ := h
  obtain ⟨b, c', hb, rfl⟩ := h'
  refine ⟨a ++ b, c', List.forall_mem_append.mpr ⟨ha, hb⟩, ?_⟩
  simp only [Vars.print, List.append_assoc]

/-- Outside of the header, in a recipeSet or not. -/
def outside (inSet : Bool) (input : Input) (v : Vars) : State :=
  { ready input v with recipeRange := inSet }

variable {records : List Text} {files : Input}

theorem outside_step {line : Text} (hj : has .job line = false) (hn : has .notify line = false)
    (inSet : Bool) (v : Vars) : step (outside inSet ((line :: records) :: files) v) =
      some (recipeRule line (outside inSet (records :: files) v)) := by
  simp [step, ready, outside, rules, notifyRule, rangeFires, hj, hn]

theorem Vars.Selects.show {line : Text} (h : tagsOf line ⊆ [.recipeSet, .recipeSetEnd]) (v : Vars)
    (c : ℕ) : v.Selects { v.show [line] with currPos := c } := by
  by_cases hc : v.currPos = v.tPos
  · refine ⟨[line], c, fun l hl => ?_, by rw [Vars.show, if_pos hc]⟩
    rwa [List.mem_singleton.mp hl]
  · exact ⟨[], c, List.forall_mem_nil _, by rw [Vars.show, if_neg hc]⟩

variable (records files)

/-- A line of a recipeSet is printed or not, and at the end of one the file can be left. -/
theorem plain_line_step {line : Text} (h : tagsOf line ⊆ [.recipeSet, .recipeSetEnd])
    (inSet : Bool) (v : Vars) :
    ∃ v', v.Selects v' ∧ (step (outside inSet ((line :: records) :: files) v) =
        some (outside false files v') ∨
      step (outside inSet ((line :: records) :: files) v) =
        some (outside (rangeAfter inSet (has .recipeSet line) (has .recipeSetEnd line))
          (records :: files) v')) := by
  have hj : has .job line = false := has_eq_false_of_subset h (by decide)
  have hn : has .notify line = false := has_eq_false_of_subset h (by decide)
  rw [outside_step hj hn]
  cases hfire : rangeFires inSet (has .recipeSet line) with
  | false =>
    have hout : inSet = false := (Bool.or_eq_false_iff.mp hfire).1
    subst hout
    refine ⟨v, Vars.Selects.refl v, Or.inr ?_⟩
    simp [recipeRule, outside, ready, rangeAfter, hfire]
  | true =>
    cases hend : has .recipeSetEnd line with
    | false =>
      refine ⟨_, Vars.Selects.show h v v.currPos, Or.inr ?_⟩
      by_cases hc : v.currPos = v.tPos <;>
        simp [recipeRule, outside, ready, rangeAfter, print, Vars.show, Vars.print, hfire, hend, hc]
    | true =>
      by_cases hlt : v.tPos < v.currPos+1
      · refine ⟨_, Vars.Selects.show h v 0, Or.inl ?_⟩
        by_cases hc : v.currPos = v.tPos <;>
          simp [recipeRule, outside, ready, rangeAfter, print, Vars.show, Vars.print, nextfile,
            hfire, hend, hc, hlt]
      · -- below the target nothing is printed
        have hc : v.currPos ≠ v.tPos := by omega
        refine ⟨_, Vars.Selects.show h v (v.currPos+1), Or.inr ?_⟩
        simp [recipeRule, outside, ready, rangeAfter, Vars.show, Vars.print, hfire, hend, hc, hlt]

/-- Behind the closing tag the recipeSet is left, if the file is not left with it. -/
theorem plain_set_steps {front : List Text} {stop : Text} (hplain : Plain (front ++ [stop]))
    (hstop : has .recipeSetEnd stop = true) (inSet : Bool) (v : Vars) :
    ∃ v', v.Selects v' ∧
      (Reaches step (outside inSet ((front ++ stop :: records) :: files) v)
          (outside false files v') ∨
        Reaches step (outside inSet ((front ++ stop :: records) :: files) v)
          (outside false (records :: files) v')) := by
  induction front generalizing inSet v with
  | nil =>
    obtain ⟨v', hv, hstep⟩ := plain_line_step records files (hplain stop List.mem_cons_self) inSet v
    have hclosed : rangeAfter inSet (has .recipeSet stop) (has .recipeSetEnd stop) = false := by
      rw [rangeAfter, hstop, Bool.not_true, Bool.and_false]
    rw [hclosed] at hstep
    exact ⟨v', hv, hstep.imp Reaches.single Reaches.single⟩
  | cons line front ih =>
    have htags := hplain line List.mem_cons_self
    obtain ⟨v', hv, hleft | hstep⟩ :=
      plain_line_step (front ++ stop :: records) files htags inSet v
    · exact ⟨v', hv, Or.inl (Reaches.single hleft)⟩
    · obtain ⟨v'', hv', hrest⟩ := ih (fun l hl => hplain l (List.mem_cons_of_mem line hl)) _ v'
      exact ⟨v'', hv.trans hv', hrest.imp (Reaches.head hstep) (Reaches.head hstep)⟩

theorem plain_sets_steps (sets : List PlainSet) (v : Vars) :
    ∃ v', v.Selects v' ∧
      (Reaches step (ready ((sets.flatMap PlainSet.lines ++ records) :: files) v)
          (ready files v') ∨
        Reaches step (ready ((sets.flatMap PlainSet.lines ++ records) :: files) v)
          (ready (records :: files) v')) := by
  induction sets generalizing v with
  | nil => exact ⟨v, Vars.Selects.refl v, Or.inr (Reaches.refl _)⟩
  | cons r sets ih =>
    have hlines : (r :: sets).flatMap PlainSet.lines ++ records =
        r.front ++ r.stop :: (sets.flatMap PlainSet.lines ++ records) := by
      simp [PlainSet.lines]
    rw [hlines]
    obtain ⟨v', hv, hleft | hset⟩ :=
      plain_set_steps (sets.flatMap PlainSet.lines ++ records) files r.tags r.stop_ends false v
    · exact ⟨v', hv, Or.inl hleft⟩
    · obtain ⟨v'', hv', hrest⟩ := ih v'
      exact ⟨v'', hv.trans hv', hrest.imp hset.trans hset.trans⟩

/-- One whole file: the header lines that the flags let through, and lines of its recipeSets. -/
theorem plain_file_steps (f : PlainJobFile) (v : Vars) :
    ∃ v', Reaches step (ready (f.lines :: files) v) (ready files v') ∧
      Vars.Selects { v.print (headerLines v.jobStart v.whiteBoard v.mailCc f.toFrame) with
        jobStart := true, whiteBoard := true, mailCc := v.mailCc || f.notify.isSome, l := v'.l }
        v' := by
  have hlines : f.lines = f.job :: (f.notifyLines ++ f.whiteboard ::
      (f.recipeSets.flatMap PlainSet.lines ++ [f.jobEnd])) := by
    simp [PlainJobFile.lines]
  obtain ⟨l', hhead⟩ :=
    head_steps (f.recipeSets.flatMap PlainSet.lines ++ [f.jobEnd]) files f.toFrame v
  rw [← hlines] at hhead
  obtain ⟨v', hv, hsets⟩ := plain_sets_steps [f.jobEnd] files f.recipeSets
    { v.print (headerLines v.jobStart v.whiteBoard v.mailCc f.toFrame) with
      jobStart := true, whiteBoard := true, mailCc := v.mailCc || f.notify.isSome, l := l' }
  have hl : v'.l = l' := by
    obtain ⟨shown, c, -, rfl⟩ := hv
    rfl
  refine ⟨v', ?_, hl ▸ hv⟩
  rcases hsets with hleft | hsets
  · exact hhead.trans hleft
  · apply hhead.trans (hsets.trans _)
    exact Reaches.head (jobEnd_line_step f.jobEnd_tags v') (Reaches.single (file_boundary_step v'))

/-- What can be printed of some files, from a given state of the flags. -/
def Prints : Bool → Bool → Bool → List PlainJobFile → List Text → Prop
  | _, _, _, [], out => out = []
  | jobStart, whiteBoard, mailCc, f :: fs, out =>
    ∃ shown rest, Plain shown ∧ Prints true true (mailCc || f.notify.isSome) fs rest ∧
      out = headerLines jobStart whiteBoard mailCc f.toFrame ++ shown ++ rest

theorem plain_files_steps (fs : List PlainJobFile) (v : Vars) :
    ∃ v' out, Reaches step (ready (linesOf fs) v) (ready [] v') ∧
      v'.out = v.out ++ out ∧ Prints v.jobStart v.whiteBoard v.mailCc fs out := by
  induction fs generalizing v with
  | nil => exact ⟨v, [], Reaches.refl _, (List.append_nil _).symm, rfl⟩
  | cons f fs ih =>
    obtain ⟨v', hfile, shown, c, hplain, hv⟩ := plain_file_steps (linesOf fs) f v
    obtain ⟨v'', rest, hrest, hout, hprints⟩ := ih v'
    have hflags : v'.jobStart = true ∧ v'.whiteBoard = true ∧
        v'.mailCc = (v.mailCc || f.notify.isSome) ∧
        v'.out = v.out ++ headerLines v.jobStart v.whiteBoard v.mailCc f.toFrame ++ shown := by
      rw [hv]
      exact ⟨rfl, rfl, rfl, rfl⟩
    obtain ⟨hjob, hboard, hmail, hout'⟩ := hflags
    rw [hjob, hboard, hmail] at hprints
    refine ⟨v'', _, hfile.trans hrest, ?_, shown, rest, hplain, hprints, rfl⟩
    rw [hout, hout']
    simp only [List.append_assoc]

end Steps

theorem Free.append {tag : Tag} {a b : List Text} (ha : Free tag a) (hb : Free tag b) :
    Free tag (a ++ b) := by
  intro line hm
  exact (List.mem_append.mp hm).elim (ha line) (hb line)

theorem Free.filter {tag : Tag} {a : List Text} (h : Free tag a) : a.filter (has tag) = [] := by
  apply List.filter_eq_nil_iff.mpr
  intro line hm
  simp [h line hm]

theorem free_of_tags {tag : Tag} {s : List Tag} {a : List Text}
    (h : ∀ line ∈ a, tagsOf line ⊆ s) (ht : tag ∉ s) : Free tag a :=
  fun line hm => has_eq_false_of_subset (h line hm) ht

theorem free_line {tag own : Tag} {line : Text} (h : tagsOf line = [own]) (ht : tag ≠ own) :
    Free tag [line] := by
  intro line' hm
  obtain rfl := List.mem_singleton.mp hm
  rw [has_eq_mem_tagsOf, h]
  simpa using ht

theorem Free.oneShot {tag : Tag} {lines : List Text} (h : Free tag lines) (flag : Bool) :
    Free tag (oneShot flag lines) :=
  fun line hm => h line (mem_of_mem_oneShot hm)

/-- All that is printed behind the first file carries tags of notify blocks and recipeSets only. -/
theorem tags_of_prints {mailCc : Bool} {fs : List PlainJobFile} {out : List Text}
    (h : Prints true true mailCc fs out) :
    ∀ line ∈ out, tagsOf line ⊆ [.notify, .notifyEnd, .recipeSet, .recipeSetEnd] := by
  induction fs generalizing mailCc out with
  | nil =>
    rw [h]
    exact nofun
  | cons f fs ih =>
    obtain ⟨shown, rest, hplain, hrest, rfl⟩ := h
    intro line hm
    simp only [headerLines, oneShot, if_true, List.nil_append, List.append_nil,
      List.mem_append] at hm
    rcases hm with (hm | hm) | hm
    · have hn := f.tagsOf_notifyLines (mem_of_mem_oneShot hm)
      exact List.Subset.trans hn (by simp)
    · exact List.Subset.trans (hplain line hm) (by simp)
    · exact ih hrest line hm

theorem plain_of_prints {fs : List PlainJobFile} {out : List Text}
    (h : Prints true true true fs out) : Plain out := by
  induction fs generalizing out with
  | nil =>
    rw [h]
    exact nofun
  | cons f fs ih =>
    obtain ⟨shown, rest, hplain, hrest, rfl⟩ := h
    -- all three flags are set, so no header line is left
    rw [Bool.true_or] at hrest
    show Plain (shown ++ rest)
    exact List.forall_mem_append.mpr ⟨hplain, ih hrest⟩

theorem firstNotify_cons_some (f : PlainJobFile) (fs : List PlainJobFile)
    (h : f.notify.isSome = true) : firstNotify (f :: fs) = f.notifyLines := by
  obtain ⟨n, hn⟩ := Option.isSome_iff_exists.mp h
  simp [firstNotify, Frame.notifyLines, hn]

theorem firstNotify_cons_none (f : PlainJobFile) (fs : List PlainJobFile) (h : f.notify = none) :
    firstNotify (f :: fs) = firstNotify fs := by
  simp [firstNotify, h]

/-- The first notify block is printed whole, wherever in the run its file stands. -/
theorem notify_of_prints {jobStart whiteBoard : Bool} {fs : List PlainJobFile} {out : List Text}
    (h : Prints jobStart whiteBoard false fs out) :
    ∃ before after, out = before ++ firstNotify fs ++ after ∧
      Free .notify before ∧ Free .notifyEnd before ∧ Free .notify after ∧
      Free .notifyEnd after := by
  induction fs generalizing jobStart whiteBoard out with
  | nil =>
    rw [h]
    exact ⟨[], [], rfl, nofun, nofun, nofun, nofun⟩
  | cons f fs ih =>
    obtain ⟨shown, rest, hplain, hrest, rfl⟩ := h
    have hjob (tag : Tag) (ht : tag ≠ .job) : Free tag (oneShot jobStart [f.job]) :=
      (free_line f.job_tags ht).oneShot jobStart
    have hboard (tag : Tag) (ht : tag ≠ .whiteboard) :
        Free tag (oneShot whiteBoard [f.whiteboard]) :=
      (free_line f.whiteboard_tags ht).oneShot whiteBoard
    have hset (tag : Tag) (ht : tag ∉ [Tag.recipeSet, Tag.recipeSetEnd]) : Free tag shown :=
      free_of_tags hplain ht
    cases hn : f.notify with
    | some n =>
      -- this file has the first block: nothing later carries a notify tag
      rw [hn, Option.isSome_some, Bool.or_true] at hrest
      have hlater (tag : Tag) (ht : tag ∉ [Tag.recipeSet, Tag.recipeSetEnd]) : Free tag rest :=
        free_of_tags (plain_of_prints hrest) ht
      refine ⟨oneShot jobStart [f.job], oneShot whiteBoard [f.whiteboard] ++ shown ++ rest, ?_,
        hjob _ (by decide), hjob _ (by decide),
        ((hboard _ (by decide)).append (hset _ (by decide))).append (hlater _ (by decide)),
        ((hboard _ (by decide)).append (hset _ (by decide))).append (hlater _ (by decide))⟩
      rw [firstNotify_cons_some f fs (by simp [hn])]
      simp [headerLines, oneShot]
    | none =>
      -- the block, if any, comes from a later file, behind lines without its tags
      rw [hn, Option.isSome_none, Bool.or_false] at hrest
      obtain ⟨before, after, rfl, hb, hbe, ha, hae⟩ := ih hrest
      have hhead (tag : Tag) (ht : tag ∉ [Tag.job, .whiteboard, .recipeSet, .recipeSetEnd]) :
          Free tag (oneShot jobStart [f.job] ++ oneShot whiteBoard [f.whiteboard] ++ shown) := by
        simp only [List.mem_cons, List.not_mem_nil, or_false, not_or] at ht
        exact ((hjob tag ht.1).append (hboard tag ht.2.1)).append (hset tag (by simp [ht]))
      refine ⟨oneShot jobStart [f.job] ++ oneShot whiteBoard [f.whiteboard] ++ shown ++ before,
        after, ?_, (hhead _ (by decide)).append hb, (hhead _ (by decide)).append hbe, ha, hae⟩
      rw [firstNotify_cons_none f fs hn]
      simp [headerLines, oneShot, Frame.notifyLines, hn]

theorem filter_single {tag : Tag} {a b : List Text} {line : Text} (ha : Free tag a)
    (hl : has tag line = true) (hb : Free tag b) : (a ++ line :: b).filter (has tag) = [line] := by
  rw [List.filter_append, List.filter_cons, if_pos hl, ha.filter, hb.filter, List.nil_append]

theorem jobEnd_line_tags : tagsOf "</job>".toList = [.jobEnd] := by decide

section Header

variable {f : PlainJobFile} {fs : List PlainJobFile} {out : List Text}

/-- The first file's header comes first, and behind it no line has a tag of the job or of the
whiteboard. -/
theorem first_of_prints (h : Prints false false false (f :: fs) out) :
    ∃ rest, out = f.job :: (f.notifyLines ++ f.whiteboard :: rest) ∧
      ∀ line ∈ rest, tagsOf line ⊆ [.notify, .notifyEnd, .recipeSet, .recipeSetEnd] := by
  obtain ⟨shown, rest, hplain, hrest, rfl⟩ := h
  refine ⟨shown ++ rest, by simp [headerLines, oneShot], List.forall_mem_append.mpr ⟨?_, ?_⟩⟩
  · exact fun line hm => List.Subset.trans (hplain line hm) (by simp)
  · exact tags_of_prints hrest

theorem free_notifyLines (f : PlainJobFile) {tag : Tag} (h : tag ∉ [Tag.notify, .notifyEnd]) :
    Free tag f.notifyLines :=
  free_of_tags (fun _ hm => f.tagsOf_notifyLines hm) h

theorem filter_job (h : Prints false false false (f :: fs) out) :
    (out ++ ["</job>".toList]).filter (has .job) = [f.job] := by
  obtain ⟨rest, rfl, htags⟩ := first_of_prints h
  have hjob : has .job f.job = true := by simp [has_eq_mem_tagsOf, f.job_tags]
  have hrest : Free .job (f.notifyLines ++ ([f.whiteboard] ++ rest) ++ ["</job>".toList]) := by
    apply Free.append _ (free_line jobEnd_line_tags (by decide))
    apply Free.append (free_notifyLines f (by decide))
    exact (free_line f.whiteboard_tags (by decide)).append (free_of_tags htags (by decide))
  exact filter_single (fun _ hm => absurd hm List.not_mem_nil) hjob hrest

theorem filter_whiteboard (h : Prints false false false (f :: fs) out) :
    (out ++ ["</job>".toList]).filter (has .whiteboard) = [f.whiteboard] := by
  obtain ⟨rest, rfl, htags⟩ := first_of_prints h
  have hboard : has .whiteboard f.whiteboard = true := by
    simp [has_eq_mem_tagsOf, f.whiteboard_tags]
  have hbefore : Free .whiteboard ([f.job] ++ f.notifyLines) :=
    (free_line f.job_tags (by decide)).append (free_notifyLines f (by decide))
  have hafter : Free .whiteboard (rest ++ ["</job>".toList]) :=
    (free_of_tags htags (by decide)).append (free_line jobEnd_line_tags (by decide))
  have hsplit : (f.job :: (f.notifyLines ++ f.whiteboard :: rest)) ++ ["</job>".toList] =
      ([f.job] ++ f.notifyLines) ++ f.whiteboard :: (rest ++ ["</job>".toList]) := by
    simp only [List.cons_append, List.nil_append, List.append_assoc]
  rw [hsplit]
  exact filter_single hbefore hboard hafter

theorem filter_jobEnd (h : Prints false false false (f :: fs) out) :
    (out ++ ["</job>".toList]).filter (has .jobEnd) = ["</job>".toList] := by
  obtain ⟨rest, rfl, htags⟩ := first_of_prints h
  have hfree : Free .jobEnd ([f.job] ++ (f.notifyLines ++ ([f.whiteboard] ++ rest))) := by
    apply Free.append (free_line f.job_tags (by decide))
    apply Free.append (free_notifyLines f (by decide))
    exact (free_line f.whiteboard_tags (by decide)).append (free_of_tags htags (by decide))
  exact filter_single hfree (by decide) (fun _ hm => absurd hm List.not_mem_nil)

end Header

/-- The output has a single merged header, for every list of files and every `t_pos`, set or not. -/
theorem single_merged_header (t : Option ℕ) (f : PlainJobFile) (fs : List PlainJobFile) :
    ∃ fuel out, combineExtract fuel t (linesOf (f :: fs)) = some out ∧ SingleHeader f fs out := by
  obtain ⟨v, out, hrun, hout, hprints⟩ := plain_files_steps (f :: fs) (beginVars t)
  have hend : step (ready [] v) =
      some { ready [] (v.print ["</job>".toList]) with control := .ended } := rfl
  obtain ⟨fuel, hf⟩ := (hrun.trans (Reaches.single hend)).run_eq rfl
  have hprinted : combineExtract fuel t (linesOf (f :: fs)) = some (out ++ ["</job>".toList]) := by
    rw [combineExtract, hf, Option.map_some]
    exact congrArg (fun lines => some (lines ++ ["</job>".toList])) hout
  obtain ⟨before, after, hsplit, hb, hbe, ha, hae⟩ := notify_of_prints hprints
  refine ⟨fuel, _, hprinted, filter_job hprints, filter_whiteboard hprints, ?_,
    filter_jobEnd hprints, List.getLast?_concat⟩
  -- the closing line comes behind all notify lines
  refine ⟨before, after ++ ["</job>".toList], ?_, hb, hbe,
    ha.append (free_line jobEnd_line_tags (by decide)),
    hae.append (free_line jobEnd_line_tags (by decide))⟩
  rw [hsplit, List.append_assoc]

end YuToolbox.CombineExtract
