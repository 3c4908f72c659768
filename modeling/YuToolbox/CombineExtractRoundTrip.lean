import YuToolbox.CombineExtractHeader
import YuToolbox.CombineExtractSelection

/-! The output of `combine_extract.awk` is a job file itself, so a second run takes single
recipeSets out of it again. -/
namespace YuToolbox.CombineExtract

open Awk StepRuns

/-- The recipeSets that a run prints, from a given state of its counter. -/
def pickedSets (t : ℕ) : ℕ → List JobFile → List RecipeSet
  | _, [] => []
  | c, f :: fs =>
    f.recipeSets[t-c]?.toList ++ pickedSets t (nextPos t c f.recipeSets.length) fs

/-- No file but the first brings a notify block that has not been printed before. -/
def NotifyFirst (f : JobFile) (fs : List JobFile) : Prop :=
  f.notify.isSome = true ∨ ∀ g ∈ fs, g.notify = none

/-- The job file that a run makes of its files. -/
def merged (t : ℕ) (f : JobFile) (fs : List JobFile) : JobFile where
  job := f.job
  notify := f.notify
  whiteboard := f.whiteboard
  recipeSets := pickedSets t 0 (f :: fs)
  jobEnd := "</job>".toList
  job_tags := f.job_tags
  whiteboard_tags := f.whiteboard_tags
  jobEnd_tags := jobEnd_line_tags

theorem linesAt_eq (sets : List RecipeSet) (i : ℕ) :
    linesAt sets i = sets[i]?.toList.flatMap RecipeSet.lines := by
  cases h : sets[i]? with
  | none => simp only [linesAt, h, Option.map_none, Option.getD_none, Option.toList_none,
      List.flatMap_nil]
  | some r => simp only [linesAt, h, Option.map_some, Option.getD_some, Option.toList_some,
      List.flatMap_singleton]

/-- Behind the first file only recipeSets are printed. -/
theorem printed_picked (t c : ℕ) {mailCc : Bool} {fs : List JobFile}
    (h : mailCc = true ∨ ∀ g ∈ fs, g.notify = none) :
    printed t true true mailCc c fs = (pickedSets t c fs).flatMap RecipeSet.lines := by
  induction fs generalizing c mailCc with
  | nil => rfl
  | cons f fs ih =>
    have hnotify : oneShot mailCc f.notifyLines = [] := by
      rcases h with rfl | hnone
      · rfl
      · have hlines : f.notifyLines = [] := by
          rw [Frame.notifyLines, hnone f List.mem_cons_self]
          rfl
        rw [hlines]
        cases mailCc <;> rfl
    have hheader : headerLines true true mailCc f.toFrame = [] := by
      rw [headerLines, hnotify]
      rfl
    have hrest : (mailCc || f.notify.isSome) = true ∨ ∀ g ∈ fs, g.notify = none := by
      rcases h with rfl | hnone
      · exact Or.inl rfl
      · exact Or.inr (fun g hg => hnone g (List.mem_cons_of_mem f hg))
    rw [printed, hheader, ih _ hrest, pickedSets, List.flatMap_append, linesAt_eq]
    rfl

/-- The first file brings the whole header. -/
theorem headerLines_first (f : Frame) :
    headerLines false false false f = f.job :: f.notifyLines ++ [f.whiteboard] := rfl

/-- The output is the merged file. -/
theorem printed_merged (t : ℕ) {f : JobFile} {fs : List JobFile} (h : NotifyFirst f fs) :
    printed t false false false 0 (f :: fs) ++ ["</job>".toList] = (merged t f fs).lines := by
  have hrest := printed_picked t (nextPos t 0 f.recipeSets.length) h
  rw [printed, headerLines_first, Bool.false_or, hrest, linesAt_eq]
  simp only [JobFile.lines, merged, Frame.notifyLines, pickedSets, List.flatMap_append,
    List.append_assoc, List.cons_append, List.nil_append]

theorem printed_extract (i : ℕ) (f : JobFile) :
    printed i false false false 0 [f] =
      f.job :: f.notifyLines ++ f.whiteboard :: linesAt f.recipeSets i := by
  simp only [printed, headerLines_first, Nat.sub_zero, List.append_assoc, List.cons_append,
    List.nil_append, List.append_nil]

/-- Where every file has a recipeSet at `t`, those are printed. -/
theorem pickedSets_long {t : ℕ} {fs : List JobFile} (h : ∀ g ∈ fs, t < g.recipeSets.length)
    (i : ℕ) : linesAt (pickedSets t 0 fs) i =
      (fs[i]?.map (fun g => linesAt g.recipeSets t)).getD [] := by
  induction fs generalizing i with
  | nil => rfl
  | cons f fs ih =>
    have hlong := h f List.mem_cons_self
    have hnext : nextPos t 0 f.recipeSets.length = 0 := if_pos (by omega)
    have hset : f.recipeSets[t-0]?.toList = [f.recipeSets[t]] := by
      rw [Nat.sub_zero, List.getElem?_eq_getElem hlong]
      rfl
    rw [pickedSets, hnext, hset, List.singleton_append]
    cases i with
    | zero =>
      rw [linesAt_zero, List.getElem?_cons_zero, Option.map_some, Option.getD_some, linesAt,
        List.getElem?_eq_getElem hlong]
      rfl
    | succ i =>
      rw [linesAt_succ, List.getElem?_cons_succ]
      exact ih (fun g hg => h g (List.mem_cons_of_mem f hg)) i

/-- What a run has combined is a job file, and a second run takes it apart: with the header of the
first file, position `i` gives the `i`-th recipeSet that has been picked, which is that of the
`i`-th file if no file is too short. -/
theorem combine_extract (t i : ℕ) (f : JobFile) (fs : List JobFile) (h : NotifyFirst f fs) :
    ∃ fuel out, combineExtract fuel (some t) ((f :: fs).map JobFile.lines) = some out ∧
      (∃ g : JobFile, out = g.lines) ∧
      (∃ more, combineExtract more (some i) [out] =
        some (f.job :: f.notifyLines ++ f.whiteboard :: linesAt (pickedSets t 0 (f :: fs)) i ++
          ["</job>".toList])) ∧
      ((∀ g ∈ f :: fs, t < g.recipeSets.length) → linesAt (pickedSets t 0 (f :: fs)) i =
        ((f :: fs)[i]?.map (fun g => linesAt g.recipeSets t)).getD []) := by
  obtain ⟨fuel, hfirst⟩ := combineExtract_output t (f :: fs)
  rw [printed_merged t h] at hfirst
  obtain ⟨more, hsecond⟩ := combineExtract_output i [merged t f fs]
  rw [printed_extract] at hsecond
  exact ⟨fuel, _, hfirst, ⟨merged t f fs, rfl⟩, ⟨more, hsecond⟩,
    fun hlong => pickedSets_long hlong i⟩

theorem combine_extract_plain : ∃ fuel out,
    combineExtract fuel (some 0) ([plainFile [plainSet "a".toList (by decide)],
      plainFile [plainSet "b".toList (by decide)]].map JobFile.lines) = some out ∧
    ∃ more, combineExtract more (some 1) [out] =
      some (["<job>", "<whiteboard/>", "<recipeSet>", "b", "</recipeSet>", "</job>"].map
        String.toList) := by
  have hnone : ∀ g ∈ [plainFile [plainSet "b".toList (by decide)]], g.notify = none := by
    intro g hg
    rw [List.mem_singleton.mp hg]
    rfl
  obtain ⟨fuel, out, hout, -, ⟨more, hmore⟩, -⟩ :=
    combine_extract 0 1 (plainFile [plainSet "a".toList (by decide)]) _ (Or.inr hnone)
  exact ⟨fuel, out, hout, more, hmore⟩

end YuToolbox.CombineExtract
