import Mathlib.Algebra.Order.Ring.Int
import YuToolbox.CombineExtractFiles

/-! Which recipeSets `combine_extract.awk` prints. The counter is reset only on the path
to `nextfile`, so a file with too few recipeSets shifts the selection in the next one. -/
namespace YuToolbox.CombineExtract

open Awk StepRuns

def recipeSetLines (out : List Text) : List Text :=
  rangeRecords (has .recipeSet) (has .recipeSetEnd) false out

def selected (t : ℕ) (fs : List JobFile) : List Text :=
  fs.flatMap (fun f => linesAt f.recipeSets t)

/-- The script ends, and the recipeSet lines it printed are the selected ones. -/
def SelectionLaw (t : ℕ) (fs : List JobFile) : Prop :=
  ∃ fuel out, combineExtract fuel (some t) (fs.map JobFile.lines) = some out ∧
    recipeSetLines out = selected t fs

/-- RecipeSets of the short files (at most `t` recipeSets) directly before a file. -/
def carried (t : ℕ) (before : List JobFile) : ℕ :=
  ((before.reverse.takeWhile (fun f => f.recipeSets.length ≤ t)).map
    (fun f => f.recipeSets.length)).sum

/-- A run of short files has at most `t` recipeSets in all, and the file that ends the run
has the same lines at the shifted index and at `t`. -/
def NoCarryOver (t : ℕ) (fs : List JobFile) : Prop :=
  ∀ before f after, fs = before ++ f :: after →
    if f.recipeSets.length ≤ t then carried t before+f.recipeSets.length ≤ t
    else linesAt f.recipeSets (t-carried t before) = linesAt f.recipeSets t

def picked (t : ℕ) : ℕ → List JobFile → List Text
  | _, [] => []
  | c, f :: fs => linesAt f.recipeSets (t-c) ++ picked t (nextPos t c f.recipeSets.length) fs

theorem recipeSetLines_block (r : RecipeSet) (post : List Text) :
    recipeSetLines (r.lines ++ post) = r.lines ++ recipeSetLines post := by
  have h := rangeRecords_block r.start_begins r.start_separate
    (fun line hm => (r.body_inside line hm).2) r.stop_ends post
  simpa [recipeSetLines, RecipeSet.lines] using h

theorem recipeSetLines_linesAt (sets : List RecipeSet) (i : ℕ) (post : List Text) :
    recipeSetLines (linesAt sets i ++ post) = linesAt sets i ++ recipeSetLines post := by
  cases h : sets[i]? with
  | none => simp [linesAt, h]
  | some r => simpa [linesAt, h] using recipeSetLines_block r post

theorem headerLines_no_recipeSet (jobStart whiteBoard mailCc : Bool) (f : Frame) :
    ∀ line ∈ headerLines jobStart whiteBoard mailCc f, has .recipeSet line = false := by
  intro line hm
  simp only [headerLines, List.mem_append] at hm
  rcases hm with (hm | hm) | hm
  · obtain rfl := List.mem_singleton.mp (mem_of_mem_oneShot hm)
    simp [has_eq_mem_tagsOf, f.job_tags]
  · exact has_eq_false_of_subset (f.tagsOf_notifyLines (mem_of_mem_oneShot hm)) (by decide)
  · obtain rfl := List.mem_singleton.mp (mem_of_mem_oneShot hm)
    simp [has_eq_mem_tagsOf, f.whiteboard_tags]

theorem recipeSetLines_printed (t : ℕ) (fs : List JobFile) (jobStart whiteBoard mailCc : Bool)
    (c : ℕ) :
    recipeSetLines (printed t jobStart whiteBoard mailCc c fs ++ ["</job>".toList]) =
      picked t c fs := by
  induction fs generalizing jobStart whiteBoard mailCc c with
  | nil =>
    simp only [printed, picked]
    decide
  | cons f fs ih =>
    simp only [printed, picked, List.append_assoc]
    rw [recipeSetLines,
      rangeRecords_outside (headerLines_no_recipeSet jobStart whiteBoard mailCc f.toFrame),
      ← recipeSetLines, recipeSetLines_linesAt, ih]

theorem selectionLaw_iff_picked (t : ℕ) (fs : List JobFile) :
    SelectionLaw t fs ↔ picked t 0 fs = selected t fs := by
  constructor
  · -- the output is the same for every fuel that is enough
    rintro ⟨fuel, out, hout, hlaw⟩
    rw [combineExtract_unique hout, recipeSetLines_printed] at hlaw
    exact hlaw
  · intro h
    obtain ⟨fuel, hf⟩ := combineExtract_output t fs
    exact ⟨fuel, _, hf, by rw [recipeSetLines_printed, h]⟩

/-- Two blocks in front of two texts are told apart by their first closing tag. -/
theorem RecipeSet.lines_append_inj (r r' : RecipeSet) {a b : List Text}
    (h : r.lines ++ a = r'.lines ++ b) : r.lines = r'.lines ∧ a = b := by
  have hsplit (body body' : List Text) (hb : ∀ x ∈ body, has .recipeSetEnd x = false)
      (hb' : ∀ x ∈ body', has .recipeSetEnd x = false)
      (he : body ++ r.stop :: a = body' ++ r'.stop :: b) :
      body = body' ∧ r.stop = r'.stop ∧ a = b := by
    clear h
    -- the two closing lines stand at the same place, as no body line closes
    induction body generalizing body' with
    | nil =>
      cases body' with
      | nil => simpa using he
      | cons x body' =>
        have hx : r.stop = x := (List.cons.inj he).1
        have := hb' x List.mem_cons_self
        simp [← hx, r.stop_ends] at this
    | cons x body ih =>
      cases body' with
      | nil =>
        have hx : x = r'.stop := (List.cons.inj he).1
        have := hb x List.mem_cons_self
        simp [hx, r'.stop_ends] at this
      | cons y body' =>
        obtain ⟨rfl, ht⟩ := List.cons.inj he
        obtain ⟨rfl, hs⟩ := ih body' (fun z hz => hb z (List.mem_cons_of_mem _ hz))
          (fun z hz => hb' z (List.mem_cons_of_mem _ hz)) ht
        exact ⟨rfl, hs⟩
  have he : r.start = r'.start ∧ r.body ++ r.stop :: a = r'.body ++ r'.stop :: b := by
    simpa [RecipeSet.lines] using h
  obtain ⟨hbody, hstop, hab⟩ := hsplit r.body r'.body (fun x hx => (r.body_inside x hx).2)
    (fun x hx => (r'.body_inside x hx).2) he.2
  exact ⟨by simp only [RecipeSet.lines, he.1, hbody, hstop], hab⟩

/-- Every recipeSet brings exactly one closing tag. -/
def closings (lines : List Text) : ℕ := lines.countP (has .recipeSetEnd)

theorem closings_append (a b : List Text) : closings (a ++ b) = closings a+closings b :=
  List.countP_append

theorem closings_lines (r : RecipeSet) : closings r.lines = 1 := by
  have hbody : r.body.countP (has .recipeSetEnd) = 0 := by
    apply List.countP_eq_zero.mpr
    intro x hx
    simp [(r.body_inside x hx).2]
  simp [closings, RecipeSet.lines, r.start_separate, hbody, r.stop_ends]

theorem closings_linesAt (sets : List RecipeSet) (i : ℕ) :
    closings (linesAt sets i) = if i < sets.length then 1 else 0 := by
  by_cases h : i < sets.length
  · rw [if_pos h, linesAt, List.getElem?_eq_getElem h]
    exact closings_lines _
  · rw [if_neg h, linesAt, List.getElem?_eq_none (by omega)]
    rfl

/-- The counter only ever makes the script print more recipeSets than selected. -/
theorem closings_selected_le (t : ℕ) (fs : List JobFile) (c : ℕ) (hc : c ≤ t) :
    closings (selected t fs) ≤ closings (picked t c fs) := by
  induction fs generalizing c with
  | nil => exact le_rfl
  | cons f fs ih =>
    have hrest := ih (nextPos t c f.recipeSets.length) (nextPos_le _)
    simp only [selected, List.flatMap_cons, picked, closings_append, closings_linesAt] at hrest ⊢
    split <;> split <;> omega

/-- `NoCarryOver` as the counter meets it, file by file. -/
def Aligned (t : ℕ) : ℕ → List JobFile → Prop
  | _, [] => True
  | c, f :: fs =>
    if f.recipeSets.length ≤ t then
      c+f.recipeSets.length ≤ t ∧ Aligned t (c+f.recipeSets.length) fs
    else linesAt f.recipeSets (t-c) = linesAt f.recipeSets t ∧ Aligned t 0 fs

theorem picked_eq_selected_iff (t : ℕ) (fs : List JobFile) (c : ℕ) (hc : c ≤ t) :
    picked t c fs = selected t fs ↔ Aligned t c fs := by
  induction fs generalizing c with
  | nil => simp [picked, selected, Aligned]
  | cons f fs ih =>
    have hsel : selected t (f :: fs) = linesAt f.recipeSets t ++ selected t fs :=
      List.flatMap_cons
    rw [hsel, picked, Aligned]
    by_cases hshort : f.recipeSets.length ≤ t
    · have hnone : linesAt f.recipeSets t = [] := by
        rw [linesAt, List.getElem?_eq_none hshort]
        rfl
      rw [if_pos hshort, hnone, List.nil_append]
      by_cases hfit : c+f.recipeSets.length ≤ t
      · have hskip : linesAt f.recipeSets (t-c) = [] := by
          rw [linesAt, List.getElem?_eq_none (by omega)]
          rfl
        have hnext : nextPos t c f.recipeSets.length = c+f.recipeSets.length := by
          rw [nextPos, if_neg (by omega)]
        rw [hskip, hnext, List.nil_append, ih _ hfit]
        exact ⟨fun h => ⟨hfit, h⟩, fun h => h.2⟩
      · -- a recipeSet too many is printed, and no later file can make up for it
        refine iff_of_false (fun h => ?_) (fun h => hfit h.1)
        have hcount := congrArg closings h
        have hle := closings_selected_le t fs (nextPos t c f.recipeSets.length) (nextPos_le _)
        rw [closings_append, closings_linesAt, if_pos (by omega)] at hcount
        omega
    · -- the file is left at its target, and the counter starts from 0 again
      rw [if_neg hshort]
      have hnext : nextPos t c f.recipeSets.length = 0 := by
        rw [nextPos, if_pos (by omega)]
      rw [hnext, ← ih 0 (Nat.zero_le t)]
      constructor
      · intro h
        have hat (i : ℕ) (hi : i < f.recipeSets.length) :
            linesAt f.recipeSets i = (f.recipeSets[i]).lines := by
          rw [linesAt, List.getElem?_eq_getElem hi]
          rfl
        rw [hat _ (by omega), hat _ (by omega)] at h ⊢
        exact RecipeSet.lines_append_inj _ _ h
      · rintro ⟨hat, hrest⟩
        rw [hat, hrest]

theorem carried_append (t : ℕ) (before : List JobFile) (f : JobFile) :
    carried t (before ++ [f]) =
      if f.recipeSets.length ≤ t then carried t before+f.recipeSets.length else 0 := by
  unfold carried
  rw [List.reverse_append, List.reverse_singleton, List.singleton_append, List.takeWhile_cons]
  by_cases h : f.recipeSets.length ≤ t
  · simp only [h, decide_true, if_true, List.map_cons, List.sum_cons]
    omega
  · simp [h]

theorem aligned_iff (t : ℕ) (fs before : List JobFile) :
    Aligned t (carried t before) fs ↔
      ∀ mid f after, fs = mid ++ f :: after →
        if f.recipeSets.length ≤ t then carried t (before ++ mid)+f.recipeSets.length ≤ t
        else linesAt f.recipeSets (t-carried t (before ++ mid)) = linesAt f.recipeSets t := by
  -- `before` grows by each file the counter has passed
  induction fs generalizing before with
  | nil => simp [Aligned]
  | cons g fs ih =>
    have hrest := ih (before ++ [g])
    rw [carried_append] at hrest
    have hcons : (∀ mid f after, g :: fs = mid ++ f :: after →
        if f.recipeSets.length ≤ t then carried t (before ++ mid)+f.recipeSets.length ≤ t
        else linesAt f.recipeSets (t-carried t (before ++ mid)) = linesAt f.recipeSets t) ↔
      (if g.recipeSets.length ≤ t then carried t before+g.recipeSets.length ≤ t
        else linesAt g.recipeSets (t-carried t before) = linesAt g.recipeSets t) ∧
      (∀ mid f after, fs = mid ++ f :: after →
        if f.recipeSets.length ≤ t then
          carried t (before ++ [g] ++ mid)+f.recipeSets.length ≤ t
        else linesAt f.recipeSets (t-carried t (before ++ [g] ++ mid)) =
          linesAt f.recipeSets t) := by
      constructor
      · intro h
        refine ⟨by simpa using h [] g fs rfl, ?_⟩
        intro mid f after he
        have hm := h (g :: mid) f after (by rw [he]; rfl)
        simpa only [List.append_assoc, List.singleton_append] using hm
      · rintro ⟨hg, hlater⟩ mid f after he
        cases mid with
        | nil =>
          obtain ⟨rfl, -⟩ := List.cons.inj he
          simpa using hg
        | cons g' mid =>
          obtain ⟨rfl, he'⟩ := List.cons.inj he
          simpa only [List.append_assoc, List.singleton_append] using hlater mid f after he'
    rw [hcons, ← hrest, Aligned]
    split <;> rfl

/-- The selection law holds of a run exactly when the files carry nothing over. -/
theorem recipeSet_selection_iff (t : ℕ) (f : JobFile) (fs : List JobFile) :
    SelectionLaw t (f :: fs) ↔ NoCarryOver t (f :: fs) := by
  rw [selectionLaw_iff_picked, picked_eq_selected_iff t _ 0 (Nat.zero_le t)]
  exact aligned_iff t (f :: fs) []

def plainSet (line : Text) (h : tagsOf line = []) : RecipeSet where
  start := "<recipeSet>".toList
  body := [line]
  stop := "</recipeSet>".toList
  start_begins := by decide
  start_separate := by decide
  body_inside := by simp [has_eq_mem_tagsOf, h]
  stop_ends := by decide
  stop_separate := by decide
  quiet := by
    intro line' hm
    simp only [List.cons_append, List.nil_append, List.mem_cons, List.not_mem_nil, or_false] at hm
    rcases hm with rfl | rfl | rfl
    · decide
    · simp [has_eq_mem_tagsOf, h]
    · decide

def plainFile (sets : List RecipeSet) : JobFile where
  job := "<job>".toList
  notify := none
  whiteboard := "<whiteboard/>".toList
  recipeSets := sets
  jobEnd := "</job>".toList
  job_tags := by decide
  whiteboard_tags := by decide
  jobEnd_tags := by decide

/-- With `t_pos` 1, a file with one recipeSet makes the script take index 0 of the next. -/
theorem recipeSet_selection_carries_over :
    ¬ SelectionLaw 1 [plainFile [plainSet "a0".toList (by decide)],
      plainFile [plainSet "b0".toList (by decide), plainSet "b1".toList (by decide)]] := by
  rw [selectionLaw_iff_picked]
  decide

end YuToolbox.CombineExtract
