import Mathlib.Algebra.Order.Ring.Int
import YuToolbox.CombineExtract

/-! Whether `combine_extract.awk` comes to its end. The loop over the notify block tests the
line that `getline` read last, and at the end of all input that line stays as it is. -/
namespace YuToolbox.CombineExtract

open Awk StepRuns

/-- END is reached after finitely many steps, with these lines printed. -/
def Terminates (tPos : Option ℕ) (files : Input) : Prop :=
  ∃ fuel out, combineExtract fuel tPos files = some out

/-- The branch of `headBody` that goes into the notify loop. -/
def entersLoop (s : State) (record : Text) : Bool :=
  rangeFires s.headRange (has .job record) && !(!s.jobStart && has .job record) &&
    !(!s.whiteBoard && has .whiteboard record) && (has .notify record && !s.mailCc)

/-- A closing tag stands somewhere in this input, in this file or a later one. -/
def Closes (input : Input) : Prop := ∃ line ∈ input.flatten, has .notifyEnd line = true

/-- A record that goes into the notify loop has a closing tag behind it. -/
def LoopCloses (s : State) : Prop :=
  match s.control, s.input with
  | .records, (record :: records) :: files =>
    entersLoop s record = true → Closes (records :: files)
  | _, _ => True

/-- Records and file ends that are still to come. -/
def size (input : Input) : ℕ := (input.map (fun records => records.length+1)).sum

theorem getline_some {input rest : Input} {record : Text}
    (h : getline input = some (record, rest)) :
    input.flatten = record :: rest.flatten ∧ size rest < size input := by
  induction input with
  | nil => cases h
  | cons records files ih =>
    cases records with
    | nil =>
      obtain ⟨hflat, hlt⟩ := ih h
      refine ⟨hflat, Nat.lt_of_lt_of_le hlt ?_⟩
      simp only [size, List.map_cons, List.sum_cons]
      omega
    | cons r records =>
      obtain ⟨rfl, rfl⟩ := Prod.mk.inj (Option.some.inj h)
      refine ⟨rfl, ?_⟩
      simp only [size, List.map_cons, List.sum_cons, List.length_cons]
      omega

theorem getline_none {input : Input} (h : getline input = none) : input.flatten = [] := by
  induction input with
  | nil => rfl
  | cons records files ih =>
    cases records with
    | nil => exact ih h
    | cons r records => cases h

theorem nextfile_suffix (input : Input) : (nextfile input).flatten <:+ input.flatten := by
  cases input with
  | nil => exact List.suffix_refl _
  | cons records files => exact ⟨records, rfl⟩

theorem size_nextfile_le (input : Input) : size (nextfile input) ≤ size input := by
  cases input with
  | nil => exact Nat.le_refl _
  | cons records files =>
    simp only [nextfile, List.tail_cons, size, List.map_cons, List.sum_cons]
    omega

/-- What a record does that stays out of the loop. -/
structure Passes (s t : State) : Prop where
  control : t.control = s.control
  l : t.l = s.l
  size : size t.input ≤ size s.input
  mailCc : t.mailCc = false → s.mailCc = false
  suffix : t.input.flatten <:+ s.input.flatten

section Rules

variable {record : Text} {s : State}

theorem Passes.trans {s t u : State} (hst : Passes s t) (htu : Passes t u) : Passes s u :=
  ⟨htu.control.trans hst.control, htu.l.trans hst.l, htu.size.trans hst.size,
    fun h => hst.mailCc (htu.mailCc h), htu.suffix.trans hst.suffix⟩

theorem passes_notifyRule (record : Text) (s : State) : Passes s (notifyRule record s) := by
  unfold notifyRule
  simp only
  split_ifs <;> constructor <;> simp [print]

theorem passes_recipeRule (record : Text) (s : State) : Passes s (recipeRule record s) := by
  unfold recipeRule
  simp only
  split_ifs <;> constructor <;> simp [print, size_nextfile_le, nextfile_suffix]

/-- Only the last branch of `headBody` goes into the loop. -/
theorem passes_headBody (hfires : rangeFires s.headRange (has .job record) = true)
    (h : entersLoop s record = false) (inRange : Bool) :
    Passes s (headBody record { s with headRange := inRange }) := by
  unfold headBody
  split_ifs with hjob hboard hnotify
  · exact ⟨rfl, rfl, Nat.le_refl _, id, List.suffix_refl _⟩
  · exact ⟨rfl, rfl, Nat.le_refl _, id, List.suffix_refl _⟩
  · have henters : entersLoop s record = true := by
      simp only [Bool.not_eq_true] at hjob hboard
      rw [entersLoop, hfires, hjob, hboard, hnotify]
      rfl
    rw [h] at henters
    cases henters
  · exact ⟨rfl, rfl, Nat.le_refl _, id, List.suffix_refl _⟩

theorem passes_rules (h : entersLoop s record = false) : Passes s (rules record s) := by
  unfold rules
  split_ifs with hfires
  · exact passes_headBody hfires h _
  · exact (passes_notifyRule record s).trans (passes_recipeRule record _)

/-- The record is printed, and then the first line behind it. -/
theorem rules_enters (h : entersLoop s record = true) :
    (rules record s).control = .notifyLoop ∧ s.mailCc = false ∧
      (rules record s).l = (getlineL s).l ∧ (rules record s).input = (getlineL s).input := by
  simp only [entersLoop, Bool.and_eq_true, Bool.not_eq_true'] at h
  obtain ⟨⟨⟨hfires, hjob⟩, hboard⟩, hnotify, hmail⟩ := h
  have hfalse : ¬ false = true := Bool.false_ne_true
  have hbody : rules record s = print (getlineL (print record { s with
      headRange := rangeAfter s.headRange (has .job record) (has .whiteboard record) })).l
      { getlineL (print record { s with
        headRange := rangeAfter s.headRange (has .job record) (has .whiteboard record) }) with
        control := .notifyLoop } := by
    rw [rules, if_pos hfires, headBody, hjob, hboard, hnotify, hmail, if_neg hfalse,
      if_neg hfalse]
    rfl
  rw [hbody]
  refine ⟨rfl, hmail, ?_, ?_⟩
  all_goals
    simp only [getlineL, print]
    cases getline s.input <;> rfl

end Rules

section Loop

variable {s : State}

/-- The loop ends at the line in hand or at one that is still to be read. -/
def Pending (s : State) : Prop := has .notifyEnd s.l = true ∨ Closes s.input

theorem pending_getlineL (h : has .notifyEnd s.l = false) :
    Pending (getlineL s) ↔ Closes s.input := by
  unfold Pending getlineL
  split
  · rename_i record rest hread
    obtain ⟨hflat, -⟩ := getline_some hread
    simp only [Closes, hflat, List.mem_cons, exists_eq_or_imp]
  · rename_i hread
    have hflat := getline_none hread
    simp [Closes, hflat, h]

theorem size_getlineL_le (s : State) : size (getlineL s).input ≤ size s.input := by
  unfold getlineL
  split
  · exact Nat.le_of_lt (getline_some ‹_›).2
  · exact Nat.le_refl _

theorem suffix_getlineL (s : State) : (getlineL s).input.flatten <:+ s.input.flatten := by
  unfold getlineL
  split
  · rename_i hread
    rw [(getline_some hread).1]
    exact List.suffix_cons _ _
  · exact List.suffix_refl _

theorem size_getlineL_lt (h : Closes s.input) : size (getlineL s).input < size s.input := by
  unfold getlineL
  split
  · exact (getline_some ‹_›).2
  · obtain ⟨line, hline, -⟩ := h
    rw [getline_none ‹_›] at hline
    cases hline

theorem step_loop_leave (hc : s.control = .notifyLoop) (hl : has .notifyEnd s.l = true) :
    step s = some { s with mailCc := true, control := .records } := by
  rw [step, hc]
  simp only [hl, if_true]

theorem step_loop_read (hc : s.control = .notifyLoop) (hl : has .notifyEnd s.l = false) :
    step s = some (print (getlineL s).l (getlineL s)) := by
  rw [step, hc]
  simp only [hl, Bool.false_eq_true, if_false]

theorem control_getlineL (s : State) : (getlineL s).control = s.control := by
  unfold getlineL
  split <;> rfl

/-- With a closing tag ahead the loop is left behind it. -/
theorem loop_reaches (hc : s.control = .notifyLoop) (hp : Pending s) :
    ∃ t, Reaches step s t ∧ t.control = .records ∧ size t.input ≤ size s.input := by
  induction hn : size s.input using Nat.strongRecOn generalizing s with
  | ind n ih =>
    subst hn
    cases hl : has .notifyEnd s.l with
    | true => exact ⟨_, Reaches.single (step_loop_leave hc hl), rfl, Nat.le_refl _⟩
    | false =>
      -- the tag is not in hand, so it is in what is read next
      have hcloses : Closes s.input := hp.resolve_left (by rw [hl]; exact Bool.false_ne_true)
      have hlt := size_getlineL_lt hcloses
      have hnext : Pending (print (getlineL s).l (getlineL s)) := (pending_getlineL hl).mpr hcloses
      obtain ⟨t, hreach, ht, hsize⟩ := ih (size (getlineL s).input) hlt
        (s := print (getlineL s).l (getlineL s)) ((control_getlineL s).trans hc) hnext rfl
      exact ⟨t, Reaches.head (step_loop_read hc hl) hreach, ht,
        Nat.le_of_lt (Nat.lt_of_le_of_lt hsize hlt)⟩

/-- Without one it prints the same line for ever. -/
theorem loop_diverges (hc : s.control = .notifyLoop) (hp : ¬ Pending s) : ¬ Halts step s := by
  refine not_halts_of_invariant (I := fun s => s.control = .notifyLoop ∧ ¬ Pending s) ?_ ⟨hc, hp⟩
  rintro s ⟨hc, hp⟩
  have hl : has .notifyEnd s.l = false := by
    rw [← Bool.not_eq_true]
    exact fun hl => hp (.inl hl)
  refine ⟨_, step_loop_read hc hl, (control_getlineL s).trans hc, ?_⟩
  intro hnext
  exact hp (.inr ((pending_getlineL hl).mp hnext))

end Loop

section Ends

variable {s t : State}

/-- Until the first notify block is closed nothing has been read into `l`. -/
def Unread (s : State) : Prop := s.control = .records → s.mailCc = false → s.l = []

theorem unread_step (h : step s = some t) (hs : Unread s) : Unread t := by
  unfold step at h
  split at h
  · cases h
  · rename_i hc
    split at h
    · obtain rfl := Option.some.inj h
      intro _ hmail
      cases hmail
    · obtain rfl := Option.some.inj h
      intro hrecords
      have hloop : s.control = .records := (control_getlineL s).symm.trans hrecords
      rw [hc] at hloop
      cases hloop
  · rename_i hc
    split at h
    · obtain rfl := Option.some.inj h
      intro hrecords
      cases hrecords
    · obtain rfl := Option.some.inj h
      exact fun _ => hs hc
    · obtain rfl := Option.some.inj h
      rename_i record records files hinput
      intro hrecords hmail
      cases henters : entersLoop { s with input := records :: files } record with
      | true =>
        rw [(rules_enters henters).1] at hrecords
        cases hrecords
      | false =>
        have hpass := passes_rules henters
        rw [hpass.l]
        exact hs hc (hpass.mailCc hmail)

theorem unread_of_reaches {tPos : Option ℕ} {files : Input}
    (h : Reaches step (ready files (beginVars tPos)) s) : Unread s := by
  induction h with
  | refl => exact fun _ _ => rfl
  | tail _ hstep ih => exact unread_step hstep ih

/-- Nothing is read twice. -/
theorem suffix_step (h : step s = some t) : t.input.flatten <:+ s.input.flatten := by
  unfold step at h
  split at h
  · cases h
  · split at h
    · obtain rfl := Option.some.inj h
      exact List.suffix_refl _
    · obtain rfl := Option.some.inj h
      exact suffix_getlineL s
  · split at h
    · obtain rfl := Option.some.inj h
      exact List.suffix_refl _
    · obtain rfl := Option.some.inj h
      rename_i files hinput
      rw [hinput]
      exact List.suffix_refl _
    · obtain rfl := Option.some.inj h
      rename_i record records files hinput
      have hrest : (records :: files).flatten <:+ s.input.flatten := by
        rw [hinput]
        exact List.suffix_cons record _
      cases henters : entersLoop { s with input := records :: files } record with
      | true =>
        rw [(rules_enters henters).2.2.2]
        exact (suffix_getlineL _).trans hrest
      | false => exact (passes_rules henters).suffix.trans hrest

theorem suffix_of_reaches {s t : State} (h : Reaches step s t) :
    t.input.flatten <:+ s.input.flatten := by
  induction h with
  | refl => exact List.suffix_refl _
  | tail _ hstep ih => exact (suffix_step hstep).trans ih

theorem terminates_iff_halts (tPos : Option ℕ) (files : Input) :
    Terminates tPos files ↔ Halts step (ready files (beginVars tPos)) := by
  rw [halts_iff_run]
  apply exists_congr
  intro fuel
  simp only [combineExtract, Option.map_eq_some_iff]
  exact ⟨fun ⟨_, t, ht, _⟩ => ⟨t, ht⟩, fun ⟨t, ht⟩ => ⟨_, t, ht, rfl⟩⟩

theorem pending_rules {record : Text} {records : List Text} {files : Input} (hs : Unread s)
    (hc : s.control = .records)
    (h : entersLoop { s with input := records :: files } record = true) :
    Pending (rules record { s with input := records :: files }) ↔ Closes (records :: files) := by
  obtain ⟨-, hmail, hl, hinput⟩ := rules_enters h
  have hnil : s.l = [] := hs hc hmail
  have hnot : has .notifyEnd s.l = false := by
    rw [hnil]
    decide
  have hread := pending_getlineL (s := { s with input := records :: files }) hnot
  rw [← hread, Pending, Pending, hl, hinput]

/-- A record leads to the next one, or to the notify loop and through it. -/
theorem record_reaches {record : Text} {records : List Text} {files : Input} (hs : Unread s)
    (hc : s.control = .records) (hinput : s.input = (record :: records) :: files)
    (hcloses : LoopCloses s) :
    ∃ t, Reaches step s t ∧ t.control = .records ∧ size t.input ≤ size (records :: files) := by
  have hstep : step s = some (rules record { s with input := records :: files }) := by
    rw [step, hc]
    simp only [hinput]
  rw [LoopCloses, hc, hinput] at hcloses
  cases henters : entersLoop { s with input := records :: files } record with
  | false =>
    have hpass := passes_rules henters
    exact ⟨_, Reaches.single hstep, hpass.control.trans hc, hpass.size⟩
  | true =>
    obtain ⟨hloop, -, -, hread⟩ := rules_enters henters
    have hpending := (pending_rules hs hc henters).mpr (hcloses henters)
    obtain ⟨t, hreach, ht, hsize⟩ := loop_reaches hloop hpending
    refine ⟨t, Reaches.head hstep hreach, ht, Nat.le_trans hsize ?_⟩
    rw [hread]
    exact size_getlineL_le _

/-- What is still to be read, END included, gets smaller from record to record. -/
theorem halts_of_loopCloses {tPos : Option ℕ} {files : Input}
    (h : ∀ s, Reaches step (ready files (beginVars tPos)) s → LoopCloses s) :
    Halts step (ready files (beginVars tPos)) := by
  refine halts_of_measure (fun s => size s.input+if s.control = .records then 1 else 0)
    (P := fun s => Reaches step (ready files (beginVars tPos)) s ∧ s.control ≠ .notifyLoop) ?_
    ⟨Reaches.refl _, nofun⟩
  rintro s ⟨hreach, hloop⟩
  cases hc : s.control with
  | ended => exact .inl (by rw [step, hc])
  | notifyLoop => exact absurd hc hloop
  | records =>
    right
    rw [if_pos rfl]
    have hnext : ∃ t, Reaches step s t ∧ t.control ≠ .notifyLoop ∧
        size t.input+(if t.control = .records then 1 else 0) < size s.input+1 := by
      cases hinput : s.input with
      | nil =>
        refine ⟨print "</job>".toList { s with control := .ended }, Reaches.single ?_, nofun, ?_⟩
        · rw [step, hc]
          simp only [hinput]
        · simp [print, hinput]
      | cons records files =>
        cases records with
        | nil =>
          refine ⟨{ s with input := files }, Reaches.single ?_, hloop, ?_⟩
          · rw [step, hc]
            simp only [hinput]
          · simp [size, hc]
        | cons record records =>
          have hs := unread_of_reaches hreach
          obtain ⟨t, ht, htc, hsize⟩ := record_reaches hs hc hinput (h s hreach)
          refine ⟨t, ht, by rw [htc]; decide, ?_⟩
          rw [htc, if_pos rfl]
          simp only [size, List.map_cons, List.sum_cons, List.length_cons] at hsize ⊢
          omega
    obtain ⟨t, ht, htc, hlt⟩ := hnext
    exact ⟨t, ht, ⟨hreach.trans ht, htc⟩, hlt⟩

/-- A state that goes into the loop without a closing tag behind it never comes out. -/
theorem loopCloses_of_halts (hs : Unread s) (h : Halts step s) : LoopCloses s := by
  unfold LoopCloses
  split
  · rename_i record records files hc hinput
    intro henters
    have hstep : step s = some (rules record { s with input := records :: files }) := by
      rw [step, hc]
      simp only [hinput]
    have hrest := (Reaches.single hstep).halts h
    have henters : entersLoop { s with input := records :: files } record = true := henters
    by_contra hcloses
    exact loop_diverges (rules_enters henters).1
      (fun hp => hcloses ((pending_rules hs hc henters).mp hp)) hrest
  · trivial

end Ends

/-- The script comes to END exactly when no record goes into the notify loop without a closing
tag in a line behind it, in its file or a later one. -/
theorem terminates_iff (tPos : Option ℕ) (files : Input) : Terminates tPos files ↔
    ∀ s, Reaches step (ready files (beginVars tPos)) s → LoopCloses s := by
  rw [terminates_iff_halts]
  constructor
  · intro h s hreach
    exact loopCloses_of_halts (unread_of_reaches hreach) (hreach.halts h)
  · exact halts_of_loopCloses

/-- A closing tag behind each line with an opening one is enough. -/
theorem terminates_of_closing (tPos : Option ℕ) {files : Input}
    (h : ∀ before line after, files.flatten = before ++ line :: after → has .notify line = true →
      ∃ line' ∈ after, has .notifyEnd line' = true) : Terminates tPos files := by
  rw [terminates_iff_halts]
  apply halts_of_loopCloses
  intro s hreach
  unfold LoopCloses
  split
  · rename_i record records files' _ hinput
    intro henters
    obtain ⟨before, hbefore⟩ := suffix_of_reaches hreach
    rw [hinput] at hbefore
    apply h before record (records :: files').flatten hbefore.symm
    simp only [entersLoop, Bool.and_eq_true] at henters
    exact henters.2.1
  · trivial

/-- A notify block on one line: its closing tag is not looked at, and none follows. -/
theorem not_terminates_oneLine :
    ¬ ∀ (tPos : Option ℕ) (files : Input), Terminates tPos files := by
  intro h
  have hhalts := (terminates_iff_halts none
    [["<job>".toList, "<notify></notify>".toList]]).mp (h none _)
  have hstep : step (ready [["<job>".toList, "<notify></notify>".toList]] (beginVars none)) =
      some (rules "<job>".toList
        (ready [["<notify></notify>".toList]] (beginVars none))) := rfl
  have hreach := Reaches.single hstep
  have hloop := loopCloses_of_halts (unread_of_reaches hreach) (hreach.halts hhalts)
  have henters : entersLoop { rules "<job>".toList (ready [["<notify></notify>".toList]]
      (beginVars none)) with input := [[]] } "<notify></notify>".toList = true := by decide
  obtain ⟨line, hline, -⟩ := hloop henters
  cases hline

end YuToolbox.CombineExtract
