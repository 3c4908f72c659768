import Mathlib.Data.List.Forall2
import YuToolbox.AwkInput

/-! `compare.sh`: the awk program that sets two snapshots of `show.sh` side by side. It
pairs rows by their number, which agrees with pairing them by pid only while the same
number of processes stands above each of them. -/
namespace YuToolbox.CompareSnapshots

open Awk

structure State where
  i : ℕ
  nr : ℕ
  a : ℕ → ℕ → Text
  procs : ℕ → ℕ

/-- BEGIN; an element that was never assigned is the empty text. -/
def begin : State where
  i := 0
  nr := 0
  a := fun i j => if i = 0 ∧ j = 0 then "0".toList else []
  procs := fun _ => 0

def key (line : Text) : Text := field 6 line ++ "\t".toList ++ field 7 line

def record (s : State) (line : Text) : State :=
  let procs := Function.update s.procs s.i (s.procs s.i+1)
  { s with
    nr := s.nr+1
    procs := procs
    a := Function.update s.a s.i (Function.update (s.a s.i) (procs s.i) (key line)) }

/-- ENDFILE: `NR` counts the records of all files so far. -/
def endFile (s : State) : State :=
  -- for the second file this is the sum of both
  let procs := Function.update s.procs s.i s.nr
  { s with i := s.i+1, procs := Function.update procs (s.i+1) 0 }

def readFile (s : State) (lines : List Text) : State := endFile (lines.foldl record s)

/-- One turn of the END loop, without the newline that ends it. -/
def row (s : State) (j : ℕ) : Text :=
  padRight 24 (s.a 0 j) ++ "\t".toList ++ padRight 24 (s.a 1 j) ++
    if s.a 0 j = s.a 1 j then " *starved".toList else []

/-- The rows that `compare.sh` prints for the files `old` and `new`. -/
def compare (old new : List Text) : List Text :=
  let s := readFile (readFile begin old) new
  (List.range (s.procs 0)).map (fun j => row s (j+1))

/-- A row of a snapshot: any line with the pid in column 6 and the runtime in column 7. -/
structure Row where
  line : Text
  pid : ℕ
  runtime : ℕ
  pid_column : field 6 line = decimal pid
  runtime_column : field 7 line = decimal runtime

/-- The rows are sorted by pid, decreasing, and no pid stands twice. -/
structure Snapshot where
  rows : List Row
  sorted : rows.Pairwise (fun r r' => r'.pid < r.pid)

def Snapshot.lines (s : Snapshot) : List Text := s.rows.map Row.line

def Row.same (r r' : Row) : Prop := r.pid = r'.pid ∧ r.runtime = r'.runtime

def Row.key (r : Row) : Text := decimal r.pid ++ "\t".toList ++ decimal r.runtime

def Snapshot.rank (s : Snapshot) (pid : ℕ) : ℕ := s.rows.countP (fun r => pid < r.pid)

def marked (out : Text) : Prop := " *starved".toList <:+ out

/-- One row per row of `old`, in order, marked when `new` has the same pid and runtime. -/
def ReportLaw (old new : Snapshot) : Prop :=
  List.Forall₂ (fun r out => padRight 24 r.key <+: out ∧
      (marked out ↔ ∃ r' ∈ new.rows, r.same r'))
    old.rows (compare old.lines new.lines)

theorem key_line (r : Row) : CompareSnapshots.key r.line = r.key := by
  rw [CompareSnapshots.key, r.pid_column, r.runtime_column, Row.key]

theorem isDigit_ne_tab {c : Char} (h : c.isDigit = true) : c ≠ '\t' := by
  rintro rfl
  exact absurd h (by decide)

theorem Row.key_eq_iff (r r' : Row) : r.key = r'.key ↔ r.same r' := by
  constructor
  · intro h
    -- a number has no tab, so the first tab ends the pid
    have htab (n : ℕ) : ∀ c ∈ decimal n, (fun c => decide (c ≠ '\t')) c = true := by
      intro c hc
      simpa using isDigit_ne_tab (isDigit_of_mem_decimal hc)
    have htake (n m : ℕ) : (decimal n ++ "\t".toList ++ decimal m).takeWhile
        (fun c => decide (c ≠ '\t')) = decimal n := by
      rw [List.append_assoc, List.takeWhile_append_of_pos (htab n)]
      simp
    have hpid : decimal r.pid = decimal r'.pid := by
      rw [← htake r.pid r.runtime, ← htake r'.pid r'.runtime]
      exact congrArg _ h
    rw [Row.key, Row.key, hpid] at h
    exact ⟨decimal_injective hpid, decimal_injective (List.append_cancel_left h)⟩
  · rintro ⟨hp, hr⟩
    rw [Row.key, Row.key, hp, hr]

theorem Row.key_ne_nil (r : Row) : r.key ≠ [] := by
  simp [Row.key]

/-- What the records of one file change: their keys go to the file's own rows, behind the
rows that are there. -/
structure Recorded (s : State) (lines : List Text) (t : State) : Prop where
  i : t.i = s.i
  nr : t.nr = s.nr+lines.length
  otherProcs : ∀ i, i ≠ s.i → t.procs i = s.procs i
  otherRows : ∀ i, i ≠ s.i → t.a i = s.a i
  oldRows : ∀ j, j ≤ s.procs s.i → t.a s.i j = s.a s.i j
  newRows : ∀ j, s.procs s.i < j →
    t.a s.i j = (lines[j-s.procs s.i-1]?.map CompareSnapshots.key).getD (s.a s.i j)

theorem foldl_record (lines : List Text) (s : State) : Recorded s lines (lines.foldl record s) := by
  induction lines generalizing s with
  | nil => constructor <;> simp
  | cons line lines ih =>
    have hrest := ih (record s line)
    have hi : (record s line).i = s.i := rfl
    have hcount : (record s line).procs s.i = s.procs s.i+1 := by simp [record]
    have hold := hrest.oldRows
    have hnew := hrest.newRows
    rw [hi, hcount] at hold hnew
    constructor
    case i => exact hrest.i
    case nr =>
      rw [List.foldl_cons, hrest.nr, List.length_cons]
      simp only [record]
      omega
    case otherProcs =>
      intro i hne
      rw [List.foldl_cons, hrest.otherProcs i hne]
      simp [record, hne]
    case otherRows =>
      intro i hne
      rw [List.foldl_cons, hrest.otherRows i hne]
      simp [record, hne]
    case oldRows =>
      intro j hj
      rw [List.foldl_cons, hold j (by omega)]
      simp [record, show j ≠ s.procs s.i+1 by omega]
    case newRows =>
      intro j hj
      by_cases hfirst : j = s.procs s.i+1
      · rw [List.foldl_cons, hold j (by omega), hfirst]
        simp [record]
      · -- a row of the later lines, whose numbers start one further on
        obtain ⟨k, hk⟩ : ∃ k, j = s.procs s.i+k+2 := ⟨j-s.procs s.i-2, by omega⟩
        rw [List.foldl_cons, hnew j (by omega), show j-s.procs s.i-1 = k+1 by omega,
          show j-(s.procs s.i+1)-1 = k by omega, List.getElem?_cons_succ]
        simp [record, hfirst]

/-- Row numbers start at 1; a row that is not there reads as the empty text. -/
theorem compare_eq (old new : List Text) :
    compare old new = (List.range old.length).map (fun j =>
      let k := (old[j]?.map CompareSnapshots.key).getD []
      let k' := (new[j]?.map CompareSnapshots.key).getD []
      padRight 24 k ++ "\t".toList ++ padRight 24 k' ++
        if k = k' then " *starved".toList else []) := by
  have hfirst := foldl_record old begin
  have hi : (old.foldl record begin).i = 0 := hfirst.i
  have hnr : (old.foldl record begin).nr = old.length := hfirst.nr.trans (Nat.zero_add _)
  let s₁ := readFile begin old
  have hi₁ : s₁.i = 1 := congrArg (·+1) hi
  have hprocs₀ : s₁.procs 0 = old.length := by
    simp [s₁, readFile, endFile, hi, hnr]
  have hprocs₁ : s₁.procs 1 = 0 := by
    simp [s₁, readFile, endFile, hi]
  have ha₀ (j : ℕ) : s₁.a 0 (j+1) = (old[j]?.map CompareSnapshots.key).getD [] :=
    hfirst.newRows (j+1) (Nat.succ_pos j)
  have ha₁ (j : ℕ) : s₁.a 1 (j+1) = [] := congrFun (hfirst.otherRows 1 (by decide)) (j+1)
  -- the second file is recorded under its own number, over rows that are still empty
  have hsecond := foldl_record new s₁
  have hnew := hsecond.newRows
  rw [hi₁, hprocs₁] at hnew
  have hi₂ : (new.foldl record s₁).i = 1 := hsecond.i.trans hi₁
  have hcount : (readFile s₁ new).procs 0 = old.length := by
    simp [readFile, endFile, hi₂, hsecond.otherProcs 0 (by rw [hi₁]; decide), hprocs₀]
  have hleft (j : ℕ) : (readFile s₁ new).a 0 (j+1) =
      (old[j]?.map CompareSnapshots.key).getD [] :=
    (congrFun (hsecond.otherRows 0 (by rw [hi₁]; decide)) (j+1)).trans (ha₀ j)
  have hright (j : ℕ) : (readFile s₁ new).a 1 (j+1) =
      (new[j]?.map CompareSnapshots.key).getD [] := by
    have h := hnew (j+1) (Nat.succ_pos j)
    rw [ha₁] at h
    exact h
  change (List.range ((readFile s₁ new).procs 0)).map (fun j => row (readFile s₁ new) (j+1)) = _
  simp only [hcount, row, hleft, hright]

/-- The last character of a printed pair is a blank or a digit, never a letter. -/
theorem marked_iff (k k' : Text) (hk : ∀ c ∈ k', c ≠ 'd') :
    marked (padRight 24 k ++ "\t".toList ++ padRight 24 k' ++
      if k = k' then " *starved".toList else []) ↔ k = k' := by
  by_cases h : k = k'
  · rw [if_pos h]
    exact iff_of_true (List.suffix_append _ _) h
  · rw [if_neg h, List.append_nil]
    refine iff_of_false (fun hm => ?_) h
    obtain ⟨t, ht⟩ := hm
    have hne : padRight 24 k' ≠ [] := by
      intro hnil
      obtain ⟨rfl, hpad⟩ := List.append_eq_nil_iff.mp hnil
      exact absurd hpad (by decide)
    have hlast := congrArg List.getLast? ht
    rw [List.getLast?_append_of_ne_nil _ (by decide), List.getLast?_append_of_ne_nil _ hne] at hlast
    have hmem : 'd' ∈ padRight 24 k' := List.mem_of_getLast? hlast.symm
    simp only [padRight, List.mem_append, List.mem_replicate] at hmem
    rcases hmem with hmem | ⟨-, hmem⟩
    · exact hk _ hmem rfl
    · exact absurd hmem (by decide)

theorem Row.key_no_letter (r : Row) : ∀ c ∈ r.key, c ≠ 'd' := by
  intro c hc
  have hdigit (n : ℕ) (h : c ∈ decimal n) : c ≠ 'd' := by
    rintro rfl
    exact absurd (isDigit_of_mem_decimal h) (by decide)
  simp only [Row.key, List.mem_append] at hc
  rcases hc with (hc | hc) | hc
  · exact hdigit _ hc
  · rintro rfl
    exact absurd hc (by decide)
  · exact hdigit _ hc

theorem countP_above {rows : List Row} (hs : rows.Pairwise (fun r r' => r'.pid < r.pid)) {j : ℕ}
    (hj : j < rows.length) : rows.countP (fun r => (rows[j]).pid < r.pid) = j := by
  induction rows generalizing j with
  | nil => exact absurd hj (Nat.not_lt_zero j)
  | cons r rows ih =>
    obtain ⟨hr, hrows⟩ := List.pairwise_cons.mp hs
    cases j with
    | zero =>
      apply List.countP_eq_zero.mpr
      intro r' hr'
      rcases List.mem_cons.mp hr' with rfl | hr'
      · simp
      · have hlt := hr r' hr'
        simp only [List.getElem_cons_zero, decide_eq_true_eq]
        omega
    | succ j =>
      have hj' : j < rows.length := Nat.lt_of_succ_lt_succ hj
      have habove := hr (rows[j]) (List.getElem_mem hj')
      simp only [List.getElem_cons_succ, List.countP_cons, habove, decide_true, if_true,
        ih hrows hj']

theorem Snapshot.rank_getElem (s : Snapshot) (j : ℕ) (hj : j < s.rows.length) :
    s.rank (s.rows[j]).pid = j :=
  countP_above s.sorted hj

/-- A row is marked by the row of the same number in `new`. -/
theorem reportLaw_iff_rows (old new : Snapshot) :
    ReportLaw old new ↔ ∀ j (hj : j < old.rows.length),
      ((old.rows[j]).key = (new.rows[j]?.map Row.key).getD [] ↔
        ∃ r' ∈ new.rows, (old.rows[j]).same r') := by
  have hlen : old.lines.length = old.rows.length := List.length_map _
  have hkey (s : Snapshot) (j : ℕ) :
      (s.lines[j]?.map CompareSnapshots.key).getD [] = (s.rows[j]?.map Row.key).getD [] := by
    simp only [Snapshot.lines, List.getElem?_map, Option.map_map, Function.comp_def, key_line]
  have hletter (j : ℕ) : ∀ c ∈ (new.rows[j]?.map Row.key).getD [], c ≠ 'd' := by
    cases hr : new.rows[j]? with
    | none => simp
    | some r => exact r.key_no_letter
  rw [ReportLaw, compare_eq, List.forall₂_iff_get]
  simp only [hlen, List.length_map, List.length_range, true_and, List.get_eq_getElem,
    List.getElem_map, List.getElem_range, hkey]
  constructor
  · intro h j hj
    have hm := (h j hj hj).2
    rw [marked_iff _ _ (hletter j), List.getElem?_eq_getElem hj] at hm
    exact hm
  · intro h j hj _
    rw [marked_iff _ _ (hletter j), List.getElem?_eq_getElem hj]
    refine ⟨?_, h j hj⟩
    simp only [Option.map_some, Option.getD_some, List.append_assoc]
    exact List.prefix_append _ _

/-- The report is right exactly when every process that stands in both snapshots with the
same runtime has as many rows above it in one as in the other. -/
theorem report_law_iff (old new : Snapshot) :
    ReportLaw old new ↔
      ∀ r ∈ old.rows, ∀ r' ∈ new.rows, r.same r' → old.rank r.pid = new.rank r'.pid := by
  rw [reportLaw_iff_rows]
  constructor
  · intro h r hr r' hr' hsame
    obtain ⟨j, hj, rfl⟩ := List.getElem_of_mem hr
    obtain ⟨k, hk, rfl⟩ := List.getElem_of_mem hr'
    -- its own row is marked, so the row of the same number is that of the same process
    have hmark := (h j hj).mpr ⟨_, hr', hsame⟩
    by_cases hj' : j < new.rows.length
    · rw [List.getElem?_eq_getElem hj'] at hmark
      have hpid := ((Row.key_eq_iff _ _).mp hmark).1
      calc old.rank (old.rows[j]).pid
          = j := old.rank_getElem j hj
        _ = new.rank (new.rows[j]).pid := (new.rank_getElem j hj').symm
        _ = new.rank (new.rows[k]).pid := by rw [← hpid, hsame.1]
    · rw [List.getElem?_eq_none (by omega)] at hmark
      exact absurd hmark (Row.key_ne_nil _)
  · intro h j hj
    constructor
    · intro hmark
      by_cases hj' : j < new.rows.length
      · rw [List.getElem?_eq_getElem hj'] at hmark
        exact ⟨_, List.getElem_mem hj', (Row.key_eq_iff _ _).mp hmark⟩
      · rw [List.getElem?_eq_none (by omega)] at hmark
        exact absurd hmark (Row.key_ne_nil _)
    · rintro ⟨r', hr', hsame⟩
      obtain ⟨k, hk, rfl⟩ := List.getElem_of_mem hr'
      have hrank := h _ (List.getElem_mem hj) _ hr' hsame
      rw [old.rank_getElem j hj, new.rank_getElem k hk] at hrank
      subst hrank
      rw [List.getElem?_eq_getElem hk]
      exact (Row.key_eq_iff _ _).mpr hsame

def exampleRow (pid runtime : ℕ) (line : Text) (hp : field 6 line = decimal pid)
    (hr : field 7 line = decimal runtime) : Row :=
  { line, pid, runtime, pid_column := hp, runtime_column := hr }

def row9 : Row := exampleRow 9 5 "00:00 1 t R 0 9 5".toList (by decide) (by decide)
def row7 : Row := exampleRow 7 4 "00:00 1 t R 0 7 4".toList (by decide) (by decide)
def row7Later : Row := exampleRow 7 4 "00:00 2 t R 0 7 4".toList (by decide) (by decide)

/-- Process 9 exits between the snapshots; process 7, which made no progress, moves up one
row and is not reported. -/
theorem report_law_exited :
    ¬ ReportLaw { rows := [row9, row7], sorted := by simp [row9, row7, exampleRow] }
      { rows := [row7Later], sorted := by simp } := by
  rw [reportLaw_iff_rows]
  intro h
  have hrow : row7.key = [] :=
    (h 1 Nat.one_lt_two).mpr ⟨row7Later, List.mem_singleton_self _, rfl, rfl⟩
  exact row7.key_ne_nil hrow

end YuToolbox.CompareSnapshots
