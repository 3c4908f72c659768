import Mathlib.Data.List.TakeDrop
import YuToolbox.KernelList
import YuToolbox.ParseTaint

/-! `base_lib.c`: `test_dump_tasklist`, which prints tasks of the kernel's process list as long as
its budget lasts. -/
namespace YuToolbox.TaskList

open KernelList Awk

/-- Of `struct task_struct` what is printed. -/
structure Task where
  comm : Text
  pid : ℤ
  nrThreads : ℤ

/-- `for_each_process` from a task on, with a body that may break: behind a task comes the next
one in the list, as far as `init_task`. `none` when the fuel ends first or an access fails. -/
def forEachProcess {σ : Type} (h : Heap Task) (initTask : Addr) (body : Task → σ → σ × Bool) :
    ℕ → Addr → σ → Option σ
  | 0, _, _ => none
  | fuel+1, p, s => do
    let next ← (h p).map Cell.next
    if next = initTask then some s
    else
      let task ← (h next).map Cell.data
      if (body task s).2 then some (body task s).1
      else forEachProcess h initTask body fuel next (body task s).1

/-- The parameter that is counted down, and the lines. -/
structure Dump where
  number : BitVec 32
  printed : List Text

/-- `"%s [%d], threads %d\n"`. -/
def taskLine (task : Task) : Text :=
  task.comm ++ " [".toList ++ ParseTaint.decimalInt task.pid ++ "], threads ".toList ++
    ParseTaint.decimalInt task.nrThreads ++ "\n".toList

/-- The body of the loop: the task is printed before `!number--` is looked at. -/
def dumpTask (task : Task) (s : Dump) : Dump × Bool :=
  (⟨s.number-1, s.printed ++ [taskLine task]⟩, s.number == 0)

/-- The loop of `test_dump_tasklist`, with `number` as it is at the end. -/
def dumpTasks (h : Heap Task) (initTask : Addr) (fuel : ℕ) (number : BitVec 32) : Option Dump :=
  forEachProcess h initTask dumpTask fuel initTask ⟨number, []⟩

/-- What is printed, and the int as the `unsigned long long` that is returned. -/
def testDumpTasklist (h : Heap Task) (initTask : Addr) (fuel : ℕ) (number : BitVec 32) :
    Option (List Text × BitVec 64) :=
  (dumpTasks h initTask fuel number).map (fun s => (s.printed, s.number.signExtend 64))

/-- The process list behind `init_task`. -/
structure Processes (h : Heap Task) (initTask : Addr) (es : List (Addr × Task)) : Prop where
  list : ListAt h initTask (es.map Prod.fst)
  data : ∀ e ∈ es, (h e.1).map Cell.data = some e.2

/-- The call prints the tasks that the budget allows, and returns what is left of it as the int
that it is. -/
def KeepsBudget (h : Heap Task) (initTask : Addr) (tasks : List Task) (number : BitVec 32) : Prop :=
  ∃ fuel s, dumpTasks h initTask fuel number = some s ∧
    testDumpTasklist h initTask fuel number = some (s.printed, s.number.signExtend 64) ∧
    s.printed = (tasks.take (min number.toNat tasks.length)).map taskLine ∧
    s.number.toInt = number.toInt-s.printed.length ∧ 0 ≤ s.number.toInt ∧
    ((s.number.signExtend 64).toNat : ℤ) = s.number.toInt

/-- A loop over a list whose body may break. -/
def foldBreak {α σ : Type} (body : α → σ → σ × Bool) : List α → σ → σ
  | [], s => s
  | a :: as, s => if (body a s).2 then (body a s).1 else foldBreak body as (body a s).1

section ForEach

variable {σ : Type} {h : Heap Task} {initTask : Addr} {body : Task → σ → σ × Bool}

/-- The loop over the linked tasks is the one over their data, once it has the fuel. -/
theorem forEachProcess_chain {es : List (Addr × Task)} {p : Addr}
    (hchain : Chain h p (es.map Prod.fst) initTask) (hout : initTask ∉ es.map Prod.fst)
    (hdata : ∀ e ∈ es, (h e.1).map Cell.data = some e.2) (s : σ) :
    forEachProcess h initTask body (es.length+1) p s =
      some (foldBreak body (es.map Prod.snd) s) := by
  induction es generalizing p s with
  | nil =>
    have hnext : (h p).map Cell.next = some initTask := hchain
    simp only [List.length_nil, forEachProcess, hnext, Option.bind_eq_bind, Option.bind_some,
      if_true]
    rfl
  | cons e es ih =>
    obtain ⟨hnext, hrest⟩ := hchain
    obtain ⟨hne, hout⟩ := List.ne_and_not_mem_of_not_mem_cons hout
    have htask := hdata e List.mem_cons_self
    rw [List.length_cons, forEachProcess]
    simp only [hnext, Option.bind_eq_bind, Option.bind_some, if_neg hne.symm, htask]
    rw [List.map_cons, foldBreak]
    split
    · rfl
    · exact ih hrest hout (fun x hx => hdata x (List.mem_cons_of_mem e hx)) _

theorem forEachProcess_mono {fuel fuel' : ℕ} (hle : fuel ≤ fuel') {p : Addr} {s t : σ}
    (ht : forEachProcess h initTask body fuel p s = some t) :
    forEachProcess h initTask body fuel' p s = some t := by
  induction fuel generalizing fuel' p s with
  | zero => cases ht
  | succ fuel ih =>
    obtain ⟨fuel', rfl⟩ : ∃ k, fuel' = k+1 := ⟨fuel'-1, by omega⟩
    simp only [forEachProcess] at ht ⊢
    obtain ⟨next, hnext, ht⟩ := Option.bind_eq_some_iff.mp ht
    simp only [hnext, Option.bind_eq_bind, Option.bind_some]
    split
    · rwa [if_pos ‹_›] at ht
    · rw [if_neg ‹_›] at ht
      obtain ⟨task, htask, ht⟩ := Option.bind_eq_some_iff.mp ht
      simp only [htask, Option.bind_some]
      split
      · rwa [if_pos ‹_›] at ht
      · rw [if_neg ‹_›] at ht
        exact ih (by omega) ht

end ForEach

section Dump

variable {h : Heap Task} {initTask : Addr} {es : List (Addr × Task)}

/-- One task more than the budget is printed, if there is one. -/
theorem foldBreak_dumpTask (tasks : List Task) (number : BitVec 32) (printed : List Text) :
    foldBreak dumpTask tasks ⟨number, printed⟩ =
      ⟨number-BitVec.ofNat 32 (min (number.toNat+1) tasks.length),
        printed ++ (tasks.take (number.toNat+1)).map taskLine⟩ := by
  induction tasks generalizing number printed with
  | nil => simp [foldBreak]
  | cons task tasks ih =>
    rw [foldBreak]
    by_cases hzero : number = 0
    · subst hzero
      simp [dumpTask]
    · -- the rest of the list has a budget that is one less
      have hpos : number.toNat ≠ 0 := fun h0 => hzero (BitVec.eq_of_toNat_eq h0)
      have hsub : (number-1).toNat+1 = number.toNat := by
        have hlt := number.isLt
        rw [BitVec.toNat_sub, show (1 : BitVec 32).toNat = 1 from rfl]
        omega
      have hgo : (dumpTask task ⟨number, printed⟩).2 = false := by
        simpa only [dumpTask, beq_eq_false_iff_ne] using hzero
      have hcount : min (number.toNat+1) (tasks.length+1) = min number.toNat tasks.length+1 :=
        Nat.succ_min_succ _ _
      rw [hgo, if_neg Bool.false_ne_true, dumpTask, ih, hsub, List.length_cons, hcount,
        List.take_succ_cons, List.map_cons, BitVec.ofNat_add, BitVec.sub_sub, BitVec.add_comm,
        List.append_assoc]
      rfl

/-- What the loop comes to, for any fuel that is enough. -/
theorem dumpTasks_eq (hl : Processes h initTask es) (number : BitVec 32) {fuel : ℕ}
    (hfuel : es.length < fuel) : dumpTasks h initTask fuel number =
      some ⟨number-BitVec.ofNat 32 (min (number.toNat+1) es.length),
        ((es.map Prod.snd).take (number.toNat+1)).map taskLine⟩ := by
  have hout := (List.nodup_cons.mp hl.list.nodup).1
  have hloop : forEachProcess h initTask dumpTask (es.length+1) initTask ⟨number, []⟩ =
      some (foldBreak dumpTask (es.map Prod.snd) ⟨number, []⟩) :=
    forEachProcess_chain hl.list.chain hout hl.data _
  rw [foldBreak_dumpTask, List.length_map, List.nil_append] at hloop
  exact forEachProcess_mono hfuel hloop

theorem toNat_signExtend_of_nonneg {x : BitVec 32} (hx : 0 ≤ x.toInt) :
    ((x.signExtend 64).toNat : ℤ) = x.toInt := by
  have hext := BitVec.toInt_signExtend_of_le (x := x) (v := 64) (by decide)
  rw [← hext] at hx ⊢
  rw [BitVec.toInt_eq_toNat_cond] at hx ⊢
  have hlt := (x.signExtend 64).isLt
  split at hx <;> omega

/-- What is left of the budget when the list ends first. -/
theorem toInt_left {number : BitVec 32} {n : ℕ} (hnumber : 0 ≤ number.toInt)
    (hn : (n : ℤ) ≤ number.toInt) :
    (number-BitVec.ofNat 32 n).toInt = number.toInt-n := by
  have hlt := number.isLt
  rw [BitVec.toInt_eq_toNat_cond] at hnumber hn ⊢
  rw [BitVec.toInt_eq_toNat_cond, BitVec.toNat_sub, BitVec.toNat_ofNat]
  split at hnumber <;> split <;> omega

theorem dumpTasks_unique (hl : Processes h initTask es) {number : BitVec 32} {fuel : ℕ} {s : Dump}
    (h : dumpTasks h initTask fuel number = some s) :
    s = ⟨number-BitVec.ofNat 32 (min (number.toNat+1) es.length),
      ((es.map Prod.snd).take (number.toNat+1)).map taskLine⟩ := by
  have hmore := forEachProcess_mono (Nat.le_max_left fuel (es.length+1)) h
  have heq := dumpTasks_eq hl number (Nat.le_max_right fuel (es.length+1))
  exact Option.some.inj (hmore.symm.trans heq)

end Dump

/-- For a budget that is not negative, the call keeps to it exactly when there is no task more than
the budget has. -/
theorem keepsBudget_iff (h : Heap Task) (initTask : Addr) (es : List (Addr × Task))
    (number : BitVec 32) (hl : Processes h initTask es) (hnumber : 0 ≤ number.toInt) :
    KeepsBudget h initTask (es.map Prod.snd) number ↔ (es.length : ℤ) ≤ number.toInt := by
  have hnat : number.toInt = number.toNat := by
    rw [BitVec.toInt_eq_toNat_cond] at hnumber ⊢
    have hlt := number.isLt
    split at hnumber <;> split <;> omega
  constructor
  · rintro ⟨fuel, s, hs, -, hprinted, -, -, -⟩
    by_contra hmore
    have hk : number.toNat+1 ≤ es.length := by omega
    -- the task at which the loop breaks has been printed
    have hlength := congrArg List.length hprinted
    rw [dumpTasks_unique hl hs] at hlength
    simp only [List.length_map, List.length_take] at hlength
    omega
  · -- the list ends before the budget does
    intro hle
    have hk : es.length ≤ number.toNat := by omega
    have hrun := dumpTasks_eq hl number (Nat.lt_succ_self es.length)
    rw [Nat.min_eq_right (Nat.le_succ_of_le hk), List.take_of_length_le (by simp; omega)] at hrun
    have hleft := toInt_left hnumber hle
    have hnonneg : 0 ≤ (number-BitVec.ofNat 32 es.length).toInt := by omega
    refine ⟨_, _, hrun, ?_, ?_, ?_, hnonneg, toNat_signExtend_of_nonneg hnonneg⟩
    · rw [testDumpTasklist, hrun, Option.map_some]
    · rw [List.length_map, Nat.min_eq_right hk, List.take_of_length_le (by simp)]
    · rw [hleft, List.length_map, List.length_map]

/-- A process list with one task behind `init_task`. -/
def oneTask : Heap Task := fun a =>
  if a = 1 then some ⟨2, 2, ⟨"swapper/0".toList, 0, 1⟩⟩
  else if a = 2 then some ⟨1, 1, ⟨"systemd".toList, 1, 1⟩⟩ else none

theorem processes_oneTask : Processes oneTask 1 [(2, ⟨"systemd".toList, 1, 1⟩)] := by
  refine ⟨⟨⟨rfl, rfl⟩, by decide⟩, ?_⟩
  intro e he
  obtain rfl := List.mem_singleton.mp he
  rfl

theorem keepsBudget_iff_oneTask :
    KeepsBudget oneTask 1 [⟨"systemd".toList, 1, 1⟩] 100 ↔
      ((1 : ℕ) : ℤ) ≤ (100 : BitVec 32).toInt :=
  keepsBudget_iff oneTask 1 _ 100 processes_oneTask (by decide)

/-- With no budget, one task is printed all the same, and -1 is returned. -/
theorem not_keepsBudget_oneTask :
    ¬ ∀ h initTask es (number : BitVec 32), Processes h initTask es → 0 ≤ number.toInt →
      KeepsBudget h initTask (es.map Prod.snd) number := by
  intro h
  obtain ⟨fuel, s, hs, -, -, -, hnonneg, -⟩ := h oneTask 1 _ 0 processes_oneTask (by decide)
  rw [dumpTasks_unique processes_oneTask hs] at hnonneg
  exact absurd hnonneg (by decide)

/-- `clobber_dump_task_list`, as the lines of the tasks and its own, `"func return: %lld"`. -/
def clobberDumpTaskList (h : Heap Task) (initTask : Addr) (fuel : ℕ) : Option (List Text × Text) :=
  (testDumpTasklist h initTask fuel 100).map (fun r =>
    (r.1, "func return: ".toList ++ ParseTaint.decimalInt r.2.toInt))

/-- The number in its line is 100 less the lines of the tasks, of which there are at most 101. -/
theorem clobber_line {h : Heap Task} {initTask : Addr} {es : List (Addr × Task)}
    (hl : Processes h initTask es) {fuel : ℕ} (hfuel : es.length < fuel) :
    clobberDumpTaskList h initTask fuel =
      some (((es.map Prod.snd).take 101).map taskLine,
        "func return: ".toList ++ ParseTaint.decimalInt (100-(min 101 es.length : ℕ))) := by
  have hnumber : (100 : BitVec 32).toNat = 100 := rfl
  have hrun := dumpTasks_eq hl 100 hfuel
  rw [hnumber] at hrun
  have hleft : ((100 : BitVec 32)-BitVec.ofNat 32 (min 101 es.length)).toInt =
      100-(min 101 es.length : ℕ) := by
    have hmin : min 101 es.length ≤ 101 := Nat.min_le_left _ _
    rw [BitVec.toInt_eq_toNat_cond, BitVec.toNat_sub, BitVec.toNat_ofNat, hnumber]
    split <;> omega
  have hext := BitVec.toInt_signExtend_of_le (v := 64) (by decide)
    (x := (100 : BitVec 32)-BitVec.ofNat 32 (min 101 es.length))
  rw [clobberDumpTaskList, testDumpTasklist, hrun, Option.map_some, Option.map_some]
  simp only [hext, hleft]

end YuToolbox.TaskList
