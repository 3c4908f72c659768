import YuToolbox.KernelList
import YuToolbox.ParseTaint

/-! `list_flags.stap`: the flags with which a process has opened a file, looked up along the
kernel's process list from the task on in which the script runs. -/
namespace YuToolbox.ListFlags

open KernelList Awk

/-- Of `struct files_struct` its lock, and the `f_flags` of the files that `fcheck_files` finds. -/
structure Files where
  fileLock : Addr
  fcheckFiles : BitVec 32 → Option (BitVec 32)

/-- Of `struct task_struct` what is looked at; `files` is NULL in a task that has exited. -/
structure Task where
  pid : BitVec 32
  files : Option Files

inductive Call
  | spinLock (lock : Addr)
  | spinUnlock (lock : Addr)
deriving DecidableEq

structure State where
  retvalue : BitVec 64
  calls : List Call

/-- `!filp ? -1 : filp->f_flags`: the flags are unsigned, and so is the -1 beside them. -/
def flagsOf (filp : Option (BitVec 32)) : BitVec 64 := (filp.getD (-1)).setWidth 64

/-- The body of the loop, for one entry of the list. -/
def lookAt (pid fd : BitVec 64) (p : Task) (s : State) : Option (State × Bool) :=
  if p.pid = pid.setWidth 32 then do
    -- the lock of a NULL `files` cannot be taken
    let files ← p.files
    some (⟨flagsOf (files.fcheckFiles (fd.setWidth 32)),
      s.calls ++ [.spinLock files.fileLock, .spinUnlock files.fileLock]⟩, true)
  else some (s, false)

/-- `list_flags`; the return value is zero until it is set. -/
def listFlags (h : Heap Task) (current : Addr) (fuel : ℕ) (pid fd : BitVec 64) : Option State :=
  listForEachSafe h current (lookAt pid fd) fuel ⟨0, []⟩

/-- `"pid: %d, fd: %d: %s\n"`. -/
def flagLine (pid fd : BitVec 64) (flagStr : Text) : Text :=
  "pid: ".toList ++ ParseTaint.decimalInt pid.toInt ++ ", fd: ".toList ++
    ParseTaint.decimalInt fd.toInt ++ ": ".toList ++ flagStr ++ "\n".toList

/-- `flag_str`, with `_sys_open_flag_str` of the tapset as a parameter. -/
def flagStr (sysOpenFlagStr : BitVec 64 → Text) (flags : BitVec 64) : Text :=
  if flags = 0 then "???".toList else sysOpenFlagStr flags

/-- `probe begin`, as what it prints and the locks that it takes. -/
def probeBegin (sysOpenFlagStr : BitVec 64 → Text) (h : Heap Task) (current : Addr) (fuel : ℕ)
    (pid fd : BitVec 64) : Option (Text × List Call) := do
  let s ← listFlags h current fuel pid fd
  some (flagLine pid fd (flagStr sysOpenFlagStr s.retvalue), s.calls)

/-- The tasks of the list, in a round from any of them, each with a pid of its own. -/
structure Tasks (h : Heap Task) (es : List (Addr × Task)) : Prop where
  ring : IsRing h (es.map Prod.fst)
  data : ∀ e ∈ es, (h e.1).map Cell.data = some e.2
  pids : (es.map (fun e => e.2.pid)).Nodup

/-- What is found out of the task that is meant, if there is one: `none` when it has no files. -/
def found (fd : BitVec 64) : Option Task → Option State
  | none => some ⟨0, []⟩
  | some task => task.files.map (fun files => ⟨flagsOf (files.fcheckFiles (fd.setWidth 32)),
      [.spinLock files.fileLock, .spinUnlock files.fileLock]⟩)

/-- The task with a pid, whatever the order of the tasks. -/
def withPid (es : List (Addr × Task)) (pid : BitVec 32) : Option Task :=
  (es.map Prod.snd).find? (fun task => task.pid = pid)

section Find

variable {es xs ys : List (Addr × Task)} {e : Addr × Task} {pid : BitVec 32}

theorem withPid_append (xs ys : List (Addr × Task)) (pid : BitVec 32) :
    withPid (xs ++ ys) pid = (withPid xs pid).or (withPid ys pid) := by
  rw [withPid, List.map_append, List.find?_append]
  rfl

theorem withPid_cons (e : Addr × Task) (es : List (Addr × Task)) (pid : BitVec 32) :
    withPid (e :: es) pid = if e.2.pid = pid then some e.2 else withPid es pid := by
  rw [withPid, List.map_cons, List.find?_cons]
  by_cases hp : e.2.pid = pid
  · rw [if_pos hp, decide_eq_true hp]
  · rw [if_neg hp, decide_eq_false hp]
    rfl

theorem withPid_eq_none (hp : pid ∉ es.map (fun e => e.2.pid)) : withPid es pid = none := by
  rw [withPid, List.find?_eq_none]
  intro task htask heq
  obtain ⟨e, he, rfl⟩ := List.mem_map.mp htask
  exact hp (List.mem_map.mpr ⟨e, he, of_decide_eq_true heq⟩)

theorem mem_of_withPid {task : Task} (hf : withPid es pid = some task) :
    pid ∈ es.map (fun e => e.2.pid) := by
  by_contra hp
  rw [withPid_eq_none hp] at hf
  cases hf

/-- A pid says which task is meant. -/
theorem eq_of_pid (hn : (es.map (fun e => e.2.pid)).Nodup) {x y : Addr × Task} (hx : x ∈ es)
    (hy : y ∈ es) (hp : x.2.pid = y.2.pid) : x = y :=
  List.inj_on_of_nodup_map hn hx hy hp

theorem withPid_of_mem (hn : (es.map (fun e => e.2.pid)).Nodup) (he : e ∈ es)
    (hp : e.2.pid = pid) : withPid es pid = some e.2 := by
  cases hf : withPid es pid with
  | none =>
    have hno := List.find?_eq_none.mp hf e.2 (List.mem_map_of_mem he)
    exact absurd (decide_eq_true hp) hno
  | some task =>
    rw [withPid] at hf
    have hfound := List.find?_some hf
    have hpid : task.pid = pid := of_decide_eq_true hfound
    obtain ⟨x, hx, rfl⟩ := List.mem_map.mp (List.mem_of_find?_eq_some hf)
    rw [eq_of_pid hn hx he (hpid.trans hp.symm)]

/-- The round from a task on shows every task but this one, in any order the same. -/
theorem withPid_round (hn : ((xs ++ e :: ys).map (fun e => e.2.pid)).Nodup) :
    withPid (ys ++ xs) pid = if e.2.pid = pid then none else withPid (xs ++ e :: ys) pid := by
  have hperm : (xs ++ e :: ys).Perm ((e :: ys) ++ xs) := List.perm_append_comm
  have hnodup := (hperm.map (fun e => e.2.pid)).nodup_iff.mp hn
  rw [List.cons_append, List.map_cons, List.nodup_cons] at hnodup
  obtain ⟨hself, hothers⟩ := hnodup
  split
  case isTrue hp =>
    apply withPid_eq_none
    rwa [← hp]
  case isFalse hp =>
    rw [withPid_append, withPid_append, withPid_cons, if_neg hp]
    -- at most one of the two parts has the pid
    cases hx : withPid xs pid with
    | none => rw [Option.none_or, Option.or_none]
    | some task =>
      have hy : withPid ys pid = none := by
        rw [List.map_append] at hothers
        apply withPid_eq_none
        intro hmem
        exact List.disjoint_of_nodup_append hothers hmem (mem_of_withPid hx)
      rw [hy, Option.none_or, Option.or_none]

end Find

section Probe

variable {h : Heap Task} {es : List (Addr × Task)} {e : Addr × Task}

/-- The loop stops at the first task with the pid. -/
theorem foldEntries_lookAt (pid fd : BitVec 64) (es : List (Addr × Task)) :
    foldEntries (lookAt pid fd) (es.map Prod.snd) ⟨0, []⟩ =
      found fd (withPid es (pid.setWidth 32)) := by
  induction es with
  | nil => rfl
  | cons e es ih =>
    rw [List.map_cons, foldEntries, withPid_cons, lookAt]
    by_cases hp : e.2.pid = pid.setWidth 32
    · rw [if_pos hp, if_pos hp]
      cases hf : e.2.files with
      | none => simp only [found, hf, Option.bind_eq_bind, Option.bind_none, Option.map_none]
      | some files =>
        simp only [found, hf, Option.bind_eq_bind, Option.bind_some, Option.map_some, if_true,
          List.nil_append]
    · rw [if_neg hp, if_neg hp]
      simpa only [Option.bind_eq_bind, Option.bind_some, Bool.false_eq_true, if_false] using ih

/-- Run in any of the tasks, the function sees all the others, and never that one. -/
theorem listFlags_eq (ht : Tasks h es) (he : e ∈ es) (pid fd : BitVec 64) {fuel : ℕ}
    (hfuel : es.length ≤ fuel) : listFlags h e.1 fuel pid fd =
      found fd (if e.2.pid = pid.setWidth 32 then none else withPid es (pid.setWidth 32)) := by
  obtain ⟨xs, ys, rfl⟩ := List.append_of_mem he
  have hring := ht.ring
  rw [List.map_append, List.map_cons] at hring
  have hlist := hring.enter
  rw [← List.map_append] at hlist
  have hdata : ∀ x ∈ ys ++ xs, (h x.1).map Cell.data = some x.2 := by
    intro x hx
    apply ht.data
    simp only [List.mem_append, List.mem_cons] at hx ⊢
    exact hx.elim (fun hy => Or.inr (Or.inr hy)) Or.inl
  have hlength : (ys ++ xs).length < fuel := by
    simp only [List.length_append, List.length_cons] at hfuel ⊢
    omega
  rw [listFlags, listForEachSafe_eq hlist hdata hlength, foldEntries_lookAt,
    withPid_round ht.pids]

end Probe

/-- What is printed for a descriptor. A file without any flag, such as the reading end of a pipe, is
taken for a process that does not exist. -/
def shown (sysOpenFlagStr : BitVec 64 → Text) : Option (BitVec 32) → Text
  | none => sysOpenFlagStr 0xffffffff
  | some flags => if flags = 0 then "???".toList else sysOpenFlagStr (flags.setWidth 64)

/-- What the script does for the files of the task that is meant. -/
def answer (sysOpenFlagStr : BitVec 64 → Text) (pid fd : BitVec 64) (files : Files) :
    Text × List Call :=
  (flagLine pid fd (shown sysOpenFlagStr (files.fcheckFiles (fd.setWidth 32))),
    [.spinLock files.fileLock, .spinUnlock files.fileLock])

theorem flagStr_flagsOf (sysOpenFlagStr : BitVec 64 → Text) (filp : Option (BitVec 32)) :
    flagStr sysOpenFlagStr (flagsOf filp) = shown sysOpenFlagStr filp := by
  cases filp with
  | none => rfl
  | some flags =>
    have hzero : flags.setWidth 64 = 0 ↔ flags = 0 := by
      rw [← BitVec.toNat_inj, ← BitVec.toNat_inj, BitVec.toNat_setWidth,
        Nat.mod_eq_of_lt (flags.isLt.trans (by decide))]
      rfl
    simp only [flagStr, flagsOf, shown, Option.getD_some, hzero]

/-- Whatever the order of the process list and the task that the script runs in: every other task
is found by its pid, taken as an int, its lock is taken once and given back, and without files it
is a failure. The task that the script runs in is found as little as one that does not exist, and
what is printed then is also printed for a file whose flags are 0. -/
theorem probe_law (sysOpenFlagStr : BitVec 64 → Text) (h : Heap Task) (es : List (Addr × Task))
    (e : Addr × Task) (pid fd : BitVec 64) (fuel : ℕ) (ht : Tasks h es) (he : e ∈ es)
    (hfuel : es.length ≤ fuel) :
    (∀ x ∈ es, x ≠ e → x.2.pid = pid.setWidth 32 →
      probeBegin sysOpenFlagStr h e.1 fuel pid fd =
        x.2.files.map (answer sysOpenFlagStr pid fd)) ∧
    ((∀ x ∈ es, x.2.pid = pid.setWidth 32 → x = e) →
      probeBegin sysOpenFlagStr h e.1 fuel pid fd =
        some (flagLine pid fd "???".toList, [])) := by
  have hlist := listFlags_eq ht he pid fd hfuel
  constructor
  · intro x hx hxe hp
    have hother : e.2.pid ≠ pid.setWidth 32 :=
      fun hself => hxe (eq_of_pid ht.pids hx he (hp.trans hself.symm))
    rw [if_neg hother, withPid_of_mem ht.pids hx hp] at hlist
    rw [probeBegin, hlist]
    cases hf : x.2.files with
    | none => simp only [found, hf, Option.map_none, Option.bind_eq_bind, Option.bind_none]
    | some files =>
      simp only [found, hf, Option.map_some, Option.bind_eq_bind, Option.bind_some, answer,
        flagStr_flagsOf]
  · intro honly
    have hnone :
        (if e.2.pid = pid.setWidth 32 then none else withPid es (pid.setWidth 32)) = none := by
      by_cases hself : e.2.pid = pid.setWidth 32
      · rw [if_pos hself]
      · rw [if_neg hself]
        apply withPid_eq_none
        intro hmem
        obtain ⟨x, hx, hp⟩ := List.mem_map.mp hmem
        rw [honly x hx hp] at hp
        exact hself hp
    rw [hnone] at hlist
    simp only [probeBegin, hlist, found, Option.bind_eq_bind, Option.bind_some, flagStr, if_true]

/-- Two tasks, of which the second has its standard input open, for reading and writing. -/
def twoTasks : Heap Task := fun a =>
  if a = 1 then some ⟨2, 2, ⟨0, none⟩⟩
  else if a = 2 then some ⟨1, 1, ⟨1, some ⟨3, fun fd => if fd = 0 then some 2 else none⟩⟩⟩ else none

theorem tasks_twoTasks : Tasks twoTasks
    [(1, ⟨0, none⟩), (2, ⟨1, some ⟨3, fun fd => if fd = 0 then some 2 else none⟩⟩)] := by
  refine ⟨⟨⟨rfl, rfl⟩, by decide⟩, ?_, by decide⟩
  intro e he
  rcases List.mem_cons.mp he with rfl | he
  · rfl
  · obtain rfl := List.mem_singleton.mp he
    rfl

/-- Seen from the first task, the second has its input open; seen from itself, it is not there. -/
theorem probe_law_twoTasks :
    probeBegin (fun _ => "O_RDWR".toList) twoTasks 1 2 1 0 =
        some (flagLine 1 0 "O_RDWR".toList, [.spinLock 3, .spinUnlock 3]) ∧
      probeBegin (fun _ => "O_RDWR".toList) twoTasks 2 2 1 0 =
        some (flagLine 1 0 "???".toList, []) := by
  have hother := (probe_law (fun _ => "O_RDWR".toList) twoTasks _ _ 1 0 2 tasks_twoTasks
    List.mem_cons_self le_rfl).1
  have hself := (probe_law (fun _ => "O_RDWR".toList) twoTasks _ _ 1 0 2 tasks_twoTasks
    (List.mem_cons_of_mem _ List.mem_cons_self) le_rfl).2
  refine ⟨hother (2, _) (List.mem_cons_of_mem _ List.mem_cons_self) ?_ rfl, hself ?_⟩
  · intro heq
    exact absurd (congrArg Prod.fst heq) (by decide)
  · intro x hx hp
    rcases List.mem_cons.mp hx with rfl | hx
    · exact absurd hp (by decide)
    · exact List.mem_singleton.mp hx

end YuToolbox.ListFlags
