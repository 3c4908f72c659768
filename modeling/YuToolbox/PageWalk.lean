import YuToolbox.Paging

/-! `walk_pg_table.c`: `init_dummy` walks the page table of a process and prints what it
finds. The model records every memory access and every printed value. Pointers to
`unsigned long` and `long` advance by eight bytes for each unit added. -/
namespace YuToolbox.PageWalk

open Paging

structure Task where
  mm : Option Word

structure Kernel where
  memory : Memory
  pageOffsetBase : Word
  /-- `get_pid_task(find_get_pid(pid), PIDTYPE_PID)`, NULL when there is no such process. -/
  getPidTask : Word → Option Task

inductive Event
  | readTask
  | readMm
  | load (addr : Word)
  | print (name : String) (value : Word)
  deriving DecidableEq

/-- A dereferenced NULL pointer. -/
inductive Oops
  | nullTask
  | nullMm
  deriving DecidableEq

abbrev Exec := ExceptT Oops (StateM (List Event))

def record (e : Event) : Exec Unit := modify (· ++ [e])

def pr (name : String) (value : Word) : Exec Unit := record (.print name value)

/-- `*(table + index)` for a table of eight-byte words. -/
def load (k : Kernel) (table index : Word) : Exec Word := do
  record (.load (table+8*index))
  return readWord k.memory (table+8*index)

/-- `systemd->mm->pgd` -/
def mmPgd (systemd : Option Task) : Exec Word := do
  match systemd with
  | none => throw .nullTask
  | some task =>
    record .readTask
    match task.mm with
    | none => throw .nullMm
    | some pgd =>
      record .readMm
      return pgd

/-- The entry's low bits as the `unsigned short` they are stored in. -/
def attributeOf (entry : Word) : BitVec 16 := (entry &&& 0xfff).setWidth 16

def isHugeEntry (attr : Word) : Bool := attr &&& ((0x1 : Word) <<< 7) != 0

def leaf2M (k : Kernel) (pmdTable pmdIndex vaddr offset : Word) : Exec Int := do
  let pageAddressPfn := ((← load k pmdTable pmdIndex) >>> 12) &&& 0xffffffffff
  let pageAddress := k.pageOffsetBase+((← load k pmdTable pmdIndex) &&& 0xffffffffff000)
  pr "page_address_pfn" pageAddressPfn
  pr "page_address" pageAddress
  pr "offset" (vaddr &&& 0x1fffff)
  -- what is added is the offset in a 4K page
  pr "content" (← load k pageAddress offset)
  return 0

def leaf4K (k : Kernel) (pteTable pteIndex offset : Word) : Exec Int := do
  let pageAddress := k.pageOffsetBase+((← load k pteTable pteIndex) &&& 0xffffffffff000)
  let _attribute3 := attributeOf (← load k pteTable pteIndex)
  let pageAddressPfn := ((← load k pteTable pteIndex) >>> 12) &&& 0xffffffffff
  pr "page_address_pfn" pageAddressPfn
  pr "page_address" pageAddress
  pr "offset" offset
  -- `page_address` is a `long *`
  pr "content" (← load k pageAddress offset)
  return 0

def initDummy (k : Kernel) (vaddr pid : Word) : Exec Int := do
  let pgdTable ← mmPgd (k.getPidTask pid)
  pr "vaddr" vaddr
  pr "pgd" pgdTable
  pr "page_offset_base" k.pageOffsetBase
  let pgdIndex := (vaddr >>> 39) &&& 0x1ff
  let pudIndex := (vaddr >>> 30) &&& 0x1ff
  let pmdIndex := (vaddr >>> 21) &&& 0x1ff
  let pteIndex := (vaddr >>> 12) &&& 0x1ff
  let offset := vaddr &&& 0xfff
  pr "pgd_table" pgdTable
  pr "pgd_index" pgdIndex
  let pudTable := k.pageOffsetBase+((← load k pgdTable pgdIndex) &&& 0xffffffffff000)
  let _attribute0 := attributeOf (← load k pgdTable pgdIndex)
  pr "pud_table" pudTable
  pr "pud_index" pudIndex
  let pmdTable := k.pageOffsetBase+((← load k pudTable pudIndex) &&& 0xffffffffff000)
  let _attribute1 := attributeOf (← load k pudTable pudIndex)
  pr "pmd_table" pmdTable
  pr "pmd_index" pmdIndex
  let pteTable := k.pageOffsetBase+((← load k pmdTable pmdIndex) &&& 0xffffffffff000)
  let attribute2 := attributeOf (← load k pmdTable pmdIndex)
  pr "pte_table" pteTable
  pr "pte_index" pteIndex
  -- the PUD's PS bit is not looked at
  if isHugeEntry (attribute2.setWidth 64) then
    leaf2M k pmdTable pmdIndex vaddr offset
  else
    leaf4K k pteTable pteIndex offset

/-- The result and the trace of an execution that starts after some events. -/
def Exec.after {α : Type} (x : Exec α) (events : List Event) : Except Oops α × List Event :=
  x.run.run events

def trace (k : Kernel) (vaddr pid : Word) : Except Oops Int × List Event :=
  (initDummy k vaddr pid).after []

def printed (name : String) (events : List Event) : Option Word :=
  events.reverse.findSome? (fun e => match e with
    | .print n v => if n = name then some v else none
    | _ => none)

@[simp] theorem after_pr {α : Type} (name : String) (v : Word) (f : Unit → Exec α)
    (events : List Event) :
    (pr name v >>= f).after events = (f ()).after (events ++ [.print name v]) := rfl

@[simp] theorem after_load {α : Type} (k : Kernel) (t i : Word) (f : Word → Exec α)
    (events : List Event) :
    (load k t i >>= f).after events =
      (f (readWord k.memory (t+8*i))).after (events ++ [.load (t+8*i)]) := rfl

theorem after_mmPgd {α : Type} {task : Task} {pgd : Word} (h : task.mm = some pgd)
    (f : Word → Exec α) (events : List Event) :
    (mmPgd (some task) >>= f).after events =
      (f pgd).after (events ++ [.readTask] ++ [.readMm]) := by
  obtain ⟨mm⟩ := task
  obtain rfl : mm = some pgd := h
  rfl

theorem isHugeEntry_attribute (e : Word) :
    isHugeEntry ((attributeOf e).setWidth 64) = pageSize e := by
  have hbit : (0x1 : Word) <<< 7 = BitVec.twoPow 64 7 := by decide
  have hmask : (0xfff : Word).getLsbD 7 = true := by decide
  rw [isHugeEntry, hbit, BitVec.and_twoPow]
  simp only [attributeOf, BitVec.getLsbD_setWidth, BitVec.getLsbD_and, hmask, pageSize]
  cases e.getLsbD 7 <;> decide

section Walk

variable (k : Kernel) (vaddr pgd : Word)

/-- Everything up to the choice of the leaf: four table addresses and their indices. -/
def walkEvents : List Event :=
  let m := k.memory
  let base := k.pageOffsetBase
  let t (d : ℕ) : Word := table m base pgd vaddr d
  let slot (d : ℕ) : Event := .load (t d+8*index d vaddr)
  [.readTask, .readMm, .print "vaddr" vaddr, .print "pgd" pgd, .print "page_offset_base" base,
    .print "pgd_table" (t 0), .print "pgd_index" (index 0 vaddr), slot 0, slot 0,
    .print "pud_table" (t 1), .print "pud_index" (index 1 vaddr), slot 1, slot 1,
    .print "pmd_table" (t 2), .print "pmd_index" (index 2 vaddr), slot 2, slot 2,
    .print "pte_table" (t 3), .print "pte_index" (index 3 vaddr)]

/-- The unrolled walk is the recursive one; only the PMD's PS bit is looked at. -/
theorem trace_walk {pid : Word} {task : Task} (ht : k.getPidTask pid = some task)
    (hm : task.mm = some pgd) :
    trace k vaddr pid =
      (if pageSize (entry k.memory k.pageOffsetBase pgd vaddr 2) then
        leaf2M k (table k.memory k.pageOffsetBase pgd vaddr 2) (index 2 vaddr) vaddr (offset vaddr)
      else leaf4K k (table k.memory k.pageOffsetBase pgd vaddr 3) (index 3 vaddr)
        (offset vaddr)).after (walkEvents k vaddr pgd) := by
  have h39 : (vaddr >>> 39) &&& 0x1ff = index 0 vaddr := shift_and_eq_index vaddr 39
  have h30 : (vaddr >>> 30) &&& 0x1ff = index 1 vaddr := shift_and_eq_index vaddr 30
  have h21 : (vaddr >>> 21) &&& 0x1ff = index 2 vaddr := shift_and_eq_index vaddr 21
  have h12 : (vaddr >>> 12) &&& 0x1ff = index 3 vaddr := shift_and_eq_index vaddr 12
  rw [trace, initDummy, ht, after_mmPgd hm]
  simp only [h39, h30, h21, h12, and_eq_offset, and_eq_frame, after_pr, after_load,
    isHugeEntry_attribute, walkEvents, entry, table, List.nil_append, List.cons_append]
  rfl

/-- The 4K leaf: three reads of the PTE, then one of the page. -/
def events4K : List Event :=
  let m := k.memory
  let base := k.pageOffsetBase
  let slot : Event := .load (table m base pgd vaddr 3+8*index 3 vaddr)
  let addr := table m base pgd vaddr 4+8*offset vaddr
  [slot, slot, slot,
    .print "page_address_pfn" (entry m base pgd vaddr 3 >>> 12 &&& 0xffffffffff),
    .print "page_address" (table m base pgd vaddr 4), .print "offset" (offset vaddr),
    .load addr, .print "content" (readWord m addr)]

/-- The 2M leaf: two more reads of the PMD entry, then one of the page. -/
def events2M : List Event :=
  let m := k.memory
  let base := k.pageOffsetBase
  let slot : Event := .load (table m base pgd vaddr 2+8*index 2 vaddr)
  let addr := table m base pgd vaddr 3+8*offset vaddr
  [slot, slot,
    .print "page_address_pfn" (entry m base pgd vaddr 2 >>> 12 &&& 0xffffffffff),
    .print "page_address" (table m base pgd vaddr 3), .print "offset" (vaddr &&& 0x1fffff),
    .load addr, .print "content" (readWord m addr)]

theorem trace_small {pid : Word} {task : Task} (ht : k.getPidTask pid = some task)
    (hm : task.mm = some pgd)
    (hsmall : pageSize (entry k.memory k.pageOffsetBase pgd vaddr 2) = false) :
    trace k vaddr pid = (.ok 0, walkEvents k vaddr pgd ++ events4K k vaddr pgd) := by
  rw [trace_walk k vaddr pgd ht hm, hsmall, leaf4K]
  simp only [Bool.false_eq_true, if_false, after_load, after_pr, and_eq_frame]
  rfl

theorem trace_huge {pid : Word} {task : Task} (ht : k.getPidTask pid = some task)
    (hm : task.mm = some pgd)
    (hhuge : pageSize (entry k.memory k.pageOffsetBase pgd vaddr 2) = true) :
    trace k vaddr pid = (.ok 0, walkEvents k vaddr pgd ++ events2M k vaddr pgd) := by
  rw [trace_walk k vaddr pgd ht hm, hhuge, leaf2M]
  simp only [if_true, after_load, after_pr, and_eq_frame]
  rfl

/-- The word printed as content of a 4K page: the offset is scaled by the pointer type. -/
theorem content_small {pid : Word} {task : Task} (ht : k.getPidTask pid = some task)
    (hm : task.mm = some pgd)
    (hsmall : pageSize (entry k.memory k.pageOffsetBase pgd vaddr 2) = false) :
    printed "content" (trace k vaddr pid).2 = some (readWord k.memory
      (table k.memory k.pageOffsetBase pgd vaddr 4+8*offset vaddr)) := by
  rw [trace_small k vaddr pgd ht hm hsmall]
  rfl

end Walk

end YuToolbox.PageWalk
