import Mathlib.Data.BitVec
import YuToolbox.PageWalk

/-! What `init_dummy` reads, with the pointers it reads through, and when each of these
reads is one that the process's page table allows: of a word in the table or page that present
entries map. -/
namespace YuToolbox.PageWalk

open Paging

inductive Target
  | table
  | page (huge : Bool)

structure Region where
  start : Word
  size : ℕ

/-- All eight bytes of a word are in the region. -/
def Region.HoldsWord (r : Region) (addr : Word) : Prop := (addr-r.start).toNat+8 ≤ r.size

/-- What an entry maps: a table or a page of 4K, or a page of 2M. -/
def Target.region (base entry : Word) : Target → Region
  | .table => ⟨base+frame entry, 4096⟩
  | .page false => ⟨base+frame entry, 4096⟩
  | .page true => ⟨base+frame2M entry, 2^21⟩

/-- A direct-map pointer, the entries that led to it from the PGD's on, what the walk takes it
for, and what the last entry maps. -/
structure Pointer where
  addr : Word
  through : List Word
  target : Target
  region : Region

/-- A read of `systemd->mm`, of `mm->pgd`, or of a word of a table or page. -/
inductive Read
  | task (systemd : Option Task)
  | mm (pgd : Option Word)
  | word (p : Pointer) (index : Word)

/-- `*(p + index)` -/
def Pointer.word (k : Kernel) (p : Pointer) (index : Word) : Word :=
  readWord k.memory (p.addr+8*index)

def Pointer.follow (k : Kernel) (p : Pointer) (index : Word) (target : Target) : Pointer where
  addr := k.pageOffsetBase+((p.word k index) &&& 0xffffffffff000)
  through := p.through ++ [p.word k index]
  target := target
  region := target.region k.pageOffsetBase (p.word k index)

/-- The reads of `init_dummy` from the PGD on. -/
def walkReads (k : Kernel) (vaddr pgd : Word) : List Read :=
  let pgdTable : Pointer := ⟨pgd, [], .table, ⟨pgd, 4096⟩⟩
  let pudTable := pgdTable.follow k (index 0 vaddr) .table
  let pmdTable := pudTable.follow k (index 1 vaddr) .table
  let pteTable := pmdTable.follow k (index 2 vaddr) .table
  let slots := [.word pgdTable (index 0 vaddr), .word pgdTable (index 0 vaddr),
    .word pudTable (index 1 vaddr), .word pudTable (index 1 vaddr),
    .word pmdTable (index 2 vaddr), .word pmdTable (index 2 vaddr)]
  if isHugeEntry ((attributeOf (pmdTable.word k (index 2 vaddr))).setWidth 64) then
    slots ++ [.word pmdTable (index 2 vaddr), .word pmdTable (index 2 vaddr),
      .word (pmdTable.follow k (index 2 vaddr) (.page true)) (offset vaddr)]
  else
    slots ++ [.word pteTable (index 3 vaddr), .word pteTable (index 3 vaddr),
      .word pteTable (index 3 vaddr),
      .word (pteTable.follow k (index 3 vaddr) (.page false)) (offset vaddr)]

/-- All reads of `init_dummy`, the one that ends it included. -/
def reads (k : Kernel) (vaddr pid : Word) : List Read :=
  let systemd := k.getPidTask pid
  .task systemd :: match systemd with
  | none => []
  | some task => .mm task.mm :: match task.mm with
    | none => []
    | some pgd => walkReads k vaddr pgd

/-- What the trace has of a read; a dereferenced NULL pointer leaves nothing there. -/
def Read.events : Read → List Event
  | .task systemd => if systemd.isSome then [.readTask] else []
  | .mm pgd => if pgd.isSome then [.readMm] else []
  | .word p index => [.load (p.addr+8*index)]

def isRead : Event → Bool
  | .print _ _ => false
  | _ => true

/-- The entries that the walk took for pointers to tables. -/
def Pointer.tableEntries (p : Pointer) : List Word :=
  match p.target with
  | .table => p.through
  | .page _ => p.through.dropLast

/-- Present entries led there, and none of a large page taken for one of a table; behind the
PGD's the entries can be of large pages. -/
structure Pointer.Justified (p : Pointer) : Prop where
  present : ∀ e ∈ p.through, present e = true
  small : ∀ e ∈ p.tableEntries.drop 1, pageSize e = false

def Read.Justified : Read → Prop
  | .task systemd => systemd.isSome
  | .mm pgd => pgd.isSome
  -- present entries led there, and the word lies in what the last of them maps
  | .word p index => p.Justified ∧ p.region.HoldsWord (p.addr+8*index)

/-- `init_dummy` returns, and all that it reads until then is justified. -/
def WalkSafe (k : Kernel) (vaddr pid : Word) : Prop :=
  (trace k vaddr pid).1 = .ok 0 ∧ ∀ r ∈ reads k vaddr pid, r.Justified

section Walk

variable (k : Kernel) (vaddr pgd : Word)

/-- What the entry above depth `d` maps; nothing stands above the PGD's table. -/
def regionAt (target : Target) : ℕ → Region
  | 0 => ⟨pgd, 4096⟩
  | d+1 => target.region k.pageOffsetBase (entry k.memory k.pageOffsetBase pgd vaddr d)

/-- The pointer to the table of depth `d`. -/
def tablePointer (target : Target) (d : ℕ) : Pointer where
  addr := table k.memory k.pageOffsetBase pgd vaddr d
  through := (List.range d).map (entry k.memory k.pageOffsetBase pgd vaddr)
  target := target
  region := regionAt k vaddr pgd target d

theorem word_tablePointer (target : Target) (d : ℕ) :
    (tablePointer k vaddr pgd target d).word k (index d vaddr) =
      entry k.memory k.pageOffsetBase pgd vaddr d := rfl

theorem follow_tablePointer (target target' : Target) (d : ℕ) :
    (tablePointer k vaddr pgd target d).follow k (index d vaddr) target' =
      tablePointer k vaddr pgd target' (d+1) := by
  rw [Pointer.follow, word_tablePointer, and_eq_frame, tablePointer, tablePointer,
    List.range_succ, List.map_append]
  rfl

theorem walkReads_eq : walkReads k vaddr pgd =
    let t := tablePointer k vaddr pgd .table
    let slots := [.word (t 0) (index 0 vaddr), .word (t 0) (index 0 vaddr),
      .word (t 1) (index 1 vaddr), .word (t 1) (index 1 vaddr),
      .word (t 2) (index 2 vaddr), .word (t 2) (index 2 vaddr)]
    if pageSize (entry k.memory k.pageOffsetBase pgd vaddr 2) then
      slots ++ [.word (t 2) (index 2 vaddr), .word (t 2) (index 2 vaddr),
        .word (tablePointer k vaddr pgd (.page true) 3) (offset vaddr)]
    else
      slots ++ [.word (t 3) (index 3 vaddr), .word (t 3) (index 3 vaddr),
        .word (t 3) (index 3 vaddr),
        .word (tablePointer k vaddr pgd (.page false) 4) (offset vaddr)] := by
  have hstart : (⟨pgd, [], .table, ⟨pgd, 4096⟩⟩ : Pointer) = tablePointer k vaddr pgd .table 0 :=
    rfl
  simp only [walkReads, hstart, follow_tablePointer, word_tablePointer, isHugeEntry_attribute]

theorem forall_mem_drop_one_iff {α : Type} (P : α → Prop) (f : ℕ → α) (n : ℕ) :
    (∀ e ∈ ((List.range n).map f).drop 1, P e) ↔ ∀ i < n, 1 ≤ i → P (f i) := by
  rw [← List.map_drop, List.range_eq_range', List.drop_range']
  simp only [List.mem_map, List.mem_range', forall_exists_index, and_imp]
  constructor
  · intro h i hi hpos
    exact h (f i) i (i-1) (by omega) (by omega) rfl
  · rintro h e i j hj rfl rfl
    exact h _ (by omega) (by omega)

theorem justified_table_iff (d : ℕ) : (tablePointer k vaddr pgd .table d).Justified ↔
    (∀ i < d, present (entry k.memory k.pageOffsetBase pgd vaddr i) = true) ∧
      ∀ i < d, 1 ≤ i → pageSize (entry k.memory k.pageOffsetBase pgd vaddr i) = false := by
  rw [← forall_mem_drop_one_iff (fun e => pageSize e = false)]
  constructor
  · rintro ⟨hpresent, hsmall⟩
    exact ⟨fun i hi => hpresent _ (List.mem_map_of_mem (List.mem_range.mpr hi)), hsmall⟩
  · rintro ⟨hpresent, hsmall⟩
    refine ⟨fun e he => ?_, hsmall⟩
    obtain ⟨i, hi, rfl⟩ := List.mem_map.mp he
    exact hpresent i (List.mem_range.mp hi)

/-- The last entry of a pointer to a page was not taken for one of a table. -/
theorem justified_page_iff (huge : Bool) (d : ℕ) :
    (tablePointer k vaddr pgd (.page huge) (d+1)).Justified ↔
    present (entry k.memory k.pageOffsetBase pgd vaddr d) = true ∧
      (tablePointer k vaddr pgd .table d).Justified := by
  have hthrough : (tablePointer k vaddr pgd (.page huge) (d+1)).through =
      (tablePointer k vaddr pgd .table d).through ++
        [entry k.memory k.pageOffsetBase pgd vaddr d] := by
    rw [tablePointer, tablePointer, List.range_succ, List.map_append]
    rfl
  have htables : (tablePointer k vaddr pgd (.page huge) (d+1)).tableEntries =
      (tablePointer k vaddr pgd .table d).tableEntries := by
    change (tablePointer k vaddr pgd (.page huge) (d+1)).through.dropLast = _
    rw [hthrough, List.dropLast_concat]
    rfl
  constructor
  · rintro ⟨hpresent, hsmall⟩
    rw [hthrough] at hpresent
    rw [htables] at hsmall
    exact ⟨hpresent _ (by simp), fun e he => hpresent e (by simp [he]), hsmall⟩
  · rintro ⟨hlast, hpresent, hsmall⟩
    refine ⟨?_, htables ▸ hsmall⟩
    rw [hthrough]
    intro e he
    rcases List.mem_append.mp he with he | he
    · exact hpresent e he
    · rwa [List.mem_singleton.mp he]

theorem page_justified_iff (huge : Bool) (d : ℕ) :
    (tablePointer k vaddr pgd (.page huge) (d+1)).Justified ↔
    (∀ i < d+1, present (entry k.memory k.pageOffsetBase pgd vaddr i) = true) ∧
      ∀ i < d, 1 ≤ i → pageSize (entry k.memory k.pageOffsetBase pgd vaddr i) = false := by
  rw [justified_page_iff, justified_table_iff, Nat.forall_lt_succ_right, ← and_assoc,
    and_comm (a := present _ = true)]

/-- The read of a page justifies all that came before it. -/
theorem justified_table_mono {d d' : ℕ} (hd : d ≤ d')
    (h : (tablePointer k vaddr pgd .table d').Justified) :
    (tablePointer k vaddr pgd .table d).Justified := by
  rw [justified_table_iff] at h ⊢
  exact ⟨fun i hi => h.1 i (by omega), fun i hi => h.2 i (by omega)⟩

theorem maps4K_iff : Maps4K k.memory k.pageOffsetBase pgd vaddr ↔
    pageSize (entry k.memory k.pageOffsetBase pgd vaddr 2) = false ∧
      (tablePointer k vaddr pgd (.page false) 4).Justified := by
  rw [page_justified_iff]
  constructor
  · rintro ⟨hpresent, hpud, hpmd⟩
    refine ⟨hpmd, hpresent, fun i hi hpos => ?_⟩
    obtain rfl | rfl : i = 1 ∨ i = 2 := by omega
    · exact hpud
    · exact hpmd
  · rintro ⟨hpmd, hpresent, hsmall⟩
    exact ⟨hpresent, hsmall 1 (by decide) (by decide), hpmd⟩

theorem maps2M_iff : Maps2M k.memory k.pageOffsetBase pgd vaddr ↔
    pageSize (entry k.memory k.pageOffsetBase pgd vaddr 2) = true ∧
      (tablePointer k vaddr pgd (.page true) 3).Justified := by
  rw [page_justified_iff]
  constructor
  · rintro ⟨hpresent, hpud, hpmd⟩
    refine ⟨hpmd, hpresent, fun i hi hpos => ?_⟩
    obtain rfl : i = 1 := by omega
    exact hpud
  · rintro ⟨hpmd, hpresent, hsmall⟩
    exact ⟨hpresent, hsmall 1 (by decide) (by decide), hpmd⟩

theorem index_lt (d : ℕ) : (index d vaddr).toNat < 512 := by
  have hlt : vaddr.toNat >>> (39-9*d)%2^9 < 2^64 := by omega
  rw [index, BitVec.toNat_setWidth, BitVec.extractLsb'_toNat, Nat.mod_eq_of_lt hlt]
  omega

/-- A word of a region that starts where the pointer leads. -/
theorem holdsWord_start {r : Region} {addr i : Word} (h : r.start = addr) (hi : i.toNat < 4096) :
    r.HoldsWord (addr+8*i) ↔ 8*i.toNat+8 ≤ r.size := by
  have h8 : (8 : Word).toNat = 8 := rfl
  have hsub : addr+8*i-addr = 8*i := by rw [BitVec.add_comm, BitVec.add_sub_cancel]
  rw [Region.HoldsWord, h, hsub, BitVec.toNat_mul, h8, Nat.mod_eq_of_lt (by omega)]

theorem holdsWord_table (d : ℕ) : (tablePointer k vaddr pgd .table d).region.HoldsWord
    ((tablePointer k vaddr pgd .table d).addr+8*index d vaddr) := by
  have hindex := index_lt vaddr d
  have hstart : (tablePointer k vaddr pgd .table d).region.start =
      (tablePointer k vaddr pgd .table d).addr := by cases d <;> rfl
  have hsize : (tablePointer k vaddr pgd .table d).region.size = 4096 := by cases d <;> rfl
  rw [holdsWord_start hstart (by omega), hsize]
  omega

theorem offset_lt : (offset vaddr).toNat < 4096 := by
  rw [toNat_offset]
  exact Nat.mod_lt _ (by decide)

/-- An eighth of a 4K page can be read. -/
theorem holdsWord_small_iff : (tablePointer k vaddr pgd (.page false) 4).region.HoldsWord
    ((tablePointer k vaddr pgd (.page false) 4).addr+8*offset vaddr) ↔
      vaddr.toNat%4096 < 512 := by
  have hstart : (tablePointer k vaddr pgd (.page false) 4).region.start =
      (tablePointer k vaddr pgd (.page false) 4).addr := rfl
  have hsize : (tablePointer k vaddr pgd (.page false) 4).region.size = 4096 := rfl
  rw [holdsWord_start hstart (offset_lt vaddr), hsize, toNat_offset]
  omega

/-- In a 2M page the word is as far from the start as the offset and the low bits of the frame
say. -/
theorem holdsWord_huge_iff : (tablePointer k vaddr pgd (.page true) 3).region.HoldsWord
    ((tablePointer k vaddr pgd (.page true) 3).addr+8*offset vaddr) ↔
      4096*((entry k.memory k.pageOffsetBase pgd vaddr 2).extractLsb' 12 9).toNat+
        8*(vaddr.toNat%4096)+8 ≤ 2^21 := by
  let e := entry k.memory k.pageOffsetBase pgd vaddr 2
  have hbits : (e.extractLsb' 12 9).toNat = e.toNat/2^12%2^9 := by
    rw [BitVec.extractLsb'_toNat, Nat.shiftRight_eq_div_pow]
  have hframe : (frame e).toNat = (frame2M e).toNat+4096*(e.extractLsb' 12 9).toNat := by
    rw [toNat_frame, toNat_frame2M, hbits]
    omega
  have hfar : frame e+8*offset vaddr-frame2M e =
      BitVec.ofNat 64 (4096*(e.extractLsb' 12 9).toNat+8*(vaddr.toNat%4096)) := by
    apply BitVec.eq_of_toNat_eq
    have h8 : (8 : Word).toNat = 8 := rfl
    have hlt := (frame2M e).isLt
    rw [BitVec.toNat_sub, BitVec.toNat_add, BitVec.toNat_mul, h8, toNat_offset, hframe,
      BitVec.toNat_ofNat]
    omega
  have hsub : k.pageOffsetBase+frame e+8*offset vaddr-(k.pageOffsetBase+frame2M e) =
      frame e+8*offset vaddr-frame2M e := by
    rw [BitVec.add_assoc, add_sub_add_left_eq_sub]
  have hsmall : 4096*(e.extractLsb' 12 9).toNat+8*(vaddr.toNat%4096) < 2^64 := by omega
  change (k.pageOffsetBase+frame e+8*offset vaddr-(k.pageOffsetBase+frame2M e)).toNat+8 ≤ 2^21 ↔ _
  rw [hsub, hfar, BitVec.toNat_ofNat, Nat.mod_eq_of_lt hsmall]

/-- The last read of the walk, that of the page, decides. -/
theorem walkReads_justified_iff : (∀ r ∈ walkReads k vaddr pgd, r.Justified) ↔
    Maps4K k.memory k.pageOffsetBase pgd vaddr ∧ vaddr.toNat%4096 < 512 ∨
      Maps2M k.memory k.pageOffsetBase pgd vaddr ∧
        4096*((entry k.memory k.pageOffsetBase pgd vaddr 2).extractLsb' 12 9).toNat+
          8*(vaddr.toNat%4096)+8 ≤ 2^21 := by
  have hbefore {huge : Bool} {n : ℕ}
      (h : (tablePointer k vaddr pgd (.page huge) (n+1)).Justified) {d : ℕ} (hd : d ≤ n) :
      (Read.word (tablePointer k vaddr pgd .table d) (index d vaddr)).Justified :=
    ⟨justified_table_mono k vaddr pgd hd ((justified_page_iff k vaddr pgd huge n).mp h).2,
      holdsWord_table k vaddr pgd d⟩
  rw [walkReads_eq, maps4K_iff, maps2M_iff, ← holdsWord_small_iff k vaddr pgd,
    ← holdsWord_huge_iff k vaddr pgd]
  cases hhuge : pageSize (entry k.memory k.pageOffsetBase pgd vaddr 2) with
  | true =>
    simp only [if_true, List.cons_append, List.nil_append, List.forall_mem_cons,
      Bool.true_eq_false, false_and, false_or, true_and]
    constructor
    -- eight reads of entries, then that of the page
    · rintro ⟨-, -, -, -, -, -, -, -, hpage, -⟩
      exact hpage
    · intro hpage
      have h0 := hbefore hpage.1 (Nat.zero_le 2)
      have h1 := hbefore hpage.1 (Nat.le_succ 1)
      have h2 := hbefore hpage.1 (Nat.le_refl 2)
      exact ⟨h0, h0, h1, h1, h2, h2, h2, h2, hpage, by simp⟩
  | false =>
    simp only [if_false, List.cons_append, List.nil_append, List.forall_mem_cons,
      Bool.false_eq_true, false_and, or_false, true_and]
    constructor
    · rintro ⟨-, -, -, -, -, -, -, -, -, hpage, -⟩
      exact hpage
    · intro hpage
      have h0 := hbefore hpage.1 (Nat.zero_le 3)
      have h1 := hbefore hpage.1 (Nat.succ_le_succ (Nat.zero_le 2))
      have h2 := hbefore hpage.1 (Nat.le_succ 2)
      have h3 := hbefore hpage.1 (Nat.le_refl 3)
      exact ⟨h0, h0, h1, h1, h2, h2, h3, h3, h3, hpage, by simp⟩

end Walk

/-- The pointers aside, these are the reads of the trace, in its order. -/
theorem filter_trace (k : Kernel) (vaddr pid : Word) :
    (trace k vaddr pid).2.filter isRead = (reads k vaddr pid).flatMap Read.events := by
  cases ht : k.getPidTask pid with
  | none =>
    rw [reads, ht, trace, initDummy, ht]
    rfl
  | some task =>
    obtain ⟨mm⟩ := task
    cases mm with
    | none =>
      rw [reads, ht, trace, initDummy, ht]
      rfl
    | some pgd =>
      have hreads : reads k vaddr pid = .task (some ⟨some pgd⟩) :: .mm (some pgd) ::
          walkReads k vaddr pgd := by
        rw [reads, ht]
      rw [hreads, walkReads_eq]
      cases hhuge : pageSize (entry k.memory k.pageOffsetBase pgd vaddr 2) with
      | true =>
        rw [trace_huge k vaddr pgd ht rfl hhuge]
        rfl
      | false =>
        rw [trace_small k vaddr pgd ht rfl hhuge]
        rfl

/-- The walk is safe for the mapped addresses of a process with a memory map, as long as eight
times the offset is still in the page, and for no other: neither NULL, nor an absent entry, nor the
PS bit of the PUD entry is looked at. -/
theorem walkSafe_iff (k : Kernel) (vaddr pid : Word) : WalkSafe k vaddr pid ↔
    ∃ task pgd, k.getPidTask pid = some task ∧ task.mm = some pgd ∧
      (Maps4K k.memory k.pageOffsetBase pgd vaddr ∧ vaddr.toNat%4096 < 512 ∨
        Maps2M k.memory k.pageOffsetBase pgd vaddr ∧
          4096*((entry k.memory k.pageOffsetBase pgd vaddr 2).extractLsb' 12 9).toNat+
            8*(vaddr.toNat%4096)+8 ≤ 2^21) := by
  constructor
  · rintro ⟨-, hreads⟩
    cases ht : k.getPidTask pid with
    | none =>
      rw [reads, ht] at hreads
      cases hreads _ List.mem_cons_self
    | some task =>
      obtain ⟨mm⟩ := task
      rw [reads, ht] at hreads
      obtain ⟨-, hreads⟩ := List.forall_mem_cons.mp hreads
      cases mm with
      | none => cases hreads _ List.mem_cons_self
      | some pgd =>
        obtain ⟨-, hreads⟩ := List.forall_mem_cons.mp hreads
        exact ⟨_, pgd, rfl, rfl, (walkReads_justified_iff k vaddr pgd).mp hreads⟩
  · rintro ⟨⟨mm⟩, pgd, ht, rfl, hmaps⟩
    have hresult : (trace k vaddr pid).1 = .ok 0 := by
      cases hhuge : pageSize (entry k.memory k.pageOffsetBase pgd vaddr 2) with
      | true => rw [trace_huge k vaddr pgd ht rfl hhuge]
      | false => rw [trace_small k vaddr pgd ht rfl hhuge]
    refine ⟨hresult, ?_⟩
    rw [reads, ht]
    refine List.forall_mem_cons.mpr ⟨rfl, List.forall_mem_cons.mpr ⟨rfl, ?_⟩⟩
    exact (walkReads_justified_iff k vaddr pgd).mpr hmaps

/-- A process that has ended. -/
def noTask (memory : Memory) : Kernel :=
  { memory, pageOffsetBase := 0, getPidTask := fun _ => none }

theorem not_forall_walkSafe : ¬ ∀ k vaddr pid, WalkSafe k vaddr pid := by
  intro h
  obtain ⟨-, hreads⟩ := h (noTask fun _ => 0) 0 1
  cases hreads (.task none) List.mem_cons_self

end YuToolbox.PageWalk
