import YuToolbox.PageWalkContent

/-! The unrolled walk of `init_dummy` against a reference walk by recursion on the level, from
level 3, the PGD's, down to level 0, that of the PTE. -/
namespace YuToolbox.PageWalk

open Paging

/-- The entry of a table of some level: the word at the index that is in the address's nine
bits from `12+9*level` on. -/
def entryAt (m : Memory) (vaddr : Word) (level : ℕ) (table : Word) : Word :=
  readWord m (table+8*((vaddr >>> (12+9*level))%512))

/-- The entries from a table of some level down to the PTE, each with what it points to. -/
def refWalk (m : Memory) (base vaddr : Word) : ℕ → Word → List (Word × Word)
  | 0, table => [(entryAt m vaddr 0 table, base+frame (entryAt m vaddr 0 table))]
  | level+1, table =>
    let e := entryAt m vaddr (level+1) table
    (e, base+frame e) :: refWalk m base vaddr level (base+frame e)

/-- All entries of the reference walk are present, and those of the PUD and the PMD map no
large page. -/
structure RefMaps (m : Memory) (base pgd vaddr : Word) : Prop where
  present : ∀ e ∈ (refWalk m base vaddr 3 pgd).map Prod.fst, present e = true
  small : ∀ e ∈ (((refWalk m base vaddr 3 pgd).map Prod.fst).drop 1).take 2, pageSize e = false

theorem mod_eq_index (vaddr : Word) {d level : ℕ} (h : d+level = 3) :
    (vaddr >>> (12+9*level))%512 = index d vaddr := by
  apply BitVec.eq_of_toNat_eq
  have h512 : (512 : Word).toNat = 2^9 := rfl
  have hshift : 39-9*d = 12+9*level := by omega
  have hlt : vaddr.toNat >>> (12+9*level)%2^9 < 2^64 := by omega
  rw [index, BitVec.toNat_umod, BitVec.toNat_ushiftRight, h512, BitVec.toNat_setWidth,
    BitVec.extractLsb'_toNat, hshift, Nat.mod_eq_of_lt hlt]

section Walk

variable (m : Memory) (base pgd vaddr : Word)

theorem entryAt_table {d level : ℕ} (h : d+level = 3) :
    entryAt m vaddr level (table m base pgd vaddr d) = entry m base pgd vaddr d := by
  rw [entryAt, mod_eq_index vaddr h, entry]

/-- The walk from the table of depth `d` goes on with the entries and tables of the depths
behind it. -/
theorem refWalk_table {d level : ℕ} (h : d+level = 3) :
    refWalk m base vaddr level (table m base pgd vaddr d) =
      (List.range' d (level+1)).map
        (fun i => (entry m base pgd vaddr i, table m base pgd vaddr (i+1))) := by
  -- the level counts down while the depth counts up
  induction level generalizing d with
  | zero =>
    rw [refWalk, entryAt_table m base pgd vaddr h]
    rfl
  | succ level ih =>
    have hnext := ih (d := d+1) (by omega)
    rw [refWalk, entryAt_table m base pgd vaddr h, ← table_succ, hnext]
    rfl

theorem refWalk_eq : refWalk m base vaddr 3 pgd = [0, 1, 2, 3].map
    (fun d => (entry m base pgd vaddr d, table m base pgd vaddr (d+1))) :=
  refWalk_table m base pgd vaddr (d := 0) rfl

theorem refMaps_iff : RefMaps m base pgd vaddr ↔ Maps4K m base pgd vaddr := by
  constructor
  · rintro ⟨hpresent, hsmall⟩
    rw [refWalk_eq] at hpresent hsmall
    refine ⟨fun d hd => hpresent _ ?_, hsmall _ (by simp), hsmall _ (by simp)⟩
    rw [List.map_map]
    apply List.mem_map_of_mem
    have : d = 0 ∨ d = 1 ∨ d = 2 ∨ d = 3 := by omega
    simpa using this
  · rintro ⟨hpresent, hpud, hpmd⟩
    constructor <;> rw [refWalk_eq]
    · simpa using ⟨hpresent 0 (by decide), hpresent 1 (by decide), hpresent 2 (by decide),
        hpresent 3 (by decide)⟩
    · simpa using ⟨hpud, hpmd⟩

end Walk

theorem toNat_index (d : ℕ) (vaddr : Word) :
    (index d vaddr).toNat = vaddr.toNat/2^(39-9*d)%2^9 := by
  have hlt : vaddr.toNat >>> (39-9*d)%2^9 < 2^64 := by omega
  rw [index, BitVec.toNat_setWidth, BitVec.extractLsb'_toNat, Nat.mod_eq_of_lt hlt,
    Nat.shiftRight_eq_div_pow]

/-- The indices and the offset are the nines and the twelve of the low 48 bits. -/
theorem index_offset_recombine (vaddr : Word) : vaddr.toNat%2^48 =
    (index 0 vaddr).toNat*2^39+(index 1 vaddr).toNat*2^30+(index 2 vaddr).toNat*2^21+
      (index 3 vaddr).toNat*2^12+(offset vaddr).toNat := by
  simp only [toNat_index, toNat_offset]
  omega

/-- The frame number times the size of a page is the frame. -/
theorem pfn_mul_page (e : Word) : ((e >>> 12) &&& 0xffffffffff)*4096 = frame e := by
  apply BitVec.eq_of_toNat_eq
  have hmask : (0xffffffffff : Word).toNat = 2^40-1 := rfl
  have hpage : (4096 : Word).toNat = 2^12 := rfl
  rw [toNat_frame, BitVec.toNat_mul, BitVec.toNat_and, hmask, hpage,
    Nat.and_two_pow_sub_one_eq_mod, BitVec.toNat_ushiftRight, Nat.shiftRight_eq_div_pow]
  omega

/-- What is printed of a 4K mapping is the reference walk: its tables and page, a frame number
that gives the page, and the parts of the address. -/
theorem printed_walk (k : Kernel) (vaddr pid pgd : Word) (task : Task)
    (ht : k.getPidTask pid = some task) (hm : task.mm = some pgd)
    (h : RefMaps k.memory k.pageOffsetBase pgd vaddr) :
    ["pud_table", "pmd_table", "pte_table", "page_address"].map
        (fun name => printed name (trace k vaddr pid).2) =
      (refWalk k.memory k.pageOffsetBase vaddr 3 pgd).map (fun step => some step.2) ∧
    (∃ page pfn, printed "page_address" (trace k vaddr pid).2 = some page ∧
      printed "page_address_pfn" (trace k vaddr pid).2 = some pfn ∧
      page = k.pageOffsetBase+pfn*4096) ∧
    ∃ pgdIndex pudIndex pmdIndex pteIndex o,
      printed "pgd_index" (trace k vaddr pid).2 = some pgdIndex ∧
      printed "pud_index" (trace k vaddr pid).2 = some pudIndex ∧
      printed "pmd_index" (trace k vaddr pid).2 = some pmdIndex ∧
      printed "pte_index" (trace k vaddr pid).2 = some pteIndex ∧
      printed "offset" (trace k vaddr pid).2 = some o ∧
      vaddr.toNat%2^48 = pgdIndex.toNat*2^39+pudIndex.toNat*2^30+pmdIndex.toNat*2^21+
        pteIndex.toNat*2^12+o.toNat := by
  have hmaps := (refMaps_iff k.memory k.pageOffsetBase pgd vaddr).mp h
  rw [refWalk_eq, trace_small k vaddr pgd ht hm hmaps.pmd_small]
  refine ⟨rfl, ⟨_, _, rfl, rfl, ?_⟩, _, _, _, _, _, rfl, rfl, rfl, rfl, rfl, ?_⟩
  · rw [pfn_mul_page]
    rfl
  · exact index_offset_recombine vaddr

theorem printed_walk_step : let k := stepKernel
    ["pud_table", "pmd_table", "pte_table", "page_address"].map
        (fun name => printed name (trace k 0x7f04abe76008 6799).2) =
      [some 0x2000, some 0x3000, some 0x4000, some 0x5000] := by
  have hmaps : RefMaps stepMemory 0 0x1000 0x7f04abe76008 :=
    (refMaps_iff _ _ _ _).mpr stepKernel_maps
  obtain ⟨hwalk, -⟩ :=
    printed_walk stepKernel 0x7f04abe76008 6799 0x1000 _ rfl rfl hmaps
  have htables : (refWalk stepMemory 0 0x7f04abe76008 3 0x1000).map (fun step => some step.2) =
      [some 0x2000, some 0x3000, some 0x4000, some 0x5000] := by decide +kernel
  exact hwalk.trans htables

end YuToolbox.PageWalk
