import YuToolbox.PageWalk

/-! The word that `init_dummy` prints as the content of an address in a 2M page. The mask of
the 4K path keeps nine bits below the frame of a large page, and the offset is that in a
4K page, scaled by the pointer type. -/
namespace YuToolbox.PageWalk

open Paging

/-- The address whose word is printed as content: that of the read directly before. -/
def contentAddr (events : List Event) : Option Word :=
  match events.reverse with
  | .print "content" _ :: .load addr :: _ => some addr
  | _ => none

def ContentLaw2M (k : Kernel) (vaddr pid pgd : Word) : Prop :=
  let page := k.pageOffsetBase+frame2M (entry k.memory k.pageOffsetBase pgd vaddr 2)
  printed "page_address" (trace k vaddr pid).2 = some page ∧
    contentAddr (trace k vaddr pid).2 = some (page+offset2M vaddr)

/-- The 4K mask keeps what a 2M frame has not. -/
theorem frame_eq_frame2M_iff (e : Word) : frame e = frame2M e ↔ e.extractLsb' 12 9 = 0 := by
  have hbits : (e.extractLsb' 12 9).toNat = e.toNat/2^12%2^9 := by
    rw [BitVec.extractLsb'_toNat, Nat.shiftRight_eq_div_pow]
  rw [← BitVec.toNat_inj, ← BitVec.toNat_inj, toNat_frame, toNat_frame2M, hbits]
  have hzero : (0 : BitVec 9).toNat = 0 := rfl
  omega

/-- Eight times the 4K offset is the 2M offset only where both are zero. -/
theorem scaled_offset_iff (vaddr : Word) :
    8*offset vaddr = offset2M vaddr ↔ vaddr.toNat%2^21 = 0 := by
  have h8 : (8 : Word).toNat = 8 := rfl
  rw [← BitVec.toNat_inj, BitVec.toNat_mul, toNat_offset, toNat_offset2M, h8]
  omega

/-- The printed page address is right where bits 20..12 of the PMD entry are clear, and the
content is then right at the start of the page only. -/
theorem content_2m_iff (k : Kernel) (vaddr pid pgd : Word) (task : Task)
    (ht : k.getPidTask pid = some task) (hm : task.mm = some pgd)
    (h : Maps2M k.memory k.pageOffsetBase pgd vaddr) :
    ContentLaw2M k vaddr pid pgd ↔
      (entry k.memory k.pageOffsetBase pgd vaddr 2).extractLsb' 12 9 = 0 ∧
        vaddr.toNat%2^21 = 0 := by
  let e := entry k.memory k.pageOffsetBase pgd vaddr 2
  have htrace := trace_huge k vaddr pgd ht hm h.pmd_huge
  have hpage : printed "page_address" (trace k vaddr pid).2 =
      some (k.pageOffsetBase+frame e) := by
    rw [htrace]
    rfl
  have haddr : contentAddr (trace k vaddr pid).2 =
      some (k.pageOffsetBase+frame e+8*offset vaddr) := by
    rw [htrace]
    rfl
  simp only [ContentLaw2M]
  rw [hpage, haddr, Option.some_inj, Option.some_inj, BitVec.add_right_inj,
    ← frame_eq_frame2M_iff, ← scaled_offset_iff]
  -- the two offsets can be compared once the page addresses agree
  constructor
  · rintro ⟨hframe, hcontent⟩
    rw [hframe] at hcontent
    exact ⟨hframe, (BitVec.add_right_inj _).mp hcontent⟩
  · rintro ⟨hframe, hoffset⟩
    exact ⟨hframe, by rw [hframe, hoffset]⟩

/-- Every word is 0x200001, a present entry for the frame 0x200000, but for the one at
0x200008, which has PS set as well. -/
def hugeMemory : Memory := fun a =>
  if a = 0x200008 then 0x81 else if a &&& 7 = 0 then 1 else if a &&& 7 = 2 then 0x20 else 0

def hugeKernel : Kernel :=
  { memory := hugeMemory, pageOffsetBase := 0, getPidTask := fun _ => some { mm := some 0x200000 } }

theorem content_2m_iff_start : ContentLaw2M hugeKernel 0x200000 1 0x200000 ↔
    (entry hugeMemory 0 0x200000 0x200000 2).extractLsb' 12 9 = 0 ∧
      (0x200000 : Word).toNat%2^21 = 0 :=
  content_2m_iff hugeKernel 0x200000 1 0x200000 _ rfl rfl
    ⟨by decide +kernel, by decide +kernel, by decide +kernel⟩

theorem content_2m_reads_elsewhere : Maps2M hugeMemory 0 0x200000 0x200008 ∧
    ¬ ContentLaw2M hugeKernel 0x200008 1 0x200000 := by
  have hmap : Maps2M hugeMemory 0 0x200000 0x200008 :=
    ⟨by decide +kernel, by decide +kernel, by decide +kernel⟩
  refine ⟨hmap, ?_⟩
  rintro ⟨-, haddr⟩
  rw [trace_huge hugeKernel 0x200008 0x200000 rfl rfl hmap.pmd_huge] at haddr
  have hread : contentAddr (walkEvents hugeKernel 0x200008 0x200000 ++
      events2M hugeKernel 0x200008 0x200000) = some 0x200040 := by decide +kernel
  rw [hread] at haddr
  exact absurd haddr (by decide +kernel)

end YuToolbox.PageWalk
