import Mathlib.Data.Nat.Bitwise
import Mathlib.Tactic.Common

/-! Four-level x86-64 address translation over a byte memory, by recursion on the depth of
the walk: the table of depth `d` is found through the entry of depth `d-1`. -/
namespace YuToolbox.Paging

abbrev Word := BitVec 64
abbrev Memory := Word → BitVec 8

def readWord (m : Memory) (a : Word) : Word :=
  m (a+7) ++ m (a+6) ++ m (a+5) ++ m (a+4) ++ m (a+3) ++ m (a+2) ++ m (a+1) ++ m a

/-- The index into the table of depth `d`: bits 47..39 at depth 0, 20..12 at depth 3. -/
def index (d : ℕ) (vaddr : Word) : Word := (vaddr.extractLsb' (39-9*d) 9).setWidth 64

def offset (vaddr : Word) : Word := (vaddr.extractLsb' 0 12).setWidth 64

def present (entry : Word) : Bool := entry.getLsbD 0

def pageSize (entry : Word) : Bool := entry.getLsbD 7

/-- The physical address an entry points to: its bits 51..12. -/
def frame (entry : Word) : Word := (entry.extractLsb' 12 40).setWidth 64 <<< 12

/-- The table of depth `d`, as a direct-map address; depth 4 is the page itself. -/
def table (m : Memory) (base pgd vaddr : Word) : ℕ → Word
  | 0 => pgd
  | d+1 => base+frame (readWord m (table m base pgd vaddr d+8*index d vaddr))

def entry (m : Memory) (base pgd vaddr : Word) (d : ℕ) : Word :=
  readWord m (table m base pgd vaddr d+8*index d vaddr)

theorem table_succ (m : Memory) (base pgd vaddr : Word) (d : ℕ) :
    table m base pgd vaddr (d+1) = base+frame (entry m base pgd vaddr d) := rfl

/-- All four entries are present and no large page is met on the way. -/
structure Maps4K (m : Memory) (base pgd vaddr : Word) : Prop where
  present : ∀ d < 4, present (entry m base pgd vaddr d) = true
  pud_small : pageSize (entry m base pgd vaddr 1) = false
  pmd_small : pageSize (entry m base pgd vaddr 2) = false

/-- The entries of the first three depths are present, and the third maps a large page. -/
structure Maps2M (m : Memory) (base pgd vaddr : Word) : Prop where
  present : ∀ d < 3, Paging.present (entry m base pgd vaddr d) = true
  pud_small : pageSize (entry m base pgd vaddr 1) = false
  pmd_huge : pageSize (entry m base pgd vaddr 2) = true

/-- The large page an entry maps: its bits 51..21. -/
def frame2M (entry : Word) : Word := (entry.extractLsb' 21 31).setWidth 64 <<< 21

def offset2M (vaddr : Word) : Word := (vaddr.extractLsb' 0 21).setWidth 64

theorem shift_and_eq_index (vaddr : Word) (s : ℕ) :
    (vaddr >>> s) &&& 0x1ff = (vaddr.extractLsb' s 9).setWidth 64 := by
  apply BitVec.eq_of_toNat_eq
  have hmask : (0x1ff : Word).toNat = 2^9-1 := rfl
  have hlt : vaddr.toNat >>> s % 2^9 < 2^64 := by omega
  calc ((vaddr >>> s) &&& 0x1ff).toNat
      = vaddr.toNat >>> s % 2^9 := by
        rw [BitVec.toNat_and, hmask, Nat.and_two_pow_sub_one_eq_mod, BitVec.toNat_ushiftRight]
    _ = ((vaddr.extractLsb' s 9).setWidth 64).toNat := by
        rw [BitVec.toNat_setWidth, BitVec.extractLsb'_toNat, Nat.mod_eq_of_lt hlt]

theorem and_eq_offset (vaddr : Word) : vaddr &&& 0xfff = offset vaddr := by
  apply BitVec.eq_of_toNat_eq
  have hmask : (0xfff : Word).toNat = 2^12-1 := rfl
  have hlt : vaddr.toNat >>> 0 % 2^12 < 2^64 := by omega
  rw [offset, BitVec.toNat_and, hmask, Nat.and_two_pow_sub_one_eq_mod, BitVec.toNat_setWidth,
    BitVec.extractLsb'_toNat, Nat.mod_eq_of_lt hlt, Nat.shiftRight_zero]

theorem toNat_offset (vaddr : Word) : (offset vaddr).toNat = vaddr.toNat % 4096 := by
  have hlt : vaddr.toNat >>> 0 % 2^12 < 2^64 := by omega
  rw [offset, BitVec.toNat_setWidth, BitVec.extractLsb'_toNat, Nat.mod_eq_of_lt hlt,
    Nat.shiftRight_zero, show 2^12 = 4096 from rfl]

theorem and_eq_frame (e : Word) : e &&& 0xffffffffff000 = frame e := by
  -- bit by bit: below 12, between 12 and 51, and above
  have hmask : (0xffffffffff000 : Word) = (BitVec.allOnes 40).setWidth 64 <<< 12 := by decide
  rw [hmask]
  apply BitVec.eq_of_getLsbD_eq
  intro i hi
  simp only [frame, BitVec.getLsbD_and, BitVec.getLsbD_shiftLeft, BitVec.getLsbD_setWidth,
    BitVec.getLsbD_allOnes, BitVec.getLsbD_extractLsb', hi, decide_true, Bool.true_and]
  by_cases h12 : i < 12
  · simp [h12]
  · have hadd : 12+(i-12) = i := by omega
    by_cases h52 : i-12 < 40
    · simp [h12, h52, hadd, show i-12 < 64 by omega]
    · simp [h12, h52]

theorem toNat_offset2M (vaddr : Word) : (offset2M vaddr).toNat = vaddr.toNat%2^21 := by
  have hlt : vaddr.toNat >>> 0%2^21 < 2^64 := by omega
  rw [offset2M, BitVec.toNat_setWidth, BitVec.extractLsb'_toNat, Nat.mod_eq_of_lt hlt,
    Nat.shiftRight_zero]

/-- The bits of an entry from some bit up to bit 51, in their places. -/
theorem toNat_field (e : Word) {s n : ℕ} (h : s+n = 52) :
    ((e.extractLsb' s n).setWidth 64 <<< s).toNat = e.toNat/2^s%2^n*2^s := by
  have hlt : e.toNat/2^s%2^n < 2^n := Nat.mod_lt _ (Nat.two_pow_pos n)
  have hprod : e.toNat/2^s%2^n*2^s < 2^64 := by
    calc e.toNat/2^s%2^n*2^s
        < 2^n*2^s := Nat.mul_lt_mul_of_pos_right hlt (Nat.two_pow_pos s)
      _ = 2^52 := by rw [← Nat.pow_add, Nat.add_comm n s, h]
      _ < 2^64 := by decide
  have hsmall : e.toNat/2^s%2^n < 2^64 :=
    Nat.lt_of_le_of_lt (Nat.le_mul_of_pos_right _ (Nat.two_pow_pos s)) hprod
  rw [BitVec.toNat_shiftLeft, BitVec.toNat_setWidth, BitVec.extractLsb'_toNat,
    Nat.shiftRight_eq_div_pow, Nat.mod_eq_of_lt hsmall, Nat.shiftLeft_eq, Nat.mod_eq_of_lt hprod]

theorem toNat_frame (e : Word) : (frame e).toNat = e.toNat/2^12%2^40*2^12 := toNat_field e rfl

theorem toNat_frame2M (e : Word) : (frame2M e).toNat = e.toNat/2^21%2^31*2^21 := toNat_field e rfl

end YuToolbox.Paging
