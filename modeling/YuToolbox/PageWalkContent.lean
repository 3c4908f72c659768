import Mathlib.Logic.Function.Basic
import YuToolbox.PageWalk

/-! The word that `init_dummy` prints as the content of a mapped address. The in-page
offset is added to a `long *`, so eight times the offset is skipped. -/
namespace YuToolbox.PageWalk

open Paging

def ContentLaw4K (k : Kernel) (vaddr pid pgd : Word) : Prop :=
  printed "content" (trace k vaddr pid).2 = some (readWord k.memory
    (k.pageOffsetBase+frame (entry k.memory k.pageOffsetBase pgd vaddr 3)+offset vaddr))

theorem offset_eq_zero {vaddr : Word} (h : vaddr.toNat % 4096 = 0) : offset vaddr = 0 := by
  apply BitVec.eq_of_toNat_eq
  rw [toNat_offset, h]
  rfl

/-- The word that is printed is at eight times the offset. -/
theorem contentLaw4K_iff {k : Kernel} {vaddr pid pgd : Word} {task : Task}
    (ht : k.getPidTask pid = some task) (hm : task.mm = some pgd)
    (hsmall : pageSize (entry k.memory k.pageOffsetBase pgd vaddr 2) = false) :
    ContentLaw4K k vaddr pid pgd ↔
      readWord k.memory (table k.memory k.pageOffsetBase pgd vaddr 4+8*offset vaddr) =
        readWord k.memory (table k.memory k.pageOffsetBase pgd vaddr 4+offset vaddr) := by
  rw [ContentLaw4K, content_small k vaddr pgd ht hm hsmall, Option.some_inj, ← table_succ]

theorem contentLaw4K_of_aligned {k : Kernel} {vaddr pid pgd : Word} {task : Task}
    (ht : k.getPidTask pid = some task) (hm : task.mm = some pgd)
    (hsmall : pageSize (entry k.memory k.pageOffsetBase pgd vaddr 2) = false)
    (hv : vaddr.toNat % 4096 = 0) : ContentLaw4K k vaddr pid pgd := by
  rw [contentLaw4K_iff ht hm hsmall, offset_eq_zero hv]
  rfl

theorem readWord_congr {m m' : Memory} {a : Word}
    (h : ∀ i < 8, m' (a+BitVec.ofNat 64 i) = m (a+BitVec.ofNat 64 i)) :
    readWord m' a = readWord m a := by
  have h0 : m' a = m a := by simpa using h 0 (by decide)
  have h1 : m' (a+1) = m (a+1) := h 1 (by decide)
  have h2 : m' (a+2) = m (a+2) := h 2 (by decide)
  have h3 : m' (a+3) = m (a+3) := h 3 (by decide)
  have h4 : m' (a+4) = m (a+4) := h 4 (by decide)
  have h5 : m' (a+5) = m (a+5) := h 5 (by decide)
  have h6 : m' (a+6) = m (a+6) := h 6 (by decide)
  have h7 : m' (a+7) = m (a+7) := h 7 (by decide)
  unfold readWord
  rw [h0, h1, h2, h3, h4, h5, h6, h7]

theorem setWidth_append_low {w : ℕ} (x : BitVec w) (y : BitVec 8) : (x ++ y).setWidth 8 = y := by
  apply BitVec.eq_of_getLsbD_eq
  intro i hi
  simp [BitVec.getLsbD_append, hi]

theorem setWidth_readWord (m : Memory) (a : Word) : (readWord m a).setWidth 8 = m a :=
  setWidth_append_low _ _

theorem table_congr {m m' : Memory} (base pgd vaddr : Word) (n : ℕ)
    (h : ∀ d < n, ∀ i < 8, m' (table m base pgd vaddr d+8*index d vaddr+BitVec.ofNat 64 i) =
      m (table m base pgd vaddr d+8*index d vaddr+BitVec.ofNat 64 i)) (d : ℕ) (hd : d ≤ n) :
    table m' base pgd vaddr d = table m base pgd vaddr d := by
  induction d with
  | zero => rfl
  | succ d ih =>
    simp only [table, ih (by omega)]
    rw [readWord_congr (h d (by omega))]

theorem scaled_ne (page : Word) {o : Word} (hlt : o.toNat < 4096) (hne : o.toNat ≠ 0) :
    page+8*o ≠ page+o := by
  intro heq
  have heq' := congrArg BitVec.toNat heq
  have h8 : (8 : Word).toNat = 8 := rfl
  rw [BitVec.toNat_add, BitVec.toNat_add, BitVec.toNat_mul, h8] at heq'
  have hpage := page.isLt
  omega

/-- No byte of a word is in a page that starts behind the word. -/
theorem byte_ne_of_le {a page : Word} (h : a.toNat+8 ≤ page.toNat) (hpage : page.toNat+4096 ≤ 2^64)
    {i o : ℕ} (hi : i < 8) (ho : o < 4096) : a+BitVec.ofNat 64 i ≠ page+BitVec.ofNat 64 o := by
  intro heq
  have hsame := congrArg BitVec.toNat heq
  rw [BitVec.toNat_add, BitVec.toNat_add, BitVec.toNat_ofNat, BitVec.toNat_ofNat] at hsame
  omega

/-- A page that holds none of the four entries of its own walk. -/
def Apart (k : Kernel) (vaddr pgd : Word) : Prop :=
  ∀ d < 4, ∀ i < 8, ∀ o < 4096,
    table k.memory k.pageOffsetBase pgd vaddr d+8*index d vaddr+BitVec.ofNat 64 i ≠
      table k.memory k.pageOffsetBase pgd vaddr 4+BitVec.ofNat 64 o

/-- The walk over any other content of the page is the walk over the given one. -/
theorem contentLaw4K_outside {k : Kernel} {vaddr pid pgd : Word} {task : Task}
    (ht : k.getPidTask pid = some task) (hm : task.mm = some pgd)
    (h : Maps4K k.memory k.pageOffsetBase pgd vaddr) (ha : Apart k vaddr pgd) {memory : Memory}
    (hout : ∀ x, (∀ o < 4096,
      x ≠ table k.memory k.pageOffsetBase pgd vaddr 4+BitVec.ofNat 64 o) →
        memory x = k.memory x) :
    ContentLaw4K { k with memory } vaddr pid pgd ↔
      readWord memory (table k.memory k.pageOffsetBase pgd vaddr 4+8*offset vaddr) =
        readWord memory (table k.memory k.pageOffsetBase pgd vaddr 4+offset vaddr) := by
  have htable (d : ℕ) (hd : d ≤ 4) : table memory k.pageOffsetBase pgd vaddr d =
      table k.memory k.pageOffsetBase pgd vaddr d :=
    table_congr k.pageOffsetBase pgd vaddr 4
      (fun d hd i hi => hout _ (fun o ho => ha d hd i hi o ho)) d hd
  have hentry (d : ℕ) (hd : d < 4) : entry memory k.pageOffsetBase pgd vaddr d =
      entry k.memory k.pageOffsetBase pgd vaddr d := by
    simp only [entry, htable d (by omega)]
    exact readWord_congr (fun i hi => hout _ (fun o ho => ha d hd i hi o ho))
  have hsmall : pageSize (entry memory k.pageOffsetBase pgd vaddr 2) = false := by
    rw [hentry 2 (by decide)]
    exact h.pmd_small
  rw [contentLaw4K_iff (k := { k with memory }) ht hm hsmall, htable 4 le_rfl]

/-- A page-aligned address prints its word. Any other one prints a wrong word for some content of
its page, if that is none of the tables. -/
theorem content_4k_every_page_iff (k : Kernel) (vaddr pid pgd : Word) (task : Task)
    (ht : k.getPidTask pid = some task) (hm : task.mm = some pgd)
    (h : Maps4K k.memory k.pageOffsetBase pgd vaddr) :
    (vaddr.toNat % 4096 = 0 → ContentLaw4K k vaddr pid pgd) ∧
      (Apart k vaddr pgd → ((∀ memory : Memory,
        (∀ x, (∀ o < 4096, x ≠ table k.memory k.pageOffsetBase pgd vaddr 4+BitVec.ofNat 64 o) →
          memory x = k.memory x) →
        ContentLaw4K { k with memory } vaddr pid pgd) ↔ vaddr.toNat % 4096 = 0)) := by
  refine ⟨contentLaw4K_of_aligned ht hm h.pmd_small, fun ha => ?_⟩
  let page := table k.memory k.pageOffsetBase pgd vaddr 4
  have hoff : (offset vaddr).toNat < 4096 := by
    rw [toNat_offset]
    exact Nat.mod_lt _ (by decide)
  constructor
  · intro hall
    by_contra hne
    -- change the byte at the address, which the walk does not read
    let memory : Memory :=
      Function.update k.memory (page+offset vaddr) (~~~ k.memory (page+8*offset vaddr))
    have houtside (x : Word) (hx : ∀ o < 4096, x ≠ page+BitVec.ofNat 64 o) :
        memory x = k.memory x := by
      apply Function.update_of_ne
      simpa using hx (offset vaddr).toNat hoff
    have hapart := scaled_ne page hoff (by rwa [toNat_offset])
    have hwords := (contentLaw4K_outside ht hm h ha houtside).mp (hall memory houtside)
    have hlow := congrArg (fun w : Word => w.setWidth 8) hwords
    simp only [setWidth_readWord] at hlow
    rw [show memory (page+offset vaddr) = ~~~ k.memory (page+8*offset vaddr) from
      Function.update_self _ _ _,
      show memory (page+8*offset vaddr) = k.memory (page+8*offset vaddr) from
        Function.update_of_ne hapart _ _] at hlow
    have hbit := congrArg (fun b : BitVec 8 => b.getLsbD 0) hlow
    simp at hbit
  · intro hv memory houtside
    rw [contentLaw4K_outside ht hm h ha houtside, offset_eq_zero hv]
    rfl

/-- Every word of the first pages is an entry for the page behind its own. -/
def stepMemory : Memory := fun a =>
  if a &&& 7 = 0 then 1
  else if a &&& 7 = 1 then ((a >>> 12)+1).setWidth 8 <<< 4
  else 0

def stepKernel : Kernel :=
  { memory := stepMemory, pageOffsetBase := 0, getPidTask := fun _ => some { mm := some 0x1000 } }

theorem stepKernel_maps : Maps4K stepMemory 0 0x1000 0x7f04abe76008 :=
  ⟨by decide +kernel, by decide +kernel, by decide +kernel⟩

/-- The four tables are the pages in front of that of the data. -/
theorem stepKernel_apart : Apart stepKernel 0x7f04abe76008 0x1000 := by
  have hpage : table stepMemory 0 0x1000 0x7f04abe76008 4 = 0x5000 := by decide +kernel
  let slot (d : ℕ) : Word := table stepMemory 0 0x1000 0x7f04abe76008 d+8*index d 0x7f04abe76008
  have hbelow : ∀ d < 4, (slot d).toNat+8 ≤ (0x5000 : Word).toNat := by decide +kernel
  intro d hd i hi o ho heq
  have hne : slot d+BitVec.ofNat 64 i ≠ 0x5000+BitVec.ofNat 64 o :=
    byte_ne_of_le (hbelow d hd) (by decide) hi ho
  exact hne (heq.trans (congrArg (·+BitVec.ofNat 64 o) hpage))

/-- Eight bytes into the page the content is right for some contents only. -/
theorem content_4k_every_page_iff_step : ¬ ∀ memory : Memory,
    (∀ x, (∀ o < 4096, x ≠ table stepMemory 0 0x1000 0x7f04abe76008 4+BitVec.ofNat 64 o) →
      memory x = stepMemory x) →
    ContentLaw4K { stepKernel with memory } 0x7f04abe76008 6799 0x1000 := by
  have hall := (content_4k_every_page_iff stepKernel 0x7f04abe76008 6799 0x1000 _ rfl rfl
    stepKernel_maps).2 stepKernel_apart
  intro h
  exact absurd (hall.mp h) (by decide)

/-- One byte of the page differs, 64 bytes into it; the walk of offset 8 reads it. -/
def spotMemory : Memory := Function.update stepMemory 0x5040 2

theorem content_4k_reads_elsewhere :
    Maps4K spotMemory 0 0x1000 0x7f04abe76008 ∧
      ¬ ContentLaw4K { stepKernel with memory := spotMemory } 0x7f04abe76008 6799 0x1000 := by
  have hmap : Maps4K spotMemory 0 0x1000 0x7f04abe76008 :=
    ⟨by decide +kernel, by decide +kernel, by decide +kernel⟩
  refine ⟨hmap, ?_⟩
  rw [contentLaw4K_iff (k := { stepKernel with memory := spotMemory }) rfl rfl hmap.pmd_small]
  decide +kernel

end YuToolbox.PageWalk
