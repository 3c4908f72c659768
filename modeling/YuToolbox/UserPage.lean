import YuToolbox.PageWalkHuge
import YuToolbox.PageWalkTables

/-! `userpage.c` and `userhugepage.c`, whose stores go through the page table that `init_dummy`
walks: the processor finds an address, and other processes store to theirs before and after. -/
namespace YuToolbox.UserPage

open Paging PageWalk

/-- An address of a process whose page table is at `pgd`. -/
structure Mapping where
  pgd : Word
  vaddr : Word
  deriving DecidableEq

section Translation

variable (m : Memory) (base : Word) (u : Mapping)

def entryOf (d : ℕ) : Word := entry m base u.pgd u.vaddr d

/-- Where the entry of depth `d` stands. -/
def slot (d : ℕ) : Word := table m base u.pgd u.vaddr d+8*index d u.vaddr

/-- How many entries the processor reads. -/
def depth : ℕ := if pageSize (entryOf m base u 2) then 3 else 4

/-- What the processor makes of an address in a page of 4K or 2M, as a direct-map address; `none` is
a page fault. -/
def translate : Option Word :=
  if present (entryOf m base u 0) && present (entryOf m base u 1) &&
      !pageSize (entryOf m base u 1) && present (entryOf m base u 2) then
    if pageSize (entryOf m base u 2) then
      some (base+frame2M (entryOf m base u 2)+offset2M u.vaddr)
    else if present (entryOf m base u 3) then
      some (base+frame (entryOf m base u 3)+offset u.vaddr)
    else none
  else none

def loadByte : Option (BitVec 8) := (translate m base u).map m

def storeByte (b : BitVec 8) : Option Memory :=
  (translate m base u).map (fun addr => Function.update m addr b)

end Translation

structure Store where
  mapping : Mapping
  byte : BitVec 8

def stores (base : Word) (run : List Store) (m : Memory) : Option Memory :=
  run.foldlM (fun m s => storeByte m base s.mapping s.byte) m

/-- The eight bytes of a word, the low one first. -/
def wordStores (pgd p value : Word) : List Store :=
  (List.range 8).map
    (fun i => ⟨⟨pgd, p+BitVec.ofNat 64 i⟩, value.extractLsb' (8*i) 8⟩)

def loadWord (m : Memory) (base pgd p : Word) : Option Word := do
  let byte (i : ℕ) : Option (BitVec 8) := loadByte m base ⟨pgd, p+BitVec.ofNat 64 i⟩
  return (← byte 7) ++ (← byte 6) ++ (← byte 5) ++ (← byte 4) ++ (← byte 3) ++ (← byte 2) ++
    (← byte 1) ++ (← byte 0)

/-- What a program prints: `getpid()`, `p` and `*p`. -/
structure Debug where
  pid : Word
  userAddr : Word
  content : Word

/-- `main` of both programs from where `mmap` has returned `p`; they ask for different pages. A
store that has no translation ends them. -/
def userpage (base pgd pid p : Word) (m : Memory) : Option (Memory × Debug) := do
  let m ← stores base (wordStores pgd p 0xbeafbeafbeafbeaf) m
  let content ← loadWord m base pgd p
  return (m, ⟨pid, p, content⟩)

/-- The addresses that processes use are mapped, and none of their pages holds an entry that the
processor reads for one of them. -/
structure UserSpace (base : Word) (users : Set Mapping) (m : Memory) : Prop where
  mapped : ∀ u ∈ users, ∃ addr, translate m base u = some addr
  apart : ∀ u ∈ users, ∀ addr, translate m base u = some addr →
    ∀ v ∈ users, ∀ d < depth m base v, ∀ i < 8, slot m base v d+BitVec.ofNat 64 i ≠ addr

/-- The processor reads the same entries at the same places. -/
structure SameWalk (base : Word) (m m' : Memory) (u : Mapping) : Prop where
  depth_eq : depth m' base u = depth m base u
  slot_eq : ∀ d < depth m base u, slot m' base u d = slot m base u d
  entry_eq : ∀ d < depth m base u, entryOf m' base u d = entryOf m base u d
  translate_eq : translate m' base u = translate m base u

section Walks

variable {m m' m'' : Memory} {base : Word} {users : Set Mapping} {u : Mapping}

theorem stores_append (base : Word) (a b : List Store) (m : Memory) :
    stores base (a ++ b) m = stores base a m >>= stores base b := List.foldlM_append

theorem stores_cons (base : Word) (s : Store) (run : List Store) (m : Memory) :
    stores base (s :: run) m = storeByte m base s.mapping s.byte >>= stores base run :=
  List.foldlM_cons

theorem three_le_depth (m : Memory) (base : Word) (u : Mapping) : 3 ≤ depth m base u := by
  unfold depth
  split <;> decide

theorem depth_le_four (m : Memory) (base : Word) (u : Mapping) : depth m base u ≤ 4 := by
  unfold depth
  split <;> decide

theorem SameWalk.refl (m : Memory) (base : Word) (u : Mapping) : SameWalk base m m u :=
  ⟨rfl, fun _ _ => rfl, fun _ _ => rfl, rfl⟩

theorem SameWalk.trans (h : SameWalk base m m' u) (h' : SameWalk base m' m'' u) :
    SameWalk base m m'' u := by
  refine ⟨h'.depth_eq.trans h.depth_eq, fun d hd => ?_, fun d hd => ?_,
    h'.translate_eq.trans h.translate_eq⟩
  · have hd' : d < depth m' base u := by rwa [h.depth_eq]
    exact (h'.slot_eq d hd').trans (h.slot_eq d hd)
  · have hd' : d < depth m' base u := by rwa [h.depth_eq]
    exact (h'.entry_eq d hd').trans (h.entry_eq d hd)

/-- A walk depends on nothing but the entries that it reads. -/
theorem sameWalk_of_slots (h : ∀ d < depth m base u, ∀ i < 8,
    m' (slot m base u d+BitVec.ofNat 64 i) = m (slot m base u d+BitVec.ofNat 64 i)) :
    SameWalk base m m' u := by
  have htable (d : ℕ) (hd : d < depth m base u) :
      table m' base u.pgd u.vaddr d = table m base u.pgd u.vaddr d :=
    table_congr base u.pgd u.vaddr (depth m base u) h d (Nat.le_of_lt hd)
  have hentry (d : ℕ) (hd : d < depth m base u) : entryOf m' base u d = entryOf m base u d := by
    simp only [entryOf, entry, htable d hd]
    exact readWord_congr (h d hd)
  have hthree := three_le_depth m base u
  have h0 := hentry 0 (by omega)
  have h1 := hentry 1 (by omega)
  have h2 := hentry 2 (by omega)
  refine ⟨?_, fun d hd => ?_, hentry, ?_⟩
  · rw [depth, h2]
    rfl
  · simp only [slot, htable d hd]
  · simp only [translate, h0, h1, h2]
    by_cases hsize : pageSize (entryOf m base u 2) = true
    · simp only [hsize, if_true]
    · have hfour : depth m base u = 4 := if_neg hsize
      rw [hentry 3 (by omega)]

/-- A store by one process leaves all walks as they are. -/
theorem storeByte_spec (hspace : UserSpace base users m) (hu : u ∈ users) (b : BitVec 8) :
    ∃ addr, translate m base u = some addr ∧
      storeByte m base u b = some (Function.update m addr b) ∧
      ∀ v ∈ users, SameWalk base m (Function.update m addr b) v := by
  obtain ⟨addr, haddr⟩ := hspace.mapped u hu
  refine ⟨addr, haddr, ?_, fun v hv => ?_⟩
  · rw [storeByte, haddr, Option.map_some]
  apply sameWalk_of_slots
  intro d hd i hi
  exact Function.update_of_ne (hspace.apart u hu addr haddr v hv d hd i hi) _ _

theorem UserSpace.of_sameWalk (hspace : UserSpace base users m)
    (h : ∀ v ∈ users, SameWalk base m m' v) : UserSpace base users m' := by
  refine ⟨fun u hu => ?_, fun u hu addr haddr v hv d hd i hi => ?_⟩
  · rw [(h u hu).translate_eq]
    exact hspace.mapped u hu
  · rw [(h u hu).translate_eq] at haddr
    rw [(h v hv).depth_eq] at hd
    rw [(h v hv).slot_eq d hd]
    exact hspace.apart u hu addr haddr v hv d hd i hi

/-- What any run of stores leaves as it is. -/
theorem stores_spec (hspace : UserSpace base users m) {run : List Store}
    (hrun : ∀ s ∈ run, s.mapping ∈ users) :
    ∃ m', stores base run m = some m' ∧ (∀ v ∈ users, SameWalk base m m' v) ∧
      ∀ addr, (∀ s ∈ run, translate m base s.mapping ≠ some addr) → m' addr = m addr := by
  induction run generalizing m with
  | nil => exact ⟨m, rfl, fun v _ => SameWalk.refl m base v, fun _ _ => rfl⟩
  | cons s run ih =>
    obtain ⟨hs, hrun⟩ := List.forall_mem_cons.mp hrun
    obtain ⟨addr, haddr, hstore, hsame⟩ := storeByte_spec hspace hs s.byte
    obtain ⟨m', hm', hsame', hother⟩ := ih (hspace.of_sameWalk hsame) hrun
    refine ⟨m', ?_, fun v hv => (hsame v hv).trans (hsame' v hv), fun x hx => ?_⟩
    · rw [stores_cons, hstore]
      exact hm'
    · obtain ⟨hfirst, hrest⟩ := List.forall_mem_cons.mp hx
      have hlater := hother x (fun t ht => by
        rw [(hsame t.mapping (hrun t ht)).translate_eq]
        exact hrest t ht)
      have hne : x ≠ addr := by
        rintro rfl
        exact hfirst haddr
      rw [hlater, Function.update_of_ne hne]

/-- A byte holds what the last store to it has brought. -/
theorem stores_last (hspace : UserSpace base users m) {a b : List Store} {s : Store}
    (hrun : ∀ t ∈ a ++ s :: b, t.mapping ∈ users) {addr : Word}
    (haddr : translate m base s.mapping = some addr)
    (hlast : ∀ t ∈ b, translate m base t.mapping ≠ some addr) :
    ∃ m', stores base (a ++ s :: b) m = some m' ∧ m' addr = s.byte := by
  obtain ⟨ha, hsb⟩ := List.forall_mem_append.mp hrun
  obtain ⟨hs, hb⟩ := List.forall_mem_cons.mp hsb
  obtain ⟨m₁, hm₁, hsame₁, -⟩ := stores_spec hspace ha
  have hspace₁ := hspace.of_sameWalk hsame₁
  obtain ⟨addr', haddr', hstore, hsame₂⟩ := storeByte_spec hspace₁ hs s.byte
  have hsame : addr' = addr := by
    rw [(hsame₁ _ hs).translate_eq, haddr] at haddr'
    exact (Option.some.inj haddr').symm
  subst hsame
  obtain ⟨m₂, hm₂, -, hother⟩ := stores_spec (hspace₁.of_sameWalk hsame₂) hb
  refine ⟨m₂, ?_, ?_⟩
  · rw [stores_append, hm₁, Option.bind_eq_bind, Option.bind_some, stores_cons, hstore]
    exact hm₂
  · have hkept := hother addr' (fun t ht => by
      rw [(hsame₂ _ (hb t ht)).translate_eq, (hsame₁ _ (hb t ht)).translate_eq]
      exact hlast t ht)
    rw [hkept, Function.update_self]

end Walks

section Pages

variable {m : Memory} {base pgd p : Word} {i : ℕ}

theorem toNat_add_small (hp : p.toNat%4096 = 0) (hi : i < 4096) :
    (p+BitVec.ofNat 64 i).toNat = p.toNat+i := by
  have hlt := p.isLt
  rw [BitVec.toNat_add, BitVec.toNat_ofNat, Nat.mod_eq_of_lt (show i < 2^64 by omega)]
  apply Nat.mod_eq_of_lt
  omega

/-- All addresses of a page have its indices. -/
theorem index_add (hp : p.toNat%4096 = 0) (hi : i < 4096) {d : ℕ} (hd : d < 4) :
    index d (p+BitVec.ofNat 64 i) = index d p := by
  apply BitVec.eq_of_toNat_eq
  rw [toNat_index, toNat_index, toNat_add_small hp hi]
  have hpage : (p.toNat+i)/2^12 = p.toNat/2^12 := by omega
  have hsplit : 2^(39-9*d) = 2^12*2^(27-9*d) := by
    rw [← Nat.pow_add]
    congr 1
    omega
  rw [hsplit, ← Nat.div_div_eq_div_mul, ← Nat.div_div_eq_div_mul, hpage]

theorem table_add (hp : p.toNat%4096 = 0) (hi : i < 4096) {d : ℕ} (hd : d ≤ 4) :
    table m base pgd (p+BitVec.ofNat 64 i) d = table m base pgd p d := by
  induction d with
  | zero => rfl
  | succ d ih => rw [table, table, ih (by omega), index_add hp hi (by omega)]

theorem entryOf_add (hp : p.toNat%4096 = 0) (hi : i < 4096) {d : ℕ} (hd : d < 4) :
    entryOf m base ⟨pgd, p+BitVec.ofNat 64 i⟩ d = entryOf m base ⟨pgd, p⟩ d := by
  rw [entryOf, entryOf, entry, entry, table_add hp hi (by omega), index_add hp hi hd]

theorem offset_add (hp : p.toNat%4096 = 0) (hi : i < 4096) :
    offset (p+BitVec.ofNat 64 i) = offset p+BitVec.ofNat 64 i := by
  apply BitVec.eq_of_toNat_eq
  rw [toNat_offset, toNat_add_small hp hi, BitVec.toNat_add, toNat_offset, hp,
    BitVec.toNat_ofNat]
  omega

theorem offset2M_add (hp : p.toNat%4096 = 0) (hi : i < 4096) :
    offset2M (p+BitVec.ofNat 64 i) = offset2M p+BitVec.ofNat 64 i := by
  apply BitVec.eq_of_toNat_eq
  rw [toNat_offset2M, toNat_add_small hp hi, BitVec.toNat_add, toNat_offset2M,
    BitVec.toNat_ofNat]
  omega

theorem translate_add (hp : p.toNat%4096 = 0) (hi : i < 4096) :
    translate m base ⟨pgd, p+BitVec.ofNat 64 i⟩ =
      (translate m base ⟨pgd, p⟩).map (·+BitVec.ofNat 64 i) := by
  simp only [translate, entryOf_add hp hi (show 0 < 4 by decide),
    entryOf_add hp hi (show 1 < 4 by decide), entryOf_add hp hi (show 2 < 4 by decide),
    entryOf_add hp hi (show 3 < 4 by decide), offset_add hp hi, offset2M_add hp hi]
  split_ifs
  · simp only [Option.map_some, BitVec.add_assoc]
  · simp only [Option.map_some, BitVec.add_assoc]
  · rfl
  · rfl

theorem slot_add (hp : p.toNat%4096 = 0) (hi : i < 4096) {d : ℕ} (hd : d < 4) :
    slot m base ⟨pgd, p+BitVec.ofNat 64 i⟩ d = slot m base ⟨pgd, p⟩ d := by
  rw [slot, slot, table_add hp hi (by omega), index_add hp hi hd]

theorem loadWord_eq (hp : p.toNat%4096 = 0) {page : Word}
    (hpage : translate m base ⟨pgd, p⟩ = some page) :
    loadWord m base pgd p = some (readWord m page) := by
  have hbyte (i : ℕ) (hi : i < 8) : loadByte m base ⟨pgd, p+BitVec.ofNat 64 i⟩ =
      some (m (page+BitVec.ofNat 64 i)) := by
    rw [loadByte, translate_add hp (by omega), hpage]
    rfl
  have hzero : loadByte m base ⟨pgd, p⟩ = some (m page) := by
    rw [loadByte, hpage]
    rfl
  simp only [loadWord, hbyte 1 (by decide), hbyte 2 (by decide), hbyte 3 (by decide),
    hbyte 4 (by decide), hbyte 5 (by decide), hbyte 6 (by decide), hbyte 7 (by decide),
    BitVec.add_zero, hzero]
  rfl

theorem readWord_of_bytes {w a : Word}
    (h : ∀ i < 8, m (a+BitVec.ofNat 64 i) = w.extractLsb' (8*i) 8) : readWord m a = w := by
  have h0 : m a = w.extractLsb' 0 8 := by simpa using h 0 (by decide)
  have h1 : m (a+1) = w.extractLsb' 8 8 := h 1 (by decide)
  have h2 : m (a+2) = w.extractLsb' 16 8 := h 2 (by decide)
  have h3 : m (a+3) = w.extractLsb' 24 8 := h 3 (by decide)
  have h4 : m (a+4) = w.extractLsb' 32 8 := h 4 (by decide)
  have h5 : m (a+5) = w.extractLsb' 40 8 := h 5 (by decide)
  have h6 : m (a+6) = w.extractLsb' 48 8 := h 6 (by decide)
  have h7 : m (a+7) = w.extractLsb' 56 8 := h 7 (by decide)
  have hjoin {low width : ℕ} (x y : ℕ) (hx : x = y+low) :
      w.extractLsb' x width ++ w.extractLsb' y low = w.extractLsb' y (width+low) :=
    BitVec.extractLsb'_append_extractLsb'_eq_extractLsb' hx
  rw [readWord, h0, h1, h2, h3, h4, h5, h6, h7, hjoin 56 48 rfl, hjoin 48 40 rfl, hjoin 40 32 rfl,
    hjoin 32 24 rfl, hjoin 24 16 rfl, hjoin 16 8 rfl, hjoin 8 0 rfl]
  exact BitVec.extractLsb'_eq_self

end Pages

section Experiment

variable {k : Kernel} {users : Set Mapping} {pid pgd p : Word} {task : Task}

/-- The start of a page of the size that is mapped, at a frame of that size. -/
def AtStart (m : Memory) (base pgd p : Word) : Prop :=
  p.toNat%4096 = 0 ∧
    (pageSize (entryOf m base ⟨pgd, p⟩ 2) = true →
      p.toNat%2^21 = 0 ∧ (entryOf m base ⟨pgd, p⟩ 2).extractLsb' 12 9 = 0)

theorem translate_huge {m : Memory} {base : Word} {u : Mapping}
    (hsize : pageSize (entryOf m base u 2) = true) {page : Word}
    (hpage : translate m base u = some page) :
    page = base+frame2M (entryOf m base u 2)+offset2M u.vaddr := by
  unfold translate at hpage
  rw [if_pos hsize] at hpage
  split at hpage
  · exact (Option.some.inj hpage).symm
  · cases hpage

theorem translate_small {m : Memory} {base : Word} {u : Mapping}
    (hsize : ¬ pageSize (entryOf m base u 2) = true) {page : Word}
    (hpage : translate m base u = some page) :
    page = base+frame (entryOf m base u 3)+offset u.vaddr := by
  unfold translate at hpage
  rw [if_neg hsize] at hpage
  split at hpage
  · split at hpage
    · exact (Option.some.inj hpage).symm
    · cases hpage
  · cases hpage

/-- The walk through the direct map prints the word that the processor finds. -/
theorem content_translate (ht : k.getPidTask pid = some task) (hm : task.mm = some pgd)
    (hstart : AtStart k.memory k.pageOffsetBase pgd p) {page : Word}
    (hpage : translate k.memory k.pageOffsetBase ⟨pgd, p⟩ = some page) :
    printed "content" (trace k p pid).2 = some (readWord k.memory page) := by
  have hzero : offset p = 0 := offset_eq_zero hstart.1
  by_cases hsize : pageSize (entryOf k.memory k.pageOffsetBase ⟨pgd, p⟩ 2) = true
  · obtain ⟨halign, hclear⟩ := hstart.2 hsize
    have hframe := (frame_eq_frame2M_iff _).mpr hclear
    have hzero2M : offset2M p = 0 := by
      apply BitVec.eq_of_toNat_eq
      rw [toNat_offset2M, halign]
      rfl
    have haddr : page = k.pageOffsetBase+frame (entryOf k.memory k.pageOffsetBase ⟨pgd, p⟩ 2) := by
      rw [translate_huge hsize hpage, hzero2M, ← hframe]
      exact BitVec.add_zero _
    have hcontent : printed "content" (trace k p pid).2 = some (readWord k.memory
        (table k.memory k.pageOffsetBase pgd p 3+8*offset p)) := by
      rw [trace_huge k p pgd ht hm hsize]
      rfl
    rw [hcontent, hzero, haddr]
    exact congrArg (fun a => some (readWord k.memory a)) (BitVec.add_zero _)
  · have haddr : page = table k.memory k.pageOffsetBase pgd p 4 := by
      rw [translate_small hsize hpage, hzero]
      exact BitVec.add_zero _
    rw [content_small k p pgd ht hm (Bool.not_eq_true _ ▸ hsize), hzero, haddr]
    exact congrArg (fun a => some (readWord k.memory a)) (BitVec.add_zero _)

end Experiment

section Words

variable {m : Memory} {base pgd p page : Word} {users : Set Mapping}

theorem wordStores_split (pgd p value : Word) {i : ℕ} (hi : i < 8) :
    ∃ pre post, wordStores pgd p value = pre ++ ⟨⟨pgd, p+BitVec.ofNat 64 i⟩,
        value.extractLsb' (8*i) 8⟩ :: post ∧
      ∀ t ∈ post, ∃ j < 8, i < j ∧ t.mapping = ⟨pgd, p+BitVec.ofNat 64 j⟩ := by
  obtain ⟨pre, post, hsplit⟩ := List.append_of_mem (List.mem_range.mpr hi)
  have hlt : ∀ j ∈ post, i < j := by
    have hpairs := List.pairwise_lt_range (n := 8)
    rw [hsplit, List.pairwise_append] at hpairs
    exact (List.pairwise_cons.mp hpairs.2.1).1
  refine ⟨_, _, by rw [wordStores, hsplit, List.map_append, List.map_cons], ?_⟩
  intro t ht
  obtain ⟨j, hj, rfl⟩ := List.mem_map.mp ht
  have hmem : j ∈ List.range 8 := by
    rw [hsplit]
    exact List.mem_append_right _ (List.mem_cons_of_mem _ hj)
  exact ⟨j, List.mem_range.mp hmem, hlt j hj, rfl⟩

/-- A word stays until one of its bytes is stored to again. -/
theorem readWord_stores (hspace : UserSpace base users m) (hp : p.toNat%4096 = 0)
    (hpage : translate m base ⟨pgd, p⟩ = some page) (value : Word) (before after : List Store)
    (hrun : ∀ t ∈ before ++ wordStores pgd p value ++ after, t.mapping ∈ users)
    (hother : ∀ t ∈ after, ∀ i < 8, translate m base t.mapping ≠ some (page+BitVec.ofNat 64 i))
    {m' : Memory} (hm' : stores base (before ++ wordStores pgd p value ++ after) m = some m') :
    readWord m' page = value := by
  apply readWord_of_bytes
  intro i hi
  obtain ⟨pre, post, hsplit, hpost⟩ := wordStores_split pgd p value hi
  have hwhole : before ++ wordStores pgd p value ++ after =
      (before ++ pre) ++ ⟨⟨pgd, p+BitVec.ofNat 64 i⟩, value.extractLsb' (8*i) 8⟩ ::
        (post ++ after) := by
    rw [hsplit]
    simp only [List.append_assoc, List.cons_append]
  have haddr (j : ℕ) (hj : j < 8) :
      translate m base ⟨pgd, p+BitVec.ofNat 64 j⟩ = some (page+BitVec.ofNat 64 j) := by
    rw [translate_add hp (by omega), hpage, Option.map_some]
  have hlast : ∀ t ∈ post ++ after,
      translate m base t.mapping ≠ some (page+BitVec.ofNat 64 i) := by
    intro t ht
    rcases List.mem_append.mp ht with ht | ht
    · -- a later byte of the word
      obtain ⟨j, hj, hlt, hmapping⟩ := hpost t ht
      rw [hmapping, haddr j hj]
      intro heq
      have hsame := congrArg BitVec.toNat ((BitVec.add_right_inj _).mp (Option.some.inj heq))
      rw [BitVec.toNat_ofNat, BitVec.toNat_ofNat] at hsame
      omega
    · exact hother t ht i hi
  rw [hwhole] at hrun hm'
  obtain ⟨m'', hm'', hbyte⟩ := stores_last hspace hrun (haddr i hi) hlast
  obtain rfl := Option.some.inj (hm'.symm.trans hm'')
  exact hbyte

end Words

section Programs

variable {users : Set Mapping} {pgd p : Word}

theorem atStart_of_sameWalk {m m' : Memory} {base : Word} (h : AtStart m base pgd p)
    (hsame : SameWalk base m m' ⟨pgd, p⟩) : AtStart m' base pgd p := by
  have hthree := three_le_depth m base ⟨pgd, p⟩
  rwa [AtStart, hsame.entry_eq 2 (by omega)]

theorem wordStores_users (value : Word) (hp : ∀ i < 8, ⟨pgd, p+BitVec.ofNat 64 i⟩ ∈ users) :
    ∀ s ∈ wordStores pgd p value, s.mapping ∈ users := by
  intro s hs
  obtain ⟨i, hi, rfl⟩ := List.mem_map.mp hs
  exact hp i (List.mem_range.mp hi)

/-- Whatever has been stored before, a program prints the word that it has just stored. -/
theorem userpage_spec {m : Memory} {base page : Word} (pid : Word) (hspace : UserSpace base users m)
    (hp : p.toNat%4096 = 0) (hpage : translate m base ⟨pgd, p⟩ = some page)
    (husers : ∀ i < 8, ⟨pgd, p+BitVec.ofNat 64 i⟩ ∈ users) {before : List Store}
    (hbefore : ∀ s ∈ before, s.mapping ∈ users) :
    ∃ m', stores base (before ++ wordStores pgd p 0xbeafbeafbeafbeaf) m = some m' ∧
      (stores base before m >>= userpage base pgd pid p) =
        some (m', ⟨pid, p, 0xbeafbeafbeafbeaf⟩) ∧
      ∀ v ∈ users, SameWalk base m m' v := by
  have hrun := List.forall_mem_append.mpr
    ⟨hbefore, wordStores_users 0xbeafbeafbeafbeaf husers⟩
  obtain ⟨m', hm', hsame, -⟩ := stores_spec hspace hrun
  have huser : ⟨pgd, p⟩ ∈ users := by simpa using husers 0 (by decide)
  have hpage' : translate m' base ⟨pgd, p⟩ = some page := by
    rw [(hsame _ huser).translate_eq, hpage]
  have hnone : ∀ s ∈ ([] : List Store), s.mapping ∈ users := List.forall_mem_nil _
  have hvalue : readWord m' page = 0xbeafbeafbeafbeaf := by
    apply readWord_stores hspace hp hpage _ before []
    · exact List.forall_mem_append.mpr ⟨hrun, hnone⟩
    · exact List.forall_mem_nil _
    · rw [List.append_nil]
      exact hm'
  have hload : loadWord m' base pgd p = some 0xbeafbeafbeafbeaf := by
    rw [loadWord_eq hp hpage', hvalue]
  refine ⟨m', hm', ?_, hsame⟩
  rw [stores_append] at hm'
  obtain ⟨mb, hmb, hmw⟩ := Option.bind_eq_some_iff.mp hm'
  rw [hmb, Option.bind_eq_bind, Option.bind_some, userpage, hmw, Option.bind_eq_bind,
    Option.bind_some, hload]
  rfl

end Programs

/-- The experiment with both programs, with a page mapped at its start, and whatever processes store
before and after to what is mapped for them: a program prints the word that it has stored, and the
module, loaded with the numbers that it has printed, prints the word that it would find now: still
the same, unless a process has stored to it. -/
theorem experiment (k : Kernel) (users : Set Mapping)
    (hspace : UserSpace k.pageOffsetBase users k.memory) (pid pgd p : Word) (task : Task)
    (ht : k.getPidTask pid = some task) (hm : task.mm = some pgd)
    (hstart : AtStart k.memory k.pageOffsetBase pgd p)
    (hp : ∀ i < 8, ⟨pgd, p+BitVec.ofNat 64 i⟩ ∈ users) (before after : List Store)
    (hbefore : ∀ s ∈ before, s.mapping ∈ users) (hafter : ∀ s ∈ after, s.mapping ∈ users) :
    ∃ m₁ m₂ debug content,
      (stores k.pageOffsetBase before k.memory >>= userpage k.pageOffsetBase pgd pid p) =
        some (m₁, debug) ∧ debug.content = 0xbeafbeafbeafbeaf ∧
      stores k.pageOffsetBase after m₁ = some m₂ ∧
      printed "content" (trace { k with memory := m₂ } debug.userAddr debug.pid).2 =
        some content ∧
      loadWord m₂ k.pageOffsetBase pgd p = some content ∧
      ((∀ s ∈ after, ∀ i < 8, translate k.memory k.pageOffsetBase s.mapping ≠
          translate k.memory k.pageOffsetBase ⟨pgd, p+BitVec.ofNat 64 i⟩) →
        content = 0xbeafbeafbeafbeaf) := by
  have huser : ⟨pgd, p⟩ ∈ users := by simpa using hp 0 (by decide)
  obtain ⟨page, hpage⟩ := hspace.mapped _ huser
  -- the program itself, and what comes after it
  obtain ⟨m₁, hm₁, hmain, hsame₁⟩ := userpage_spec pid hspace hstart.1 hpage hp hbefore
  obtain ⟨m₂, hm₂, hsame₂, -⟩ := stores_spec (hspace.of_sameWalk hsame₁) hafter
  have hsame := (hsame₁ _ huser).trans (hsame₂ _ huser)
  have hpage₂ : translate m₂ k.pageOffsetBase ⟨pgd, p⟩ = some page := by
    rw [hsame.translate_eq, hpage]
  have hstart₂ : AtStart m₂ k.pageOffsetBase pgd p := atStart_of_sameWalk hstart hsame
  have hcontent : printed "content" (trace { k with memory := m₂ } p pid).2 =
      some (readWord m₂ page) :=
    content_translate (k := { k with memory := m₂ }) ht hm hstart₂ hpage₂
  refine ⟨m₁, m₂, _, readWord m₂ page, hmain, rfl, hm₂, hcontent, loadWord_eq hstart.1 hpage₂, ?_⟩
  intro hother
  apply readWord_stores hspace hstart.1 hpage _ before after
  · exact List.forall_mem_append.mpr
      ⟨List.forall_mem_append.mpr ⟨hbefore, wordStores_users _ hp⟩, hafter⟩
  · intro s hs i hi
    have hne := hother s hs i hi
    rwa [translate_add hstart.1 (by omega), hpage] at hne
  · rw [stores_append, hm₁]
    exact hm₂

/-- The addresses of one page. -/
def pageUsers (pgd p : Word) : Set Mapping := {u | ∃ i < 4096, u = ⟨pgd, p+BitVec.ofNat 64 i⟩}

theorem depth_add {m : Memory} {base pgd p : Word} (hp : p.toNat%4096 = 0) {i : ℕ}
    (hi : i < 4096) : depth m base ⟨pgd, p+BitVec.ofNat 64 i⟩ = depth m base ⟨pgd, p⟩ := by
  rw [depth, depth, entryOf_add hp hi (by decide)]

/-- A process with one page, behind the entries that lead to it. -/
theorem pageUsers_space {m : Memory} {base pgd p page : Word} (hp : p.toNat%4096 = 0)
    (hpage : translate m base ⟨pgd, p⟩ = some page) (hend : page.toNat+4096 ≤ 2^64)
    (hbelow : ∀ d < depth m base ⟨pgd, p⟩, (slot m base ⟨pgd, p⟩ d).toNat+8 ≤ page.toNat) :
    UserSpace base (pageUsers pgd p) m := by
  have haddr (i : ℕ) (hi : i < 4096) : translate m base ⟨pgd, p+BitVec.ofNat 64 i⟩ =
      some (page+BitVec.ofNat 64 i) := by
    rw [translate_add hp hi, hpage]
    rfl
  refine ⟨?_, ?_⟩
  · rintro u ⟨i, hi, rfl⟩
    exact ⟨_, haddr i hi⟩
  · rintro u ⟨i, hi, rfl⟩ addr hu v ⟨j, hj, rfl⟩ d hd b hb
    rw [haddr i hi] at hu
    obtain rfl := Option.some.inj hu
    rw [depth_add hp hj] at hd
    have hd4 : d < 4 := Nat.lt_of_lt_of_le hd (depth_le_four _ _ _)
    rw [slot_add hp hj hd4]
    exact byte_ne_of_le (hbelow d hd) hend hb hi

/-- The tables of before, but the third maps a page of 2M. -/
def hugeStepMemory : Memory := fun a =>
  if a >>> 12 = 3 then
    if a &&& 7 = 0 then 0x81 else if a &&& 7 = 2 then 0x20 else 0
  else stepMemory a

/-- Other bytes of the page are stored to before and after the program runs. -/
def StepRun (memory : Memory) : Prop := ∃ m₁ m₂ debug content,
  (stores 0 [⟨⟨0x1000, 0x7f04abe00008⟩, 7⟩] memory >>=
    userpage 0 0x1000 6799 0x7f04abe00000) = some (m₁, debug) ∧
  stores 0 [⟨⟨0x1000, 0x7f04abe00009⟩, 9⟩] m₁ = some m₂ ∧
  printed "content" (trace { stepKernel with memory := m₂ } debug.userAddr debug.pid).2 =
    some content ∧
  content = 0xbeafbeafbeafbeaf

theorem experiment_step : StepRun stepMemory ∧ StepRun hugeStepMemory := by
  have hp : (0x7f04abe00000 : Word).toNat%4096 = 0 := by decide
  have hrun {memory : Memory} {page : Word}
      (hpage : translate memory 0 ⟨0x1000, 0x7f04abe00000⟩ = some page)
      (hend : page.toNat+4096 ≤ 2^64)
      (hbelow : ∀ d < depth memory 0 ⟨0x1000, 0x7f04abe00000⟩,
        (slot memory 0 ⟨0x1000, 0x7f04abe00000⟩ d).toNat+8 ≤ page.toNat)
      (hstart : AtStart memory 0 0x1000 0x7f04abe00000) : StepRun memory := by
    have huser (i : ℕ) (hi : i < 4096) :
        ⟨0x1000, 0x7f04abe00000+BitVec.ofNat 64 i⟩ ∈ pageUsers 0x1000 0x7f04abe00000 := ⟨i, hi, rfl⟩
    obtain ⟨m₁, m₂, debug, content, hmain, -, hafter, hcontent, -, hsame⟩ :=
      experiment { stepKernel with memory } _ (pageUsers_space hp hpage hend hbelow) 6799 0x1000
        0x7f04abe00000 _ rfl rfl hstart (fun i hi => huser i (by omega))
        [⟨⟨0x1000, 0x7f04abe00008⟩, 7⟩] [⟨⟨0x1000, 0x7f04abe00009⟩, 9⟩]
        (List.forall_mem_singleton.mpr (huser 8 (by decide)))
        (List.forall_mem_singleton.mpr (huser 9 (by decide)))
    refine ⟨m₁, m₂, debug, content, hmain, hafter, hcontent, hsame ?_⟩
    -- the tenth byte is none of the word
    intro s hs i hi heq
    obtain rfl := List.mem_singleton.mp hs
    have hten : translate memory 0 ⟨0x1000, 0x7f04abe00009⟩ = some (page+BitVec.ofNat 64 9) := by
      have hadd : translate memory 0 ⟨0x1000, 0x7f04abe00000+BitVec.ofNat 64 9⟩ = _ :=
        translate_add hp (by decide)
      rwa [hpage] at hadd
    have hword : translate memory 0 ⟨0x1000, 0x7f04abe00000+BitVec.ofNat 64 i⟩ =
        some (page+BitVec.ofNat 64 i) := by
      rw [translate_add hp (by omega), hpage]
      rfl
    have hbytes : some (page+BitVec.ofNat 64 9) = some (page+BitVec.ofNat 64 i) :=
      hten.symm.trans (heq.trans hword)
    have hsame := congrArg BitVec.toNat ((BitVec.add_right_inj _).mp (Option.some.inj hbytes))
    rw [BitVec.toNat_ofNat, BitVec.toNat_ofNat] at hsame
    omega
  constructor
  · have hpage : translate stepMemory 0 ⟨0x1000, 0x7f04abe00000⟩ = some 0x5000 := by
      decide +kernel
    exact hrun hpage (by decide) (by decide +kernel) ⟨by decide, by decide +kernel⟩
  · have hpage : translate hugeStepMemory 0 ⟨0x1000, 0x7f04abe00000⟩ = some 0x200000 := by
      decide +kernel
    exact hrun hpage (by decide) (by decide +kernel) ⟨by decide, by decide +kernel⟩

end YuToolbox.UserPage
