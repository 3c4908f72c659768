import Mathlib.Logic.Function.Basic
import Mathlib.Tactic.Ring
import YuToolbox.TransitionRuns

/-! The module `lpm.c`: the function that stands in for `cmdline_proc_show`, with its pointer in
a variable that every call of it uses. Any number of calls go on at once, one statement of one
call after the other. -/
namespace YuToolbox.LivePatch

open TransitionRuns

/-- The memory that `kmalloc` gives to each call, and where the kernel puts the data of a shadow
variable that the call attaches. -/
structure Kernel (n : ℕ) where
  kmalloc : Fin n → ℕ
  kmalloc_inj : Function.Injective kmalloc
  shadowData : Fin n → ℕ

/-- The statement that comes next. -/
inductive Pc where
  | kmalloc
  | eptr
  | tmp
  | seqPrintf
  | prPtr
  | klpShadowAlloc
  | prShadow
  | scan
  | klpShadowFree
  | kfree
  | prEnd
  | ret
  | returned
  deriving DecidableEq

inductive Message where
  | patched
  | kmallocPtr (ptr : ℕ)
  | shadownPtr (shadow : ℕ)
  | newline

/-- The two variables of the module, and the kernel's side: the objects that have a shadow
variable 0xccccc, the addresses `kfree` was given, and what was printed. -/
structure Shared where
  ptr : ℕ
  shadow : ℕ
  attached : List ℕ
  freed : List ℕ
  printed : List Message

/-- The locals of a call, and the addresses it has passed to `klp_shadow_free` and `kfree`. -/
structure Call where
  pc : Pc
  eptr : ℕ
  tmp : ℕ
  shadowFreed : Option ℕ
  kfreed : Option ℕ

def sizeofLong : ℕ := 8

/-- NULL where the object has this shadow variable already. -/
def klpShadowAlloc (obj data : ℕ) (g : Shared) : Shared :=
  if obj ∈ g.attached then { g with shadow := 0 }
  else { g with shadow := data, attached := obj :: g.attached }

/-- One statement of `livepatch_cmdline_proc_show`, for a call with this memory. -/
def stmt (addr data : ℕ) (g : Shared) (c : Call) : Option (Shared × Call) :=
  match c.pc with
  | .kmalloc => some ({ g with ptr := addr }, { c with pc := .eptr })
  | .eptr => some (g, { c with eptr := g.ptr + 40*sizeofLong, pc := .tmp })
  | .tmp => some (g, { c with tmp := 0, pc := .seqPrintf })
  | .seqPrintf => some ({ g with printed := g.printed ++ [.patched] }, { c with pc := .prPtr })
  | .prPtr =>
    some ({ g with printed := g.printed ++ [.kmallocPtr g.ptr] }, { c with pc := .klpShadowAlloc })
  | .klpShadowAlloc => some (klpShadowAlloc g.ptr data g, { c with pc := .prShadow })
  | .prShadow =>
    some ({ g with printed := g.printed ++ [.shadownPtr g.shadow] }, { c with pc := .scan })
  -- `while ((tmp = ptr++) < eptr)`: the pointer goes on also when the loop ends
  | .scan =>
    some ({ g with ptr := g.ptr + sizeofLong },
      { c with tmp := g.ptr, pc := if g.ptr < c.eptr then .scan else .klpShadowFree })
  | .klpShadowFree =>
    some ({ g with attached := g.attached.erase g.ptr },
      { c with shadowFreed := some g.ptr, pc := .kfree })
  | .kfree =>
    some ({ g with freed := g.freed ++ [g.ptr] }, { c with kfreed := some g.ptr, pc := .prEnd })
  | .prEnd => some ({ g with printed := g.printed ++ [.newline] }, { c with pc := .ret })
  | .ret => some (g, { c with pc := .returned })
  | .returned => none

structure State (n : ℕ) where
  shared : Shared
  call : Fin n → Call

variable {n : ℕ}

/-- The next statement of one of the calls. -/
def step (k : Kernel n) (s : State n) (i : Fin n) : Option (State n) :=
  (stmt (k.kmalloc i) (k.shadowData i) s.shared (s.call i)).map
    (fun gc => ⟨gc.1, Function.update s.call i gc.2⟩)

def start (n : ℕ) : State n where
  shared := ⟨0, 0, [], [], []⟩
  call := fun _ => ⟨.kmalloc, 0, 0, none, none⟩

def Finished (s : State n) : Prop := ∀ i, (s.call i).pc = .returned

/-- Every call has given back what it was given, and nothing else. -/
structure Paired (k : Kernel n) (s : State n) : Prop where
  shadowFreed : ∀ i, (s.call i).shadowFreed = some (k.kmalloc i)
  kfreed : ∀ i, (s.call i).kfreed = some (k.kmalloc i)
  freedOnce : ∀ i, s.shared.freed.count (k.kmalloc i) = 1
  detached : s.shared.attached = []

/-- The pointer is at or behind the memory of a call, and goes past it in the call's loop; so what
the call gives back is something else. -/
def Astray (addr ptr : ℕ) (c : Call) : Prop :=
  match c.pc with
  | .kmalloc => False
  | .eptr | .tmp | .seqPrintf | .prPtr | .klpShadowAlloc | .prShadow | .scan => addr ≤ ptr
  | .klpShadowFree => addr < ptr
  | .kfree | .prEnd | .ret | .returned => c.shadowFreed ≠ some addr

theorem Astray.mono {addr ptr ptr' : ℕ} {c : Call} (h : Astray addr ptr c) (hle : ptr ≤ ptr') :
    Astray addr ptr' c := by
  unfold Astray at h ⊢
  cases hpc : c.pc <;> simp only [hpc] at h ⊢ <;> first | exact h | omega

theorem klpShadowAlloc_ptr (obj data : ℕ) (g : Shared) :
    (klpShadowAlloc obj data g).ptr = g.ptr := by
  unfold klpShadowAlloc
  split <;> rfl

/-- What one statement does to the pointer, and to the call it belongs to. -/
theorem stmt_cases {addr data : ℕ} {g g' : Shared} {c c' : Call}
    (h : stmt addr data g c = some (g', c')) :
    (c.pc = .kmalloc ∧ g'.ptr = addr ∧ c'.pc = .eptr) ∨
      (c.pc ≠ .kmalloc ∧ g.ptr ≤ g'.ptr ∧ (Astray addr g.ptr c → Astray addr g'.ptr c')) := by
  unfold stmt at h
  cases hpc : c.pc <;> simp only [hpc, Option.some.injEq, Prod.mk.injEq, reduceCtorEq] at h <;>
    obtain ⟨rfl, rfl⟩ := h
  case kmalloc => exact Or.inl ⟨rfl, rfl, rfl⟩
  all_goals right
  -- the loop moves the pointer on, also by the test that ends it
  case scan =>
    refine ⟨nofun, Nat.le_add_right _ _, ?_⟩
    intro ha
    simp only [Astray, hpc] at ha
    by_cases hlt : g.ptr < c.eptr
    · simp only [Astray, if_pos hlt]
      omega
    · simp only [Astray, if_neg hlt, sizeofLong]
      omega
  -- a pointer past the address is not the address
  case klpShadowFree =>
    refine ⟨nofun, Nat.le_refl _, ?_⟩
    intro ha
    simp only [Astray, hpc] at ha
    simp only [Astray, ne_eq, Option.some.injEq]
    omega
  case klpShadowAlloc =>
    rw [klpShadowAlloc_ptr]
    refine ⟨nofun, Nat.le_refl _, ?_⟩
    intro ha
    simpa only [Astray, hpc] using ha
  -- the other statements leave it where it is
  all_goals
    refine ⟨nofun, Nat.le_refl _, ?_⟩
    intro ha
    simpa only [Astray, hpc] using ha

/-- As soon as a call has begun, there is one that will not give back its own memory. -/
def Doomed (k : Kernel n) (s : State n) : Prop :=
  (∀ i, (s.call i).pc = .kmalloc) ∨ ∃ z, Astray (k.kmalloc z) s.shared.ptr (s.call z)

theorem step_doomed {k : Kernel n} {s t : State n} {i : Fin n} (h : step k s i = some t)
    (hs : Doomed k s) : Doomed k t := by
  obtain ⟨⟨g', c'⟩, hstmt, rfl⟩ := Option.map_eq_some_iff.mp h
  right
  rcases stmt_cases hstmt with ⟨-, hptr, hpc⟩ | ⟨hpc, hle, hastray⟩
  · -- whoever has just been given memory is the next one
    refine ⟨i, ?_⟩
    simp only [Function.update_self, Astray, hpc]
    exact Nat.le_of_eq hptr.symm
  · rcases hs with hstart | ⟨z, hz⟩
    · exact absurd (hstart i) hpc
    · -- by its own statement, or because the pointer has not come down
      refine ⟨z, ?_⟩
      by_cases hzi : z = i
      · subst hzi
        simpa only [Function.update_self] using hastray hz
      · simpa only [Function.update_of_ne hzi] using hz.mono hle

theorem doomed_of_run {k : Kernel n} {calls : List (Fin n)} {s : State n}
    (hrun : exec (step k) (start n) calls = some s) : Doomed k s := by
  apply exec_invariant _ hrun
  · exact Or.inl (fun _ => rfl)
  · intro i _ s t hs hst
    exact step_doomed hst hs

/-- However the calls are interleaved, one of them gives back what is not its own. -/
theorem exists_wrong_of_finished {k : Kernel n} {calls : List (Fin n)} {s : State n}
    (hrun : exec (step k) (start n) calls = some s) (hs : Finished s) (i : Fin n) :
    ∃ z, (s.call z).shadowFreed ≠ some (k.kmalloc z) := by
  rcases doomed_of_run hrun with hstart | ⟨z, hz⟩
  · -- call `i` is not at its start any more
    have hi := hstart i
    rw [hs i] at hi
    cases hi
  · refine ⟨z, ?_⟩
    simpa only [Astray, hs z] using hz

section Alone

/-- A call by itself. -/
def alone (addr data : ℕ) (gc : Shared × Call) (_ : Unit) : Option (Shared × Call) :=
  stmt addr data gc.1 gc.2

/-- What a call does by itself it does in the system, when it is the only one to take steps. -/
theorem exec_of_alone {k : Kernel n} {i : Fin n} {m : ℕ} {s : State n} {g : Shared} {c : Call}
    (h : exec (alone (k.kmalloc i) (k.shadowData i)) (s.shared, s.call i)
      (List.replicate m ()) = some (g, c)) :
    exec (step k) s (List.replicate m i) = some ⟨g, Function.update s.call i c⟩ := by
  induction m generalizing s with
  | zero =>
    obtain ⟨rfl, rfl⟩ := Prod.mk.inj (Option.some.inj h)
    rw [Function.update_eq_self]
    rfl
  | succ m ih =>
    obtain ⟨⟨g₁, c₁⟩, hstmt, hrest⟩ := exec_cons_inv h
    have hstep : step k s i = some ⟨g₁, Function.update s.call i c₁⟩ :=
      congrArg (Option.map _) hstmt
    have hupd : Function.update s.call i c =
        Function.update (Function.update s.call i c₁) i c := (Function.update_idem _ _ _).symm
    rw [hupd]
    apply exec_cons hstep (ih _)
    simpa only [Function.update_self] using hrest

/-- The loop ends one word behind `eptr`, wherever the pointer is at its start. -/
theorem scan_alone (addr data m : ℕ) (g : Shared) (eptr tmp : ℕ) (sf kf : Option ℕ)
    (heptr : eptr = g.ptr + m*sizeofLong) :
    exec (alone addr data) (g, ⟨.scan, eptr, tmp, sf, kf⟩) (List.replicate (m+1) ()) =
      some ({ g with ptr := g.ptr + (m+1)*sizeofLong }, ⟨.klpShadowFree, eptr, eptr, sf, kf⟩) := by
  induction m generalizing g tmp with
  | zero =>
    obtain rfl : eptr = g.ptr := by omega
    have hstmt : alone addr data (g, ⟨.scan, g.ptr, tmp, sf, kf⟩) () =
        some ({ g with ptr := g.ptr + sizeofLong }, ⟨.klpShadowFree, g.ptr, g.ptr, sf, kf⟩) := by
      simp only [alone, stmt, if_neg (Nat.lt_irrefl _)]
    rw [Nat.zero_add, Nat.one_mul]
    exact exec_cons hstmt rfl
  | succ m ih =>
    have hlt : g.ptr < eptr := by
      rw [heptr, sizeofLong]
      omega
    have hstmt : alone addr data (g, ⟨.scan, eptr, tmp, sf, kf⟩) () =
        some ({ g with ptr := g.ptr + sizeofLong }, ⟨.scan, eptr, g.ptr, sf, kf⟩) := by
      simp only [alone, stmt, if_pos hlt]
    have hrest := ih { g with ptr := g.ptr + sizeofLong } g.ptr (by
      rw [heptr]
      dsimp only
      ring)
    have hptr : g.ptr + (m+1+1)*sizeofLong = g.ptr + sizeofLong + (m+1)*sizeofLong := by ring
    rw [hptr]
    exact exec_cons hstmt hrest

/-- A call by itself gives back what stands 41 words behind its memory. -/
theorem call_alone (addr data : ℕ) (g : Shared) (eptr tmp : ℕ) (sf kf : Option ℕ) :
    ∃ g', exec (alone addr data) (g, ⟨.kmalloc, eptr, tmp, sf, kf⟩) (List.replicate 52 ()) =
      some (g', ⟨.returned, addr + 40*sizeofLong, addr + 40*sizeofLong,
        some (addr + 41*sizeofLong), some (addr + 41*sizeofLong)⟩) := by
  -- seven statements, 41 tests of the loop, and four more statements
  obtain ⟨g₁, hg₁, hptr⟩ : ∃ g₁, exec (alone addr data) (g, ⟨.kmalloc, eptr, tmp, sf, kf⟩)
      (List.replicate 7 ()) = some (g₁, ⟨.scan, addr + 40*sizeofLong, 0, sf, kf⟩) ∧
      g₁.ptr = addr := ⟨_, rfl, klpShadowAlloc_ptr _ _ _⟩
  have hscan := scan_alone addr data 40 g₁ (addr + 40*sizeofLong) 0 sf kf (by rw [hptr])
  have hlast : ∃ g', exec (alone addr data) ({ g₁ with ptr := g₁.ptr + (40+1)*sizeofLong },
      ⟨.klpShadowFree, addr + 40*sizeofLong, addr + 40*sizeofLong, sf, kf⟩)
      (List.replicate 4 ()) = some (g', ⟨.returned, addr + 40*sizeofLong, addr + 40*sizeofLong,
        some (addr + 41*sizeofLong), some (addr + 41*sizeofLong)⟩) := by
    rw [hptr]
    exact ⟨_, rfl⟩
  obtain ⟨g', hg'⟩ := hlast
  exact ⟨g', exec_append hg₁ (exec_append hscan hg')⟩

/-- So it is with each of several calls that are made one after the other. -/
theorem call_in_turn (k : Kernel n) (s : State n) (i : Fin n) (hpc : (s.call i).pc = .kmalloc) :
    ∃ t, exec (step k) s (List.replicate 52 i) = some t ∧ (t.call i).pc = .returned ∧
      (t.call i).shadowFreed = some (k.kmalloc i + 41*sizeofLong) ∧
      (t.call i).kfreed = some (k.kmalloc i + 41*sizeofLong) ∧ ∀ j ≠ i, t.call j = s.call j := by
  obtain ⟨g', hg'⟩ := call_alone (k.kmalloc i) (k.shadowData i) s.shared (s.call i).eptr
    (s.call i).tmp (s.call i).shadowFreed (s.call i).kfreed
  rw [← hpc] at hg'
  refine ⟨_, exec_of_alone hg', ?_⟩
  simp only [Function.update_self, true_and]
  intro j hj
  exact Function.update_of_ne hj _ _

theorem one_call (k : Kernel 1) :
    ∃ s, exec (step k) (start 1) (List.replicate 52 0) = some s ∧ Finished s ∧ ¬ Paired k s := by
  obtain ⟨s, hrun, hpc, hfreed, -⟩ := call_in_turn k (start 1) 0 rfl
  refine ⟨s, hrun, ?_, ?_⟩
  · intro i
    rw [Subsingleton.elim i 0]
    exact hpc
  · intro h
    have heq := (h.shadowFreed 0).symm.trans hfreed
    simp only [Option.some.injEq, sizeofLong] at heq
    omega

end Alone

/-- One call is enough: nothing else runs, and it does not give back its memory. -/
theorem not_paired_one : ¬ ∀ (n : ℕ) (k : Kernel n) (calls : List (Fin n)) (s : State n),
    exec (step k) (start n) calls = some s → Finished s → Paired k s := by
  intro h
  obtain ⟨s, hrun, hs, hnot⟩ :=
    one_call ⟨fun _ => 4096, fun i j _ => Subsingleton.elim i j, fun _ => 8192⟩
  exact hnot (h _ _ _ s hrun hs)

/-- Of the runs in which every call has returned, only the one without a call is paired. -/
theorem paired_iff (k : Kernel n) (calls : List (Fin n)) (s : State n)
    (hrun : exec (step k) (start n) calls = some s) (hs : Finished s) : Paired k s ↔ n = 0 := by
  constructor
  · intro hp
    by_contra hn
    obtain ⟨z, hz⟩ := exists_wrong_of_finished hrun hs ⟨0, Nat.pos_of_ne_zero hn⟩
    exact hz (hp.shadowFreed z)
  · rintro rfl
    -- there is nobody to take a step
    obtain rfl : calls = [] := List.eq_nil_iff_forall_not_mem.mpr (fun i _ => i.elim0)
    obtain rfl := Option.some.inj hrun
    exact ⟨nofun, nofun, nofun, rfl⟩

theorem paired_iff_one : ∃ (k : Kernel 1) (s : State 1),
    exec (step k) (start 1) (List.replicate 52 0) = some s ∧ (Paired k s ↔ 1 = 0) := by
  obtain ⟨s, hrun, hs, -⟩ :=
    one_call ⟨fun _ => 4096, fun i j _ => Subsingleton.elim i j, fun _ => 8192⟩
  exact ⟨_, s, hrun, paired_iff _ _ s hrun hs⟩

end YuToolbox.LivePatch
