import Mathlib.Data.Nat.Find
import YuToolbox.KernelList

/-! The module `slabtest.c`: its init function allocates 1000 slab objects, each with a
node of the list `to_free`, and gives back nothing of this when an allocation fails on the
way. -/
namespace YuToolbox.SlabTest

open KernelList

/-- The static head of the list `to_free`. -/
def toFree : Addr := 1

/-- The kernel's answers: which allocations succeed, and the addresses they return. The
objects have addresses of their own, and so have the nodes; none is NULL, and no node is the
static head. -/
structure Answers where
  cacheCreate : Bool
  zalloc : ℕ → Bool
  kmalloc : ℕ → Bool
  object : ℕ → Addr
  node : ℕ → Addr
  object_inj : Function.Injective object
  node_inj : Function.Injective node
  object_ne_null : ∀ i, object i ≠ 0
  node_ne_null : ∀ i, node i ≠ 0
  node_ne_head : ∀ i, node i ≠ toFree

/-- The cache with its live objects, or with those that were left when it was destroyed. -/
inductive Cache where
  | absent
  | live (objects : List Addr)
  | destroyed (left : List Addr)

inductive Call where
  | kmemCacheZalloc (object : Addr)
  | kmalloc (node : Addr)
  | kmemCacheFree (object : Addr)
  | kfree (node : Addr)
  deriving DecidableEq

/-- A node's data is its `ptr`, if it has been set. -/
structure State where
  heap : Heap (Option Addr)
  cache : Cache
  calls : List Call

/-- `LIST_HEAD(to_free)`, and nothing else. -/
def start : State where
  heap := fun a => if a = toFree then some ⟨toFree, toFree, none⟩ else none
  cache := .absent
  calls := []

def kmemCacheZalloc (a : Answers) (i : ℕ) (s : State) : Option (Addr × State) :=
  match a.zalloc i, s.cache with
  | true, .live objects => some (a.object i, { s with
      cache := .live (a.object i :: objects)
      calls := s.calls ++ [.kmemCacheZalloc (a.object i)] })
  | _, _ => none

/-- NULL when it fails; the memory is not cleared. -/
def kmalloc (a : Answers) (i : ℕ) (s : State) : Addr × State :=
  if a.kmalloc i then
    (a.node i, { s with
      heap := alloc s.heap (a.node i) ⟨0, 0, none⟩
      calls := s.calls ++ [.kmalloc (a.node i)] })
  else (0, s)

def kmemCacheFree (object : Addr) (s : State) : Option State :=
  match s.cache with
  | .live objects =>
    if object ∈ objects then
      some { s with
        cache := .live (objects.erase object)
        calls := s.calls ++ [.kmemCacheFree object] }
    else none
  | _ => none

def kfree (node : Addr) (s : State) : Option State :=
  (free s.heap node).map (fun heap => { s with heap, calls := s.calls ++ [.kfree node] })

def kmemCacheDestroy (s : State) : State :=
  match s.cache with
  | .live objects => { s with cache := .destroyed objects }
  | _ => s

/-- The body of the loop of `free_objs`. -/
def freeBody (pos : Addr) (s : State) : Option State := do
  let ptr ← (s.heap pos).bind Cell.data
  let s ← kmemCacheFree ptr s
  kfree pos s

def freeObjs (fuel : ℕ) (s : State) : Option State :=
  listForEachEntrySafe State.heap toFree freeBody fuel s

def enomem : Int := -12

/-- The loop of `slabtest_init` with some rounds left; `none` when a NULL pointer is
dereferenced. -/
def initLoop (a : Answers) : ℕ → ℕ → State → Option (Int × State)
  | 0, _, s => some (0, s)
  | rounds+1, i, s =>
    match kmemCacheZalloc a i s with
    -- the objects of the rounds before, their nodes and the cache stay as they are
    | none => some (enomem, s)
    | some (slabtestBuf, s) => do
      -- the result of `kmalloc` is not tested
      let (ptr, s) := kmalloc a i s
      let heap ← initListHead s.heap ptr
      let heap ← store heap ptr (fun c => { c with data := some slabtestBuf })
      let heap ← listAdd heap ptr toFree
      initLoop a rounds (i+1) { s with heap }

def slabtestInit (a : Answers) : Option (Int × State) :=
  if a.cacheCreate then initLoop a 1000 0 { start with cache := .live [] }
  else some (enomem, start)

def slabtestCleanup (fuel : ℕ) (s : State) : Option State :=
  (freeObjs fuel s).map kmemCacheDestroy

/-- Every object and node has been released, and a cache that was made is destroyed empty. -/
structure Released (s : State) : Prop where
  cache : s.cache = .absent ∨ s.cache = .destroyed []
  objects : ∀ object,
    s.calls.count (.kmemCacheFree object) = s.calls.count (.kmemCacheZalloc object)
  nodes : ∀ node, s.calls.count (.kfree node) = s.calls.count (.kmalloc node)
  heap : ∀ node, node ≠ toFree → s.heap node = none

/-- No NULL pointer is dereferenced, an error leaves nothing behind, and after a success
`slabtest_cleanup` releases everything. -/
def InitLaw (a : Answers) : Prop :=
  ∃ ret s, slabtestInit a = some (ret, s) ∧ (ret ≠ 0 → Released s) ∧
    (ret = 0 → ∃ fuel t, slabtestCleanup fuel s = some t ∧ Released t)

/-- The nodes of the rounds before `i` with their objects, as `list_add` orders them. -/
def entries (a : Answers) : ℕ → List (Addr × Option Addr)
  | 0 => []
  | i+1 => (a.node i, some (a.object i)) :: entries a i

def objects (a : Answers) : ℕ → List Addr
  | 0 => []
  | i+1 => a.object i :: objects a i

/-- What has been allocated and not been freed is what the list holds. -/
structure Ledger (a : Answers) (i : ℕ) (s : State) : Prop where
  cache : s.cache = .live (objects a i)
  objects : ∀ object, s.calls.count (.kmemCacheFree object)+(objects a i).count object =
    s.calls.count (.kmemCacheZalloc object)
  nodes : ∀ node, s.calls.count (.kfree node)+((entries a i).map Prod.fst).count node =
    s.calls.count (.kmalloc node)

section Init

variable {a : Answers} {i : ℕ} {s : State}

theorem exists_of_mem_entries {w : Addr} (h : w ∈ (entries a i).map Prod.fst) :
    ∃ j < i, w = a.node j := by
  induction i with
  | zero => cases h
  | succ i ih =>
    rcases List.mem_cons.mp h with rfl | h
    · exact ⟨i, Nat.lt_succ_self i, rfl⟩
    · obtain ⟨j, hj, hw⟩ := ih h
      exact ⟨j, Nat.lt_succ_of_lt hj, hw⟩

/-- The state before round `i`. -/
structure Ready (a : Answers) (i : ℕ) (s : State) : Prop where
  holds : Holds s.heap toFree (entries a i)
  ledger : Ledger a i s

theorem ready_start (a : Answers) : Ready a 0 { start with cache := .live [] } :=
  ⟨holds_nil toFree none, rfl, fun _ => rfl, fun _ => rfl⟩

/-- A round whose allocations succeed. -/
theorem round_step (hs : Ready a i s) (hz : a.zalloc i = true) (hk : a.kmalloc i = true)
    (rounds : ℕ) : ∃ t, initLoop a (rounds+1) i s = initLoop a rounds (i+1) t ∧
      Ready a (i+1) t := by
  -- the new node is none of those on the list
  have hout : a.node i ∉ toFree :: (entries a i).map Prod.fst := by
    apply List.not_mem_cons_of_ne_of_not_mem (a.node_ne_head i)
    intro hmem
    obtain ⟨j, hj, he⟩ := exists_of_mem_entries hmem
    exact Nat.ne_of_gt hj (a.node_inj he)
  obtain ⟨h₁, h₂, h₃, hinit, hstore, hadd, hholds⟩ :=
    hs.holds.push hout ⟨0, 0, none⟩ (some (a.object i))
  let t : State := ⟨h₃, .live (objects a (i+1)), s.calls ++ [.kmemCacheZalloc (a.object i)] ++
    [.kmalloc (a.node i)]⟩
  refine ⟨t, ?_, ⟨hholds, ⟨rfl, fun object => ?_, fun node => ?_⟩⟩⟩
  · simp only [initLoop, kmemCacheZalloc, hz, hs.ledger.cache, kmalloc, hk, if_true,
      Option.bind_eq_bind, hinit, hstore, hadd, Option.bind_some]
    rfl
  · have hsum := hs.ledger.objects object
    simp only [t, List.count_append, List.count_cons, List.count_nil, objects, beq_iff_eq,
      reduceCtorEq, Call.kmemCacheZalloc.injEq, if_false, Nat.add_zero] at hsum ⊢
    omega
  · have hsum := hs.ledger.nodes node
    simp only [t, List.count_append, List.count_cons, List.count_nil, entries, List.map_cons,
      beq_iff_eq, reduceCtorEq, Call.kmalloc.injEq, if_false, Nat.add_zero] at hsum ⊢
    omega

/-- The rounds before `i`, when all their allocations succeed. -/
theorem rounds_run (hall : ∀ j < i, a.zalloc j = true ∧ a.kmalloc j = true) (rounds : ℕ) :
    ∃ t, initLoop a (i+rounds) 0 { start with cache := .live [] } = initLoop a rounds i t ∧
      Ready a i t := by
  induction i generalizing rounds with
  | zero => exact ⟨_, by rw [Nat.zero_add], ready_start a⟩
  | succ i ih =>
    obtain ⟨t, ht, hready⟩ := ih (fun j hj => hall j (Nat.lt_succ_of_lt hj)) (rounds+1)
    obtain ⟨hz, hk⟩ := hall i (Nat.lt_succ_self i)
    obtain ⟨u, hu, hready'⟩ := round_step hready hz hk rounds
    refine ⟨u, ?_, hready'⟩
    rw [← hu, ← ht, Nat.add_right_comm, Nat.add_assoc]

theorem zalloc_fails (hz : a.zalloc i = false) (rounds : ℕ) :
    initLoop a (rounds+1) i s = some (enomem, s) := by
  simp only [initLoop, kmemCacheZalloc, hz]

/-- A node that is NULL is dereferenced at once. -/
theorem kmalloc_fails (hs : Ready a i s) (hz : a.zalloc i = true) (hk : a.kmalloc i = false)
    (rounds : ℕ) : initLoop a (rounds+1) i s = none := by
  have hnull : s.heap 0 = none := by
    apply hs.holds.only
    apply List.not_mem_cons_of_ne_of_not_mem (by simp [toFree])
    intro hmem
    obtain ⟨j, -, he⟩ := exists_of_mem_entries hmem
    exact a.node_ne_null j he.symm
  simp only [initLoop, kmemCacheZalloc, hz, hs.ledger.cache, kmalloc, hk, Bool.false_eq_true,
    if_false, initListHead, store, hnull, Option.map_none, Option.bind_eq_bind, Option.bind_none]

end Init

section Cleanup

variable {a : Answers} {i : ℕ} {s : State}

/-- One round of `free_objs` takes the last entry off the ledger. -/
theorem freeBody_step {e : Addr × Option Addr} {es : List (Addr × Option Addr)}
    (hh : HoldsAhead s.heap toFree (e :: es)) (hes : e :: es = entries a i) (hs : Ledger a i s) :
    ∃ t, freeBody e.1 s = some t ∧ HoldsAhead t.heap toFree es ∧
      ∃ j, es = entries a j ∧ Ledger a j t := by
  cases i with
  | zero => cases hes
  | succ j =>
    -- the entry in front is that of the last round still on the ledger
    obtain ⟨rfl, rfl⟩ := List.cons.inj hes
    obtain ⟨h', hfree, hahead⟩ := hh.free
    have hptr : (s.heap (a.node j)).bind Cell.data = some (a.object j) := hh.bind_data
    have hzfree : kmemCacheFree (a.object j) s = some { s with
        cache := .live (objects a j)
        calls := s.calls ++ [.kmemCacheFree (a.object j)] } := by
      simp only [kmemCacheFree, hs.cache, objects, List.mem_cons_self, if_true,
        List.erase_cons_head]
    let t : State := ⟨h', .live (objects a j), s.calls ++ [.kmemCacheFree (a.object j)] ++
      [.kfree (a.node j)]⟩
    refine ⟨t, ?_, hahead, j, rfl, rfl, fun object => ?_, fun node => ?_⟩
    · simp only [freeBody, hptr, Option.bind_eq_bind, Option.bind_some, hzfree, kfree]
      rw [hfree]
      rfl
    · have hsum := hs.objects object
      simp only [t, List.count_append, List.count_cons, List.count_nil, objects, beq_iff_eq,
        reduceCtorEq, Call.kmemCacheFree.injEq, if_false, Nat.add_zero] at hsum ⊢
      omega
    · have hsum := hs.nodes node
      simp only [t, List.count_append, List.count_cons, List.count_nil, entries, List.map_cons,
        beq_iff_eq, reduceCtorEq, Call.kfree.injEq, if_false, Nat.add_zero] at hsum ⊢
      omega

/-- After a success the exit function releases everything once. -/
theorem cleanup_released (hs : Ready a i s) :
    ∃ fuel t, slabtestCleanup fuel s = some t ∧ Released t := by
  have hrun := hs.holds.forEach_run State.heap freeBody
    (fun es s => ∃ j, es = entries a j ∧ Ledger a j s) ⟨i, rfl, hs.ledger⟩
    (by
      rintro e es s hh ⟨j, hes, hj⟩
      exact freeBody_step hh hes hj)
  obtain ⟨t, ht, hahead, j, hnil, hj⟩ := hrun
  -- no entry is left, so the ledger is back where it was before round 0
  obtain rfl : j = 0 := by
    cases j with
    | zero => rfl
    | succ j => cases hnil
  refine ⟨(entries a i).length+1, { t with cache := .destroyed [] }, ?_, .inr rfl, hj.objects,
    hj.nodes, ?_⟩
  · rw [slabtestCleanup, freeObjs, ht, Option.map_some, kmemCacheDestroy, hj.cache]
    rfl
  · intro node hne
    exact hahead.only node (by simpa using hne)

end Cleanup

/-- A round that fails leaves the cache and the rounds before it behind, or dereferences
NULL. -/
theorem not_initLaw {a : Answers} {i : ℕ} (hcreate : a.cacheCreate = true) (hi : i < 1000)
    (hall : ∀ j < i, a.zalloc j = true ∧ a.kmalloc j = true)
    (hfail : ¬(a.zalloc i = true ∧ a.kmalloc i = true)) : ¬InitLaw a := by
  rintro ⟨ret, s, hinit, herr, -⟩
  obtain ⟨rounds, hrounds⟩ : ∃ rounds, 1000 = i+(rounds+1) := ⟨999 - i, by omega⟩
  obtain ⟨t, ht, hready⟩ := rounds_run hall (rounds+1)
  rw [slabtestInit, hcreate, if_pos rfl, hrounds, ht] at hinit
  cases hz : a.zalloc i with
  | false =>
    -- -ENOMEM comes back with the cache still live
    rw [zalloc_fails hz] at hinit
    obtain ⟨rfl, rfl⟩ := Prod.mk.inj (Option.some.inj hinit)
    have hcache := (herr (by decide)).cache
    rw [hready.ledger.cache] at hcache
    rcases hcache with h | h <;> cases h
  | true =>
    have hk : a.kmalloc i = false := by simpa [hz] using hfail
    rw [kmalloc_fails hready hz hk] at hinit
    cases hinit

theorem initLaw_iff (a : Answers) : InitLaw a ↔ a.cacheCreate = false ∨
    ∀ i < 1000, a.zalloc i = true ∧ a.kmalloc i = true := by
  cases hcreate : a.cacheCreate with
  | false =>
    refine iff_of_true ⟨enomem, start, by rw [slabtestInit, hcreate]; rfl, fun _ => ?_, nofun⟩
      (.inl rfl)
    exact ⟨.inl rfl, fun _ => rfl, fun _ => rfl, fun node hne => if_neg hne⟩
  | true =>
    constructor
    · intro hlaw
      refine .inr ?_
      by_contra hfail
      have hex : ∃ i, i < 1000 ∧ ¬(a.zalloc i = true ∧ a.kmalloc i = true) := by
        simpa only [not_forall, exists_prop] using hfail
      obtain ⟨hi, hnot⟩ := Nat.find_spec hex
      -- the rounds before the first that fails
      refine not_initLaw hcreate hi (fun j hj => ?_) hnot hlaw
      by_contra hj'
      exact Nat.find_min hex hj ⟨Nat.lt_trans hj hi, hj'⟩
    · rintro (h | hall)
      · cases h
      · obtain ⟨t, ht, hready⟩ := rounds_run hall 0
        refine ⟨0, t, by rw [slabtestInit, hcreate, if_pos rfl, ht, initLoop], nofun, ?_⟩
        intro _
        exact cleanup_released hready

/-- The second `kmem_cache_zalloc` fails. -/
def secondZallocFails : Answers where
  cacheCreate := true
  zalloc := fun i => i != 1
  kmalloc := fun _ => true
  object := fun i => 2*i+2
  node := fun i => 2*i+3
  object_inj := fun i j h => by
    have : 2*i+2 = 2*j+2 := h
    omega
  node_inj := fun i j h => by
    have : 2*i+3 = 2*j+3 := h
    omega
  object_ne_null := fun i => Nat.succ_ne_zero (2*i+1)
  node_ne_null := fun i => Nat.succ_ne_zero (2*i+2)
  node_ne_head := fun i h => Nat.succ_ne_zero (2*i+1) (Nat.succ.inj h)

theorem not_forall_initLaw : ¬ ∀ a, InitLaw a := by
  intro hlaw
  refine not_initLaw (a := secondZallocFails) (i := 1) rfl (by decide) ?_ (by decide) (hlaw _)
  intro j hj
  obtain rfl : j = 0 := by omega
  exact ⟨rfl, rfl⟩

end YuToolbox.SlabTest
