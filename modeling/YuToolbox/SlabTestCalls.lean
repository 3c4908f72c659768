import YuToolbox.SlabTest

/-! Which objects and nodes a load of `slabtest.c` takes and the removal gives back, call by call,
for every way in which the allocations may fail. -/
namespace YuToolbox.SlabTest

open KernelList

/-- The allocations of the rounds before `i`, in their order. -/
def loadCalls (a : Answers) : ℕ → List Call
  | 0 => []
  | i+1 => loadCalls a i ++ [.kmemCacheZalloc (a.object i), .kmalloc (a.node i)]

/-- What they took is given back from the last round to the first, an object before its node. -/
def unloadCalls (a : Answers) : ℕ → List Call
  | 0 => []
  | i+1 => .kmemCacheFree (a.object i) :: .kfree (a.node i) :: unloadCalls a i

section Load

variable {a : Answers} {i : ℕ} {s : State} {r : Int × State}

/-- A round whose allocations succeed leaves its two calls, whatever becomes of the list. -/
theorem round_calls {left : List Addr} {rounds : ℕ} (hcache : s.cache = .live left)
    (hz : a.zalloc i = true) (hk : a.kmalloc i = true)
    (hr : initLoop a (rounds+1) i s = some r) :
    ∃ t, initLoop a rounds (i+1) t = some r ∧ t.cache = .live (a.object i :: left) ∧
      t.calls = s.calls ++ [.kmemCacheZalloc (a.object i), .kmalloc (a.node i)] := by
  simp only [initLoop, kmemCacheZalloc, hz, hcache, kmalloc, hk, if_true] at hr
  obtain ⟨h₁, -, hr⟩ := Option.bind_eq_some_iff.mp hr
  obtain ⟨h₂, -, hr⟩ := Option.bind_eq_some_iff.mp hr
  obtain ⟨h₃, -, hr⟩ := Option.bind_eq_some_iff.mp hr
  refine ⟨_, hr, rfl, ?_⟩
  rw [List.append_assoc]
  rfl

theorem rounds_calls (hall : ∀ j < i, a.zalloc j = true ∧ a.kmalloc j = true) {rounds : ℕ}
    (hr : initLoop a (i+rounds) 0 { start with cache := .live [] } = some r) :
    ∃ t, initLoop a rounds i t = some r ∧ t.cache = .live (objects a i) ∧
      t.calls = loadCalls a i := by
  induction i generalizing rounds with
  | zero =>
    rw [Nat.zero_add] at hr
    exact ⟨_, hr, rfl, rfl⟩
  | succ i ih =>
    rw [Nat.add_right_comm, Nat.add_assoc] at hr
    obtain ⟨t, ht, hcache, hcalls⟩ := ih (fun j hj => hall j (Nat.lt_succ_of_lt hj)) hr
    obtain ⟨hz, hk⟩ := hall i (Nat.lt_succ_self i)
    obtain ⟨u, hu, hcache', hcalls'⟩ := round_calls hcache hz hk ht
    refine ⟨u, hu, hcache', ?_⟩
    rw [hcalls', hcalls, loadCalls]

/-- The load when the cache is there and no allocation fails before round `i`. -/
theorem slabtestInit_rounds (hcreate : a.cacheCreate = true)
    (hall : ∀ j < i, a.zalloc j = true ∧ a.kmalloc j = true) {rounds : ℕ}
    (hrounds : i+rounds = 1000) :
    ∃ t, slabtestInit a = initLoop a rounds i t ∧ Ready a i t := by
  obtain ⟨t, ht, hready⟩ := rounds_run hall rounds
  refine ⟨t, ?_, hready⟩
  rw [slabtestInit, hcreate, if_pos rfl, ← hrounds, ht]

theorem slabtestInit_calls (hcreate : a.cacheCreate = true)
    (hall : ∀ j < i, a.zalloc j = true ∧ a.kmalloc j = true) {rounds : ℕ}
    (hrounds : i+rounds = 1000) (hr : slabtestInit a = some r) :
    ∃ t, initLoop a rounds i t = some r ∧ t.calls = loadCalls a i := by
  rw [slabtestInit, hcreate, if_pos rfl, ← hrounds] at hr
  obtain ⟨t, ht, -, hcalls⟩ := rounds_calls hall hr
  exact ⟨t, ht, hcalls⟩

end Load

section Unload

variable {a : Answers} {i j : ℕ} {s t : State}

theorem length_entries (a : Answers) (i : ℕ) : (entries a i).length = i := by
  induction i with
  | zero => rfl
  | succ i ih => rw [entries, List.length_cons, ih]

theorem freeBody_calls {pos object : Addr} (hptr : (s.heap pos).bind Cell.data = some object)
    (ht : freeBody pos s = some t) :
    t.calls = s.calls ++ [.kmemCacheFree object, .kfree pos] := by
  simp only [freeBody, hptr, Option.bind_eq_bind, Option.bind_some] at ht
  obtain ⟨u, hu, ht⟩ := Option.bind_eq_some_iff.mp ht
  obtain ⟨h', -, rfl⟩ := Option.map_eq_some_iff.mp ht
  have hcalls : u.calls = s.calls ++ [.kmemCacheFree object] := by
    rw [kmemCacheFree] at hu
    split at hu
    · split at hu
      · obtain rfl := Option.some.inj hu
        rfl
      · cases hu
    · cases hu
  rw [hcalls, List.append_assoc]
  rfl

/-- What the removal of a complete load calls, and that nothing is left. -/
theorem cleanup_calls (hs : Ready a i s) :
    ∃ fuel t, slabtestCleanup fuel s = some t ∧ Released t ∧
      t.calls = s.calls ++ unloadCalls a i := by
  -- the calls so far and those still to come are always the same together
  let inv : List (Addr × Option Addr) → State → Prop := fun es u =>
    ∃ j, es = entries a j ∧ Ledger a j u ∧ u.calls ++ unloadCalls a j = s.calls ++ unloadCalls a i
  have hbody : ∀ e es u, HoldsAhead u.heap toFree (e :: es) → inv (e :: es) u →
      ∃ t, freeBody e.1 u = some t ∧ HoldsAhead t.heap toFree es ∧ inv es t := by
    rintro e es u hh ⟨j, hes, hledger, hcalls⟩
    obtain ⟨t, ht, hahead, k, hk, hledger'⟩ := freeBody_step hh hes hledger
    refine ⟨t, ht, hahead, k, hk, hledger', ?_⟩
    obtain rfl : j = k+1 := by
      have hlength := congrArg List.length hes
      rw [List.length_cons, hk, length_entries, length_entries] at hlength
      exact hlength.symm
    obtain ⟨rfl, -⟩ := List.cons.inj hes
    have hptr : (u.heap (a.node k)).bind Cell.data = some (a.object k) := hh.bind_data
    rw [freeBody_calls hptr ht, ← hcalls, unloadCalls, List.append_assoc]
    rfl
  obtain ⟨t, ht, -, j, hnil, -, hcalls⟩ :=
    hs.holds.forEach_run State.heap freeBody inv ⟨i, rfl, hs.ledger, rfl⟩ hbody
  obtain rfl : j = 0 := by
    have hlength := congrArg List.length hnil
    rw [length_entries] at hlength
    exact hlength.symm
  -- the same run as the one that releases everything
  obtain ⟨fuel, u, hu, hreleased⟩ := cleanup_released hs
  refine ⟨fuel, u, hu, hreleased, ?_⟩
  obtain ⟨v, hv, rfl⟩ := Option.map_eq_some_iff.mp hu
  obtain rfl : t = v := listForEachEntrySafe_unique ht hv
  rw [unloadCalls, List.append_nil] at hcalls
  rw [← hcalls, kmemCacheDestroy]
  split <;> rfl

end Unload

/-- The load of a cache that could be made, by the round in which the first allocation fails.
Without one, the removal gives back what it took, the last round first and in each the object before
its node. An object that cannot be had is an error, which leaves behind just what the rounds before
it have taken; a node that cannot be had is a NULL dereference. -/
theorem load_law (a : Answers) (i : ℕ) (hcreate : a.cacheCreate = true) (hi : i ≤ 1000)
    (hall : ∀ j < i, a.zalloc j = true ∧ a.kmalloc j = true) :
    (i = 1000 → ∃ s, slabtestInit a = some (0, s) ∧ s.calls = loadCalls a 1000 ∧
      ∃ fuel t, slabtestCleanup fuel s = some t ∧ Released t ∧
        t.calls = loadCalls a 1000 ++ unloadCalls a 1000) ∧
    (i < 1000 → a.zalloc i = false → ∃ s, slabtestInit a = some (enomem, s) ∧
      s.calls = loadCalls a i ∧ s.cache = .live (objects a i) ∧
      Holds s.heap toFree (entries a i)) ∧
    (i < 1000 → a.zalloc i = true → a.kmalloc i = false → slabtestInit a = none) := by
  refine ⟨?_, ?_, ?_⟩
  · rintro rfl
    obtain ⟨s, hs, hready⟩ := slabtestInit_rounds hcreate hall (Nat.add_zero 1000)
    rw [initLoop] at hs
    obtain ⟨u, hu, hcalls⟩ := slabtestInit_calls hcreate hall (Nat.add_zero 1000) hs
    obtain rfl : u = s := by
      rw [initLoop] at hu
      exact (Prod.mk.inj (Option.some.inj hu)).2
    obtain ⟨fuel, t, ht, hreleased, hafter⟩ := cleanup_calls hready
    rw [hcalls] at hafter
    exact ⟨u, hs, hcalls, fuel, t, ht, hreleased, hafter⟩
  · intro hlt hz
    obtain ⟨rounds, hrounds⟩ : ∃ rounds, i+(rounds+1) = 1000 := ⟨999-i, by omega⟩
    obtain ⟨s, hs, hready⟩ := slabtestInit_rounds hcreate hall hrounds
    rw [zalloc_fails hz] at hs
    obtain ⟨u, hu, hcalls⟩ := slabtestInit_calls hcreate hall hrounds hs
    obtain rfl : u = s := by
      rw [zalloc_fails hz] at hu
      exact (Prod.mk.inj (Option.some.inj hu)).2
    exact ⟨u, hs, hcalls, hready.ledger.cache, hready.holds⟩
  · intro hlt hz hk
    obtain ⟨rounds, hrounds⟩ : ∃ rounds, i+(rounds+1) = 1000 := ⟨999-i, by omega⟩
    obtain ⟨s, hs, hready⟩ := slabtestInit_rounds hcreate hall hrounds
    rw [hs, kmalloc_fails hready hz hk]

/-- The second object cannot be had: the first is left in the cache. -/
theorem load_law_second :
    ∃ s, slabtestInit secondZallocFails = some (enomem, s) ∧
      s.calls = [.kmemCacheZalloc 2, .kmalloc 3] ∧ s.cache = .live [2] ∧
      Holds s.heap toFree [(3, some 2)] := by
  apply (load_law secondZallocFails 1 rfl (by decide) ?_).2.1 (by decide) rfl
  intro j hj
  obtain rfl : j = 0 := by omega
  exact ⟨rfl, rfl⟩

end YuToolbox.SlabTest
