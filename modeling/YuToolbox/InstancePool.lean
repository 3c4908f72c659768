import Mathlib.Data.Finset.Card
import Mathlib.Logic.Function.Basic
import Mathlib.Tactic.Common

/-! Instances that holders take out of a pool and give back to it in the order of a stack: which are
used, and who holds them, newest first. -/
namespace YuToolbox.InstancePool

variable {ι κ : Type*}

/-- What is used is what is held, and everything that is held is held once. -/
structure Pool (used : Finset ι) (held : κ → List ι) : Prop where
  mem_iff : ∀ i, i ∈ used ↔ ∃ k, i ∈ held k
  nodup : ∀ k, (held k).Nodup
  apart : ∀ k l i, i ∈ held k → i ∈ held l → k = l

variable {used : Finset ι} {held : κ → List ι} {k : κ} {i : ι} {rest : List ι}

theorem pool_empty : Pool (∅ : Finset ι) (fun _ : κ => []) := by
  refine ⟨fun i => ?_, fun _ => List.nodup_nil, fun _ _ i hi => absurd hi List.not_mem_nil⟩
  apply iff_of_false (Finset.notMem_empty i)
  rintro ⟨_, hi⟩
  exact absurd hi List.not_mem_nil

/-- The newest instance of one holder is in nobody's hands but in its. -/
theorem Pool.not_mem_rest (h : Pool used held) (hk : held k = i :: rest) : i ∉ rest := by
  have hnodup := h.nodup k
  rw [hk] at hnodup
  exact (List.nodup_cons.mp hnodup).1

theorem Pool.not_mem_other (h : Pool used held) (hk : held k = i :: rest) {l : κ} (hl : l ≠ k) :
    i ∉ held l := by
  have hi : i ∈ held k := by
    rw [hk]
    exact List.mem_cons_self
  exact fun hmem => hl (h.apart l k i hmem hi)

theorem Pool.mem_used (h : Pool used held) (hk : held k = i :: rest) : i ∈ used := by
  apply (h.mem_iff i).mpr
  refine ⟨k, ?_⟩
  rw [hk]
  exact List.mem_cons_self

variable [DecidableEq κ]

theorem mem_update_held {new : List ι} {l : κ} {j : ι} :
    j ∈ Function.update held k new l ↔ l = k ∧ j ∈ new ∨ l ≠ k ∧ j ∈ held l := by
  by_cases hl : l = k
  · subst hl
    simp
  · simp [hl]

variable [DecidableEq ι]

theorem Pool.take (h : Pool used held) (hi : i ∉ used) :
    Pool (insert i used) (Function.update held k (i :: held k)) := by
  have hfree (l : κ) : i ∉ held l := fun hmem => hi ((h.mem_iff i).mpr ⟨l, hmem⟩)
  refine ⟨fun j => ?_, fun l => ?_, fun l l' j hj hj' => ?_⟩
  · rw [Finset.mem_insert, h.mem_iff]
    simp only [mem_update_held, List.mem_cons]
    constructor
    · rintro (rfl | ⟨l, hl⟩)
      · exact ⟨k, Or.inl ⟨rfl, Or.inl rfl⟩⟩
      · by_cases hlk : l = k
        · exact ⟨k, Or.inl ⟨rfl, Or.inr (hlk ▸ hl)⟩⟩
        · exact ⟨l, Or.inr ⟨hlk, hl⟩⟩
    · rintro ⟨l, ⟨-, rfl | hl⟩ | ⟨-, hl⟩⟩
      · exact Or.inl rfl
      · exact Or.inr ⟨k, hl⟩
      · exact Or.inr ⟨l, hl⟩
  · by_cases hlk : l = k
    · subst hlk
      rw [Function.update_self, List.nodup_cons]
      exact ⟨hfree l, h.nodup l⟩
    · rw [Function.update_of_ne hlk]
      exact h.nodup l
  · -- the new instance was nowhere, the others are where they were
    have hwhere {l : κ} (hj : j ∈ Function.update held k (i :: held k) l) :
        j = i ∧ l = k ∨ j ∈ held l := by
      rcases mem_update_held.mp hj with ⟨hl, hj⟩ | ⟨-, hj⟩
      · rw [hl]
        exact (List.mem_cons.mp hj).imp_left (fun hji => ⟨hji, rfl⟩)
      · exact Or.inr hj
    rcases hwhere hj with ⟨hji, hl⟩ | hold <;> rcases hwhere hj' with ⟨hji', hl'⟩ | hold'
    · exact hl.trans hl'.symm
    · exact absurd (hji ▸ hold') (hfree l')
    · exact absurd (hji' ▸ hold) (hfree l)
    · exact h.apart l l' j hold hold'

theorem Pool.giveBack (h : Pool used held) (hk : held k = i :: rest) :
    Pool (used.erase i) (Function.update held k rest) := by
  have hrest {j : ι} (hj : j ∈ rest) : j ∈ held k := by
    rw [hk]
    exact List.mem_cons_of_mem i hj
  refine ⟨fun j => ?_, fun l => ?_, fun l l' j hj hj' => ?_⟩
  · rw [Finset.mem_erase, h.mem_iff]
    simp only [mem_update_held]
    constructor
    · rintro ⟨hne, l, hl⟩
      by_cases hlk : l = k
      · rw [hlk, hk] at hl
        exact ⟨k, Or.inl ⟨rfl, (List.mem_cons.mp hl).resolve_left hne⟩⟩
      · exact ⟨l, Or.inr ⟨hlk, hl⟩⟩
    · rintro ⟨l, ⟨rfl, hl⟩ | ⟨hlk, hl⟩⟩
      · refine ⟨?_, l, hrest hl⟩
        rintro rfl
        exact h.not_mem_rest hk hl
      · refine ⟨?_, l, hl⟩
        rintro rfl
        exact h.not_mem_other hk hlk hl
  · by_cases hlk : l = k
    · subst hlk
      rw [Function.update_self]
      have hnodup := h.nodup l
      rw [hk] at hnodup
      exact (List.nodup_cons.mp hnodup).2
    · rw [Function.update_of_ne hlk]
      exact h.nodup l
  · have hold {l : κ} (hj : j ∈ Function.update held k rest l) : j ∈ held l := by
      rcases mem_update_held.mp hj with ⟨hl, hmem⟩ | ⟨-, hmem⟩
      · rw [hl]
        exact hrest hmem
      · exact hmem
    exact h.apart l l' j (hold hj) (hold hj')

end YuToolbox.InstancePool
