import Mathlib.Data.Nat.Digits.Defs
import Mathlib.Tactic.Ring
import YuToolbox.LineReader

/-! Digits in groups of a fixed size, counted from the right: all groups are full but the first,
and they are the digits of the same number in a larger base. -/
namespace YuToolbox.DigitGroups

open LineReader

variable {α : Type}

def groups (n : ℕ) : List α → List (List α)
  | [] => []
  | c :: s => if s.length % n = 0 then [c] :: groups n s else consHead c (groups n s)

/-- What a row of digits denotes, the highest digit first. -/
def value (digit : α → ℕ) (b : ℕ) (s : List α) : ℕ := Nat.ofDigits b (s.map digit).reverse

theorem flatten_groups (n : ℕ) (s : List α) : (groups n s).flatten = s := by
  induction s with
  | nil => rfl
  | cons c s ih =>
    rw [groups]
    split
    · rw [List.flatten_cons, ih, List.singleton_append]
    · rw [flatten_consHead, ih]

/-- Counting on from the right, a group is full when the next count is divisible. -/
theorem succ_mod {n : ℕ} (hn : 0 < n) (m : ℕ) :
    (m%n+1 = n ∧ (m+1)%n = 0) ∨ (m%n+1 < n ∧ (m+1)%n = m%n+1) := by
  have hm := Nat.div_add_mod m n
  rcases Nat.lt_or_ge (m%n+1) n with hlt | hge
  · right
    refine ⟨hlt, ?_⟩
    calc
      (m+1)%n = (n*(m/n) + (m%n+1))%n := by rw [← Nat.add_assoc, hm]
      _ = m%n+1 := by rw [Nat.mul_add_mod, Nat.mod_eq_of_lt hlt]
  · left
    have heq : m%n+1 = n := Nat.le_antisymm (Nat.mod_lt m hn) hge
    refine ⟨heq, ?_⟩
    calc
      (m+1)%n = (n*(m/n) + (m%n+1))%n := by rw [← Nat.add_assoc, hm]
      _ = 0 := by rw [Nat.mul_add_mod, heq, Nat.mod_self]

theorem groups_shape {n : ℕ} (hn : 0 < n) {s : List α} (hs : s ≠ []) :
    ∃ g gs, groups n s = g :: gs ∧ g.length = (s.length-1)%n+1 ∧ ∀ h ∈ gs, h.length = n := by
  induction s with
  | nil => exact absurd rfl hs
  | cons c s ih =>
    by_cases hne : s = []
    · subst hne
      refine ⟨[c], [], ?_, ?_, nofun⟩
      · simp [groups]
      · simp
    · obtain ⟨g, gs, hgroups, hlen, hgs⟩ := ih hne
      have hpos := List.length_pos_of_ne_nil hne
      have hsucc := succ_mod hn (s.length-1)
      rw [Nat.sub_add_cancel hpos] at hsucc
      rw [groups, hgroups, List.length_cons, Nat.add_sub_cancel]
      rcases hsucc with ⟨hfull, hmod⟩ | ⟨-, hmod⟩
      · -- the group behind the digit is full, so the digit begins another
        rw [if_pos hmod, hmod]
        refine ⟨[c], g :: gs, rfl, rfl, ?_⟩
        intro h hh
        rcases List.mem_cons.mp hh with rfl | hh
        · rw [hlen, hfull]
        · exact hgs h hh
      · rw [if_neg (by omega), hmod]
        refine ⟨c :: g, gs, rfl, ?_, hgs⟩
        rw [List.length_cons, hlen]

section Value

variable (digit : α → ℕ) (b : ℕ)

theorem value_append (s t : List α) :
    value digit b (s ++ t) = value digit b s * b^t.length + value digit b t := by
  unfold value
  rw [List.map_append, List.reverse_append, Nat.ofDigits_append, List.length_reverse,
    List.length_map]
  ring

theorem length_flatten_full {n : ℕ} {gs : List (List α)} (h : ∀ g ∈ gs, g.length = n) :
    gs.flatten.length = n*gs.length := by
  induction gs with
  | nil => rfl
  | cons g gs ih =>
    rw [List.flatten_cons, List.length_append, h g List.mem_cons_self,
      ih (fun x hx => h x (List.mem_cons_of_mem g hx)), List.length_cons]
    ring

/-- The groups are the digits in base `b^n`, however long the first one is. -/
theorem value_flatten {n : ℕ} (g : List α) {gs : List (List α)} (h : ∀ g ∈ gs, g.length = n) :
    value (value digit b) (b^n) (g :: gs) = value digit b (g :: gs).flatten := by
  induction gs generalizing g with
  | nil =>
    rw [List.flatten_cons, List.flatten_nil, List.append_nil, value]
    exact Nat.ofDigits_singleton
  | cons g' gs ih =>
    have hgs : ∀ x ∈ gs, x.length = n := fun x hx => h x (List.mem_cons_of_mem g' hx)
    calc
      value (value digit b) (b^n) (g :: g' :: gs) =
          value (value digit b) (b^n) [g] * (b^n)^(g' :: gs).length +
            value (value digit b) (b^n) (g' :: gs) := value_append _ _ [g] (g' :: gs)
      _ = value digit b g * b^(g' :: gs).flatten.length + value digit b (g' :: gs).flatten := by
        rw [ih g' hgs, length_flatten_full h, ← pow_mul]
        congr 2
      _ = value digit b (g :: g' :: gs).flatten := (value_append digit b _ _).symm

end Value

end YuToolbox.DigitGroups
