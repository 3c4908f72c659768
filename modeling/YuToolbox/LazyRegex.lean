import Mathlib.Data.List.Infix
import Mathlib.Tactic.Common

/-! Regular expressions made of literal letters and lazy groups of any letters, matched by
backtracking: at the start of a word, at the first place in it (`search`), and at all places
that do not overlap (`finditer`). -/
namespace YuToolbox.LazyRegex

inductive Item (α : Type) where
  | char (c : α)
  | lazyGroup

abbrev Pattern (α : Type) := List (Item α)

/-- The groups of a match and the text behind it. -/
abbrev Match (α : Type) := List (List α) × List α

variable {α : Type}

def literal (w : List α) : Pattern α := w.map .char

/-- A match whose first group begins with one more letter. -/
def Match.grow (c : α) (m : Match α) : Match α := (m.1.modifyHead (c :: ·), m.2)

/-- A lazy group takes a letter more only when what follows it does not match. -/
def lazyLoop (next : List α → Option (Match α)) : List α → Option (Match α)
  | [] => (next []).map (fun m => ([] :: m.1, m.2))
  | c :: s => match next (c :: s) with
    | some m => some ([] :: m.1, m.2)
    | none => (lazyLoop next s).map (Match.grow c)

variable [DecidableEq α]

/-- A match at the start of a text. -/
def matchHere : Pattern α → List α → Option (Match α)
  | [], s => some ([], s)
  | .char _ :: _, [] => none
  | .char c :: p, d :: s => if d = c then matchHere p s else none
  | .lazyGroup :: p, s => lazyLoop (matchHere p) s

/-- The groups of the first match in a text. -/
def search (p : Pattern α) : List α → Option (List (List α))
  | [] => (matchHere p []).map Prod.fst
  | c :: s => match matchHere p (c :: s) with
    | some m => some m.1
    | none => search p s

/-- The groups of all matches, each behind the one before it, for a pattern that does not
match the empty text. The number counts the letters of the last match that are still to be
passed. -/
def finditerFrom (p : Pattern α) : ℕ → List α → List (List (List α))
  | _, [] => []
  | skip+1, _ :: s => finditerFrom p skip s
  | 0, c :: s => match matchHere p (c :: s) with
    | some m => m.1 :: finditerFrom p (s.length-m.2.length) s
    | none => finditerFrom p 0 s

def finditer (p : Pattern α) (s : List α) : List (List (List α)) := finditerFrom p 0 s

/-- With `t` behind it, no place in `u` is one where `next` succeeds. -/
def Fails (next : List α → Option (Match α)) : List α → List α → Prop
  | [], _ => True
  | c :: u, t => next (c :: u ++ t) = none ∧ Fails next u t

section Fails

variable {next : List α → Option (Match α)} {u v t : List α}

omit [DecidableEq α] in
theorem fails_append : Fails next (u ++ v) t ↔ Fails next u (v ++ t) ∧ Fails next v t := by
  induction u with
  | nil => simp [Fails]
  | cons c u ih => simp only [List.cons_append, Fails, List.append_assoc, ih, and_assoc]

omit [DecidableEq α] in
theorem lazyLoop_fails (h : Fails next u t) :
    lazyLoop next (u ++ t) = (lazyLoop next t).map (fun m => (m.1.modifyHead (u ++ ·), m.2)) := by
  induction u with
  | nil =>
    have hid : (fun m : Match α => (m.1.modifyHead ([] ++ ·), m.2)) = id := by
      funext ⟨gs, s⟩
      cases gs <;> rfl
    rw [hid, Option.map_id, List.nil_append]
    rfl
  | cons c u ih =>
    obtain ⟨hnone, hu⟩ := h
    rw [List.cons_append] at hnone ⊢
    rw [lazyLoop, hnone, ih hu]
    simp only [Option.map_map]
    congr 1
    funext ⟨gs, s⟩
    cases gs <;> rfl

omit [DecidableEq α] in
/-- A group that could end earlier does. -/
theorem lazyLoop_early (h : ¬ Fails next u t) :
    ∃ g gs s, lazyLoop next (u ++ t) = some (g :: gs, s) ∧ g.length < u.length := by
  induction u with
  | nil => exact absurd trivial h
  | cons c u ih =>
    rw [List.cons_append, lazyLoop]
    -- either the group ends right here or at a later place of `u`
    cases hnext : next (c :: (u ++ t)) with
    | some m => exact ⟨[], m.1, m.2, rfl, Nat.zero_lt_succ _⟩
    | none =>
      obtain ⟨g, gs, s, hloop, hlt⟩ := ih (fun hu => h ⟨hnext, hu⟩)
      refine ⟨c :: g, gs, s, ?_, Nat.succ_lt_succ hlt⟩
      simp only [hloop]
      rfl

theorem search_fails {p : Pattern α} (h : Fails (matchHere p) u t) :
    search p (u ++ t) = search p t := by
  induction u with
  | nil => rfl
  | cons c u ih =>
    obtain ⟨hnone, hu⟩ := h
    rw [List.cons_append] at hnone ⊢
    rw [search, hnone, ← ih hu]

theorem search_match {p : Pattern α} {gs : List (List α)} {s : List α}
    (h : matchHere p t = some (gs, s)) : search p t = some gs := by
  cases t with
  | nil => rw [search, h, Option.map_some]
  | cons c t => rw [search, h]

theorem finditer_fails {p : Pattern α} (h : Fails (matchHere p) u t) :
    finditer p (u ++ t) = finditer p t := by
  induction u with
  | nil => rfl
  | cons c u ih =>
    obtain ⟨hnone, hu⟩ := h
    rw [List.cons_append] at hnone ⊢
    rw [finditer, finditerFrom, hnone, ← ih hu, finditer]

theorem finditerFrom_skip (p : Pattern α) (u t : List α) :
    finditerFrom p u.length (u ++ t) = finditer p t := by
  induction u with
  | nil => rw [List.nil_append, List.length_nil, finditer]
  | cons c u ih => rw [List.cons_append, List.length_cons, finditerFrom, ih]

/-- A match that is not empty, and then those behind it. -/
theorem finditer_match {p : Pattern α} {gs : List (List α)} (hne : u ≠ [])
    (h : matchHere p (u ++ t) = some (gs, t)) : finditer p (u ++ t) = gs :: finditer p t := by
  cases u with
  | nil => exact absurd rfl hne
  | cons c u =>
    -- what the match took is passed over before the next place is tried
    have hskip : (u ++ t).length-t.length = u.length := by
      rw [List.length_append, Nat.add_sub_cancel]
    rw [List.cons_append] at h ⊢
    rw [finditer, finditerFrom, h]
    simp only [hskip, finditerFrom_skip]

end Fails

section Literal

variable {u w t : List α} {p : Pattern α}

theorem matchHere_literal (w t : List α) (p : Pattern α) :
    matchHere (literal w ++ p) (w ++ t) = matchHere p t := by
  induction w with
  | nil => rfl
  | cons c w ih =>
    rw [literal, List.map_cons, List.cons_append, List.cons_append, matchHere, if_pos rfl]
    exact ih

theorem matchHere_literal_none (h : ¬ w <+: t) : matchHere (literal w ++ p) t = none := by
  induction w generalizing t with
  | nil => exact absurd List.nil_prefix h
  | cons c w ih =>
    rw [literal, List.map_cons, List.cons_append]
    cases t with
    | nil => rfl
    | cons d t =>
      rw [matchHere]
      split
      · rename_i hd
        subst hd
        exact ih (fun hw => h (List.cons_prefix_cons.mpr ⟨rfl, hw⟩))
      · rfl

theorem matchHere_char_none {c d : α} (h : d ≠ c) : matchHere (.char c :: p) (d :: t) = none := by
  rw [matchHere, if_neg h]

/-- A literal does not match where its first letter does not stand. -/
theorem fails_of_not_mem {c : α} (h : c ∉ u) : Fails (matchHere (.char c :: p)) u t := by
  induction u with
  | nil => trivial
  | cons d u ih =>
    obtain ⟨hne, hu⟩ := List.ne_and_not_mem_of_not_mem_cons h
    exact ⟨matchHere_char_none (Ne.symm hne), ih hu⟩

omit [DecidableEq α] in
/-- A word does not reach a letter that it has not. -/
theorem prefix_of_prefix_append {c : α} (hc : c ∉ w) (h : w <+: u ++ c :: t) : w <+: u := by
  have hu : u ++ [c] <+: u ++ c :: t := ⟨t, by rw [List.append_assoc]; rfl⟩
  have hmem : c ∈ u ++ [c] := List.mem_append_right u List.mem_cons_self
  -- either the word ends before the letter, or it would contain it
  rcases List.prefix_or_prefix_of_prefix h hu with hw | hw
  · rcases List.prefix_concat_iff.mp hw with rfl | hw
    · exact absurd hmem hc
    · exact hw
  · exact absurd (hw.subset hmem) hc

/-- A literal fails all over a text without it, as far as a letter that it has not. -/
theorem fails_of_not_infix {c : α} (hc : c ∉ w) (h : ¬ w <:+: u) :
    Fails (matchHere (literal w ++ p)) (u ++ [c]) t := by
  induction u with
  | nil =>
    refine ⟨matchHere_literal_none (fun hw => h ?_), trivial⟩
    exact (prefix_of_prefix_append hc hw).isInfix
  | cons d u ih =>
    refine ⟨matchHere_literal_none (fun hw => h ?_), ih (fun hu => h ?_)⟩
    · have hw : w <+: (d :: u) ++ c :: t := by simpa using hw
      exact (prefix_of_prefix_append hc hw).isInfix
    · exact List.infix_cons hu

/-- A lazy group in front of a literal ends where the literal first stands. -/
theorem lazyLoop_literal {cl g : List α} (h : Fails (matchHere (literal cl)) g (cl ++ t)) :
    lazyLoop (matchHere (literal cl)) (g ++ (cl ++ t)) = some ([g], t) := by
  have hcl : matchHere (literal cl) (cl ++ t) = some ([], t) := by
    have hmatch := matchHere_literal cl t []
    rwa [List.append_nil] at hmatch
  have hloop : lazyLoop (matchHere (literal cl)) (cl ++ t) = some ([[]], t) := by
    cases hs : cl ++ t with
    | nil =>
      rw [hs] at hcl
      rw [lazyLoop, hcl]
      rfl
    | cons c s =>
      rw [hs] at hcl
      rw [lazyLoop, hcl]
  rw [lazyLoop_fails h, hloop, Option.map_some, List.modifyHead_cons, List.append_nil]

end Literal

end YuToolbox.LazyRegex
