import YuToolbox.AwkText

/-! `split(text, array, sep)` for a separator without regular expression operators, read
from left to right. -/
namespace YuToolbox.Awk

/-- The pieces of a text, where `piece` holds the characters of the piece being read and
`skip` counts the characters of a separator still to be passed over. -/
def splitFrom (sep piece : Text) (skip : ℕ) : Text → List Text
  | [] => [piece]
  | c :: text =>
    match skip with
    -- still inside a separator
    | skip+1 => splitFrom sep piece skip text
    | 0 =>
      if sep.isPrefixOf (c :: text) then piece :: splitFrom sep [] (sep.length-1) text
      else splitFrom sep (piece ++ [c]) 0 text

def split (sep text : Text) : List Text :=
  if text.isEmpty then [] else splitFrom sep [] 0 text

section Split

variable {sep : Text}

theorem splitFrom_skip (piece pre : Text) (text : Text) :
    splitFrom sep piece pre.length (pre ++ text) = splitFrom sep piece 0 text := by
  induction pre with
  | nil => rfl
  | cons c pre ih => rw [List.cons_append, List.length_cons, splitFrom, ih]

theorem splitFrom_sep (h : sep ≠ []) (piece text : Text) :
    splitFrom sep piece 0 (sep ++ text) = piece :: splitFrom sep [] 0 text := by
  obtain ⟨c, pre, rfl⟩ := List.exists_cons_of_ne_nil h
  have hprefix : (c :: pre).isPrefixOf (c :: (pre ++ text)) = true := by
    rw [List.isPrefixOf_iff_prefix]
    exact ⟨text, rfl⟩
  rw [List.cons_append, splitFrom, if_pos hprefix, List.length_cons, Nat.add_sub_cancel,
    splitFrom_skip]

theorem splitFrom_char {c : Char} {text : Text} (h : ¬ sep <+: c :: text) (piece : Text) :
    splitFrom sep piece 0 (c :: text) = splitFrom sep (piece ++ [c]) 0 text := by
  rw [splitFrom, if_neg]
  rwa [List.isPrefixOf_iff_prefix]

/-- Text without the first character of the separator belongs to one piece. -/
theorem splitFrom_free {q : Char} (hq : sep.head? = some q) {pre : Text} (h : q ∉ pre)
    (piece text : Text) :
    splitFrom sep piece 0 (pre ++ text) = splitFrom sep (piece ++ pre) 0 text := by
  induction pre generalizing piece with
  | nil => rw [List.nil_append, List.append_nil]
  | cons c pre ih =>
    -- a separator that began here would begin with a character of the text
    have hc : ¬ sep <+: c :: (pre ++ text) := by
      intro hsep
      obtain ⟨post, rfl⟩ := List.head?_eq_some_iff.mp hq
      exact h (List.mem_cons.mpr (Or.inl (List.cons_prefix_cons.mp hsep).1))
    rw [List.cons_append, splitFrom_char hc, ih (fun hm => h (List.mem_cons_of_mem c hm)),
      List.append_assoc]
    rfl

theorem splitFrom_whole {q : Char} (hq : sep.head? = some q) {text : Text} (h : q ∉ text) :
    splitFrom sep [] 0 text = [text] := by
  have hfree := splitFrom_free hq h [] []
  rwa [List.append_nil, List.nil_append] at hfree

/-- Texts that are cut in the same way whatever comes behind them are so one after another. -/
theorem splitFrom_flatMap {β : Type} {f : β → Text} {g : β → List Text} {bs : List β}
    (h : ∀ b ∈ bs, ∀ text, splitFrom sep [] 0 (f b ++ text) = g b ++ splitFrom sep [] 0 text)
    (text : Text) :
    splitFrom sep [] 0 (bs.flatMap f ++ text) = bs.flatMap g ++ splitFrom sep [] 0 text := by
  induction bs with
  | nil => rfl
  | cons b bs ih =>
    rw [List.flatMap_cons, List.append_assoc, h b List.mem_cons_self,
      ih (fun c hc => h c (List.mem_cons_of_mem b hc)), List.flatMap_cons, List.append_assoc]

theorem infix_of_mem_splitFrom {piece text x : Text} {skip : ℕ} (hskip : skip = 0 ∨ piece = [])
    (h : x ∈ splitFrom sep piece skip text) : x <:+: piece ++ text := by
  induction text generalizing piece skip with
  | nil =>
    rw [splitFrom, List.mem_singleton] at h
    rw [h, List.append_nil]
  | cons c text ih =>
    -- behind a separator the piece starts anew, so it is a part of what follows
    have hlater : ∀ {skip}, x ∈ splitFrom sep [] skip text → x <:+: piece ++ c :: text := by
      intro skip hy
      obtain ⟨a, b, hab⟩ := ih (Or.inr rfl) hy
      refine ⟨piece ++ c :: a, b, ?_⟩
      rw [List.nil_append] at hab
      rw [← hab]
      simp only [List.append_assoc, List.cons_append]
    cases skip with
    | succ skip =>
      obtain rfl : piece = [] := hskip.resolve_left (Nat.succ_ne_zero skip)
      exact hlater h
    | zero =>
      rw [splitFrom] at h
      split at h
      · rcases List.mem_cons.mp h with rfl | h
        · exact ⟨[], c :: text, rfl⟩
        · exact hlater h
      · have hx := ih (Or.inl rfl) h
        rwa [List.append_assoc] at hx

theorem infix_of_mem_split {text x : Text} (h : x ∈ split sep text) : x <:+: text := by
  unfold split at h
  split at h
  · cases h
  · exact infix_of_mem_splitFrom (Or.inl rfl) h

/-- With a one-character separator the first piece ends at its first occurrence. -/
theorem splitFrom_singleton (q : Char) (piece text : Text) :
    (splitFrom [q] piece 0 text).head? = some (piece ++ text.takeWhile (· != q)) := by
  induction text generalizing piece with
  | nil => rw [splitFrom, List.takeWhile_nil, List.append_nil]; rfl
  | cons c text ih =>
    by_cases h : c = q
    · have hsep := splitFrom_sep (List.cons_ne_nil q []) piece text
      rw [List.cons_append, List.nil_append] at hsep
      rw [h, hsep]
      simp
    · have hc : ¬ [q] <+: c :: text := fun hp => h (List.cons_prefix_cons.mp hp).1.symm
      rw [splitFrom_char hc, ih]
      simp [h]

end Split

end YuToolbox.Awk
