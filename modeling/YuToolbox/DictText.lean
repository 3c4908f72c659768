import YuToolbox.Dict

/-! `get_text` on a CDATA section. The section ends with `]]>`, and the lazy group with the
first `]]`, which can be made of the end of the text and the start of the terminator. -/
namespace YuToolbox.Dict

open LazyRegex

def cdata (s : Text) : Text := '<' :: cdataOpen ++ s ++ cdataStop ++ ['>']

theorem matchHere_stop_eq_none_iff (t : Text) :
    matchHere (literal cdataStop) t = none ↔ ¬ cdataStop <+: t := by
  constructor
  · rintro h ⟨rest, rfl⟩
    have hmatch := matchHere_literal cdataStop rest []
    rw [List.append_nil, h] at hmatch
    cases hmatch
  · intro h
    rw [← List.append_nil (literal _)]
    exact matchHere_literal_none h

/-- The stop does not stand before the end of the section where the text has none and does
not lend a bracket to the terminator. -/
theorem fails_stop_iff (s t : Text) : Fails (matchHere (literal cdataStop)) s (cdataStop ++ t) ↔
    ¬ cdataStop <:+: s ∧ s.getLast? ≠ some ']' := by
  induction s with
  | nil => exact iff_of_true trivial ⟨by decide, nofun⟩
  | cons c s ih =>
    rw [Fails, matchHere_stop_eq_none_iff, ih, List.infix_cons_iff]
    -- the last letter can make a stop with the terminator, the others with the next letter
    cases s with
    | nil =>
      have hhead : cdataStop <+: [c] ++ (cdataStop ++ t) ↔ c = ']' := by
        rw [cdataStop, List.cons_append, List.cons_prefix_cons]
        exact ⟨fun h => h.1.symm, fun h => ⟨h.symm, _, rfl⟩⟩
      have hstop : ¬ cdataStop <+: [c] := fun h => absurd h.length_le (by simp [cdataStop])
      have hnil : ¬ cdataStop <:+: [] := by decide
      rw [hhead]
      simp [hstop, hnil]
    | cons d s =>
      have hhead (x : Text) : cdataStop <+: c :: d :: x ↔ ']' = c ∧ ']' = d := by
        rw [cdataStop, List.cons_prefix_cons, List.cons_prefix_cons]
        simp only [List.nil_prefix, and_true]
      rw [List.cons_append, List.cons_append, hhead, hhead, List.getLast?_cons_cons]
      tauto

/-- Behind a text without an opening the group is that of the section. -/
theorem search_cdata {pre t : Text} (h : ¬ cdataOpen <:+: pre) {m : Match Char}
    (hm : lazyLoop (matchHere (literal cdataStop)) t = some m) :
    search textre (pre ++ '<' :: (cdataOpen ++ t)) = some m.1 := by
  have hpre : Fails (matchHere textre) (pre ++ ['<']) (cdataOpen ++ t) :=
    fails_of_not_infix (by decide) h
  have hmatch : matchHere textre (cdataOpen ++ t) = some (m.1, m.2) :=
    (matchHere_literal cdataOpen t _).trans hm
  rw [List.append_cons, search_fails hpre, search_match hmatch]

/-- A CDATA section, with any text behind it and any text before it that opens none, is read
back exactly when its text has no `]]` and does not end in a bracket. -/
theorem getText_cdata_iff {pre : Text} (h : ¬ cdataOpen <:+: pre) (s post : Text) :
    getText (pre ++ cdata s ++ post) = s ↔ ¬ cdataStop <:+: s ∧ s.getLast? ≠ some ']' := by
  have htext : pre ++ cdata s ++ post =
      pre ++ '<' :: (cdataOpen ++ (s ++ (cdataStop ++ '>' :: post))) := by simp [cdata]
  rw [← fails_stop_iff s ('>' :: post), getText, htext]
  constructor
  · intro hs
    by_contra hearly
    obtain ⟨g, gs, rest, hloop, hlt⟩ := lazyLoop_early hearly
    rw [search_cdata h hloop] at hs
    have hg : g = s := hs
    rw [hg] at hlt
    exact Nat.lt_irrefl _ hlt
  · intro hfails
    rw [search_cdata h (lazyLoop_literal hfails)]
    rfl

theorem getText_cdata_iff_word :
    getText (['a'] ++ cdata ['b', ']', 'c'] ++ ['d']) = ['b', ']', 'c'] ↔
      ¬ cdataStop <:+: ['b', ']', 'c'] ∧ ['b', ']', 'c'].getLast? ≠ some ']' :=
  getText_cdata_iff (by decide) _ _

/-- The closing bracket of a phonetic symbol is lost. -/
theorem getText_cdata_phonetic : ¬ (cdataStop ++ ['>']) <:+: ['[', 'a', ']'] ∧
    getText (cdata ['[', 'a', ']']) = ['[', 'a'] := by decide

end YuToolbox.Dict
