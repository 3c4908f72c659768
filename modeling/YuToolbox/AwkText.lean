import Mathlib.Data.List.Infix
import Mathlib.Tactic.Common

/-! Text as an awk program sees it: records without their newline, and the
matching of a record against the literal pieces of a regular expression. -/
namespace YuToolbox.Awk

abbrev Text := List Char

/-- `$0 ~ /lit/` for a regular expression without operators. A leading or trailing
`.*` changes nothing, so `/lit.*/` is the same test. -/
def matchesLiteral (lit line : Text) : Bool := decide (lit <:+: line)

theorem matchesLiteral_iff (lit line : Text) :
    matchesLiteral lit line = true ↔ lit <:+: line := by
  simp only [matchesLiteral, decide_eq_true_eq]

/-- `$0 ~ /first.*second/`: the second literal somewhere behind the first. -/
def matchesGap (first second : Text) : Text → Bool
  | [] => first.isEmpty && second.isEmpty
  | c :: line =>
    (first.isPrefixOf (c :: line) && matchesLiteral second ((c :: line).drop first.length)) ||
      matchesGap first second line

theorem matchesGap_iff (first second line : Text) :
    matchesGap first second line = true ↔
      ∃ a b c, line = a ++ first ++ b ++ second ++ c := by
  induction line with
  | nil =>
    constructor
    · intro h
      simp only [matchesGap, Bool.and_eq_true, List.isEmpty_iff] at h
      exact ⟨[], [], [], by simp [h.1, h.2]⟩
    · rintro ⟨a, b, c, h⟩
      have hnil := h.symm
      simp only [List.append_eq_nil_iff] at hnil
      simp [matchesGap, hnil.1.1.1.2, hnil.1.2]
  | cons x line ih =>
    -- either the first literal stands right here, or it stands further on
    have hhere : (first.isPrefixOf (x :: line) &&
        matchesLiteral second ((x :: line).drop first.length)) = true ↔
        ∃ b c, x :: line = first ++ b ++ second ++ c := by
      rw [Bool.and_eq_true, List.isPrefixOf_iff_prefix, matchesLiteral_iff]
      constructor
      · rintro ⟨⟨rest, hrest⟩, hin⟩
        rw [← hrest, List.drop_left] at hin
        obtain ⟨b, c, hbc⟩ := hin
        exact ⟨b, c, by rw [← hrest, ← hbc]; simp only [List.append_assoc]⟩
      · rintro ⟨b, c, h⟩
        refine ⟨⟨b ++ second ++ c, by rw [h]; simp only [List.append_assoc]⟩, ?_⟩
        rw [h, List.append_assoc, List.append_assoc, List.drop_left]
        exact ⟨b, c, by simp only [List.append_assoc]⟩
    rw [matchesGap, Bool.or_eq_true, hhere, ih]
    constructor
    · rintro (⟨b, c, h⟩ | ⟨a, b, c, h⟩)
      · exact ⟨[], b, c, h⟩
      · exact ⟨x :: a, b, c, by rw [h]; rfl⟩
    · rintro ⟨a, b, c, h⟩
      cases a with
      | nil => exact Or.inl ⟨b, c, h⟩
      | cons y a =>
        obtain ⟨-, hl⟩ := List.cons.inj h
        exact Or.inr ⟨a, b, c, hl⟩

def printLine (line : Text) : Text := line ++ "\n".toList

def isBlank (c : Char) : Bool := c == ' ' || c == '\t' || c == '\n'

/-- Default field splitting: `word` holds the characters of the field being read. -/
def fieldsFrom (word : Text) : Text → List Text
  | [] => if word.isEmpty then [] else [word]
  | c :: line =>
    if isBlank c then
      if word.isEmpty then fieldsFrom [] line else word :: fieldsFrom [] line
    else fieldsFrom (word ++ [c]) line

/-- `$n` for `n ≥ 1`; a field that is not there is empty. -/
def field (n : ℕ) (line : Text) : Text := (fieldsFrom [] line).getD (n-1) []

def IsWord (w : Text) : Prop := w ≠ [] ∧ ∀ c ∈ w, isBlank c = false

section Fields

theorem isBlank_of_any {s : Text} (h : s.any isBlank = false) : ∀ c ∈ s, isBlank c = false := by
  intro c hc
  rw [List.any_eq_false] at h
  exact Bool.not_eq_true _ ▸ h c hc

theorem fieldsFrom_free {s : Text} (h : ∀ c ∈ s, isBlank c = false) (word rest : Text) :
    fieldsFrom word (s ++ rest) = fieldsFrom (word ++ s) rest := by
  induction s generalizing word with
  | nil => rw [List.append_nil, List.nil_append]
  | cons c s ih =>
    have hc := h c List.mem_cons_self
    rw [List.cons_append, fieldsFrom, hc, if_neg Bool.false_ne_true,
      ih (fun d hd => h d (List.mem_cons_of_mem c hd)), List.append_assoc, List.singleton_append]

theorem fieldsFrom_blanks {s : Text} (h : ∀ c ∈ s, isBlank c = true) (rest : Text) :
    fieldsFrom [] (s ++ rest) = fieldsFrom [] rest := by
  induction s with
  | nil => rfl
  | cons c s ih =>
    rw [List.cons_append, fieldsFrom, if_pos (h c List.mem_cons_self)]
    exact ih (fun d hd => h d (List.mem_cons_of_mem c hd))

theorem fieldsFrom_word {w : Text} (hw : IsWord w) : fieldsFrom [] w = [w] := by
  have hfree := fieldsFrom_free hw.2 [] []
  rw [List.append_nil, List.nil_append] at hfree
  rw [hfree, fieldsFrom, if_neg]
  rw [List.isEmpty_iff]
  exact hw.1

/-- A word, at least one blank, and what stands behind them. -/
theorem fieldsFrom_word_blanks {w blanks : Text} (hw : IsWord w) (hne : blanks ≠ [])
    (hb : ∀ c ∈ blanks, isBlank c = true) (rest : Text) :
    fieldsFrom [] (w ++ blanks ++ rest) = w :: fieldsFrom [] rest := by
  obtain ⟨b, blanks, rfl⟩ := List.exists_cons_of_ne_nil hne
  rw [List.append_assoc, fieldsFrom_free hw.2, List.nil_append, List.cons_append, fieldsFrom,
    if_pos (hb b List.mem_cons_self), if_neg]
  · rw [fieldsFrom_blanks (fun c hc => hb c (List.mem_cons_of_mem b hc))]
  · rw [List.isEmpty_iff]
    exact hw.1

theorem isWord_of_mem_fieldsFrom {word line w : Text} (hword : ∀ c ∈ word, isBlank c = false)
    (h : w ∈ fieldsFrom word line) : IsWord w := by
  induction line generalizing word with
  | nil =>
    rw [fieldsFrom] at h
    split at h
    · cases h
    · rename_i hne
      rw [List.isEmpty_iff] at hne
      obtain rfl := List.mem_singleton.mp h
      exact ⟨hne, hword⟩
  | cons c line ih =>
    have hnil : ∀ d ∈ ([] : Text), isBlank d = false := nofun
    rw [fieldsFrom] at h
    split at h
    · split at h
      · exact ih hnil h
      · rename_i hne
        rw [List.isEmpty_iff] at hne
        rcases List.mem_cons.mp h with rfl | h
        · exact ⟨hne, hword⟩
        · exact ih hnil h
    · rename_i hc
      apply ih ?_ h
      intro d hd
      rcases List.mem_append.mp hd with hd | hd
      · exact hword d hd
      · obtain rfl := List.mem_singleton.mp hd
        exact Bool.not_eq_true _ ▸ hc

end Fields

/-- `printf "%-ws"`. -/
def padRight (w : ℕ) (s : Text) : Text := s ++ List.replicate (w-s.length) ' '

def decimal (n : ℕ) : Text := Nat.toDigits 10 n

theorem decimal_injective : Function.Injective decimal := by
  intro m n h
  have hm := Nat.ofDigitChars_ten_toDigits (n := m)
  rw [show Nat.toDigits 10 m = Nat.toDigits 10 n from h, Nat.ofDigitChars_ten_toDigits] at hm
  exact hm.symm

theorem isDigit_of_mem_decimal {n : ℕ} {c : Char} (h : c ∈ decimal n) : c.isDigit = true :=
  Nat.isDigit_of_mem_toDigits (by decide) (by decide) h

end YuToolbox.Awk
