import Mathlib.Data.List.DropRight
import YuToolbox.AwkText
import YuToolbox.DigitGroups

/-! `cpumask_sep.sh`: commas for a mask of CPUs, as the kernel reads it in groups of 32 bits. -/
namespace YuToolbox.CpumaskSep

open Awk DigitGroups

/-- `for (i=1; i<=NF; i++)`, with the number of rounds that are left. With `FS=""` every letter
is a field. -/
def loop (fields : Text) : ℕ → ℕ → Text
  | 0, _ => []
  | rounds+1, i =>
    (fields[i-1]?).toList ++
      (if (fields.length-i)%8 = 0 ∧ i ≠ fields.length then ",".toList else []) ++
      loop fields rounds (i+1)

/-- The awk program on one record, with the newline of its `END`. -/
def awkProgram (record : Text) : Text := printLine (loop record record.length 1)

/-- `$(...)`. -/
def commandSubstitution (output : Text) : Text := output.rdropWhile (· == '\n')

/-- `echo $x` prints the words of the text with one blank between them. -/
def echoWords (text : Text) : Text := List.intercalate " ".toList (fieldsFrom [] text)

/-- The script with its first argument, empty if there is none. -/
def cpumaskSep (arg : Text) : Text :=
  let packageCpusMask := if arg = [] then "1f0fff000".toList else arg
  let packageCpusMask := commandSubstitution (awkProgram (echoWords packageCpusMask))
  printLine (echoWords packageCpusMask)

def hexDigits : Text := "0123456789abcdefABCDEF".toList

def hexDigitValue (c : Char) : ℕ :=
  if c.toNat ≤ '9'.toNat then c.toNat - '0'.toNat
  else if c.toNat ≤ 'F'.toNat then c.toNat - 'A'.toNat + 10
  else c.toNat - 'a'.toNat + 10

def hexValue (s : Text) : ℕ := value hexDigitValue 16 s

/-- The groups between the commas, each with 32 bits. -/
def readCpumask (text : Text) : ℕ := value hexValue (2^32) (text.splitOn ',')

theorem intercalate_consHead (sep : Text) (c : Char) (ps : List Text) :
    List.intercalate sep (LineReader.consHead c ps) = c :: List.intercalate sep ps := by
  rcases ps with _ | ⟨p, _ | ⟨q, ps⟩⟩
  · rfl
  · simp [LineReader.consHead]
  · simp [LineReader.consHead, List.intercalate_cons_cons]

/-- The commas stand between the groups that are counted from the right. -/
theorem loop_eq (fields : Text) (rounds i : ℕ) (hi : 0 < i)
    (h : (fields.drop (i-1)).length = rounds) :
    loop fields rounds i = List.intercalate ",".toList (groups 8 (fields.drop (i-1))) := by
  induction rounds generalizing i with
  | zero =>
    rw [List.length_eq_zero_iff.mp h]
    rfl
  | succ rounds ih =>
    have hlt : i-1 < fields.length := by
      rw [List.length_drop] at h
      omega
    have hdrop : fields.drop (i-1) = fields[i-1] :: fields.drop i := by
      rw [List.drop_eq_getElem_cons hlt, Nat.sub_add_cancel hi]
    rw [hdrop, List.length_cons] at h
    have hrest := ih (i+1) (Nat.succ_pos i) (Nat.succ.inj h)
    rw [Nat.add_sub_cancel] at hrest
    rw [loop, hrest, hdrop, groups, List.getElem?_eq_getElem hlt, List.length_drop]
    by_cases hfull : (fields.length-i)%8 = 0
    · rw [if_pos hfull]
      by_cases hend : i = fields.length
      · rw [if_neg (fun h => h.2 hend), List.drop_of_length_le (Nat.le_of_eq hend.symm)]
        simp [groups]
      · rw [if_pos ⟨hfull, hend⟩]
        -- there are letters left, so there is a group for the comma to stand before
        have hne : fields.drop i ≠ [] := by
          rw [List.ne_nil_iff_length_pos, List.length_drop]
          omega
        obtain ⟨g, gs, hgroups, -⟩ := groups_shape (by decide : 0 < 8) hne
        rw [hgroups, List.intercalate_cons_cons]
        rfl
    · rw [if_neg (fun h => hfull h.1), if_neg hfull, intercalate_consHead]
      rfl

theorem awkProgram_eq (record : Text) :
    awkProgram record = printLine (List.intercalate ",".toList (groups 8 record)) :=
  congrArg printLine (loop_eq record record.length 1 Nat.one_pos rfl)

theorem echoWords_word {w : Text} (hw : IsWord w) : echoWords w = w := by
  rw [echoWords, fieldsFrom_word hw, List.intercalate_singleton]

/-- The command substitution takes the newline away again. -/
theorem commandSubstitution_word {w : Text} (hw : IsWord w) :
    commandSubstitution (printLine w) = w := by
  have hlast : List.rdropWhile (· == '\n') w = w := by
    rw [List.rdropWhile_eq_self_iff]
    intro hne hnl
    have hblank := hw.2 _ (List.getLast_mem hne)
    rw [beq_iff_eq.mp hnl] at hblank
    exact absurd hblank (by decide)
  calc
    commandSubstitution (printLine w) = List.rdropWhile (· == '\n') w :=
      List.rdropWhile_concat_pos _ _ _ rfl
    _ = w := hlast

theorem mem_intercalate {c : Char} {ps : List Text} (h : c ∈ List.intercalate ",".toList ps) :
    c = ',' ∨ c ∈ ps.flatten := by
  induction ps with
  | nil => exact absurd h List.not_mem_nil
  | cons p ps ih =>
    cases ps with
    | nil =>
      rw [List.intercalate_singleton] at h
      exact Or.inr (List.mem_flatten_of_mem List.mem_cons_self h)
    | cons q ps =>
      rw [List.intercalate_cons_cons, List.mem_append, List.mem_append] at h
      rw [List.flatten_cons, List.mem_append]
      rcases h with (h | h) | h
      · exact Or.inr (Or.inl h)
      · exact Or.inl (List.mem_singleton.mp h)
      · rcases ih h with h | h
        · exact Or.inl h
        · exact Or.inr (Or.inr h)

theorem isBlank_of_mem_hexDigits {c : Char} (h : c ∈ hexDigits) : isBlank c = false :=
  isBlank_of_any (by decide) c h

/-- The groups are full but the first, they are the digits of the argument, and the kernel reads
the number that the argument denotes. -/
theorem cpumaskSep_groups (s : Text) (hne : s ≠ []) (hhex : ∀ c ∈ s, c ∈ hexDigits) :
    ∃ first rest, cpumaskSep s = printLine (List.intercalate ",".toList (first :: rest)) ∧
      (first :: rest).flatten = s ∧ 1 ≤ first.length ∧ first.length ≤ 8 ∧
      (∀ group ∈ rest, group.length = 8) ∧
      readCpumask (List.intercalate ",".toList (first :: rest)) = hexValue s := by
  obtain ⟨first, rest, hgroups, hfirst, hrest⟩ := groups_shape (by decide : 0 < 8) hne
  have hflat := flatten_groups 8 s
  rw [hgroups] at hflat
  have hmod := Nat.mod_lt (s.length-1) (by decide : 0 < 8)
  refine ⟨first, rest, ?_, hflat, by omega, by omega, hrest, ?_⟩
  · have hin : IsWord s := ⟨hne, fun c hc => isBlank_of_mem_hexDigits (hhex c hc)⟩
    have hout : IsWord (List.intercalate ",".toList (first :: rest)) := by
      refine ⟨?_, ?_⟩
      · obtain ⟨c, letters, hcons⟩ : ∃ c letters, first = c :: letters := by
          apply List.exists_cons_of_length_pos
          omega
        rw [hcons]
        exact (intercalate_consHead ",".toList c (letters :: rest)) ▸ List.cons_ne_nil _ _
      · intro c hc
        rcases mem_intercalate hc with rfl | hc
        · rfl
        · rw [hflat] at hc
          exact isBlank_of_mem_hexDigits (hhex c hc)
    rw [cpumaskSep, if_neg hne]
    simp only [echoWords_word hin, awkProgram_eq, hgroups, commandSubstitution_word hout,
      echoWords_word hout]
  · have hcomma : ∀ group ∈ first :: rest, ',' ∉ group := by
      intro group hgroup hc
      have hmem : ',' ∈ s := by
        rw [← hflat]
        exact List.mem_flatten_of_mem hgroup hc
      exact absurd (hhex _ hmem) (by decide)
    calc
      readCpumask (List.intercalate ",".toList (first :: rest)) =
          value hexValue (2^32) (first :: rest) :=
        congrArg _ (List.splitOn_intercalate ',' hcomma (List.cons_ne_nil _ _))
      _ = value hexValue (16^8) (first :: rest) := rfl
      _ = hexValue s := (value_flatten hexDigitValue 16 first hrest).trans (congrArg _ hflat)

theorem cpumaskSep_groups_nine : ∃ first rest,
    cpumaskSep "1f0fff000".toList = printLine (List.intercalate ",".toList (first :: rest)) ∧
      (first :: rest).flatten = "1f0fff000".toList ∧ 1 ≤ first.length ∧ first.length ≤ 8 ∧
      (∀ group ∈ rest, group.length = 8) ∧
      readCpumask (List.intercalate ",".toList (first :: rest)) = hexValue "1f0fff000".toList := by
  have hhex : "1f0fff000".toList.all (fun c => decide (c ∈ hexDigits)) = true := by decide
  exact cpumaskSep_groups "1f0fff000".toList (by decide)
    (fun c hc => of_decide_eq_true (List.all_eq_true.mp hhex c hc))

example : cpumaskSep [] = "1,f0fff000\n".toList := by decide

end YuToolbox.CpumaskSep
