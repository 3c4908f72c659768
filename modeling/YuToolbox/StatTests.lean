import YuToolbox.ByteBuffer
import YuToolbox.LineReader

/-! `show_one_info` of `pid_status.c` prints the lines of a file that contain a string. It
sees a line in pieces of 1023 bytes, and decides about each piece on its own. -/
namespace YuToolbox.StatTests

open ByteBuffer LineReader

def newline : UInt8 := 10

def ascii (s : String) : Bytes := s.toList.map (fun c => UInt8.ofNat c.toNat)

/-- `debug_print`, with what its stream prints. -/
def debugPrint (level : String) (pid tid : ℕ) (stream : Bytes) : Bytes :=
  ascii "[" ++ ascii level ++ ascii "](pid=" ++ ascii (Nat.repr pid) ++ ascii " tid=" ++
    ascii (Nat.repr tid) ++ ascii "): " ++ stream

/-- `strstr`: the string from the first occurrence on. -/
def strstr : Bytes → Bytes → Option Bytes
  | [], str => if str = [] then some [] else none
  | c :: line, str =>
    if str.isPrefixOf (c :: line) then some (c :: line) else strstr line str

def matchLine (line str : Bytes) : ℕ := if (strstr line str).isSome then 1 else 0

/-- What `MATCH_LINE` prints. -/
def printMatch (matchFunc : Option (Bytes → Bytes → ℕ)) (line str : Bytes) : Bytes :=
  match matchFunc with
  | none => line
  | some f => if f line str ≠ 0 then line else []

def bufSize : ℕ := 1024

/-- `fgets`: a NUL behind the bytes read, and the rest of the buffer as it was; `none` at the
end of the file. -/
def fgets (buf : Bytes) (size : ℕ) (fp : Bytes) : Option (Bytes × Bytes) :=
  match fp with
  | [] => none
  | c :: s =>
    let (piece, rest) := cutPiece newline (size-1) (c :: s)
    some (piece ++ 0 :: buf.drop (piece.length+1), rest)

/-- The loop of `show_one_info`; `none` when the fuel ends first or a string has no end. -/
def showLoop (matchFunc : Option (Bytes → Bytes → ℕ)) (str : Bytes) :
    ℕ → Bytes → Bytes → Option Bytes
  | 0, _, _ => none
  | fuel+1, buf, fp =>
    match fgets buf bufSize fp with
    | none => some []
    | some (buf, fp) => do
      let line ← cstring buf
      let rest ← showLoop matchFunc str fuel (List.replicate bufSize 0) fp
      some (printMatch matchFunc line str ++ rest)

/-- The header of `show_one_info`. -/
def checking (f : Bytes) (pid tid : ℕ) : Bytes :=
  debugPrint "INFO" pid tid (ascii "checking " ++ f ++ ascii "\n")

/-- What `show_one_info` writes to its standard output; `fp` is the content of the file, if it
can be opened. A name with a percent sign would be taken for a format. -/
def showOneInfo (fp : Option Bytes) (f : Bytes) (matchFunc : Option (Bytes → Bytes → ℕ))
    (str : Bytes) (pid tid fuel : ℕ) : Option Bytes :=
  match fp with
  | none => if 37 ∈ f then none else some (debugPrint "ERROR" pid tid f)
  | some content =>
    (showLoop matchFunc str fuel (List.replicate bufSize 0) content).map (checking f pid tid ++ ·)

/-- The header and the lines with the string, each whole. -/
def FilterLaw (content f str : Bytes) (pid tid : ℕ) : Prop :=
  ∀ fuel, content.length < fuel →
    showOneInfo (some content) f (some matchLine) str pid tid fuel =
      some (checking f pid tid ++
        ((linesOf newline content).filter (fun l => decide (str <:+: l))).flatten)

theorem strstr_isSome_iff (line str : Bytes) : (strstr line str).isSome ↔ str <:+: line := by
  induction line with
  | nil =>
    rw [strstr, Option.isSome_ite, List.infix_nil]
  | cons c line ih =>
    rw [strstr, List.infix_cons_iff, ← ih, ← List.isPrefixOf_iff_prefix]
    split <;> simp_all

theorem printMatch_matchLine (line str : Bytes) :
    printMatch (some matchLine) line str = if str <:+: line then line else [] := by
  have hiff := strstr_isSome_iff line str
  by_cases h : str <:+: line
  · rw [printMatch, matchLine, if_pos (hiff.mpr h), if_pos h]
    rfl
  · rw [printMatch, matchLine, if_neg (fun hs => h (hiff.mp hs)), if_neg h]
    rfl

/-- The loop ends, and prints of each piece what `MATCH_LINE` says. -/
theorem showLoop_eq (matchFunc : Option (Bytes → Bytes → ℕ)) (str : Bytes) {fp : Bytes}
    (hnul : NulFree fp) {fuel : ℕ} (hfuel : fp.length < fuel) (buf : Bytes) :
    showLoop matchFunc str fuel buf fp =
      some ((pieces newline 1023 fp).flatMap (fun p => printMatch matchFunc p str)) := by
  induction fuel generalizing fp buf with
  | zero => omega
  | succ fuel ih =>
    cases fp with
    | nil => rfl
    | cons c s =>
      let piece := (cutPiece newline 1023 (c :: s)).1
      let rest := (cutPiece newline 1023 (c :: s)).2
      have hcut : piece ++ rest = c :: s := flatten_cutPiece newline 1023 (c :: s)
      have hpieces : pieces newline 1023 (c :: s) = piece :: pieces newline 1023 rest :=
        piecesFrom_cutPiece newline 1023 1022 c s
      have hread : fgets buf bufSize (c :: s) =
          some (piece ++ 0 :: buf.drop (piece.length+1), rest) := rfl
      have hline : NulFree piece := fun d hd => hnul d (hcut ▸ List.mem_append_left rest hd)
      have hrest : NulFree rest := fun d hd => hnul d (hcut ▸ List.mem_append_right piece hd)
      -- each read takes at least one byte
      have hpiece : piece ≠ [] := by
        intro hnil
        have hmem := nil_not_mem_piecesFrom newline 1023 1023 (c :: s)
        rw [← pieces, hpieces, hnil] at hmem
        exact hmem List.mem_cons_self
      have hshort : rest.length < fuel := by
        have hlen := congrArg List.length hcut
        have hpos := List.length_pos_of_ne_nil hpiece
        rw [List.length_append] at hlen
        omega
      simp only [showLoop, hread, cstring_terminated hline, ih hrest hshort, hpieces,
        Option.bind_eq_bind, Option.bind_some, List.flatMap_cons]

/-- Without a match function the file is printed as it is. -/
theorem showOneInfo_all {content : Bytes} (hnul : NulFree content) (f str : Bytes)
    (pid tid : ℕ) {fuel : ℕ} (hfuel : content.length < fuel) :
    showOneInfo (some content) f none str pid tid fuel = some (checking f pid tid ++ content) := by
  have hall : (pieces newline 1023 content).flatMap (fun p => printMatch none p str) = content := by
    calc (pieces newline 1023 content).flatMap (fun p => printMatch none p str)
        = (pieces newline 1023 content).flatten := List.flatMap_id
      _ = content := flatten_piecesFrom newline 1023 1023 content
  rw [showOneInfo, showLoop_eq none str hnul hfuel, hall, Option.map_some]

section Law

variable (str : Bytes)

/-- A piece that contains the string is printed. -/
def keep (p : Bytes) : Bytes := if str <:+: p then p else []

theorem length_keep_le (p : Bytes) : (keep str p).length ≤ p.length := by
  rw [keep]
  split <;> simp

theorem keep_eq_iff {p : Bytes} (hne : p ≠ []) : keep str p = p ↔ str <:+: p := by
  rw [keep]
  split
  · exact iff_of_true rfl ‹_›
  · exact iff_of_false (Ne.symm hne) ‹_›

/-- What is printed of one line. -/
def printedOf (l : Bytes) : Bytes := (pieces newline 1023 l).flatMap (keep str)

theorem flatMap_pieces (l : Bytes) : (pieces newline 1023 l).flatMap id = l := by
  rw [List.flatMap_id]
  exact flatten_piecesFrom newline 1023 1023 l

/-- A line is printed in full when it has the string in each of its blocks. -/
theorem printedOf_eq_iff {l : Bytes} (hl : newline ∉ l.dropLast) :
    printedOf str l = l ↔ ∀ i, 1023*i < l.length → str <:+: block 1023 i l := by
  have hparts : printedOf str l = l ↔ ∀ p ∈ pieces newline 1023 l, keep str p = p := by
    have hle : ∀ p ∈ pieces newline 1023 l, (keep str p).length ≤ (id p).length :=
      fun p _ => length_keep_le str p
    have hiff := flatMap_eq_flatMap_iff hle
    rwa [flatMap_pieces] at hiff
  have hkept : ∀ p ∈ pieces newline 1023 l, (keep str p = p ↔ str <:+: p) := by
    intro p hp
    apply keep_eq_iff
    rintro rfl
    exact nil_not_mem_piecesFrom newline 1023 1023 l hp
  rw [hparts]
  constructor
  · intro h i hi
    have hmem := (mem_pieces_line newline (by decide) hl).mpr ⟨i, hi, rfl⟩
    exact (hkept _ hmem).mp (h _ hmem)
  · intro h p hp
    obtain ⟨i, hi, rfl⟩ := (mem_pieces_line newline (by decide) hl).mp hp
    exact (hkept _ hp).mpr (h i hi)

/-- Of a line without the string nothing is printed. -/
theorem printedOf_eq_nil {l : Bytes} (h : ¬ str <:+: l) : printedOf str l = [] := by
  apply List.flatMap_eq_nil_iff.mpr
  intro p hp
  apply if_neg
  intro hstr
  have hflat := flatten_piecesFrom newline 1023 1023 l
  exact h (hstr.trans (hflat ▸ List.infix_of_mem_flatten hp))

theorem length_printedOf_le (l : Bytes) : (printedOf str l).length ≤ (keep str l).length := by
  rw [keep]
  split
  · have hle : ∀ p ∈ pieces newline 1023 l, (keep str p).length ≤ (id p).length :=
      fun p _ => length_keep_le str p
    have hflat := length_flatMap_le hle
    rwa [flatMap_pieces] at hflat
  · rw [printedOf_eq_nil str ‹_›]

theorem flatMap_printedOf_iff (content : Bytes) :
    (linesOf newline content).flatMap (printedOf str) =
        (linesOf newline content).flatMap (keep str) ↔
      ∀ l ∈ linesOf newline content, str <:+: l →
        ∀ i, 1023*i < l.length → str <:+: block 1023 i l := by
  rw [flatMap_eq_flatMap_iff (fun l _ => length_printedOf_le str l)]
  have hline (l : Bytes) (hl : l ∈ linesOf newline content) : printedOf str l = keep str l ↔
      (str <:+: l → ∀ i, 1023*i < l.length → str <:+: block 1023 i l) := by
    rw [← printedOf_eq_iff str (line_of_mem_linesOf newline hl).2, keep]
    split
    · exact ⟨fun h _ => h, fun h => h ‹_›⟩
    · exact iff_of_true (printedOf_eq_nil str ‹_›) (fun h => absurd h ‹_›)
  exact forall₂_congr hline

theorem flatten_filter (ls : List Bytes) :
    (ls.filter (fun l => decide (str <:+: l))).flatten = ls.flatMap (keep str) := by
  induction ls with
  | nil => rfl
  | cons l ls ih =>
    rw [List.filter_cons, List.flatMap_cons, ← ih, keep]
    by_cases h : str <:+: l
    · rw [if_pos h, if_pos (decide_eq_true h), List.flatten_cons]
    · rw [if_neg h, if_neg (by simpa using h), List.nil_append]

/-- The output, piece by piece. -/
theorem showOneInfo_eq {content : Bytes} (hnul : NulFree content) (f : Bytes) (pid tid : ℕ)
    {fuel : ℕ} (hfuel : content.length < fuel) :
    showOneInfo (some content) f (some matchLine) str pid tid fuel =
      some (checking f pid tid ++ (linesOf newline content).flatMap (printedOf str)) := by
  have hpieces :
      (pieces newline 1023 content).flatMap (fun p => printMatch (some matchLine) p str) =
        (linesOf newline content).flatMap (printedOf str) := by
    simp only [printMatch_matchLine]
    rw [pieces_eq_flatMap, List.flatMap_assoc]
    rfl
  rw [showOneInfo, showLoop_eq _ str hnul hfuel, hpieces, Option.map_some]

theorem filterLaw_iff_printedOf {content : Bytes} (hnul : NulFree content) (f : Bytes)
    (pid tid : ℕ) : FilterLaw content f str pid tid ↔
      (linesOf newline content).flatMap (printedOf str) =
        (linesOf newline content).flatMap (keep str) := by
  rw [FilterLaw, flatten_filter]
  constructor
  · intro h
    have hout := h (content.length+1) (Nat.lt_succ_self _)
    rw [showOneInfo_eq str hnul f pid tid (Nat.lt_succ_self _)] at hout
    exact List.append_cancel_left (Option.some.inj hout)
  · intro h fuel hfuel
    rw [showOneInfo_eq str hnul f pid tid hfuel, h]

/-- The output is right exactly when every line with the string has it in each block of 1023
bytes. -/
theorem filterLaw_iff {content : Bytes} (hnul : NulFree content) (f : Bytes) (pid tid : ℕ) :
    FilterLaw content f str pid tid ↔ ∀ l ∈ linesOf newline content, str <:+: l →
      ∀ i, 1023*i < l.length → str <:+: block 1023 i l := by
  rw [filterLaw_iff_printedOf str hnul f pid tid, flatMap_printedOf_iff]

end Law

/-- The file `a`, with the line `ab`. -/
theorem filterLaw_iff_short : FilterLaw [97, 98, 10] [97] [98] 1 1 ↔
    ∀ l ∈ linesOf newline [97, 98, 10], [98] <:+: l →
      ∀ i, 1023*i < l.length → [98] <:+: block 1023 i l :=
  filterLaw_iff [98] (by decide) [97] 1 1

/-- An `a` and 1023 times a `b`: the last `b` is a piece without an `a`. -/
def longLine : Bytes := 97 :: List.replicate 1023 98

theorem not_filterLaw_longLine : NulFree longLine ∧ ¬ FilterLaw longLine [97] [97] 1 1 := by
  have hmem : ∀ c ∈ longLine, c = 97 ∨ c = 98 := by
    intro c hc
    exact (List.mem_cons.mp hc).imp_right List.eq_of_mem_replicate
  have hnul : NulFree longLine := by
    intro c hc
    rcases hmem c hc with rfl | rfl <;> decide
  have hline : newline ∉ longLine.dropLast := by
    intro hn
    rcases hmem newline (List.mem_of_mem_dropLast hn) with h | h <;> exact absurd h (by decide)
  refine ⟨hnul, fun hlaw => ?_⟩
  have hblocks := (flatMap_printedOf_iff [97] longLine).mp
    ((filterLaw_iff_printedOf [97] hnul [97] 1 1).mp hlaw)
  have hne : longLine ≠ [] := List.cons_ne_nil _ _
  rw [linesOf_line newline hne hline] at hblocks
  have hfirst : [97] <:+: longLine := List.IsPrefix.isInfix ⟨_, rfl⟩
  have hlen : longLine.length = 1024 := by
    rw [longLine, List.length_cons, List.length_replicate]
  have hlast := hblocks longLine List.mem_cons_self hfirst 1 (by omega)
  have hblock : block 1023 1 longLine = [98] := by
    rw [block, longLine, Nat.mul_one, List.drop_succ_cons, List.drop_replicate]
    rfl
  rw [hblock] at hlast
  exact absurd hlast (by decide)

end YuToolbox.StatTests
