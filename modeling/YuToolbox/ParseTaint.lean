import Mathlib.Algebra.Order.Ring.Int
import Mathlib.Data.List.Forall2
import Mathlib.Data.List.TakeWhile
import YuToolbox.AwkText

/-! `parse_taint.sh`: the set bits of the kernel's taint value, one line for each, and the sum that
is taken over these lines again. -/
namespace YuToolbox.ParseTaint

open Awk

def taintMask : List Text :=
  ["P  (G=Gnu)TAINT_PROPRIETARY_MODULE".toList,
   "F  TAINT_FORCED_MODULE".toList,
   "S  TAINT_UNSAFE_SMP".toList,
   "R  TAINT_FORCED_RMMOD".toList,
   "M  TAINT_MACHINE_CHECK".toList,
   "B  TAINT_BAD_PAGE".toList,
   "U  TAINT_USER".toList,
   "D  TAINT_DIE".toList,
   "A  TAINT_OVERRIDDEN_ACPI_TABLE".toList,
   "W  TAINT_WARN".toList,
   "C TAINT_CRAP".toList,
   "I TAINT_FIRMWARE_WORKAROUND".toList,
   "O TAINT_OOT_MODULE [RHEL7 ONLY]".toList,
   "E TAINT_UNSIGNED_MODULE".toList,
   "L TAINT_SOFTLOCKUP".toList,
   "K TAINT_LIVEPATCH".toList,
   "? TAINT_16".toList,
   "? TAINT_17".toList,
   "? TAINT_18".toList,
   "? TAINT_19".toList,
   "? TAINT_20".toList,
   "? TAINT_21".toList,
   "? TAINT_22".toList,
   "? TAINT_23".toList,
   "? TAINT_24".toList,
   "? TAINT_25".toList,
   "? TAINT_26".toList,
   "? TAINT_BIT_BY_ZOMBIE".toList,
   "H TAINT_HARDWARE_UNSUPPORTED".toList,
   "T TAINT_TECH_PREVIEW".toList,
   "? TAINT_RESERVED30".toList,
   "? TAINT_RESERVED31".toList]

/-- A number of the shell, which has 64 bits and a sign. -/
def decimalInt : ℤ → Text
  | .ofNat n => decimal n
  | .negSucc n => '-' :: decimal (n+1)

/-- What `parse_taint` hands to awk. -/
def echoLine (mask : ℕ) : Text :=
  "bit".toList ++ decimal mask ++ ":         ".toList ++ decimalInt (1#64 <<< mask).toInt ++
    "            ".toList ++ taintMask.getD mask []

/-- `printf "%-7s %-13s %-5s %s\n"`, whose last two arguments have no place in the format. -/
def awkLine (line : Text) : Text :=
  padRight 7 (field 1 line) ++ " ".toList ++ padRight 13 (field 2 line) ++ " ".toList ++
    padRight 5 (field 3 line) ++ " ".toList ++ field 4 line

/-- The lines that `parse_taint` writes, which are also those of the file TAINT. -/
def parseTaint (taintVal : BitVec 64) : List Text :=
  ("Input: ".toList ++ decimalInt taintVal.toInt ++ " ...".toList) ::
    (List.range taintMask.length).flatMap (fun mask =>
      if 1#64 <<< mask &&& taintVal ≠ 0 then [awkLine (echoLine mask)] else [])

/-- The number a field is for awk; the fields that are added have only digits. -/
def number (text : Text) : ℕ := Nat.ofDigitChars 10 (text.takeWhile Char.isDigit) 0

def awkSum (records : List Text) : Text :=
  decimal (records.foldl (fun sum record => sum + number (field 2 record)) 0)

def script (taintVal : BitVec 64) : List Text :=
  let taint := parseTaint taintVal
  -- `sed '1d'` takes the line with the input away
  taint ++ ["Sum: ".toList ++ awkSum (taint.drop 1)]

def label (mask : ℕ) : Text := "bit".toList ++ decimal mask ++ ":".toList

section Lines

theorem isBlank_of_isDigit {c : Char} (h : c.isDigit = true) : isBlank c = false := by
  unfold isBlank
  have hne : ∀ d : Char, d.isDigit = false → (c == d) = false := by
    intro d hd
    rw [beq_eq_false_iff_ne]
    rintro rfl
    rw [hd] at h
    cases h
  rw [hne ' ' rfl, hne '\t' rfl, hne '\n' rfl]
  rfl

theorem isBlank_of_mem_decimal {n : ℕ} {c : Char} (h : c ∈ decimal n) : isBlank c = false :=
  isBlank_of_isDigit (isDigit_of_mem_decimal h)

theorem isWord_decimal (n : ℕ) : IsWord (decimal n) := by
  refine ⟨?_, fun c hc => isBlank_of_mem_decimal hc⟩
  exact Nat.toDigits_ne_nil

theorem isWord_label (mask : ℕ) : IsWord (label mask) := by
  refine ⟨by simp [label], ?_⟩
  intro c hc
  rw [label, List.mem_append, List.mem_append] at hc
  rcases hc with (hc | hc) | hc
  · exact isBlank_of_any (by decide) c hc
  · exact isBlank_of_mem_decimal hc
  · exact isBlank_of_any (by decide) c hc

theorem toInt_shiftLeft {mask : ℕ} (h : mask < 32) :
    decimalInt (1#64 <<< mask).toInt = decimal (2^mask) := by
  have htwo : (1#64 <<< mask).toInt = 2^mask := by
    rw [← BitVec.twoPow_eq, BitVec.toInt_twoPow, if_neg (by omega), if_neg (by omega)]
  rw [htwo]
  rfl

theorem fields_echoLine {mask : ℕ} (h : mask < 32) :
    fieldsFrom [] (echoLine mask) =
      label mask :: decimal (2^mask) :: fieldsFrom [] (taintMask.getD mask []) := by
  have hline : echoLine mask = label mask ++ "         ".toList ++
      (decimal (2^mask) ++ "            ".toList ++ taintMask.getD mask []) := by
    have hecho : echoLine mask = "bit".toList ++ decimal mask ++ ":         ".toList ++
        decimalInt (1#64 <<< mask).toInt ++ "            ".toList ++ taintMask.getD mask [] := rfl
    have hcolon : ":         ".toList = ":".toList ++ "         ".toList := rfl
    rw [hecho, toInt_shiftLeft h, hcolon, label]
    simp only [List.append_assoc]
  have hnine : ∀ c ∈ "         ".toList, isBlank c = true := List.all_eq_true.mp (by decide)
  have htwelve : ∀ c ∈ "            ".toList, isBlank c = true := List.all_eq_true.mp (by decide)
  rw [hline, fieldsFrom_word_blanks (isWord_label mask) (by decide) hnine,
    fieldsFrom_word_blanks (isWord_decimal _) (by decide) htwelve]

/-- A word that is padded, and one more blank. -/
theorem fieldsFrom_padRight {w : Text} (hw : IsWord w) (width : ℕ) (rest : Text) :
    fieldsFrom [] (padRight width w ++ " ".toList ++ rest) = w :: fieldsFrom [] rest := by
  rw [padRight, List.append_assoc w]
  apply fieldsFrom_word_blanks hw
  · simp
  · intro c hc
    rcases List.mem_append.mp hc with hc | hc
    · rw [List.eq_of_mem_replicate hc]
      rfl
    · rw [List.mem_singleton.mp hc]
      rfl

theorem fields_awkLine {line w₁ w₂ w₃ w₄ : Text} {more : List Text}
    (h : fieldsFrom [] line = w₁ :: w₂ :: w₃ :: w₄ :: more) :
    fieldsFrom [] (awkLine line) = [w₁, w₂, w₃, w₄] := by
  have hword : ∀ w ∈ [w₁, w₂, w₃, w₄], IsWord w := by
    intro w hw
    have hmem : w ∈ fieldsFrom [] line := by
      rw [h]
      exact List.mem_append_left more hw
    exact isWord_of_mem_fieldsFrom (List.forall_mem_nil _) hmem
  have hline : awkLine line = padRight 7 w₁ ++ " ".toList ++
      (padRight 13 w₂ ++ " ".toList ++ (padRight 5 w₃ ++ " ".toList ++ w₄)) := by
    simp only [awkLine, field, h, List.append_assoc]
    rfl
  rw [hline, fieldsFrom_padRight (hword w₁ (by simp)), fieldsFrom_padRight (hword w₂ (by simp)),
    fieldsFrom_padRight (hword w₃ (by simp)), fieldsFrom_word (hword w₄ (by simp))]

/-- Every mask has a letter and a name. -/
theorem two_fields_taintMask {mask : ℕ} (h : mask < 32) :
    2 ≤ (fieldsFrom [] (taintMask.getD mask [])).length := by
  have hall : ∀ i : Fin 32, 2 ≤ (fieldsFrom [] (taintMask.getD i [])).length := by
    decide +kernel
  exact hall ⟨mask, h⟩

end Lines

section Bits

variable (v : BitVec 64)

/-- `(( ((1<<mask)) & taint_val ))`. -/
theorem test_iff {mask : ℕ} (h : mask < 32) :
    1#64 <<< mask &&& v ≠ 0 ↔ v.getLsbD mask = true := by
  rw [← BitVec.twoPow_eq, BitVec.twoPow_and]
  cases hbit : v.getLsbD mask
  · simp
  · simp only [if_true, ne_eq, iff_true]
    intro hzero
    have hnat := congrArg BitVec.toNat hzero
    rw [BitVec.toNat_twoPow_of_lt (by omega)] at hnat
    exact absurd hnat (Nat.ne_of_gt (Nat.two_pow_pos mask))

def setBits (n : ℕ) (v : BitVec 64) : List ℕ := (List.range n).filter (fun i => v.getLsbD i)

theorem parseTaint_eq : parseTaint v = ("Input: ".toList ++ decimalInt v.toInt ++ " ...".toList) ::
    (setBits 32 v).map (fun mask => awkLine (echoLine mask)) := by
  have hlines : ∀ masks : List ℕ, (∀ mask ∈ masks, mask < 32) →
      masks.flatMap (fun mask =>
        if 1#64 <<< mask &&& v ≠ 0 then [awkLine (echoLine mask)] else []) =
      (masks.filter (fun i => v.getLsbD i)).map (fun mask => awkLine (echoLine mask)) := by
    intro masks hmasks
    induction masks with
    | nil => rfl
    | cons mask masks ih =>
      have hrest := ih (fun m hm => hmasks m (List.mem_cons_of_mem mask hm))
      have htest := test_iff v (hmasks mask List.mem_cons_self)
      rw [List.flatMap_cons, hrest, List.filter_cons]
      by_cases hbit : v.getLsbD mask = true
      · rw [if_pos (htest.mpr hbit), if_pos hbit]
        rfl
      · rw [if_neg (fun h => hbit (htest.mp h)), if_neg hbit]
        rfl
  rw [parseTaint, setBits, ← hlines _ (fun mask hmask => List.mem_range.mp hmask)]
  rfl

theorem foldl_setBits (n : ℕ) :
    (setBits n v).foldl (fun sum mask => sum + 2^mask) 0 = v.toNat % 2^n := by
  induction n with
  | zero =>
    rw [Nat.pow_zero, Nat.mod_one]
    rfl
  | succ n ih =>
    have hbit : v.toNat / 2^n % 2 = (v.getLsbD n).toNat := by
      rw [← BitVec.testBit_toNat, Nat.toNat_testBit]
    rw [setBits, List.range_succ, List.filter_append, List.foldl_append, ← setBits, ih,
      Nat.mod_pow_succ, hbit]
    cases hn : v.getLsbD n <;> simp [hn]

theorem toInt_emod : v.toInt % 2^32 = ((v.toNat % 2^32 : ℕ) : ℤ) := by
  rw [BitVec.toInt_eq_toNat_cond]
  split <;> omega

theorem number_decimal (n : ℕ) : number (decimal n) = n := by
  have hdigits : (decimal n).takeWhile Char.isDigit = decimal n := by
    rw [List.takeWhile_eq_self_iff]
    intro c hc
    exact isDigit_of_mem_decimal hc
  rw [number, hdigits]
  exact Nat.ofDigitChars_ten_toDigits

/-- What stands in the lines for the bits, when they are read again. -/
theorem fields_bitLine {mask : ℕ} (h : mask < 32) :
    fieldsFrom [] (awkLine (echoLine mask)) =
      [label mask, decimal (2^mask)] ++ (fieldsFrom [] (taintMask.getD mask [])).take 2 := by
  have htwo := two_fields_taintMask h
  have hecho := fields_echoLine h
  rcases hmask : fieldsFrom [] (taintMask.getD mask []) with _ | ⟨w₃, _ | ⟨w₄, more⟩⟩
  · rw [hmask] at htwo
    exact absurd htwo (by decide)
  · rw [hmask, List.length_singleton] at htwo
    exact absurd htwo (by decide)
  · rw [hmask] at hecho
    exact fields_awkLine hecho

theorem awkSum_bits :
    awkSum ((parseTaint v).drop 1) = decimal (v.toInt % 2^32).toNat := by
  have hnumber : ∀ masks : List ℕ, (∀ mask ∈ masks, mask < 32) → ∀ sum : ℕ,
      (masks.map (fun mask => awkLine (echoLine mask))).foldl
        (fun sum record => sum + number (field 2 record)) sum =
      masks.foldl (fun sum mask => sum + 2^mask) sum := by
    intro masks hmasks
    induction masks with
    | nil => intro sum; rfl
    | cons mask masks ih =>
      intro sum
      have hfield : field 2 (awkLine (echoLine mask)) = decimal (2^mask) := by
        rw [field, fields_bitLine (hmasks mask List.mem_cons_self)]
        rfl
      rw [List.map_cons, List.foldl_cons, List.foldl_cons, hfield, number_decimal,
        ih (fun m hm => hmasks m (List.mem_cons_of_mem mask hm))]
  have hlt : ∀ mask ∈ setBits 32 v, mask < 32 := by
    intro mask hmask
    exact List.mem_range.mp (List.mem_filter.mp hmask).1
  rw [parseTaint_eq, List.drop_succ_cons, List.drop_zero, awkSum, hnumber _ hlt, foldl_setBits,
    toInt_emod, Int.toNat_natCast]

end Bits

/-- The lines are those of the bits that are set among the lower 32, in their order, and the sum
over them is the value modulo `2^32`. -/
theorem decode_and_sum (v : BitVec 64) :
    ∃ header lines, parseTaint v = header :: lines ∧
      List.Forall₂ (fun i line => fieldsFrom [] line =
          [label i, decimal (2^i)] ++ (fieldsFrom [] (taintMask.getD i [])).take 2)
        ((List.range 32).filter (fun i => v.getLsbD i)) lines ∧
      script v = parseTaint v ++ ["Sum: ".toList ++ decimal (v.toInt % 2^32).toNat] ∧
      (0 ≤ v.toInt ∧ v.toInt < 2^32 →
        script v = parseTaint v ++ ["Sum: ".toList ++ decimalInt v.toInt]) := by
  have hscript : script v =
      parseTaint v ++ ["Sum: ".toList ++ decimal (v.toInt % 2^32).toNat] := by
    rw [script, awkSum_bits]
  refine ⟨_, _, parseTaint_eq v, ?_, hscript, ?_⟩
  · rw [List.forall₂_map_right_iff, ← setBits, List.forall₂_same]
    intro i hi
    exact fields_bitLine (List.mem_range.mp (List.mem_filter.mp hi).1)
  · rintro ⟨hnonneg, hlt⟩
    rw [hscript, Int.emod_eq_of_lt hnonneg hlt]
    obtain ⟨n, hn⟩ := Int.eq_ofNat_of_zero_le hnonneg
    rw [hn]
    rfl

end YuToolbox.ParseTaint
