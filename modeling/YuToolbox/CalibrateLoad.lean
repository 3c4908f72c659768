import YuToolbox.AwkSplit
import YuToolbox.ParseTaint

/-! `serial.sh`: how `Calibrate` measures the load. The wall time of five runs goes as a text
through grep and awk, and what comes out is divided by five and tested. The command prints text, of
which grep lets lines through; of binary data it would print none. -/
namespace YuToolbox.CalibrateLoad

open Awk

/-- A time of `time`, in whole minutes and thousandths of a second. -/
structure Duration where
  minutes : ℕ
  millis : ℕ
  millis_lt : millis < 60000

def threeDigits (n : ℕ) : Text := [(n/100).digitChar, (n/10%10).digitChar, (n%10).digitChar]

/-- `MmS.SSSs`. -/
def Duration.text (d : Duration) : Text :=
  decimal d.minutes ++ "m".toList ++ decimal (d.millis/1000) ++ ".".toList ++
    threeDigits (d.millis%1000) ++ "s".toList

/-- What `LC_CTYPE` takes for letters and digits. -/
structure Locale where
  alnum : Char → Bool
  ascii : ∀ c : Char, c.toNat < 128 → alnum c = c.isAlphanum

def isWordChar (locale : Locale) (c : Char) : Bool := locale.alnum c || c == '_'

/-- `grep -w` on the rest of a line, behind a letter of a word or not. -/
def hasWordFrom (locale : Locale) (word : Text) (inWord : Bool) : Text → Bool
  | [] => false
  | c :: line =>
    (!inWord && word.isPrefixOf (c :: line) &&
        !((c :: line).drop word.length).head?.any (isWordChar locale)) ||
      hasWordFrom locale word (isWordChar locale c) line

def hasWord (locale : Locale) (word line : Text) : Bool := hasWordFrom locale word false line

/-- The lines that five runs of the command print, and their three times. The lines are text: all
bytes are characters of the locale, and none is NUL. -/
structure Batch where
  output : List Text
  text : ∀ line ∈ output, '\x00' ∉ line
  real : Duration
  user : Duration
  sys : Duration

/-- What goes into the pipe. -/
def Batch.report (b : Batch) : List Text :=
  b.output ++ [[], "real\t".toList ++ b.real.text, "user\t".toList ++ b.user.text,
    "sys\t".toList ++ b.sys.text]

/-- A decimal fraction: its digits, and how many of them stand behind the point. -/
structure Number where
  digits : ℕ
  places : ℕ

/-- The number that a text is for awk, in exact arithmetic: a time has no sign and no exponent, and
the number of another line is never used. -/
def number (text : Text) : Number :=
  let whole := text.takeWhile Char.isDigit
  match text.dropWhile Char.isDigit with
  | '.' :: rest =>
    let fraction := rest.takeWhile Char.isDigit
    ⟨Nat.ofDigitChars 10 (whole ++ fraction) 0, fraction.length⟩
  | _ => ⟨Nat.ofDigitChars 10 whole 0, 0⟩

/-- `print a[2] * 1000000`, when this is a whole number; with another one the shell cannot
calculate. -/
def micros (text : Text) : Option ℕ :=
  let n := number text
  if n.digits*1000000 % 10^n.places = 0 then some (n.digits*1000000 / 10^n.places) else none

/-- The awk program, on one line. -/
def awkLine (line : Text) : Option ℕ :=
  micros ((split "m".toList (line.filter (· != 's'))).getD 1 [])

section Pipe

variable (locale : Locale)

/-- The number that `load` stands for behind the pipe: an empty variable counts as 0, and several
numbers are not an expression. -/
def measured (report : List Text) : Option ℕ :=
  match (report.filter (hasWord locale "real".toList)).map awkLine with
  | [] => some 0
  | [load] => load
  | _ => none

/-- Three batches, of which each overwrites the one before. -/
def load (batches : Fin 3 → Batch) : Option ℕ :=
  ((List.finRange 3).foldl (fun _ i => measured locale (batches i).report) (some 0)).map (· / 5)

end Pipe

/-- `$((a / b))`, an error when the divisor is zero. -/
def divide (a b : ℤ) : Option ℤ := if b = 0 then none else some (a.tdiv b)

/-- What is printed before the loops, and whether the script exits here. -/
def check (load : ℕ) (speed : ℤ) : Option (List Text × Bool) :=
  if load > 1000000 then some (["Run 0 times in 1 second!".toList], true)
  else do
    let maxSpeed ← divide 1000000 load
    let lines := ["At most run ".toList ++ ParseTaint.decimalInt maxSpeed ++
        " times in 1 second.".toList,
      "Defined speed is ".toList ++ ParseTaint.decimalInt speed ++ " run per second.".toList]
    if speed > maxSpeed then
      some (lines ++ ["Can't run ".toList ++ ParseTaint.decimalInt speed ++
        " times in 1 second.".toList], true)
    else some (lines, false)

/-- The wall time of a batch in thousandths of a second. -/
def Batch.wall (b : Batch) : ℕ := 60000*b.real.minutes+b.real.millis

section Law

variable (locale : Locale)

/-- The first of the exits. -/
def RunsZeroTimes (batches : Fin 3 → Batch) (speed : ℤ) : Prop :=
  ∃ l, load locale batches = some l ∧
    check l speed = some (["Run 0 times in 1 second!".toList], true)

/-- No line of the command itself is taken for its time. -/
def Batch.Quiet (b : Batch) : Prop :=
  ∀ line ∈ b.output, hasWord locale "real".toList line = false

/-- The load is the time of one run in microseconds, and the exit is taken when this is more than
a second. -/
def MeasuresLoad (batches : Fin 3 → Batch) (speed : ℤ) : Prop :=
  load locale batches = some ((batches 2).wall*1000/5) ∧
    (RunsZeroTimes locale batches speed ↔ 1000001*5 ≤ (batches 2).wall*1000)

end Law

section Lines

variable {locale : Locale}

theorem hasWordFrom_free {word : Text} {q : Char} (hq : word.head? = some q) {line : Text}
    (h : q ∉ line) (inWord : Bool) : hasWordFrom locale word inWord line = false := by
  induction line generalizing inWord with
  | nil => rfl
  | cons c line ih =>
    obtain ⟨hne, hrest⟩ := List.ne_and_not_mem_of_not_mem_cons h
    have hprefix : word.isPrefixOf (c :: line) = false := by
      obtain ⟨post, rfl⟩ := List.head?_eq_some_iff.mp hq
      rw [List.isPrefixOf_cons_cons, Bool.and_eq_false_iff]
      exact Or.inl (beq_eq_false_iff_ne.mpr hne)
    rw [hasWordFrom, hprefix, ih hrest, Bool.and_false, Bool.false_and, Bool.false_or]

theorem hasWordFrom_cons {word line : Text} {c : Char} (h : word.isPrefixOf (c :: line) = false)
    (inWord : Bool) : hasWordFrom locale word inWord (c :: line) =
      hasWordFrom locale word (isWordChar locale c) line := by
  rw [hasWordFrom, h, Bool.and_false, Bool.false_and, Bool.false_or]

theorem isDigit_of_mem_threeDigits {n : ℕ} (hn : n < 1000) {c : Char} (h : c ∈ threeDigits n) :
    c.isDigit = true := by
  have hdigit {d : ℕ} (hd : d < 10) : d.digitChar.isDigit = true := by
    rw [Nat.isDigit_digitChar, decide_eq_true hd]
  rw [threeDigits, List.mem_cons, List.mem_cons, List.mem_singleton] at h
  rcases h with rfl | rfl | rfl
  · exact hdigit (by omega)
  · exact hdigit (by omega)
  · exact hdigit (by omega)

theorem ofDigitChars_threeDigits {n : ℕ} (hn : n < 1000) (init : ℕ) :
    Nat.ofDigitChars 10 (threeDigits n) init = 1000*init+n := by
  rw [threeDigits, Nat.ofDigitChars_cons_digitChar_of_lt_ten (by omega),
    Nat.ofDigitChars_cons_digitChar_of_lt_ten (by omega),
    Nat.ofDigitChars_cons_digitChar_of_lt_ten (by omega), Nat.ofDigitChars_nil]
  omega

/-- `S.SSS`. -/
def Duration.seconds (d : Duration) : Text :=
  decimal (d.millis/1000) ++ ".".toList ++ threeDigits (d.millis%1000)

theorem Duration.text_eq (d : Duration) :
    d.text = decimal d.minutes ++ ("m".toList ++ (d.seconds ++ "s".toList)) := by
  simp only [Duration.text, Duration.seconds, List.append_assoc]

theorem isDigit_of_mem_seconds {d : Duration} {c : Char} (h : c ∈ d.seconds) :
    c.isDigit = true ∨ c = '.' := by
  rw [Duration.seconds, List.mem_append, List.mem_append] at h
  rcases h with (h | h) | h
  · exact Or.inl (isDigit_of_mem_decimal h)
  · exact Or.inr (List.mem_singleton.mp h)
  · exact Or.inl (isDigit_of_mem_threeDigits (Nat.mod_lt _ (by decide)) h)

/-- A letter that is no digit, and none of the other three, is not in a time. -/
theorem not_mem_text {q : Char} (hdigit : q.isDigit = false) (hother : q ∉ "m.s".toList)
    (d : Duration) : q ∉ d.text := by
  intro h
  have hno : ¬ q.isDigit = true := by rw [hdigit]; exact Bool.false_ne_true
  rw [Duration.text_eq, List.mem_append, List.mem_append, List.mem_append] at h
  rcases h with h | h | h | h
  · exact hno (isDigit_of_mem_decimal h)
  · exact hother (List.mem_singleton.mp h ▸ by decide)
  · rcases isDigit_of_mem_seconds h with h | rfl
    · exact hno h
    · exact hother (by decide)
  · exact hother (List.mem_singleton.mp h ▸ by decide)

/-- Of the lines of `time`, grep lets the wall time through. -/
theorem filter_report (locale : Locale) (b : Batch) :
    b.report.filter (hasWord locale "real".toList) =
      b.output.filter (hasWord locale "real".toList) ++ ["real\t".toList ++ b.real.text] := by
  have hr (d : Duration) (inWord : Bool) :
      hasWordFrom locale "real".toList inWord d.text = false :=
    hasWordFrom_free rfl (not_mem_text (by decide) (by decide) d) inWord
  have hreal : hasWord locale "real".toList ("real\t".toList ++ b.real.text) = true := by
    -- the word ends before the tab
    have htab : isWordChar locale '\t' = false := by
      rw [isWordChar, locale.ascii _ (by decide)]
      rfl
    have hfirst : hasWord locale "real".toList ("real\t".toList ++ b.real.text) =
        (!isWordChar locale '\t' || hasWordFrom locale "real".toList (isWordChar locale 'r')
          ("eal\t".toList ++ b.real.text)) := rfl
    rw [hfirst, htab]
    rfl
  have huser : hasWord locale "real".toList ("user\t".toList ++ b.user.text) = false := by
    have hchars : "user\t".toList ++ b.user.text =
        'u' :: 's' :: 'e' :: 'r' :: '\t' :: b.user.text := rfl
    rw [hasWord, hchars, hasWordFrom_cons rfl, hasWordFrom_cons rfl, hasWordFrom_cons rfl,
      hasWordFrom_cons rfl, hasWordFrom_cons rfl, hr]
  have hsys : hasWord locale "real".toList ("sys\t".toList ++ b.sys.text) = false := by
    have hchars : "sys\t".toList ++ b.sys.text = 's' :: 'y' :: 's' :: '\t' :: b.sys.text := rfl
    rw [hasWord, hchars, hasWordFrom_cons rfl, hasWordFrom_cons rfl, hasWordFrom_cons rfl,
      hasWordFrom_cons rfl, hr]
  have hblank : hasWord locale "real".toList [] = false := rfl
  simp only [Batch.report, List.filter_append, List.filter_cons, hblank, hreal, huser,
    hsys, List.filter_nil, if_true, Bool.false_eq_true, if_false]

end Lines

section Awk

theorem number_seconds (d : Duration) : number d.seconds = ⟨d.millis, 3⟩ := by
  have hwhole : ∀ c ∈ decimal (d.millis/1000), c.isDigit = true :=
    fun c hc => isDigit_of_mem_decimal hc
  have hmod : d.millis%1000 < 1000 := Nat.mod_lt _ (by decide)
  have hfraction : ∀ c ∈ threeDigits (d.millis%1000), c.isDigit = true :=
    fun c hc => isDigit_of_mem_threeDigits hmod hc
  have hsplit : d.seconds = decimal (d.millis/1000) ++ '.' :: threeDigits (d.millis%1000) := by
    rw [Duration.seconds, List.append_assoc]
    rfl
  have htake : d.seconds.takeWhile Char.isDigit = decimal (d.millis/1000) := by
    rw [hsplit, List.takeWhile_append_of_pos hwhole]
    simp
  have hdrop : d.seconds.dropWhile Char.isDigit = '.' :: threeDigits (d.millis%1000) := by
    rw [hsplit, List.dropWhile_append_of_pos hwhole]
    rfl
  have hvalue : Nat.ofDigitChars 10 (decimal (d.millis/1000) ++ threeDigits (d.millis%1000)) 0 =
      d.millis := by
    rw [Nat.ofDigitChars_append, ofDigitChars_threeDigits hmod, decimal,
      Nat.ofDigitChars_ten_toDigits]
    omega
  have htaken : (threeDigits (d.millis%1000)).takeWhile Char.isDigit =
      threeDigits (d.millis%1000) := by
    rw [List.takeWhile_eq_self_iff]
    exact hfraction
  simp only [number, htake, hdrop, htaken, hvalue]
  rfl

/-- `gsub(/s/,"")`, which only finds the letter at the end. -/
theorem filter_real (d : Duration) :
    ("real\t".toList ++ d.text).filter (· != 's') =
      ("real\t".toList ++ decimal d.minutes) ++ ("m".toList ++ d.seconds) := by
  have hdigit {c : Char} (h : c.isDigit = true) : (c != 's') = true := by
    rw [bne_iff_ne]
    rintro rfl
    cases h
  have hminutes : (decimal d.minutes).filter (· != 's') = decimal d.minutes := by
    rw [List.filter_eq_self]
    exact fun c hc => hdigit (isDigit_of_mem_decimal hc)
  have hseconds : d.seconds.filter (· != 's') = d.seconds := by
    rw [List.filter_eq_self]
    intro c hc
    rcases isDigit_of_mem_seconds hc with h | rfl
    · exact hdigit h
    · rfl
  rw [Duration.text_eq, List.filter_append, List.filter_append, List.filter_append,
    List.filter_append, hminutes, hseconds, List.append_assoc]
  simp

/-- awk takes what stands behind the first letter m, and so not the minutes. -/
theorem awkLine_real (d : Duration) :
    awkLine ("real\t".toList ++ d.text) = some (d.millis*1000) := by
  have hdigit {c : Char} (h : c.isDigit = true) : c ≠ 'm' := by
    rintro rfl
    cases h
  have hfront : 'm' ∉ "real\t".toList ++ decimal d.minutes := by
    rw [List.mem_append, not_or]
    exact ⟨by decide, fun h => hdigit (isDigit_of_mem_decimal h) rfl⟩
  have hback : 'm' ∉ d.seconds := by
    intro h
    rcases isDigit_of_mem_seconds h with h | h
    · exact hdigit h rfl
    · exact absurd h (by decide)
  -- the name of the line and the minutes are in the first piece, which is not used
  have hpieces : split "m".toList (("real\t".toList ++ d.text).filter (· != 's')) =
      ["real\t".toList ++ decimal d.minutes, d.seconds] := by
    rw [filter_real, split, if_neg (by simp), splitFrom_free rfl hfront,
      splitFrom_sep (by decide), splitFrom_whole rfl hback]
    rfl
  have hdvd : d.millis*1000000 % 10^3 = 0 := by omega
  have hdiv : d.millis*1000000 / 10^3 = d.millis*1000 := by omega
  rw [awkLine, hpieces, List.getD_cons_succ, List.getD_cons_zero, micros, number_seconds]
  simp only [hdvd, if_true, hdiv]

end Awk

section Load

variable {locale : Locale}

theorem Batch.quiet_iff (locale : Locale) (b : Batch) :
    b.Quiet locale ↔ b.output.filter (hasWord locale "real".toList) = [] := by
  simp only [Batch.Quiet, List.filter_eq_nil_iff, Bool.not_eq_true]

theorem measured_report {b : Batch} (hquiet : b.Quiet locale) :
    measured locale b.report = some (b.real.millis*1000) := by
  rw [measured, filter_report, (b.quiet_iff locale).mp hquiet, List.nil_append, List.map_singleton,
    awkLine_real]

/-- With a second line that has the word there are two numbers at least. -/
theorem measured_loud {b : Batch} (hloud : ¬ b.Quiet locale) : measured locale b.report = none := by
  rw [b.quiet_iff locale] at hloud
  obtain ⟨line, lines, hlines⟩ := List.exists_cons_of_ne_nil hloud
  rw [measured, filter_report, hlines]
  -- the line of `time` comes behind it
  cases lines with
  | nil => rfl
  | cons line' lines => rfl

theorem load_last (locale : Locale) (batches : Fin 3 → Batch) :
    load locale batches = (measured locale (batches 2).report).map (· / 5) := rfl

/-- The load is a fifth of the seconds of the last batch. -/
theorem load_eq {batches : Fin 3 → Batch} (hquiet : (batches 2).Quiet locale) :
    load locale batches = some ((batches 2).real.millis*200) := by
  rw [load_last, measured_report hquiet, Option.map_some, Option.some.injEq]
  omega

theorem load_loud {batches : Fin 3 → Batch} (hloud : ¬ (batches 2).Quiet locale) :
    load locale batches = none := by
  rw [load_last, measured_loud hloud]
  rfl

/-- The exit comes for a load of more than a second, and for no other. -/
theorem check_exit_iff (l : ℕ) (speed : ℤ) :
    check l speed = some (["Run 0 times in 1 second!".toList], true) ↔ 1000000 < l := by
  rw [check]
  split
  · rename_i h
    exact iff_of_true rfl h
  · rename_i h
    refine iff_of_false ?_ h
    -- everywhere else there are at least two lines
    cases hdivide : divide 1000000 l with
    | none => exact nofun
    | some maxSpeed =>
      simp only [Option.bind_eq_bind, Option.bind_some]
      split
      · simp
      · simp

theorem runsZeroTimes_iff {batches : Fin 3 → Batch} (hquiet : (batches 2).Quiet locale)
    (speed : ℤ) : RunsZeroTimes locale batches speed ↔ 1000000 < (batches 2).real.millis*200 := by
  simp only [RunsZeroTimes, load_eq hquiet, Option.some.injEq, exists_eq_left', check_exit_iff]

end Load

/-- The load is measured, and the exit taken, as it should be exactly when the last batch takes
less than a minute and prints nothing that is taken for its time. -/
theorem measuresLoad_iff (locale : Locale) (batches : Fin 3 → Batch) (speed : ℤ) :
    MeasuresLoad locale batches speed ↔
      (batches 2).real.minutes = 0 ∧ (batches 2).Quiet locale := by
  by_cases hquiet : (batches 2).Quiet locale
  · rw [MeasuresLoad, runsZeroTimes_iff hquiet, load_eq hquiet, Option.some.injEq, Batch.wall]
    constructor
    · rintro ⟨hload, -⟩
      exact ⟨by omega, hquiet⟩
    · rintro ⟨hminutes, -⟩
      refine ⟨by omega, ?_⟩
      constructor
      · intro h
        omega
      · intro h
        omega
  · refine iff_of_false ?_ (fun h => hquiet h.2)
    rintro ⟨hload, -⟩
    rw [load_loud hquiet] at hload
    cases hload

/-- `LC_ALL=C`. -/
def posix : Locale := ⟨Char.isAlphanum, fun _ _ => rfl⟩

/-- `0m0.000s`. -/
def noTime : Duration := ⟨0, 0, by decide⟩

/-- Five runs of a command that prints nothing and only waits. -/
def waitingBatch (real : Duration) : Batch where
  output := []
  text := List.forall_mem_nil _
  real := real
  user := noTime
  sys := noTime

theorem quiet_waitingBatch (locale : Locale) (real : Duration) :
    (waitingBatch real).Quiet locale := nofun

/-- A bit more than a minute. -/
def slowBatch : Batch := waitingBatch ⟨1, 2500, by decide⟩

/-- Twelve seconds for one run count as half a second. -/
theorem not_measuresLoad_slowBatch :
    ¬ ∀ locale batches speed, MeasuresLoad locale batches speed := by
  intro h
  obtain ⟨hload, -⟩ := h posix (fun _ => slowBatch) 1
  rw [load_eq (quiet_waitingBatch posix _)] at hload
  exact absurd hload (by decide)

end YuToolbox.CalibrateLoad
