import Mathlib.Data.List.TakeWhile
import Mathlib.Tactic.Common
import Mathlib.Tactic.IntervalCases

/-! Names and values in the query of a URL: how they are read, and that they are read back from
what any coding that escapes the separators makes of them. -/
namespace YuToolbox.PercentCoding

abbrev Text := List Char

abbrev Bytes := List UInt8

def char (b : UInt8) : Char := Char.ofNat b.toNat

def byte (c : Char) : UInt8 := UInt8.ofNat c.toNat

def bytes (s : Text) : Bytes := s.map byte

/-- A digit in upper case. -/
def hexDigit (n : ℕ) : Char := if n < 10 then Char.ofNat (48+n) else Char.ofNat (55+n)

def hexValue (c : Char) : Option ℕ :=
  if 48 ≤ c.toNat ∧ c.toNat ≤ 57 then some (c.toNat-48)
  else if 65 ≤ c.toNat ∧ c.toNat ≤ 70 then some (c.toNat-55)
  else if 97 ≤ c.toNat ∧ c.toNat ≤ 102 then some (c.toNat-87)
  else none

def percent (b : UInt8) : Text := ['%', hexDigit (b.toNat/16), hexDigit (b.toNat%16)]

/-- A percent sign without two digits stands for itself. -/
def decode : Text → Bytes
  | [] => []
  | '+' :: s => byte ' ' :: decode s
  | '%' :: x :: y :: s => match hexValue x, hexValue y with
    | some m, some n => UInt8.ofNat (16*m+n) :: decode s
    | _, _ => byte '%' :: decode (x :: y :: s)
  | c :: s => byte c :: decode s

def isSeparator (c : Char) : Bool := c = '&' || c = ';'

/-- A piece as far as its first equals sign, and behind that. -/
def field (piece : Text) : Bytes × Bytes :=
  (decode (piece.takeWhile (· ≠ '=')), decode ((piece.dropWhile (· ≠ '=')).drop 1))

def parse (query : Text) : List (Bytes × Bytes) := (query.splitOnP isSeparator).map field

/-- A text for each byte, from which the byte is read back and which separates nothing. -/
structure Coding where
  code : UInt8 → Text
  decode_code : ∀ b s, decode (code b ++ s) = b :: decode s
  free : ∀ b, ∀ c ∈ code b, isSeparator c = false ∧ c ≠ '='

namespace Coding

variable (coding : Coding)

def encode (s : Bytes) : Text := s.flatMap coding.code

def formField (f : Bytes × Bytes) : Text := coding.encode f.1 ++ '=' :: coding.encode f.2

def form (fields : List (Bytes × Bytes)) : Text :=
  List.intercalate ['&'] (fields.map coding.formField)

theorem decode_encode_append (s : Bytes) (t : Text) :
    decode (coding.encode s ++ t) = s ++ decode t := by
  induction s with
  | nil => rfl
  | cons b s ih =>
    rw [encode, List.flatMap_cons, List.append_assoc, coding.decode_code]
    exact congrArg (b :: ·) ih

theorem decode_encode (s : Bytes) : decode (coding.encode s) = s := by
  have hall := coding.decode_encode_append s []
  rwa [List.append_nil, decode, List.append_nil] at hall

theorem free_of_mem_encode {s : Bytes} {c : Char} (h : c ∈ coding.encode s) :
    isSeparator c = false ∧ c ≠ '=' := by
  obtain ⟨b, -, hc⟩ := List.mem_flatMap.mp h
  exact coding.free b c hc

theorem field_formField (f : Bytes × Bytes) : field (coding.formField f) = f := by
  have hname : ∀ c ∈ coding.encode f.1, decide (c ≠ '=') = true := by
    intro c hc
    exact decide_eq_true (coding.free_of_mem_encode hc).2
  have hstop : ¬ decide ('=' ≠ '=') = true := by decide
  have hbefore : (coding.formField f).takeWhile (fun c => decide (c ≠ '=')) =
      coding.encode f.1 := by
    rw [formField, List.takeWhile_append_of_pos hname, List.takeWhile_cons, if_neg hstop,
      List.append_nil]
  have hbehind : (coding.formField f).dropWhile (fun c => decide (c ≠ '=')) =
      '=' :: coding.encode f.2 := by
    rw [formField, List.dropWhile_append_of_pos hname, List.dropWhile_cons, if_neg hstop]
  rw [field, hbefore, hbehind, List.drop_one, List.tail_cons, coding.decode_encode,
    coding.decode_encode]

theorem separates_formField (f : Bytes × Bytes) :
    ∀ c ∈ coding.formField f, isSeparator c = false := by
  intro c hc
  rcases List.mem_append.mp hc with hc | hc
  · exact (coding.free_of_mem_encode hc).1
  · rcases List.mem_cons.mp hc with rfl | hc
    · rfl
    · exact (coding.free_of_mem_encode hc).1

/-- A query is read back, whatever bytes its names and values are made of. -/
theorem parse_form {fields : List (Bytes × Bytes)} (h : fields ≠ []) :
    parse (coding.form fields) = fields := by
  unfold parse form
  induction fields with
  | nil => exact absurd rfl h
  | cons f fields ih =>
    cases fields with
    | nil =>
      have hone : List.intercalate ['&'] ([f].map coding.formField) = coding.formField f := by
        simp [List.intercalate]
      rw [hone, List.splitOnP_eq_singleton (coding.separates_formField f), List.map_singleton,
        coding.field_formField]
    | cons g fields =>
      have hsplit : List.intercalate ['&'] ((f :: g :: fields).map coding.formField) =
          coding.formField f ++ '&' ::
            List.intercalate ['&'] ((g :: fields).map coding.formField) := by
        simp [List.intercalate]
      rw [hsplit, List.splitOnP_append_cons_of_forall_mem (coding.separates_formField f) '&' rfl,
        List.map_cons, coding.field_formField, ih (List.cons_ne_nil _ _)]

end Coding

section Bytes

theorem byte_char (b : UInt8) : byte (char b) = b := by
  have hvalid : b.toNat.isValidChar := Or.inl (by have := b.toNat_lt; omega)
  have hchar : (Char.ofNat b.toNat).toNat = b.toNat := by
    rw [Char.ofNat, dif_pos hvalid]
    rfl
  rw [byte, char, hchar]
  exact UInt8.ofNat_toNat

theorem hexValue_hexDigit {n : ℕ} (h : n < 16) : hexValue (hexDigit n) = some n := by
  interval_cases n <;> rfl

theorem decode_percent (b : UInt8) (s : Text) : decode (percent b ++ s) = b :: decode s := by
  have hlt := b.toNat_lt
  have hhigh := hexValue_hexDigit (n := b.toNat/16) (by omega)
  have hlow := hexValue_hexDigit (n := b.toNat%16) (by omega)
  have hvalue : 16*(b.toNat/16)+b.toNat%16 = b.toNat := by omega
  simp only [percent, List.cons_append, List.nil_append, decode, hhigh, hlow, hvalue]
  rw [UInt8.ofNat_toNat]

theorem decode_cons {c : Char} (hplus : c ≠ '+') (hpercent : c ≠ '%') (s : Text) :
    decode (c :: s) = byte c :: decode s := by
  rw [decode]
  · intro h
    exact absurd h hplus
  · intro x y t h
    exact absurd h hpercent

end Bytes

end YuToolbox.PercentCoding
