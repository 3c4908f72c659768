import Mathlib.Algebra.Order.Ring.Int
import Mathlib.Data.List.Infix
import Mathlib.Tactic.Common

/-! Byte buffers of a C program: accesses outside a buffer fail, and a string is what
stands before the first NUL. -/
namespace YuToolbox.ByteBuffer

abbrev Bytes := List UInt8

def NulFree (s : Bytes) : Prop := ∀ c ∈ s, c ≠ 0

instance (s : Bytes) : Decidable (NulFree s) := List.decidableBAll _ s

/-- The string at the start of a buffer; `none` when the buffer ends before a NUL. -/
def cstring : Bytes → Option Bytes
  | [] => none
  | c :: s => if c = 0 then some [] else (cstring s).map (c :: ·)

/-- `buf[i] = c`. -/
def store (buf : Bytes) (i : ℕ) (c : UInt8) : Option Bytes :=
  if i < buf.length then some (buf.set i c) else none

/-- `memcpy(dst, src, n)`: both ranges must lie in their buffers. -/
def memcpy (dst src : Bytes) (n : ℕ) : Option Bytes :=
  if n ≤ dst.length ∧ n ≤ src.length then some (src.take n ++ dst.drop n) else none

theorem cstring_text {s : Bytes} (h : NulFree s) (rest : Bytes) :
    cstring (s ++ rest) = (cstring rest).map (s ++ ·) := by
  induction s with
  | nil => simp
  | cons c s ih =>
    -- the search for a NUL passes the first character
    have hc : c ≠ 0 := h c List.mem_cons_self
    rw [List.cons_append, cstring, if_neg hc, ih (fun d hd => h d (List.mem_cons_of_mem _ hd)),
      Option.map_map]
    rfl

theorem cstring_nul (rest : Bytes) : cstring (0 :: rest) = some [] := by
  rw [cstring, if_pos rfl]

/-- A text and its terminator are read back as the text, whatever follows. -/
theorem cstring_terminated {s : Bytes} (h : NulFree s) (rest : Bytes) :
    cstring (s ++ 0 :: rest) = some s := by
  calc cstring (s ++ 0 :: rest)
      = (cstring (0 :: rest)).map (s ++ ·) := cstring_text h _
    _ = some (s ++ []) := by rw [cstring_nul, Option.map_some]
    _ = some s := by rw [List.append_nil]

/-- The `width` bytes of a number on a little-endian machine. -/
def leBytes : ℕ → ℕ → Bytes
  | 0, _ => []
  | width+1, n => UInt8.ofNat n :: leBytes width (n/256)

def leValue : Bytes → ℕ
  | [] => 0
  | c :: s => c.toNat+256*leValue s

theorem length_leBytes (width n : ℕ) : (leBytes width n).length = width := by
  induction width generalizing n with
  | zero => rfl
  | succ width ih => rw [leBytes, List.length_cons, ih]

/-- Reading a stored number back truncates it to the width. -/
theorem leValue_leBytes (width n : ℕ) : leValue (leBytes width n) = n%256^width := by
  induction width generalizing n with
  | zero => simp [leBytes, leValue, Nat.mod_one]
  | succ width ih =>
    have hpow : 256^(width+1) = 256*256^width := Nat.pow_succ'
    rw [leBytes, leValue, ih, UInt8.toNat_ofNat', hpow, Nat.mod_mul]

end YuToolbox.ByteBuffer
