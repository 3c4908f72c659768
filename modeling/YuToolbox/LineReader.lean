import Mathlib.Data.List.Infix
import Mathlib.Data.List.Flatten
import Mathlib.Data.List.TakeDrop
import Mathlib.Tactic.Common

/-! Reading a text line by line into a buffer of fixed size: the lines of a text, the pieces
that a read of at most so many letters cuts of them, and what can be said of a text from
which some pieces are dropped. -/
namespace YuToolbox.LineReader

variable {α : Type} [DecidableEq α] (nl : α)

/-- One read: as far as a newline, which is read too, and at most so many letters; and what
is left. -/
def cutPiece : ℕ → List α → List α × List α
  | 0, s => ([], s)
  | _+1, [] => ([], [])
  | room+1, c :: s =>
    if c = nl then ([c], s) else (c :: (cutPiece room s).1, (cutPiece room s).2)

omit [DecidableEq α] in
/-- One more letter for the first piece. -/
def consHead (c : α) : List (List α) → List (List α)
  | [] => [[c]]
  | p :: ps => (c :: p) :: ps

/-- The pieces of all reads, where the first has some room and the others have `n` letters. -/
def piecesFrom (n : ℕ) : ℕ → List α → List (List α)
  | _, [] => []
  | room, c :: s =>
    if c = nl ∨ room ≤ 1 then [c] :: piecesFrom n n s else consHead c (piecesFrom n (room-1) s)

def pieces (n : ℕ) (s : List α) : List (List α) := piecesFrom nl n n s

/-- The lines of a text, each with its newline; the last may have none. -/
def linesOf : List α → List (List α)
  | [] => []
  | c :: s => if c = nl then [c] :: linesOf s else consHead c (linesOf s)

/-- The letters from `n*i` on, `n` of them or as many as there are. -/
def block (n i : ℕ) (l : List α) : List α := (l.drop (n*i)).take n

omit [DecidableEq α] in
theorem flatten_consHead (c : α) (ps : List (List α)) :
    (consHead c ps).flatten = c :: ps.flatten := by
  cases ps <;> rfl

omit [DecidableEq α] in
theorem consHead_append (c : α) {ps : List (List α)} (h : ps ≠ []) (qs : List (List α)) :
    consHead c (ps ++ qs) = consHead c ps ++ qs := by
  cases ps with
  | nil => exact absurd rfl h
  | cons p ps => rfl

omit [DecidableEq α] in
theorem nil_not_mem_consHead (c : α) {ps : List (List α)} (h : [] ∉ ps) : [] ∉ consHead c ps := by
  cases ps with
  | nil => simp [consHead]
  | cons p ps => simpa [consHead] using (List.not_mem_of_not_mem_cons h)

section Pieces

variable (n : ℕ)

theorem flatten_piecesFrom (room : ℕ) (s : List α) : (piecesFrom nl n room s).flatten = s := by
  induction s generalizing room with
  | nil => rfl
  | cons c s ih =>
    rw [piecesFrom]
    split
    · rw [List.flatten_cons, ih]
      rfl
    · rw [flatten_consHead, ih]

theorem nil_not_mem_piecesFrom (room : ℕ) (s : List α) : [] ∉ piecesFrom nl n room s := by
  induction s generalizing room with
  | nil => exact List.not_mem_nil
  | cons c s ih =>
    rw [piecesFrom]
    split
    · exact List.not_mem_cons_of_ne_of_not_mem (by simp) (ih n)
    · exact nil_not_mem_consHead c (ih (room-1))

theorem piecesFrom_ne_nil (room : ℕ) {s : List α} (h : s ≠ []) : piecesFrom nl n room s ≠ [] := by
  intro hnil
  have hflat := flatten_piecesFrom nl n room s
  rw [hnil] at hflat
  exact h hflat.symm

theorem cutPiece_stop {room : ℕ} {c : α} (h : c = nl ∨ room = 0) (s : List α) :
    cutPiece nl (room+1) (c :: s) = ([c], s) := by
  rw [cutPiece]
  by_cases hc : c = nl
  · rw [if_pos hc]
  · obtain rfl := h.resolve_left hc
    rw [if_neg hc]
    rfl

theorem piecesFrom_stop {room : ℕ} {c : α} (h : c = nl ∨ room = 0) (s : List α) :
    piecesFrom nl n (room+1) (c :: s) = [c] :: pieces nl n s := by
  rw [piecesFrom, if_pos (h.imp_right (by omega)), pieces]

/-- The first read takes the first piece, and the others go on from what it left. -/
theorem piecesFrom_cutPiece (room : ℕ) (c : α) (s : List α) :
    piecesFrom nl n (room+1) (c :: s) =
      (cutPiece nl (room+1) (c :: s)).1 :: pieces nl n (cutPiece nl (room+1) (c :: s)).2 := by
  -- the induction is on the room: it bounds how many letters the read goes on for
  induction room generalizing c s with
  | zero => rw [piecesFrom_stop nl n (.inr rfl), cutPiece_stop nl (.inr rfl)]
  | succ room ih =>
    by_cases hc : c = nl
    · rw [piecesFrom_stop nl n (.inl hc), cutPiece_stop nl (.inl hc)]
    · rw [piecesFrom, cutPiece, if_neg hc, if_neg (by simp [hc]), Nat.add_sub_cancel]
      cases s with
      | nil => rfl
      | cons d s =>
        rw [ih d s]
        rfl

theorem flatten_cutPiece (room : ℕ) (s : List α) :
    (cutPiece nl room s).1 ++ (cutPiece nl room s).2 = s := by
  induction s generalizing room with
  | nil => cases room <;> rfl
  | cons c s ih =>
    cases room with
    | zero => rfl
    | succ room =>
      rw [cutPiece]
      split
      · rfl
      · rw [List.cons_append, ih]

/-- On the rest of a line a read takes what there is room for. -/
theorem cutPiece_line (room : ℕ) {l : List α} (h : nl ∉ l.dropLast) :
    cutPiece nl room l = (l.take room, l.drop room) := by
  induction l generalizing room with
  | nil => cases room <;> rfl
  | cons c l ih =>
    cases room with
    | zero => rfl
    | succ room =>
      rw [cutPiece]
      cases l with
      | nil =>
        split
        · simp
        · cases room <;> simp [cutPiece]
      | cons d l =>
        obtain ⟨hc, hl⟩ := List.ne_and_not_mem_of_not_mem_cons h
        rw [if_neg (Ne.symm hc), ih room hl]
        rfl

end Pieces

section Lines

theorem flatten_linesOf (s : List α) : (linesOf nl s).flatten = s := by
  induction s with
  | nil => rfl
  | cons c s ih =>
    rw [linesOf]
    split
    · rw [List.flatten_cons, ih]
      rfl
    · rw [flatten_consHead, ih]

/-- Each line is one, and has a newline at its end only. -/
theorem line_of_mem_linesOf {s l : List α} (h : l ∈ linesOf nl s) : l ≠ [] ∧ nl ∉ l.dropLast := by
  induction s generalizing l with
  | nil => cases h
  | cons c s ih =>
    rw [linesOf] at h
    split at h
    · rcases List.mem_cons.mp h with rfl | h
      · simp
      · exact ih h
    · rename_i hc
      cases hs : linesOf nl s with
      | nil =>
        rw [hs] at h
        obtain rfl := List.mem_singleton.mp h
        simp
      | cons l' ls =>
        rw [hs] at h ih
        rcases List.mem_cons.mp h with rfl | h
        · obtain ⟨hne, hl⟩ := ih List.mem_cons_self
          refine ⟨by simp, ?_⟩
          rw [List.dropLast_cons_of_ne_nil hne]
          exact List.not_mem_cons_of_ne_of_not_mem (Ne.symm hc) hl
        · exact ih (List.mem_cons_of_mem l' h)

/-- A text whose only newline, if there is one, is at its end is one line. -/
theorem linesOf_line {l : List α} (hne : l ≠ []) (h : nl ∉ l.dropLast) : linesOf nl l = [l] := by
  induction l with
  | nil => exact absurd rfl hne
  | cons c l ih =>
    rw [linesOf]
    cases l with
    | nil => split <;> rfl
    | cons d l =>
      obtain ⟨hc, hl⟩ := List.ne_and_not_mem_of_not_mem_cons h
      rw [if_neg (Ne.symm hc), ih (by simp) hl]
      rfl

theorem linesOf_eq_nil {s : List α} (h : linesOf nl s = []) : s = [] := by
  have hflat := flatten_linesOf nl s
  rw [h] at hflat
  exact hflat.symm

theorem piecesFrom_lines (n : ℕ) {s l : List α} {ls : List (List α)}
    (h : linesOf nl s = l :: ls) (room : ℕ) :
    piecesFrom nl n room s = piecesFrom nl n room l ++ ls.flatMap (pieces nl n) := by
  induction s generalizing l ls room with
  | nil => cases h
  | cons c s ih =>
    rw [linesOf] at h
    cases hs : linesOf nl s with
    | nil =>
      obtain rfl := linesOf_eq_nil nl hs
      have hone : [[c]] = l :: ls := by
        rw [← h]
        split <;> rfl
      obtain ⟨rfl, rfl⟩ := List.cons.inj hone
      rw [List.flatMap_nil, List.append_nil]
    | cons l' ls' =>
      rw [hs] at h
      -- the induction hypothesis is about the line that `c` begins or stands in front of
      by_cases hc : c = nl
      · -- the line ends here, and with it the piece
        rw [if_pos hc] at h
        obtain ⟨rfl, rfl⟩ := List.cons.inj h
        rw [piecesFrom, if_pos (.inl hc), piecesFrom, if_pos (.inl hc), ih hs n]
        rfl
      · rw [if_neg hc] at h
        obtain ⟨rfl, rfl⟩ := List.cons.inj h
        rw [piecesFrom, piecesFrom]
        split
        · rw [ih hs n]
          rfl
        · have hne := (line_of_mem_linesOf nl (hs ▸ List.mem_cons_self)).1
          rw [ih hs (room-1), consHead_append c (piecesFrom_ne_nil nl n (room-1) hne)]

/-- No piece goes over the end of a line. -/
theorem pieces_eq_flatMap (n : ℕ) (s : List α) :
    pieces nl n s = (linesOf nl s).flatMap (pieces nl n) := by
  cases hs : linesOf nl s with
  | nil =>
    rw [linesOf_eq_nil nl hs]
    rfl
  | cons l ls => exact piecesFrom_lines nl n hs n

omit [DecidableEq α] in
theorem block_succ (n i : ℕ) (l : List α) : block n (i+1) l = block n i (l.drop n) := by
  rw [block, block, List.drop_drop, Nat.mul_succ, Nat.add_comm]

theorem pieces_line {n : ℕ} (hn : 0 < n) {l : List α} (hne : l ≠ []) (h : nl ∉ l.dropLast) :
    pieces nl n l = l.take n :: pieces nl n (l.drop n) := by
  obtain ⟨room, rfl⟩ : ∃ room, n = room+1 := ⟨n-1, by omega⟩
  cases l with
  | nil => exact absurd rfl hne
  | cons c l => rw [pieces, piecesFrom_cutPiece, cutPiece_line nl (room+1) h]

/-- The pieces of a line are its blocks. -/
theorem mem_pieces_line {n : ℕ} (hn : 0 < n) {l : List α} (h : nl ∉ l.dropLast) {p : List α} :
    p ∈ pieces nl n l ↔ ∃ i, n*i < l.length ∧ p = block n i l := by
  -- on the length: behind the first block the rest of the line is shorter
  induction hlen : l.length using Nat.strong_induction_on generalizing l with
  | _ len ih =>
    subst hlen
    by_cases hne : l = []
    · subst hne
      simp [pieces, piecesFrom]
    · have hpos := List.length_pos_of_ne_nil hne
      have hdrop : nl ∉ (l.drop n).dropLast := by
        rw [List.dropLast_drop_eq_drop_dropLast]
        exact fun hm => h (List.mem_of_mem_drop hm)
      have hrest := ih (l.drop n).length (by rw [List.length_drop]; omega) hdrop rfl
      rw [pieces_line nl hn hne h, List.mem_cons, hrest]
      constructor
      · rintro (rfl | ⟨i, hi, rfl⟩)
        · exact ⟨0, by omega, by rw [block, Nat.mul_zero, List.drop_zero]⟩
        · rw [List.length_drop] at hi
          refine ⟨i+1, ?_, (block_succ n i l).symm⟩
          rw [Nat.mul_succ]
          omega
      · rintro ⟨i, hi, rfl⟩
        cases i with
        | zero => exact .inl (by rw [block, Nat.mul_zero, List.drop_zero])
        | succ i =>
          rw [Nat.mul_succ] at hi
          refine .inr ⟨i, ?_, block_succ n i l⟩
          rw [List.length_drop]
          omega

end Lines

section Dropped

variable {β : Type} {f g : β → List α}

omit [DecidableEq α] in
theorem length_flatMap_le {bs : List β} (h : ∀ b ∈ bs, (f b).length ≤ (g b).length) :
    (bs.flatMap f).length ≤ (bs.flatMap g).length := by
  induction bs with
  | nil => exact Nat.le_refl 0
  | cons b bs ih =>
    obtain ⟨hb, hbs⟩ := List.forall_mem_cons.mp h
    rw [List.flatMap_cons, List.flatMap_cons, List.length_append, List.length_append]
    exact Nat.add_le_add hb (ih hbs)

omit [DecidableEq α] in
/-- Where each part of a text is at most as long as the one it stands for, the texts are
equal only if all parts are. -/
theorem flatMap_eq_flatMap_iff {bs : List β} (h : ∀ b ∈ bs, (f b).length ≤ (g b).length) :
    bs.flatMap f = bs.flatMap g ↔ ∀ b ∈ bs, f b = g b := by
  induction bs with
  | nil => simp
  | cons b bs ih =>
    obtain ⟨hb, hbs⟩ := List.forall_mem_cons.mp h
    have hlen := length_flatMap_le hbs
    rw [List.flatMap_cons, List.flatMap_cons, List.forall_mem_cons, ← ih hbs]
    constructor
    · intro heq
      have hsum := congrArg List.length heq
      rw [List.length_append, List.length_append] at hsum
      exact List.append_inj heq (by omega)
    · rintro ⟨hhead, hrest⟩
      rw [hhead, hrest]

end Dropped

end YuToolbox.LineReader
