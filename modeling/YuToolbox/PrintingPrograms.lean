import Mathlib.Tactic.Common

/-! Programs that print and may raise an exception: what was printed before stays printed. Of such
a program one wants to know when it raises which exception, and this follows its text. -/
namespace YuToolbox.PrintingPrograms

/-- A program over exceptions `ε`, printed pieces `ω` and results `α`. -/
abbrev Prog (ε ω α : Type) : Type := ExceptT ε (StateM (List ω)) α

variable {ε ω α β γ : Type}

/-- How the program ends when so much is printed already, and what is printed then. -/
def exec (x : Prog ε ω α) (out : List ω) : Except ε α × List ω := x.run.run out

def print (s : ω) : Prog ε ω Unit := modify (· ++ [s])

/-- The exception comes under the condition, and otherwise the program comes to its end. -/
def RaisesIff (e : ε) (c : Prop) (x : Prog ε ω α) : Prop :=
  ∀ out, (c → (exec x out).1 = .error e) ∧ (¬ c → ∃ a, (exec x out).1 = .ok a)

variable {e : ε} {c d : Prop}

theorem exec_bind (x : Prog ε ω α) (f : α → Prog ε ω β) (out : List ω) :
    exec (x >>= f) out = match exec x out with
      | (.ok a, out') => exec (f a) out'
      | (.error e, out') => (.error e, out') := by
  unfold exec
  rw [ExceptT.run_bind, StateT.run_bind]
  rcases StateT.run x.run out with ⟨_ | _, _⟩ <;> rfl

theorem exec_bind_ok {x : Prog ε ω α} {f : α → Prog ε ω β} {out : List ω} {a : α}
    (h : (exec x out).1 = .ok a) : exec (x >>= f) out = exec (f a) (exec x out).2 := by
  have hx : exec x out = (.ok a, (exec x out).2) := Prod.ext h rfl
  rw [exec_bind, hx]

theorem exec_bind_error {x : Prog ε ω α} {f : α → Prog ε ω β} {out : List ω}
    (h : (exec x out).1 = .error e) : (exec (x >>= f) out).1 = .error e := by
  have hx : exec x out = (.error e, (exec x out).2) := Prod.ext h rfl
  rw [exec_bind, hx]

namespace RaisesIff

theorem of_pure (e : ε) (a : α) : RaisesIff e False (pure a : Prog ε ω α) :=
  fun _ => ⟨False.elim, fun _ => ⟨a, rfl⟩⟩

theorem of_print (e : ε) (s : ω) : RaisesIff e False (print s) :=
  fun _ => ⟨False.elim, fun _ => ⟨(), rfl⟩⟩

theorem of_throw (e : ε) : RaisesIff e True (throw e : Prog ε ω α) :=
  fun _ => ⟨fun _ => rfl, fun h => absurd trivial h⟩

theorem congr {x : Prog ε ω α} (h : RaisesIff e c x) (hcd : c ↔ d) : RaisesIff e d x := by
  rw [← propext hcd]
  exact h

/-- The first part raises it, or the second, whatever value it is given. -/
theorem bind {x : Prog ε ω α} {f : α → Prog ε ω β} (hx : RaisesIff e c x)
    (hf : ∀ a, RaisesIff e d (f a)) : RaisesIff e (c ∨ d) (x >>= f) := by
  intro out
  by_cases hc : c
  · refine ⟨fun _ => exec_bind_error ((hx out).1 hc), ?_⟩
    intro hn
    exact absurd (Or.inl hc) hn
  · obtain ⟨a, ha⟩ := (hx out).2 hc
    rw [exec_bind_ok ha]
    obtain ⟨hd, hnd⟩ := hf a (exec x out).2
    exact ⟨fun h => hd (h.resolve_left hc), fun h => hnd (fun hd => h (Or.inr hd))⟩

theorem bind_never {x : Prog ε ω α} {f : α → Prog ε ω β} (hx : RaisesIff e c x)
    (hf : ∀ a, RaisesIff e False (f a)) : RaisesIff e c (x >>= f) :=
  (hx.bind hf).congr (or_iff_left id)

theorem print_bind {s : ω} {f : Unit → Prog ε ω β} (h : RaisesIff e c (f ())) :
    RaisesIff e c (print s >>= f) :=
  ((of_print e s).bind (fun _ => h)).congr (or_iff_right id)

/-- The loop raises it when one of its rounds does. -/
theorem foldlM {f : β → α → Prog ε ω β} {bad : α → Prop}
    (hf : ∀ b a, RaisesIff e (bad a) (f b a)) (l : List α) (b : β) :
    RaisesIff e (∃ a ∈ l, bad a) (l.foldlM f b) := by
  induction l generalizing b with
  | nil => exact (of_pure e b).congr (by simp)
  | cons a l ih =>
    rw [List.foldlM_cons]
    exact ((hf b a).bind ih).congr (by simp)

end RaisesIff

/-- The same program with its exceptions under other names. -/
def rename {ε' : Type} (f : ε → ε') (x : Prog ε ω α) : Prog ε' ω α := x.adapt f

theorem exec_rename {ε' : Type} (f : ε → ε') (x : Prog ε ω α) (out : List ω) :
    exec (rename f x) out = ((exec x out).1.mapError f, (exec x out).2) := by
  have hrun : exec (rename f x) out =
      match exec x out with
      | (a, out') => (a.mapError f, out') := rfl
  rw [hrun]

/-- The pieces in front of the first that is missing. -/
def shown : List (Option ω) → List ω
  | [] => []
  | none :: _ => []
  | some s :: pieces => s :: shown pieces

/-- The pieces come out one after the other. The first that is missing raises the exception, and
where none is, the program ends with the value. -/
def Writes (e : ε) (pieces : List (Option ω)) (a : α) (x : Prog ε ω α) : Prop :=
  ∀ out, exec x out =
    (if pieces.all Option.isSome then .ok a else .error e, out ++ shown pieces)

/-- The pieces of a loop whose rounds hand a state on. -/
def loopPieces (pieces : β → α → List (Option ω)) (next : β → α → β) :
    β → List α → List (Option ω)
  | _, [] => []
  | b, a :: l => pieces b a ++ loopPieces pieces next (next b a) l

theorem shown_append_of_all {pieces : List (Option ω)} (h : pieces.all Option.isSome = true)
    (more : List (Option ω)) : shown (pieces ++ more) = shown pieces ++ shown more := by
  induction pieces with
  | nil => rfl
  | cons piece pieces ih =>
    rw [List.all_cons, Bool.and_eq_true] at h
    obtain ⟨s, rfl⟩ := Option.isSome_iff_exists.mp h.1
    rw [List.cons_append, shown, shown, ih h.2, List.cons_append]

theorem shown_append_of_missing {pieces : List (Option ω)}
    (h : pieces.all Option.isSome = false) (more : List (Option ω)) :
    shown (pieces ++ more) = shown pieces := by
  induction pieces with
  | nil => cases h
  | cons piece pieces ih =>
    cases piece with
    | none => rfl
    | some s =>
      rw [List.cons_append, shown, shown, ih (by simpa using h)]

namespace Writes

variable {pieces more : List (Option ω)} {a : α} {b : β}

theorem of_pure (e : ε) (a : α) : Writes e [] a (pure a : Prog ε ω α) := by
  intro out
  rw [shown, List.append_nil]
  rfl

theorem of_print (e : ε) (s : ω) : Writes e [some s] () (print s) := fun _ => rfl

theorem rename {ε' : Type} (f : ε → ε') {x : Prog ε ω α} (h : Writes e pieces a x) :
    Writes (f e) pieces a (rename f x) := by
  intro out
  rw [exec_rename, h out]
  cases pieces.all Option.isSome <;> rfl

theorem of_throw (e : ε) (a : α) : Writes e [none] a (throw e : Prog ε ω α) := by
  intro out
  rw [shown, List.append_nil]
  rfl

theorem bind {x : Prog ε ω α} {f : α → Prog ε ω β} (hx : Writes e pieces a x)
    (hf : Writes e more b (f a)) : Writes e (pieces ++ more) b (x >>= f) := by
  intro out
  rw [exec_bind, hx out, List.all_append]
  cases hall : pieces.all Option.isSome with
  | true =>
    rw [if_pos rfl, Bool.true_and, shown_append_of_all hall, ← List.append_assoc]
    exact hf (out ++ shown pieces)
  | false =>
    -- the rest is not run
    rw [shown_append_of_missing hall]
    rfl

theorem print_bind {s : ω} {f : Unit → Prog ε ω β} (h : Writes e pieces b (f ())) :
    Writes e (some s :: pieces) b (print s >>= f) :=
  (of_print e s).bind h

/-- A loop over what a list stands for. -/
theorem foldlM {f : β → γ → Prog ε ω β} {g : α → γ} {pieces : β → α → List (Option ω)}
    {next : β → α → β} (l : List α)
    (hf : ∀ a ∈ l, ∀ b, Writes e (pieces b a) (next b a) (f b (g a))) (b : β) :
    Writes e (loopPieces pieces next b l) (l.foldl next b) ((l.map g).foldlM f b) := by
  induction l generalizing b with
  | nil => exact of_pure e b
  | cons a l ih =>
    obtain ⟨ha, hl⟩ := List.forall_mem_cons.mp hf
    rw [List.map_cons, List.foldlM_cons]
    exact (ha b).bind (ih hl (next b a))

end Writes

end YuToolbox.PrintingPrograms
