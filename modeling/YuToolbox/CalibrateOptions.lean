import YuToolbox.AwkText
import YuToolbox.StepRuns

/-! `serial.sh`: the loop of `Calibrate` over its arguments. Its arms shift once or not at all, and
it goes on until no argument is left. -/
namespace YuToolbox.CalibrateOptions

open Awk StepRuns

/-- The positional parameters, and the two variables that the loop sets. -/
structure State where
  args : List Text
  speed : Text
  cmd : Text

def IsCmd (a : Text) : Prop := a = "-c".toList ∨ a = "--cmd".toList

def IsTps (a : Text) : Prop := a = "-t".toList ∨ a = "--tps".toList

instance (a : Text) : Decidable (IsCmd a) := inferInstanceAs (Decidable (_ ∨ _))

instance (a : Text) : Decidable (IsTps a) := inferInstanceAs (Decidable (_ ∨ _))

/-- The flags that are shifted away. -/
def Shifts (a : Text) : Prop := IsCmd a ∨ IsTps a

instance (a : Text) : Decidable (Shifts a) := inferInstanceAs (Decidable (_ ∨ _))

/-- `$*`. -/
def joined (args : List Text) : Text := List.intercalate " ".toList args

def step (s : State) : Option State :=
  match s.args with
  | [] => none
  | a :: args =>
    -- `Usage` is not defined, and an error message is all that comes of it
    if a = "-h".toList ∨ a = "--help".toList then some s
    else if IsCmd a then some { s with args, cmd := joined args }
    else if IsTps a then some { s with args, speed := a }
    else some s

def IsDecimal (n : Text) : Prop := n ≠ [] ∧ ∀ c ∈ n, c.isDigit = true

/-- `-t N`. -/
def TpsArgs (n : Text) (args : List Text) : Prop :=
  IsDecimal n ∧ ∃ flag, IsTps flag ∧ args = [flag, n]

/-- `-c` and the words of a command. -/
def CmdArgs (words args : List Text) : Prop :=
  words ≠ [] ∧ ∃ flag, IsCmd flag ∧ args = flag :: words

/-- What the end of the loop has to be for arguments that are given as they should be. -/
structure Captured (args : List Text) (t : State) : Prop where
  speed : ∀ n front back, args = front ++ back → TpsArgs n front →
    (back = [] ∨ ∃ words, CmdArgs words back) → t.speed = n
  cmd : ∀ words front back, args = front ++ back → (front = [] ∨ ∃ n, TpsArgs n front) →
    CmdArgs words back → t.cmd = joined words

/-- The loop ends, whatever the variables were, and has set them. -/
def Parses (args : List Text) : Prop :=
  ∀ speed cmd, ∃ t, Reaches step ⟨args, speed, cmd⟩ t ∧ step t = none ∧ Captured args t

/-- `cmd`, after arguments that are all shifted away. -/
def lastCmd : List Text → Text → Text
  | [], cmd => cmd
  | a :: args, cmd => lastCmd args (if IsCmd a then joined args else cmd)

def lastSpeed : List Text → Text → Text
  | [], speed => speed
  | a :: args, speed => lastSpeed args (if IsTps a then a else speed)

theorem step_shifts {a : Text} (h : Shifts a) (args : List Text) (speed cmd : Text) :
    step ⟨a :: args, speed, cmd⟩ =
      some ⟨args, if IsTps a then a else speed, if IsCmd a then joined args else cmd⟩ := by
  rcases h with (rfl | rfl) | (rfl | rfl) <;> rfl

/-- An argument of another kind is never shifted, so the loop stays at it. -/
theorem step_stays {a : Text} (h : ¬ Shifts a) (args : List Text) (speed cmd : Text) :
    step ⟨a :: args, speed, cmd⟩ = some ⟨a :: args, speed, cmd⟩ := by
  have hcmd : ¬ IsCmd a := fun hc => h (Or.inl hc)
  have htps : ¬ IsTps a := fun ht => h (Or.inr ht)
  simp only [step, if_neg hcmd, if_neg htps, ite_self]

theorem reaches_of_shifts {args : List Text} (h : ∀ a ∈ args, Shifts a) (speed cmd : Text) :
    Reaches step ⟨args, speed, cmd⟩ ⟨[], lastSpeed args speed, lastCmd args cmd⟩ := by
  induction args generalizing speed cmd with
  | nil => exact Reaches.refl _
  | cons a args ih =>
    have ha := h a List.mem_cons_self
    exact Reaches.head (step_shifts ha args speed cmd)
      (ih (fun b hb => h b (List.mem_cons_of_mem a hb)) _ _)

theorem not_halts_of_not_shifts {args : List Text} (h : ¬ ∀ a ∈ args, Shifts a) (speed cmd : Text) :
    ¬ Halts step ⟨args, speed, cmd⟩ := by
  apply not_halts_of_invariant (I := fun s => ¬ ∀ a ∈ s.args, Shifts a) ?_ h
  rintro ⟨args, speed, cmd⟩ hs
  cases args with
  | nil => exact absurd (List.forall_mem_nil _) hs
  | cons a args =>
    -- what is not shifted stays behind what is, until it is the first
    by_cases ha : Shifts a
    · refine ⟨_, step_shifts ha args speed cmd, ?_⟩
      intro hrest
      exact hs (List.forall_mem_cons.mpr ⟨ha, hrest⟩)
    · exact ⟨_, step_stays ha args speed cmd, hs⟩

section Cmd

theorem lastCmd_of_none {args : List Text} (h : ∀ a ∈ args, ¬ IsCmd a) (cmd : Text) :
    lastCmd args cmd = cmd := by
  induction args with
  | nil => rfl
  | cons a args ih =>
    rw [lastCmd, if_neg (h a List.mem_cons_self)]
    exact ih (fun b hb => h b (List.mem_cons_of_mem a hb))

theorem length_joined_cons (a : Text) (args : List Text) :
    a.length + (joined args).length ≤ (joined (a :: args)).length := by
  unfold joined
  cases args with
  | nil => simp
  | cons b args =>
    rw [List.intercalate_cons_cons, List.length_append, List.length_append]
    omega

theorem IsCmd.length_pos {a : Text} (h : IsCmd a) : 0 < a.length := by
  rcases h with rfl | rfl <;> decide

/-- A second `-c` among the words cuts off what stands before it. -/
theorem length_lastCmd {args : List Text} (h : ∃ a ∈ args, IsCmd a) (cmd : Text) :
    (lastCmd args cmd).length < (joined args).length := by
  induction args generalizing cmd with
  | nil =>
    obtain ⟨a, ha, -⟩ := h
    exact absurd ha List.not_mem_nil
  | cons a args ih =>
    have hlen := length_joined_cons a args
    rw [lastCmd]
    -- a later one cuts off more, or else this is the one
    by_cases hrest : ∃ b ∈ args, IsCmd b
    · exact Nat.lt_of_lt_of_le (ih hrest _) (by omega)
    · have hnone : ∀ b ∈ args, ¬ IsCmd b := fun b hb hcmd => hrest ⟨b, hb, hcmd⟩
      have ha : IsCmd a := by
        obtain ⟨b, hb, hcmd⟩ := h
        rcases List.mem_cons.mp hb with rfl | hb
        · exact hcmd
        · exact absurd hcmd (hnone b hb)
      have hpos := ha.length_pos
      rw [lastCmd_of_none hnone, if_pos ha]
      omega

end Cmd

theorem IsDecimal.not_shifts {n : Text} (h : IsDecimal n) : ¬ Shifts n := by
  have hdash : '-' ∉ n := by
    intro hc
    exact absurd (h.2 _ hc) (by decide)
  rintro ((rfl | rfl) | (rfl | rfl)) <;> exact hdash (by decide)

/-- Of words with a `-c` among them, only those behind it are captured. -/
theorem captured_iff {args : List Text} (h : ∀ a ∈ args, Shifts a) (speed cmd : Text) :
    Captured args ⟨[], lastSpeed args speed, lastCmd args cmd⟩ ↔
      ∀ flag words, args = flag :: words → IsCmd flag → ∀ a ∈ words, ¬ IsCmd a := by
  -- no argument is a number
  have hfront : ∀ n front back, args = front ++ back → ¬ TpsArgs n front := by
    rintro n front back rfl ⟨hn, flag, -, rfl⟩
    exact hn.not_shifts (h n (by simp))
  constructor
  · rintro hc flag words rfl hflag a ha hcmd
    have hwords : CmdArgs words (flag :: words) := ⟨List.ne_nil_of_mem ha, flag, hflag, rfl⟩
    have heq := hc.cmd words [] _ rfl (Or.inl rfl) hwords
    have hlt := length_lastCmd ⟨a, ha, hcmd⟩ (joined words)
    simp only [lastCmd, if_pos hflag] at heq
    rw [heq] at hlt
    exact Nat.lt_irrefl _ hlt
  · intro hwords
    refine ⟨?_, ?_⟩
    · intro n front back happ hn
      exact absurd hn (hfront n front back happ)
    · rintro words front back happ (rfl | ⟨n, hn⟩) ⟨-, flag, hflag, rfl⟩
      · obtain rfl : args = flag :: words := happ
        simp only [lastCmd, if_pos hflag]
        exact lastCmd_of_none (hwords flag words rfl hflag) _
      · exact absurd hn (hfront n front _ happ)

/-- `-t 10` is the first thing that is not parsed. -/
theorem not_parses_tps : ¬ ∀ args, Parses args := by
  intro h
  obtain ⟨t, hreach, ht, -⟩ := h ["-t".toList, "10".toList] [] []
  have hnot : ¬ ∀ a ∈ ["-t".toList, "10".toList], Shifts a := by
    intro hall
    exact absurd (hall "10".toList (by decide)) (by decide)
  exact not_halts_of_not_shifts hnot [] [] ⟨t, hreach, ht⟩

/-- The loop does what it should exactly for arguments that are all flags of `-c` and `-t`, with
no second `-c` behind one that comes first. -/
theorem parses_iff (args : List Text) :
    Parses args ↔ (∀ a ∈ args, Shifts a) ∧
      ∀ flag words, args = flag :: words → IsCmd flag → ∀ a ∈ words, ¬ IsCmd a := by
  constructor
  · intro h
    obtain ⟨t, hreach, ht, hc⟩ := h [] []
    by_cases hall : ∀ a ∈ args, Shifts a
    · refine ⟨hall, (captured_iff hall [] []).mp ?_⟩
      obtain ⟨fuel, hrun⟩ := hreach.run_eq ht
      obtain ⟨more, hmore⟩ := (reaches_of_shifts hall [] []).run_eq rfl
      rw [← run_deterministic hrun hmore]
      exact hc
    · exact absurd ⟨t, hreach, ht⟩ (not_halts_of_not_shifts hall [] [])
  · rintro ⟨hall, hwords⟩ speed cmd
    exact ⟨_, reaches_of_shifts hall speed cmd, rfl, (captured_iff hall speed cmd).mpr hwords⟩

end YuToolbox.CalibrateOptions
