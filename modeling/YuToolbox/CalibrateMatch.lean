import YuToolbox.CalibrateRun

/-! `serial.sh`: what a report of `Calibrate` rests on, and what a pass of its outer loop does. -/
namespace YuToolbox.CalibrateMatch

open StepRuns CalibrateLoop

/-- What the events say with the clock: the call of `date` that began the pass, how many calls
there have been, how many commands the pass has run, and what every round has measured. -/
structure Record where
  begun : ℕ
  calls : ℕ
  commands : ℕ
  samples : List ℤ

def Record.next (clock : ℕ → ℤ) (r : Record) : Event → Record
  | .command =>
    { r with
      calls := r.calls+1
      commands := r.commands+1
      -- runs for each second that has begun
      samples := r.samples ++ [((r.commands+1 : ℕ) : ℤ) / (clock r.calls - clock r.begun+1)] }
  -- a change ends its pass, and the next one looks at the clock first
  | .change => { r with begun := r.calls, calls := r.calls+1, commands := 0 }
  | .matched => r

def record (clock : ℕ → ℤ) (events : List Event) : Record :=
  events.foldl (Record.next clock) ⟨0, 1, 0, []⟩

/-- More than ten rounds in a row have measured the speed. What `hit` was before the function counts
as long as no round has measured another one. -/
def Sustained (setup : Setup) (r : Record) : Prop :=
  ∃ earlier last, r.samples = earlier ++ last ∧ (∀ tps ∈ last, tps = setup.speed) ∧ last ≠ [] ∧
    (10 < last.length ∨ earlier = [] ∧ 10 < setup.hit+last.length)

/-- The pass has run the command about a thousand times, and only the last run ended behind the
time that a thousand runs have. -/
structure Complete (setup : Setup) (r : Record) : Prop where
  least : 995 ≤ r.commands
  most : r.commands ≤ 1005
  within : ∀ k < r.commands,
    setup.clock (r.begun+k) - setup.clock r.begun ≤ Int.tdiv 1000 setup.speed
  behind : Int.tdiv 1000 setup.speed <
    setup.clock (r.begun+r.commands) - setup.clock r.begun

/-- `hit` is the number of the last rounds that have measured the speed. -/
def Hits (setup : Setup) (samples : List ℤ) (hit : ℤ) : Prop :=
  ∃ earlier last, samples = earlier ++ last ∧ (∀ tps ∈ last, tps = setup.speed) ∧
    (hit = last.length ∨ earlier = [] ∧ hit = setup.hit+last.length)

/-- The next pass begins with the next call of `date`. -/
structure Awaits (setup : Setup) (s : State) : Prop where
  begun : (record setup.clock s.events).begun = s.tick
  calls : (record setup.clock s.events).calls = s.tick+1
  commands : (record setup.clock s.events).commands = 0

/-- The variables of a pass are what its events say. -/
structure Counts (setup : Setup) (s : State) : Prop where
  calls : (record setup.clock s.events).calls = s.tick
  begun : (record setup.clock s.events).begun+1+(record setup.clock s.events).commands = s.tick
  tstart : s.tstart = setup.clock (record setup.clock s.events).begun
  run : s.run = 1000 - (record setup.clock s.events).commands
  dur : s.dur = Int.tdiv 1000 setup.speed
  diff : 0 < (record setup.clock s.events).commands →
    s.diff = setup.clock ((record setup.clock s.events).begun+
      (record setup.clock s.events).commands) - s.tstart
  within : ∀ k < (record setup.clock s.events).commands,
    setup.clock ((record setup.clock s.events).begun+k) - s.tstart ≤ s.dur

/-- What is known at each point of a pass. -/
def Known (setup : Setup) (s : State) : Prop :=
  match s.pc with
  | .passStart => Awaits setup s
  | .inner => s.reason = 0 ∧ Counts setup s
  | .passEnd =>
    0 < s.reason ∧ Awaits setup s ∨
      ¬ 0 < s.reason ∧ Counts setup s ∧ (s.run < -5 ∨ s.dur < s.diff)
  | .ended => True

/-- The report is the last event, and there is something that it rests on. -/
def Reported (setup : Setup) (s : State) : Prop :=
  .matched ∉ s.events ∨
    s.pc = .ended ∧ ∃ es, s.events = es ++ [.matched] ∧ .matched ∉ es ∧
      (Sustained setup (record setup.clock es) ∨ Complete setup (record setup.clock es))

section Record

variable {setup : Setup} {samples : List ℤ} {hit tps : ℤ}

theorem record_append (clock : ℕ → ℤ) (events : List Event) (e : Event) :
    record clock (events ++ [e]) = (record clock events).next clock e := by
  rw [record, List.foldl_append]
  rfl

theorem hits_append (h : Hits setup samples hit) :
    Hits setup (samples ++ [tps]) (if tps = setup.speed then hit+1 else 0) := by
  obtain ⟨earlier, last, hsamples, hlast, hhit⟩ := h
  by_cases htps : tps = setup.speed
  · have hall : ∀ x ∈ last ++ [tps], x = setup.speed := by
      intro x hx
      rcases List.mem_append.mp hx with hx | hx
      · exact hlast x hx
      · exact (List.mem_singleton.mp hx).trans htps
    refine ⟨earlier, last ++ [tps], ?_, hall, ?_⟩
    · rw [hsamples, List.append_assoc]
    rw [if_pos htps, List.length_append, List.length_singleton]
    rcases hhit with hhit | ⟨hnone, hhit⟩
    · left
      omega
    · right
      refine ⟨hnone, ?_⟩
      omega
  · -- the count begins anew
    refine ⟨samples ++ [tps], [], (List.append_nil _).symm, List.forall_mem_nil _, Or.inl ?_⟩
    rw [if_neg htps]
    rfl

theorem sustained_of_hits {r : Record} (h : Hits setup r.samples hit) (hsome : r.samples ≠ [])
    (hhit : 10 < hit) : Sustained setup r := by
  obtain ⟨earlier, last, hsamples, hlast, hcount⟩ := h
  rcases hcount with hcount | ⟨hnone, hcount⟩
  · have hten : 10 < last.length := by omega
    have hne : last ≠ [] := List.ne_nil_of_length_pos (by omega)
    exact ⟨earlier, last, hsamples, hlast, hne, Or.inl hten⟩
  · have hne : last ≠ [] := by
      rw [hnone, List.nil_append] at hsamples
      rwa [← hsamples]
    exact ⟨earlier, last, hsamples, hlast, hne, Or.inr ⟨hnone, hcount ▸ hhit⟩⟩

end Record

section Steps

variable {setup : Setup} {s t : State}

theorem window_keeps (delta : ℤ) (s : State) :
    (window delta s).tick = s.tick ∧ (window delta s).hit = s.hit := by
  unfold window
  split_ifs
  · exact ⟨rfl, rfl⟩
  · exact ⟨rfl, rfl⟩
  · exact ⟨rfl, rfl⟩
  · exact ⟨rfl, rfl⟩
  · dsimp only
    split
    · exact ⟨rfl, rfl⟩
    · exact ⟨rfl, rfl⟩
  · exact ⟨rfl, rfl⟩

theorem finish_keeps (s : State) : (finish s).tick = s.tick ∧ (finish s).hit = s.hit := by
  unfold finish
  split_ifs
  · exact ⟨rfl, rfl⟩
  · exact ⟨rfl, rfl⟩
  · exact ⟨rfl, rfl⟩
  · dsimp only
    split
    · exact ⟨rfl, rfl⟩
    · exact ⟨rfl, rfl⟩

/-- What a round makes of its sample, with the reason for it. -/
theorem settle_spec (setup : Setup) (s : State) :
    (s.tps = setup.speed ∧ 10 < s.hit ∧
        settle setup s = { s with pc := .ended, events := s.events ++ [.matched] }) ∨
      settle setup s = window (s.tps - setup.speed) s ∨
      (s.run < -5 ∧ settle setup s = { s with pc := .passEnd }) ∨
      (-5 ≤ s.run ∧ settle setup s = s) := by
  unfold settle
  split
  · rename_i h
    exact Or.inl ⟨h.1, h.2, rfl⟩
  split
  · exact Or.inr (Or.inl rfl)
  split
  · rename_i h
    exact Or.inr (Or.inr (Or.inl ⟨h, rfl⟩))
  · rename_i h
    exact Or.inr (Or.inr (Or.inr ⟨Int.not_lt.mp h, rfl⟩))

/-- What the end of a pass without a window may be. -/
theorem finish_spec (h : ¬ 0 < s.reason) :
    (s.run ≤ 5 ∧ -5 ≤ s.run ∧
        finish s = { s with pc := .ended, events := s.events ++ [.matched] }) ∨
      ((finish s).events = s.events ++ [.change] ∧
        ((finish s).pc = .passStart ∨ (finish s).pc = .ended)) := by
  rw [finish, if_neg h]
  split
  · rename_i hrun
    exact Or.inl ⟨hrun.1, hrun.2, rfl⟩
  right
  split
  · exact ⟨rfl, Or.inl rfl⟩
  · dsimp only
    split
    · exact ⟨rfl, Or.inr rfl⟩
    · exact ⟨rfl, Or.inl rfl⟩

end Steps

section Reports

variable {setup : Setup} {s t : State}

/-- A change ends a pass, so the next one is awaited. -/
theorem awaits_change (hcalls : (record setup.clock s.events).calls = s.tick)
    (hevents : t.events = s.events ++ [.change]) (htick : t.tick = s.tick) : Awaits setup t := by
  have hrecord : record setup.clock t.events =
      (record setup.clock s.events).next setup.clock .change := by
    rw [hevents, record_append]
  refine ⟨?_, ?_, ?_⟩
  · rw [hrecord, htick]
    exact hcalls
  · rw [hrecord, htick]
    exact congrArg (·+1) hcalls
  · rw [hrecord]
    rfl

theorem counts_setOut (h : Awaits setup s) : Counts setup (setOut setup s) := by
  obtain ⟨hbegun, hcalls, hcommands⟩ := h
  have hnone : ¬ 0 < (record setup.clock s.events).commands := by omega
  refine ⟨hcalls, ?_, ?_, ?_, rfl, fun hpos => absurd hpos hnone, ?_⟩
  · simp only [setOut, hbegun, hcommands]
  · simp only [setOut, hbegun]
  · simp only [setOut, hcommands]
    rfl
  · intro k hk
    exact absurd (Nat.zero_lt_of_lt hk) hnone

/-- A round is what the record takes it for. -/
theorem sample_tps (h : Counts setup s) :
    (sample setup s).tps = (((record setup.clock s.events).commands+1 : ℕ) : ℤ) /
      (setup.clock (record setup.clock s.events).calls -
        setup.clock (record setup.clock s.events).begun+1) := by
  have hruns : 1001 - s.run = (((record setup.clock s.events).commands+1 : ℕ) : ℤ) := by
    have hrun := h.run
    omega
  simp only [sample, hruns, h.calls, h.tstart]
  exact Int.tdiv_eq_ediv_of_nonneg (Int.natCast_nonneg _)

theorem counts_sample (h : Counts setup s) (hd : s.diff ≤ s.dur) :
    Counts setup (sample setup s) := by
  have hrecord : record setup.clock (sample setup s).events =
      (record setup.clock s.events).next setup.clock .command := record_append _ _ _
  have hcall : (record setup.clock s.events).begun+((record setup.clock s.events).commands+1) =
      s.tick := by
    have hbegun := h.begun
    omega
  refine ⟨?_, ?_, ?_, ?_, h.dur, ?_, ?_⟩
  · rw [hrecord]
    exact congrArg (·+1) h.calls
  · rw [hrecord]
    exact congrArg (·+1) h.begun
  · rw [hrecord]
    exact h.tstart
  · rw [hrecord]
    have hrun := h.run
    simp only [sample, Record.next]
    omega
  · intro _
    rw [hrecord]
    simp only [sample, Record.next, hcall]
  · intro k hk
    rw [hrecord] at hk ⊢
    simp only [Record.next] at hk
    rcases Nat.lt_succ_iff_lt_or_eq.mp hk with hk | rfl
    · exact h.within k hk
    -- the last sample before this one let the loop go on
    rcases Nat.eq_zero_or_pos (record setup.clock s.events).commands with hzero | hpos
    · have hdur : 0 ≤ Int.tdiv 1000 setup.speed :=
        Int.tdiv_nonneg (by decide) (Int.le_trans (by decide) setup.speed_pos)
      have hnow : setup.clock (record setup.clock s.events).begun - s.tstart = 0 := by
        rw [h.tstart, Int.sub_self]
      rw [hzero, Nat.add_zero]
      exact (hnow.trans_le hdur).trans_eq h.dur.symm
    · have hdiff := h.diff hpos
      rw [hdiff] at hd
      exact hd

/-- The inner loop ends without a change, and its counters stay as they are. -/
theorem known_passEnd (hreason : s.reason = 0) (h : Counts setup s)
    (hover : s.run < -5 ∨ s.dur < s.diff) : Known setup { s with pc := .passEnd } := by
  have hcounts : Counts setup { s with pc := .passEnd } :=
    ⟨h.calls, h.begun, h.tstart, h.run, h.dur, h.diff, h.within⟩
  refine Or.inr ⟨?_, hcounts, hover⟩
  rw [hreason]
  exact lt_irrefl 0

theorem known_step (h : step setup s = some t) (hs : Known setup s) : Known setup t := by
  unfold Known at hs
  rcases step_cases h with ⟨hpc, rfl⟩ | ⟨hpc, hd, rfl⟩ | ⟨hpc, hd, rfl⟩ | ⟨hpc, rfl⟩
  · rw [hpc] at hs
    exact ⟨rfl, counts_setOut hs⟩
  · rw [hpc] at hs
    obtain ⟨hreason, hcounts⟩ := hs
    have hsample := counts_sample hcounts hd
    have hpcSample : (sample setup s).pc = .inner := hpc
    rcases settle_spec setup (sample setup s) with ⟨-, -, heq⟩ | heq | ⟨hrun, heq⟩ | ⟨-, heq⟩
    · rw [heq]
      trivial
    · rw [heq]
      obtain ⟨hevents, -, hend | ⟨hend, hpos⟩⟩ :=
        window_spec ((sample setup s).tps - setup.speed) (sample setup s)
      · rw [Known, hend]
        trivial
      · rw [Known, hend]
        exact Or.inl ⟨hpos, awaits_change hsample.calls hevents (window_keeps _ _).1⟩
    · rw [heq]
      exact known_passEnd hreason hsample (Or.inl hrun)
    · rw [heq, Known, hpcSample]
      exact ⟨hreason, hsample⟩
  · rw [hpc] at hs
    obtain ⟨hreason, hcounts⟩ := hs
    exact known_passEnd hreason hcounts (Or.inr (Int.not_le.mp hd))
  · rw [hpc] at hs
    rcases hs with ⟨hreason, hawaits⟩ | ⟨hreason, hcounts, -⟩
    · have hfinish : finish s = { s with pc := .passStart } := if_pos hreason
      rw [hfinish]
      exact ⟨hawaits.begun, hawaits.calls, hawaits.commands⟩
    · rcases finish_spec hreason with ⟨-, -, heq⟩ | ⟨hevents, hend | hend⟩
      · rw [heq]
        trivial
      · rw [Known, hend]
        exact awaits_change hcounts.calls hevents (finish_keeps s).1
      · rw [Known, hend]
        trivial

/-- What is no command leaves the samples as they are. -/
theorem samples_append (clock : ℕ → ℤ) (events : List Event) {e : Event} (he : e ≠ .command) :
    (record clock (events ++ [e])).samples = (record clock events).samples := by
  rw [record_append]
  cases e with
  | command => exact absurd rfl he
  | change => rfl
  | matched => rfl

theorem samples_sample (h : Counts setup s) :
    (record setup.clock (sample setup s).events).samples =
      (record setup.clock s.events).samples ++ [(sample setup s).tps] := by
  have hrecord : record setup.clock (sample setup s).events =
      (record setup.clock s.events).next setup.clock .command := record_append _ _ _
  rw [hrecord, sample_tps h]
  rfl

theorem hits_sample (h : Counts setup s)
    (hs : Hits setup (record setup.clock s.events).samples s.hit) :
    Hits setup (record setup.clock (sample setup s).events).samples (sample setup s).hit := by
  rw [samples_sample h]
  exact hits_append hs

theorem hits_step (h : step setup s = some t) (hknown : Known setup s)
    (hs : Hits setup (record setup.clock s.events).samples s.hit) :
    Hits setup (record setup.clock t.events).samples t.hit := by
  rcases step_cases h with ⟨-, rfl⟩ | ⟨hpc, -, rfl⟩ | ⟨-, -, rfl⟩ | ⟨-, rfl⟩
  · exact hs
  · have hcounts : Counts setup s := by
      rw [Known, hpc] at hknown
      exact hknown.2
    have hsample := hits_sample hcounts hs
    rcases settle_spec setup (sample setup s) with ⟨-, -, heq⟩ | heq | ⟨-, heq⟩ | ⟨-, heq⟩
    · rw [heq, samples_append _ _ (by decide)]
      exact hsample
    · rw [heq, (window_spec _ _).1, samples_append _ _ (by decide), (window_keeps _ _).2]
      exact hsample
    · rw [heq]
      exact hsample
    · rw [heq]
      exact hsample
  · exact hs
  · rw [(finish_keeps s).2]
    obtain ⟨-, ⟨-, hevents, -⟩ | ⟨-, hevents, -⟩ | ⟨-, hevents, -⟩⟩ := finish_cases s
    · rw [hevents]
      exact hs
    · rw [hevents, samples_append _ _ (by decide)]
      exact hs
    · rw [hevents, samples_append _ _ (by decide)]
      exact hs

/-- A pass whose commands are as many as a match needs has ended by its time. -/
theorem complete_of_counts (h : Counts setup s) (hbehind : s.run < -5 ∨ s.dur < s.diff)
    (hmin : -5 ≤ s.run) (hmax : s.run ≤ 5) : Complete setup (record setup.clock s.events) := by
  have hrun := h.run
  have hleast : 995 ≤ (record setup.clock s.events).commands := by omega
  have hmost : (record setup.clock s.events).commands ≤ 1005 := by omega
  have hdiff := h.diff (by omega)
  have hlate : s.dur < s.diff := hbehind.resolve_left (Int.not_lt.mpr hmin)
  refine ⟨hleast, hmost, ?_, ?_⟩
  · intro k hk
    have hwithin := h.within k hk
    rwa [h.tstart, h.dur] at hwithin
  · rwa [hdiff, h.tstart, h.dur] at hlate

theorem reported_step (h : step setup s = some t) (hknown : Known setup s)
    (hhits : Hits setup (record setup.clock s.events).samples s.hit) (hs : Reported setup s) :
    Reported setup t := by
  have hpcs : s.pc ≠ .ended := by
    intro hend
    rw [step, hend] at h
    cases h
  have hnone : .matched ∉ s.events := hs.resolve_right (fun hr => hpcs hr.1)
  have hmore {events : List Event} (h : .matched ∉ events) {e : Event} (he : .matched ≠ e) :
      .matched ∉ events ++ [e] := by
    rw [List.mem_append, List.mem_singleton, not_or]
    exact ⟨h, he⟩
  rcases step_cases h with ⟨-, rfl⟩ | ⟨hpc, hd, rfl⟩ | ⟨-, -, rfl⟩ | ⟨hpc, rfl⟩
  · exact Or.inl hnone
  · rw [Known, hpc] at hknown
    have hsample : .matched ∉ (sample setup s).events := hmore hnone (by decide)
    rcases settle_spec setup (sample setup s) with ⟨-, hhit, heq⟩ | heq | ⟨-, heq⟩ | ⟨-, heq⟩
    · rw [heq]
      refine Or.inr ⟨rfl, (sample setup s).events, rfl, hsample, Or.inl ?_⟩
      apply sustained_of_hits (hits_sample hknown.2 hhits) _ hhit
      rw [samples_sample hknown.2]
      exact List.concat_ne_nil _ _
    · rw [heq, Reported, (window_spec _ _).1]
      exact Or.inl (hmore hsample (by decide))
    · rw [heq]
      exact Or.inl hsample
    · rw [heq]
      exact Or.inl hsample
  · exact Or.inl hnone
  · rw [Known, hpc] at hknown
    rcases hknown with ⟨hreason, -⟩ | ⟨hreason, hcounts, hbehind⟩
    · have hfinish : finish s = { s with pc := .passStart } := if_pos hreason
      rw [hfinish]
      exact Or.inl hnone
    · rcases finish_spec hreason with ⟨hmax, hmin, heq⟩ | ⟨hevents, -⟩
      · rw [heq]
        exact Or.inr ⟨rfl, s.events, rfl, hnone,
          Or.inr (complete_of_counts hcounts hbehind hmin hmax)⟩
      · rw [Reported, hevents]
        exact Or.inl (hmore hnone (by decide))

theorem reported_of_reaches (h : Reaches (step setup) (start setup) s) : Reported setup s := by
  have hstart : Known setup (start setup) ∧
      Hits setup (record setup.clock (start setup).events).samples (start setup).hit ∧
      Reported setup (start setup) := by
    refine ⟨⟨rfl, rfl, rfl⟩, ⟨[], [], rfl, List.forall_mem_nil _, Or.inr ⟨rfl, ?_⟩⟩, ?_⟩
    · exact (Int.add_zero _).symm
    · exact Or.inl List.not_mem_nil
  have hall := h.invariant (P := fun s => Known setup s ∧
      Hits setup (record setup.clock s.events).samples s.hit ∧ Reported setup s) ?_ hstart
  · exact hall.2.2
  · rintro u v - ⟨hknown, hhits, hreported⟩ huv
    exact ⟨known_step huv hknown, hits_step huv hknown hhits,
      reported_step huv hknown hhits hreported⟩

end Reports

section Law

open CalibrateLoad (check divide)
open CalibrateRun (next ofSetup reaches_view)

theorem speed_of_check {load : ℕ} {speed : ℤ} {lines : List Awk.Text}
    (h : check load speed = some (lines, false)) : speed*load ≤ 1000000 := by
  unfold check at h
  split at h
  · cases h
  obtain ⟨most, hmost, h⟩ := Option.bind_eq_some_iff.mp h
  -- the largest speed has been divided, so the load is not 0
  unfold divide at hmost
  split at hmost
  · cases hmost
  rename_i hload
  obtain rfl := Option.some.inj hmost
  have hpos : (0 : ℤ) < load := by omega
  split at h
  · cases h
  rename_i hle
  rw [Int.tdiv_eq_ediv_of_nonneg (by decide)] at hle
  exact (Int.le_ediv_iff_mul_le hpos).mp (Int.not_lt.mp hle)

/-- Behind the guard, what is reached in the loops is reached from their start. -/
theorem loops_of_reaches {setup : Setup} {load : ℕ} {s : CalibrateRun.State}
    (h : Reaches (next wrap (ofSetup setup)) (.measured load) (.loops s)) :
    setup.speed*load ≤ 1000000 ∧ Reaches (step setup) (start setup) s.toState := by
  have hinv : ∀ p, Reaches (next wrap (ofSetup setup)) (.measured load) p →
      p = .measured load ∨ p = .exited ∨ p = .aborted ∨ ∃ u, p = .loops u ∧
        setup.speed*load ≤ 1000000 ∧
        Reaches (CalibrateRun.step wrap (ofSetup setup))
          (CalibrateRun.start (ofSetup setup)) u := by
    intro p hp
    apply hp.invariant _ (Or.inl rfl)
    rintro u v - hu huv
    rcases hu with rfl | rfl | rfl | ⟨u, rfl, hspeed, hu⟩
    · rw [next] at huv
      split at huv
      · obtain rfl := Option.some.inj huv
        exact Or.inr (Or.inr (Or.inl rfl))
      · obtain rfl := Option.some.inj huv
        exact Or.inr (Or.inl rfl)
      · rename_i lines hcheck
        obtain rfl := Option.some.inj huv
        exact Or.inr (Or.inr (Or.inr ⟨_, rfl, speed_of_check hcheck, Reaches.refl _⟩))
    · cases huv
    · cases huv
    · obtain ⟨t, ht, rfl⟩ := Option.map_eq_some_iff.mp huv
      exact Or.inr (Or.inr (Or.inr ⟨t, rfl, hspeed, hu.trans (Reaches.single ht)⟩))
  rcases hinv _ h with heq | heq | heq | ⟨u, heq, hspeed, hu⟩
  · cases heq
  · cases heq
  · cases heq
  · obtain rfl := CalibrateRun.Point.loops.inj heq
    exact ⟨hspeed, (reaches_view hu).2⟩

/-- With a clock that does not go back and a speed of at least 1, however long the command takes:
`Calibrate` reports at most once and then ends, and it reports a speed that the measured load
allows, after more than ten rounds in a row that have measured it or at the end of a pass that has
run the command about a thousand times in the time for a thousand runs. -/
theorem matched_law (setup : Setup) (load : ℕ) (s : CalibrateRun.State)
    (h : Reaches (next wrap (ofSetup setup)) (.measured load) (.loops s))
    (hmatched : .matched ∈ s.events) :
    setup.speed*load ≤ 1000000 ∧ s.pc = .ended ∧
      ∃ es, s.events = es ++ [.matched] ∧ .matched ∉ es ∧
        (Sustained setup (record setup.clock es) ∨ Complete setup (record setup.clock es)) := by
  obtain ⟨hspeed, hreach⟩ := loops_of_reaches h
  exact ⟨hspeed, (reported_of_reaches hreach).resolve_left (not_not_intro hmatched)⟩

/-- One command each second, ten of which have been counted before. -/
def quickRun : Setup where
  speed := 1
  speed_pos := Int.le_refl 1
  clock := fun _ => 0
  clock_mono := fun _ _ _ => Int.le_refl 0
  diff := 0
  hit := 10

theorem matched_law_quickRun : ∃ s : CalibrateRun.State, s.events = [.command, .matched] ∧
    quickRun.speed*(1 : ℕ) ≤ 1000000 ∧ s.pc = .ended ∧
      ∃ es, s.events = es ++ [.matched] ∧ .matched ∉ es ∧
        (Sustained quickRun (record quickRun.clock es) ∨
          Complete quickRun (record quickRun.clock es)) := by
  obtain ⟨s, hreach, hevents⟩ : ∃ s,
      Reaches (next wrap (ofSetup quickRun)) (.measured 1) (.loops s) ∧
        s.events = [.command, .matched] :=
    ⟨_, Reaches.head rfl (Reaches.head rfl (Reaches.single rfl)), rfl⟩
  have hmatched : .matched ∈ s.events := by
    rw [hevents]
    decide
  exact ⟨s, hevents, matched_law quickRun 1 s hreach hmatched⟩

end Law

section Passes

variable {setup : Setup} {s : State}

/-- After at most so many commands and one event more, the pass is over. -/
def PassEnds (setup : Setup) (most : ℕ) (s : State) : Prop :=
  ∃ n e t, n ≤ most ∧ e ≠ .command ∧ Reaches (step setup) s t ∧
    t.events = s.events ++ List.replicate n .command ++ [e] ∧
    (t.pc = .passStart ∧ e = .change ∨ t.pc = .ended)

theorem PassEnds.mono {m n : ℕ} (hmn : m ≤ n) (h : PassEnds setup m s) : PassEnds setup n s := by
  obtain ⟨k, e, t, hk, hrest⟩ := h
  exact ⟨k, e, t, Nat.le_trans hk hmn, hrest⟩

/-- The end of a pass that no window has broken off. -/
theorem passEnds_finish (hpc : s.pc = .passEnd) (hreason : ¬ 0 < s.reason) :
    PassEnds setup 0 s := by
  have hstep : step setup s = some (finish s) := by rw [step, hpc]
  have hreach := Reaches.single hstep
  rw [PassEnds]
  rcases finish_spec hreason with ⟨-, -, heq⟩ | ⟨hevents, hend⟩
  · refine ⟨0, .matched, finish s, Nat.le_refl 0, by decide, hreach, ?_, Or.inr ?_⟩
    · rw [heq, List.replicate_zero, List.append_nil]
    · rw [heq]
  · refine ⟨0, .change, finish s, Nat.le_refl 0, by decide, hreach, ?_, ?_⟩
    · rw [hevents, List.replicate_zero, List.append_nil]
    · exact hend.imp_left (fun hstart => ⟨hstart, rfl⟩)

theorem PassEnds.quiet {m : ℕ} {t : State} (hstep : step setup s = some t)
    (hevents : t.events = s.events) (h : PassEnds setup m t) : PassEnds setup m s := by
  obtain ⟨n, e, u, hn, he, hreach, hu, hend⟩ := h
  rw [hevents] at hu
  exact ⟨n, e, u, hn, he, Reaches.head hstep hreach, hu, hend⟩

theorem PassEnds.command {m : ℕ} {t : State} (hstep : step setup s = some t)
    (hevents : t.events = s.events ++ [.command]) (h : PassEnds setup m t) :
    PassEnds setup (m+1) s := by
  obtain ⟨n, e, u, hn, he, hreach, hu, hend⟩ := h
  refine ⟨n+1, e, u, Nat.succ_le_succ hn, he, Reaches.head hstep hreach, ?_, hend⟩
  rw [hu, hevents, List.replicate_succ, List.append_assoc s.events, List.singleton_append]

/-- The end of a pass that a window has broken off. -/
theorem passEnds_window {t : State} (hstep : step setup s = some t)
    (hevents : t.events = s.events ++ [.command] ++ [.change])
    (hend : t.pc = .ended ∨ t.pc = .passEnd ∧ 0 < t.reason) : PassEnds setup 1 s := by
  have hone : s.events ++ [.command] ++ [.change] =
      s.events ++ List.replicate 1 .command ++ [.change] := rfl
  rcases hend with hend | ⟨hend, hreason⟩
  · exact ⟨1, .change, t, Nat.le_refl 1, by decide, Reaches.single hstep, hevents.trans hone,
      Or.inr hend⟩
  · have hfinish : step setup t = some { t with pc := .passStart } := by
      rw [step, hend]
      exact congrArg some (if_pos hreason)
    exact ⟨1, .change, _, Nat.le_refl 1, by decide, Reaches.head hstep (Reaches.single hfinish),
      hevents.trans hone, Or.inl ⟨rfl, rfl⟩⟩

/-- By the rounds that `run` still allows. -/
theorem passEnds_inner {m : ℕ} (hpc : s.pc = .inner) (hreason : s.reason = 0)
    (hleast : -5 ≤ s.run) (hrun : s.run+6 ≤ m) : PassEnds setup m s := by
  induction m generalizing s with
  | zero => omega
  | succ m ih =>
    have hnot (t : State) (ht : t.reason = s.reason) : ¬ 0 < t.reason := by
      rw [ht, hreason]
      exact lt_irrefl 0
    by_cases hd : s.diff ≤ s.dur
    · have hstep : step setup s = some (settle setup (sample setup s)) := by
        rw [step, hpc]
        exact congrArg some (if_pos hd)
      rcases settle_spec setup (sample setup s) with ⟨-, -, heq⟩ | heq | ⟨-, heq⟩ | ⟨hleast, heq⟩
      · rw [heq] at hstep
        exact ⟨1, .matched, _, Nat.succ_le_succ (Nat.zero_le m), by decide, Reaches.single hstep,
          rfl, Or.inr rfl⟩
      · rw [heq] at hstep
        obtain ⟨hevents, -, hend⟩ :=
          window_spec ((sample setup s).tps - setup.speed) (sample setup s)
        have hone := passEnds_window hstep hevents hend
        exact hone.mono (Nat.succ_le_succ (Nat.zero_le m))
      · rw [heq] at hstep
        have hover : PassEnds setup 0 { sample setup s with pc := .passEnd } :=
          passEnds_finish rfl (hnot _ rfl)
        exact (PassEnds.command hstep rfl hover).mono (Nat.succ_le_succ (Nat.zero_le m))
      · -- the loop goes on, with one round less
        rw [heq] at hstep
        have hless : (sample setup s).run+6 ≤ m := by
          simp only [sample]
          omega
        exact PassEnds.command hstep rfl (ih hpc hreason hleast hless)
    · have hstep : step setup s = some { s with pc := .passEnd } := by
        rw [step, hpc]
        exact congrArg some (if_neg hd)
      have hover := PassEnds.quiet hstep rfl (passEnds_finish rfl (hnot _ rfl))
      exact hover.mono (Nat.zero_le _)

/-- With a clock that does not go back and a speed of at least 1, a pass runs the command at most
1006 times. Then it makes its one change of `us_sleep` or the report, and the next pass begins or
the function ends. -/
theorem pass_law (setup : Setup) (s : State) (hpc : s.pc = .passStart) :
    ∃ n e t, n ≤ 1006 ∧ e ≠ .command ∧ Reaches (step setup) s t ∧
      t.events = s.events ++ List.replicate n .command ++ [e] ∧
      (t.pc = .passStart ∧ e = .change ∨ t.pc = .ended) := by
  have hstep : step setup s = some (setOut setup s) := by rw [step, hpc]
  have hleast : -5 ≤ (setOut setup s).run := by
    change (-5 : ℤ) ≤ 1000
    decide
  have hrun : (setOut setup s).run+6 ≤ (1006 : ℕ) := by
    change (1000 : ℤ)+6 ≤ (1006 : ℕ)
    decide
  exact PassEnds.quiet hstep rfl (passEnds_inner rfl rfl hleast hrun)

theorem pass_law_slowRun : ∃ n e t, n ≤ 1006 ∧ e ≠ .command ∧
    Reaches (step slowRun) (start slowRun) t ∧
      t.events = [] ++ List.replicate n .command ++ [e] ∧
      (t.pc = .passStart ∧ e = .change ∨ t.pc = .ended) :=
  pass_law slowRun (start slowRun) rfl

end Passes

end YuToolbox.CalibrateMatch
