import Mathlib.Algebra.Order.Ring.Int
import YuToolbox.Netlink

/-! The references that the netlink module takes on socket buffers and gives back, over
runs of any number of incoming messages. A reply to port 0 comes back to the module, and
is then an incoming buffer of its own. -/
namespace YuToolbox.Netlink

open ByteBuffer

/-- The change that a call makes to the reference count of a buffer. A buffer handed to
`netlink_unicast` is consumed there, whether or not it is delivered. -/
def SkbCall.delta (skb : ℕ) : SkbCall → ℤ
  | .allocSkb x | .skbGet x => if x = skb then 1 else 0
  | .kfreeSkb x | .netlinkUnicast x _ _ => if x = skb then -1 else 0

def references (skb : ℕ) (calls : List SkbCall) : ℤ := (calls.map (SkbCall.delta skb)).sum

def SkbCall.releases (skb : ℕ) : SkbCall → Bool
  | .kfreeSkb x | .netlinkUnicast x _ _ => x == skb
  | .allocSkb _ | .skbGet _ => false

/-- One incoming buffer, and what the kernel answers while it is handled: whether `nl_sk`
is set, and the answers to the send with each value of `i`. -/
structure Incoming where
  nlSk : Bool
  skb : ℕ
  msg : Bytes
  answers : ℕ → Answers

def Incoming.handle (x : Incoming) : Option (List SkbCall) :=
  nlDataReady x.nlSk x.skb x.msg x.answers

def Incoming.send (x : Incoming) (i : ℕ) : Option (List SkbCall) :=
  sendnlmsg x.nlSk (some kernelMessage) (nlmsgPid x.msg) (x.answers i)

def handleAll : List Incoming → Option (List SkbCall)
  | [] => some []
  | x :: xs => do
    let calls ← x.handle
    let rest ← handleAll xs
    some (calls ++ rest)

/-- The reference balance of a run: each incoming buffer leaves `nl_data_ready` with the
count it came with, each buffer that `sendnlmsg` allocates is released exactly once, and
at the end no buffer is referenced. -/
structure ReferencesBalance (run : List Incoming) : Prop where
  incoming : ∀ x ∈ run, ∃ calls, x.handle = some calls ∧ references x.skb calls = 0
  allocated : ∀ x ∈ run, nlmsgSpace 0 ≤ x.msg.length → ∀ i < 2, ∃ calls,
    x.send i = some calls ∧
      ∀ skb, .allocSkb skb ∈ calls → calls.countP (SkbCall.releases skb) = 1
  settled : ∃ calls, handleAll run = some calls ∧ ∀ skb, references skb calls = 0

/-- The message has room for a header, and no `nlmsg_put` fails on a buffer that
`alloc_skb` returned. -/
def Incoming.Clean (x : Incoming) : Prop :=
  nlmsgSpace 0 ≤ x.msg.length ∧
    ∀ i < 2, x.nlSk = true → (x.answers i).allocSkb.isSome → (x.answers i).nlmsgPut = true

def leaked (nlSk : Bool) (k : Answers) : List ℕ :=
  if nlSk && !k.nlmsgPut then k.allocSkb.toList else []

/-- The buffers that `nl_data_ready` leaves with one reference too many. -/
def Incoming.leaks (x : Incoming) : List ℕ :=
  if nlmsgSpace 0 ≤ x.msg.length then
    leaked x.nlSk (x.answers 1) ++ leaked x.nlSk (x.answers 0)
  else [x.skb]

theorem references_append (skb : ℕ) (calls rest : List SkbCall) :
    references skb (calls ++ rest) = references skb calls+references skb rest := by
  rw [references, List.map_append, List.sum_append]
  rfl

theorem references_cons (skb : ℕ) (call : SkbCall) (calls : List SkbCall) :
    references skb (call :: calls) = call.delta skb+references skb calls := by
  rw [references, List.map_cons, List.sum_cons]
  rfl

theorem references_nil (skb : ℕ) : references skb [] = 0 := rfl

theorem references_replyCalls (nlSk : Bool) (portid : ℕ) (k : Answers) (skb : ℕ) :
    references skb (replyCalls nlSk portid k) = (leaked nlSk k).count skb := by
  obtain ⟨allocSkb, payload, nlmsgPut⟩ := k
  cases nlSk with
  | false => rfl
  | true =>
    cases allocSkb with
    | none => cases nlmsgPut <;> rfl
    | some x =>
      by_cases h : x = skb <;> cases nlmsgPut <;>
        simp [replyCalls, leaked, references, SkbCall.delta, h]

/-- Exactly the leaked buffers are referenced after `nl_data_ready`. -/
theorem Incoming.references_handle (x : Incoming) :
    ∃ calls, x.handle = some calls ∧ ∀ skb, references skb calls = x.leaks.count skb := by
  refine ⟨_, nlDataReady_eq x.nlSk x.skb x.msg x.answers, fun skb => ?_⟩
  unfold Incoming.leaks
  split
  · -- `skb_get` and `kfree_skb` cancel, and what the two sends forgot is left
    rw [List.cons_append, references_cons, references_append, references_append,
      references_replyCalls, references_replyCalls, List.count_append, references_cons,
      references_nil, SkbCall.delta, SkbCall.delta]
    push_cast
    split <;> omega
  · rw [references_cons, references_nil, SkbCall.delta, List.count_singleton]
    by_cases h : x.skb = skb <;> simp [h]

theorem references_handleAll (run : List Incoming) : ∃ calls, handleAll run = some calls ∧
    ∀ skb, references skb calls = (run.flatMap Incoming.leaks).count skb := by
  induction run with
  | nil => exact ⟨[], rfl, fun skb => rfl⟩
  | cons x run ih =>
    obtain ⟨calls, hcalls, hrefs⟩ := x.references_handle
    obtain ⟨rest, hrest, hrestRefs⟩ := ih
    refine ⟨calls ++ rest, ?_, fun skb => ?_⟩
    · rw [handleAll, hcalls, hrest]
      rfl
    · calc references skb (calls ++ rest)
          = references skb calls+references skb rest := references_append skb calls rest
        _ = x.leaks.count skb+(run.flatMap Incoming.leaks).count skb := by rw [hrefs, hrestRefs]
        _ = ((x :: run).flatMap Incoming.leaks).count skb := by
          rw [List.flatMap_cons, List.count_append, Int.natCast_add]

theorem leaked_eq_nil_iff (nlSk : Bool) (k : Answers) :
    leaked nlSk k = [] ↔ (nlSk = true → k.allocSkb.isSome → k.nlmsgPut = true) := by
  obtain ⟨allocSkb, payload, nlmsgPut⟩ := k
  cases nlSk <;> cases allocSkb <;> cases nlmsgPut <;> simp [leaked]

theorem Incoming.clean_iff (x : Incoming) : x.Clean ↔ x.leaks = [] := by
  unfold Incoming.Clean Incoming.leaks
  split
  · rename_i hlen
    rw [List.append_eq_nil_iff, leaked_eq_nil_iff, leaked_eq_nil_iff]
    constructor
    · rintro ⟨-, h⟩
      exact ⟨h 1 (by decide), h 0 (by decide)⟩
    · rintro ⟨h1, h0⟩
      refine ⟨hlen, fun i hi => ?_⟩
      obtain rfl | rfl : i = 0 ∨ i = 1 := by omega
      · exact h0
      · exact h1
  · rename_i hlen
    apply iff_of_false
    · intro h
      exact hlen h.1
    · exact List.cons_ne_nil _ _

theorem countP_releases_replyCalls {nlSk : Bool} {k : Answers} (h : leaked nlSk k = [])
    (portid skb : ℕ) (hskb : .allocSkb skb ∈ replyCalls nlSk portid k) :
    (replyCalls nlSk portid k).countP (SkbCall.releases skb) = 1 := by
  obtain ⟨allocSkb, payload, nlmsgPut⟩ := k
  cases nlSk <;> cases allocSkb <;> cases nlmsgPut <;>
    simp_all [replyCalls, leaked, SkbCall.releases]

theorem flatMap_leaks_eq_nil_iff (run : List Incoming) :
    run.flatMap Incoming.leaks = [] ↔ ∀ x ∈ run, x.Clean := by
  rw [List.flatMap_eq_nil_iff]
  exact forall₂_congr (fun x _ => x.clean_iff.symm)

/-- A run keeps the reference balance exactly when every message has room for a header
and no `nlmsg_put` fails on an allocated buffer. -/
theorem references_balance_iff (run : List Incoming) :
    ReferencesBalance run ↔ ∀ x ∈ run, x.Clean := by
  rw [← flatMap_leaks_eq_nil_iff]
  obtain ⟨calls, hcalls, hrefs⟩ := references_handleAll run
  constructor
  · intro h
    -- a leaked buffer would still be referenced after the run
    obtain ⟨calls', hcalls', hzero⟩ := h.settled
    obtain rfl : calls = calls' := Option.some.inj (hcalls.symm.trans hcalls')
    apply List.eq_nil_iff_forall_not_mem.mpr
    intro skb hskb
    have hcount := List.count_pos_iff.mpr hskb
    have hz := hzero skb
    rw [hrefs] at hz
    omega
  · intro h
    have hleaks : ∀ x ∈ run, x.leaks = [] := List.flatMap_eq_nil_iff.mp h
    refine ⟨fun x hx => ?_, fun x hx hlen i hi => ?_, calls, hcalls, fun skb => ?_⟩
    · obtain ⟨own, hown, hownRefs⟩ := x.references_handle
      refine ⟨own, hown, ?_⟩
      rw [hownRefs, hleaks x hx, List.count_nil, Int.natCast_zero]
    · refine ⟨_, sendnlmsg_kernelMessage _ _ _, fun skb hskb => ?_⟩
      have hclean := (x.clean_iff.mpr (hleaks x hx)).2 i hi
      exact countP_releases_replyCalls ((leaked_eq_nil_iff _ _).mpr hclean) _ skb hskb
    · rw [hrefs, h, List.count_nil, Int.natCast_zero]

/-- One empty message, shorter than a header, leaves its buffer referenced. -/
theorem references_balance_short_message : ¬ ∀ run : List Incoming, ReferencesBalance run := by
  intro h
  let payload : Payload := ⟨List.replicate maxMsgsize 0, List.length_replicate⟩
  obtain ⟨calls, hcalls, hzero⟩ := (h [⟨true, 3, [], fun i => .success i payload⟩]).settled
  obtain rfl : calls = [.skbGet 3] := Option.some.inj (hcalls.symm.trans rfl)
  exact absurd (hzero 3) (by decide)

end YuToolbox.Netlink
