import Mathlib.Algebra.Order.Ring.Int
import YuToolbox.Netlink
import YuToolbox.TransitionRuns

/-! Clients that talk to the netlink module at the same time. Every request is handled
by a call of `nl_data_ready` of its own, which sleeps before each reply, so the replies
of different requests interleave. Allocation and delivery succeed. -/
namespace YuToolbox.Netlink

open ByteBuffer TransitionRuns

/-- The ports that the clients are bound to; port 0 is the module's own. -/
structure Clients where
  ports : List ℕ
  nodup : ports.Nodup
  nonzero : 0 ∉ ports

structure Request where
  sender : ℕ
  msg : Bytes
  header : nlmsgSpace 0 ≤ msg.length

def Request.named (r : Request) : ℕ := nlmsgPid r.msg

/-- A call of `nl_data_ready` that has not returned, with its local variables. -/
structure Frame where
  portid : ℕ
  i : ℕ

/-- A request and the calls of `nl_data_ready` made for it, the innermost first. -/
structure Handler where
  request : Request
  frames : List Frame

/-- The replies delivered so far, oldest first: the client's port, and which request the
reply was sent for. -/
structure State where
  handlers : List Handler
  delivered : List (ℕ × ℕ)

def start : State := ⟨[], []⟩

inductive Action where
  | request (r : Request)
  | reply (k skb : ℕ) (payload : Payload)
  | finish (k : ℕ)

/-- `nl_data_ready` up to its loop. -/
def enter (msg : Bytes) : List Frame :=
  if nlmsgSpace 0 ≤ msg.length then [⟨nlmsgPid msg, 2⟩] else []

/-- Where `netlink_unicast` takes a reply to request `k`: port 0 is the module, which
calls `nl_data_ready` again; a port that nobody is bound to is refused. -/
def unicast (clients : Clients) (k : ℕ) (s : State) : SkbCall → State
  | .netlinkUnicast _ portid msg =>
    -- the module's own socket: the reply is handled like a message, inside this call
    if portid = 0 then
      { s with
        handlers := s.handlers.modify k (fun h => ⟨h.request, enter msg ++ h.frames⟩) }
    else if portid ∈ clients.ports then { s with delivered := s.delivered ++ [(portid, k)] }
    else s
  | _ => s

def step (clients : Clients) (s : State) : Action → Option State
  | .request r =>
    if r.sender ∈ clients.ports then
      some { s with handlers := s.handlers ++ [⟨r, enter r.msg⟩] }
    else none
  | .reply k skb payload =>
    match s.handlers[k]? with
    -- `i--` before the send
    | some ⟨r, ⟨portid, i+1⟩ :: frames⟩ => do
      let calls ← sendnlmsg true (some kernelMessage) portid (.success skb payload)
      some (calls.foldl (unicast clients k)
        { s with handlers := s.handlers.set k ⟨r, ⟨portid, i⟩ :: frames⟩ })
    | _ => none
  | .finish k =>
    match s.handlers[k]? with
    | some ⟨r, ⟨_, 0⟩ :: frames⟩ => some { s with handlers := s.handlers.set k ⟨r, frames⟩ }
    | _ => none

def Handler.pending (h : Handler) (p : ℕ) : ℕ :=
  (h.frames.map (fun f => if f.portid = p then f.i else 0)).sum

def Handler.due (h : Handler) (p : ℕ) : ℕ := if h.request.named = p then 2 else 0

/-- For each client and request, the replies delivered and still to come are those due;
only clients receive replies and send requests. -/
structure RepliesAdd (clients : Clients) (s : State) : Prop where
  adds : ∀ p ∈ clients.ports, ∀ k,
    s.delivered.count (p, k)+(s.handlers[k]?.elim 0 (·.pending p)) =
      s.handlers[k]?.elim 0 (·.due p)
  bound : ∀ d ∈ s.delivered, d.1 ∈ clients.ports
  senders : ∀ h ∈ s.handlers, h.request.sender ∈ clients.ports

/-- The replies to client `p` are two per request whose address is `p`, once the request
has been handled, and nothing else is delivered. -/
structure Addressed (address : Request → ℕ) (clients : Clients) (s : State) : Prop where
  twice : ∀ p ∈ clients.ports, ∀ k h, s.handlers[k]? = some h → h.frames = [] →
    s.delivered.count (p, k) = if address h.request = p then 2 else 0
  caused : ∀ d ∈ s.delivered, d.1 ∈ clients.ports ∧
    ∃ h, s.handlers[d.2]? = some h ∧ address h.request = d.1

section Steps

variable {clients : Clients} {s t : State}

theorem Clients.ne_zero {p : ℕ} (h : p ∈ clients.ports) : p ≠ 0 :=
  fun h0 => clients.nonzero (h0 ▸ h)

theorem pending_cons (r : Request) (f : Frame) (frames : List Frame) (p : ℕ) :
    Handler.pending ⟨r, f :: frames⟩ p =
      (if f.portid = p then f.i else 0)+Handler.pending ⟨r, frames⟩ p := by
  simp only [Handler.pending, List.map_cons, List.sum_cons]

theorem pending_enter (r : Request) (p : ℕ) :
    Handler.pending ⟨r, enter r.msg⟩ p = Handler.due ⟨r, enter r.msg⟩ p := by
  rw [enter, if_pos r.header, pending_cons]
  rfl

theorem enter_putHeader (data : Bytes) : enter (putHeader ++ data) = [⟨0, 2⟩] := by
  have hlen : nlmsgSpace 0 ≤ (putHeader ++ data).length := by
    rw [List.length_append, length_putHeader]
    exact Nat.le_add_right _ _
  rw [enter, if_pos hlen, nlmsgPid_putHeader]

theorem step_reply {k i portid skb : ℕ} {r : Request} {frames : List Frame} {payload : Payload}
    (hk : s.handlers[k]? = some ⟨r, ⟨portid, i+1⟩ :: frames⟩) :
    step clients s (.reply k skb payload) = some (unicast clients k
      { s with handlers := s.handlers.set k ⟨r, ⟨portid, i⟩ :: frames⟩ }
      (.netlinkUnicast skb portid (putHeader ++ written kernelText payload))) := by
  simp only [step, hk, sendnlmsg_kernelMessage]
  rfl

/-- A reply is sent by an open call with replies left. -/
theorem open_of_reply {k skb : ℕ} {payload : Payload}
    (h : step clients s (.reply k skb payload) = some t) :
    ∃ r portid i frames, s.handlers[k]? = some ⟨r, ⟨portid, i+1⟩ :: frames⟩ := by
  cases hk : s.handlers[k]? with
  | none => simp [step, hk] at h
  | some handler =>
    obtain ⟨r, frames⟩ := handler
    match frames with
    | [] => simp [step, hk] at h
    | ⟨portid, 0⟩ :: frames => simp [step, hk] at h
    | ⟨portid, i+1⟩ :: frames => exact ⟨r, portid, i, frames, rfl⟩

/-- A call that returns has none left. -/
theorem open_of_finish {k : ℕ} (h : step clients s (.finish k) = some t) :
    ∃ r portid frames, s.handlers[k]? = some ⟨r, ⟨portid, 0⟩ :: frames⟩ := by
  cases hk : s.handlers[k]? with
  | none => simp [step, hk] at h
  | some handler =>
    obtain ⟨r, frames⟩ := handler
    match frames with
    | [] => simp [step, hk] at h
    | ⟨portid, i+1⟩ :: frames => simp [step, hk] at h
    | ⟨portid, 0⟩ :: frames => exact ⟨r, portid, frames, rfl⟩

theorem modify_set (handlers : List Handler) (k : ℕ) (h : Handler) (f : Handler → Handler) :
    (handlers.set k h).modify k f = handlers.set k (f h) := by
  apply List.ext_getElem?
  intro j
  rw [List.getElem?_modify, List.getElem?_set, List.getElem?_set]
  by_cases hj : k = j
  · subst hj
    simp only [if_true]
    split <;> rfl
  · simp only [if_neg hj, id_map']

/-- What a step does to the handlers, and what it delivers for handler `k`. -/
theorem step_cases {a : Action} (h : step clients s a = some t) :
    (∃ r, r.sender ∈ clients.ports ∧ t.handlers = s.handlers ++ [⟨r, enter r.msg⟩] ∧
      t.delivered = s.delivered) ∨
    (∃ k r portid i frames, s.handlers[k]? = some ⟨r, ⟨portid, i+1⟩ :: frames⟩ ∧
      ((portid = 0 ∧ t.handlers = s.handlers.set k ⟨r, ⟨0, 2⟩ :: ⟨0, i⟩ :: frames⟩ ∧
          t.delivered = s.delivered) ∨
        (portid ≠ 0 ∧ t.handlers = s.handlers.set k ⟨r, ⟨portid, i⟩ :: frames⟩ ∧
          t.delivered = s.delivered ++
            if portid ∈ clients.ports then [(portid, k)] else []))) ∨
    (∃ k r portid frames, s.handlers[k]? = some ⟨r, ⟨portid, 0⟩ :: frames⟩ ∧
      t.handlers = s.handlers.set k ⟨r, frames⟩ ∧ t.delivered = s.delivered) := by
  cases a with
  | request r =>
    simp only [step] at h
    split at h
    · rename_i hsender
      obtain rfl := Option.some.inj h
      exact Or.inl ⟨r, hsender, rfl, rfl⟩
    · cases h
  | reply k skb payload =>
    apply Or.inr
    apply Or.inl
    obtain ⟨r, portid, i, frames, hk⟩ := open_of_reply h
    rw [step_reply hk] at h
    obtain rfl := Option.some.inj h
    refine ⟨k, r, portid, i, frames, hk, ?_⟩
    by_cases h0 : portid = 0
    · refine Or.inl ⟨h0, ?_, ?_⟩
      · -- the module calls itself, with the frame of that call on top
        simp only [unicast, modify_set, enter_putHeader, h0]
        rfl
      · simp only [unicast, if_pos h0]
    · refine Or.inr ⟨h0, ?_, ?_⟩
      · simp only [unicast, if_neg h0]
        split <;> rfl
      · simp only [unicast, if_neg h0]
        split <;> simp
  | finish k =>
    apply Or.inr
    apply Or.inr
    obtain ⟨r, portid, frames, hk⟩ := open_of_finish h
    simp only [step, hk] at h
    obtain rfl := Option.some.inj h
    exact ⟨k, r, portid, frames, hk, rfl, rfl⟩

/-- A step that only touches handler `k` keeps the sums if it moves what it takes from
the pending replies of `k` to the delivered ones. -/
theorem RepliesAdd.set (hs : RepliesAdd clients s) {k : ℕ} {h h' : Handler}
    (hk : s.handlers[k]? = some h) (hset : t.handlers = s.handlers.set k h')
    (hreq : h'.request = h.request) (hbound : ∀ d ∈ t.delivered, d.1 ∈ clients.ports)
    (hmove : ∀ p ∈ clients.ports,
      t.delivered.count (p, k)+h'.pending p = s.delivered.count (p, k)+h.pending p)
    (hothers : ∀ p j, k ≠ j → t.delivered.count (p, j) = s.delivered.count (p, j)) :
    RepliesAdd clients t := by
  refine ⟨fun p hp j => ?_, hbound, fun x hx => ?_⟩
  · have hlt : k < s.handlers.length := (List.getElem?_eq_some_iff.mp hk).1
    have hadds := hs.adds p hp j
    -- the sums of every other handler are what they were
    by_cases hj : k = j
    · subst hj
      rw [hset, List.getElem?_set_self hlt]
      rw [hk] at hadds
      have hdue : h'.due p = h.due p := by rw [Handler.due, Handler.due, hreq]
      simp only [Option.elim_some] at hadds ⊢
      rw [hmove p hp, hadds, hdue]
    · rw [hset, List.getElem?_set_ne hj, hothers p j hj]
      exact hadds
  · rw [hset] at hx
    rcases List.mem_or_eq_of_mem_set hx with hx | rfl
    · exact hs.senders x hx
    · rw [hreq]
      exact hs.senders h (List.mem_of_getElem? hk)

theorem repliesAdd_start : RepliesAdd clients start :=
  ⟨fun _ _ _ => rfl, fun _ hd => absurd hd List.not_mem_nil, fun _ hh => absurd hh List.not_mem_nil⟩

theorem RepliesAdd.request (hs : RepliesAdd clients s) {r : Request}
    (hsender : r.sender ∈ clients.ports)
    (hhandlers : t.handlers = s.handlers ++ [⟨r, enter r.msg⟩])
    (hdelivered : t.delivered = s.delivered) : RepliesAdd clients t := by
  refine ⟨fun p hp k => ?_, by rw [hdelivered]; exact hs.bound, fun h hh => ?_⟩
  · have hadds := hs.adds p hp k
    rw [hhandlers, hdelivered]
    -- an old handler, the new one, or none
    rcases Nat.lt_trichotomy k s.handlers.length with hk | rfl | hk
    · rwa [List.getElem?_append_left hk]
    · rw [List.getElem?_concat_length]
      simp only [List.getElem?_length, Option.elim_none, Nat.add_zero] at hadds
      simp only [hadds, Option.elim_some, Nat.zero_add]
      exact pending_enter r p
    · rw [List.getElem?_eq_none (by simp; omega)]
      rwa [List.getElem?_eq_none (Nat.le_of_lt hk)] at hadds
  · rw [hhandlers, List.mem_append] at hh
    rcases hh with hh | hh
    · exact hs.senders h hh
    · rwa [List.mem_singleton.mp hh]

theorem count_reply_of_ne {portid k p j : ℕ} (h : (portid, k) ≠ (p, j)) :
    (if portid ∈ clients.ports then [(portid, k)] else []).count (p, j) = 0 := by
  split
  · exact List.count_eq_zero.mpr (fun hm => h (List.mem_singleton.mp hm).symm)
  · rfl

theorem RepliesAdd.reply (hs : RepliesAdd clients s) {k portid i : ℕ} {r : Request}
    {frames : List Frame} (hk : s.handlers[k]? = some ⟨r, ⟨portid, i+1⟩ :: frames⟩)
    (hset : t.handlers = s.handlers.set k ⟨r, ⟨portid, i⟩ :: frames⟩)
    (hdelivered : t.delivered = s.delivered ++
      if portid ∈ clients.ports then [(portid, k)] else []) : RepliesAdd clients t := by
  apply hs.set hk hset rfl
  · intro d hd
    rw [hdelivered, List.mem_append] at hd
    rcases hd with hd | hd
    · exact hs.bound d hd
    · split at hd
      · rename_i hport
        rwa [List.mem_singleton.mp hd]
      · cases hd
  · intro p hp
    rw [hdelivered, List.count_append, pending_cons, pending_cons]
    by_cases hport : portid = p
    · subst hport
      rw [if_pos hp, List.count_singleton_self]
      simp only [if_true]
      omega
    · rw [count_reply_of_ne (by simp [hport])]
      simp only [if_neg hport]
      omega
  · intro p j hj
    rw [hdelivered, List.count_append, count_reply_of_ne (by simp [hj]), Nat.add_zero]

theorem repliesAdd_step {a : Action} (hs : RepliesAdd clients s)
    (h : step clients s a = some t) : RepliesAdd clients t := by
  obtain ⟨r, hsender, hhandlers, hdelivered⟩ |
    ⟨k, r, portid, i, frames, hk, ⟨rfl, hset, hdelivered⟩ | ⟨h0, hset, hdelivered⟩⟩ |
    ⟨k, r, portid, frames, hk, hset, hdelivered⟩ := step_cases h
  · exact hs.request hsender hhandlers hdelivered
  · -- a reply to port 0 stays inside the module
    refine hs.set hk hset rfl (by rw [hdelivered]; exact hs.bound) (fun p hp => ?_)
      (fun p j _ => by rw [hdelivered])
    have hp0 : ¬ 0 = p := (Clients.ne_zero hp).symm
    simp only [hdelivered, pending_cons, if_neg hp0, Nat.zero_add]
  · exact hs.reply hk hset hdelivered
  · -- a call that returns had nothing left to send
    refine hs.set hk hset rfl (by rw [hdelivered]; exact hs.bound) (fun p _ => ?_)
      (fun p j _ => by rw [hdelivered])
    simp only [hdelivered, pending_cons, ite_self, Nat.zero_add]

end Steps

theorem repliesAdd_exec {clients : Clients} {run : List Action} {s : State}
    (h : exec (step clients) start run = some s) : RepliesAdd clients s :=
  exec_invariant (fun _ _ _ _ hs hst => repliesAdd_step hs hst) h repliesAdd_start

theorem RepliesAdd.addressed {clients : Clients} {s : State} (hs : RepliesAdd clients s) :
    Addressed Request.named clients s := by
  refine ⟨fun p hp k h hk hdone => ?_, fun d hd => ⟨hs.bound d hd, ?_⟩⟩
  · have hadds := hs.adds p hp k
    rw [hk] at hadds
    -- no call is open, so nothing is pending
    have hpending : h.pending p = 0 := by rw [Handler.pending, hdone]; rfl
    simpa only [Option.elim_some, hpending, Nat.add_zero, Handler.due] using hadds
  · have hadds := hs.adds d.1 (hs.bound d hd) d.2
    have hcount : 0 < s.delivered.count (d.1, d.2) := List.count_pos_iff.mpr hd
    cases hk : s.handlers[d.2]? with
    | none =>
      rw [hk] at hadds
      simp only [Option.elim_none] at hadds
      omega
    | some h =>
      refine ⟨h, rfl, ?_⟩
      rw [hk] at hadds
      simp only [Option.elim_some, Handler.due] at hadds
      by_contra hne
      rw [if_neg hne] at hadds
      omega

/-- In every interleaving, the replies go to the port that the request's header names:
two per request for the client bound to it, and nothing else. -/
theorem replies_to_named_port (clients : Clients) (run : List Action) (s : State)
    (h : exec (step clients) start run = some s) : Addressed Request.named clients s :=
  (repliesAdd_exec h).addressed

def twoClients : Clients := ⟨[1, 2], by decide, by decide⟩

def crossedRequest : Request := ⟨1, nlmsghdr 16 0 0 0 2, by decide⟩

def crossedRun (payload : Payload) : List Action :=
  [.request crossedRequest, .reply 0 7 payload, .reply 0 8 payload, .finish 0]

def crossedEnd : State := ⟨[⟨crossedRequest, []⟩], [(2, 0), (2, 0)]⟩

theorem crossedRun_exec (payload : Payload) :
    exec (step twoClients) start (crossedRun payload) = some crossedEnd := by
  refine exec_cons rfl (exec_cons (step_reply rfl) (exec_cons (step_reply rfl) (exec_cons rfl ?_)))
  rfl

theorem replies_to_named_port_crossed : Addressed Request.named twoClients crossedEnd :=
  replies_to_named_port twoClients
    (crossedRun ⟨List.replicate maxMsgsize 0, List.length_replicate⟩) crossedEnd
    (crossedRun_exec ⟨List.replicate maxMsgsize 0, List.length_replicate⟩)

/-- A client whose header names another port does not get its replies. -/
theorem replies_to_sender_crossed : ¬ ∀ (clients : Clients) (run : List Action) (s : State),
    exec (step clients) start run = some s → Addressed Request.sender clients s := by
  intro h
  have hcrossed := h twoClients _ crossedEnd
    (crossedRun_exec ⟨List.replicate maxMsgsize 0, List.length_replicate⟩)
  have hcount := hcrossed.twice 1 (by decide) 0 _ rfl rfl
  exact absurd hcount (by decide)

/-- When every request has been handled, the senders got their own replies exactly if
every header names its sender's port, as the header of `unl.c` does. -/
theorem replies_to_sender_iff (clients : Clients) (run : List Action) (s : State)
    (h : exec (step clients) start run = some s) (hdone : ∀ x ∈ s.handlers, x.frames = []) :
    Addressed Request.sender clients s ↔
      ∀ x ∈ s.handlers, x.request.named = x.request.sender := by
  have hs := repliesAdd_exec h
  have hnamed := hs.addressed
  constructor
  · intro hsender x hx
    obtain ⟨k, hk⟩ := List.mem_iff_getElem?.mp hx
    have hport := hs.senders x hx
    have hown := hsender.twice _ hport k x hk (hdone x hx)
    rw [hnamed.twice _ hport k x hk (hdone x hx), if_pos rfl] at hown
    by_contra hne
    rw [if_neg hne] at hown
    cases hown
  · intro heq
    refine ⟨fun p hp k x hk hx => ?_, fun d hd => ?_⟩
    · rw [← heq x (List.mem_of_getElem? hk)]
      exact hnamed.twice p hp k x hk hx
    · obtain ⟨hport, x, hk, hx⟩ := hnamed.caused d hd
      exact ⟨hport, x, hk, by rw [← heq x (List.mem_of_getElem? hk), hx]⟩

end YuToolbox.Netlink
