import YuToolbox.NetlinkReplies
import YuToolbox.NetlinkRoundTrip

/-! Whole sessions of `unl.c` with the module. Every process binds to port 100 and names that port
in its header, so one at a time has the socket. The kernel runs `nl_data_ready` inside the
`sendmsg` of the sender: the replies are in the queue before the first `recvmsg`. -/
namespace YuToolbox.NetlinkSession

open ByteBuffer TransitionRuns Netlink

/-- `src_addr.nl_pid` and `nlh->nlmsg_pid`. -/
def sortport : ℕ := 100

/-- Where a process of `unl.c` is. -/
inductive Pc where
  | start
  | bound
  | ready (nlh : UserBuffer)
  -- in `sendmsg`, with the calls of `nl_data_ready` that have not returned
  | handling (frames : List Frame)
  | receiving (nlh : UserBuffer)
  | exited (code : ℤ)

/-- A process: what it printed behind `Received message: `, where `none` is a string that runs out
of its buffer, and the messages that `netlink_unicast` took for its request. -/
structure Client where
  pc : Pc
  printed : List (Option Bytes)
  taken : List Bytes

/-- The processes, the one that is bound to the port, and what waits in its socket. -/
structure State where
  clients : List Client
  owner : Option ℕ
  queue : List Bytes

def start (n : ℕ) : State := ⟨List.replicate n ⟨.start, [], []⟩, none, []⟩

/-- The steps of process `k`, with the answers of the kernel; `room` is whether the queue has
place for a message. -/
inductive Action where
  | bind (k : ℕ)
  | malloc (k : ℕ) (nlh : Option UserBuffer)
  | sendmsg (k : ℕ) (ok : Bool)
  | reply (k : ℕ) (answers : Answers) (room : Bool)
  | finish (k : ℕ)
  | sent (k : ℕ)
  | recvmsg (k : ℕ)

def helloText : Bytes := "Hello you!".toList.map (fun c => UInt8.ofNat c.toNat)

/-- What `sendmsg` takes out of the buffer: `malloc` has not cleared it, and the type, the sequence
number and what is behind the text are not set. -/
def requestMsg (nlh : UserBuffer) : Bytes :=
  leBytes 4 (nlmsgSpace maxMsgsize) ++ (nlh.bytes.drop 4).take 2 ++ leBytes 2 0 ++
    (nlh.bytes.drop 8).take 4 ++ leBytes 4 sortport ++ helloText ++ [0] ++ nlh.bytes.drop 27

theorem length_recvmsg (nlh : UserBuffer) (msg : Bytes) :
    (Netlink.recvmsg nlh msg).length = nlmsgSpace maxMsgsize := by
  have hsize := nlh.size
  rw [Netlink.recvmsg, List.length_append, List.length_take, List.length_drop]
  omega

/-- The buffer after `recvmsg`. -/
def filled (nlh : UserBuffer) (msg : Bytes) : UserBuffer :=
  ⟨Netlink.recvmsg nlh msg, length_recvmsg nlh msg⟩

def State.set (s : State) (k : ℕ) (c : Client) : State := { s with clients := s.clients.set k c }

def Client.nest (c : Client) (msg : Bytes) : Client :=
  match c.pc with
  | .handling frames => { c with pc := .handling (enter msg ++ frames) }
  | _ => c

/-- Where `netlink_unicast` takes a message that is sent for process `k`. -/
def unicast (k : ℕ) (room : Bool) (s : State) : SkbCall → State
  | .netlinkUnicast _ portid msg =>
    if portid = 0 then { s with clients := s.clients.modify k (fun c => c.nest msg) }
    else if portid = sortport ∧ s.owner.isSome ∧ room then
      { s with
        queue := s.queue ++ [msg]
        clients := s.clients.modify k (fun c => { c with taken := c.taken ++ [msg] }) }
    else s
  | _ => s

def step (s : State) : Action → Option State
  | .bind k =>
    match s.clients[k]? with
    | some ⟨.start, printed, taken⟩ =>
      -- the port is one process's at a time
      if s.owner.isNone then some { s.set k ⟨.bound, printed, taken⟩ with owner := some k }
      else some (s.set k ⟨.exited (-1), printed, taken⟩)
    | _ => none
  | .malloc k nlh =>
    match s.clients[k]? with
    | some ⟨.bound, printed, taken⟩ =>
      match nlh with
      | some nlh => some (s.set k ⟨.ready nlh, printed, taken⟩)
      | none => some { s.set k ⟨.exited (-1), printed, taken⟩ with owner := none, queue := [] }
    | _ => none
  | .sendmsg k ok =>
    match s.clients[k]? with
    | some ⟨.ready nlh, printed, taken⟩ =>
      -- an error is printed, and the process goes on
      some (s.set k ⟨.handling (if ok then enter (requestMsg nlh) else []), printed, taken⟩)
    | _ => none
  | .reply k answers room =>
    match s.clients[k]? with
    | some ⟨.handling (⟨portid, i+1⟩ :: frames), printed, taken⟩ => do
      let calls ← sendnlmsg true (some kernelMessage) portid answers
      some (calls.foldl (unicast k room)
        (s.set k ⟨.handling (⟨portid, i⟩ :: frames), printed, taken⟩))
    | _ => none
  | .finish k =>
    match s.clients[k]? with
    | some ⟨.handling (⟨_, 0⟩ :: frames), printed, taken⟩ =>
      some (s.set k ⟨.handling frames, printed, taken⟩)
    | _ => none
  | .sent k =>
    match s.clients[k]? with
    | some ⟨.handling [], printed, taken⟩ =>
      some (s.set k ⟨.receiving clearedBuffer, printed, taken⟩)
    | _ => none
  | .recvmsg k =>
    match s.clients[k]? with
    | some ⟨.receiving nlh, printed, taken⟩ =>
      match s.queue with
      -- the loop has no other end, and the exit closes the socket
      | [] => some { s.set k ⟨.exited 1, printed, taken⟩ with owner := none }
      | msg :: queue =>
        let nlh := filled nlh msg
        some { s.set k ⟨.receiving nlh, printed ++ [receivedMessage nlh.bytes], taken⟩ with
          queue := queue }
    | _ => none

/-- The kernel does what it is asked to. -/
def Action.Served : Action → Prop
  | .sendmsg _ ok => ok = true
  | .reply _ answers room => answers.allocSkb.isSome ∧ answers.nlmsgPut = true ∧ room = true
  | _ => True

/-- The string in a message. -/
def message (msg : Bytes) : Option Bytes := cstring (nlmsgData msg)

def IsReply (msg : Bytes) : Prop := ∃ payload, msg = putHeader ++ written kernelText payload

def Pc.holds : Pc → Bool
  | .start | .exited _ => false
  | _ => true

/-- The replies of a process, by the place it has got to: `queue` is what waits for it. -/
def Client.Flow (served : Prop) (c : Client) (queue : List Bytes) : Prop :=
  match c.pc with
  | .start => c.printed = [] ∧ c.taken = []
  | .bound => c.printed = [] ∧ c.taken = [] ∧ queue = []
  | .ready _ => c.printed = [] ∧ c.taken = [] ∧ queue = []
  | .handling frames => c.printed = [] ∧ queue = c.taken ∧
      ((frames = [] ∧ (served → c.taken.length = 2)) ∨
        ∃ i, frames = [⟨sortport, i⟩] ∧ c.taken.length+i ≤ 2 ∧ (served → c.taken.length+i = 2))
  | .receiving _ => (served → c.taken.length = 2) ∧
      ∃ read, c.taken = read ++ queue ∧ c.printed = read.map message
  | .exited code => c.printed = c.taken.map message ∧
      (code = 1 ∧ (served → c.taken.length = 2) ∨ code = -1 ∧ c.taken = [])

/-- What process `k` finds in its socket; the others have none. -/
def State.queueOf (s : State) (k : ℕ) : List Bytes := if s.owner = some k then s.queue else []

structure Sound (served : Prop) (s : State) : Prop where
  holds : ∀ (k : ℕ) (c : Client), s.clients[k]? = some c → (c.pc.holds = true ↔ s.owner = some k)
  replies : ∀ (k : ℕ) (c : Client), s.clients[k]? = some c →
    c.taken.length ≤ 2 ∧ ∀ msg ∈ c.taken, IsReply msg
  flow : ∀ (k : ℕ) (c : Client), s.clients[k]? = some c → c.Flow served (s.queueOf k)
  closed : s.owner = none → s.queue = []

section Steps

variable {served : Prop} {s t : State} {k : ℕ}

theorem sound_start (n : ℕ) : Sound served (start n) := by
  have hclient (k : ℕ) (c : Client) (h : (start n).clients[k]? = some c) :
      c = ⟨.start, [], []⟩ := by
    exact List.eq_of_mem_replicate (List.mem_of_getElem? h)
  refine ⟨fun k c h => ?_, fun k c h => ?_, fun k c h => ?_, fun _ => rfl⟩
  · rw [hclient k c h]
    simp [Pc.holds, start]
  · rw [hclient k c h]
    exact ⟨Nat.zero_le 2, nofun⟩
  · rw [hclient k c h]
    exact ⟨rfl, rfl⟩

/-- A step of process `k` keeps the others, as long as it takes nobody else's socket. -/
theorem Sound.set (hs : Sound served s) {c c' : Client} (hk : s.clients[k]? = some c)
    (hset : t.clients = s.clients.set k c') (hown : c'.pc.holds = true ↔ t.owner = some k)
    (hothers : ∀ j ≠ k, (t.owner = some j ↔ s.owner = some j) ∧
      (s.owner = some j → t.queue = s.queue))
    (hreplies : c'.taken.length ≤ 2 ∧ ∀ msg ∈ c'.taken, IsReply msg)
    (hflow : c'.Flow served (t.queueOf k)) (hclosed : t.owner = none → t.queue = []) :
    Sound served t := by
  have hlt : k < s.clients.length := (List.getElem?_eq_some_iff.mp hk).1
  have hself (d : Client) (hd : t.clients[k]? = some d) : d = c' := by
    rw [hset, List.getElem?_set_self hlt] at hd
    exact (Option.some.inj hd).symm
  have hother (j : ℕ) (hj : j ≠ k) : t.clients[j]? = s.clients[j]? := by
    rw [hset, List.getElem?_set_ne (Ne.symm hj)]
  have hqueue (j : ℕ) (hj : j ≠ k) : t.queueOf j = s.queueOf j := by
    obtain ⟨howner, hsame⟩ := hothers j hj
    unfold State.queueOf
    by_cases h : s.owner = some j
    · rw [if_pos h, if_pos (howner.mpr h), hsame h]
    · rw [if_neg h, if_neg (fun h' => h (howner.mp h'))]
  refine ⟨fun j d hd => ?_, fun j d hd => ?_, fun j d hd => ?_, hclosed⟩
  · by_cases hj : j = k
    · subst hj
      rw [hself d hd]
      exact hown
    · rw [hother j hj] at hd
      rw [(hothers j hj).1]
      exact hs.holds j d hd
  · by_cases hj : j = k
    · subst hj
      rw [hself d hd]
      exact hreplies
    · rw [hother j hj] at hd
      exact hs.replies j d hd
  · by_cases hj : j = k
    · subst hj
      rw [hself d hd]
      exact hflow
    · rw [hother j hj] at hd
      rw [hqueue j hj]
      exact hs.flow j d hd

theorem sound_bind (hs : Sound served s) (h : step s (.bind k) = some t) : Sound served t := by
  simp only [step] at h
  split at h
  · rename_i printed taken hk
    obtain ⟨hprinted, htaken⟩ := hs.flow k _ hk
    simp only at hprinted htaken
    have hfree := hs.holds k _ hk
    split at h
    · rename_i hnone
      obtain rfl := Option.some.inj h
      rw [Option.isNone_iff_eq_none] at hnone
      apply hs.set hk rfl
      · simp [Pc.holds]
      · intro j hj
        simp [hnone, Ne.symm hj]
      · rw [htaken]
        exact ⟨Nat.zero_le 2, nofun⟩
      · -- nobody was bound, so nothing waits
        refine ⟨hprinted, htaken, ?_⟩
        simp only [State.queueOf, if_true]
        exact hs.closed hnone
      · exact fun h => absurd h (by simp)
    · obtain rfl := Option.some.inj h
      apply hs.set hk rfl
      · simpa [Pc.holds, State.set] using hfree
      · exact fun j _ => ⟨Iff.rfl, fun _ => rfl⟩
      · rw [htaken]
        exact ⟨Nat.zero_le 2, nofun⟩
      · refine ⟨?_, Or.inr ⟨rfl, htaken⟩⟩
        rw [hprinted, htaken]
        rfl
      · exact hs.closed
  · cases h

theorem Sound.owner (hs : Sound served s) {c : Client} (hk : s.clients[k]? = some c)
    (hc : c.pc.holds = true) : s.owner = some k :=
  (hs.holds k c hk).mp hc

theorem queueOf_owner (h : s.owner = some k) : s.queueOf k = s.queue := if_pos h

/-- The replies of the process that is bound, with what waits in the one queue. -/
theorem Sound.flow_owner (hs : Sound served s) {c : Client} (hk : s.clients[k]? = some c)
    (hc : c.pc.holds = true) : c.Flow served s.queue := by
  have hflow := hs.flow k c hk
  rwa [queueOf_owner (hs.owner hk hc)] at hflow

/-- A step inside a process that is bound and stays so. -/
theorem Sound.inside (hs : Sound served s) {c c' : Client} (hk : s.clients[k]? = some c)
    (hc : c.pc.holds = true) (hset : t.clients = s.clients.set k c') (howner : t.owner = s.owner)
    (hc' : c'.pc.holds = true)
    (hreplies : c'.taken.length ≤ 2 ∧ ∀ msg ∈ c'.taken, IsReply msg)
    (hflow : c'.Flow served t.queue) : Sound served t := by
  have hown := hs.owner hk hc
  apply hs.set hk hset
  · rw [howner]
    exact iff_of_true hc' hown
  · intro j hj
    rw [howner]
    refine ⟨Iff.rfl, fun h => ?_⟩
    rw [hown] at h
    exact absurd (Option.some.inj h).symm hj
  · exact hreplies
  · rwa [queueOf_owner (howner.trans hown)]
  · rw [howner, hown]
    exact nofun

/-- A bound process exits, which closes its socket. -/
theorem Sound.exit (hs : Sound served s) {c c' : Client} (hk : s.clients[k]? = some c)
    (hc : c.pc.holds = true) (hset : t.clients = s.clients.set k c') (howner : t.owner = none)
    (hqueue : t.queue = []) (hc' : c'.pc.holds = false)
    (hreplies : c'.taken.length ≤ 2 ∧ ∀ msg ∈ c'.taken, IsReply msg)
    (hflow : c'.Flow served []) : Sound served t := by
  have hown := hs.owner hk hc
  apply hs.set hk hset
  · rw [howner, hc']
    simp
  · intro j hj
    rw [howner, hown]
    simp [Ne.symm hj]
  · exact hreplies
  · have hnone : t.queueOf k = [] := by
      rw [State.queueOf, howner]
      rfl
    rwa [hnone]
  · exact fun _ => hqueue

theorem sound_malloc {nlh : Option UserBuffer} (hs : Sound served s)
    (h : step s (.malloc k nlh) = some t) : Sound served t := by
  simp only [step] at h
  split at h
  · rename_i printed taken hk
    obtain ⟨hprinted, htaken, hqueue⟩ := hs.flow_owner hk rfl
    simp only at hprinted htaken
    have hreplies := hs.replies k _ hk
    split at h
    · obtain rfl := Option.some.inj h
      exact hs.inside hk rfl rfl rfl rfl hreplies ⟨hprinted, htaken, hqueue⟩
    · obtain rfl := Option.some.inj h
      refine hs.exit hk rfl rfl rfl rfl rfl hreplies ⟨?_, Or.inr ⟨rfl, htaken⟩⟩
      rw [hprinted, htaken]
      rfl
  · cases h

/-- The address of a request, twelve bytes behind its start. -/
theorem requestMsg_split (nlh : UserBuffer) : ∃ fields behind : Bytes, fields.length = 12 ∧
    requestMsg nlh = fields ++ (leBytes 4 sortport ++ behind) := by
  have hsize : nlh.bytes.length = 1040 := nlh.size
  refine ⟨leBytes 4 (nlmsgSpace maxMsgsize) ++ (nlh.bytes.drop 4).take 2 ++ leBytes 2 0 ++
    (nlh.bytes.drop 8).take 4, helloText ++ [0] ++ nlh.bytes.drop 27, ?_, ?_⟩
  · simp only [List.length_append, length_leBytes, List.length_take, List.length_drop, hsize]
    decide
  · simp only [requestMsg, List.append_assoc]

/-- The request names the port, whatever was in the buffer. -/
theorem enter_requestMsg (nlh : UserBuffer) : enter (requestMsg nlh) = [⟨sortport, 2⟩] := by
  obtain ⟨fields, behind, hfields, hmsg⟩ := requestMsg_split nlh
  have hlen : nlmsgSpace 0 ≤ (requestMsg nlh).length := by
    have hspace : nlmsgSpace 0 = 16 := rfl
    rw [hmsg, List.length_append, List.length_append, length_leBytes, hfields]
    omega
  have hpid : nlmsgPid (requestMsg nlh) = sortport := by
    rw [nlmsgPid, hmsg, List.drop_left' hfields, List.take_left' (length_leBytes 4 sortport),
      leValue_leBytes]
    decide
  rw [enter, if_pos hlen, hpid]

theorem sound_sendmsg {ok : Bool} (hok : served → ok = true) (hs : Sound served s)
    (h : step s (.sendmsg k ok) = some t) : Sound served t := by
  simp only [step] at h
  split at h
  · rename_i nlh printed taken hk
    obtain rfl := Option.some.inj h
    obtain ⟨hprinted, htaken, hqueue⟩ := hs.flow_owner hk rfl
    simp only at hprinted htaken
    have hreplies := hs.replies k _ hk
    refine hs.inside hk rfl rfl rfl rfl hreplies ⟨hprinted, ?_, ?_⟩
    · simp only [htaken]
      exact hqueue
    · cases ok with
      | true =>
        apply Or.inr
        refine ⟨2, ?_, ?_, ?_⟩
        · rw [if_pos rfl]
          exact enter_requestMsg nlh
        · simp [htaken]
        · simp [htaken]
      | false => exact Or.inl ⟨rfl, fun hserved => absurd (hok hserved) Bool.false_ne_true⟩
  · cases h

/-- What one round of the loop does for the process: its message is queued, or none is. -/
theorem foldl_unicast (answers : Answers) (room : Bool) {c : Client}
    (hk : s.clients[k]? = some c) (hown : s.owner = some k) :
    ∃ msgs : List Bytes, (∀ msg ∈ msgs, IsReply msg) ∧ msgs.length ≤ 1 ∧
      ((answers.allocSkb.isSome ∧ answers.nlmsgPut = true ∧ room = true) → msgs.length = 1) ∧
      (replyCalls true sortport answers).foldl (unicast k room) s =
        ⟨s.clients.set k { c with taken := c.taken ++ msgs }, s.owner, s.queue ++ msgs⟩ := by
  obtain ⟨hlt, rfl⟩ := List.getElem?_eq_some_iff.mp hk
  have hnone : s = ⟨s.clients.set k { s.clients[k] with taken := s.clients[k].taken ++ [] },
      s.owner, s.queue ++ []⟩ := by
    have hset : s.clients.set k s.clients[k] = s.clients := List.set_getElem_self hlt
    simp only [List.append_nil]
    exact congrArg (fun clients => State.mk clients s.owner s.queue) hset.symm
  obtain ⟨allocSkb, payload, nlmsgPut⟩ := answers
  cases allocSkb with
  | none => exact ⟨[], nofun, Nat.zero_le 1, fun h => absurd h.1 Bool.false_ne_true, hnone⟩
  | some skb =>
    cases nlmsgPut with
    | false => exact ⟨[], nofun, Nat.zero_le 1, fun h => absurd h.2.1 Bool.false_ne_true, hnone⟩
    | true =>
      cases room with
      | false =>
        refine ⟨[], nofun, Nat.zero_le 1, fun h => absurd h.2.2 Bool.false_ne_true, ?_⟩
        refine Eq.trans ?_ hnone
        simp [replyCalls, unicast, sortport]
      | true =>
        refine ⟨[putHeader ++ written kernelText payload], ?_, Nat.le_refl 1, fun _ => rfl, ?_⟩
        · intro msg hmsg
          exact ⟨payload, List.mem_singleton.mp hmsg⟩
        · simp [replyCalls, unicast, sortport, hown, List.modify_eq_set_getElem?, hlt]

theorem step_reply {portid i : ℕ} {frames : List Frame} {printed : List (Option Bytes)}
    {taken : List Bytes}
    (hk : s.clients[k]? = some ⟨.handling (⟨portid, i+1⟩ :: frames), printed, taken⟩)
    (answers : Answers) (room : Bool) : step s (.reply k answers room) =
      some ((replyCalls true portid answers).foldl (unicast k room)
        (s.set k ⟨.handling (⟨portid, i⟩ :: frames), printed, taken⟩)) := by
  simp only [step, hk, sendnlmsg_kernelMessage]
  rfl

theorem sound_reply {answers : Answers} {room : Bool}
    (hok : served → answers.allocSkb.isSome ∧ answers.nlmsgPut = true ∧ room = true)
    (hs : Sound served s) (h : step s (.reply k answers room) = some t) : Sound served t := by
  simp only [step] at h
  split at h
  · rename_i portid i frames printed taken hk
    have hown := hs.owner hk rfl
    have hlt : k < s.clients.length := (List.getElem?_eq_some_iff.mp hk).1
    obtain ⟨hlen, hreply⟩ := hs.replies k _ hk
    obtain ⟨hprinted, hqueue, hframes⟩ := hs.flow_owner hk rfl
    simp only at hprinted hqueue hlen hreply hframes
    -- the call has a round left, so it is the one with the port in it
    obtain ⟨j, hshape, hle, heq⟩ := hframes.resolve_left (fun h => List.cons_ne_nil _ _ h.1)
    obtain ⟨hframe, rfl⟩ := List.cons.inj hshape
    obtain ⟨rfl, rfl⟩ := Frame.mk.inj hframe
    rw [sendnlmsg_kernelMessage] at h
    have hk' : (s.set k ⟨.handling [⟨sortport, i⟩], printed, taken⟩).clients[k]? =
        some ⟨.handling [⟨sortport, i⟩], printed, taken⟩ := List.getElem?_set_self hlt
    obtain ⟨msgs, hmsgs, hone, hall, hfold⟩ := foldl_unicast answers room hk' hown
    have ht := Option.some.inj h
    rw [hfold] at ht
    have hset : t.clients =
        s.clients.set k ⟨.handling [⟨sortport, i⟩], printed, taken ++ msgs⟩ := by
      rw [← ht]
      exact List.set_set _
    have hqueue' : t.queue = taken ++ msgs := by
      rw [← ht, ← hqueue]
      rfl
    have howner : t.owner = s.owner := by
      rw [← ht]
      rfl
    refine hs.inside hk rfl hset howner rfl ⟨?_, ?_⟩ ⟨hprinted, hqueue', Or.inr ⟨i, rfl, ?_, ?_⟩⟩
    · simp only [List.length_append]
      omega
    · intro msg hmsg
      exact (List.mem_append.mp hmsg).elim (hreply msg) (hmsgs msg)
    · simp only [List.length_append]
      omega
    · intro hserved
      have h2 := heq hserved
      have h1 := hall (hok hserved)
      simp only [List.length_append]
      omega
  · cases h

theorem sound_finish (hs : Sound served s) (h : step s (.finish k) = some t) :
    Sound served t := by
  simp only [step] at h
  split at h
  · rename_i portid frames printed taken hk
    obtain rfl := Option.some.inj h
    have hreplies := hs.replies k _ hk
    obtain ⟨hprinted, hqueue, hframes⟩ := hs.flow_owner hk rfl
    simp only at hprinted hqueue hframes
    obtain ⟨j, hshape, hle, heq⟩ := hframes.resolve_left (fun h => List.cons_ne_nil _ _ h.1)
    obtain ⟨hframe, rfl⟩ := List.cons.inj hshape
    obtain ⟨-, rfl⟩ := Frame.mk.inj hframe
    exact hs.inside hk rfl rfl rfl rfl hreplies ⟨hprinted, hqueue, Or.inl ⟨rfl, heq⟩⟩
  · cases h

theorem sound_sent (hs : Sound served s) (h : step s (.sent k) = some t) : Sound served t := by
  simp only [step] at h
  split at h
  · rename_i printed taken hk
    obtain rfl := Option.some.inj h
    have hreplies := hs.replies k _ hk
    obtain ⟨hprinted, hqueue, hframes⟩ := hs.flow_owner hk rfl
    simp only at hprinted hqueue hframes
    have hcount : served → taken.length = 2 := by
      rcases hframes with ⟨-, hcount⟩ | ⟨j, hshape, -⟩
      · exact hcount
      · cases hshape
    refine hs.inside hk rfl rfl rfl rfl hreplies ⟨hcount, [], ?_, ?_⟩
    · simp only [List.nil_append, State.set]
      exact hqueue.symm
    · simpa using hprinted
  · cases h

/-- A reply fills the whole buffer, so what is printed is the string in it. -/
theorem receivedMessage_filled (nlh : UserBuffer) {msg : Bytes} (h : IsReply msg) :
    receivedMessage (filled nlh msg).bytes = message msg := by
  obtain ⟨payload, rfl⟩ := h
  have hlen : (written kernelText payload).length = maxMsgsize :=
    length_written kernelText payload (by decide)
  rw [receivedMessage, message]
  exact congrArg (fun bytes => cstring (nlmsgData bytes)) (recvmsg_message nlh _ hlen)

theorem sound_recvmsg (hs : Sound served s) (h : step s (.recvmsg k) = some t) :
    Sound served t := by
  simp only [step] at h
  split at h
  · rename_i nlh printed taken hk
    have hreplies := hs.replies k _ hk
    obtain ⟨hcount, read, htaken, hprinted⟩ := hs.flow_owner hk rfl
    simp only at hcount htaken hprinted hreplies
    split at h
    · rename_i hqueue
      obtain rfl := Option.some.inj h
      rw [hqueue, List.append_nil] at htaken
      refine hs.exit hk rfl rfl rfl hqueue rfl hreplies ⟨?_, Or.inl ⟨rfl, hcount⟩⟩
      simp only [hprinted, htaken]
    · rename_i msg queue hqueue
      obtain rfl := Option.some.inj h
      have hmsg : IsReply msg := by
        apply hreplies.2
        rw [htaken, hqueue]
        exact List.mem_append_right _ List.mem_cons_self
      refine hs.inside hk rfl rfl rfl rfl hreplies ⟨hcount, read ++ [msg], ?_, ?_⟩
      · simp only [htaken, hqueue, List.append_assoc, List.cons_append, List.nil_append]
      · simp only [hprinted, receivedMessage_filled nlh hmsg, List.map_append, List.map_cons,
          List.map_nil]
  · cases h

theorem sound_step {a : Action} (ha : served → a.Served) (hs : Sound served s)
    (h : step s a = some t) : Sound served t := by
  cases a with
  | bind k => exact sound_bind hs h
  | malloc k nlh => exact sound_malloc hs h
  | sendmsg k ok => exact sound_sendmsg ha hs h
  | reply k answers room => exact sound_reply ha hs h
  | finish k => exact sound_finish hs h
  | sent k => exact sound_sent hs h
  | recvmsg k => exact sound_recvmsg hs h

end Steps

theorem sound_exec {n : ℕ} {run : List Action} {s : State}
    (h : exec step (start n) run = some s) : Sound (∀ a ∈ run, a.Served) s :=
  exec_invariant (fun a ha _ _ hs hst => sound_step (fun hall => hall a ha) hs hst) h
    (sound_start n)

/-- The string of a reply, with the byte that the payload held behind it. -/
theorem message_reply {msg : Bytes} (h : IsReply msg) : message msg = some kernelText ∨
    ∃ old, old ≠ 0 ∧ message msg = some (kernelText ++ [old]) := by
  obtain ⟨payload, rfl⟩ := h
  have hnul : NulFree kernelText := by decide
  have hlen : kernelText.length ≤ maxMsgsize-2 := by decide
  obtain ⟨old, hold, -⟩ := written_split hlen payload
  rw [message, nlmsgData_putHeader, cstring_written hnul hlen payload hold]
  by_cases h0 : old = 0
  · exact Or.inl (by rw [if_pos h0])
  · exact Or.inr ⟨old, h0, by rw [if_neg h0]⟩

/-- However the processes take turns, one that ends has printed the replies to its own request, all
of them and in order, and none to another's: two if the kernel does what it is asked to, and never
more. It ends with -1, before it has sent anything, or with 1; every line is the text of the
module, at most one byte too long. -/
theorem session_law (n : ℕ) (run : List Action) (s : State)
    (h : exec step (start n) run = some s) (k : ℕ) (c : Client) (hk : s.clients[k]? = some c)
    (code : ℤ) (hc : c.pc = .exited code) :
    c.printed = c.taken.map message ∧ c.taken.length ≤ 2 ∧
      (code = -1 ∧ c.taken = [] ∨
        code = 1 ∧ ((∀ a ∈ run, a.Served) → c.taken.length = 2)) ∧
      ∀ text ∈ c.printed, text = some kernelText ∨
        ∃ old, old ≠ 0 ∧ text = some (kernelText ++ [old]) := by
  have hs := sound_exec h
  obtain ⟨hlen, hreply⟩ := hs.replies k c hk
  have hflow := hs.flow k c hk
  rw [Client.Flow, hc] at hflow
  obtain ⟨hprinted, hcode⟩ := hflow
  refine ⟨hprinted, hlen, hcode.symm, ?_⟩
  intro text htext
  rw [hprinted] at htext
  obtain ⟨msg, hmsg, rfl⟩ := List.mem_map.mp htext
  exact message_reply (hreply msg hmsg)

def sampleReply (payload : Payload) : Bytes := putHeader ++ written kernelText payload

/-- The second process finds the port taken; the first one gets its two replies. -/
def sampleRun (payload : Payload) : List Action :=
  [.bind 0, .bind 1, .malloc 0 (some clearedBuffer), .sendmsg 0 true,
    .reply 0 (.success 7 payload) true, .reply 0 (.success 8 payload) true, .finish 0, .sent 0,
    .recvmsg 0, .recvmsg 0, .recvmsg 0]

def sampleClient (payload : Payload) : Client where
  pc := .exited 1
  printed :=
    let first := filled clearedBuffer (sampleReply payload)
    [receivedMessage first.bytes, receivedMessage (filled first (sampleReply payload)).bytes]
  taken := [sampleReply payload, sampleReply payload]

def sampleEnd (payload : Payload) : State where
  clients := [sampleClient payload, ⟨.exited (-1), [], []⟩]
  owner := none
  queue := []

theorem sampleRun_exec (payload : Payload) :
    exec step (start 2) (sampleRun payload) = some (sampleEnd payload) := by
  have hsend : step ⟨[⟨.ready clearedBuffer, [], []⟩, ⟨.exited (-1), [], []⟩], some 0, []⟩
      (.sendmsg 0 true) =
      some ⟨[⟨.handling [⟨sortport, 2⟩], [], []⟩, ⟨.exited (-1), [], []⟩], some 0, []⟩ := by
    simp only [step, List.getElem?_cons_zero, if_true, enter_requestMsg]
    rfl
  refine exec_cons rfl (exec_cons rfl (exec_cons rfl (exec_cons hsend ?_)))
  refine exec_cons (step_reply rfl _ _) (exec_cons (step_reply rfl _ _) ?_)
  exact exec_cons rfl (exec_cons rfl (exec_cons rfl (exec_cons rfl (exec_cons rfl rfl))))

theorem session_law_sample : (sampleClient (filledPayload 0)).printed =
      (sampleClient (filledPayload 0)).taken.map message ∧
    (sampleClient (filledPayload 0)).taken.length ≤ 2 ∧
    ((1 : ℤ) = -1 ∧ (sampleClient (filledPayload 0)).taken = [] ∨
      (1 : ℤ) = 1 ∧ ((∀ a ∈ sampleRun (filledPayload 0), a.Served) →
        (sampleClient (filledPayload 0)).taken.length = 2)) ∧
    ∀ text ∈ (sampleClient (filledPayload 0)).printed, text = some kernelText ∨
      ∃ old, old ≠ 0 ∧ text = some (kernelText ++ [old]) :=
  session_law 2 (sampleRun (filledPayload 0)) (sampleEnd (filledPayload 0))
    (sampleRun_exec (filledPayload 0)) 0 (sampleClient (filledPayload 0)) rfl 1 rfl

end YuToolbox.NetlinkSession
