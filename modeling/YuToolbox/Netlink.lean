import YuToolbox.ByteBuffer

/-! The netlink module `nl.c`: what `sendnlmsg` and `nl_data_ready` do to socket
buffers, as the list of the kernel calls they make. The kernel's answers are
arguments; an access outside a buffer makes the whole call fail. -/
namespace YuToolbox.Netlink

open ByteBuffer

def maxMsgsize : ℕ := 1024

def nlmsgAlign (len : ℕ) : ℕ := (len+3)/4*4

/-- The aligned size of `struct nlmsghdr`. -/
def nlmsgHdrlen : ℕ := nlmsgAlign 16

def nlmsgLength (len : ℕ) : ℕ := len+nlmsgHdrlen

def nlmsgSpace (len : ℕ) : ℕ := nlmsgAlign (nlmsgLength len)

/-- The payload area of a freshly allocated message, which nobody has cleared. -/
structure Payload where
  bytes : Bytes
  size : bytes.length = maxMsgsize

/-- The kernel's answers to one call of `sendnlmsg`: the buffer that `alloc_skb`
returns with its payload area, and whether `nlmsg_put` finds room in it. -/
structure Answers where
  allocSkb : Option ℕ
  payload : Payload
  nlmsgPut : Bool

def Answers.success (skb : ℕ) (payload : Payload) : Answers := ⟨some skb, payload, true⟩

/-- What the module does with socket buffers; a message handed over carries its port
and its bytes, header included. -/
inductive SkbCall where
  | allocSkb (skb : ℕ)
  | skbGet (skb : ℕ)
  | kfreeSkb (skb : ℕ)
  | netlinkUnicast (skb portid : ℕ) (msg : Bytes)
  deriving DecidableEq

def nlmsghdr (len type flags seq pid : ℕ) : Bytes :=
  leBytes 4 len ++ leBytes 2 type ++ leBytes 2 flags ++ leBytes 4 seq ++ leBytes 4 pid

/-- `nlh->nlmsg_pid`. -/
def nlmsgPid (msg : Bytes) : ℕ := leValue ((msg.drop 12).take 4)

/-- `NLMSG_DATA(nlh)`. -/
def nlmsgData (msg : Bytes) : Bytes := msg.drop nlmsgHdrlen

/-- The loop of `stringlength`; `none` when the string runs out of its buffer. The count is
kept as the 32 bits of an `int`, which wraps around. -/
def stringlengthFrom (slen : ℕ) : Bytes → Option ℕ
  | [] => none
  | c :: s => if c = 0 then some slen else stringlengthFrom ((slen+1)%2^32) s

def stringlength (s : Bytes) : Option ℕ := stringlengthFrom 0 s

/-- The header that `nlmsg_put(skb, 0, 0, 0, MAX_MSGSIZE, 0)` writes. -/
def putHeader : Bytes := nlmsghdr (nlmsgLength maxMsgsize) 0 0 0 0

def sendnlmsg (nlSk : Bool) (message : Option Bytes) (portid : ℕ) (k : Answers) :
    Option (List SkbCall) :=
  match message, nlSk with
  | none, _ => some []
  | _, false => some []
  | some message, true =>
    match k.allocSkb with
    | none => some []
    | some skb => do
      let slen ← stringlength message
      if k.nlmsgPut then
        -- a negative `slen` is, as a `size_t`, longer than any buffer, and so it is here
        let data ← memcpy k.payload.bytes message slen
        -- one byte behind the place of the terminator
        let data ← store data (1+slen) 0
        some [.allocSkb skb, .netlinkUnicast skb portid (putHeader ++ data)]
      -- returns without a `kfree_skb`
      else some [.allocSkb skb]

/-- `"I am from kernel!"`, without and with its terminator. -/
def kernelText : Bytes := "I am from kernel!".toList.map (fun c => UInt8.ofNat c.toNat)

def kernelMessage : Bytes := kernelText ++ [0]

/-- `while(i--)` of `nl_data_ready`. -/
def sendLoop (nlSk : Bool) (portid : ℕ) (answers : ℕ → Answers) : ℕ → Option (List SkbCall)
  | 0 => some []
  | i+1 => do
    let sent ← sendnlmsg nlSk (some kernelMessage) portid (answers i)
    let rest ← sendLoop nlSk portid answers i
    some (sent ++ rest)

/-- The whole of `nl_data_ready` on a buffer that holds `msg`. -/
def nlDataReady (nlSk : Bool) (skb : ℕ) (msg : Bytes) (answers : ℕ → Answers) :
    Option (List SkbCall) :=
  if nlmsgSpace 0 ≤ msg.length then do
    let sent ← sendLoop nlSk (nlmsgPid msg) answers 2
    some (.skbGet skb :: sent ++ [.kfreeSkb skb])
  -- the reference is given back only in the branch above
  else some [.skbGet skb]

theorem stringlengthFrom_eq {slen : ℕ} (hslen : slen < 2^32) (s : Bytes) :
    stringlengthFrom slen s = (cstring s).map (fun t => (slen+t.length)%2^32) := by
  induction s generalizing slen with
  | nil => rfl
  | cons c s ih =>
    rw [stringlengthFrom, cstring]
    split
    · rw [Option.map_some, List.length_nil, Nat.add_zero, Nat.mod_eq_of_lt hslen]
    · rw [ih (Nat.mod_lt _ (by decide)), Option.map_map]
      congr 1
      funext t
      simp only [Function.comp_apply, List.length_cons, Nat.mod_add_mod]
      rw [Nat.add_right_comm, Nat.add_assoc]

theorem stringlength_text {text : Bytes} (h : NulFree text) (rest : Bytes) :
    stringlength (text ++ 0 :: rest) = some (text.length%2^32) := by
  rw [stringlength, stringlengthFrom_eq (by decide), cstring_terminated h, Option.map_some,
    Nat.zero_add]

theorem length_nlmsghdr (len type flags seq pid : ℕ) :
    (nlmsghdr len type flags seq pid).length = 16 := by
  simp only [nlmsghdr, List.length_append, length_leBytes]

/-- A header names the port that was written into it, truncated to 32 bits. -/
theorem nlmsgPid_nlmsghdr (len type flags seq pid : ℕ) (data : Bytes) :
    nlmsgPid (nlmsghdr len type flags seq pid ++ data) = pid%256^4 := by
  let fields := leBytes 4 len ++ leBytes 2 type ++ leBytes 2 flags ++ leBytes 4 seq
  have hfields : fields.length = 12 := by
    simp only [fields, List.length_append, length_leBytes]
  have hmsg : nlmsghdr len type flags seq pid ++ data = fields ++ (leBytes 4 pid ++ data) :=
    List.append_assoc _ _ _
  calc nlmsgPid (nlmsghdr len type flags seq pid ++ data)
      = leValue ((leBytes 4 pid ++ data).take 4) := by rw [nlmsgPid, hmsg, List.drop_left' hfields]
    _ = leValue (leBytes 4 pid) := by rw [List.take_left' (length_leBytes 4 pid)]
    _ = pid%256^4 := leValue_leBytes 4 pid

theorem length_putHeader : putHeader.length = nlmsgHdrlen := length_nlmsghdr _ _ _ _ _

theorem nlmsgPid_putHeader (data : Bytes) : nlmsgPid (putHeader ++ data) = 0 :=
  nlmsgPid_nlmsghdr _ _ _ _ _ data

theorem nlmsgData_putHeader (data : Bytes) : nlmsgData (putHeader ++ data) = data := by
  rw [nlmsgData, ← length_putHeader, List.drop_left]

/-- The payload that `sendnlmsg` leaves behind: the terminator goes one byte too far,
so one old byte stays between the text and it. -/
def written (text : Bytes) (payload : Payload) : Bytes :=
  (text ++ payload.bytes.drop text.length).set (1+text.length) 0

/-- What `sendnlmsg` does with a message that fits, whatever the kernel answers. -/
theorem sendnlmsg_fits {text : Bytes} (h : NulFree text) (hlen : text.length ≤ maxMsgsize-2)
    (rest : Bytes) (portid skb : ℕ) (payload : Payload) (nlmsgPut : Bool) :
    sendnlmsg true (some (text ++ 0 :: rest)) portid ⟨some skb, payload, nlmsgPut⟩ =
      some (.allocSkb skb :: if nlmsgPut then
        [.netlinkUnicast skb portid (putHeader ++ written text payload)] else []) := by
  have hsize := payload.size
  have hmax : maxMsgsize = 1024 := rfl
  have hslen : stringlength (text ++ 0 :: rest) = some text.length := by
    rw [stringlength_text h, Nat.mod_eq_of_lt (by omega)]
  have hcopy : memcpy payload.bytes (text ++ 0 :: rest) text.length =
      some (text ++ payload.bytes.drop text.length) := by
    rw [memcpy, if_pos ⟨by omega, by simp⟩, List.take_left]
  have hstore : store (text ++ payload.bytes.drop text.length) (1+text.length) 0 =
      some (written text payload) := by
    rw [store, if_pos (by rw [List.length_append, List.length_drop]; omega)]
    rfl
  -- both writes lie in the payload area
  cases nlmsgPut with
  | false => simp [sendnlmsg, hslen]
  | true => simp [sendnlmsg, hslen, hcopy, hstore]

/-- The calls of one round of `while(i--)`: the buffer goes to `netlink_unicast`, or is
forgotten when `nlmsg_put` finds no room in it. -/
def replyCalls (nlSk : Bool) (portid : ℕ) (k : Answers) : List SkbCall :=
  match nlSk, k.allocSkb with
  | true, some skb => .allocSkb skb :: if k.nlmsgPut then
      [.netlinkUnicast skb portid (putHeader ++ written kernelText k.payload)] else []
  | _, _ => []

theorem sendnlmsg_kernelMessage (nlSk : Bool) (portid : ℕ) (k : Answers) :
    sendnlmsg nlSk (some kernelMessage) portid k = some (replyCalls nlSk portid k) := by
  have hnul : NulFree kernelText := by decide
  obtain ⟨allocSkb, payload, nlmsgPut⟩ := k
  cases nlSk with
  | false => rfl
  | true =>
    cases allocSkb with
    | none => rfl
    | some skb => exact sendnlmsg_fits hnul (by decide) [] portid skb payload nlmsgPut

/-- `nl_data_ready` never leaves its buffers: two replies to a message with a header,
nothing for a shorter one. -/
theorem nlDataReady_eq (nlSk : Bool) (skb : ℕ) (msg : Bytes) (answers : ℕ → Answers) :
    nlDataReady nlSk skb msg answers = some (if nlmsgSpace 0 ≤ msg.length then
      .skbGet skb :: (replyCalls nlSk (nlmsgPid msg) (answers 1) ++
        replyCalls nlSk (nlmsgPid msg) (answers 0)) ++ [.kfreeSkb skb] else [.skbGet skb]) := by
  rw [nlDataReady]
  split
  · simp only [sendLoop, sendnlmsg_kernelMessage, Option.bind_eq_bind, Option.bind_some,
      List.append_nil]
  · rfl

end YuToolbox.Netlink
