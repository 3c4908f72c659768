import YuToolbox.Netlink

/-! A text through `sendnlmsg` and the receive loop of `unl.c`. The user's buffer has
the size of the message, so what is printed there is the string that the kernel put at
`NLMSG_DATA`. -/
namespace YuToolbox.Netlink

open ByteBuffer

/-- The message buffer of `unl.c`, of `NLMSG_SPACE(MAX_PAYLOAD)` bytes. -/
structure UserBuffer where
  bytes : Bytes
  size : bytes.length = nlmsgSpace maxMsgsize

/-- `memset(nlh,0,NLMSG_SPACE(MAX_PAYLOAD))` before the first message. -/
def clearedBuffer : UserBuffer :=
  ⟨List.replicate (nlmsgSpace maxMsgsize) 0, List.length_replicate⟩

def filledPayload (c : UInt8) : Payload := ⟨List.replicate maxMsgsize c, List.length_replicate⟩

theorem filledPayload_getElem (c : UInt8) {i : ℕ} (h : i < maxMsgsize) :
    (filledPayload c).bytes[i]? = some c :=
  List.getElem?_replicate_of_lt h

/-- `recvmsg` fills the user's buffer from its start with what fits of the message. -/
def recvmsg (nlh : UserBuffer) (msg : Bytes) : Bytes :=
  msg.take nlh.bytes.length ++ nlh.bytes.drop msg.length

def receivedMessage (nlh : Bytes) : Option Bytes := cstring (nlmsgData nlh)

theorem length_written (text : Bytes) (payload : Payload) (h : text.length ≤ maxMsgsize) :
    (written text payload).length = maxMsgsize := by
  rw [written, List.length_set, List.length_append, List.length_drop, payload.size]
  omega

theorem recvmsg_message (nlh : UserBuffer) (data : Bytes) (h : data.length = maxMsgsize) :
    recvmsg nlh (putHeader ++ data) = putHeader ++ data := by
  have hlen : (putHeader ++ data).length = nlh.bytes.length := by
    rw [List.length_append, length_putHeader, h, nlh.size]
    decide
  rw [recvmsg, ← hlen, List.take_length, hlen, List.drop_length, List.append_nil]

/-- One byte of the old payload stands between the text and its terminator. -/
theorem written_split {text : Bytes} (hlen : text.length ≤ maxMsgsize-2) (payload : Payload) :
    ∃ old, payload.bytes[text.length]? = some old ∧
      written text payload = text ++ old :: 0 :: payload.bytes.drop (text.length+2) := by
  have hmax : maxMsgsize = 1024 := rfl
  have hsize := payload.size
  have hold : text.length < payload.bytes.length := by omega
  have hnext : text.length+1 < payload.bytes.length := by omega
  refine ⟨payload.bytes[text.length], List.getElem?_eq_getElem hold, ?_⟩
  -- the copy ends before the old byte, and the terminator is stored behind it
  have hdrop : payload.bytes.drop text.length = payload.bytes[text.length] ::
      payload.bytes[text.length+1] :: payload.bytes.drop (text.length+2) := by
    rw [List.drop_eq_getElem_cons hold, List.drop_eq_getElem_cons hnext]
  rw [written, hdrop, Nat.add_comm 1, List.set_append_right _ _ (Nat.le_add_right _ 1),
    Nat.add_sub_cancel_left]
  rfl

theorem cstring_written {text : Bytes} (hnul : NulFree text) (hlen : text.length ≤ maxMsgsize-2)
    (payload : Payload) {old : UInt8} (hold : payload.bytes[text.length]? = some old) :
    cstring (written text payload) = some (if old = 0 then text else text ++ [old]) := by
  obtain ⟨old', hold', hw⟩ := written_split hlen payload
  obtain rfl : old = old' := Option.some.inj (hold.symm.trans hold')
  rw [hw]
  by_cases h0 : old = 0
  · rw [if_pos h0, h0]
    exact cstring_terminated hnul _
  · -- the old byte is then one more character of the string
    have htext : NulFree (text ++ [old]) := by
      intro c hc
      rcases List.mem_append.mp hc with hc | hc
      · exact hnul c hc
      · rw [List.mem_singleton.mp hc]
        exact h0
    rw [if_neg h0, show text ++ old :: 0 :: payload.bytes.drop (text.length+2) =
      (text ++ [old]) ++ 0 :: payload.bytes.drop (text.length+2) by simp]
    exact cstring_terminated htext _

/-- A text is handed to `netlink_unicast`, and printed by the receiver, as it is exactly
when the payload area happened to hold a NUL right behind it. -/
theorem message_round_trip_iff {text : Bytes} (hnul : NulFree text)
    (hlen : text.length ≤ maxMsgsize-2) (rest : Bytes) (portid skb : ℕ) (payload : Payload)
    (nlh : UserBuffer) :
    ∃ msg, sendnlmsg true (some (text ++ 0 :: rest)) portid (.success skb payload) =
        some [.allocSkb skb, .netlinkUnicast skb portid msg] ∧
      (cstring (nlmsgData msg) = some text ∧ receivedMessage (recvmsg nlh msg) = some text ↔
        payload.bytes[text.length]? = some 0) := by
  refine ⟨putHeader ++ written text payload, sendnlmsg_fits hnul hlen rest portid skb payload true,
    ?_⟩
  obtain ⟨old, hold, -⟩ := written_split hlen payload
  rw [receivedMessage, recvmsg_message nlh _ (length_written text payload (by omega)), and_self,
    nlmsgData_putHeader, cstring_written hnul hlen payload hold, hold, Option.some.injEq,
    Option.some.injEq]
  constructor
  · intro h
    by_contra h0
    rw [if_neg h0] at h
    simpa using congrArg List.length h
  · intro h0
    rw [if_pos h0]

theorem message_round_trip_iff_hi : ∃ msg,
    sendnlmsg true (some [104, 105, 0]) 100 (.success 7 (filledPayload 0)) =
      some [.allocSkb 7, .netlinkUnicast 7 100 msg] ∧
    (cstring (nlmsgData msg) = some [104, 105] ∧
      receivedMessage (recvmsg clearedBuffer msg) = some [104, 105] ↔
      (filledPayload 0).bytes[2]? = some 0) :=
  message_round_trip_iff (show NulFree [104, 105] by decide) (by decide) [] 100 7
    (filledPayload 0) clearedBuffer

/-- Where the payload area held an `X`, the text `hi` arrives as `hiX`. -/
theorem message_round_trip_old_byte : ¬ ∀ (text : Bytes), NulFree text →
    text.length ≤ maxMsgsize-2 → ∀ (payload : Payload) (msg : Bytes),
    sendnlmsg true (some (text ++ [0])) 100 (.success 7 payload) =
      some [.allocSkb 7, .netlinkUnicast 7 100 msg] →
    cstring (nlmsgData msg) = some text ∧
      receivedMessage (recvmsg clearedBuffer msg) = some text := by
  intro h
  have hnul : NulFree [104, 105] := by decide
  obtain ⟨hhi, -⟩ := h [104, 105] hnul (by decide) (filledPayload 88) _
    (sendnlmsg_fits hnul (by decide) [] 100 7 _ true)
  rw [nlmsgData_putHeader, cstring_written hnul (by decide) (filledPayload 88)
    (filledPayload_getElem 88 (by decide))] at hhi
  revert hhi
  decide

end YuToolbox.Netlink
