import YuToolbox.NetlinkRoundTrip

/-! Where `sendnlmsg` writes in its payload area and where the print of `nl_data_ready`
reads in the payload it got, for messages of any length and any bytes. -/
namespace YuToolbox.Netlink

open ByteBuffer

/-- `nl_data_ready` with its print `Message received:%s, %d`: the string, which needs a NUL
before the end of the payload, the port as the `int` that `portid` is, and the calls. -/
def nlDataReadyPrinted (nlSk : Bool) (skb : ℕ) (msg : Bytes) (answers : ℕ → Answers) :
    Option (Option (Bytes × ℤ) × List SkbCall) :=
  if nlmsgSpace 0 ≤ msg.length then do
    let shown ← cstring (nlmsgData msg)
    let sent ← sendLoop nlSk (nlmsgPid msg) answers 2
    some (some (shown, (BitVec.ofNat 32 (nlmsgPid msg)).toInt),
      .skbGet skb :: sent ++ [.kfreeSkb skb])
  else some (none, [.skbGet skb])

/-- Whatever the kernel answers, no write for this text falls outside the payload area. -/
def SendBounded (text : Bytes) : Prop :=
  ∀ nlSk rest portid k, (sendnlmsg nlSk (some (text ++ 0 :: rest)) portid k).isSome

/-- The string that the print shows ends in the payload that has come in. -/
def PrintBounded (msg : Bytes) : Prop :=
  ∀ nlSk skb answers, (nlDataReadyPrinted nlSk skb msg answers).isSome

theorem cstring_isSome_iff (buf : Bytes) : (cstring buf).isSome ↔ 0 ∈ buf := by
  induction buf with
  | nil => simp [cstring]
  | cons c buf ih =>
    rw [cstring, List.mem_cons]
    by_cases hc : c = 0
    · rw [if_pos hc]
      exact iff_of_true rfl (.inl hc.symm)
    · rw [if_neg hc, Option.isSome_map, ih]
      exact ⟨.inr, fun h => h.resolve_left (Ne.symm hc)⟩

theorem memcpy_eq_none {dst : Bytes} {n : ℕ} (h : dst.length < n) (src : Bytes) :
    memcpy dst src n = none := by
  rw [memcpy, if_neg (fun hn => Nat.not_le.mpr h hn.1)]

theorem store_isSome_iff (buf : Bytes) (i : ℕ) (c : UInt8) :
    (store buf i c).isSome ↔ i < buf.length := by
  rw [store, Option.isSome_ite]

/-- A copy inside both buffers keeps the size of the one it goes to. -/
theorem memcpy_exists {dst src : Bytes} {n : ℕ} (hd : n ≤ dst.length) (hs : n ≤ src.length) :
    ∃ data, memcpy dst src n = some data ∧ data.length = dst.length := by
  refine ⟨_, by rw [memcpy, if_pos ⟨hd, hs⟩], ?_⟩
  rw [List.length_append, List.length_take, List.length_drop]
  omega

/-- Both writes lie in the payload area when the terminator, two behind the last byte copied,
does. -/
theorem sendnlmsg_isSome_iff {text : Bytes} (h : NulFree text) (nlSk : Bool) (rest : Bytes)
    (portid : ℕ) (k : Answers) : (sendnlmsg nlSk (some (text ++ 0 :: rest)) portid k).isSome ↔
      (nlSk = true → k.allocSkb.isSome → k.nlmsgPut = true → text.length%2^32 ≤ maxMsgsize-2) := by
  obtain ⟨allocSkb, payload, nlmsgPut⟩ := k
  have hmax : maxMsgsize = 1024 := rfl
  have hsize := payload.size
  have hslen := Nat.mod_le text.length (2^32)
  have hsrc : (text ++ 0 :: rest).length = text.length+(rest.length+1) := List.length_append
  cases nlSk with
  | false => simp [sendnlmsg]
  | true =>
    cases allocSkb with
    | none => simp [sendnlmsg]
    | some skb =>
      cases nlmsgPut with
      | false => simp [sendnlmsg, stringlength_text h]
      | true =>
        simp only [sendnlmsg, stringlength_text h, if_true, Option.bind_eq_bind,
          Option.bind_some, Option.isSome_some, true_imp_iff]
        by_cases hfit : text.length%2^32 ≤ maxMsgsize
        · have hdst : text.length%2^32 ≤ payload.bytes.length := hsize ▸ hfit
          have hsrc : text.length%2^32 ≤ (text ++ 0 :: rest).length := by omega
          obtain ⟨data, hdata, hlen⟩ := memcpy_exists hdst hsrc
          have hbytes : (store data (1+text.length%2^32) 0).isSome ↔
              text.length%2^32 ≤ maxMsgsize-2 := by
            rw [store_isSome_iff]
            omega
          -- the copy fits, so the terminator decides
          rw [hdata, Option.bind_some, ← hbytes]
          cases store data (1+text.length%2^32) 0 <;> rfl
        · rw [memcpy_eq_none (by omega), Option.bind_none]
          simp only [Option.isSome_none, Bool.false_eq_true, false_iff]
          omega

theorem nlDataReadyPrinted_isSome_iff (nlSk : Bool) (skb : ℕ) {msg : Bytes}
    (answers : ℕ → Answers) (hlen : nlmsgSpace 0 ≤ msg.length) :
    (nlDataReadyPrinted nlSk skb msg answers).isSome ↔ 0 ∈ nlmsgData msg := by
  rw [nlDataReadyPrinted, if_pos hlen, ← cstring_isSome_iff]
  cases cstring (nlmsgData msg) with
  | none => rfl
  | some shown =>
    simp only [sendLoop, sendnlmsg_kernelMessage, Option.bind_eq_bind, Option.bind_some,
      Option.isSome_some]

/-- The print aside, these are the calls of `nl_data_ready`. -/
theorem map_snd_nlDataReadyPrinted (nlSk : Bool) (skb : ℕ) (msg : Bytes) (answers : ℕ → Answers)
    (h : 0 ∈ nlmsgData msg ∨ msg.length < nlmsgSpace 0) :
    (nlDataReadyPrinted nlSk skb msg answers).map Prod.snd = nlDataReady nlSk skb msg answers := by
  rw [nlDataReadyPrinted, nlDataReady]
  split
  · have hnul := (cstring_isSome_iff _).mpr (h.resolve_right (by omega))
    obtain ⟨shown, hshown⟩ := Option.isSome_iff_exists.mp hnul
    simp only [hshown, sendLoop, sendnlmsg_kernelMessage, Option.bind_eq_bind, Option.bind_some,
      Option.map_some]
  · rfl

/-- The writes are in bounds for the texts that leave room for a terminator one byte too far,
and the print is for the payloads with a NUL. -/
theorem payload_bounds_iff {text msg : Bytes} (htext : NulFree text)
    (hmsg : nlmsgSpace 0 ≤ msg.length) : SendBounded text ∧ PrintBounded msg ↔
      text.length%2^32 ≤ maxMsgsize-2 ∧ 0 ∈ nlmsgData msg := by
  constructor
  · rintro ⟨hsend, hprint⟩
    -- a kernel that grants every request lets both accesses happen
    have hsome := hsend true [] 0 (.success 1 (filledPayload 0))
    refine ⟨(sendnlmsg_isSome_iff htext _ _ _ _).mp hsome rfl rfl rfl, ?_⟩
    exact (nlDataReadyPrinted_isSome_iff _ _ _ hmsg).mp
      (hprint true 1 (fun _ => .success 2 (filledPayload 0)))
  · rintro ⟨hfit, hnul⟩
    constructor
    · intro nlSk rest portid k
      exact (sendnlmsg_isSome_iff htext nlSk rest portid k).mpr (fun _ _ _ => hfit)
    · intro nlSk skb answers
      exact (nlDataReadyPrinted_isSome_iff nlSk skb answers hmsg).mpr hnul

theorem payload_bounds_iff_hi :
    SendBounded [104, 105] ∧ PrintBounded (putHeader ++ [104, 105, 0]) ↔
      ([104, 105] : Bytes).length%2^32 ≤ maxMsgsize-2 ∧
        0 ∈ nlmsgData (putHeader ++ [104, 105, 0]) :=
  payload_bounds_iff (by decide) (by decide)

/-- A text of 1023 bytes is terminated behind the payload area, and a payload without a NUL is
read past its end. -/
theorem payload_bounds_exceeded : (¬ ∀ text, NulFree text → SendBounded text) ∧
    ¬ ∀ msg, nlmsgSpace 0 ≤ msg.length → PrintBounded msg := by
  constructor
  · intro hsend
    have hnul : NulFree (List.replicate 1023 65) := by
      intro c hc
      rw [List.eq_of_mem_replicate hc]
      decide
    have hsome := hsend _ hnul true [] 0 (.success 1 (filledPayload 0))
    have hfit := (sendnlmsg_isSome_iff hnul _ _ _ _).mp hsome rfl rfl rfl
    rw [List.length_replicate] at hfit
    exact absurd hfit (by decide)
  · intro hprint
    have hsome := hprint (putHeader ++ [65]) (by decide) true 1
      (fun _ => .success 2 (filledPayload 0))
    have hnul := (nlDataReadyPrinted_isSome_iff _ _ _ (by decide)).mp hsome
    rw [nlmsgData_putHeader] at hnul
    exact absurd hnul (by decide)

end YuToolbox.Netlink
