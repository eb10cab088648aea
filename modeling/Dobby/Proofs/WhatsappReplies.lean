import Dobby.Model.Whatsapp

namespace Dobby.Whatsapp
open CString Allowlist Exchange

def jidSuffix : Str := "@s.whatsapp.net".toList

/-- The `replyJid` of a frame. An empty one counts as none. -/
def inboundReplyJid (obj : Json) : Option Str :=
  match obj.field "replyJid".toList with
  | some (c :: cs) => some (c :: cs)
  | _ => none

/-- No response pair is read off the message, and the answer goes back to the user and
the `replyJid` the message came from. -/
def AnswersFaithfully (replyJid : Option Str) (msg : InboundMsg) : Prop :=
  responsePairFromMeta msg.metadata = none ∧
    ∀ response, ∃ frame, whatsappDispatchSend true (outboundFor msg response) = some frame ∧
      frame.field "to".toList = some (ensureJid 256 msg.senderId) ∧
      frame.field "replyJid".toList = replyJid

/-- The user fits the session key, or what is cut off is the suffix that comes back. -/
def UserFits (user : Str) : Prop :=
  user ≠ [] ∧ (user.length ≤ 118 ∨
    ∃ phone : Str, phone.length = 118 ∧ '@' ∉ phone ∧ user = phone ++ jidSuffix)

/-- The first `rp=` is not followed by a nonzero number. -/
def NoAddress (jid : Str) : Prop :=
  ∀ rest, strstr rpMark jid = some rest → ∀ ptr, scanHex (rest.drop 3) = some ptr → ptr = 0

def JidFits (jid : Str) : Prop := jid.length ≤ 246 ∧ ';' ∉ jid ∧ NoAddress jid

/-- A message with no pair in its metadata is answered through the outbound queue. -/
theorem replied_outbound {factory : φ → Option α × φ} {chat : α → Str → φ → Option Str × α × φ}
    {s s' : System α φ} (hstep : Step factory chat s (.replied msg reply) s')
    (hnone : responsePairFromMeta msg.metadata = none) :
    ∃ response, reply = .posted (outboundFor msg response) ∨
      reply = .dropped (outboundFor msg response) := by
  cases hstep with
  | delivered _ sync =>
    rw [hnone] at sync
    cases sync
  | posted _ _ _ => exact ⟨_, .inl rfl⟩
  | dropped _ _ _ => exact ⟨_, .inr rfl⟩

theorem responsePairFromMeta_some (jid : Str) :
    responsePairFromMeta (some jid) = none ↔ NoAddress jid := by
  cases hs : strstr rpMark jid with
  | none => simp [NoAddress, responsePairFromMeta, hs]
  | some p =>
    cases hx : scanHex (p.drop 3) with
    | none => simp [NoAddress, responsePairFromMeta, hs, hx]
    | some ptr => cases ptr <;> simp [NoAddress, responsePairFromMeta, hs, hx]

/-- The tag in front hides no mark and starts none. -/
theorem strstr_tagged (jid : Str) :
    strstr rpMark ("replyJid=".toList ++ jid) = strstr rpMark jid := rfl

theorem responsePairFromMeta_tagged (jid : Str) :
    responsePairFromMeta (some ("replyJid=".toList ++ jid)) = responsePairFromMeta (some jid) := by
  simp only [responsePairFromMeta, strstr_tagged]

theorem metadata_tagged {jid : Str} (hne : jid ≠ []) :
    metadataOf (some jid) = some ("replyJid=".toList ++ jid.take 246) := by
  obtain ⟨c, cs, rfl⟩ := List.exists_cons_of_ne_nil hne
  rfl

theorem phoneOf_key (user : Str) :
    phoneOf (snprintf 128 ("whatsapp:".toList ++ user)) = user.take 118 := rfl

theorem replyJidOf_tagged (jid : Str) :
    replyJidOf (some ("replyJid=".toList ++ jid.take 246)) =
      (jid.take 246).takeWhile (fun c => c ≠ ';') := by
  have hlen : ((jid.take 246).takeWhile (fun c => c ≠ ';')).length < 256 := by
    have h := (List.takeWhile_prefix (l := jid.take 246) (fun c => c ≠ ';')).length_le
    rw [List.length_take] at h
    omega
  rw [replyJidOf, strstr_append]
  exact if_pos hlen

theorem replyJid_returns (jid : Str) :
    (jid.take 246).takeWhile (fun c => c ≠ ';') = jid ↔ jid.length ≤ 246 ∧ ';' ∉ jid := by
  constructor
  · intro h
    have hpre := List.takeWhile_prefix (l := jid.take 246) (fun c => c ≠ ';')
    have hlen := hpre.length_le
    rw [h, List.length_take] at hlen
    refine ⟨by omega, fun hmem => ?_⟩
    rw [← h] at hmem
    simpa using List.mem_takeWhile_imp hmem
  · rintro ⟨hlen, hmem⟩
    rw [List.take_of_length_le hlen]
    apply List.takeWhile_eq_self_iff.mpr
    intro c hc
    simpa using ne_of_mem_of_not_mem hc hmem

theorem jidSuffix_length : jidSuffix.length = 15 := rfl

theorem at_mem_jidSuffix : '@' ∈ jidSuffix := by decide

theorem ensureJid_address {user : Str} (h : '@' ∈ user) : ensureJid 256 user = user.take 255 := by
  rw [ensureJid, if_pos h, snprintf]

theorem ensureJid_phone {user : Str} (h : '@' ∉ user) :
    ensureJid 256 user = (user ++ jidSuffix).take 255 := by
  rw [ensureJid, if_neg h]
  rfl

/-- Cutting the user to the session key keeps the address only where nothing is cut or
the suffix alone is. -/
theorem ensureJid_cut (user : Str) :
    ensureJid 256 (user.take 118) = ensureJid 256 user ↔
      user.length ≤ 118 ∨ ∃ phone : Str, phone.length = 118 ∧ '@' ∉ phone ∧
        user = phone ++ jidSuffix := by
  constructor
  · intro h
    by_cases hlen : user.length ≤ 118
    · exact .inl hlen
    have hcut : (user.take 118).length = 118 := by
      rw [List.length_take]
      omega
    have hsplit := List.take_append_drop 118 user
    right
    by_cases hat : '@' ∈ user.take 118
    · rw [ensureJid_address hat, ensureJid_address (List.mem_of_mem_take hat)] at h
      have hl := congrArg List.length h
      simp only [List.length_take] at hl
      omega
    · rw [ensureJid_phone hat] at h
      have hshort : (user.take 118 ++ jidSuffix).length = 133 := by
        rw [List.length_append, hcut, jidSuffix_length]
      rw [List.take_of_length_le (by omega)] at h
      refine ⟨user.take 118, hcut, hat, ?_⟩
      by_cases hat' : '@' ∈ user
      · rw [ensureJid_address hat'] at h
        have hl := congrArg List.length h
        rw [hshort, List.length_take] at hl
        rw [h, List.take_of_length_le (by omega)]
      · rw [ensureJid_phone hat'] at h
        have hget := congrArg (fun s : Str => s[118]?) h
        rw [List.getElem?_append_right (by omega), hcut, List.getElem?_take_of_lt (by omega),
          List.getElem?_append_left (by omega)] at hget
        exact absurd (List.mem_of_getElem? hget.symm) hat'
  · rintro (hlen | ⟨phone, hlen, hat, rfl⟩)
    · rw [List.take_of_length_le hlen]
    · have hat' : '@' ∈ phone ++ jidSuffix := List.mem_append_right _ at_mem_jidSuffix
      have htake : (phone ++ jidSuffix).take 118 = phone := by
        rw [← hlen, List.take_left]
      have hshort : (phone ++ jidSuffix).length ≤ 255 := by
        rw [List.length_append, hlen, jidSuffix_length]
        omega
      rw [htake, ensureJid_phone hat, ensureJid_address hat']

theorem userFits_iff (user : Str) :
    UserFits user ↔
      user.take 118 ≠ [] ∧ ensureJid 256 (user.take 118) = ensureJid 256 user := by
  rw [UserFits, ensureJid_cut]
  simp

/-- The frame for a user and a `replyJid` as the dispatcher has read them back. -/
def sendFrame (user replyJid content : Str) : Json :=
  .object ([("type".toList, .string "send".toList), ("to".toList, .string (ensureJid 256 user))] ++
    (if replyJid = [] then [] else [("replyJid".toList, .string replyJid)]) ++
    [("text".toList, .string content)])

theorem sendFrame_to (user replyJid content : Str) :
    (sendFrame user replyJid content).field "to".toList = some (ensureJid 256 user) := rfl

theorem sendFrame_replyJid (user replyJid content : Str) :
    (sendFrame user replyJid content).field "replyJid".toList =
      if replyJid = [] then none else some replyJid := by
  unfold sendFrame
  split <;> rfl

theorem dispatch_frame {msg : OutboundMsg} (hphone : phoneOf msg.chatId ≠ []) :
    whatsappDispatchSend true msg =
      some (sendFrame (phoneOf msg.chatId) (replyJidOf msg.metadata) msg.content) := by
  unfold whatsappDispatchSend
  simp only [hphone, Bool.true_eq_false, or_self, if_false]
  rfl

theorem dispatch_empty {msg : OutboundMsg} (hphone : phoneOf msg.chatId = []) :
    whatsappDispatchSend true msg = none := by
  unfold whatsappDispatchSend
  simp [hphone]

theorem handleMessage_shape {al : Option Allowlist} {obj : Json} {msg : InboundMsg}
    (h : handleMessage al obj = some msg) :
    msg.chatId = snprintf 128 ("whatsapp:".toList ++ msg.senderId) ∧
      msg.metadata = metadataOf (inboundReplyJid obj) := by
  unfold handleMessage at h
  split at h
  · simp only at h
    split at h
    · cases h
      refine ⟨rfl, ?_⟩
      simp only [inboundReplyJid]
      split <;> simp_all [metadataOf]
    · cases h
  · cases h

theorem inboundReplyJid_ne {obj : Json} {jid : Str} (h : inboundReplyJid obj = some jid) :
    jid ≠ [] := by
  unfold inboundReplyJid at h
  split at h <;> cases h
  exact List.cons_ne_nil _ _

/-- The part of a faithful answer that is about the user. -/
theorem answers_iff {msg : InboundMsg}
    (hchat : msg.chatId = snprintf 128 ("whatsapp:".toList ++ msg.senderId)) (jid : Option Str) :
    AnswersFaithfully jid msg ↔
      responsePairFromMeta msg.metadata = none ∧ UserFits msg.senderId ∧
        (if replyJidOf msg.metadata = [] then none else some (replyJidOf msg.metadata)) = jid := by
  have hphone : phoneOf msg.chatId = msg.senderId.take 118 := by rw [hchat, phoneOf_key]
  rw [userFits_iff, AnswersFaithfully]
  apply and_congr_right'
  constructor
  · intro h
    obtain ⟨frame, hframe, hto, hjid⟩ := h none
    by_cases hne : msg.senderId.take 118 = []
    · rw [dispatch_empty (by rw [← hne, ← hphone]; rfl)] at hframe
      cases hframe
    · rw [dispatch_frame (by rwa [← hphone] at hne)] at hframe
      cases hframe
      rw [sendFrame_to] at hto
      rw [sendFrame_replyJid] at hjid
      refine ⟨⟨hne, ?_⟩, hjid⟩
      rw [← hphone]
      exact Option.some.inj hto
  · rintro ⟨⟨hne, hto⟩, hjid⟩ response
    refine ⟨_, dispatch_frame (by rwa [← hphone] at hne), ?_, ?_⟩
    · rw [sendFrame_to, ← hto]
      exact congrArg (fun p => some (ensureJid 256 p)) hphone
    · rw [sendFrame_replyJid]
      exact hjid

/-- Messages of the bridge are answered where they came from exactly where the user fits
the session key and the `replyJid` fits the metadata and holds no separator and no address. -/
theorem answersFaithfully_iff {al : Option Allowlist} {obj : Json} {msg : InboundMsg}
    (h : handleMessage al obj = some msg) :
    AnswersFaithfully (inboundReplyJid obj) msg ↔
      UserFits msg.senderId ∧ ∀ jid, inboundReplyJid obj = some jid → JidFits jid := by
  obtain ⟨hchat, hmeta⟩ := handleMessage_shape h
  rw [answers_iff hchat, hmeta]
  cases hj : inboundReplyJid obj with
  | none => simp [metadataOf, responsePairFromMeta, replyJidOf]
  | some jid =>
    have hne := inboundReplyJid_ne hj
    rw [metadata_tagged hne, replyJidOf_tagged, responsePairFromMeta_tagged]
    have hback : (if (jid.take 246).takeWhile (fun c => c ≠ ';') = [] then none
        else some ((jid.take 246).takeWhile (fun c => c ≠ ';'))) = some jid ↔
        jid.length ≤ 246 ∧ ';' ∉ jid := by
      rw [← replyJid_returns]
      constructor
      · intro he
        split at he
        · cases he
        · exact Option.some.inj he
      · intro he
        rw [he, if_neg hne]
    rw [hback]
    constructor
    · rintro ⟨hpair, huser, hlen, hsep⟩
      rw [List.take_of_length_le hlen, responsePairFromMeta_some] at hpair
      refine ⟨huser, fun jid' he => ?_⟩
      cases he
      exact ⟨hlen, hsep, hpair⟩
    · rintro ⟨huser, hjid⟩
      obtain ⟨hlen, hsep, hpair⟩ := hjid jid rfl
      rw [List.take_of_length_le hlen, responsePairFromMeta_some]
      exact ⟨hpair, huser, hlen, hsep⟩

/-- A frame as the bridge sends it for a user with a routed address. -/
def lidFrame (jid : Str) : Json :=
  .object [("sender".toList, .string "49151".toList), ("content".toList, .string "hi".toList),
    ("replyJid".toList, .string jid)]

def lidMsg (metadata : Str) : InboundMsg :=
  ⟨"whatsapp".toList, "49151".toList, "whatsapp:49151".toList, "hi".toList, some metadata⟩

theorem answersFaithfully_lid :
    handleMessage none (lidFrame "77@lid".toList) = some (lidMsg "replyJid=77@lid".toList) ∧
      AnswersFaithfully (some "77@lid".toList) (lidMsg "replyJid=77@lid".toList) := by
  have h : handleMessage none (lidFrame "77@lid".toList) =
      some (lidMsg "replyJid=77@lid".toList) := rfl
  have huser : UserFits "49151".toList := ⟨by decide, .inl (by decide)⟩
  have hmark : strstr rpMark "77@lid".toList = none := by decide
  have hjid : JidFits "77@lid".toList := by
    refine ⟨by decide, by decide, fun rest hr => ?_⟩
    rw [hmark] at hr
    cases hr
  refine ⟨h, (answersFaithfully_iff h).mpr ⟨huser, fun jid hj => ?_⟩⟩
  cases hj
  exact hjid

/-- A remote `replyJid` is taken for the address of a response pair. -/
theorem pointer_misread :
    handleMessage none (lidFrame "rp=1".toList) = some (lidMsg "replyJid=rp=1".toList) ∧
      responsePairFromMeta (some "replyJid=rp=1".toList) = some 1 ∧
      ¬AnswersFaithfully (inboundReplyJid (lidFrame "rp=1".toList)) (lidMsg "replyJid=rp=1".toList) := by
  have hpair : responsePairFromMeta (some "replyJid=rp=1".toList) = some 1 := by decide
  refine ⟨rfl, hpair, fun h => ?_⟩
  have hnone : responsePairFromMeta (some "replyJid=rp=1".toList) = none := h.1
  rw [hpair] at hnone
  cases hnone

end Dobby.Whatsapp
