import Dobby.Model.Smtp

namespace Dobby.Email
open CString

section Reader

variable (ctx : ReadCtx) (offers : Nat → Offer)

/-- A call takes as much as is left and as fits. -/
theorem smtpReadCb_eq (offer : Offer) :
    smtpReadCb ctx offer = (List.range' ctx.pos (min (ctx.len - ctx.pos) (offer.size * offer.nmemb)),
      { ctx with pos := ctx.pos + min (ctx.len - ctx.pos) (offer.size * offer.nmemb) }) := by
  have havail := Nat.mod_eq_of_lt offer.addressed
  unfold smtpReadCb
  dsimp only
  rw [havail]
  split
  · rename_i h
    simp [h]
  · simp only [← Nat.not_le, ite_not, Nat.min_def]
    split <;> split <;> simp <;> omega

theorem contextAt_kept (k : Nat) :
    (contextAt ctx offers k).data = ctx.data ∧ (contextAt ctx offers k).len = ctx.len := by
  induction k with
  | zero => exact ⟨rfl, rfl⟩
  | succ k ih =>
    rw [contextAt, smtpReadCb_eq]
    exact ih

theorem indicesAt_eq (k : Nat) :
    indicesAt ctx offers k = List.range' (contextAt ctx offers k).pos
      (min (ctx.len - (contextAt ctx offers k).pos) ((offers k).size * (offers k).nmemb)) := by
  rw [indicesAt, smtpReadCb_eq, (contextAt_kept ctx offers k).2]

theorem contextAt_succ_pos (k : Nat) :
    (contextAt ctx offers (k + 1)).pos = (contextAt ctx offers k).pos +
      min (ctx.len - (contextAt ctx offers k).pos) ((offers k).size * (offers k).nmemb) := by
  rw [contextAt, smtpReadCb_eq, (contextAt_kept ctx offers k).2]

variable {ctx offers}

theorem contextAt_pos_le (h : ctx.pos = 0) (k : Nat) : (contextAt ctx offers k).pos ≤ ctx.len := by
  induction k with
  | zero => simp [contextAt, h]
  | succ k ih =>
    rw [contextAt_succ_pos]
    omega

/-- Every call moves the position on until it is at the end. -/
theorem contextAt_pos_ge (k : Nat) : min ctx.len k ≤ (contextAt ctx offers k).pos := by
  induction k with
  | zero => simp
  | succ k ih =>
    have hroom := (offers k).room
    rw [contextAt_succ_pos]
    omega

/-- A call that copies nothing finds the position at the end. -/
theorem indicesAt_nil_iff (h : ctx.pos = 0) (k : Nat) :
    indicesAt ctx offers k = [] ↔ (contextAt ctx offers k).pos = ctx.len := by
  have hle : (contextAt ctx offers k).pos ≤ ctx.len := contextAt_pos_le h k
  have hroom := (offers k).room
  rw [indicesAt_eq, List.range'_eq_nil_iff]
  omega

/-- The calls copy one index after the other. -/
theorem indicesBefore_eq (h : ctx.pos = 0) (k : Nat) :
    (List.range k).flatMap (indicesAt ctx offers) = List.range (contextAt ctx offers k).pos := by
  induction k with
  | zero =>
    simp [contextAt, h]
  | succ k ih =>
    rw [List.range_succ, List.flatMap_append, ih, List.flatMap_singleton, contextAt_succ_pos,
      indicesAt_eq, List.range_eq_range', List.range_eq_range']
    generalize (contextAt ctx offers k).pos = pos
    have hnext (n : Nat) : List.range' 0 pos ++ List.range' (0 + 1 * pos) n =
        List.range' 0 (pos + n) := List.range'_append
    simpa using hnext _

theorem chunksBefore_eq (h : ctx.pos = 0) (k : Nat) :
    chunksBefore ctx offers k = (List.range (contextAt ctx offers k).pos).map ctx.data := by
  rw [chunksBefore, ← List.map_flatMap, indicesBefore_eq h]

end Reader

/-- The calls hand over the text, the last one nothing, and no call leaves the array. -/
structure ReadWhole (ctx : ReadCtx) (offers : Nat → Offer) (text : Str) : Prop where
  whole : ∃ k, indicesAt ctx offers k = [] ∧ chunksBefore ctx offers k = text
  inside : ∀ k, ∀ i ∈ indicesAt ctx offers k, i < payloadMax

/-- A text is read whole exactly when it is what the memory holds and the array holds it all. -/
theorem readWhole_iff {ctx : ReadCtx} (offers : Nat → Offer) (hpos : ctx.pos = 0) (text : Str) :
    ReadWhole ctx offers text ↔
      (List.range ctx.len).map ctx.data = text ∧ ctx.len ≤ payloadMax := by
  have hlast : (contextAt ctx offers ctx.len).pos = ctx.len := by
    have hge : min ctx.len ctx.len ≤ (contextAt ctx offers ctx.len).pos := contextAt_pos_ge ctx.len
    have hle : (contextAt ctx offers ctx.len).pos ≤ ctx.len := contextAt_pos_le hpos ctx.len
    omega
  constructor
  · intro h
    obtain ⟨k, hk, hchunks⟩ := h.whole
    rw [indicesAt_nil_iff hpos] at hk
    rw [chunksBefore_eq hpos, hk] at hchunks
    refine ⟨hchunks, Nat.le_of_not_lt fun hlt => ?_⟩
    have hmem : payloadMax ∈ (List.range ctx.len).flatMap (indicesAt ctx offers) := by
      rw [indicesBefore_eq hpos, hlast]
      exact List.mem_range.mpr hlt
    obtain ⟨j, -, hj⟩ := List.mem_flatMap.mp hmem
    exact Nat.lt_irrefl _ (h.inside j _ hj)
  · rintro ⟨htext, hlen⟩
    refine ⟨⟨ctx.len, (indicesAt_nil_iff hpos _).mpr hlast, ?_⟩, fun k i hi => ?_⟩
    · rw [chunksBefore_eq hpos, hlast, htext]
    · have hle : (contextAt ctx offers (k + 1)).pos ≤ ctx.len := contextAt_pos_le hpos (k + 1)
      have hrange : i ∈ List.range (contextAt ctx offers (k + 1)).pos := by
        rw [← indicesBefore_eq hpos]
        exact List.mem_flatMap.mpr ⟨k, List.mem_range.mpr (Nat.lt_succ_self k), hi⟩
      have hlt := List.mem_range.mp hrange
      omega

theorem Smtp.format_ends (address msgId : Str) (mail : Smtp) :
    ∃ front, mail.format address msgId = front ++ ['\n'] := by
  unfold Smtp.format
  exact ⟨_, (List.append_assoc _ ['\r'] ['\n']).symm⟩

theorem printPayload_fits {text : Str} (mem : Nat → Char) (h : text.length < payloadMax) :
    (List.range text.length).map (printPayload mem text) = text := by
  apply List.ext_getElem
  · simp
  · intro i hi hi'
    have hget : (text ++ ['\x00'])[i]? = some text[i] := by
      rw [List.getElem?_append_left hi', List.getElem?_eq_getElem hi']
    simp [printPayload, snprintf_fits h, hget]

/-- The terminator stands in the last byte of the array. -/
theorem printPayload_last {text : Str} (mem : Nat → Char) (h : payloadMax ≤ text.length) :
    printPayload mem text (payloadMax - 1) = '\x00' := by
  have hlen : (snprintf payloadMax text).length = payloadMax - 1 := by
    rw [snprintf, List.length_take]
    omega
  rw [printPayload, ← hlen, List.getD_eq_getElem?_getD, List.getElem?_concat_length]
  rfl

/-- A text that fits the array is read whole, and a longer one is not. -/
theorem payload_readWhole_iff (mem : Nat → Char) (offers : Nat → Offer) {front text : Str}
    (htext : text = front ++ ['\n']) :
    (∃ ctx, smtpOpen mem text = some ctx ∧ ReadWhole ctx offers text) ↔
      text.length < payloadMax := by
  have hpos : 0 < text.length := by
    rw [htext, List.length_append, List.length_singleton]
    exact Nat.succ_pos _
  have hint : payloadMax < intMax := by decide
  constructor
  · rintro ⟨ctx, hopen, hread⟩
    by_contra hlong
    unfold smtpOpen at hopen
    split at hopen
    · cases hopen
    · rename_i hprinted
      have hlen : (printed text).toNat = text.length := by
        unfold printed at hprinted ⊢
        split
        · rfl
        · rename_i h
          rw [if_neg h] at hprinted
          omega
      cases hopen
      rw [hlen] at hread
      obtain ⟨hdata, hle⟩ := (readWhole_iff offers rfl text).mp hread
      have hfull : text.length - 1 = payloadMax - 1 := by
        dsimp only at hle
        omega
      have hlast : text[text.length - 1]? = some '\n' := by simp [htext]
      have hget := congrArg (fun s => s[text.length - 1]?) hdata
      dsimp only at hget
      rw [hlast, List.getElem?_map, List.getElem?_range (Nat.sub_lt hpos Nat.one_pos), hfull,
        Option.map_some, printPayload_last mem (Nat.le_of_not_lt hlong)] at hget
      exact absurd hget (by decide)
  · intro hfits
    have hprinted : printed text = text.length := if_pos (by omega)
    refine ⟨⟨printPayload mem text, 0, text.length⟩, ?_, ?_⟩
    · rw [smtpOpen, hprinted, if_neg (by omega), Int.toNat_natCast]
    · exact (readWhole_iff offers rfl text).mpr ⟨printPayload_fits mem hfits, hfits.le⟩

/-- How many bytes the threading headers take. -/
def threadingSize : Option Str → Nat
  | none => 0
  | some id => if id = [] then 0 else 2 * id.length + 29

theorem smtpSend_threading_length (toAddr subject body : Str) (inReplyTo : Option Str) :
    (smtpSend toAddr subject body inReplyTo).threading.length = threadingSize inReplyTo := by
  cases inReplyTo with
  | none => rfl
  | some id =>
    by_cases hid : id = []
    · rw [hid]
      rfl
    · have hsome : some id ≠ some [] := fun h => hid (Option.some.inj h)
      have hreply : "In-Reply-To: ".toList.length = 13 := by decide +kernel
      have hreferences : "References: ".toList.length = 12 := by decide +kernel
      have hbreak : "\r\n".toList.length = 2 := by decide +kernel
      simp only [Smtp.threading, smtpSend, if_neg hsome, Option.elim_some, threadingSize, if_neg hid]
      generalize "In-Reply-To: ".toList = replyText at hreply ⊢
      generalize "References: ".toList = referencesText at hreferences ⊢
      generalize "\r\n".toList = breakText at hbreak ⊢
      simp only [List.length_append]
      omega

theorem Smtp.format_length (address msgId : Str) (mail : Smtp) :
    (mail.format address msgId).length = address.length + mail.recipient.length +
      mail.subject.length + msgId.length + mail.threading.length + mail.body.length + 94 := by
  have hfrom : "From: Dobby <".toList.length = 13 := by decide +kernel
  have hto : "To: <".toList.length = 5 := by decide +kernel
  have hclose : ">\r\n".toList.length = 3 := by decide +kernel
  have hsubject : "Subject: ".toList.length = 9 := by decide +kernel
  have hid : "Message-ID: ".toList.length = 12 := by decide +kernel
  have htype : "Content-Type: text/plain; charset=utf-8\r\n".toList.length = 41 := by decide +kernel
  have hbreak : "\r\n".toList.length = 2 := by decide +kernel
  unfold Smtp.format
  generalize "From: Dobby <".toList = fromText at hfrom ⊢
  generalize "To: <".toList = toText at hto ⊢
  generalize ">\r\n".toList = closeText at hclose ⊢
  generalize "Subject: ".toList = subjectText at hsubject ⊢
  generalize "Message-ID: ".toList = idText at hid ⊢
  generalize "Content-Type: text/plain; charset=utf-8\r\n".toList = typeText at htype ⊢
  generalize "\r\n".toList = breakText at hbreak ⊢
  simp only [List.length_append]
  omega

/-- Whatever buffers are offered, the message is handed over whole and from within the
array exactly when its headers and its body together are shorter than the array. -/
theorem message_read_whole_iff (mem : Nat → Char) (address : Str) (time : Nat)
    (toAddr subject body : Str) (inReplyTo : Option Str) (offers : Nat → Offer) :
    let text := (smtpSend toAddr subject body inReplyTo).format address (messageId address time)
    (∃ ctx, smtpOpen mem text = some ctx ∧ ReadWhole ctx offers text) ↔
      address.length + toAddr.length + subject.length + (messageId address time).length +
        threadingSize inReplyTo + body.length + 94 < payloadMax := by
  intro text
  obtain ⟨front, hfront⟩ := Smtp.format_ends address (messageId address time)
    (smtpSend toAddr subject body inReplyTo)
  rw [payload_readWhole_iff mem offers hfront, Smtp.format_length, smtpSend_threading_length]
  rfl

/-- A mail whose body alone does not fit the array. -/
def longMail : Smtp :=
  smtpSend "bob@example.com".toList "Report".toList (List.replicate 20000 'x') none

def longText : Str :=
  longMail.format "dobby@example.com".toList (messageId "dobby@example.com".toList 1700000000)

def wholeBuffer : Offer := ⟨1, 65536, by decide, by decide⟩

theorem long_body_read_past_payload : ¬ ∃ ctx, smtpOpen (fun _ => '\x00') longText = some ctx ∧
    ReadWhole ctx (fun _ => wholeBuffer) longText := by
  have hends : ∃ front, longText = front ++ ['\n'] := Smtp.format_ends _ _ _
  have hlong : longText.length = _ := Smtp.format_length _ _ _
  have hbody : longMail.body.length = 20000 := List.length_replicate
  have hmax : payloadMax = 18432 := rfl
  obtain ⟨front, hfront⟩ := hends
  rw [payload_readWhole_iff _ _ hfront]
  omega

end Dobby.Email
