import Dobby.Model.Email

namespace Dobby.Email
open CString Allowlist Exchange

/-- The sender of the message is outside the allowlist. -/
def refused (al : Option Allowlist) (raw : Str) : Bool :=
  (senderOf raw).any (fun sender => !admits al sender)

/-- Everything but mail from outside the allowlist. -/
def keeps (al : Option Allowlist) : Event → Bool
  | .fetched (some raw) => !refused al raw
  | _ => true

def mailOf : Event → Option Mail
  | .fetched raw => raw.bind readMail
  | _ => none

/-- The last message that the channel has read, whoever sent it. -/
def lastMail (log : List Event) : Option Mail := (log.filterMap mailOf).getLast?

/-- The last one from a sender in the allowlist. -/
def lastAccepted (al : Option Allowlist) (log : List Event) : Option Mail :=
  ((log.filterMap mailOf).filter (fun mail => admits al mail.sender)).getLast?

/-- A subject without a first `Re: `, the tag where there is no subject. -/
def stem (tag subject : Str) : Str :=
  if subject = [] then tag
  else if "Re: ".toList.isPrefixOf subject then subject.drop 4
  else subject

/-- A subject that is answered as it stands, with a `Re:` in another spelling. -/
def oddRe (subject : Str) : Bool :=
  startsWith "re:".toList subject && !"Re: ".toList.isPrefixOf subject

/-- Subjects that get the same answer. -/
def SubjectsAlike (tag s t : Str) : Prop :=
  s = t ∨ oddRe s = false ∧ oddRe t = false ∧ (stem tag s).take 507 = (stem tag t).take 507

def subjectOf (mail : Option Mail) : Str :=
  strncpy subjMax ((mail.bind Mail.subject).getD [])

def messageIdOf (mail : Option Mail) : Str :=
  strncpy messageIdMax ((mail.bind Mail.messageId).getD [])

/-- Messages that leave the same thread to reply in. -/
def Alike (tag : Str) (m n : Option Mail) : Prop :=
  SubjectsAlike tag (subjectOf m) (subjectOf n) ∧ messageIdOf m = messageIdOf n

theorem startsWith_re {s : Str} (h : "Re: ".toList.isPrefixOf s = true) :
    startsWith "re:".toList s = true := by
  obtain ⟨t, rfl⟩ := List.isPrefixOf_iff_prefix.mp h
  rfl

theorem replySubject_eq {tag s : Str} (h : s.length ≤ 511) :
    replySubject tag s = if oddRe s then s else "Re: ".toList ++ (stem tag s).take 507 := by
  have hcut : s.take (subjMax - 1) = s := List.take_of_length_le h
  rw [replySubject, oddRe, stem, snprintf]
  by_cases hs : s = []
  · subst hs
    rfl
  rw [if_neg hs, if_neg hs]
  by_cases hre : "Re: ".toList.isPrefixOf s = true
  · rw [startsWith_re hre, hre]
    obtain ⟨t, rfl⟩ := List.isPrefixOf_iff_prefix.mp hre
    have hlen : t.length ≤ 507 := by
      rw [List.length_append] at h
      have hre : "Re: ".toList.length = 4 := rfl
      omega
    simp only [Bool.not_true, Bool.and_false, Bool.false_eq_true, if_false, if_true]
    rw [hcut, List.take_of_length_le]
    · rfl
    · exact hlen
  · rw [Bool.not_eq_true] at hre
    rw [hre, Bool.not_false, Bool.and_true]
    by_cases hodd : startsWith "re:".toList s = true
    · rw [if_pos hodd, if_pos hodd, hcut]
    · rw [if_neg hodd, if_neg hodd]
      rfl

theorem replySubject_eq_iff {tag s t : Str} (hs : s.length ≤ 511) (ht : t.length ≤ 511) :
    replySubject tag s = replySubject tag t ↔ SubjectsAlike tag s t := by
  have hodd : ∀ {u v : Str}, oddRe u = true → u ≠ "Re: ".toList ++ v := by
    rintro u v hu rfl
    rw [oddRe, List.isPrefixOf_iff_prefix.mpr (List.prefix_append _ _)] at hu
    simp at hu
  rw [replySubject_eq hs, replySubject_eq ht, SubjectsAlike]
  cases hos : oddRe s with
  | true =>
    cases hot : oddRe t with
    | true => simp
    | false =>
      have hne : s ≠ t := by
        rintro rfl
        rw [hos] at hot
        cases hot
      simpa [hne] using hodd hos
  | false =>
    cases hot : oddRe t with
    | true =>
      have hne : s ≠ t := by
        rintro rfl
        rw [hos] at hot
        cases hot
      simpa [hne] using (hodd hot).symm
    | false =>
      simp only [Bool.false_eq_true, if_false, List.append_cancel_left_eq, true_and]
      constructor
      · exact Or.inr
      · rintro (rfl | h)
        · rfl
        · exact h

theorem smtpSend_eq_iff {toAddr body s t i j : Str} :
    smtpSend toAddr s body (if i = [] then none else some i) =
      smtpSend toAddr t body (if j = [] then none else some j) ↔ s = t ∧ i = j := by
  rw [smtpSend, smtpSend, Smtp.mk.injEq]
  by_cases hi : i = [] <;> by_cases hj : j = [] <;> simp [hi, hj, eq_comm]

theorem run_concat (al : Option Allowlist) (tag : Str) (log : List Event) (e : Event) :
    run al tag (log ++ [e]) = step al tag (run al tag log) e := by
  rw [run, List.foldl_append]
  rfl

theorem processUid_context (al : Option Allowlist) (st : State) (raw : Option Str) :
    (processUid al st raw).context = ((raw.bind readMail).map storeContext).getD st.context := by
  rw [processUid]
  cases raw.bind readMail <;> rfl

def contextOf (mail : Option Mail) : ReplyContext :=
  (mail.map storeContext).getD startState.context

theorem subjectOf_length (mail : Option Mail) : (subjectOf mail).length ≤ 511 := by
  rw [subjectOf, strncpy, List.length_take]
  exact Nat.min_le_left ..

theorem contextOf_subject (mail : Option Mail) : (contextOf mail).lastSubject = subjectOf mail := by
  cases mail <;> rfl

theorem contextOf_messageId (mail : Option Mail) :
    (contextOf mail).lastMessageId = messageIdOf mail := by
  cases mail <;> rfl

theorem run_context (al : Option Allowlist) (tag : Str) (log : List Event) :
    (run al tag log).context = contextOf (lastMail log) := by
  induction log using List.reverseRecOn with
  | nil => rfl
  | append_singleton log e ih =>
    rw [run_concat, lastMail, List.filterMap_append]
    cases e with
    | fetched raw =>
      rw [step, processUid_context, ih]
      cases h : raw.bind readMail with
      | none => simp [mailOf, h, lastMail]
      | some mail => simp [mailOf, h, contextOf]
    | reply msg =>
      rw [step, emailSend]
      split <;> simpa [mailOf, lastMail] using ih
    | direct toAddr subject body =>
      rw [step, emailChannelSendDirect]
      split <;> simpa [mailOf, lastMail] using ih

theorem senderOf_readMail {raw : Str} {mail : Mail} (h : readMail raw = some mail) :
    senderOf raw = some mail.sender := by
  rw [readMail] at h
  split at h
  · cases h
  · rename_i sender hs
    simp only at h
    split at h
    · cases h
    · cases h
      exact hs

theorem keeps_mail {al : Option Allowlist} {raw : Str} {mail : Mail} (h : readMail raw = some mail) :
    keeps al (.fetched (some raw)) = admits al mail.sender := by
  rw [keeps, refused, senderOf_readMail h]
  simp

theorem mails_kept (al : Option Allowlist) (log : List Event) :
    (log.filter (keeps al)).filterMap mailOf =
      (log.filterMap mailOf).filter (fun mail => admits al mail.sender) := by
  induction log with
  | nil => rfl
  | cons e log ih =>
    cases hmail : mailOf e with
    | none =>
      rw [List.filterMap_cons_none hmail, List.filter_cons]
      split
      · rw [List.filterMap_cons_none hmail, ih]
      · exact ih
    | some mail =>
      obtain ⟨raw, rfl, hraw⟩ : ∃ raw, e = .fetched (some raw) ∧ readMail raw = some mail := by
        cases e with
        | fetched raw =>
          cases raw with
          | none => cases hmail
          | some raw => exact ⟨raw, rfl, hmail⟩
        | reply msg => cases hmail
        | direct toAddr subject body => cases hmail
      rw [List.filterMap_cons_some hmail, List.filter_cons, List.filter_cons, keeps_mail hraw]
      split
      · rw [List.filterMap_cons_some hmail, ih]
      · exact ih

theorem lastMail_kept (al : Option Allowlist) (log : List Event) :
    lastMail (log.filter (keeps al)) = lastAccepted al log := by
  rw [lastMail, mails_kept, lastAccepted]

/-- Every reply to an address in the allowlist finds the thread of the last mail that
was accepted. -/
def Threaded (al : Option Allowlist) (tag : Str) (log : List Event) : Prop :=
  ∀ before msg after, log = before ++ .reply msg :: after → admits al msg.chatId = true →
    Alike tag (lastMail before) (lastAccepted al before)

theorem threaded_concat {al : Option Allowlist} {tag : Str} {log : List Event} {e : Event} :
    Threaded al tag (log ++ [e]) ↔ Threaded al tag log ∧
      ∀ msg, e = .reply msg → admits al msg.chatId = true →
        Alike tag (lastMail log) (lastAccepted al log) := by
  constructor
  · intro h
    refine ⟨fun before msg after heq => ?_, fun msg heq => ?_⟩
    · exact h before msg (after ++ [e]) (by rw [heq, List.append_assoc, List.cons_append])
    · exact h log msg [] (by rw [heq])
  · intro ⟨h, he⟩ before msg after heq
    rcases List.eq_nil_or_concat after with rfl | ⟨after, f, rfl⟩
    · obtain ⟨rfl, hmsg⟩ := List.append_inj' heq rfl
      exact he msg (List.cons.inj hmsg).1
    · rw [List.concat_eq_append, ← List.cons_append, ← List.append_assoc] at heq
      exact h before msg after (List.append_inj' heq rfl).1

/-- What one event puts on the bus. -/
def inboundOf (al : Option Allowlist) : Event → List InboundMsg
  | .fetched raw =>
    match raw.bind readMail with
    | none => []
    | some mail =>
      if admits al mail.sender then
        [⟨"email".toList, mail.sender, mail.sender, mail.body, none⟩]
      else []
  | _ => []

/-- What one event sends in a context. -/
def sentOf (al : Option Allowlist) (tag : Str) (context : ReplyContext) : Event → List Smtp
  | .fetched _ => []
  | .reply msg =>
    if admits al msg.chatId then
      [smtpSend msg.chatId (replySubject tag context.lastSubject) msg.content
        (if context.lastMessageId = [] then none else some context.lastMessageId)]
    else []
  | .direct toAddr subject body =>
    if admits al toAddr then [smtpSend toAddr subject body none] else []

theorem step_outputs (al : Option Allowlist) (tag : Str) (st : State) (e : Event) :
    (step al tag st e).inbound = st.inbound ++ inboundOf al e ∧
      (step al tag st e).sent = st.sent ++ sentOf al tag st.context e := by
  cases e with
  | fetched raw =>
    rw [step, processUid, inboundOf, sentOf]
    cases raw.bind readMail with
    | none => simp
    | some mail => by_cases h : admits al mail.sender = true <;> simp [h]
  | reply msg =>
    rw [step, emailSend, inboundOf, sentOf]
    · by_cases h : admits al msg.chatId = true <;> simp [h]
    · simp
  | direct toAddr subject body =>
    rw [step, emailChannelSendDirect, inboundOf, sentOf]
    · by_cases h : admits al toAddr = true <;> simp [h]
    · simp

/-- Mail that is not kept has no part in either. -/
theorem outputs_refused {al : Option Allowlist} {e : Event} (h : keeps al e = false) (tag : Str)
    (context : ReplyContext) : inboundOf al e = [] ∧ sentOf al tag context e = [] := by
  cases e with
  | fetched raw =>
    refine ⟨?_, rfl⟩
    cases raw with
    | none => cases h
    | some raw =>
      cases hmail : readMail raw with
      | none => simp [inboundOf, hmail]
      | some mail =>
        rw [keeps_mail hmail] at h
        simp [inboundOf, hmail, h]
  | reply msg => cases h
  | direct toAddr subject body => cases h

theorem inbound_kept (al : Option Allowlist) (tag : Str) (log : List Event) :
    (run al tag log).inbound = (run al tag (log.filter (keeps al))).inbound := by
  induction log using List.reverseRecOn with
  | nil => rfl
  | append_singleton log e ih =>
    rw [run_concat, (step_outputs al tag _ e).1, ih, List.filter_append, List.filter_cons]
    by_cases hkeep : keeps al e = true
    · rw [if_pos hkeep, List.filter_nil, run_concat, (step_outputs al tag _ e).1]
    · rw [Bool.not_eq_true] at hkeep
      rw [(outputs_refused hkeep tag startState.context).1, hkeep]
      simp

theorem sent_alike {al : Option Allowlist} {tag : Str} {m n : Option Mail} {e : Event} :
    sentOf al tag (contextOf m) e = sentOf al tag (contextOf n) e ↔
      ∀ msg, e = .reply msg → admits al msg.chatId = true → Alike tag m n := by
  cases e with
  | fetched raw => simp [sentOf]
  | direct toAddr subject body => simp [sentOf]
  | reply msg =>
    rw [sentOf, sentOf]
    by_cases h : admits al msg.chatId = true
    · rw [if_pos h, if_pos h, List.cons.injEq, and_iff_left rfl, smtpSend_eq_iff, contextOf_subject,
        contextOf_subject, contextOf_messageId, contextOf_messageId,
        replySubject_eq_iff (subjectOf_length m) (subjectOf_length n)]
      simp [h, Alike]
    · simp [h]

theorem sentOf_length (al : Option Allowlist) (tag : Str) (c d : ReplyContext) (e : Event) :
    (sentOf al tag c e).length = (sentOf al tag d e).length := by
  cases e with
  | fetched raw => rfl
  | reply msg =>
    rw [sentOf, sentOf]
    split <;> rfl
  | direct toAddr subject body => rfl

theorem sent_kept (al : Option Allowlist) (tag : Str) (log : List Event) :
    (run al tag log).sent = (run al tag (log.filter (keeps al))).sent ↔ Threaded al tag log := by
  induction log using List.reverseRecOn with
  | nil =>
    refine ⟨fun _ before msg after h => ?_, fun _ => rfl⟩
    exact absurd h (by simp)
  | append_singleton log e ih =>
    rw [threaded_concat, ← ih, ← sent_alike, run_concat, (step_outputs al tag _ e).2,
      List.filter_append, List.filter_cons, run_context]
    by_cases hkeep : keeps al e = true
    · rw [if_pos hkeep, List.filter_nil, run_concat, (step_outputs al tag _ e).2, run_context,
        lastMail_kept]
      constructor
      · exact fun h => List.append_inj' h (sentOf_length ..)
      · rintro ⟨hsent, hlast⟩
        rw [hsent, hlast]
    · rw [Bool.not_eq_true] at hkeep
      rw [(outputs_refused hkeep tag _).2, (outputs_refused hkeep tag _).2, hkeep]
      simp

/-- Mail from outside the allowlist changes nothing that is published or sent exactly
where no reply is made while its thread is the stored one. -/
theorem refused_mail_silent_iff (al : Option Allowlist) (tag : Str) (log : List Event) :
    ((run al tag log).inbound = (run al tag (log.filter (keeps al))).inbound ∧
      (run al tag log).sent = (run al tag (log.filter (keeps al))).sent) ↔
    ∀ before msg after, log = before ++ .reply msg :: after → admits al msg.chatId = true →
      Alike tag (lastMail before) (lastAccepted al before) := by
  rw [and_iff_right (inbound_kept al tag log)]
  exact sent_kept al tag log

/-- An allowlist with this one rule for addresses. -/
def onlyAddress (pattern : Str) : Allowlist := (allowlistAdd allowlistCreate .email pattern).2

def mailText (sender subject : String) : Str :=
  ("From: ".toList ++ sender.toList) ++ ("\nSubject: ".toList ++ subject.toList) ++
    "\n\nhi\n".toList

def strangerLog : List Event :=
  [.fetched (some (mailText "a@good.org" "lunch")), .fetched (some (mailText "b@bad.org" "spam")),
    .reply ⟨"email".toList, "a@good.org".toList, "ok".toList, none⟩]

def friendsOnly : Allowlist := onlyAddress "*@good.org".toList

/-- The answer to a friend goes out under the subject of a stranger. -/
theorem stranger_names_reply :
    (friendsOnly .email).enabled = true ∧
    (run (some friendsOnly) "[Dobby]".toList strangerLog).sent =
      [⟨"a@good.org".toList, "Re: spam".toList, none, none, "ok".toList⟩] ∧
    (run (some friendsOnly) "[Dobby]".toList (strangerLog.filter (keeps (some friendsOnly)))).sent =
      [⟨"a@good.org".toList, "Re: lunch".toList, none, none, "ok".toList⟩] ∧
    (run (some friendsOnly) "[Dobby]".toList strangerLog).sent ≠
      (run (some friendsOnly) "[Dobby]".toList
        (strangerLog.filter (keeps (some friendsOnly)))).sent := by
  decide +kernel

end Dobby.Email
