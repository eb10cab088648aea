import Dobby.Model.Mailroom
import Dobby.Proofs.EmailSilence

namespace Dobby.Email
open CString Allowlist Exchange Runs

/-- The subject of an answer, before it is cut to its buffer. -/
def threadSubject (tag : Str) (mail : Mail) : Str :=
  if mail.subject.getD [] = [] then "Re: ".toList ++ tag
  else if startsWith "re:".toList (mail.subject.getD []) then mail.subject.getD []
  else "Re: ".toList ++ mail.subject.getD []

def threadId (mail : Mail) : Option Str :=
  if mail.messageId.getD [] = [] then none else some ((mail.messageId.getD []).take 511)

def replyTo (tag : Str) (mail : Mail) (toAddr body : Str) : Smtp :=
  ⟨toAddr, (threadSubject tag mail).take 511, threadId mail, threadId mail, body⟩

/-- The answer has the subject and the identifier of the mail, where it has them. -/
structure Carries (mail : Mail) (smtp : Smtp) : Prop where
  subject : ∀ s, mail.subject = some s → s ≠ [] →
    smtp.subject = if startsWith "re:".toList s then s else "Re: ".toList ++ s
  messageId : ∀ id, mail.messageId = some id → id ≠ [] →
    smtp.inReplyTo = some id ∧ smtp.references = some id

/-- Neither the subject of the answer nor the identifier is too long for its buffer. -/
structure Fits (tag : Str) (mail : Mail) : Prop where
  subject : (threadSubject tag mail).length ≤ 511
  messageId : (mail.messageId.getD []).length ≤ 511

theorem take_eq_nil {s : Str} : s.take 511 = [] ↔ s = [] := by
  rw [List.take_eq_nil_iff]
  simp

theorem startsWith_take (s : Str) :
    startsWith "re:".toList (s.take 511) = startsWith "re:".toList s := by
  match s with
  | [] => rfl
  | [a] => rfl
  | [a, b] => rfl
  | a :: b :: c :: rest => rfl

theorem replySubject_stored (tag : Str) (mail : Mail) :
    replySubject tag (subjectOf (some mail)) = (threadSubject tag mail).take 511 := by
  have hstored : subjectOf (some mail) = (mail.subject.getD []).take 511 := rfl
  have hsize : subjMax - 1 = 511 := rfl
  rw [replySubject, hstored, threadSubject, snprintf, startsWith_take, hsize]
  simp only [take_eq_nil]
  split
  · rfl
  · split
    · rw [List.take_take, Nat.min_self]
    · rw [List.take_append, List.take_append, List.take_take]
      rfl

theorem smtpSend_stored (tag : Str) (mail : Mail) (toAddr body : Str) :
    smtpSend toAddr (replySubject tag (subjectOf (some mail))) body
        (if messageIdOf (some mail) = [] then none else some (messageIdOf (some mail))) =
      replyTo tag mail toAddr body := by
  have hstored : messageIdOf (some mail) = (mail.messageId.getD []).take 511 := rfl
  rw [replySubject_stored, smtpSend, replyTo, hstored, threadId]
  by_cases hid : mail.messageId.getD [] = []
  · simp [hid]
  · have hne : (mail.messageId.getD []).take 511 ≠ [] := mt take_eq_nil.mp hid
    simp [hid]

theorem replyTo_eq_iff {tag : Str} {m n : Mail} {toAddr body : Str} :
    replyTo tag m toAddr body = replyTo tag n toAddr body ↔ Alike tag (some m) (some n) := by
  rw [← smtpSend_stored, ← smtpSend_stored, smtpSend_eq_iff,
    replySubject_eq_iff (subjectOf_length _) (subjectOf_length _)]
  rfl

theorem replyTo_carries {tag : Str} {mail : Mail} (hfits : Fits tag mail) (toAddr body : Str) :
    Carries mail (replyTo tag mail toAddr body) := by
  constructor
  · intro s hs hne
    have hget : mail.subject.getD [] = s := by rw [hs, Option.getD_some]
    have hcut : (threadSubject tag mail).take 511 = threadSubject tag mail :=
      List.take_of_length_le hfits.subject
    rw [replyTo, hcut, threadSubject, hget, if_neg hne]
  · intro id hid hne
    have hget : mail.messageId.getD [] = id := by rw [hid, Option.getD_some]
    have hlen := hfits.messageId
    rw [hget] at hlen
    rw [replyTo, threadId, hget, if_neg hne, List.take_of_length_le hlen]
    exact ⟨rfl, rfl⟩

@[simp] theorem ReplyContext.get_put_same (context : ReplyContext) (text : Str) (field : Field) :
    (context.put text field).get field = text := by
  cases field <;> rfl

theorem ReplyContext.get_put_ne {field other : Field} (h : other ≠ field) (context : ReplyContext)
    (text : Str) : (context.put text field).get other = context.get other := by
  cases field <;> cases other <;> first | rfl | exact absurd rfl h

theorem ReplyContext.eq_of_get {c d : ReplyContext} (h : ∀ field, c.get field = d.get field) :
    c = d := by
  obtain ⟨sender, subject, messageId⟩ := c
  have h₁ := h .sender
  have h₂ := h .subject
  have h₃ := h .messageId
  simp only [ReplyContext.get] at h₁ h₂ h₃
  rw [h₁, h₂, h₃]

theorem Reading.eval_bind (first : Reading α) (next : α → Reading β) (context : ReplyContext) :
    (first.bind next).eval context = (next (first.eval context)).eval context := by
  induction first with
  | done result => rfl
  | read field more ih => exact ih _

theorem Reading.bind_done (reading : Reading α) : reading.bind .done = reading := by
  induction reading with
  | done result => rfl
  | read field more ih => rw [Reading.bind, funext ih]

theorem subjectReads_eval (tag : Str) (context : ReplyContext) :
    (subjectReads tag).eval context = replySubject tag context.lastSubject := by
  rw [subjectReads, Reading.eval, ReplyContext.get, replySubject]
  by_cases hsubject : context.lastSubject = []
  · rw [if_pos hsubject, if_pos hsubject]
    rfl
  · rw [if_neg hsubject, if_neg hsubject, Reading.eval, ReplyContext.get]
    by_cases hre : startsWith "re:".toList context.lastSubject = true
    · rw [if_pos hre, if_pos hre]
      rfl
    · rw [if_neg hre, if_neg hre]
      rfl

theorem threadReads_eval (msg : OutboundMsg) (subject : Str) (context : ReplyContext) :
    (threadReads msg subject).eval context =
      smtpSend msg.chatId subject msg.content
        (if context.lastMessageId = [] then none else some context.lastMessageId) := by
  by_cases hid : context.lastMessageId = []
  · simp [threadReads, smtpSendReads, Reading.eval, ReplyContext.get, hid]
  · simp [threadReads, smtpSendReads, Reading.eval, ReplyContext.get, smtpSend, hid]

/-- Read in one piece, the context gives what `email_send` sends. -/
theorem emailSendReads_eval (tag : Str) (msg : OutboundMsg) (context : ReplyContext) :
    (emailSendReads tag msg).eval context =
      smtpSend msg.chatId (replySubject tag context.lastSubject) msg.content
        (if context.lastMessageId = [] then none else some context.lastMessageId) := by
  rw [emailSendReads, Reading.eval_bind, subjectReads_eval, threadReads_eval]

theorem emailSendReads_stored (tag : Str) (msg : OutboundMsg) (mail : Mail) :
    (emailSendReads tag msg).eval (storeContext mail) =
      replyTo tag mail msg.chatId msg.content := by
  rw [emailSendReads_eval]
  exact smtpSend_stored tag mail msg.chatId msg.content

/-- The channel that is handed each reply in one piece sends the same. -/
theorem emailSend_eval (al : Option Allowlist) (tag : Str) (st : State) (msg : OutboundMsg) :
    (emailSend al tag st msg).sent =
      if admits al msg.chatId then st.sent ++ [(emailSendReads tag msg).eval st.context]
      else st.sent := by
  rw [emailSendReads_eval, emailSend]
  split <;> rfl

/-- Whatever is found meanwhile, what comes out meets the condition. -/
def Reading.Ends (P : α → Prop) : Reading α → Prop
  | done result => P result
  | read _ next => ∀ text, (next text).Ends P

@[simp] theorem Reading.ends_read {P : α → Prop} {field : Field} {next : Str → Reading α} :
    (Reading.read field next).Ends P ↔ ∀ text, (next text).Ends P :=
  Iff.rfl

@[simp] theorem Reading.ends_done {P : α → Prop} {result : α} :
    (Reading.done result).Ends P ↔ P result :=
  Iff.rfl

theorem Reading.Ends.bind {P : β → Prop} {next : α → Reading β} (h : ∀ a, (next a).Ends P)
    (first : Reading α) : (first.bind next).Ends P := by
  induction first with
  | done result => exact h result
  | read field more ih => exact ih

theorem threadReads_ends (msg : OutboundMsg) (subject : Str) :
    (threadReads msg subject).Ends fun smtp =>
      smtp.recipient = msg.chatId ∧ smtp.body = msg.content := by
  unfold threadReads smtpSendReads
  rw [Reading.ends_read]
  intro first
  split
  · rw [Reading.ends_read]
    intro again
    split <;> simp [smtpSend]
  · simp [smtpSend]

/-- The mail of this number was accepted from this address. -/
def StemsFrom (read : List Processed) (chatId : Str) (origin : Option Nat) : Prop :=
  ∀ n, origin = some n → ∃ mail, read[n]? = some ⟨mail, true⟩ ∧ chatId = mail.sender

theorem StemsFrom.grow {read : List Processed} (h : StemsFrom read chatId origin)
    (more : List Processed) : StemsFrom (read ++ more) chatId origin := by
  intro n hn
  obtain ⟨mail, hmail, hchat⟩ := h n hn
  have hlt := (List.getElem?_eq_some_iff.mp hmail).1
  exact ⟨mail, by rw [List.getElem?_append_left hlt, hmail], hchat⟩

theorem stemsFrom_none (read : List Processed) (chatId : Str) : StemsFrom read chatId none :=
  fun _ h => by cases h

def Polling.stores : Polling → Bool
  | .storing .. => true
  | _ => false

def Polling.item : Polling → Option (Traced InboundMsg)
  | .publishing item => some item
  | _ => none

def Sending.item : Sending → Option (Traced OutboundMsg)
  | .idle => none
  | .held item | .composing item _ => some item

/-- The context is the one of the last mail unless another is being stored, whose fields
are there as far as they are copied. -/
structure Mailroom.Stored (s : Mailroom) : Prop where
  settled : s.polling.stores = false → s.context = contextOf (s.read.getLast?.map Processed.mail)
  storing : ∀ mail left, s.polling = .storing mail left →
    ∀ field, field ∉ left → s.context.get field = (storeContext mail).get field

/-- Every message on its way that stems from a mail goes back to its sender. -/
structure Mailroom.Traces (s : Mailroom) : Prop where
  publishing : ∀ item ∈ s.polling.item, StemsFrom s.read item.msg.chatId item.origin
  inbound : ∀ item ∈ s.inbound, StemsFrom s.read item.msg.chatId item.origin
  hand : ∀ item ∈ s.hand, StemsFrom s.read item.msg.chatId item.origin
  outbound : ∀ item ∈ s.outbound, StemsFrom s.read item.msg.chatId item.origin
  sending : ∀ item ∈ s.sending.item, StemsFrom s.read item.msg.chatId item.origin

theorem start_stored (rules : Option Allowlist) : (Mailroom.start rules).Stored where
  settled _ := rfl
  storing _ _ h := by cases h

theorem start_traces (rules : Option Allowlist) : (Mailroom.start rules).Traces := by
  constructor <;> simp [Mailroom.start, Polling.item, Sending.item]

/-- What the poll thread's own steps do. The other threads leave the context alone. -/
theorem Mailroom.Step.polls {tag : Str} {s t : Mailroom} {e : Deed}
    (h : Mailroom.Step tag s e t) :
    (∃ mail, t.polling = .storing mail [.sender, .subject, .messageId]) ∨
    (∃ mail field left, s.polling = .storing mail (field :: left) ∧
      t.polling = .storing mail left ∧
      t.context = s.context.put ((storeContext mail).get field) field) ∨
    (∃ mail, s.polling = .storing mail [] ∧ t.polling.stores = false ∧
      t.read = s.read ++ [⟨mail, admits s.rules mail.sender⟩] ∧ t.context = s.context) ∨
    (t.polling.stores = false ∧ s.polling.stores = false ∧ t.read = s.read ∧
      t.context = s.context) ∨
    (t.polling = s.polling ∧ t.read = s.read ∧ t.context = s.context) := by
  cases h with
  | began idle usable => exact .inl ⟨_, rfl⟩
  | copied storing => exact .inr (.inl ⟨_, _, _, storing, rfl, rfl⟩)
  | judged stored =>
    refine .inr (.inr (.inl ⟨_, stored, ?_, rfl, rfl⟩))
    dsimp only
    split <;> rfl
  | published held => exact .inr (.inr (.inr (.inl ⟨rfl, by rw [held]; rfl, rfl, rfl⟩)))
  | refused held => exact .inr (.inr (.inr (.inl ⟨rfl, by rw [held]; rfl, rfl, rfl⟩)))
  | _ => exact .inr (.inr (.inr (.inr ⟨rfl, rfl, rfl⟩)))

theorem Mailroom.Step.stored {tag : Str} {s t : Mailroom} {e : Deed}
    (h : Mailroom.Step tag s e t) (hs : s.Stored) : t.Stored := by
  obtain ⟨mail, hpoll⟩ | ⟨mail, field, left, hbefore, hpoll, hcontext⟩ |
    ⟨mail, hbefore, hpoll, hread, hcontext⟩ | ⟨hpoll, hbefore, hread, hcontext⟩ |
    ⟨hpoll, hread, hcontext⟩ := h.polls
  · constructor
    · intro hstores
      rw [hpoll] at hstores
      cases hstores
    · intro mail' left hstoring other hother
      rw [hpoll] at hstoring
      cases hstoring
      exact absurd (by cases other <;> simp) hother
  · constructor
    · intro hstores
      rw [hpoll] at hstores
      cases hstores
    · intro mail' left' hstoring other hother
      rw [hpoll] at hstoring
      cases hstoring
      rw [hcontext]
      by_cases hsame : other = field
      · rw [hsame, ReplyContext.get_put_same]
      · rw [ReplyContext.get_put_ne hsame]
        exact hs.storing mail _ hbefore other (by simp [hsame, hother])
  · constructor
    · intro _
      have hall := ReplyContext.eq_of_get fun field =>
        hs.storing mail [] hbefore field List.not_mem_nil
      rw [hcontext, hread, List.getLast?_concat, hall]
      rfl
    · intro mail' left hstoring
      rw [hstoring] at hpoll
      cases hpoll
  · constructor
    · intro _
      rw [hcontext, hread]
      exact hs.settled hbefore
    · intro mail' left hstoring
      rw [hstoring] at hpoll
      cases hpoll
  · constructor
    · rw [hpoll, hcontext, hread]
      exact hs.settled
    · rw [hpoll, hcontext]
      exact hs.storing

theorem Mailroom.Step.traces {tag : Str} {s t : Mailroom} {e : Deed}
    (h : Mailroom.Step tag s e t) (hs : s.Traces) : t.Traces := by
  obtain ⟨hpublishing, hinbound, hhand, houtbound, hsending⟩ := id hs
  cases h with
  | began idle usable => exact ⟨by simp [Polling.item], hinbound, hhand, houtbound, hsending⟩
  | copied storing => exact ⟨by simp [Polling.item], hinbound, hhand, houtbound, hsending⟩
  | @judged _ mail stored =>
    refine ⟨?_, fun item hitem => (hinbound item hitem).grow _,
      fun item hitem => (hhand item hitem).grow _, fun item hitem => (houtbound item hitem).grow _,
      fun item hitem => (hsending item hitem).grow _⟩
    intro item hitem n hn
    by_cases hadmits : admits s.rules mail.sender = true
    · simp only [hadmits, ↓reduceIte, Polling.item, Option.mem_def, Option.some.injEq] at hitem
      subst hitem
      cases hn
      exact ⟨mail, by rw [List.getElem?_concat_length, hadmits], rfl⟩
    · simp [hadmits, Polling.item] at hitem
  | published held =>
    rw [held] at hpublishing
    refine ⟨by simp [Polling.item], fun item hitem => ?_, hhand, houtbound, hsending⟩
    rcases List.mem_append.mp hitem with hitem | hitem
    · exact hinbound item hitem
    · rw [List.mem_singleton.mp hitem]
      exact hpublishing _ rfl
  | refused held => exact ⟨by simp [Polling.item], hinbound, hhand, houtbound, hsending⟩
  | joined other =>
    refine ⟨hpublishing, fun item hitem => ?_, hhand, houtbound, hsending⟩
    rcases List.mem_append.mp hitem with hitem | hitem
    · exact hinbound item hitem
    · rw [List.mem_singleton.mp hitem]
      exact stemsFrom_none s.read _
  | consumed idle next =>
    rw [next] at hinbound
    refine ⟨hpublishing, fun item hitem => ?_, fun item hitem => ?_, houtbound, hsending⟩
    · exact hinbound item (List.mem_cons_of_mem _ hitem)
    · exact Option.mem_some_iff.mp hitem ▸ hinbound _ List.mem_cons_self
  | answered held async =>
    refine ⟨hpublishing, hinbound, by simp, fun item hitem => ?_, hsending⟩
    rcases List.mem_append.mp hitem with hitem | hitem
    · exact houtbound item hitem
    · rw [List.mem_singleton.mp hitem]
      exact hhand _ held
  | finished held => exact ⟨hpublishing, hinbound, by simp, houtbound, hsending⟩
  | taken idle next =>
    rw [next] at houtbound
    refine ⟨hpublishing, hinbound, hhand, fun item hitem => ?_, fun item hitem => ?_⟩
    · exact houtbound item (List.mem_cons_of_mem _ hitem)
    · exact Option.mem_some_iff.mp hitem ▸ houtbound _ List.mem_cons_self
  | admitted held channel passes =>
    rw [held] at hsending
    exact ⟨hpublishing, hinbound, hhand, houtbound, hsending⟩
  | found reads finds =>
    rw [reads] at hsending
    exact ⟨hpublishing, hinbound, hhand, houtbound, hsending⟩
  | blocked held channel stopped =>
    exact ⟨hpublishing, hinbound, hhand, houtbound, by simp [Sending.item]⟩
  | sent composed => exact ⟨hpublishing, hinbound, hhand, houtbound, by simp [Sending.item]⟩
  | routed held other => exact ⟨hpublishing, hinbound, hhand, houtbound, by simp [Sending.item]⟩
  | direct passes => exact ⟨hpublishing, hinbound, hhand, houtbound, hsending⟩
  | ruled => exact ⟨hpublishing, hinbound, hhand, houtbound, hsending⟩

def Deed.stores : Deed → Bool
  | .began _ => true
  | _ => false

def Deed.sends : Deed → Bool
  | .sent .. => true
  | _ => false

/-- A reply that is being composed comes on by one read or stays as it is. -/
theorem Mailroom.Step.composing {tag : Str} {s t : Mailroom} {e : Deed}
    (h : Mailroom.Step tag s e t) (hs : s.sending = .composing item rest) (he : e.sends = false) :
    t.sending = .composing item rest ∨
    ∃ field next text, rest = .read field next ∧ s.Finds field text ∧
      t.sending = .composing item (next text) := by
  cases h with
  | taken idle next =>
    rw [hs] at idle
    cases idle
  | admitted held channel passes =>
    rw [hs] at held
    cases held
  | blocked held channel stopped =>
    rw [hs] at held
    cases held
  | routed held other =>
    rw [hs] at held
    cases held
  | found reads finds =>
    rw [hs] at reads
    cases reads
    exact .inr ⟨_, _, _, rfl, finds, rfl⟩
  | sent composed => cases he
  | _ => exact .inl hs

/-- As long as no mail is stored the context stays. -/
theorem Mailroom.Step.quiet {tag : Str} {s t : Mailroom} {e : Deed}
    (h : Mailroom.Step tag s e t) (hs : s.polling.stores = false) (he : e.stores = false) :
    t.polling.stores = false ∧ t.context = s.context := by
  cases h with
  | began idle usable => cases he
  | copied storing =>
    rw [storing] at hs
    cases hs
  | judged stored =>
    rw [stored] at hs
    cases hs
  | published held => exact ⟨rfl, rfl⟩
  | refused held => exact ⟨rfl, rfl⟩
  | _ => exact ⟨hs, rfl⟩

theorem Mailroom.Finds.quiet {s : Mailroom} (h : s.Finds field text)
    (hs : s.polling.stores = false) : text = s.context.get field := by
  cases h with
  | settled quiet => rfl
  | torn copying short =>
    cases hp : s.polling with
    | storing mail left =>
      rw [hp] at hs
      cases hs
    | _ =>
      rw [hp] at copying
      cases copying

theorem run_ends {tag : Str} {s t : Mailroom} {log : List Deed} {P : Smtp → Prop}
    (h : Run (Mailroom.Step tag) s log t) (hs : s.sending = .composing item rest)
    (hrest : rest.Ends P) (hone : ∀ e ∈ log, e.sends = false) :
    ∃ left, t.sending = .composing item left ∧ left.Ends P := by
  induction h with
  | nil => exact ⟨rest, hs, hrest⟩
  | snoc run last ih =>
    obtain ⟨left, hsending, hleft⟩ := ih fun e he => hone e (List.mem_append_left _ he)
    obtain hsame | ⟨field, next, text, rfl, -, hnext⟩ :=
      last.composing hsending (hone _ (by simp))
    · exact ⟨left, hsame, hleft⟩
    · exact ⟨next text, hnext, hleft text⟩

/-- While no mail is stored, the reads find the context as it was. -/
theorem run_quiet {tag : Str} {s t : Mailroom} {log : List Deed}
    (h : Run (Mailroom.Step tag) s log t) (hs : s.sending = .composing item rest)
    (hquiet : s.polling.stores = false) (hone : ∀ e ∈ log, e.sends = false)
    (hnone : ∀ e ∈ log, e.stores = false) :
    t.polling.stores = false ∧ t.context = s.context ∧
      ∃ left, t.sending = .composing item left ∧ left.eval s.context = rest.eval s.context := by
  induction h with
  | nil => exact ⟨hquiet, rfl, rest, hs, rfl⟩
  | snoc run last ih =>
    obtain ⟨hbefore, hcontext, left, hsending, heval⟩ :=
      ih (fun e he => hone e (List.mem_append_left _ he))
        (fun e he => hnone e (List.mem_append_left _ he))
    obtain ⟨hafter, hsame⟩ := last.quiet hbefore (hnone _ (by simp))
    refine ⟨hafter, hsame.trans hcontext, ?_⟩
    obtain hstays | ⟨field, next, text, rfl, hfinds, hnext⟩ :=
      last.composing hsending (hone _ (by simp))
    · exact ⟨left, hstays, heval⟩
    · refine ⟨next text, hnext, ?_⟩
      rw [← heval, Reading.eval, hfinds.quiet hbefore, hcontext]

/-- An answer goes back to the sender of its mail. If no mail is stored while it is
composed, the last mail stored before gives it its thread: the mail that is answered if it
is the last, or in the same thread. -/
theorem answers_join_last_thread {tag : Str} {rules : Option Allowlist} {s₀ s₁ s t : Mailroom}
    {before meanwhile : List Deed} {smtp : Smtp} {n : Nat}
    (hbefore : Run (Mailroom.Step tag) (Mailroom.start rules) before s₀)
    (hadmitted : Mailroom.Step tag s₀ .admitted s₁)
    (hmeanwhile : Run (Mailroom.Step tag) s₁ meanwhile s)
    (hone : ∀ e ∈ meanwhile, e.sends = false)
    (hsend : Mailroom.Step tag s (.sent smtp (some n)) t) :
    ∃ out mail last, s₀.sending = .held ⟨out, some n⟩ ∧ s₀.read[n]? = some ⟨mail, true⟩ ∧
      s₀.read.getLast? = some last ∧ (s₀.read.length = n + 1 → last.mail = mail) ∧
      t.sent = s.sent ++ [smtp] ∧ smtp.recipient = mail.sender ∧ smtp.body = out.content ∧
      (s₀.polling.stores = false → (∀ e ∈ meanwhile, e.stores = false) → last.admitted = true →
        smtp = replyTo tag last.mail mail.sender out.content ∧
        (smtp = replyTo tag mail mail.sender out.content ↔
          Alike tag (some last.mail) (some mail)) ∧
        (Fits tag mail → Carries mail (replyTo tag mail mail.sender out.content))) := by
  have htraces := hbefore.invariant (start_traces rules) fun _ _ _ h hs => hs.traces h
  have hstored := hbefore.invariant (start_stored rules) fun _ _ _ h hs => hs.stored h
  cases hadmitted with
  | @admitted _ item held channel passes =>
    obtain ⟨left, hleft, hends⟩ :=
      run_ends hmeanwhile rfl (.bind (threadReads_ends item.msg) (subjectReads tag)) hone
    generalize horigin : some n = origin at hsend
    cases hsend with
    | sent composed =>
      rw [hleft] at composed
      cases composed
      obtain ⟨hto, hbody⟩ := hends
      have hstems := htraces.sending
      rw [held] at hstems
      obtain ⟨mail, hmail, hchat⟩ := hstems item rfl n horigin.symm
      have hlt := (List.getElem?_eq_some_iff.mp hmail).1
      have hne : s₀.read ≠ [] := List.ne_nil_of_length_pos (Nat.zero_lt_of_lt hlt)
      have hlast := List.getLast?_eq_some_getLast hne
      have hitem : item = ⟨item.msg, some n⟩ := by rw [horigin]
      refine ⟨item.msg, mail, s₀.read.getLast hne, hitem ▸ held, hmail, hlast, ?_, rfl,
        hto.trans hchat, hbody, ?_⟩
      · intro hlen
        rw [List.getLast?_eq_getElem?, hlen, Nat.add_sub_cancel, hmail] at hlast
        rw [← Option.some.inj hlast]
      · intro hquiet hnone _
        obtain ⟨-, -, left, hrest, heval⟩ := run_quiet hmeanwhile rfl hquiet hone hnone
        rw [hleft] at hrest
        cases hrest
        have hcontext : s₀.context = storeContext (s₀.read.getLast hne).mail := by
          rw [hstored.settled hquiet, hlast]
          rfl
        have hreply : smtp = replyTo tag (s₀.read.getLast hne).mail mail.sender item.msg.content := by
          rw [← hchat, ← emailSendReads_stored, ← hcontext]
          exact heval
        exact ⟨hreply, hreply ▸ replyTo_eq_iff, fun hfits => replyTo_carries hfits _ _⟩

/-- The poll thread stores a mail without a pause. -/
theorem store_run (tag : Str) {s : Mailroom} {raw : Str} {mail : Mail} (hidle : s.polling = .idle)
    (hmail : readMail raw = some mail) :
    Run (Mailroom.Step tag) s [.began raw, .copied, .copied, .copied]
      { s with context := storeContext mail, polling := .storing mail [] } := by
  have hbegan : Mailroom.Step tag s (.began raw) _ := .began hidle hmail
  have hcopies := (((Run.single hbegan).snoc (.copied rfl)).snoc (.copied rfl)).snoc (.copied rfl)
  exact hcopies

/-- The dispatcher composes a part of a reply while no field is being copied. -/
theorem compose_run (tag : Str) {s : Mailroom} (hquiet : s.polling.copying = none)
    {item : Traced OutboundMsg} {first : Reading α} {next : α → Reading Smtp}
    (hs : s.sending = .composing item (first.bind next)) :
    ∃ log, (∀ e ∈ log, e.sends = false ∧ e.stores = false) ∧ Run (Mailroom.Step tag) s log
      { s with sending := .composing item (next (first.eval s.context)) } := by
  induction first generalizing s with
  | done result =>
    refine ⟨[], by simp, ?_⟩
    have hsame : { s with sending := .composing item (next result) } = s := by
      rw [Reading.bind] at hs
      rw [← hs]
    exact hsame ▸ .nil
  | read field more ih =>
    have hfinds : s.Finds field (s.context.get field) := .settled (by simp [hquiet])
    have hfound : Mailroom.Step tag s (.found (s.context.get field)) _ := .found hs hfinds
    obtain ⟨log, hlog, hrun⟩ := ih _ (s := { s with
      sending := .composing item ((more (s.context.get field)).bind next) }) hquiet rfl
    refine ⟨.found (s.context.get field) :: log, ?_, .cons hfound hrun⟩
    intro e he
    rcases List.mem_cons.mp he with rfl | he
    · exact ⟨rfl, rfl⟩
    · exact hlog e he

/-- The answer to a mail, as the dispatcher gets it. -/
def answerTo (mail : Mail) : OutboundMsg := outboundFor (inboundFor mail) (some "ok".toList)

/-- The only mail is answered, and the dispatcher has the answer. -/
def answering (mail : Mail) : Mailroom :=
  { Mailroom.start none with
    context := storeContext mail
    read := [⟨mail, true⟩]
    sending := .held ⟨answerTo mail, some 0⟩ }

theorem run_answering (tag : Str) {raw : Str} {mail : Mail} (h : readMail raw = some mail) :
    ∃ log, Run (Mailroom.Step tag) (Mailroom.start none) log (answering mail) := by
  have hstored := store_run tag (s := Mailroom.start none) rfl h
  have hjudged := hstored.snoc (.judged rfl)
  have hconsumed := (hjudged.snoc (.published rfl)).snoc (.consumed rfl rfl)
  have hanswered : Run (Mailroom.Step tag) (Mailroom.start none) (_ ++ [.answered (some "ok".toList)]) _ :=
    hconsumed.snoc (.answered rfl rfl)
  exact ⟨_, hanswered.snoc (.taken rfl rfl)⟩

/-- The dispatcher sends a reply without a mail being stored meanwhile. -/
theorem answer_run (tag : Str) {s : Mailroom} {item : Traced OutboundMsg}
    (hquiet : s.polling.copying = none) (hs : s.sending = .held item)
    (hchannel : item.msg.channel = "email".toList) (hpasses : admits s.rules item.msg.chatId = true) :
    ∃ s₁ log t, Mailroom.Step tag s .admitted s₁ ∧ Run (Mailroom.Step tag) s₁ log t ∧
      (∀ e ∈ log, e.sends = false ∧ e.stores = false) ∧
      Mailroom.Step tag t (.sent ((emailSendReads tag item.msg).eval s.context) item.origin)
        { s with
          sending := .idle
          sent := s.sent ++ [(emailSendReads tag item.msg).eval s.context] } := by
  have hadmitted : Mailroom.Step tag s .admitted
    { s with sending := .composing item (emailSendReads tag item.msg) } :=
    .admitted hs hchannel hpasses
  obtain ⟨log, hlog, hrun⟩ := compose_run tag
    (s := { s with sending := .composing item (emailSendReads tag item.msg) }) hquiet
    (by rw [Reading.bind_done])
  exact ⟨_, log, _, hadmitted, hrun, hlog, .sent rfl⟩

/-- A mail that is stored while a reply is composed can split its thread: the subject of
one mail and the identifier of the other. -/
theorem stored_meanwhile_mixes (tag : Str) {raw raw' : Str} {mail mail' : Mail}
    (h : readMail raw = some mail) (h' : readMail raw' = some mail') :
    ∃ before s₁ meanwhile s smtp t,
      Run (Mailroom.Step tag) (Mailroom.start none) before (answering mail) ∧
      Mailroom.Step tag (answering mail) .admitted s₁ ∧ Run (Mailroom.Step tag) s₁ meanwhile s ∧
      (∀ e ∈ meanwhile, e.sends = false) ∧ Mailroom.Step tag s (.sent smtp (some 0)) t ∧
      smtp.subject = (threadSubject tag mail).take 511 ∧ smtp.inReplyTo = threadId mail' := by
  obtain ⟨before, hbefore⟩ := run_answering tag h
  have hadmitted : Mailroom.Step tag (answering mail) .admitted _ := .admitted rfl rfl rfl
  obtain ⟨early, hearly, hprinted⟩ := compose_run tag (s := { answering mail with
    sending := .composing ⟨answerTo mail, some 0⟩ (emailSendReads tag (answerTo mail)) })
    rfl rfl
  have hstored := hprinted.append (store_run tag rfl h')
  obtain ⟨late, hlate, hcomposed⟩ := compose_run tag (s := { answering mail with
    context := storeContext mail'
    polling := .storing mail' []
    sending := .composing ⟨answerTo mail, some 0⟩
      (threadReads (answerTo mail) ((subjectReads tag).eval (storeContext mail))) })
    rfl (by rw [Reading.bind_done])
  have hsend {s : Mailroom} {smtp : Smtp}
      (hs : s.sending = .composing ⟨answerTo mail, some 0⟩ (.done smtp)) :
      Mailroom.Step tag s (.sent smtp (some 0)) _ := .sent hs
  refine ⟨before, _, _, _, _, _, hbefore, hadmitted, hstored.append hcomposed, ?_, hsend rfl, ?_⟩
  · intro e he
    rcases List.mem_append.mp he with he | he
    · rcases List.mem_append.mp he with he | he
      · exact (hearly e he).1
      · simp only [List.mem_cons, List.not_mem_nil, or_false] at he
        rcases he with rfl | rfl | rfl | rfl <;> rfl
    · exact (hlate e he).1
  · rw [threadReads_eval, subjectReads_eval]
    exact ⟨replySubject_stored tag mail, congrArg Smtp.inReplyTo (smtpSend_stored tag mail' [] [])⟩

def lunch : Str := mailText "a@good.org" "lunch"
def dinner : Str := mailText "b@good.org" "dinner"

theorem lone_answer_joins_own_thread :
    ∃ mail log t, readMail lunch = some mail ∧
      Run (Mailroom.Step "[Dobby]".toList) (answering mail) log t ∧
      t.sent = [replyTo "[Dobby]".toList mail mail.sender "ok".toList] := by
  have hsome : (readMail lunch).isSome = true := by decide +kernel
  obtain ⟨mail, hmail⟩ := Option.isSome_iff_exists.mp hsome
  obtain ⟨before, hbefore⟩ := run_answering "[Dobby]".toList hmail
  obtain ⟨s₁, log, s, hadmitted, hrun, hlog, hsend⟩ :=
    answer_run "[Dobby]".toList (s := answering mail) rfl rfl rfl rfl
  obtain ⟨out, m, last, hout, hm, hlast, -, -, -, -, hthread⟩ :=
    answers_join_last_thread hbefore hadmitted hrun (fun e he => (hlog e he).1) hsend
  cases hout
  cases hm
  cases hlast
  have hreply := (hthread rfl (fun e he => (hlog e he).2) rfl).1
  refine ⟨mail, _, _, hmail, .cons hadmitted (hrun.snoc hsend), ?_⟩
  exact congrArg (fun smtp => [smtp]) hreply

/-- A mail that comes before the first one is answered takes over the thread. -/
theorem second_mail_takes_thread :
    ¬ ∀ (rules : Option Allowlist) (before meanwhile : List Deed) (s₀ s₁ s t : Mailroom)
        (smtp : Smtp) (n : Nat) (mail : Mail),
      Run (Mailroom.Step "[Dobby]".toList) (Mailroom.start rules) before s₀ →
      Mailroom.Step "[Dobby]".toList s₀ .admitted s₁ →
      Run (Mailroom.Step "[Dobby]".toList) s₁ meanwhile s →
      (∀ e ∈ meanwhile, e.sends = false ∧ e.stores = false) →
      Mailroom.Step "[Dobby]".toList s (.sent smtp (some n)) t →
      s₀.read[n]? = some ⟨mail, true⟩ → Carries mail smtp := by
  intro hclaim
  have hlunch : (readMail lunch).map Mail.subject = some (some "lunch".toList) := by decide +kernel
  have hdinner : (readMail dinner).map Mail.subject = some (some "dinner".toList) := by
    decide +kernel
  obtain ⟨first, hfirst, hsubject⟩ := Option.map_eq_some_iff.mp hlunch
  obtain ⟨second, hsecond, hsubject'⟩ := Option.map_eq_some_iff.mp hdinner
  obtain ⟨log, hrun⟩ := run_answering "[Dobby]".toList hfirst
  have hboth := (hrun.append (store_run _ rfl hsecond)).snoc (.judged rfl)
  obtain ⟨s₁, meanwhile, s, hadmitted, hcompose, hlog, hsend⟩ :=
    answer_run "[Dobby]".toList (s := { answering first with
      context := storeContext second
      read := [⟨first, true⟩, ⟨second, true⟩]
      polling := .publishing ⟨inboundFor second, some 1⟩ }) rfl rfl rfl rfl
  have hcarries := hclaim none _ _ _ _ _ _ _ 0 first hboth hadmitted hcompose hlog hsend rfl
  have hwrong := hcarries.subject _ hsubject (by decide)
  rw [emailSendReads_stored] at hwrong
  change (threadSubject "[Dobby]".toList second).take 511 = _ at hwrong
  rw [threadSubject, hsubject'] at hwrong
  exact absurd hwrong (by decide)

end Dobby.Email
