import Dobby.Base.Runs
import Dobby.Model.Email

namespace Dobby.Email
open CString Allowlist Exchange

/-- The fields of the context that the poll thread writes and the dispatcher reads. -/
inductive Field where
  | sender | subject | messageId
  deriving DecidableEq

def Field.size : Field → Nat
  | .sender => addrMax
  | .subject => subjMax
  | .messageId => messageIdMax

def ReplyContext.get (context : ReplyContext) : Field → Str
  | .sender => context.lastFrom
  | .subject => context.lastSubject
  | .messageId => context.lastMessageId

def ReplyContext.put (context : ReplyContext) (text : Str) : Field → ReplyContext
  | .sender => { context with lastFrom := text }
  | .subject => { context with lastSubject := text }
  | .messageId => { context with lastMessageId := text }

/-- A computation that reads the context a field at a time. -/
inductive Reading (α : Type) where
  | done (result : α)
  | read (field : Field) (next : Str → Reading α)

def Reading.bind (first : Reading α) (next : α → Reading β) : Reading β :=
  match first with
  | done result => next result
  | read field more => .read field fun text => (more text).bind next

/-- What comes out if nobody writes meanwhile. -/
def Reading.eval (context : ReplyContext) : Reading α → α
  | done result => result
  | read field next => (next (context.get field)).eval context

/-- `smtp_send` up to the payload. The test for an empty `in_reply_to` and both headers
read the context behind the pointer. -/
def smtpSendReads (toAddr subject body : Str) (inReplyTo : Bool) : Reading Smtp :=
  if inReplyTo then
    .read .messageId fun first =>
      if first = [] then .done (smtpSend toAddr subject body none)
      else .read .messageId fun replied => .read .messageId fun referred =>
        .done ⟨toAddr, subject, some replied, some referred, body⟩
  else .done (smtpSend toAddr subject body none)

/-- The subject of a reply, as `email_send` prints it. -/
def subjectReads (subjectTag : Str) : Reading Str :=
  .read .subject fun first =>
    if first = [] then .done (snprintf subjMax ("Re: ".toList ++ subjectTag))
    else .read .subject fun start =>
      if startsWith "re:".toList start then
        .read .subject fun text => .done (snprintf subjMax text)
      else .read .subject fun text => .done (snprintf subjMax ("Re: ".toList ++ text))

/-- The rest of `email_send`. -/
def threadReads (msg : OutboundMsg) (subject : Str) : Reading Smtp :=
  .read .messageId fun first => smtpSendReads msg.chatId subject msg.content (first ≠ [])

/-- `email_send` behind its allowlist check. -/
def emailSendReads (subjectTag : Str) (msg : OutboundMsg) : Reading Smtp :=
  (subjectReads subjectTag).bind (threadReads msg)

/-- A message on its way, with the number of the mail that it stems from. -/
structure Traced (β : Type) where
  msg : β
  origin : Option Nat

/-- A mail whose reply context was stored, and whether the allowlist let it pass. -/
structure Processed where
  mail : Mail
  admitted : Bool

/-- Where `process_uid` stands: with a mail and the fields that it has not copied yet, the
first of which it may be copying, or before `bus_publish_inbound`. -/
inductive Polling where
  | idle
  | storing (mail : Mail) (left : List Field)
  | publishing (item : Traced InboundMsg)

inductive Sending where
  | idle
  | held (item : Traced OutboundMsg)
  | composing (item : Traced OutboundMsg) (rest : Reading Smtp)

/-- The poll thread, the bus, the worker and the dispatcher as far as mail goes through
them. The mails are numbered in the order of `read`. -/
structure Mailroom where
  rules : Option Allowlist
  context : ReplyContext
  sent : List Smtp
  read : List Processed
  polling : Polling
  inbound : List (Traced InboundMsg)
  hand : Option (Traced InboundMsg)
  outbound : List (Traced OutboundMsg)
  sending : Sending

def Mailroom.start (rules : Option Allowlist) : Mailroom :=
  ⟨rules, ⟨[], [], []⟩, [], [], .idle, [], none, [], .idle⟩

/-- The message that `process_uid` makes of a mail. -/
def inboundFor (mail : Mail) : InboundMsg :=
  ⟨"email".toList, mail.sender, mail.sender, mail.body, none⟩

/-- The field whose copy is not finished. -/
def Polling.copying : Polling → Option Field
  | .storing _ (field :: _) => some field
  | _ => none

/-- What a read of a field can find. Nothing locks the context, so a read that meets the
copy of the field finds any text of the buffer's size. -/
inductive Mailroom.Finds (s : Mailroom) : Field → Str → Prop where
  | settled (quiet : s.polling.copying ≠ some field) : Finds s field (s.context.get field)
  | torn (copying : s.polling.copying = some field) (short : text.length < field.size) :
      Finds s field text

inductive Deed where
  | began (raw : Str)
  | copied
  | judged
  | published
  | refused
  | joined (msg : InboundMsg)
  | consumed
  | answered (response : Option Str)
  | finished
  | taken
  | admitted
  | blocked
  | found (text : Str)
  | sent (smtp : Smtp) (origin : Option Nat)
  | routed
  | direct (toAddr subject body : Str)
  | ruled (rules : Option Allowlist)

/-- The threads taking turns. A full queue only puts a step off. -/
inductive Mailroom.Step (tag : Str) : Mailroom → Deed → Mailroom → Prop where
  | began (idle : s.polling = .idle) (usable : readMail raw = some mail) :
      Step tag s (.began raw) { s with polling := .storing mail [.sender, .subject, .messageId] }
  | copied (storing : s.polling = .storing mail (field :: left)) :
      Step tag s .copied
        { s with
          context := s.context.put ((storeContext mail).get field) field
          polling := .storing mail left }
  | judged (stored : s.polling = .storing mail []) :
      Step tag s .judged
        { s with
          read := s.read ++ [⟨mail, admits s.rules mail.sender⟩]
          polling := if admits s.rules mail.sender then
            .publishing ⟨inboundFor mail, some s.read.length⟩ else .idle }
  | published (held : s.polling = .publishing item) :
      Step tag s .published { s with polling := .idle, inbound := s.inbound ++ [item] }
  | refused (held : s.polling = .publishing item) : Step tag s .refused { s with polling := .idle }
  -- the other channels publish under names of their own
  | joined (other : msg.channel ≠ "email".toList) :
      Step tag s (.joined msg) { s with inbound := s.inbound ++ [⟨msg, none⟩] }
  | consumed (idle : s.hand = none) (next : s.inbound = item :: rest) :
      Step tag s .consumed { s with inbound := rest, hand := some item }
  | answered (held : s.hand = some item) (async : responsePairFromMeta item.msg.metadata = none) :
      Step tag s (.answered response)
        { s with
          hand := none
          outbound := s.outbound ++ [⟨outboundFor item.msg response, item.origin⟩] }
  -- a synchronous caller, or a bus that is shut down
  | finished (held : s.hand = some item) : Step tag s .finished { s with hand := none }
  | taken (idle : s.sending = .idle) (next : s.outbound = item :: rest) :
      Step tag s .taken { s with outbound := rest, sending := .held item }
  | admitted (held : s.sending = .held item) (channel : item.msg.channel = "email".toList)
      (passes : admits s.rules item.msg.chatId = true) :
      Step tag s .admitted { s with sending := .composing item (emailSendReads tag item.msg) }
  | blocked (held : s.sending = .held item) (channel : item.msg.channel = "email".toList)
      (stopped : admits s.rules item.msg.chatId = false) :
      Step tag s .blocked { s with sending := .idle }
  | found (reads : s.sending = .composing item (.read field next)) (finds : s.Finds field text) :
      Step tag s (.found text) { s with sending := .composing item (next text) }
  | sent (composed : s.sending = .composing item (.done smtp)) :
      Step tag s (.sent smtp item.origin) { s with sending := .idle, sent := s.sent ++ [smtp] }
  | routed (held : s.sending = .held item) (other : item.msg.channel ≠ "email".toList) :
      Step tag s .routed { s with sending := .idle }
  -- `email_channel_send_direct`, which has no mail to reply to
  | direct (passes : admits s.rules toAddr = true) :
      Step tag s (.direct toAddr subject body)
        { s with sent := s.sent ++ [smtpSend toAddr subject body none] }
  | ruled : Step tag s (.ruled al) { s with rules := al }

end Dobby.Email
