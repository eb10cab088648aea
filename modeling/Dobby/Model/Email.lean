import Dobby.Base.Lines
import Dobby.Model.Allowlist
import Dobby.Model.Exchange

namespace Dobby.Email
open CString Lines Allowlist Exchange

def addrMax : Nat := 256
def subjMax : Nat := 512
def bodyMax : Nat := 16384
def messageIdMax : Nat := 512

/-- What `strncpy` leaves in a buffer of this size, whose last byte it never writes. -/
def strncpy (size : Nat) (text : Str) : Str := text.take (size - 1)

/-- `strncasecmp` finds no difference over the length of the prefix. -/
def startsWith (pre s : Str) : Bool := (pre.map toLower).isPrefixOf (s.map toLower)

def trimEnd (p : Char → Bool) (s : Str) : Str := (s.reverse.dropWhile p).reverse

/-- The value on a line, if the line is one of the field. -/
def headerValue (field line : Str) : Option Str :=
  if startsWith (field ++ [':']) line then
    let v := (line.drop (field.length + 1)).dropWhile (fun c => c = ' ' || c = '\t')
    some (trimEnd (fun c => c = '\r' || c = ' ') (v.takeWhile (fun c => c ≠ '\n')))
  else none

/-- The first line of the field anywhere in the message. -/
def extractHeader (msg field : Str) : Option Str := (lines msg).findSome? (headerValue field)

/-- The address between angle brackets, or the whole value. -/
def extractAddr (value : Str) : Str :=
  match value.dropWhile (fun c => c ≠ '<') with
  | [] => trimEnd isSpace value
  | _ :: rest =>
    if '>' ∈ rest ∧ rest.head? ≠ some '>' then rest.takeWhile (fun c => c ≠ '>')
    else trimEnd isSpace value

/-- The text of the boundary in a content type. -/
def boundaryText (ct : Str) : Str :=
  match strstr "boundary".toList ct with
  | none => []
  | some bp =>
    match (bp.drop 8).dropWhile (fun c => c = ' ' || c = '=') with
    | '"' :: quoted => (quoted.takeWhile (fun c => c ≠ '"')).take 253
    | text => (text.takeWhile (fun c => c ≠ ';' && c ≠ '\r' && c ≠ '\n')).take 253

/-- What follows the first blank line. -/
def afterBlank (s : Str) : Option Str :=
  match strstr "\r\n\r\n".toList s with
  | some body => some (body.drop 4)
  | none => (strstr "\n\n".toList s).map (List.drop 2)

def bodyText (body : Str) : Str :=
  (trimEnd (fun c => c = '\r' || c = '\n' || c = ' ') body).take bodyMax

def simpleBody (msg : Str) : Str :=
  match afterBlank msg with
  | some body => bodyText body
  | none => msg

/-- The part of a text before the boundary. -/
def beforeBoundary (boundary s : Str) : Str :=
  match strstr boundary s with
  | none => s
  | some rest => s.take (s.length - rest.length)

/-- The line break after a boundary, if it is there. -/
def skipBreak (s : Str) : Str :=
  let s := match s with
    | '\r' :: r => r
    | s => s
  match s with
  | '\n' :: r => r
  | s => s

theorem skipBreak_length (s : Str) : (skipBreak s).length ≤ s.length := by
  unfold skipBreak
  grind

/-- The loop over the parts of a message with this text as boundary. -/
def scanParts (text p : Str) : Str :=
  match _h : strstr ('-' :: '-' :: text) p with
  | none => "(no plain text body)".toList
  | some q =>
    let part := skipBreak (q.drop (text.length + 2))
    if part.head? = some '-' then "(no plain text body)".toList
    else match afterBlank part with
      | none => scanParts text part
      | some body =>
        if (extractHeader part "Content-Type".toList).any (startsWith "text/plain".toList) then
          bodyText (beforeBoundary ('-' :: '-' :: text) body)
        else scanParts text part
termination_by p.length
decreasing_by
  all_goals
    have hq := List.length_pos_iff.mpr (strstr_ne_nil (List.cons_ne_nil _ _) _h)
    have hp := strstr_length _h
    have hpart := skipBreak_length (q.drop (text.length + 2))
    rw [List.length_drop] at hpart
    omega

def extractBody (msg : Str) : Str :=
  match extractHeader msg "Content-Type".toList with
  | none => simpleBody msg
  | some ct =>
    if (strstr "multipart".toList ct).isSome ∧ boundaryText ct ≠ [] then
      scanParts (boundaryText ct) msg
    else simpleBody msg

structure Mail where
  sender : Str
  subject : Option Str
  messageId : Option Str
  body : Str

/-- The address that the allowlist is asked about. -/
def senderOf (raw : Str) : Option Str :=
  (extractHeader (cstr raw) "From".toList).map extractAddr

/-- A fetched message, unless it is passed over for want of a sender or a body. -/
def readMail (raw : Str) : Option Mail :=
  match senderOf raw with
  | none => none
  | some sender =>
    let body := extractBody (cstr raw)
    if sender = [] ∨ body = [] then none
    else some
      { sender := sender
        subject := extractHeader (cstr raw) "Subject".toList
        messageId := extractHeader (cstr raw) "Message-ID".toList
        body := body }

/-- The fields of the channel that replies are made from. -/
structure ReplyContext where
  lastFrom : Str
  lastSubject : Str
  lastMessageId : Str

def storeContext (mail : Mail) : ReplyContext :=
  { lastFrom := strncpy addrMax mail.sender
    lastSubject := strncpy subjMax (mail.subject.getD [])
    lastMessageId := strncpy messageIdMax (mail.messageId.getD []) }

/-- What `smtp_send` prints into the payload, apart from the headers that depend on
no mail, the time and the new `Message-ID`. -/
structure Smtp where
  recipient : Str
  subject : Str
  inReplyTo : Option Str
  references : Option Str
  body : Str
  deriving DecidableEq

def smtpSend (toAddr subject body : Str) (inReplyTo : Option Str) : Smtp :=
  let threading := if inReplyTo = some [] then none else inReplyTo
  ⟨toAddr, subject, threading, threading, body⟩

structure State where
  context : ReplyContext
  inbound : List InboundMsg
  sent : List Smtp

/-- Without an allowlist every address is admitted. -/
def admits (al : Option Allowlist) (addr : Str) : Bool :=
  al.all (fun al => allowlistCheck al .email addr)

/-- `none` is a fetch that failed. -/
def processUid (al : Option Allowlist) (st : State) (raw : Option Str) : State :=
  match raw.bind readMail with
  | none => st
  | some mail =>
    { context := storeContext mail
      inbound := if admits al mail.sender then
          st.inbound ++ [⟨"email".toList, mail.sender, mail.sender, mail.body, none⟩]
        else st.inbound
      sent := st.sent }

def replySubject (subjectTag lastSubject : Str) : Str :=
  snprintf subjMax
    (if lastSubject = [] then "Re: ".toList ++ subjectTag
      else if startsWith "re:".toList lastSubject then lastSubject
      else "Re: ".toList ++ lastSubject)

def emailSend (al : Option Allowlist) (subjectTag : Str) (st : State) (msg : OutboundMsg) : State :=
  if admits al msg.chatId then
    { st with
      sent := st.sent ++ [smtpSend msg.chatId (replySubject subjectTag st.context.lastSubject)
        msg.content (if st.context.lastMessageId = [] then none else some st.context.lastMessageId)] }
  else st

def emailChannelSendDirect (al : Option Allowlist) (st : State) (toAddr subject body : Str) :
    State :=
  if admits al toAddr then { st with sent := st.sent ++ [smtpSend toAddr subject body none] }
  else st

inductive Event where
  | fetched (raw : Option Str)
  | reply (msg : OutboundMsg)
  | direct (toAddr subject body : Str)

def step (al : Option Allowlist) (subjectTag : Str) (st : State) : Event → State
  | .fetched raw => processUid al st raw
  | .reply msg => emailSend al subjectTag st msg
  | .direct toAddr subject body => emailChannelSendDirect al st toAddr subject body

def startState : State := ⟨⟨[], [], []⟩, [], []⟩

def run (al : Option Allowlist) (subjectTag : Str) (log : List Event) : State :=
  log.foldl (step al subjectTag) startState

end Dobby.Email
