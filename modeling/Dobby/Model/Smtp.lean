import Dobby.Model.Email

namespace Dobby.Email
open CString Allowlist

def payloadMax : Nat := bodyMax + 2048
def intMax : Nat := 2 ^ 31 - 1

def messageId (address : Str) (time : Nat) : Str :=
  snprintf 128 ('<' :: (Nat.toDigits 10 time ++ '.' :: (address ++ ['>'])))

/-- The header lines that stand in a reply only. -/
def Smtp.threading (mail : Smtp) : Str :=
  (mail.inReplyTo.elim [] fun id => "In-Reply-To: ".toList ++ id ++ "\r\n".toList) ++
    mail.references.elim [] fun id => "References: ".toList ++ id ++ "\r\n".toList

/-- The whole text that `smtp_send` prints. -/
def Smtp.format (address msgId : Str) (mail : Smtp) : Str :=
  "From: Dobby <".toList ++ address ++ ">\r\n".toList ++
  "To: <".toList ++ mail.recipient ++ ">\r\n".toList ++
  "Subject: ".toList ++ mail.subject ++ "\r\n".toList ++
  "Message-ID: ".toList ++ msgId ++ "\r\n".toList ++
  mail.threading ++
  "Content-Type: text/plain; charset=utf-8\r\n".toList ++
  "\r\n".toList ++
  mail.body ++ "\r\n".toList

/-- What `snprintf` returns: the length of the whole text, unless an `int` cannot hold it. -/
def printed (text : Str) : Int := if text.length ≤ intMax then text.length else -1

/-- The memory from the payload array on once the text is printed into the array. -/
def printPayload (mem : Nat → Char) (text : Str) : Nat → Char :=
  fun i => (snprintf payloadMax text ++ ['\x00']).getD i (mem i)

/-- `data` goes on behind the array. -/
structure ReadCtx where
  data : Nat → Char
  pos : Nat
  len : Nat

/-- A buffer that libcurl offers to the callback. -/
structure Offer where
  size : Nat
  nmemb : Nat
  room : 0 < size * nmemb
  addressed : size * nmemb < 2 ^ 64

/-- The indices that a call copies from, with the context it leaves. The call returns
how many there are. -/
def smtpReadCb (ctx : ReadCtx) (offer : Offer) : List Nat × ReadCtx :=
  let avail := offer.size * offer.nmemb % 2 ^ 64
  let remain := ctx.len - ctx.pos
  if remain = 0 then ([], ctx)
  else
    let n := if remain < avail then remain else avail
    (List.range' ctx.pos n, { ctx with pos := ctx.pos + n })

/-- The context that the transfer starts with, if there is one. -/
def smtpOpen (mem : Nat → Char) (text : Str) : Option ReadCtx :=
  if printed text ≤ 0 then none else some ⟨printPayload mem text, 0, (printed text).toNat⟩

/-- The context before each call. -/
def contextAt (ctx : ReadCtx) (offers : Nat → Offer) : Nat → ReadCtx
  | 0 => ctx
  | k + 1 => (smtpReadCb (contextAt ctx offers k) (offers k)).2

/-- The indices that each call copies from. -/
def indicesAt (ctx : ReadCtx) (offers : Nat → Offer) (k : Nat) : List Nat :=
  (smtpReadCb (contextAt ctx offers k) (offers k)).1

/-- The chunks of the calls before this one, put together. -/
def chunksBefore (ctx : ReadCtx) (offers : Nat → Offer) (k : Nat) : Str :=
  (List.range k).flatMap fun j => (indicesAt ctx offers j).map ctx.data

/-- What `json_result` is given. -/
structure ToolResult where
  ok : Bool
  message : Str

/-- The result of the tool and the mail that `smtp_send` is given, if it is called.
`channel` has the allowlist of the channel, `sends` says whether a transfer succeeds. -/
def emailToolExecute (channel : Option (Option Allowlist)) (sends : Smtp → Bool)
    (toAddr subject body : Option Str) : ToolResult × Option Smtp :=
  match channel with
  | none =>
    (⟨false, "Email not configured. No [email] section in dobby.conf.".toList⟩, none)
  | some al =>
    let toAddr := toAddr.getD []
    let subject := subject.getD []
    let body := body.getD []
    if toAddr = [] then (⟨false, "'to' parameter is required".toList⟩, none)
    else if subject = [] then (⟨false, "'subject' parameter is required".toList⟩, none)
    else if body = [] then (⟨false, "'body' parameter is required".toList⟩, none)
    else if admits al toAddr = false then
      (⟨false, snprintf 512 ("BLOCKED by email allowlist: '".toList ++ toAddr ++
        "' is not a permitted recipient. ".toList ++
        "Fix: add it to allowlist.conf under [email] allow = ..., ".toList ++
        "or run: /email allow ".toList ++ toAddr)⟩, none)
    else
      let mail := smtpSend toAddr subject body none
      if sends mail then (⟨true, snprintf 512 ("Email sent to ".toList ++ toAddr)⟩, some mail)
      else
        (⟨false, ("SMTP send failed. The email was not sent. ".toList ++
          "Possible causes: wrong smtp_url, wrong EMAIL_PASSWORD, ".toList ++
          "network error, or recipient blocked by allowlist. ".toList ++
          "Check [gateway:warn] logs for details.".toList)⟩, some mail)

end Dobby.Email
