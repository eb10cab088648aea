import Dobby.Base.Cjson
import Dobby.Model.Allowlist
import Dobby.Model.Exchange

namespace Dobby.Whatsapp
open CString Allowlist Exchange

/-- A phone number becomes an address, an address stays as it is. -/
def ensureJid (outSz : Nat) (s : Str) : Str :=
  if '@' ∈ s then snprintf outSz s else snprintf outSz (s ++ "@s.whatsapp.net".toList)

/-- An empty `pn` counts as none. -/
def userIdOf (sender : Str) : Option Str → Str
  | some (c :: cs) => c :: cs
  | _ => sender

def metadataOf : Option Str → Option Str
  | some (c :: cs) => some (snprintf 256 ("replyJid=".toList ++ c :: cs))
  | _ => none

/-- `handle_message` up to the publish. -/
def handleMessage (al : Option Allowlist) (obj : Json) : Option InboundMsg :=
  match obj.field "sender".toList, obj.field "content".toList with
  | some sender, some content =>
    let userId := userIdOf sender (obj.field "pn".toList)
    if al.all (fun al => allowlistCheck al .email userId) then
      some ⟨"whatsapp".toList, userId, snprintf 128 ("whatsapp:".toList ++ userId), content,
        metadataOf (obj.field "replyJid".toList)⟩
    else none
  | _, _ => none

/-- What stands behind the first colon, if there is one. -/
def phoneOf (chatId : Str) : Str :=
  match chatId.dropWhile (fun c => c ≠ ':') with
  | [] => chatId
  | _ :: pn => pn

/-- A value that does not fit the buffer is left out. -/
def replyJidOf : Option Str → Str
  | none => []
  | some metadata =>
    match strstr "replyJid=".toList metadata with
    | none => []
    | some tag =>
      let jid := (tag.drop 9).takeWhile (fun c => c ≠ ';')
      if jid.length < 256 then jid else []

/-- The frame that `whatsapp_dispatch_send` sends to the bridge. -/
def whatsappDispatchSend (connected : Bool) (msg : OutboundMsg) : Option Json :=
  let pn := phoneOf msg.chatId
  let replyJid := replyJidOf msg.metadata
  if pn = [] ∨ connected = false then none
  else some (.object ([("type".toList, .string "send".toList),
      ("to".toList, .string (ensureJid 256 pn))] ++
    (if replyJid = [] then [] else [("replyJid".toList, .string replyJid)]) ++
    [("text".toList, .string msg.content)]))

def lineMax : Nat := 8192

/-- The line buffer up to `line_len`, with the lines that went to `cJSON_Parse`. -/
structure Receiver where
  line : Str
  parsed : List Str

def Receiver.byte (r : Receiver) (c : Char) : Receiver :=
  if c = '\n' then ⟨[], if r.line = [] then r.parsed else r.parsed ++ [cstr r.line]⟩
  else if r.line.length < lineMax - 1 then { r with line := r.line ++ [c] }
  else r

/-- What `read` gives: some bytes, or the end of the connection. -/
inductive Receipt where
  | bytes (raw : Str)
  | closed

def Receiver.step (r : Receiver) : Receipt → Receiver
  | .bytes raw => raw.foldl Receiver.byte r
  -- the socket is closed, the line stays
  | .closed => r

def recvThread (receipts : List Receipt) : Receiver := receipts.foldl Receiver.step ⟨[], []⟩

end Dobby.Whatsapp
