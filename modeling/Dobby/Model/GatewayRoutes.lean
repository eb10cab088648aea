import Dobby.Model.Allowlist
import Dobby.Model.CjsonText
import Dobby.Model.Gateway
import Dobby.Model.Scheduler
import Dobby.Model.Subagent

namespace Dobby.Gateway
open CString Cjson Lines

structure Reply where
  code : Nat
  ctype : Str
  body : Str

def reason (code : Nat) : Str :=
  if code = 200 then "OK".toList
  else if code = 400 then "Bad Request".toList
  else if code = 404 then "Not Found".toList
  else if code = 503 then "Service Unavailable".toList
  else "Internal Server Error".toList

/-- `%zu` of a size. -/
def printSize (n : Nat) : Str := Nat.toDigits 10 (n % 2 ^ 64)

/-- What `send_response` prints into its buffer of 256 bytes. -/
def header (r : Reply) : Str :=
  "HTTP/1.1 ".toList ++ Nat.toDigits 10 r.code ++ " ".toList ++ reason r.code ++ "\r\n".toList ++
    "Content-Type: ".toList ++ r.ctype ++ "\r\n".toList ++
    "Content-Length: ".toList ++ printSize r.body.length ++ "\r\n".toList ++
    "Access-Control-Allow-Origin: *\r\n".toList ++ "Connection: close\r\n".toList ++ "\r\n".toList

/-- The bytes of the two writes. A longer header would be read behind its buffer. -/
def sendResponse (r : Reply) : Option Str :=
  if (header r).length < 256 then some (header r ++ r.body) else none

def sendJson (code : Nat) (json : Str) : Reply := ⟨code, "application/json".toList, json⟩

/-- What the handlers read of the other parts of the program. -/
structure Services where
  busReady : Bool
  inboundSize : Nat
  outboundSize : Nat
  debug : Bool
  htmlPath : Str
  fs : Fs
  scheduler : Option Schedule.Scheduler
  subagents : Option Subagent.Slots
  clock : Int
  tmux : Option Str
  emailStatus : Option Str
  allowlist : Option Allowlist

def loadHtml (fs : Fs) (path : Str) : Option Str :=
  if path = [] then none
  else match fs path with
    | none => none
    | some bytes => if bytes = [] ∨ 2 * 1024 * 1024 < bytes.length then none else some bytes

def fallbackHtml : Str :=
  ("<!DOCTYPE html><html><head><meta charset='UTF-8'>" ++
    "<title>Dobby</title>" ++
    "<style>body\x7bfont-family:monospace;background:#05050f;color:#a855f7;" ++
    "display:flex;flex-direction:column;align-items:center;justify-content:center;" ++
    "height:100vh;gap:12px\x7d</style></head><body>" ++
    "<h2>&#9889; Dobby</h2>" ++
    "<p>chat.html not found. Place it in the assets/ directory and restart.</p>" ++
    "</body></html>").toList

def handleRoot (sv : Services) : Reply :=
  ⟨200, "text/html; charset=utf-8".toList, (loadHtml sv.fs sv.htmlPath).getD fallbackHtml⟩

def statusTree (sv : Services) : Json :=
  .object [("status".toList, .string "ok".toList), ("version".toList, .string "1.0.0".toList),
    ("bus_ready".toList, .bool sv.busReady), ("debug".toList, .bool sv.debug),
    ("inbound_queue".toList, .ofInt sv.inboundSize),
    ("outbound_queue".toList, .ofInt sv.outboundSize)]

/-- An item of `scheduler_task_json`. -/
def taskItem (t : Schedule.Task) : Json :=
  .object [("id".toList, .ofInt t.id), ("name".toList, .string t.name),
    ("type".toList, .string (if t.type = .shell then "shell".toList else "agent_turn".toList)),
    ("task".toList, .string t.task), ("interval_seconds".toList, .ofInt t.intervalSec),
    ("paused".toList, .bool t.paused)]

def tasksTree (sv : Services) : Json :=
  .array (((sv.scheduler.map (·.tasks)).getD []).filter (·.active) |>.map taskItem)

/-- An item of `subagent_pool_json`. -/
def subagentItem (clock : Int) (sl : Subagent.Slot) : Json :=
  .object ([("id".toList, .ofInt sl.id), ("name".toList, .string (sl.name.getD [])),
    ("status".toList, .string sl.state.name), ("task".toList, .string (sl.task.getD [])),
    ("elapsed_sec".toList, .ofInt (clock - sl.startedAt))] ++
    match sl.result with
    | some result => if sl.state = .running then [] else [("result".toList, .string result)]
    | none => [])

def subagentsTree (sv : Services) : Json :=
  .array (((sv.subagents.map fun slots => (List.finRange Subagent.maxSlots).map slots).getD []).filter
    (·.state ≠ .idle) |>.map (subagentItem sv.clock))

/-- A line of `tmux ls`, cut at its first two tabs. -/
def tmuxItem (line : Str) : Json :=
  let windows := (line.dropWhile (· ≠ '\t')).drop 1
  let created := (windows.dropWhile (· ≠ '\t')).drop 1
  .object [("name".toList, .string (line.takeWhile (· ≠ '\t'))),
    ("windows".toList, .string (windows.takeWhile (· ≠ '\t'))),
    ("created".toList, .string created)]

/-- A line that says there are no sessions. -/
def tmuxEnds (line : Str) : Bool :=
  (strstr "no server running".toList line).isSome || (strstr "no sessions".toList line).isSome ||
    (strstr "error connecting".toList line).isSome

def dropNewline (line : Str) : Str := if line.getLast? = some '\n' then line.dropLast else line

def tmuxTree (output : Option Str) : Json :=
  .array ((((fgetsAll 512 (output.getD [])).map cstr).takeWhile (!tmuxEnds ·)).map
    fun line => tmuxItem (dropNewline line))

/-- The patterns of the list for mail, if it is enabled. -/
def emailRules (sv : Services) : List Str :=
  match sv.allowlist with
  | some al => if Allowlist.allowlistIsEnabled al .email then (al .email).rules else []
  | none => []

def emailTree (sv : Services) : Json :=
  .object ((match sv.emailStatus with
    | none => [("configured".toList, .bool false)]
    | some snap => [("configured".toList, .bool true), ("last_from".toList, .string []),
        ("last_subject".toList, .string []), ("status_text".toList, .string (snprintf 1024 snap))]) ++
    [("allowlist".toList, .array ((emailRules sv).map .string)),
      ("allowlist_enabled".toList, .bool (sv.allowlist.any (Allowlist.allowlistIsEnabled · .email)))])

/-- What a connection thread makes of a request: a reply at once, or a message for the bus
and a wait for its response. -/
inductive Action where
  | reply (r : Reply)
  | publish (msg : Str)

def handleChat (sv : Services) (raw : Str) : Action :=
  if sv.busReady = false then
    .reply (sendJson 503 "\x7b\"error\":\"Bus not initialised\"\x7d".toList)
  else match requestBody raw with
    | none | some [] => .reply (sendJson 400 "\x7b\"error\":\"Empty request body\"\x7d".toList)
    | some body =>
      match cJSONParse body with
      | none => .reply (sendJson 400 "\x7b\"error\":\"Invalid JSON\"\x7d".toList)
      | some req =>
        match req.field "message".toList with
        | none | some [] =>
          .reply (sendJson 400 "\x7b\"error\":\"'message' field required\"\x7d".toList)
        | some msg => .publish msg

/-- `sscanf` of a word of at most so many bytes, and what follows. -/
def scanWord (width : Nat) (s : Str) : Str × Str :=
  let word := ((s.dropWhile isSpace).takeWhile (!isSpace ·)).take width
  (word, (s.dropWhile isSpace).drop word.length)

/-- The method, and the path without its query. -/
def requestLine (raw : Str) : Str × Str :=
  let method := scanWord 15 raw
  (method.1, (scanWord 255 method.2).1.takeWhile (· ≠ '?'))

section

variable (doubles : Doubles)

def sendJsonObj (code : Nat) (obj : Json) : Reply :=
  sendJson code (cJSONPrintUnformatted doubles obj)

/-- The end of `handle_chat`, when the response is there. -/
def chatReply (response : Option Str) : Reply :=
  sendJsonObj doubles 200 (.object [("response".toList, .string (response.getD []))])

def gatewayConnThread (sv : Services) (raw : Str) : Action :=
  let (method, path) := requestLine raw
  if path = "/".toList ∨ path = "/index.html".toList then .reply (handleRoot sv)
  else if path = "/api/status".toList then .reply (sendJsonObj doubles 200 (statusTree sv))
  else if path = "/api/chat".toList then
    if method = "POST".toList then handleChat sv raw
    else if method = "OPTIONS".toList then .reply (sendJson 200 "\x7b\x7d".toList)
    else .reply (sendJson 400 "\x7b\"error\":\"POST required\"\x7d".toList)
  else if path = "/api/tasks".toList then .reply (sendJsonObj doubles 200 (tasksTree sv))
  else if path = "/api/subagents".toList then .reply (sendJsonObj doubles 200 (subagentsTree sv))
  else if path = "/api/tmux".toList then .reply (sendJsonObj doubles 200 (tmuxTree sv.tmux))
  else if path = "/api/email".toList then .reply (sendJsonObj doubles 200 (emailTree sv))
  else if path = "/favicon.ico".toList then .reply ⟨204, "image/x-icon".toList, []⟩
  else .reply (sendJson 404 "\x7b\"error\":\"Not found\"\x7d".toList)

end

end Dobby.Gateway
