import Dobby.Base.CString
import Dobby.Model.Queue
import Dobby.Model.Session

namespace Dobby.Exchange
open CString Queue Session

structure InboundMsg where
  channel : Str
  senderId : Str
  chatId : Str
  content : Str
  metadata : Option Str
  deriving DecidableEq

structure OutboundMsg where
  channel : Str
  chatId : Str
  content : Str
  metadata : Option Str
  deriving DecidableEq

def rpMark : Str := "rp=".toList

/-- The address after `rp=`. A null pointer counts as none. -/
def responsePairFromMeta : Option Str → Option Nat
  | none => none
  | some metadata =>
    match strstr rpMark metadata with
    | none => none
    | some p =>
      match scanHex (p.drop 3) with
      | some 0 => none
      | ptr => ptr

inductive Caller where
  | cli
  | gateway (clientIp : Option Str)
  deriving DecidableEq

/-- `handle_chat` takes the client address as the chat, if it has one. -/
def gatewayChatId : Option Str → Str
  | some (c :: cs) => c :: cs
  | _ => "unknown".toList

/-- The message a synchronous caller publishes with its own response pair. -/
def Caller.message (rp : Nat) (text : Str) : Caller → InboundMsg
  | .cli => ⟨"cli".toList, "local".toList, "local".toList, text,
      some (snprintf 32 (rpMark ++ printHex rp))⟩
  | .gateway ip => ⟨"http".toList, gatewayChatId ip, gatewayChatId ip, text,
      some (snprintf 64 (rpMark ++ printHex rp))⟩

inductive Phase where
  | publishing
  | waiting
  deriving DecidableEq

/-- A live `response_pair_t` with the caller that owns it. -/
structure SyncCall where
  caller : Caller
  msg : InboundMsg
  phase : Phase
  done : Bool
  response : Option Str

def responsePairInit (caller : Caller) (msg : InboundMsg) : SyncCall :=
  ⟨caller, msg, .publishing, false, none⟩

def responsePairDeliver (response : Option Str) (c : SyncCall) : SyncCall :=
  { c with response := response, done := true }

/-- Only the terminal looks at the result of `bus_publish_inbound`. -/
def afterRefusal (c : SyncCall) : Option SyncCall :=
  match c.caller with
  | .cli => none
  | .gateway _ => some { c with phase := .waiting }

/-- Where `worker_loop` stands. -/
inductive Pc where
  | boot
  | top
  | consuming
  | looking (msg : InboundMsg)
  | chatting (msg : InboundMsg) (sess : Fin sessionMax)
  | releasing (msg : InboundMsg) (sess : Fin sessionMax) (response : Option Str)
  | replying (msg : InboundMsg) (response : Option Str)
  | exited
  deriving DecidableEq

/-- The message the worker is processing. -/
def Pc.hand : Pc → Option InboundMsg
  | .looking msg | .chatting msg _ | .releasing msg _ _ | .replying msg _ => some msg
  | _ => none

inductive Lookup where
  | unavailable
  | resumed (sess : Fin sessionMax)
  | opened (sess : Fin sessionMax)
  deriving DecidableEq

/-- What a result of `session_get_or_create` means for the table it was called on. -/
def lookupOf (sm : Manager α) (key : Str) : Option (Fin sessionMax) → Lookup
  | none => .unavailable
  | some i => if (sm.slots i).inUse && (sm.slots i).key == key then .resumed i else .opened i

inductive Reply where
  | delivered (rp : Nat) (response : Option Str)
  | posted (out : OutboundMsg)
  | dropped (out : OutboundMsg)
  deriving DecidableEq

structure System (α : Type u) (φ : Type v) where
  inbound : Bq InboundMsg
  outbound : Bq OutboundMsg
  shutDown : Bool
  running : Bool
  sessions : Manager α
  data : φ
  calls : Nat → Option SyncCall
  pc : Pc
  dispatching : Bool

/-- The state in which `boot` has created the bus and the session manager. -/
def System.boot (ttl : Int) (data : φ) : System α φ :=
  ⟨bqInit, bqInit, false, false, sessionManagerCreate ttl, data, fun _ => none, .boot, true⟩

def System.setCall (s : System α φ) (rp : Nat) (c : Option SyncCall) : System α φ :=
  { s with calls := Function.update s.calls rp c }

def System.setAgent (s : System α φ) (i : Fin sessionMax) (agent : α) : System α φ :=
  { s with sessions := { s.sessions with
      slots := Function.update s.sessions.slots i { s.sessions.slots i with agent := some agent } } }

def tableFull : Str := "Error: agent unavailable (session table full).".toList

/-- The next line of the worker after the lookup. -/
def afterLookup (msg : InboundMsg) : Option (Fin sessionMax) → Pc
  | some i => .chatting msg i
  | none => .replying msg (some tableFull)

def outboundFor (msg : InboundMsg) (response : Option Str) : OutboundMsg :=
  ⟨msg.channel, msg.chatId, response.getD [], msg.metadata⟩

inductive Event where
  | begins (caller : Caller) (rp : Nat) (text : Str)
  | accepted (src : Option Nat) (msg : InboundMsg)
  | refused (caller : Caller) (rp : Nat)
  | refusedAsync (msg : InboundMsg)
  | returned (rp : Nat) (response : Option Str)
  | booted (result : Lookup)
  | stays
  | leaves
  | consumed (msg : InboundMsg)
  | drained
  | looked (msg : InboundMsg) (result : Lookup)
  | chatted (sess : Fin sessionMax) (response : Option Str)
  | released
  | replied (msg : InboundMsg) (reply : Reply)
  | dispatched (out : OutboundMsg)
  | dispatcherLeaves
  | stopped
  | shut

/-- The callers, the worker, the dispatcher and shutdown taking turns. A queue
call that has to wait is a step that is not enabled. `data` is all the factory
and the agents depend on besides their own state. -/
inductive Step (factory : φ → Option α × φ) (chat : α → Str → φ → Option Str × α × φ) :
    System α φ → Event → System α φ → Prop where
  | begins (fresh : s.calls rp = none) (nonnull : 0 < rp) (fits : rp < 2 ^ 64) :
      Step factory chat s (.begins caller rp text)
        (s.setCall rp (some (responsePairInit caller (caller.message rp text))))
  | accepted (call : s.calls rp = some c) (phase : c.phase = .publishing)
      (stay : qPush s.inbound c.msg s.shutDown = .accepted q) :
      Step factory chat s (.accepted (some rp) c.msg)
        { s.setCall rp (some { c with phase := .waiting }) with inbound := q }
  | refused (call : s.calls rp = some c) (phase : c.phase = .publishing)
      (stay : qPush s.inbound c.msg s.shutDown = .refused) :
      Step factory chat s (.refused c.caller rp) (s.setCall rp (afterRefusal c))
  | returned (call : s.calls rp = some c) (phase : c.phase = .waiting) (done : c.done = true) :
      Step factory chat s (.returned rp c.response) (s.setCall rp none)
  | acceptedAsync (plain : ∀ metadata, msg.metadata = some metadata → strstr rpMark metadata = none)
      (stay : qPush s.inbound msg s.shutDown = .accepted q) :
      Step factory chat s (.accepted none msg) { s with inbound := q }
  | refusedAsync (plain : ∀ metadata, msg.metadata = some metadata → strstr rpMark metadata = none)
      (stay : qPush s.inbound msg s.shutDown = .refused) :
      Step factory chat s (.refusedAsync msg) s
  -- `boot` creates the terminal's session before it starts the worker
  | booted (pc : s.pc = .boot)
      (made : sessionGetOrCreate factory s.sessions s.data "cli".toList "local".toList tEvict tCreate
        = (res, sm, data)) :
      Step factory chat s
        (.booted (lookupOf s.sessions (sessionKey "cli".toList "local".toList) res))
        { s with sessions := sm, data := data, running := true, pc := .top }
  | stays (pc : s.pc = .top) (on : s.running = true) :
      Step factory chat s .stays { s with pc := .consuming }
  | leaves (pc : s.pc = .top) (off : s.running = false) :
      Step factory chat s .leaves { s with pc := .exited }
  | consumed (pc : s.pc = .consuming) (stay : qPop s.inbound s.shutDown = .item (some msg) q) :
      Step factory chat s (.consumed msg) { s with inbound := q, pc := .looking msg }
  | drained (pc : s.pc = .consuming) (stay : qPop s.inbound s.shutDown = .drained) :
      Step factory chat s .drained { s with pc := .exited }
  | looked (pc : s.pc = .looking msg)
      (made : sessionGetOrCreate factory s.sessions s.data msg.channel msg.chatId tEvict tCreate
        = (res, sm, data)) :
      Step factory chat s (.looked msg (lookupOf s.sessions (sessionKey msg.channel msg.chatId) res))
        { s with sessions := sm, data := data, pc := afterLookup msg res }
  | chatted (pc : s.pc = .chatting msg i) (owner : (s.sessions.slots i).agent = some agent)
      (talk : chat agent msg.content s.data = (response, agent', data)) :
      Step factory chat s (.chatted i response)
        { s.setAgent i agent' with data := data, pc := .releasing msg i response }
  | released (pc : s.pc = .releasing msg i response) :
      Step factory chat s .released
        { s with sessions := sessionRelease s.sessions i now, pc := .replying msg response }
  | delivered (pc : s.pc = .replying msg response)
      (sync : responsePairFromMeta msg.metadata = some rp) :
      Step factory chat s (.replied msg (.delivered rp response))
        { s.setCall rp ((s.calls rp).map (responsePairDeliver response)) with pc := .top }
  | posted (pc : s.pc = .replying msg response) (async : responsePairFromMeta msg.metadata = none)
      (stay : qPush s.outbound (outboundFor msg response) s.shutDown = .accepted q) :
      Step factory chat s (.replied msg (.posted (outboundFor msg response)))
        { s with outbound := q, pc := .top }
  | dropped (pc : s.pc = .replying msg response) (async : responsePairFromMeta msg.metadata = none)
      (stay : qPush s.outbound (outboundFor msg response) s.shutDown = .refused) :
      Step factory chat s (.replied msg (.dropped (outboundFor msg response))) { s with pc := .top }
  | dispatched (on : s.dispatching = true)
      (stay : qPop s.outbound s.shutDown = .item (some out) q) :
      Step factory chat s (.dispatched out) { s with outbound := q }
  | dispatcherLeaves (on : s.dispatching = true) (stay : qPop s.outbound s.shutDown = .drained) :
      Step factory chat s .dispatcherLeaves { s with dispatching := false }
  -- `agent_worker_stop` clears `running` and then calls `bus_shutdown`
  | stopped : Step factory chat s .stopped { s with running := false }
  | shut : Step factory chat s .shut { s with shutDown := true }

/-- The response pair a message in the inbound queue or in hand carries. -/
def InboundMsg.rp (msg : InboundMsg) : Option Nat := responsePairFromMeta msg.metadata

/-- What is consumed but not yet answered, and then what is queued. -/
def System.pending (s : System α φ) : List InboundMsg := s.pc.hand.toList ++ s.inbound.contents

/-- Messages accepted into the inbound queue, each with its publisher's response pair. -/
def acceptedIn (es : List Event) : List (Option Nat × InboundMsg) :=
  es.filterMap fun | .accepted src msg => some (src, msg) | _ => none

def consumedIn (es : List Event) : List InboundMsg :=
  es.filterMap fun | .consumed msg => some msg | _ => none

def repliedIn (es : List Event) : List (InboundMsg × Reply) :=
  es.filterMap fun | .replied msg reply => some (msg, reply) | _ => none

def postedIn (es : List Event) : List OutboundMsg :=
  es.filterMap fun | .replied _ (.posted out) => some out | _ => none

def dispatchedIn (es : List Event) : List OutboundMsg :=
  es.filterMap fun | .dispatched out => some out | _ => none

/-- The contents of the messages with this key that the worker has looked up. -/
def contentsFor (key : Str) (es : List Event) : List Str :=
  es.filterMap fun
    | .looked msg _ => if sessionKey msg.channel msg.chatId = key then some msg.content else none
    | _ => none

@[simp] theorem acceptedIn_append (es fs : List Event) :
    acceptedIn (es ++ fs) = acceptedIn es ++ acceptedIn fs := by
  simp [acceptedIn]

@[simp] theorem consumedIn_append (es fs : List Event) :
    consumedIn (es ++ fs) = consumedIn es ++ consumedIn fs := by
  simp [consumedIn]

@[simp] theorem repliedIn_append (es fs : List Event) :
    repliedIn (es ++ fs) = repliedIn es ++ repliedIn fs := by
  simp [repliedIn]

@[simp] theorem postedIn_append (es fs : List Event) :
    postedIn (es ++ fs) = postedIn es ++ postedIn fs := by
  simp [postedIn]

@[simp] theorem dispatchedIn_append (es fs : List Event) :
    dispatchedIn (es ++ fs) = dispatchedIn es ++ dispatchedIn fs := by
  simp [dispatchedIn]

@[simp] theorem contentsFor_append (key : Str) (es fs : List Event) :
    contentsFor key (es ++ fs) = contentsFor key es ++ contentsFor key fs := by
  simp [contentsFor]

end Dobby.Exchange
