import Dobby.Base.Cjson
import Mathlib.Data.List.FinRange
import Mathlib.Logic.Function.Basic

namespace Dobby.Subagent
open CString

def maxSlots : Nat := 8
def resultCap : Nat := 65536

inductive SaState where
  | idle
  | running
  | done
  | error
  | timeout
  deriving DecidableEq

def SaState.name : SaState → Str
  | .idle => "idle".toList
  | .running => "running".toList
  | .done => "done".toList
  | .error => "error".toList
  | .timeout => "timeout".toList

/-- Done, failed or timed out. -/
def SaState.terminal (st : SaState) : Bool := st == .done || st == .error || st == .timeout

/-- `slot_t`. `thread` is the handle in the table of workers. -/
structure Slot where
  id : Nat
  state : SaState
  name : Option Str
  task : Option Str
  context : Option Str
  result : Option Str
  startedAt : Int
  finishedAt : Int
  timeoutSec : Int
  thread : Nat
  threadValid : Bool

def emptySlot : Slot := ⟨0, .idle, none, none, none, none, 0, 0, 0, 0, false⟩

def slotSetResult (text : Option Str) : Str :=
  match text with
  | none => "(no result)".toList
  | some text =>
    if resultCap < text.length then
      text.take resultCap ++ "\n...[truncated at 65536 bytes]".toList
    else text

/-- The id, the times and the thread stay. -/
def slotReset (sl : Slot) : Slot :=
  { sl with
    name := none
    task := none
    context := none
    result := none
    threadValid := false
    state := .idle }

/-- What `worker_fn` makes of the answer of `agent_chat`. -/
def outcomeOf (response : Option Str) : SaState :=
  if response.any (fun r => "[Error".toList.isPrefixOf r || "[Dobby:".toList.isPrefixOf r) then .error
  else .done

def reportSlot (now : Int) (response : Option Str) (sl : Slot) : Slot :=
  { sl with
    finishedAt := now
    state := outcomeOf response
    result := some (slotSetResult response) }

def timeoutSlot (now : Int) (sl : Slot) : Slot :=
  { sl with
    state := .timeout
    finishedAt := now
    result := some (slotSetResult (some "[Subagent timed out]".toList)) }

abbrev Slots := Fin maxSlots → Slot

/-- One turn of the second loop of `alloc_slot`. -/
def older (slots : Slots) (best : Option (Fin maxSlots) × Int) (i : Fin maxSlots) :
    Option (Fin maxSlots) × Int :=
  if (slots i).state.terminal ∧ (slots i).finishedAt < best.2 then (some i, (slots i).finishedAt)
  else best

/-- The slot that `alloc_slot` settles on, before it joins a worker. -/
def allocSlot (now : Int) (slots : Slots) : Option (Fin maxSlots) :=
  match (List.finRange maxSlots).find? (fun i => (slots i).state == .idle) with
  | some i => some i
  | none => ((List.finRange maxSlots).foldl (older slots) (none, now + 1)).1

structure Request where
  name : Str
  task : Str
  context : Option Str

/-- The request of a call of `spawn_subagent`, unless it is refused at once. -/
def requestOf (args : Json) : Option Request :=
  match args.field "task".toList with
  | none | some [] => none
  | some task =>
    some
      { name := match args.field "name".toList with
          | none | some [] => "worker".toList
          | some name => name
        task := task
        context := args.field "context".toList }

/-- How `make_agent` and the two `pthread_create` of a spawn turn out. -/
inductive Fate where
  | agentFailed
  | threadFailed
  | started (watched : Bool)

/-- A call that takes `pool->lock`. -/
inductive Call where
  | spawn (args : Json) (fate : Fate)
  | status (args : Json)

def Call.locks : Call → Bool
  | .spawn args _ => (requestOf args).isSome
  | .status _ => true

/-- Where a worker is. Chatting it is in `agent_chat`, where it may or may not pass a
cancellation point before it asks for `pool->lock`; calling and answered it is in line
for the lock, which is no cancellation point. -/
inductive Phase where
  | chatting
  | calling (call : Call)
  | answered (response : Option Str)
  | reporting
  | returned
  | cancelled

/-- A worker thread. `pending` is a cancellation that has not taken effect. -/
structure Worker where
  madeFor : Nat
  slot : Fin maxSlots
  phase : Phase
  pending : Bool

def Worker.ended (w : Worker) : Bool :=
  match w.phase with
  | .returned | .cancelled => true
  | _ => false

/-- In line for `pool->lock`. -/
def Worker.waits (w : Worker) : Bool :=
  match w.phase with
  | .calling _ | .answered _ => true
  | _ => false

/-- A tool is called by a worker or from elsewhere. -/
inductive Caller where
  | outside
  | worker (h : Nat)

/-- Who holds `pool->lock` from one step to the next, and for what. -/
inductive Owner where
  | joining (caller : Caller) (i : Fin maxSlots) (request : Request) (fate : Fate)
  | spawning (h : Nat)
  | reporting (h : Nat)

def Owner.thread : Owner → Caller
  | .joining caller _ _ _ => caller
  | .spawning h | .reporting h => .worker h

structure Watchdog where
  id : Nat
  due : Int
  deriving DecidableEq

structure State where
  clock : Int
  slots : Slots
  nextId : Nat
  owner : Option Owner
  workers : Nat → Option Worker
  created : Nat
  watchdogs : List Watchdog

def State.setSlot (s : State) (i : Fin maxSlots) (sl : Slot) : State :=
  { s with slots := Function.update s.slots i sl }

def State.setWorker (s : State) (h : Nat) (w : Worker) : State :=
  { s with workers := Function.update s.workers h (some w) }

def State.setPhase (s : State) (h : Nat) (phase : Phase) : State :=
  match s.workers h with
  | none => s
  | some w => s.setWorker h { w with phase := phase }

section
variable (s : State) (i : Fin maxSlots) (sl : Slot) (h : Nat) (w : Worker)

@[simp] theorem State.setSlot_self : (s.setSlot i sl).slots i = sl := Function.update_self ..

@[simp] theorem State.setWorker_self : (s.setWorker h w).workers h = some w :=
  Function.update_self ..

variable {i h}

theorem State.setSlot_ne {j : Fin maxSlots} (hj : j ≠ i) : (s.setSlot i sl).slots j = s.slots j :=
  Function.update_of_ne hj ..

theorem State.setWorker_ne {k : Nat} (hk : k ≠ h) : (s.setWorker h w).workers k = s.workers k :=
  Function.update_of_ne hk ..

end

/-- A worker goes on chatting after a call. -/
def State.resume (s : State) : Caller → State
  | .outside => s
  | .worker h => s.setPhase h .chatting

/-- Whether `alloc_slot` joins the worker of the slot it settles on. -/
def Slot.joins (sl : Slot) : Bool := sl.state != .idle && sl.threadValid

/-- The slot as `alloc_slot` hands it out. -/
def State.recycle (s : State) (i : Fin maxSlots) : State :=
  if (s.slots i).state = .idle then s else s.setSlot i (slotReset (s.slots i))

def startSlot (timeoutSec : Int) (s : State) (request : Request) (sl : Slot) : Slot :=
  { sl with
    id := s.nextId
    state := .running
    name := some request.name
    task := some request.task
    context := request.context
    startedAt := s.clock
    timeoutSec := timeoutSec
    result := none
    threadValid := false }

/-- `tool_spawn` from the slot on, which is idle or just reset. -/
def fillSlot (timeoutSec : Int) (s : State) (i : Fin maxSlots) (request : Request) (fate : Fate) :
    State :=
  let sl := startSlot timeoutSec s request (s.slots i)
  match fate with
  | .agentFailed | .threadFailed => { s.setSlot i (slotReset sl) with nextId := s.nextId + 1 }
  | .started watched =>
    { s.setSlot i { sl with thread := s.created, threadValid := true } with
      nextId := s.nextId + 1
      workers := Function.update s.workers s.created (some ⟨s.nextId, i, .chatting, false⟩)
      created := s.created + 1
      watchdogs := if watched then s.watchdogs ++ [⟨s.nextId, s.clock + timeoutSec⟩]
        else s.watchdogs }

/-- The slot that a watchdog finds. -/
def watched (slots : Slots) (id : Nat) : Option (Fin maxSlots) :=
  (List.finRange maxSlots).find?
    (fun i => (slots i).id == id && (slots i).state == .running && (slots i).threadValid)

def pthreadCancel (s : State) (h : Nat) : State :=
  match s.workers h with
  | none => s
  | some w => s.setWorker h { w with pending := true }

def watchdogFn (s : State) (id : Nat) : State :=
  match watched s.slots id with
  | none => s
  | some i => (pthreadCancel s (s.slots i).thread).setSlot i (timeoutSlot s.clock (s.slots i))

def slotItem (now : Int) (sl : Slot) : List (Str × Json) :=
  [("subagent_id".toList, .ofInt sl.id), ("name".toList, .string (sl.name.getD [])),
    ("status".toList, .string sl.state.name), ("task".toList, .string (sl.task.getD [])),
    ("elapsed_sec".toList, .ofInt (now - sl.startedAt))]

/-- The slots in use, as `subagent_status` without an id lists them. -/
def slotList (now : Int) (slots : Slots) : Json :=
  .array (((List.finRange maxSlots).filter (fun i => (slots i).state ≠ .idle)).map (fun i =>
    .object (slotItem now (slots i) ++
      match (slots i).result with
      | some result =>
        if (slots i).state ≠ .running then [("result".toList, Json.string result)] else []
      | none => [])))

def slotAnswer (now : Int) (sl : Slot) : Json :=
  .object (slotItem now sl ++
    if sl.state = .running then
      [("note".toList, .string
        "Still running. Call subagent_status again later to check.".toList)]
    else
      [("result".toList, .string (sl.result.getD "(no result)".toList)),
        ("duration_sec".toList, .ofInt (sl.finishedAt - sl.startedAt))])

/-- The slot that an answer about an id describes. -/
def lookup (slots : Slots) (target : Int) : Option (Fin maxSlots) :=
  (List.finRange maxSlots).find? (fun i => (slots i).id == target && (slots i).state != .idle)

/-- The id that a call of `subagent_status` asks about. -/
def askedFor (args : Json) : Option Int :=
  match args.getObjectItem "subagent_id".toList with
  | some (.number text) => some (Json.number text).valueInt
  | _ => none

def toolStatus (s : State) (args : Json) : Json :=
  match askedFor args with
  | none => slotList s.clock s.slots
  | some target =>
    match lookup s.slots target with
    | some i => slotAnswer s.clock (s.slots i)
    | none => .object [("error".toList, .string ("Subagent #".toList ++ (toString target).toList ++
        " not found or already recycled".toList))]

/-- The passing of time, what workers do without the lock (`ask`, `answer`, `cancel`),
the calls of the tools with the rest of a spawn that has to join (`joined`), the end of
a worker (`report`, `release`), a watchdog that wakes, and cancellations that take
effect under the lock: in `pthread_join` (`fall`), in the log line of `agent_create`
(`faint`) and in the last one of the worker (`drop`). -/
inductive Event where
  | pass (clock : Int)
  | ask (h : Nat) (call : Call)
  | answer (h : Nat) (response : Option Str)
  | cancel (h : Nat)
  | call (caller : Caller) (call : Call)
  | poolJson
  | joined
  | fall (h : Nat)
  | faint (h : Nat)
  | report (h : Nat)
  | drop (h : Nat)
  | release (h : Nat)
  | timeout (dog : Watchdog)

/-- The caller is at this call. -/
def Asks (s : State) (caller : Caller) (call : Call) : Prop :=
  match caller with
  | .outside => call.locks = true
  | .worker h => ∃ w, s.workers h = some w ∧ w.phase = .calling call

/-- No cancellation of the caller is pending. -/
def Calm (s : State) : Caller → Prop
  | .outside => True
  | .worker h => ∃ w, s.workers h = some w ∧ w.pending = false

inductive Step (timeoutSec : Int) : State → Event → State → Prop where
  | pass (later : s.clock ≤ clock) : Step timeoutSec s (.pass clock) { s with clock := clock }
  | ask (worker : s.workers h = some w) (chats : w.phase = .chatting)
      (locks : call.locks = true) :
      Step timeoutSec s (.ask h call) (s.setWorker h { w with phase := .calling call })
  | answer (worker : s.workers h = some w) (chats : w.phase = .chatting) :
      Step timeoutSec s (.answer h response) (s.setWorker h { w with phase := .answered response })
  | cancel (worker : s.workers h = some w) (chats : w.phase = .chatting) (hit : w.pending = true) :
      Step timeoutSec s (.cancel h) (s.setWorker h { w with phase := .cancelled })
  | status (free : s.owner = none) (asks : Asks s caller (.status args)) :
      Step timeoutSec s (.call caller (.status args)) (s.resume caller)
  | poolJson (free : s.owner = none) : Step timeoutSec s .poolJson s
  | refuse (free : s.owner = none) (asks : Asks s caller (.spawn args fate))
      (full : allocSlot s.clock s.slots = none) :
      Step timeoutSec s (.call caller (.spawn args fate)) (s.resume caller)
  | spawn (free : s.owner = none) (asks : Asks s caller (.spawn args fate))
      (fit : requestOf args = some request) (found : allocSlot s.clock s.slots = some i)
      (unjoined : (s.slots i).joins = false) :
      Step timeoutSec s (.call caller (.spawn args fate))
        ((fillSlot timeoutSec (s.recycle i) i request fate).resume caller)
  | evict (free : s.owner = none) (asks : Asks s caller (.spawn args fate))
      (fit : requestOf args = some request) (found : allocSlot s.clock s.slots = some i)
      (joins : (s.slots i).joins = true) :
      Step timeoutSec s (.call caller (.spawn args fate))
        { s with owner := some (.joining caller i request fate) }
  | joined (owner : s.owner = some (.joining caller i request fate)) (calm : Calm s caller)
      (gone : ∀ w, s.workers (s.slots i).thread = some w → w.ended = true) :
      Step timeoutSec s .joined
        { (fillSlot timeoutSec (s.recycle i) i request fate).resume caller with owner := none }
  | fall (owner : s.owner = some (.joining (.worker h) i request fate))
      (worker : s.workers h = some w) (lives : w.ended = false) (hit : w.pending = true) :
      Step timeoutSec s (.fall h) (s.setWorker h { w with phase := .cancelled })
  | faint (free : s.owner = none) (worker : s.workers h = some w) (hit : w.pending = true)
      (calls : w.phase = .calling (.spawn args fate)) (fit : requestOf args = some request)
      (found : allocSlot s.clock s.slots = some i) (unjoined : (s.slots i).joins = false) :
      Step timeoutSec s (.faint h)
        { ((s.recycle i).setSlot i
            (startSlot timeoutSec s request ((s.recycle i).slots i))).setWorker h
            { w with phase := .cancelled } with
          nextId := s.nextId + 1
          owner := some (.spawning h) }
  | report (free : s.owner = none) (worker : s.workers h = some w)
      (answered : w.phase = .answered response) :
      Step timeoutSec s (.report h)
        { (s.setSlot w.slot (reportSlot s.clock response (s.slots w.slot))).setWorker h
            { w with phase := .reporting } with
          owner := some (.reporting h) }
  | drop (owner : s.owner = some (.reporting h)) (worker : s.workers h = some w)
      (reports : w.phase = .reporting) (hit : w.pending = true) :
      Step timeoutSec s (.drop h) (s.setWorker h { w with phase := .cancelled })
  | release (owner : s.owner = some (.reporting h)) (worker : s.workers h = some w)
      (reports : w.phase = .reporting) :
      Step timeoutSec s (.release h)
        { s.setWorker h { w with phase := .returned } with owner := none }
  | timeout (free : s.owner = none) (outstanding : dog ∈ s.watchdogs) (woke : dog.due ≤ s.clock) :
      Step timeoutSec s (.timeout dog)
        { watchdogFn s dog.id with watchdogs := s.watchdogs.erase dog }

/-- `subagent_pool_create`. -/
def startState (clock : Int) : State :=
  ⟨clock, fun _ => emptySlot, 1, none, fun _ => none, 0, []⟩

end Dobby.Subagent
