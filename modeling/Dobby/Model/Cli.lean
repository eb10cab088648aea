import Dobby.Model.Agent
import Dobby.Model.Memory
import Dobby.Model.Session

namespace Dobby.Cli
open CString AgentLoop MdMemory Session

def maxSystemParts : Nat := 16

/-- A file that is missing or empty counts as none. -/
def loadFile (fs : Fs) (path : Str) : Option Str :=
  match fs path with
  | none | some [] => none
  | some bytes => some bytes

def agentCreate (fmt : MsgFormat) : Agent := ⟨[], 0, 10, [], fmt⟩

def agentAddSystemPart (a : Agent) (part : Str) : Agent :=
  if maxSystemParts ≤ a.systemParts.length then a
  else { a with systemParts := a.systemParts ++ [cstr part] }

/-- `agent_factory`, whose data is the template agent. -/
def agentFactory (template : Agent) : Option Agent × Agent :=
  (some (template.systemParts.foldl agentAddSystemPart
    { agentCreate template.fmt with
      maxIterations := template.maxIterations
      maxMessages := template.maxMessages }), template)

def contextHeader : Str :=
  ("## Persistent Memory\n" ++
    "Below is your long-term memory. Use memory_store to update it, " ++
    "memory_recall to look up a specific fact.\n\n").toList

def memoryGetContext (fs : Fs) (mem : Memory) : Str := contextHeader ++ readMemoryFile fs mem

/-- `refresh_memory` with `g_memory_slot`. -/
def refreshMemory (fs : Fs) (mem : Memory) (slot : Nat) (a : Agent) : Agent :=
  if slot < a.systemParts.length then
    let a := { a with systemParts := a.systemParts.set slot (memoryGetContext fs mem) }
    match a.messages with
    | [] => a
    | m :: rest =>
      if m.role = "system".toList then
        { a with messages := { m with content := buildSystemPrompt a } :: rest }
      else a
  else a

/-- What `boot` reads, from the disk and from the configuration. -/
structure Config where
  workspace : Str
  fs : Fs
  entries : List Str
  skillsPrompt : Option Str
  address : Option Str
  maxIterations : Int
  maxMessages : Int
  sessionTtl : Int
  fmt : MsgFormat
  tEvict : Int
  tCreate : Int

def addPart (a : Agent) (part : Option Str) : Agent := part.elim a (agentAddSystemPart a)

/-- The files that come before the memory in the prompt. -/
def bootDocs (cfg : Config) : List (Option Str) :=
  ["SOUL.md".toList, "AGENT.md".toList, "TOOLS.md".toList].map
    (fun name => loadFile cfg.fs (snprintf 1024 (cfg.workspace ++ '/' :: name)))

def bootFiles (cfg : Config) : Agent :=
  (bootDocs cfg).foldl addPart
    { agentCreate cfg.fmt with
      maxIterations := cfg.maxIterations
      maxMessages := cfg.maxMessages }

/-- An empty text counts as none. -/
def given : Option Str → Option Str
  | none | some [] => none
  | some (c :: cs) => some (c :: cs)

def emailIdentity (address : Str) : Str :=
  snprintf 512 ("## Email Identity\n".toList ++ "Your email address is ".toList ++ address ++
    ".\nTo send email use the send_email tool with to, subject, and body.\n".toList ++
    "Never use shell commands to send email.".toList)

/-- `g_memory` and the disk after `memory_create`. -/
def bootMemory (cfg : Config) : Memory × Fs :=
  memoryCreate cfg.fs (snprintf 1024 (cfg.workspace ++ "/memory".toList)) cfg.entries

/-- The template agent at the time when the session of the terminal is made. -/
def bootAgent (cfg : Config) : Agent :=
  addPart (agentAddSystemPart (bootFiles cfg)
    (memoryGetContext (bootMemory cfg).2 (bootMemory cfg).1)) (given cfg.skillsPrompt)

def cliChannel : Str := "cli".toList
def cliChat : Str := "local".toList

/-- Where the loop over `readline` stands, together with the worker that it waits for. -/
inductive Pc where
  | prompt
  | posted (text : Str)
  | chatting (i : Fin sessionMax) (text : Str) (pc : AgentLoop.Pc)
  | releasing (i : Fin sessionMax)
  | answered

/-- `old` is not in the source: it tells, for each message of the session of the
terminal, whether it is from before the last `/new`. -/
structure State where
  template : Agent
  memorySlot : Nat
  mem : Memory
  fs : Fs
  sessions : Manager Agent
  pc : Pc
  old : List Bool

/-- The identity comes after the session. -/
def boot (cfg : Config) : State :=
  let made := sessionGetOrCreate agentFactory (sessionManagerCreate cfg.sessionTtl) (bootAgent cfg)
    cliChannel cliChat cfg.tEvict cfg.tCreate
  { template := addPart made.2.2 ((given cfg.address).map emailIdentity)
    memorySlot := (bootFiles cfg).systemParts.length
    mem := (bootMemory cfg).1
    fs := (bootMemory cfg).2
    sessions := made.2.1
    pc := .prompt
    old := [] }

def newCommand : Str := "/new".toList

/-- What `slash_handle` makes of its agent, if the input is a command. -/
def slashHandle (input : Str) (agent : Agent) : Option Agent :=
  if input.head? ≠ some '/' then none
  else if input = newCommand then some (agentNewConversation agent)
  else some agent

def addOld (a : Agent) (old : List Bool) : List Bool :=
  (if a.limit ≤ a.messages.length then old.take 1 ++ old.drop a.cutEnd else old) ++ [false]

/-- `old` after a step of the chat. Compaction and rollback do to it what they do to
the messages. -/
def oldAfter (c : Chat) (e : AgentLoop.Event) (old : List Bool) : List Bool :=
  match e with
  | .began _ =>
    addOld c.agent.ready (if c.agent.messages.length = 0 then addOld c.agent old else old)
  | .called _ _ _ | .answered _ _ | .ran _ _ _ | .unknown _ => addOld c.agent old
  | .failed _ _ | .exhausted =>
    match c.pc with
    | .asking preTurnCount _ => old.take preTurnCount
    | _ => old
  | .refused | .looped => old

inductive Event where
  | typed (line : Str)
  | store (disk : Disk) (category : Option Str) (key : Str) (value : Option Str)
  | looked
  | chat (e : AgentLoop.Event)
  | released
  | refreshed (memory : Str)

def State.setAgent (s : State) (i : Fin sessionMax) (agent : Agent) : State :=
  { s with sessions := { s.sessions with
      slots := Function.update s.sessions.slots i { s.sessions.slots i with agent := some agent } } }

theorem State.setAgent_self (s : State) (i : Fin sessionMax) (agent : Agent) :
    (s.setAgent i agent).sessions.slots i = { s.sessions.slots i with agent := some agent } :=
  Function.update_self ..

theorem State.setAgent_ne (s : State) (agent : Agent) {i j : Fin sessionMax} (hj : j ≠ i) :
    (s.setAgent i agent).sessions.slots j = s.sessions.slots j :=
  Function.update_of_ne hj ..

/-- A chat is begun with the text of the message. -/
def Begins (text : Str) : AgentLoop.Event → Prop
  | .refused => text = []
  | .began t => t = text
  | _ => True

/-- The loop of `run`, the worker at its messages, and calls of `memory_store` from
wherever. `/quit` and `/exit` end the loop. -/
inductive Step (cj : Codec) (registry : Str → Bool) : State → Event → State → Prop where
  | blank (pc : s.pc = .prompt) (blank : strTrim line = []) : Step cj registry s (.typed line) s
  | command (pc : s.pc = .prompt) (handled : slashHandle (strTrim line) s.template = some agent)
      (stays : strTrim line ≠ "/quit".toList ∧ strTrim line ≠ "/exit".toList) :
      Step cj registry s (.typed line)
        { s with
          template := agent
          old := if strTrim line = newCommand then s.old.map (fun _ => true) else s.old }
  | turn (pc : s.pc = .prompt) (text : strTrim line ≠ [])
      (plain : slashHandle (strTrim line) s.template = none) :
      Step cj registry s (.typed line) { s with pc := .posted (strTrim line) }
  | store : Step cj registry s (.store disk category key value)
      { s with fs := (memoryStore disk s.fs s.mem category key value).2 }
  | looked (pc : s.pc = .posted text)
      (made : sessionGetOrCreate agentFactory s.sessions s.template cliChannel cliChat tEvict tCreate
        = (res, sm, template)) :
      Step cj registry s .looked
        { s with
          sessions := sm
          template := template
          pc := res.elim .answered (fun i => .chatting i text .idle) }
  | chat (pc : s.pc = .chatting i text q) (owner : (s.sessions.slots i).agent = some agent)
      (talk : AgentLoop.Step cj registry ⟨agent, q⟩ e c) (begins : Begins text e) :
      Step cj registry s (.chat e)
        { s.setAgent i c.agent with
          old := oldAfter ⟨agent, q⟩ e s.old
          pc := if e.returned.isSome then .releasing i else .chatting i text c.pc }
  | released (pc : s.pc = .releasing i) :
      Step cj registry s .released
        { s with sessions := sessionRelease s.sessions i now, pc := .answered }
  | refreshed (pc : s.pc = .answered) :
      Step cj registry s (.refreshed (readMemoryFile s.fs s.mem))
        { s with template := refreshMemory s.fs s.mem s.memorySlot s.template, pc := .prompt }

end Dobby.Cli
