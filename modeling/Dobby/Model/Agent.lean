import Dobby.Base.Cjson
import Dobby.Base.Pairing

namespace Dobby.AgentLoop
open CString

/-- `MAX_MESSAGES`, the size of the array. -/
def maxMessagesHard : Nat := 128

/-- The format flags of a provider that `build_messages_json` reads. -/
structure MsgFormat where
  toolResultIncludeName : Bool
  assistantToolCallEmptyContent : Bool
  toolArgsAsObject : Bool

/-- `cJSON_Parse` and `cJSON_PrintUnformatted`. -/
structure Codec where
  parse : Str → Option Json
  print : Json → Str

/-- `message_t`. `fresh` is not in the source: it tells the messages that the
running call of `agent_chat` has added from the older ones. -/
structure Message where
  role : Str
  content : Str
  toolCallId : Option Str
  name : Option Str
  toolCalls : Option Json
  fresh : Bool

structure Agent where
  messages : List Message
  maxMessages : Int
  maxIterations : Int
  systemParts : List Str
  fmt : MsgFormat

def Agent.limit (a : Agent) : Nat :=
  if 0 < a.maxMessages ∧ a.maxMessages ≤ maxMessagesHard then a.maxMessages.toNat else maxMessagesHard

def messageHasToolCalls (m : Message) : Bool :=
  match m.toolCalls with
  | some calls => decide (0 < calls.getArraySize)
  | none => false

/-- The loop of `agent_compact_history` that walks the cut back over messages
with tool calls, down to index 2. -/
def walkBack (messages : List Message) : Nat → Nat
  | 0 => 0
  | n + 1 =>
    if 2 < n + 1 ∧ (messages[n]?.any messageHasToolCalls) = true then walkBack messages n else n + 1

/-- The index of the first message that compaction keeps behind the system message. -/
def Agent.cutEnd (a : Agent) : Nat :=
  walkBack a.messages (min (1 + max 1 (a.limit / 4)) a.messages.length)

def agentCompactHistory (a : Agent) : Agent :=
  if a.cutEnd ≤ 1 then a
  else { a with messages := a.messages.take 1 ++ a.messages.drop a.cutEnd }

def agentAddMessage (a : Agent) (role : Str) (content toolCallId name : Option Str)
    (toolCalls : Option Json) : Agent :=
  let a := if a.limit ≤ a.messages.length then agentCompactHistory a else a
  { a with messages := a.messages ++ [⟨role, content.getD [], toolCallId, name, toolCalls, true⟩] }

/-- A created agent has an empty history too. -/
def agentNewConversation (a : Agent) : Agent := { a with messages := [] }

def buildSystemPrompt (a : Agent) : Str := a.systemParts.flatMap (fun part => part ++ ['\n', '\n'])

/-- The arguments of a call as the provider wants them, an object or a string. -/
def wireArguments (cj : Codec) (fmt : MsgFormat) (args : Option Json) : Json :=
  if fmt.toolArgsAsObject then
    match args with
    | some (.string text) => (cj.parse text).getD (.object [])
    | some args => args
    | none => .object []
  else
    match args with
    | some (.string text) => .string text
    | some args => .string (cj.print args)
    | none => .string "{}".toList

def member (name : Str) (value : Option Str) : List (Str × Json) :=
  (value.map (fun v => (name, Json.string v))).toList

/-- One entry of `tool_calls`. Entries without a function are left out. -/
def wireCall (cj : Codec) (fmt : MsgFormat) (tc : Json) : Option Json :=
  (tc.getObjectItem "function".toList).map fun func =>
    .object (member "id".toList (tc.field "id".toList) ++
      [("type".toList, .string "function".toList),
        ("function".toList, .object (member "name".toList (func.field "name".toList) ++
          [("arguments".toList, wireArguments cj fmt (func.getObjectItem "arguments".toList))]))])

def isAssistantToolOnly (m : Message) : Bool :=
  m.role == "assistant".toList && messageHasToolCalls m && m.content.isEmpty

def wireContent (fmt : MsgFormat) (m : Message) : List (Str × Json) :=
  if isAssistantToolOnly m then
    if fmt.assistantToolCallEmptyContent then [("content".toList, .string [])] else []
  else [("content".toList, .string m.content)]

def wireResult (fmt : MsgFormat) (m : Message) : List (Str × Json) :=
  if m.role == "tool".toList then
    member "tool_call_id".toList m.toolCallId ++
      if fmt.toolResultIncludeName then member "name".toList m.name else []
  else []

def wireMessage (cj : Codec) (fmt : MsgFormat) (m : Message) : Json :=
  .object (("role".toList, .string m.role) :: wireContent fmt m ++ wireResult fmt m ++
    (m.toolCalls.map fun calls =>
      ("tool_calls".toList, Json.array (calls.children.filterMap (wireCall cj fmt)))).toList)

def buildMessagesJson (cj : Codec) (a : Agent) : Json :=
  .array (a.messages.map (wireMessage cj a.fmt))

def agentPopLastMessage (messages : List Message) : List Message := messages.dropLast

/-- The loops that roll a failed turn back. -/
def rollBack (preTurnCount : Nat) (messages : List Message) : List Message :=
  if preTurnCount < messages.length then rollBack preTurnCount (agentPopLastMessage messages)
  else messages
termination_by messages.length
decreasing_by
  rw [agentPopLastMessage, List.length_dropLast]
  omega

/-- The loop of `strip_think_tags` from `p` on. -/
def stripFrom (p : Str) : Str :=
  if _hp : p = [] then []
  else match _hs : strstr "<think>".toList p with
    | none => p
    | some start =>
      p.take (p.length - start.length) ++
        match _he : strstr "</think>".toList (start.drop 7) with
        | none => []
        | some tail => stripFrom (tail.drop 8)
termination_by p.length
decreasing_by
  have h₁ := strstr_length _hs
  have h₂ := strstr_length _he
  have h₃ := List.length_pos_of_ne_nil _hp
  simp only [List.length_drop] at h₂ ⊢
  omega

def stripThinkTags (input : Option Str) : Option Str := input.map (fun s => strTrim (stripFrom s))

/-- `parse_tool_arguments`. -/
def parseToolArguments (cj : Codec) (func : Option Json) : Json :=
  match func.bind (fun f => f.getObjectItem "arguments".toList) with
  | none => .object []
  | some (.string text) =>
    if text = [] ∨ text = "{}".toList then .object [] else (cj.parse text).getD (.object [])
  | some args => args

/-- Where `agent_chat` stands: between calls, about to test the loop with what
`pre_turn_count` and `iter` hold, or running the calls of a response. -/
inductive Pc where
  | idle
  | asking (preTurnCount : Nat) (iter : Int)
  | running (preTurnCount : Nat) (iter : Int) (calls : List Json)

structure Chat where
  agent : Agent
  pc : Pc

def Message.settle (m : Message) : Message := { m with fresh := false }

/-- The agent with its system message, as `agent_chat` finds or makes it. -/
def Agent.ready (a : Agent) : Agent :=
  let a := if a.messages.length = 0 then
      agentAddMessage a "system".toList (some (buildSystemPrompt a)) none none none
    else a
  { a with messages := a.messages.map Message.settle }

def toolName (tc : Json) : Option Str :=
  (tc.getObjectItem "function".toList).bind (fun func => func.field "name".toList)

def unknownTool : Str := "\x7b\"error\": \"Unknown tool\"\x7d".toList

/-- The provider calls carry the request that went out. -/
inductive Event where
  | refused
  | began (text : Str)
  | failed (request : Json) (error : Str)
  | called (request : Json) (content : Option Str) (toolCalls : Json)
  | answered (request : Json) (content : Str)
  | ran (tc args : Json) (result : Option Str)
  | unknown (tc : Json)
  | looped
  | exhausted

/-- `tool_find` comes back without a tool. Given no name it only does where no tool is
registered, as `strcmp` takes no null pointer. -/
def FindsNone (registry : Str → Bool) : Option Str → Prop
  | some tool => registry tool = false
  | none => ∀ tool, registry tool = false

/-- One stretch of `agent_chat` between two answers of the provider or a tool,
which may be anything. -/
inductive Step (cj : Codec) (registry : Str → Bool) : Chat → Event → Chat → Prop where
  | refused (pc : c.pc = .idle) : Step cj registry c .refused c
  | began (pc : c.pc = .idle) (nonempty : text ≠ []) :
      Step cj registry c (.began text)
        ⟨agentAddMessage c.agent.ready "user".toList (some text) none none none,
          .asking c.agent.ready.messages.length 0⟩
  | failed (pc : c.pc = .asking pre iter) (more : iter < c.agent.maxIterations) :
      Step cj registry c (.failed (buildMessagesJson cj c.agent) error)
        ⟨{ c.agent with messages := rollBack pre c.agent.messages }, .idle⟩
  | called (pc : c.pc = .asking pre iter) (more : iter < c.agent.maxIterations)
      (some : 0 < toolCalls.getArraySize) :
      Step cj registry c (.called (buildMessagesJson cj c.agent) content toolCalls)
        ⟨agentAddMessage c.agent "assistant".toList (stripThinkTags content) none none
          (.some toolCalls), .running pre iter toolCalls.children⟩
  -- a null content would end the process in `strdup`
  | answered (pc : c.pc = .asking pre iter) (more : iter < c.agent.maxIterations) :
      Step cj registry c (.answered (buildMessagesJson cj c.agent) content)
        ⟨agentAddMessage c.agent "assistant".toList (stripThinkTags (some content)) none none none,
          .idle⟩
  | ran (pc : c.pc = .running pre iter (tc :: rest)) (name : toolName tc = some tool)
      (known : registry tool = true) :
      Step cj registry c
        (.ran tc (parseToolArguments cj (tc.getObjectItem "function".toList)) result)
        ⟨agentAddMessage c.agent "tool".toList result (tc.field "id".toList) (toolName tc) none,
          .running pre iter rest⟩
  | unknown (pc : c.pc = .running pre iter (tc :: rest))
      (unknown : FindsNone registry (toolName tc)) :
      Step cj registry c (.unknown tc)
        ⟨agentAddMessage c.agent "tool".toList (some unknownTool) (tc.field "id".toList)
          (toolName tc) none, .running pre iter rest⟩
  | looped (pc : c.pc = .running pre iter []) :
      Step cj registry c .looped ⟨c.agent, .asking pre (iter + 1)⟩
  | exhausted (pc : c.pc = .asking pre iter) (done : c.agent.maxIterations ≤ iter) :
      Step cj registry c .exhausted
        ⟨{ c.agent with messages := rollBack pre c.agent.messages }, .idle⟩

/-- What `agent_chat` returns, at the events that end it. -/
def Event.returned : Event → Option Str
  | .refused => some "[Error: empty message]".toList
  | .failed _ error => some error
  | .answered _ content => stripThinkTags (some content)
  | .exhausted => some "[Dobby: max tool iterations reached. Please try again.]".toList
  | _ => none

def Event.request : Event → Option Json
  | .failed request _ | .called request _ _ | .answered request _ => some request
  | _ => none

end Dobby.AgentLoop
