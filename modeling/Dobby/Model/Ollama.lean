import Dobby.Model.Agent

namespace Dobby.Ollama
open CString AgentLoop

/-- The format flags that `ollama_create` sets. -/
def ollamaFormat : MsgFormat where
  toolResultIncludeName := true
  assistantToolCallEmptyContent := false
  toolArgsAsObject := true

structure LlmResponse where
  content : Option Str
  toolCalls : Option Json
  error : Option Str

/-- The arguments of a call as a JSON text, unless that text does not parse. -/
def argumentsText (cj : Codec) : Option Json → Option Str
  | none => some "{}".toList
  | some (.string text) => if (cj.parse text).isSome then some text else none
  | some args => if (cj.parse (cj.print args)).isSome then some (cj.print args) else none

/-- One entry of the response under its new id, unless it is skipped. -/
def normalizeCall (cj : Codec) (callId : Str) (tc : Json) : Option Json :=
  match tc.getObjectItem "function".toList with
  | none => none
  | some func =>
    match func.field "name".toList with
    | none | some [] => none
    | some (c :: cs) =>
      (argumentsText cj (func.getObjectItem "arguments".toList)).map fun args =>
        .object [("id".toList, .string callId), ("type".toList, .string "function".toList),
          ("function".toList, .object [("name".toList, .string (c :: cs)),
            ("arguments".toList, .string args)])]

def callId (counter : Nat) : Str := snprintf 32 ("call_".toList ++ Nat.toDigits 10 counter)

/-- The loop over the calls of a response. The counter outlives it. -/
def normalizeCalls (cj : Codec) (callCounter : Nat) : List Json → List Json
  | [] => []
  | tc :: rest =>
    let next := (callCounter + 1) % 2 ^ 32
    match normalizeCall cj (callId next) tc with
    | none => normalizeCalls cj callCounter rest
    | some call => call :: normalizeCalls cj next rest

/-- The dash is three bytes. -/
def stoppedEarly (doneReason : Str) : Str :=
  snprintf 128 ("Generation stopped early (done_reason: ".toList ++ doneReason ++
    ") \u00e2\u0080\u0094 try a shorter prompt or a model with a larger context window".toList)

def invalidCalls : Str :=
  ("Model requested tool calls but all had invalid arguments. ".toList ++
    "Try rephrasing your request.".toList)

/-- The `done_reason` of a response that ended in another way than a stop. -/
def truncatedBy (json : Json) : Option Str :=
  match json.field "done_reason".toList with
  | none => none
  | some reason => if reason = "stop".toList ∨ reason = "tool_calls".toList then none else some reason

/-- The `tool_calls` of the message, whatever they are. -/
def messageCalls (json : Json) : Option Json :=
  (json.getObjectItem "message".toList).bind (fun message => message.getObjectItem "tool_calls".toList)

/-- The message part of `ollama_chat_complete`. -/
def extractMessage (cj : Codec) (callCounter : Nat) (message : Json) : LlmResponse :=
  let content := message.field "content".toList
  match message.getObjectItem "tool_calls".toList with
  | some (.array (tc :: rest)) =>
    let normalized := normalizeCalls cj callCounter (tc :: rest)
    if normalized = [] then
      ⟨content, none, if content.isNone then some invalidCalls else none⟩
    else ⟨content, some (.array normalized), none⟩
  | _ => ⟨content, none, none⟩

/-- `ollama_chat_complete` from the answer of the server on, an error text or a body. -/
def ollamaChatComplete (cj : Codec) (callCounter : Nat) (http : Except Str Str) : LlmResponse :=
  match http with
  | .error text => ⟨none, none, some text⟩
  | .ok body =>
    match cj.parse body with
    | none => ⟨none, none, some "Failed to parse Ollama response (invalid JSON)".toList⟩
    | some json =>
      match json.field "error".toList, truncatedBy json with
      | some text, _ => ⟨none, none, some text⟩
      | none, some reason =>
        if (messageCalls json).any (fun calls => 0 < calls.getArraySize) then
          ⟨none, none, some (stoppedEarly reason)⟩
        else ((json.getObjectItem "message".toList).map (extractMessage cj callCounter)).getD
          ⟨none, none, none⟩
      | none, none => ((json.getObjectItem "message".toList).map (extractMessage cj callCounter)).getD
          ⟨none, none, none⟩

end Dobby.Ollama
