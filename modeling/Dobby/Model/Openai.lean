import Dobby.Model.Ollama

namespace Dobby.Openai
open CString AgentLoop Ollama

/-- `http_response_t`. -/
structure HttpResponse where
  statusCode : Nat
  body : Option Str
  error : Option Str

/-- A string item that is not empty. -/
def textItem (j : Json) (name : Str) : Option Str := (j.field name).filter (fun s => s ≠ [])

def fgId (counter : Nat) : Str := snprintf 32 ("fg_".toList ++ Nat.toDigits 10 counter)

/-- The arguments of an entry. Weak models call them parameters. -/
def entryArguments (entry : Json) : Option Json :=
  (entry.getObjectItem "arguments".toList).or (entry.getObjectItem "parameters".toList)

/-- The text of the arguments, as it is or printed. -/
def entryText (cj : Codec) : Option Json → Str
  | none | some .null => "{}".toList
  | some (.string text) => text
  | some args => cj.print args

def recoveredCall (cj : Codec) (callId name : Str) (entry : Json) : Json :=
  .object [("id".toList, .string callId), ("type".toList, .string "function".toList),
    ("function".toList, .object [("name".toList, .string name),
      ("arguments".toList, .string (entryText cj (entryArguments entry)))])]

/-- The loop over the entries of an array, which an entry without a name ends. -/
def normalizeEntries (cj : Codec) (fgCounter : Nat) : List Json → Option (List Json) × Nat
  | [] => (some [], fgCounter)
  | entry :: rest =>
    match entry.field "name".toList with
    | none => (none, fgCounter)
    | some name =>
      let next := (fgCounter + 1) % 2 ^ 32
      let normalized := normalizeEntries cj next rest
      (normalized.1.map (recoveredCall cj (fgId next) name entry :: ·), normalized.2)

/-- The search for an array of calls, at each bracket of the text. The source deletes an
array that it rejects twice. What such a process does after that is not followed. -/
def recoverCalls (cj : Codec) (fgCounter : Nat) : Str → Option (List Json) × Nat
  | [] => (none, fgCounter)
  | c :: rest =>
    if c = '[' then
      match cj.parse (c :: rest) with
      | some (.array (entry :: entries)) =>
        match normalizeEntries cj fgCounter (entry :: entries) with
        | (some calls, counter) => (some calls, counter)
        | (none, counter) => recoverCalls cj counter rest
      | _ => recoverCalls cj fgCounter rest
    else recoverCalls cj fgCounter rest

/-- The text in which the calls of a model got lost. -/
def failedGeneration (errJson : Json) : Option Str :=
  (errJson.getObjectItem "error".toList).bind fun errObj =>
    if errObj.field "code".toList = some "tool_use_failed".toList then
      errObj.field "failed_generation".toList
    else none

/-- The message of an error body: of the upstream provider, of the provider, of the body. -/
def bestError (errJson : Json) : Option Str :=
  let errObj := errJson.getObjectItem "error".toList
  let raw := (errObj.bind (fun e => e.getObjectItem "metadata".toList)).bind
    (fun metadata => textItem metadata "raw".toList)
  (raw.or (errObj.bind (fun e => textItem e "message".toList))).or
    (textItem errJson "message".toList)

def httpError (statusCode : Nat) (baseUrl : Str) : Str :=
  snprintf 256 ("HTTP ".toList ++ (Nat.toDigits 10 statusCode ++ (" from ".toList ++ baseUrl)))

def failedResponse (cj : Codec) (baseUrl : Str) (fgCounter : Nat) (http : HttpResponse) :
    LlmResponse × Nat :=
  let error := httpError http.statusCode baseUrl
  match http.body.bind cj.parse with
  | none => (⟨none, none, some error⟩, fgCounter)
  | some errJson =>
    let best := (bestError errJson).getD error
    match failedGeneration errJson with
    | none => (⟨none, none, some best⟩, fgCounter)
    | some generation =>
      match recoverCalls cj fgCounter generation with
      | (some calls, counter) => (⟨none, some (.array calls), none⟩, counter)
      | (none, counter) => (⟨none, none, some best⟩, counter)

/-- The text of the arguments in an answer, as it is or printed. -/
def argumentsText (cj : Codec) : Option Json → Str
  | none => "{}".toList
  | some (.string text) => text
  | some args => cj.print args

def stringItem (name : Str) (text : Option Str) : List (Str × Json) :=
  text.toList.map (fun s => (name, .string s))

/-- One entry of the answer. The id and the name are copied if there are any. -/
def normalizeCall (cj : Codec) (tc : Json) : Option Json :=
  (tc.getObjectItem "function".toList).map fun func =>
    .object (stringItem "id".toList (tc.field "id".toList) ++
      [("type".toList, .string "function".toList),
        ("function".toList, .object (stringItem "name".toList (func.field "name".toList) ++
          [("arguments".toList,
            .string (argumentsText cj (func.getObjectItem "arguments".toList)))]))])

/-- The message of the first choice. -/
def choiceMessage (json : Json) : Option Json :=
  match json.getObjectItem "choices".toList with
  | some (.array (choice :: _)) => choice.getObjectItem "message".toList
  | _ => none

def extractMessage (cj : Codec) (message : Json) : LlmResponse :=
  let content := textItem message "content".toList
  match message.getObjectItem "tool_calls".toList with
  | some (.array (tc :: rest)) =>
    let normalized := (tc :: rest).filterMap (normalizeCall cj)
    ⟨content, if normalized = [] then none else some (.array normalized), none⟩
  | _ => ⟨content, none, none⟩

def succeededResponse (cj : Codec) (http : HttpResponse) : LlmResponse :=
  match http.body.bind cj.parse with
  | none => ⟨none, none, some "Failed to parse JSON response".toList⟩
  | some json =>
    match choiceMessage json with
    | none => ⟨none, none, some "No choices in response".toList⟩
    | some message => extractMessage cj message

/-- `openai_chat_complete` from the answer of the server on. The counter of recovered calls
outlives it. -/
def openaiChatComplete (cj : Codec) (baseUrl : Str) (fgCounter : Nat) (http : HttpResponse) :
    LlmResponse × Nat :=
  match http.error with
  | some text => (⟨none, none, some text⟩, fgCounter)
  | none =>
    if http.statusCode < 200 ∨ 300 ≤ http.statusCode then failedResponse cj baseUrl fgCounter http
    else (succeededResponse cj http, fgCounter)

/-- How often each tree that `cJSON_Parse` returned has been deleted. The number of a tree
is its place in the list. -/
structure Trees where
  deletes : List Nat

def Trees.parsed (trees : Trees) : Trees := ⟨trees.deletes ++ [0]⟩

/-- `cJSON_Delete`. -/
def Trees.delete (trees : Trees) (tree : Nat) : Trees := ⟨trees.deletes.modify tree (· + 1)⟩

/-- The loop of `recoverCalls` with its trees. A rejected array is deleted behind the loop over
its entries and again behind the block that is for arrays. -/
def recoverTrees (cj : Codec) (fgCounter : Nat) (trees : Trees) : Str → Option (List Json) × Nat × Trees
  | [] => (none, fgCounter, trees)
  | c :: rest =>
    if c = '[' then
      match cj.parse (c :: rest) with
      | none => recoverTrees cj fgCounter trees rest
      | some parsed =>
        let tree := trees.deletes.length
        match parsed with
        | .array (entry :: entries) =>
          match normalizeEntries cj fgCounter (entry :: entries) with
          | (some calls, counter) => (some calls, counter, trees.parsed.delete tree)
          | (none, counter) =>
            recoverTrees cj counter ((trees.parsed.delete tree).delete tree) rest
        | _ => recoverTrees cj fgCounter (trees.parsed.delete tree) rest
    else recoverTrees cj fgCounter trees rest

/-- The trees that `failedResponse` leaves. The error body is the first one. -/
def failedTrees (cj : Codec) (fgCounter : Nat) (http : HttpResponse) : Trees :=
  match http.body.bind cj.parse with
  | none => ⟨[]⟩
  | some errJson =>
    let trees := Trees.parsed ⟨[]⟩
    match failedGeneration errJson with
    | none => trees.delete 0
    | some generation => (recoverTrees cj fgCounter trees generation).2.2.delete 0

end Dobby.Openai
