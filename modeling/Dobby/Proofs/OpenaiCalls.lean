import Mathlib.Data.List.Infix
import Dobby.Model.Openai
import Dobby.Proofs.OllamaNormal

namespace Dobby.Openai
open CString AgentLoop Ollama

/-- What the tool loop expects of a call: an id, the name of a tool and arguments that
are the text of a value. -/
structure Expected (cj : Codec) (call : Json) : Prop where
  id : ∃ id, call.field "id".toList = some id
  name : ∃ name, toolName call = some name
  arguments : ∃ text, argumentsItem call = some (.string text) ∧ (cj.parse text).isSome = true

/-- What `cJSON_Parse` and `cJSON_PrintUnformatted` are assumed to do here: `{}` is the text
of a value, and so is what is printed of any value in a tree that was parsed. -/
structure Reprints (cj : Codec) : Prop where
  empty : (cj.parse "{}".toList).isSome = true
  printed : ∀ text root, cj.parse text = some root → ∀ j, root.Within j →
    (cj.parse (cj.print j)).isSome = true

/-- An entry of an answer that has a function has an id, a name and usable arguments. -/
def complete (cj : Codec) (tc : Json) : Bool :=
  match tc.getObjectItem "function".toList with
  | none => true
  | some func => (tc.field "id".toList).isSome && (func.field "name".toList).isSome &&
      usable cj (func.getObjectItem "arguments".toList)

/-- The items of `tool_calls` in the message of the first choice, if that is an array. -/
def sentCalls (json : Json) : List Json :=
  match (choiceMessage json).bind (fun message => message.getObjectItem "tool_calls".toList) with
  | some (.array items) => items
  | _ => []

/-- The array at the start of a text, if it has items and all of them have a name. -/
def namedArray (cj : Codec) (s : Str) : Option (List Json) :=
  match cj.parse s with
  | some (.array (entry :: entries)) =>
    if ∀ e ∈ entry :: entries, (e.field "name".toList).isSome = true then some (entry :: entries)
    else none
  | _ => none

/-- The first such array at a bracket of the text. -/
def firstNamed (cj : Codec) (text : Str) : Option (List Json) :=
  (text.tails.filter (fun s => s.head? = some '[')).findSome? (namedArray cj)

def HttpResponse.succeeded (http : HttpResponse) : Prop :=
  200 ≤ http.statusCode ∧ http.statusCode < 300

/-- An answer whose calls are as expected: those of a success are complete, and those in
the text of a failed generation have usable arguments. -/
structure Wellformed (cj : Codec) (http : HttpResponse) : Prop where
  sent : http.error = none → http.succeeded → ∀ json, http.body.bind cj.parse = some json →
    ∀ tc ∈ sentCalls json, complete cj tc = true
  recovered : http.error = none → ¬ http.succeeded → ∀ errJson,
    http.body.bind cj.parse = some errJson → ∀ text, failedGeneration errJson = some text →
      ∀ entries, firstNamed cj text = some entries →
        ∀ entry ∈ entries, usable cj (entryArguments entry) = true

/-- A tool that runs for an expected call gets the value that its arguments are the text of. -/
theorem Expected.executed {cj : Codec} {call : Json} (h : Expected cj call)
    (hblank : cj.parse [] = none) (hempty : cj.parse "{}".toList = some (.object [])) :
    ∃ text, argumentsItem call = some (.string text) ∧
      cj.parse text = some (executedArguments cj call) := by
  obtain ⟨text, hitem, hparse⟩ := h.arguments
  obtain ⟨args, hargs⟩ := Option.isSome_iff_exists.mp hparse
  refine ⟨text, hitem, ?_⟩
  unfold argumentsItem at hitem
  unfold executedArguments parseToolArguments
  rw [hitem]
  dsimp only
  split
  · rename_i hor
    rcases hor with rfl | rfl
    · rw [hblank] at hparse
      cases hparse
    · exact hempty
  · rw [hargs, Option.getD_some]

section Call

variable (cj : Codec)

/-- A call in a response, with the parts that it has. -/
def builtCall (id name : Option Str) (text : Str) : Json :=
  .object (stringItem "id".toList id ++ [("type".toList, .string "function".toList),
    ("function".toList, .object (stringItem "name".toList name ++
      [("arguments".toList, .string text)]))])

theorem builtCall_expected (id name : Option Str) (text : Str) :
    Expected cj (builtCall id name text) ↔
      id.isSome = true ∧ name.isSome = true ∧ (cj.parse text).isSome = true := by
  have hid : (builtCall id name text).field "id".toList = id := by
    cases id <;> rfl
  have hname : toolName (builtCall id name text) = name := by
    cases id <;> cases name <;> rfl
  have harguments : argumentsItem (builtCall id name text) = some (.string text) := by
    cases id <;> cases name <;> rfl
  constructor
  · intro h
    obtain ⟨i, hi⟩ := h.id
    obtain ⟨n, hn⟩ := h.name
    obtain ⟨t, ht, hparse⟩ := h.arguments
    rw [hid] at hi
    rw [hname] at hn
    rw [harguments] at ht
    cases ht
    simp [hi, hn, hparse]
  · rintro ⟨hi, hn, hparse⟩
    obtain ⟨i, rfl⟩ := Option.isSome_iff_exists.mp hi
    obtain ⟨n, rfl⟩ := Option.isSome_iff_exists.mp hn
    exact ⟨⟨i, hid⟩, ⟨n, hname⟩, ⟨text, harguments, hparse⟩⟩

variable {cj} (hcj : Reprints cj) {text : Str} {root : Json} (hroot : cj.parse text = some root)
include hcj hroot

/-- Both texts of the arguments are the text of a value exactly if these are usable. -/
theorem argumentsText_parses (item : Option Json) (hitem : ∀ args ∈ item, root.Within args) :
    (cj.parse (argumentsText cj item)).isSome = usable cj item := by
  cases item with
  | none => exact hcj.empty
  | some args =>
    have hprinted := hcj.printed text root hroot args (hitem args rfl)
    cases args with
    | string s => rfl
    | _ => exact hprinted

theorem entryText_parses (item : Option Json) (hitem : ∀ args ∈ item, root.Within args) :
    (cj.parse (entryText cj item)).isSome = usable cj item := by
  cases item with
  | none => exact hcj.empty
  | some args =>
    have hprinted := hcj.printed text root hroot args (hitem args rfl)
    cases args with
    | null => exact hcj.empty
    | string s => rfl
    | _ => exact hprinted

/-- An entry becomes an expected call exactly if it is complete. -/
theorem normalizeCall_expected {tc : Json} (htc : root.Within tc) :
    (∀ call, normalizeCall cj tc = some call → Expected cj call) ↔ complete cj tc = true := by
  unfold normalizeCall complete
  cases hfunc : tc.getObjectItem "function".toList with
  | none => simp
  | some func =>
    have hparses := argumentsText_parses hcj hroot (func.getObjectItem "arguments".toList)
      fun args hargs => (htc.getObjectItem hfunc).getObjectItem hargs
    have hbuilt := builtCall_expected cj (tc.field "id".toList) (func.field "name".toList)
      (argumentsText cj (func.getObjectItem "arguments".toList))
    rw [hparses] at hbuilt
    rw [Option.map_some, Bool.and_eq_true, Bool.and_eq_true, and_assoc]
    constructor
    · intro h
      exact hbuilt.mp (h _ rfl)
    · intro h call hcall
      cases hcall
      exact hbuilt.mpr h

end Call

section Sent

variable {cj : Codec} (hcj : Reprints cj) {text : Str} {json : Json}
  (hjson : cj.parse text = some json)

theorem sentCalls_within {json tc : Json} (h : tc ∈ sentCalls json) : json.Within tc := by
  unfold sentCalls at h
  split at h
  · rename_i items hitems
    obtain ⟨message, hmessage, hcalls⟩ := Option.bind_eq_some_iff.mp hitems
    have hwithin : json.Within message := by
      unfold choiceMessage at hmessage
      split at hmessage
      · rename_i choice rest hchoices
        have hchoice : json.Within choice :=
          (Json.Within.root.getObjectItem hchoices).child List.mem_cons_self
        exact hchoice.getObjectItem hmessage
      · cases hmessage
    exact (hwithin.getObjectItem hcalls).child h
  · cases h

theorem extractMessage_returned {message : Json} (hmessage : choiceMessage json = some message) :
    returnedCalls (extractMessage cj message) = (sentCalls json).filterMap (normalizeCall cj) := by
  unfold extractMessage sentCalls
  rw [hmessage, Option.bind_some]
  split
  · rename_i tc rest hcalls
    rw [hcalls]
    dsimp only
    exact attached_children _
  · rename_i hcalls
    split
    · rename_i items hitems
      cases items with
      | nil => rfl
      | cons tc rest => exact absurd hitems (hcalls tc rest)
    · rfl

include hcj hjson

theorem sent_expected :
    (∀ call ∈ (sentCalls json).filterMap (normalizeCall cj), Expected cj call) ↔
      ∀ tc ∈ sentCalls json, complete cj tc = true := by
  constructor
  · intro h tc htc
    refine (normalizeCall_expected hcj hjson (sentCalls_within htc)).mp ?_
    intro call hcall
    exact h call (List.mem_filterMap.mpr ⟨tc, htc, hcall⟩)
  · intro h call hmem
    obtain ⟨tc, htc, hcall⟩ := List.mem_filterMap.mp hmem
    exact (normalizeCall_expected hcj hjson (sentCalls_within htc)).mpr (h tc htc) call hcall

end Sent

/-- The call is the one that the recovery makes of the entry, under some id. -/
def RecoveredAs (cj : Codec) (entry call : Json) : Prop :=
  ∃ id name, entry.field "name".toList = some name ∧ call = recoveredCall cj id name entry

section Recovered

variable (cj : Codec)

/-- The loop makes a call of every entry if all entries have a name. -/
theorem normalizeEntries_named {entries : List Json}
    (hnamed : ∀ e ∈ entries, (e.field "name".toList).isSome = true) (counter : Nat) :
    ∃ calls, (normalizeEntries cj counter entries).1 = some calls ∧
      List.Forall₂ (RecoveredAs cj) entries calls := by
  induction entries generalizing counter with
  | nil => exact ⟨[], rfl, .nil⟩
  | cons entry rest ih =>
    obtain ⟨hentry, hrest⟩ := List.forall_mem_cons.mp hnamed
    obtain ⟨name, hname⟩ := Option.isSome_iff_exists.mp hentry
    obtain ⟨calls, hcalls, hforall⟩ := ih hrest ((counter + 1) % 2 ^ 32)
    rw [normalizeEntries, hname]
    dsimp only
    rw [hcalls]
    exact ⟨_, rfl, .cons ⟨_, name, hname, rfl⟩ hforall⟩

/-- It makes none if an entry has no name. -/
theorem normalizeEntries_nameless {entries : List Json}
    (hnameless : ¬ ∀ e ∈ entries, (e.field "name".toList).isSome = true) (counter : Nat) :
    (normalizeEntries cj counter entries).1 = none := by
  induction entries generalizing counter with
  | nil => exact absurd (List.forall_mem_nil _) hnameless
  | cons entry rest ih =>
    rw [normalizeEntries]
    cases hname : entry.field "name".toList with
    | none => rfl
    | some name =>
      dsimp only
      rw [ih ?_ _]
      · rfl
      · intro hrest
        refine hnameless (List.forall_mem_cons.mpr ⟨?_, hrest⟩)
        rw [hname]
        rfl

theorem firstNamed_cons (c : Char) (rest : Str) :
    firstNamed cj (c :: rest) =
      if c = '[' then (namedArray cj (c :: rest)).or (firstNamed cj rest) else firstNamed cj rest := by
  unfold firstNamed
  rw [List.tails_cons, List.filter_cons, List.head?_cons]
  by_cases hc : c = '['
  · simp only [hc, decide_true, if_true, List.findSome?_cons]
    cases namedArray cj ('[' :: rest) <;> rfl
  · rw [if_neg hc, if_neg (by simp [hc])]

/-- The recovery takes the first array with named items. -/
theorem recoverCalls_first (counter : Nat) (text : Str) :
    (firstNamed cj text = none ∧ (recoverCalls cj counter text).1 = none) ∨
      ∃ entries calls, firstNamed cj text = some entries ∧
        (recoverCalls cj counter text).1 = some calls ∧
        List.Forall₂ (RecoveredAs cj) entries calls := by
  induction text generalizing counter with
  | nil => exact .inl ⟨rfl, rfl⟩
  | cons c rest ih =>
    rw [firstNamed_cons, recoverCalls]
    split
    · rename_i hc
      unfold namedArray
      cases hparse : cj.parse (c :: rest) with
      | none => exact ih counter
      | some root =>
        cases root with
        | array items =>
          cases items with
          | nil => exact ih counter
          | cons entry entries =>
            dsimp only
            split
            · rename_i hnamed
              obtain ⟨calls, hcalls, hforall⟩ := normalizeEntries_named cj hnamed counter
              refine .inr ⟨_, calls, rfl, ?_, hforall⟩
              generalize normalizeEntries cj counter (entry :: entries) = normalized at hcalls ⊢
              obtain ⟨found, next⟩ := normalized
              cases hcalls
              rfl
            · rename_i hnameless
              have hnone := normalizeEntries_nameless cj hnameless counter
              generalize normalizeEntries cj counter (entry :: entries) = normalized at hnone ⊢
              obtain ⟨found, next⟩ := normalized
              cases hnone
              exact ih next
        | _ => exact ih counter
    · exact ih counter

theorem firstNamed_parsed {text : Str} {entries : List Json}
    (h : firstNamed cj text = some entries) : ∃ s, cj.parse s = some (.array entries) := by
  obtain ⟨s, -, hs⟩ := List.exists_of_findSome?_eq_some h
  refine ⟨s, ?_⟩
  unfold namedArray at hs
  split at hs
  · rename_i entry rest hparse
    split at hs
    · cases hs
      exact hparse
    · cases hs
  · cases hs

end Recovered

/-- The calls are found or the error is set, whatever becomes of the trees. -/
theorem failedResponse_calls {cj : Codec} {http : HttpResponse} {errJson : Json} {text : Str}
    (hbody : http.body.bind cj.parse = some errJson) (htext : failedGeneration errJson = some text)
    (baseUrl : Str) (fgCounter : Nat) :
    (∃ entries calls, firstNamed cj text = some entries ∧
        (failedResponse cj baseUrl fgCounter http).1.toolCalls = some (.array calls) ∧
        List.Forall₂ (RecoveredAs cj) entries calls) ∨
      firstNamed cj text = none ∧
        (failedResponse cj baseUrl fgCounter http).1.toolCalls = none ∧
        (failedResponse cj baseUrl fgCounter http).1.error ≠ none := by
  unfold failedResponse
  simp only [hbody, htext]
  have hfirst := recoverCalls_first cj fgCounter text
  generalize recoverCalls cj fgCounter text = recovered at hfirst ⊢
  obtain ⟨found, next⟩ := recovered
  rcases hfirst with ⟨hnone, rfl⟩ | ⟨entries, calls, hsome, rfl, hforall⟩
  · exact Or.inr ⟨hnone, rfl, by simp⟩
  · exact Or.inl ⟨entries, calls, hsome, rfl, hforall⟩

section Expected

variable {cj : Codec} (hcj : Reprints cj)
include hcj

/-- A recovered call is as expected exactly if the arguments of its entry are usable. -/
theorem recovered_expected {text : Str} {root entry call : Json} (hroot : cj.parse text = some root)
    (hentry : root.Within entry) (h : RecoveredAs cj entry call) :
    Expected cj call ↔ usable cj (entryArguments entry) = true := by
  obtain ⟨id, name, -, rfl⟩ := h
  have hwithin : ∀ args ∈ entryArguments entry, root.Within args := by
    intro args hargs
    rcases Option.or_eq_some_iff.mp hargs with hargs | ⟨-, hargs⟩
    · exact hentry.getObjectItem hargs
    · exact hentry.getObjectItem hargs
  change Expected cj (builtCall (some id) (some name) (entryText cj (entryArguments entry))) ↔ _
  rw [builtCall_expected, entryText_parses hcj hroot _ hwithin]
  simp

theorem allRecovered_expected {text : Str} {root : Json} (hroot : cj.parse text = some root)
    {entries calls : List Json} (hentries : ∀ e ∈ entries, root.Within e)
    (h : List.Forall₂ (RecoveredAs cj) entries calls) :
    (∀ call ∈ calls, Expected cj call) ↔
      ∀ e ∈ entries, usable cj (entryArguments e) = true := by
  induction h with
  | nil => simp
  | cons hcall hrest ih =>
    obtain ⟨hentry, hothers⟩ := List.forall_mem_cons.mp hentries
    rw [List.forall_mem_cons, List.forall_mem_cons, recovered_expected hcj hroot hentry hcall,
      ih hothers]

theorem succeededResponse_expected (http : HttpResponse) :
    (∀ call ∈ returnedCalls (succeededResponse cj http), Expected cj call) ↔
      ∀ json, http.body.bind cj.parse = some json →
        ∀ tc ∈ sentCalls json, complete cj tc = true := by
  unfold succeededResponse
  cases hbody : http.body.bind cj.parse with
  | none => simp [returnedCalls]
  | some json =>
    obtain ⟨body, -, hjson⟩ := Option.bind_eq_some_iff.mp hbody
    simp only [Option.some.injEq, forall_eq']
    cases hmessage : choiceMessage json with
    | none =>
      have hnil : sentCalls json = [] := by
        unfold sentCalls
        rw [hmessage]
        rfl
      simp [returnedCalls, hnil]
    | some message =>
      dsimp only
      rw [extractMessage_returned hmessage, sent_expected hcj hjson]

/-- What is returned of an answer that is no success. -/
theorem failedResponse_expected (baseUrl : Str) (fgCounter : Nat) (http : HttpResponse) :
    (∀ call ∈ returnedCalls (failedResponse cj baseUrl fgCounter http).1, Expected cj call) ↔
      ∀ errJson, http.body.bind cj.parse = some errJson →
        ∀ text, failedGeneration errJson = some text →
          ∀ entries, firstNamed cj text = some entries →
            ∀ entry ∈ entries, usable cj (entryArguments entry) = true := by
  cases hbody : http.body.bind cj.parse with
  | none => simp [failedResponse, hbody, returnedCalls]
  | some errJson =>
    cases hgen : failedGeneration errJson with
    | none => simp [failedResponse, hbody, returnedCalls, hgen]
    | some text =>
      rcases failedResponse_calls hbody hgen baseUrl fgCounter with
        ⟨entries, calls, hsome, hcalls, hforall⟩ | ⟨hnone, hcalls, -⟩
      · obtain ⟨s, hs⟩ := firstNamed_parsed cj hsome
        have hiff := allRecovered_expected hcj hs (fun e he => Json.Within.root.child he) hforall
        simpa [returnedCalls, hcalls, Json.children, hgen, hsome] using hiff
      · simp [returnedCalls, hcalls, hgen, hnone]

end Expected

/-- The calls of an answer, whatever its status and its body, are as the tool loop expects
them exactly if the answer is well-formed. -/
theorem returned_calls_expected_iff {cj : Codec} (hcj : Reprints cj) (baseUrl : Str)
    (fgCounter : Nat) (http : HttpResponse) :
    (∀ call ∈ returnedCalls (openaiChatComplete cj baseUrl fgCounter http).1, Expected cj call) ↔
      Wellformed cj http := by
  unfold openaiChatComplete
  cases herror : http.error with
  | some text =>
    have hwell : Wellformed cj http := ⟨by simp [herror], by simp [herror]⟩
    simp [returnedCalls, hwell]
  | none =>
    dsimp only
    by_cases hstatus : http.succeeded
    · rw [if_neg (by unfold HttpResponse.succeeded at hstatus; omega),
        succeededResponse_expected hcj]
      constructor
      · intro h
        exact ⟨fun _ _ => h, fun _ hfailed => absurd hstatus hfailed⟩
      · intro h
        exact h.sent herror hstatus
    · rw [if_pos (by unfold HttpResponse.succeeded at hstatus; omega),
        failedResponse_expected hcj]
      constructor
      · intro h
        exact ⟨fun _ hok => absurd hok hstatus, fun _ _ => h⟩
      · intro h
        exact h.recovered herror hstatus

/-- A parser and a printer for one answer. -/
def answerCodec (body : Str) (tree : Json) : Codec where
  parse s :=
    if s = "\x7b\x7d".toList then some (.object [])
    else if s = body then some tree
    else none
  print _ := "\x7b\x7d".toList

theorem answerCodec_reprints (body : Str) (tree : Json) : Reprints (answerCodec body tree) :=
  ⟨rfl, fun _ _ _ _ _ => rfl⟩

/-- An answer with one call. -/
def answerJson (members : List (Str × Json)) : Json :=
  .object [("choices".toList, .array [.object [("message".toList, .object
    [("tool_calls".toList, .array [.object [("id".toList, .string "a".toList),
      ("function".toList, .object members)]])])]])]

def answerBody (members : Str) : Str :=
  "\x7b\"choices\":[\x7b\"message\":\x7b\"tool_calls\":[\x7b\"id\":\"a\",\"function\":".toList ++
    (members ++ "\x7d]\x7d\x7d]\x7d".toList)

def fullMembers : List (Str × Json) :=
  [("name".toList, .string "ls".toList), ("arguments".toList, .object [])]

def fullBody : Str := answerBody "\x7b\"name\":\"ls\",\"arguments\":\x7b\x7d\x7d".toList

theorem full_call_expected :
    ∃ call, returnedCalls (openaiChatComplete (answerCodec fullBody (answerJson fullMembers)) [] 0
        ⟨200, some fullBody, none⟩).1 = [call] ∧
      Expected (answerCodec fullBody (answerJson fullMembers)) call := by
  have hwell : Wellformed (answerCodec fullBody (answerJson fullMembers))
      ⟨200, some fullBody, none⟩ := by
    constructor
    · intro _ _ json hjson tc htc
      have hbody : (answerCodec fullBody (answerJson fullMembers)).parse fullBody =
          some (answerJson fullMembers) := rfl
      rw [Option.bind_some, hbody] at hjson
      cases hjson
      obtain rfl := List.mem_singleton.mp htc
      rfl
    · intro _ hfailed
      exact absurd (And.intro (by decide) (by decide)) hfailed
  have hcalls := (returned_calls_expected_iff (answerCodec_reprints _ _) [] 0 _).mpr hwell
  exact ⟨_, rfl, hcalls _ List.mem_cons_self⟩

def namelessMembers : List (Str × Json) := [("arguments".toList, .string "\x7b\x7d".toList)]

def namelessBody : Str := answerBody "\x7b\"arguments\":\"\x7b\x7d\"\x7d".toList

/-- A call without a name comes through. -/
theorem nameless_call_returned :
    Reprints (answerCodec namelessBody (answerJson namelessMembers)) ∧
      ∃ call ∈ returnedCalls (openaiChatComplete
        (answerCodec namelessBody (answerJson namelessMembers)) [] 0
        ⟨200, some namelessBody, none⟩).1,
        toolName call = none ∧
          ¬ Expected (answerCodec namelessBody (answerJson namelessMembers)) call := by
  refine ⟨answerCodec_reprints _ _, _, List.mem_cons_self, rfl, ?_⟩
  intro h
  obtain ⟨name, hname⟩ := h.name
  cases hname

end Dobby.Openai
