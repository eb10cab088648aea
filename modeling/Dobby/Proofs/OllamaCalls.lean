import Dobby.Model.Ollama
import Dobby.Proofs.AgentPairing

namespace Dobby.Ollama
open CString AgentLoop Runs

/-- The arguments item of a call as the model emitted it. -/
def argumentsItem (tc : Json) : Option Json :=
  (tc.getObjectItem "function".toList).bind (fun func => func.getObjectItem "arguments".toList)

/-- The value of the arguments that the model emitted: none are an empty object, and a
string is the text of a value. -/
def emittedArguments (cj : Codec) (tc : Json) : Option Json :=
  match argumentsItem tc with
  | none => some (.object [])
  | some (.string text) => cj.parse text
  | some args => some args

/-- The calls in the body of a response. -/
def emittedCalls (json : Json) : List Json := (messageCalls json).elim [] Json.children

/-- What `cJSON_Parse` and `cJSON_PrintUnformatted` are assumed to do here: an arguments
value that is printed parses back, no text is no value and `{}` is the empty object. -/
structure Inverts (cj : Codec) : Prop where
  blank : cj.parse [] = none
  empty : cj.parse "{}".toList = some (.object [])
  arguments : ∀ body json, cj.parse body = some json → ∀ tc ∈ emittedCalls json,
    ∀ args, argumentsItem tc = some args → cj.parse (cj.print args) = some args

/-- The call `tc` of a response came back from `ollama_chat_complete` as `call`. -/
def ReturnedAs (cj : Codec) (tc call : Json) : Prop :=
  ∃ body json id, cj.parse body = some json ∧ tc ∈ emittedCalls json ∧
    normalizeCall cj id tc = some call

/-- The tree that a tool gets for a call. -/
def executedArguments (cj : Codec) (call : Json) : Json :=
  parseToolArguments cj (call.getObjectItem "function".toList)

/-- A returned call has the name and the arguments that the model emitted when a tool is
run with it, and so has its copy in a request. -/
structure Replays (cj : Codec) (tc call sent : Json) : Prop where
  emitted : emittedArguments cj tc = some (executedArguments cj call)
  arguments : argumentsItem sent = some (executedArguments cj call)
  called : toolName call = toolName tc
  name : toolName sent = toolName call
  id : sent.field "id".toList = call.field "id".toList

/-- The calls of a response of Ollama. -/
def FromOllama (cj : Codec) : Event → Prop
  | .called _ content toolCalls => ∃ callCounter http,
      ollamaChatComplete cj callCounter http = ⟨content, some toolCalls, none⟩
  | _ => True

theorem normalizeCalls_mem {cj : Codec} {counter : Nat} {tcs : List Json} {call : Json}
    (h : call ∈ normalizeCalls cj counter tcs) :
    ∃ tc ∈ tcs, ∃ id, normalizeCall cj id tc = some call := by
  induction tcs generalizing counter with
  | nil => cases h
  | cons tc rest ih =>
    simp only [normalizeCalls] at h
    cases hn : normalizeCall cj (callId ((counter + 1) % 2 ^ 32)) tc with
    | none =>
      rw [hn] at h
      obtain ⟨tc', hmem, hid⟩ := ih h
      exact ⟨tc', List.mem_cons_of_mem tc hmem, hid⟩
    | some c =>
      rw [hn] at h
      rcases List.mem_cons.mp h with rfl | h
      · exact ⟨tc, List.mem_cons_self, _, hn⟩
      · obtain ⟨tc', hmem, hid⟩ := ih h
        exact ⟨tc', List.mem_cons_of_mem tc hmem, hid⟩

/-- The shape of a returned call, with the text its arguments are stored as. -/
theorem normalizeCall_shape {cj : Codec} {id : Str} {tc call : Json}
    (h : normalizeCall cj id tc = some call) :
    ∃ name args, call = .object [("id".toList, .string id), ("type".toList, .string "function".toList),
        ("function".toList, .object [("name".toList, .string name),
          ("arguments".toList, .string args)])] ∧
      toolName tc = some name ∧ argumentsText cj (argumentsItem tc) = some args := by
  unfold normalizeCall at h
  cases hf : tc.getObjectItem "function".toList with
  | none =>
    rw [hf] at h
    cases h
  | some func =>
    rw [hf] at h
    simp only at h
    split at h
    · cases h
    · cases h
    · rename_i c cs hname
      obtain ⟨args, hargs, rfl⟩ := Option.map_eq_some_iff.mp h
      refine ⟨c :: cs, args, rfl, ?_, ?_⟩
      · rw [toolName, hf]
        exact hname
      · rw [argumentsItem, hf]
        exact hargs

/-- The stored text is one of the value that the model emitted. -/
theorem argumentsText_parses {cj : Codec} (hblank : cj.parse [] = none)
    (hempty : cj.parse "{}".toList = some (.object [])) {tc : Json} {text : Str}
    (hinv : ∀ args, argumentsItem tc = some args → cj.parse (cj.print args) = some args)
    (h : argumentsText cj (argumentsItem tc) = some text) :
    ∃ args, emittedArguments cj tc = some args ∧ cj.parse text = some args ∧ text ≠ [] := by
  have hne : ∀ args, cj.parse text = some args → text ≠ [] := by
    rintro args hparse rfl
    rw [hblank] at hparse
    cases hparse
  suffices hparse : ∃ args, emittedArguments cj tc = some args ∧ cj.parse text = some args by
    obtain ⟨args, hemit, hp⟩ := hparse
    exact ⟨args, hemit, hp, hne args hp⟩
  have hprinted (args : Json) (hargs : argumentsItem tc = some args)
      (hp : (if (cj.parse (cj.print args)).isSome then some (cj.print args) else none) = some text) :
      cj.parse text = some args := by
    split at hp
    · cases hp
      exact hinv args hargs
    · cases hp
  unfold emittedArguments
  cases hitem : argumentsItem tc with
  | none =>
    rw [hitem] at h
    cases h
    exact ⟨_, rfl, hempty⟩
  | some args =>
    rw [hitem] at h
    cases args with
    | string emitted =>
      unfold argumentsText at h
      dsimp only at h
      split at h
      · rename_i hsome
        cases h
        obtain ⟨args, hargs⟩ := Option.isSome_iff_exists.mp hsome
        exact ⟨args, hargs, hargs⟩
      · cases h
    | _ => exact ⟨_, rfl, hprinted _ hitem h⟩

/-- What a returned call is executed with and how a request shows it. -/
theorem returned_replays {cj : Codec} (hcj : Inverts cj) {tc call : Json}
    (h : ReturnedAs cj tc call) :
    ∃ sent, wireCall cj ollamaFormat call = some sent ∧ Replays cj tc call sent := by
  obtain ⟨body, json, id, hbody, hmem, hnorm⟩ := h
  obtain ⟨name, text, rfl, hname, htext⟩ := normalizeCall_shape hnorm
  obtain ⟨args, hemit, hparse, hne⟩ :=
    argumentsText_parses hcj.blank hcj.empty (hcj.arguments body json hbody tc hmem) htext
  have hexec : executedArguments cj (.object [("id".toList, .string id),
      ("type".toList, .string "function".toList), ("function".toList, .object
        [("name".toList, .string name), ("arguments".toList, .string text)])]) = args := by
    change (if text = [] ∨ text = "{}".toList then Json.object []
      else (cj.parse text).getD (.object [])) = args
    split
    · rename_i hor
      rcases hor with hnil | rfl
      · exact absurd hnil hne
      · rw [hcj.empty] at hparse
        exact Option.some.inj hparse
    · rw [hparse]
      rfl
  refine ⟨_, rfl, ⟨?_, ?_, hname.symm, rfl, rfl⟩⟩
  · rw [hexec, hemit]
  · rw [hexec]
    change some ((cj.parse text).getD (.object [])) = some args
    rw [hparse]
    rfl

theorem extractMessage_calls {cj : Codec} {counter : Nat} {message toolCalls : Json}
    (h : (extractMessage cj counter message).toolCalls = some toolCalls) :
    ∃ tcs, message.getObjectItem "tool_calls".toList = some (.array tcs) ∧
      toolCalls = .array (normalizeCalls cj counter tcs) := by
  unfold extractMessage at h
  split at h
  · rename_i tc rest hcalls
    simp only at h
    split at h
    · cases h
    · cases h
      exact ⟨_, hcalls, rfl⟩
  · cases h

/-- All calls of a response come from calls in its body. -/
theorem returned_calls {cj : Codec} {counter : Nat} {http : Except Str Str} {toolCalls : Json}
    (h : (ollamaChatComplete cj counter http).toolCalls = some toolCalls) :
    ∃ calls, toolCalls = .array calls ∧ ∀ call ∈ calls, ∃ tc, ReturnedAs cj tc call := by
  have hextract : ∀ body json, cj.parse body = some json →
      (((json.getObjectItem "message".toList).map (extractMessage cj counter)).getD
        ⟨none, none, none⟩).toolCalls = some toolCalls →
      ∃ calls, toolCalls = .array calls ∧ ∀ call ∈ calls, ∃ tc, ReturnedAs cj tc call := by
    intro body json hbody hcalls
    cases hmessage : json.getObjectItem "message".toList with
    | none =>
      rw [hmessage] at hcalls
      cases hcalls
    | some message =>
      rw [hmessage] at hcalls
      obtain ⟨tcs, htcs, rfl⟩ := extractMessage_calls hcalls
      refine ⟨_, rfl, fun call hcall => ?_⟩
      obtain ⟨tc, htc, id, hid⟩ := normalizeCalls_mem hcall
      have hmem : tc ∈ emittedCalls json := by
        rw [emittedCalls, messageCalls, hmessage, Option.bind_some, htcs]
        exact htc
      exact ⟨tc, body, json, id, hbody, hmem, hid⟩
  unfold ollamaChatComplete at h
  split at h
  · cases h
  · rename_i body
    split at h
    · cases h
    · rename_i json hbody
      split at h
      · cases h
      · split at h
        · cases h
        · exact hextract body json hbody h
      · exact hextract body json hbody h

/-- These are all the calls of one response in the log. -/
def ResponseIn (es : List Event) (calls : List Json) : Prop :=
  ∃ request content, .called request content (.array calls) ∈ es

/-- A message with calls has those of a response, and a result is for one of them. -/
structure Tracked (es : List Event) (m : Message) : Prop where
  calls : ∀ toolCalls, m.toolCalls = some toolCalls →
    m.role ≠ "tool".toList ∧ ∃ calls, toolCalls = .array calls ∧ ResponseIn es calls
  result : m.role = "tool".toList → ∃ calls, ResponseIn es calls ∧ ∃ call ∈ calls,
    m.toolCallId = call.field "id".toList ∧ m.name = toolName call

structure Tracks (cj : Codec) (es : List Event) (c : Chat) : Prop where
  fmt : c.agent.fmt = ollamaFormat
  messages : ∀ m ∈ c.agent.messages, Tracked es m
  running : ∀ pre iter rest, c.pc = .running pre iter rest →
    ∃ calls, ResponseIn es calls ∧ ∀ call ∈ rest, call ∈ calls
  returned : ∀ calls, ResponseIn es calls → ∀ call ∈ calls, ∃ tc, ReturnedAs cj tc call

theorem ResponseIn.mono {es : List Event} {calls : List Json} (h : ResponseIn es calls) (e : Event) :
    ResponseIn (es ++ [e]) calls := by
  obtain ⟨request, content, hmem⟩ := h
  exact ⟨request, content, List.mem_append_left _ hmem⟩

theorem Tracked.mono {es : List Event} {m : Message} (h : Tracked es m) (e : Event) :
    Tracked (es ++ [e]) m where
  calls toolCalls hm := by
    obtain ⟨hrole, calls, hcalls, hin⟩ := h.calls toolCalls hm
    exact ⟨hrole, calls, hcalls, hin.mono e⟩
  result hrole := by
    obtain ⟨calls, hin, hcall⟩ := h.result hrole
    exact ⟨calls, hin.mono e, hcall⟩

/-- Messages that neither call nor answer a call. -/
theorem tracked_plain {es : List Event} {role content : Str} {toolCallId name : Option Str}
    {fresh : Bool} (hrole : role ≠ "tool".toList) :
    Tracked es ⟨role, content, toolCallId, name, none, fresh⟩ where
  calls toolCalls hm := by cases hm
  result h := absurd h hrole

theorem mem_add {a : Agent} {m : Message} {role : Str} {content toolCallId name : Option Str}
    {toolCalls : Option Json}
    (h : m ∈ (agentAddMessage a role content toolCallId name toolCalls).messages) :
    m ∈ a.messages ∨ m = ⟨role, content.getD [], toolCallId, name, toolCalls, true⟩ := by
  by_cases hfull : a.limit ≤ a.messages.length
  · rw [add_full hfull, List.mem_append, List.mem_append, List.mem_singleton] at h
    rcases h with h | h | h
    · exact .inl (List.mem_of_mem_take h)
    · exact .inl (List.mem_of_mem_drop h)
    · exact .inr h
  · rw [add_room (Nat.lt_of_not_le hfull), List.mem_append, List.mem_singleton] at h
    exact h

theorem add_fmt (a : Agent) (role : Str) (content toolCallId name : Option Str)
    (toolCalls : Option Json) :
    (agentAddMessage a role content toolCallId name toolCalls).fmt = a.fmt := by
  simp only [agentAddMessage]
  split
  · exact (compact_frame a).2.2
  · rfl

theorem ready_fmt (a : Agent) : a.ready.fmt = a.fmt := by
  simp only [Agent.ready]
  split
  · exact add_fmt ..
  · rfl

theorem ready_tracked {es : List Event} {a : Agent} (h : ∀ m ∈ a.messages, Tracked es m) :
    ∀ m ∈ a.ready.messages, Tracked es m := by
  intro m hm
  by_cases hne : a.messages = []
  · obtain ⟨content, hsys⟩ := (ready_messages a).2 hne
    rw [hsys, List.mem_singleton] at hm
    rw [hm]
    exact tracked_plain (by decide)
  · rw [(ready_messages a).1 hne] at hm
    obtain ⟨n, hn, rfl⟩ := List.mem_map.mp hm
    exact ⟨(h n hn).calls, (h n hn).result⟩

theorem rollBack_tracked {es : List Event} {pre : Nat} {messages : List Message}
    (h : ∀ m ∈ messages, Tracked es m) : ∀ m ∈ rollBack pre messages, Tracked es m := by
  intro m hm
  rw [rollBack_eq_take] at hm
  exact h m (List.mem_of_mem_take hm)

section Steps
variable {cj : Codec} {registry : Str → Bool} {c d : Chat}

/-- A step that adds a message. -/
theorem Tracks.add {es : List Event} {e : Event} {a : Agent} {pc : Pc}
    (hfmt : a.fmt = ollamaFormat) (hmessages : ∀ m ∈ a.messages, Tracked es m)
    (hnew : Tracked (es ++ [e]) ⟨role, content.getD [], toolCallId, name, toolCalls, true⟩)
    (hrunning : ∀ pre iter rest, pc = .running pre iter rest →
      ∃ calls, ResponseIn (es ++ [e]) calls ∧ ∀ call ∈ rest, call ∈ calls)
    (hreturned : ∀ calls, ResponseIn (es ++ [e]) calls → ∀ call ∈ calls, ∃ tc, ReturnedAs cj tc call) :
    Tracks cj (es ++ [e]) ⟨agentAddMessage a role content toolCallId name toolCalls, pc⟩ where
  fmt := (add_fmt ..).trans hfmt
  messages m hm := by
    rcases mem_add hm with hm | rfl
    · exact (hmessages m hm).mono e
    · exact hnew
  running := hrunning
  returned := hreturned

theorem tracks_step {es : List Event} (h : Tracks cj es c) (hs : Step cj registry c e d)
    (hfrom : FromOllama cj e) : Tracks cj (es ++ [e]) d := by
  have hreturned : ∀ calls, ResponseIn (es ++ [e]) calls → ∀ call ∈ calls,
      ∃ tc, ReturnedAs cj tc call := by
    rintro calls ⟨request, content, hmem⟩ call hcall
    rcases List.mem_append.mp hmem with hmem | hmem
    · exact h.returned calls ⟨request, content, hmem⟩ call hcall
    · rw [← List.mem_singleton.mp hmem] at hfrom
      obtain ⟨counter, http, hreply⟩ := hfrom
      have hcalls := congrArg LlmResponse.toolCalls hreply
      obtain ⟨calls', heq, hall⟩ := returned_calls hcalls
      cases heq
      exact hall call hcall
  have hresult : ∀ {pre iter tc rest result}, c.pc = .running pre iter (tc :: rest) →
      Tracks cj (es ++ [e]) ⟨agentAddMessage c.agent "tool".toList result
        (tc.field "id".toList) (toolName tc) none, .running pre iter rest⟩ := by
    intro pre iter tc rest result hpc
    obtain ⟨calls, hin, hsub⟩ := h.running pre iter _ hpc
    refine Tracks.add h.fmt h.messages ⟨?_, fun _ => ?_⟩ ?_ hreturned
    · intro toolCalls heq
      cases heq
    · exact ⟨calls, hin.mono e, _, hsub tc List.mem_cons_self, rfl, rfl⟩
    · intro pre' iter' rest' hpc
      cases hpc
      exact ⟨calls, hin.mono e, fun call hcall => hsub call (List.mem_cons_of_mem tc hcall)⟩
  cases hs with
  | refused pc =>
    refine ⟨h.fmt, fun m hm => (h.messages m hm).mono _, fun pre iter rest hpc => ?_, hreturned⟩
    rw [pc] at hpc
    cases hpc
  | began pc nonempty =>
    refine Tracks.add ((ready_fmt _).trans h.fmt) (ready_tracked h.messages)
      (tracked_plain (by decide)) (fun pre iter rest hpc => by cases hpc) hreturned
  | failed pc more | exhausted pc done =>
    refine ⟨h.fmt, fun m hm => ?_, fun pre iter rest hpc => (by cases hpc), hreturned⟩
    exact (rollBack_tracked h.messages m hm).mono _
  | @called pre iter content toolCalls pc more calling =>
    have hrole : "assistant".toList ≠ "tool".toList := by decide
    obtain ⟨counter, http, hreply⟩ := hfrom
    obtain ⟨calls, rfl, -⟩ := returned_calls (congrArg LlmResponse.toolCalls hreply)
    have hin : ResponseIn (es ++ [.called (buildMessagesJson cj c.agent) content (.array calls)])
        calls := ⟨_, _, List.mem_append_right _ List.mem_cons_self⟩
    refine Tracks.add h.fmt h.messages ⟨?_, ?_⟩ ?_ hreturned
    · intro toolCalls heq
      cases heq
      exact ⟨hrole, calls, rfl, hin⟩
    · exact fun htool => absurd htool hrole
    · intro pre' iter' rest hpc
      cases hpc
      exact ⟨calls, hin, fun call hcall => hcall⟩
  | answered pc more =>
    exact Tracks.add h.fmt h.messages (tracked_plain (by decide))
      (fun pre iter rest hpc => by cases hpc) hreturned
  | ran pc name known => exact hresult pc
  | unknown pc unknown => exact hresult pc
  | looped pc =>
    refine ⟨h.fmt, fun m hm => (h.messages m hm).mono _,
      fun pre iter rest hpc => (by cases hpc), hreturned⟩

end Steps

theorem forall₂_filterMap {α β : Type} {R : α → β → Prop} {f : α → Option β} {xs : List α}
    (h : ∀ x ∈ xs, ∃ y, f x = some y ∧ R x y) : List.Forall₂ R xs (xs.filterMap f) := by
  induction xs with
  | nil => exact .nil
  | cons x xs ih =>
    obtain ⟨y, hy, hr⟩ := h x List.mem_cons_self
    rw [List.filterMap_cons_some hy]
    exact .cons hr (ih (fun z hz => h z (List.mem_cons_of_mem x hz)))

/-- A message of a request shows all the calls of a response, each with its arguments. -/
def ShowsCalls (cj : Codec) (es : List Event) (msg : Json) : Prop :=
  ∀ field, msg.getObjectItem "tool_calls".toList = some field →
    ∃ calls sents, ResponseIn es calls ∧ field = .array sents ∧
      List.Forall₂ (fun call sent => ∃ tc, ReturnedAs cj tc call ∧ Replays cj tc call sent) calls sents

/-- A tool message of a request has the id and the name of a returned call. -/
def ShowsResult (es : List Event) (msg : Json) : Prop :=
  msg.field "role".toList = some "tool".toList →
    ∃ calls, ResponseIn es calls ∧ ∃ call ∈ calls,
      msg.field "tool_call_id".toList = call.field "id".toList ∧
        msg.field "name".toList = toolName call

theorem wireMessage_noCalls (cj : Codec) (fmt : MsgFormat) {m : Message} (h : m.toolCalls = none) :
    (wireMessage cj fmt m).getObjectItem "tool_calls".toList = none := by
  have hresult : (Json.object (wireResult fmt m)).getObjectItem "tool_calls".toList = none := by
    unfold wireResult
    split
    · rw [Json.getObjectItem_append, member_other rfl, Option.none_or]
      split
      · exact member_other rfl _
      · rfl
    · rfl
  rw [wireMessage, h, List.cons_append, List.cons_append, Json.getObjectItem_cons_ne rfl,
    Json.getObjectItem_append, Json.getObjectItem_append, hresult, wireContent_other rfl]
  rfl

theorem wireMessage_name (cj : Codec) {m : Message} (h : m.role = "tool".toList) :
    (wireMessage cj ollamaFormat m).field "name".toList = m.name := by
  have hcalls : (Json.object (m.toolCalls.map fun calls => ("tool_calls".toList,
      Json.array (calls.children.filterMap (wireCall cj ollamaFormat)))).toList).getObjectItem
      "name".toList = none := by
    cases m.toolCalls <;> rfl
  have hresult : (Json.object (wireResult ollamaFormat m)).getObjectItem "name".toList =
      m.name.map Json.string := by
    rw [wireResult, if_pos (by rw [h]; rfl), Json.getObjectItem_append, member_other rfl,
      Option.none_or, if_pos (by rfl)]
    cases m.name <;> rfl
  rw [Json.field, wireMessage, List.cons_append, List.cons_append,
    Json.getObjectItem_cons_ne rfl, Json.getObjectItem_append, Json.getObjectItem_append, hcalls,
    wireContent_other rfl, hresult, Option.or_none, Option.none_or]
  cases m.name <;> rfl

section Requests
variable {cj : Codec} {registry : Str → Bool} {c d : Chat}

theorem request_eq (hs : Step cj registry c e d) (hreq : e.request = some request) :
    request = buildMessagesJson cj c.agent := by
  cases hs <;> cases hreq <;> rfl

/-- A request shows nothing but calls that responses have returned. -/
theorem tracks_shows (hcj : Inverts cj) {es : List Event} (h : Tracks cj es c) {msg : Json}
    (hmsg : msg ∈ (buildMessagesJson cj c.agent).children) :
    ShowsCalls cj es msg ∧ ShowsResult es msg := by
  rw [buildMessagesJson, Json.children, h.fmt] at hmsg
  obtain ⟨m, hm, rfl⟩ := List.mem_map.mp hmsg
  have htracked := h.messages m hm
  constructor
  · intro field hfield
    cases hcalls : m.toolCalls with
    | none =>
      rw [wireMessage_noCalls cj _ hcalls] at hfield
      cases hfield
    | some toolCalls =>
      obtain ⟨hrole, calls, rfl, hin⟩ := htracked.calls toolCalls hcalls
      rw [wireMessage_toolCalls cj _ m hrole, hcalls] at hfield
      cases hfield
      refine ⟨calls, _, hin, rfl, forall₂_filterMap (fun call hcall => ?_)⟩
      obtain ⟨tc, htc⟩ := h.returned calls hin call hcall
      obtain ⟨sent, hsent, hreplays⟩ := returned_replays hcj htc
      exact ⟨sent, hsent, tc, htc, hreplays⟩
  · intro hrole
    have htool : m.role = "tool".toList := Option.some.inj hrole
    obtain ⟨calls, hin, call, hcall, hid, hname⟩ := htracked.result htool
    refine ⟨calls, hin, call, hcall, ?_, ?_⟩
    · rw [wireMessage_toolCallId cj _ m htool, hid]
    · rw [wireMessage_name cj htool, hname]

theorem tracks_run (hfmt : a.fmt = ollamaFormat)
    (h : Run (Guarded (Step cj registry) (fun _ => FromOllama cj)) ⟨agentNewConversation a, .idle⟩
      es c) : Tracks cj es c := by
  refine h.invariant_log ?_ ?_
  · refine ⟨hfmt, fun m hm => ?_, fun pre iter rest hpc => ?_, ?_⟩
    · cases hm
    · cases hpc
    · rintro calls ⟨request, content, hmem⟩
      cases hmem
  · rintro es s e t htracks ⟨hfrom, hstep⟩
    exact tracks_step htracks hstep hfrom

/-- Each tool runs with the arguments that the model emitted, and every request shows the
returned calls with these arguments and their ids and names. -/
theorem ollama_calls_consistent (hcj : Inverts cj) (hfmt : a.fmt = ollamaFormat)
    (h : Run (Guarded (Step cj registry) (fun _ => FromOllama cj)) ⟨agentNewConversation a, .idle⟩
      (es ++ [e]) c) :
    (∀ call args result, e = .ran call args result →
      ∃ calls, ResponseIn es calls ∧ call ∈ calls ∧ args = executedArguments cj call ∧
        ∃ tc, ReturnedAs cj tc call ∧ emittedArguments cj tc = some args ∧
          toolName call = toolName tc) ∧
    ∀ request, e.request = some request → ∀ msg ∈ request.children,
      ShowsCalls cj es msg ∧ ShowsResult es msg := by
  obtain ⟨s, hrun, -, hstep⟩ := h.unsnoc
  have htracks := tracks_run hfmt hrun
  constructor
  · rintro call args result rfl
    cases hstep with
    | ran pc name known =>
      obtain ⟨calls, hin, hsub⟩ := htracks.running _ _ _ pc
      have hmem := hsub call List.mem_cons_self
      obtain ⟨tc, htc⟩ := htracks.returned calls hin call hmem
      obtain ⟨sent, -, hreplays⟩ := returned_replays hcj htc
      exact ⟨calls, hin, hmem, rfl, tc, htc, hreplays.emitted, hreplays.called⟩
  · intro request hreq msg hmsg
    rw [request_eq hstep hreq] at hmsg
    exact tracks_shows hcj htracks hmsg

end Requests

def sampleArguments : Json := .object [("a".toList, .number "1".toList)]

def sampleText : Str := "\x7b\"a\":1\x7d".toList

def sampleBody : Str :=
  "\x7b\"message\":\x7b\"tool_calls\":[\x7b\"function\":".toList ++
    ("\x7b\"name\":\"ls\",\"arguments\":".toList ++ (sampleText ++ "\x7d\x7d]\x7d\x7d".toList))

def sampleCall : Json :=
  .object [("function".toList, .object [("name".toList, .string "ls".toList),
    ("arguments".toList, sampleArguments)])]

def sampleJson : Json :=
  .object [("message".toList, .object [("tool_calls".toList, .array [sampleCall])])]

/-- A parser and a printer for one response. -/
def sampleCodec : Codec where
  parse s :=
    if s = sampleText then some sampleArguments
    else if s = "\x7b\x7d".toList then some (.object [])
    else if s = sampleBody then some sampleJson
    else none
  print
    | .object [] => "\x7b\x7d".toList
    | _ => sampleText

theorem sampleCodec_inverts : Inverts sampleCodec where
  blank := by decide
  empty := rfl
  arguments body json hbody tc htc args hargs := by
    simp only [sampleCodec] at hbody
    split at hbody
    · cases hbody
      cases htc
    · split at hbody
      · cases hbody
        cases htc
      · split at hbody
        · cases hbody
          obtain rfl : tc = sampleCall := List.mem_singleton.mp htc
          cases hargs
          rfl
        · cases hbody

def sampleReturned : Json :=
  .object [("id".toList, .string "call_1".toList), ("type".toList, .string "function".toList),
    ("function".toList, .object [("name".toList, .string "ls".toList),
      ("arguments".toList, .string sampleText)])]

theorem sample_reply : ollamaChatComplete sampleCodec 0 (.ok sampleBody) =
    ⟨none, some (.array [sampleReturned]), none⟩ := by
  rfl

def sampleAgent : Agent := ⟨[], 0, 10, [], ollamaFormat⟩

theorem ollama_calls_consistent_once : ∃ es c,
    Run (Guarded (Step sampleCodec (fun _ => true)) (fun _ => FromOllama sampleCodec))
      ⟨agentNewConversation sampleAgent, .idle⟩ (es ++ [.ran sampleReturned sampleArguments none]) c ∧
    ∃ tc, ReturnedAs sampleCodec tc sampleReturned ∧
      emittedArguments sampleCodec tc = some sampleArguments := by
  have h : ∃ es c, Run (Guarded (Step sampleCodec (fun _ => true)) (fun _ => FromOllama sampleCodec))
      ⟨agentNewConversation sampleAgent, .idle⟩
      (es ++ [.ran sampleReturned sampleArguments none]) c := by
    refine ⟨[.began "hi".toList, .called _ none (.array [sampleReturned])], _,
      .cons ⟨trivial, .began rfl (by decide)⟩ (.cons ⟨?_, .called rfl (by decide) (by decide)⟩
        (.single ⟨trivial, .ran rfl rfl rfl⟩))⟩
    exact ⟨0, .ok sampleBody, sample_reply⟩
  obtain ⟨es, c, hrun⟩ := h
  obtain ⟨calls, -, -, -, tc, htc, hargs, -⟩ :=
    (ollama_calls_consistent sampleCodec_inverts rfl hrun).1 _ _ _ rfl
  exact ⟨es, c, hrun, tc, htc, hargs⟩

end Dobby.Ollama
