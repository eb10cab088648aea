import Dobby.Proofs.AgentHistory
import Dobby.Base.Runs

namespace Dobby.AgentLoop
open CString Pairing Runs

def callIds (calls : List Json) : List (Option Str) := calls.map (fun tc => tc.field "id".toList)

/-- An empty list of calls calls nothing. -/
def callsEntry (ids : List (Option Str)) : Entry (Option Str) :=
  if ids = [] then .plain else .calls ids

/-- What a provider reads in one message of the request. -/
def wireEntry (j : Json) : Entry (Option Str) :=
  if j.field "role".toList = some "tool".toList then .result (j.field "tool_call_id".toList)
  else if j.field "role".toList = some "assistant".toList then
    match j.getObjectItem "tool_calls".toList with
    | some calls => callsEntry (callIds calls.children)
    | none => .plain
  else .plain

def hasFunction (tc : Json) : Bool := (tc.getObjectItem "function".toList).isSome

/-- The entry a message becomes, read off the message itself. -/
def Message.entry (m : Message) : Entry (Option Str) :=
  if m.role = "tool".toList then .result m.toolCallId
  else if m.role = "assistant".toList then
    match m.toolCalls with
    | some calls => callsEntry (callIds (calls.children.filter hasFunction))
    | none => .plain
  else .plain

theorem wireCall_field (cj : Codec) (fmt : MsgFormat) (tc : Json) (h : hasFunction tc = true) :
    ∃ j, wireCall cj fmt tc = some j ∧ j.field "id".toList = tc.field "id".toList := by
  obtain ⟨func, hf⟩ := Option.isSome_iff_exists.mp h
  refine ⟨_, by rw [wireCall, hf]; rfl, ?_⟩
  cases hid : tc.field "id".toList with
  | none => rfl
  | some id => rfl

theorem wireCall_none (cj : Codec) (fmt : MsgFormat) (tc : Json) (h : hasFunction tc = false) :
    wireCall cj fmt tc = none := by
  have hf : tc.getObjectItem "function".toList = none := by
    simpa [hasFunction] using h
  rw [wireCall, hf]
  rfl

theorem wireCalls_ids (cj : Codec) (fmt : MsgFormat) (calls : List Json) :
    callIds (calls.filterMap (wireCall cj fmt)) = callIds (calls.filter hasFunction) := by
  induction calls with
  | nil => rfl
  | cons tc calls ih =>
    cases h : hasFunction tc with
    | true =>
      obtain ⟨j, hj, hid⟩ := wireCall_field cj fmt tc h
      rw [List.filterMap_cons_some hj, List.filter_cons_of_pos h]
      exact List.cons_eq_cons.mpr ⟨hid, ih⟩
    | false =>
      rw [List.filterMap_cons_none (wireCall_none cj fmt tc h), List.filter_cons_of_neg (by simp [h])]
      exact ih

theorem member_other {name key : Str} (h : Json.sameName name key = false) (value : Option Str) :
    (Json.object (member key value)).getObjectItem name = none := by
  cases value with
  | none => rfl
  | some v => exact Json.getObjectItem_cons_ne h _ _

theorem wireContent_other {name : Str} (h : Json.sameName name "content".toList = false)
    (fmt : MsgFormat) (m : Message) : (Json.object (wireContent fmt m)).getObjectItem name = none := by
  unfold wireContent
  split
  · split
    · exact Json.getObjectItem_cons_ne h _ _
    · rfl
  · exact Json.getObjectItem_cons_ne h _ _

theorem wireResult_callId (fmt : MsgFormat) (m : Message) (h : m.role = "tool".toList) :
    ((Json.object (wireResult fmt m)).getObjectItem "tool_call_id".toList) =
      m.toolCallId.map Json.string := by
  rw [wireResult, if_pos (by rw [h]; rfl), Json.getObjectItem_append]
  have hname : (Json.object (if fmt.toolResultIncludeName then member "name".toList m.name
      else [])).getObjectItem "tool_call_id".toList = none := by
    split
    · exact member_other rfl _
    · rfl
  rw [hname, Option.or_none]
  cases m.toolCallId <;> rfl

theorem wireMessage_toolCallId (cj : Codec) (fmt : MsgFormat) (m : Message)
    (h : m.role = "tool".toList) :
    (wireMessage cj fmt m).field "tool_call_id".toList = m.toolCallId := by
  have hcalls : (Json.object (m.toolCalls.map fun calls => ("tool_calls".toList,
      Json.array (calls.children.filterMap (wireCall cj fmt)))).toList).getObjectItem
      "tool_call_id".toList = none := by
    cases m.toolCalls <;> rfl
  rw [Json.field, wireMessage, List.cons_append, List.cons_append,
    Json.getObjectItem_cons_ne rfl, Json.getObjectItem_append, Json.getObjectItem_append, hcalls,
    wireContent_other rfl, wireResult_callId fmt m h, Option.or_none, Option.none_or]
  cases m.toolCallId <;> rfl

theorem wireMessage_toolCalls (cj : Codec) (fmt : MsgFormat) (m : Message)
    (h : m.role ≠ "tool".toList) :
    (wireMessage cj fmt m).getObjectItem "tool_calls".toList =
      m.toolCalls.map fun calls => Json.array (calls.children.filterMap (wireCall cj fmt)) := by
  have hresult : wireResult fmt m = [] := by
    rw [wireResult, if_neg (by simpa using h)]
  rw [wireMessage, List.cons_append, List.cons_append, Json.getObjectItem_cons_ne rfl, hresult,
    List.append_nil, Json.getObjectItem_append, wireContent_other rfl, Option.none_or]
  cases m.toolCalls <;> rfl

/-- The request shows each message for what it is. -/
theorem wireEntry_wireMessage (cj : Codec) (fmt : MsgFormat) (m : Message) :
    wireEntry (wireMessage cj fmt m) = m.entry := by
  have hrole : (wireMessage cj fmt m).field "role".toList = some m.role := rfl
  unfold wireEntry Message.entry
  rw [hrole]
  by_cases ht : m.role = "tool".toList
  · rw [if_pos (congrArg some ht), if_pos ht, wireMessage_toolCallId cj fmt m ht]
  rw [if_neg (fun h => ht (Option.some.inj h)), if_neg ht, wireMessage_toolCalls cj fmt m ht]
  by_cases ha : m.role = "assistant".toList
  · rw [if_pos (congrArg some ha), if_pos ha]
    cases m.toolCalls with
    | none => rfl
    | some calls =>
      simp only [Option.map_some, Json.children]
      rw [wireCalls_ids]
  · rw [if_neg (fun h => ha (Option.some.inj h)), if_neg ha]

def Agent.entries (a : Agent) : List (Entry (Option Str)) := a.messages.map Message.entry

theorem buildMessagesJson_entries (cj : Codec) (a : Agent) :
    (buildMessagesJson cj a).children.map wireEntry = a.entries := by
  simp [buildMessagesJson, Json.children, Agent.entries, wireEntry_wireMessage]

/-- The ids whose results are still to come. -/
def Pc.owing : Pc → List (Option Str)
  | .running _ _ calls => callIds calls
  | _ => []

/-- The history is paired up to what the running block still owes. -/
def Chat.Paired (c : Chat) : Prop := owed [] c.agent.entries = some c.pc.owing

/-- What compaction leaves behind the system message does not start with a tool
result, counting the message that is being added. -/
def Agent.CutsClean (a : Agent) (role : Str) : Prop :=
  a.limit ≤ a.messages.length →
    ∀ r ∈ ((a.messages.drop a.cutEnd).map Message.role ++ [role]).head?, r ≠ "tool".toList

/-- The first message a rollback takes away is not a tool result. -/
def Chat.RollsClean (c : Chat) : Prop :=
  ∀ pre iter, c.pc = .asking pre iter →
    ∀ m ∈ (c.agent.messages.drop pre).head?, m.role ≠ "tool".toList

theorem rollsClean_iff {c : Chat} (pc : c.pc = .asking pre iter) :
    c.RollsClean ↔ ∀ m ∈ (c.agent.messages.drop pre).head?, m.role ≠ "tool".toList := by
  refine ⟨fun hk => hk pre iter pc, ?_⟩
  intro hm pre iter hpc
  rw [pc] at hpc
  cases hpc
  exact hm

/-- The steps that cut the history between blocks only, with responses whose
calls all name a function. -/
def Kept (c : Chat) : Event → Prop
  | .began _ => c.agent.ready.CutsClean "user".toList
  | .called _ _ toolCalls =>
    c.agent.CutsClean "assistant".toList ∧ ∀ tc ∈ toolCalls.children, hasFunction tc = true
  | .answered _ _ => c.agent.CutsClean "assistant".toList
  | .ran _ _ _ | .unknown _ => c.agent.CutsClean "tool".toList
  | .failed _ _ | .exhausted => c.RollsClean
  | _ => True

theorem entry_isResult (m : Message) : m.entry.IsResult ↔ m.role = "tool".toList := by
  unfold Message.entry
  split
  · rename_i h
    exact iff_of_true trivial h
  · rename_i h
    refine iff_of_false ?_ h
    split
    · split
      · unfold callsEntry
        split <;> exact id
      · exact id
    · exact id

/-- The history starts with the system message. -/
def Agent.Headed (a : Agent) : Prop :=
  ∃ m rest, a.messages = m :: rest ∧ m.role = "system".toList

theorem system_entry {m : Message} (h : m.role = "system".toList) : m.entry = .plain := by
  unfold Message.entry
  rw [h, if_neg (by decide), if_neg (by decide)]

theorem heads_iff (messages : List Message) :
    (∀ e ∈ (messages.map Message.entry).head?, ¬ e.IsResult) ↔
      ∀ r ∈ (messages.map Message.role).head?, r ≠ "tool".toList := by
  cases messages with
  | nil => simp
  | cons m rest => simp [entry_isResult]

section Adding
variable {a : Agent} {role : Str} {content toolCallId name : Option Str} {toolCalls : Option Json}

theorem Agent.Headed.add (h : a.Headed) :
    (agentAddMessage a role content toolCallId name toolCalls).Headed := by
  obtain ⟨m, rest, hm, hrole⟩ := h
  by_cases hfull : a.limit ≤ a.messages.length
  · exact ⟨m, _, by rw [add_full hfull, hm]; rfl, hrole⟩
  · exact ⟨m, _, by rw [add_room (Nat.lt_of_not_le hfull), hm]; rfl, hrole⟩

/-- A full history becomes its system message and what lies behind the cut. -/
theorem add_full_owed (h : a.Headed) (hfull : a.limit ≤ a.messages.length) :
    owed [] (agentAddMessage a role content toolCallId name toolCalls).entries =
      owed [] ((a.messages.drop a.cutEnd).map Message.entry ++
        [Message.entry ⟨role, content.getD [], toolCallId, name, toolCalls, true⟩]) := by
  obtain ⟨m, rest, hm, hrole⟩ := h
  rw [Agent.entries, add_full hfull, List.map_append, List.map_append]
  have hhead : (a.messages.take 1).map Message.entry = [.plain] := by
    rw [hm]
    exact congrArg (fun e => [e]) (system_entry hrole)
  rw [hhead]
  rfl

theorem paired_add (h : a.Headed) (hp : owed [] a.entries = some owing)
    (hnew : owed owing [Message.entry ⟨role, content.getD [], toolCallId, name, toolCalls, true⟩] =
      some owing') (hclean : a.CutsClean role) :
    owed [] (agentAddMessage a role content toolCallId name toolCalls).entries = some owing' := by
  by_cases hfull : a.limit ≤ a.messages.length
  · rw [add_full_owed h hfull]
    have hsplit : a.entries = (a.messages.take a.cutEnd).map Message.entry ++
        (a.messages.drop a.cutEnd).map Message.entry := by
      rw [← List.map_append, List.take_append_drop]
      rfl
    rw [hsplit] at hp
    refine owed_drop hp hnew ?_
    have hheads := (heads_iff (a.messages.drop a.cutEnd ++
      [⟨role, content.getD [], toolCallId, name, toolCalls, true⟩])).mpr
    rw [List.map_append, List.map_append] at hheads
    exact hheads (hclean hfull)
  · rw [Agent.entries, add_room (Nat.lt_of_not_le hfull), List.map_append, owed_append]
    change (owed [] a.entries).bind _ = _
    rw [hp]
    exact hnew

theorem clean_of_paired_add (h : a.Headed)
    (hp : owed [] (agentAddMessage a role content toolCallId name toolCalls).entries = some owing) :
    a.CutsClean role := by
  intro hfull
  rw [add_full_owed h hfull] at hp
  have hheads := (heads_iff (a.messages.drop a.cutEnd ++
    [⟨role, content.getD [], toolCallId, name, toolCalls, true⟩])).mp
  rw [List.map_append, List.map_append] at hheads
  exact hheads (head_of_owed hp)

theorem paired_add_iff (h : a.Headed) (hp : owed [] a.entries = some owing)
    (hnew : owed owing [Message.entry ⟨role, content.getD [], toolCallId, name, toolCalls, true⟩] =
      some owing') :
    owed [] (agentAddMessage a role content toolCallId name toolCalls).entries = some owing' ↔
      a.CutsClean role :=
  ⟨clean_of_paired_add h, paired_add h hp hnew⟩

end Adding

theorem ready_headed {a : Agent} (h : a.messages = [] ∨ a.Headed) : a.ready.Headed := by
  rcases h with h | ⟨m, rest, hm, hrole⟩
  · obtain ⟨content, hready⟩ := (ready_messages a).2 h
    exact ⟨_, _, hready, rfl⟩
  · have hready := (ready_messages a).1 (by rw [hm]; exact List.cons_ne_nil m rest)
    exact ⟨m.settle, _, by rw [hready, hm]; rfl, hrole⟩

theorem ready_paired {a : Agent} (h : owed [] a.entries = some []) :
    owed [] a.ready.entries = some [] := by
  by_cases hm : a.messages = []
  · obtain ⟨content, hready⟩ := (ready_messages a).2 hm
    rw [Agent.entries, hready]
    rfl
  · rw [Agent.entries, (ready_messages a).1 hm, List.map_map]
    exact h

/-- A rollback keeps the pairing exactly if it does not start at a tool result. -/
theorem paired_rollBack_iff {messages : List Message} (pre : Nat)
    (h : owed [] (messages.map Message.entry) = some []) :
    owed [] ((rollBack pre messages).map Message.entry) = some [] ↔
      ∀ m ∈ (messages.drop pre).head?, m.role ≠ "tool".toList := by
  rw [rollBack_eq_take]
  have hsplit : messages.map Message.entry =
      (messages.take pre).map Message.entry ++ (messages.drop pre).map Message.entry := by
    rw [← List.map_append, List.take_append_drop]
  rw [hsplit] at h
  rw [owed_take_iff h, heads_iff]
  cases messages.drop pre <;> simp

/-- The system message stands first, and no rollback of a turn takes it. -/
structure Chat.Headed (c : Chat) : Prop where
  system : c.agent.messages = [] ∨ c.agent.Headed
  busy : c.pc ≠ .idle → c.agent.Headed
  pre : ∀ pre iter, c.pc = .asking pre iter ∨ (∃ calls, c.pc = .running pre iter calls) → 0 < pre

section Steps
variable {cj : Codec} {registry : Str → Bool} {c d : Chat}

theorem Chat.Headed.step (h : c.Headed) (hs : Step cj registry c e d) : d.Headed := by
  have hroll : ∀ {pre}, c.pc ≠ .idle → 0 < pre →
      (⟨{ c.agent with messages := rollBack pre c.agent.messages }, .idle⟩ : Chat).Headed := by
    intro pre hbusy hpre
    obtain ⟨m, rest, hm, hrole⟩ := h.busy hbusy
    obtain ⟨n, rfl⟩ := Nat.exists_eq_succ_of_ne_zero (Nat.ne_of_gt hpre)
    refine ⟨.inr ⟨m, rest.take n, ?_, hrole⟩, fun hi => absurd rfl hi, ?_⟩
    · change rollBack (n + 1) c.agent.messages = _
      rw [rollBack_eq_take, hm]
      rfl
    · rintro pre iter (hpc | ⟨_, hpc⟩) <;> cases hpc
  cases hs with
  | refused pc => exact h
  | began pc nonempty =>
    have hready := ready_headed h.system
    refine ⟨.inr hready.add, fun _ => hready.add, ?_⟩
    obtain ⟨m, rest, hm, _⟩ := hready
    rintro pre iter (hpc | ⟨_, hpc⟩)
    · cases hpc
      rw [hm]
      exact Nat.succ_pos _
    · cases hpc
  | failed pc more => exact hroll (by rw [pc]; simp) (h.pre _ _ (.inl pc))
  | exhausted pc done => exact hroll (by rw [pc]; simp) (h.pre _ _ (.inl pc))
  | called pc more some =>
    have hbusy := h.busy (by rw [pc]; simp)
    refine ⟨.inr hbusy.add, fun _ => hbusy.add, ?_⟩
    rintro pre iter (hpc | ⟨_, hpc⟩) <;> cases hpc
    exact h.pre _ _ (.inl pc)
  | answered pc more =>
    have hbusy := h.busy (by rw [pc]; simp)
    refine ⟨.inr hbusy.add, fun _ => hbusy.add, ?_⟩
    rintro pre iter (hpc | ⟨_, hpc⟩) <;> cases hpc
  | ran pc | unknown pc =>
    have hbusy := h.busy (by rw [pc]; simp)
    refine ⟨.inr hbusy.add, fun _ => hbusy.add, ?_⟩
    rintro pre iter (hpc | ⟨_, hpc⟩) <;> cases hpc
    exact h.pre _ _ (.inr ⟨_, pc⟩)
  | looped pc =>
    have hbusy := h.busy (by rw [pc]; simp)
    refine ⟨.inr hbusy, fun _ => hbusy, ?_⟩
    rintro pre iter (hpc | ⟨_, hpc⟩) <;> cases hpc
    exact h.pre _ _ (.inr ⟨_, pc⟩)

theorem owed_callsEntry (ids : List (Option Str)) : owed [] [callsEntry ids] = some ids := by
  cases ids <;> rfl

/-- A tool result pays off the call it names. -/
theorem paired_result_iff {a : Agent} (h : a.Headed)
    (hp : owed [] a.entries = some (callIds (tc :: rest))) :
    owed [] (agentAddMessage a "tool".toList content (tc.field "id".toList) name none).entries =
      some (callIds rest) ↔ a.CutsClean "tool".toList := by
  refine paired_add_iff h hp ?_
  change owed (tc.field "id".toList :: callIds rest) [.result (tc.field "id".toList)] = _
  simp [owed]

/-- The calls announced in the request are the calls that get results exactly if
each names a function. -/
theorem announced_iff (calls : List Json) :
    callIds (calls.filter hasFunction) = callIds calls ↔ ∀ tc ∈ calls, hasFunction tc = true := by
  constructor
  · intro h
    have hlen := congrArg List.length h
    simp only [callIds, List.length_map] at hlen
    exact List.length_filter_eq_length_iff.mp hlen
  · intro h
    rw [List.filter_eq_self.mpr h]

theorem paired_called_iff {a : Agent} (h : a.Headed) (hp : owed [] a.entries = some []) :
    owed [] (agentAddMessage a "assistant".toList content none none (some toolCalls)).entries =
      some (callIds toolCalls.children) ↔
      a.CutsClean "assistant".toList ∧ ∀ tc ∈ toolCalls.children, hasFunction tc = true := by
  have hadd : owed [] (agentAddMessage a "assistant".toList content none none
      (some toolCalls)).entries = some (callIds (toolCalls.children.filter hasFunction)) ↔
      a.CutsClean "assistant".toList :=
    paired_add_iff h hp (owed_callsEntry _)
  rw [← announced_iff]
  constructor
  · intro hall
    have hclean := clean_of_paired_add h hall
    rw [hadd.mpr hclean] at hall
    exact ⟨hclean, Option.some.inj hall⟩
  · rintro ⟨hclean, hids⟩
    rw [hadd.mpr hclean, hids]

/-- A step from a paired history keeps it paired exactly if it is a kept one. -/
theorem paired_step_iff (h : c.Headed) (hp : c.Paired) (hs : Step cj registry c e d) :
    d.Paired ↔ Kept c e := by
  have hidle : c.pc.owing = [] → owed [] c.agent.entries = some [] :=
    fun how => hp.trans (congrArg some how)
  cases hs with
  | refused pc => exact iff_of_true hp trivial
  | began pc nonempty =>
    exact paired_add_iff (ready_headed h.system) (ready_paired (hidle (by rw [pc]; rfl))) rfl
  | failed pc | exhausted pc =>
    exact (paired_rollBack_iff _ (hidle (by rw [pc]; rfl))).trans (rollsClean_iff pc).symm
  | called pc more some =>
    have hbusy := h.busy (by rw [pc]; simp)
    exact paired_called_iff hbusy (hidle (by rw [pc]; rfl))
  | answered pc more =>
    exact paired_add_iff (h.busy (by rw [pc]; simp)) (hidle (by rw [pc]; rfl)) rfl
  | ran pc | unknown pc =>
    refine paired_result_iff (h.busy (by rw [pc]; simp)) ?_
    have howed : owed [] c.agent.entries = some c.pc.owing := hp
    rw [pc] at howed
    exact howed
  | looped pc =>
    refine iff_of_true ?_ trivial
    exact hidle (by rw [pc]; rfl)

theorem start_paired (a : Agent) :
    (⟨agentNewConversation a, .idle⟩ : Chat).Headed ∧ (⟨agentNewConversation a, .idle⟩ : Chat).Paired := by
  refine ⟨⟨.inl rfl, fun hi => absurd rfl hi, ?_⟩, rfl⟩
  rintro pre iter (hpc | ⟨_, hpc⟩) <;> cases hpc

theorem paired_run (h : Run (Guarded (Step cj registry) Kept) ⟨agentNewConversation a, .idle⟩ es c) :
    c.Headed ∧ c.Paired := by
  refine h.invariant (P := fun c => c.Headed ∧ c.Paired) (start_paired a) ?_
  intro c e d ⟨hh, hp⟩ ⟨hkept, hstep⟩
  exact ⟨hh.step hstep, (paired_step_iff hh hp hstep).mpr hkept⟩

/-- Whenever the provider is asked, nothing is owed. -/
theorem request_paired (hp : c.Paired) (hs : Step cj registry c e d) (hreq : e.request = some request) :
    WellPaired (request.children.map wireEntry) := by
  have hidle : ∀ pre iter, c.pc = .asking pre iter →
      WellPaired ((buildMessagesJson cj c.agent).children.map wireEntry) := by
    intro pre iter hpc
    rw [buildMessagesJson_entries, wellPaired_iff]
    have howed : owed [] c.agent.entries = some c.pc.owing := hp
    rw [hpc] at howed
    exact howed
  cases hs with
  | failed pc | called pc | answered pc =>
    cases hreq
    exact hidle _ _ pc
  | _ => cases hreq

/-- In a run of kept steps every request is well paired, and the runs whose every
step leaves a paired history are the runs of kept steps. -/
theorem requests_paired_iff (cj : Codec) (registry : Str → Bool) (a : Agent) (es : List Event)
    (c : Chat) :
    (Run (Guarded (Step cj registry) Kept) ⟨agentNewConversation a, .idle⟩ es c →
      ∀ e ∈ es, ∀ request, e.request = some request → WellPaired (request.children.map wireEntry)) ∧
    (Run (fun c e d => Step cj registry c e d ∧ d.Paired) ⟨agentNewConversation a, .idle⟩ es c ↔
      Run (Guarded (Step cj registry) Kept) ⟨agentNewConversation a, .idle⟩ es c) := by
  constructor
  · intro h
    induction h with
    | nil => exact fun e he => absurd he List.not_mem_nil
    | snoc run last ih =>
      intro e he request hreq
      rcases List.mem_append.mp he with he | he
      · exact ih e he request hreq
      · obtain rfl := List.mem_singleton.mp he
        exact request_paired (paired_run run).2 last.2 hreq
  · exact Run.kept_iff (P := fun c => c.Headed ∧ c.Paired) (start_paired a)
      (fun _ _ _ h hs hpaired => ⟨h.1.step hs, hpaired⟩)
      (fun _ _ _ h hs => paired_step_iff h.1 h.2 hs)

end Steps
def smallAgent : Agent := ⟨[], 3, 10, [], ⟨false, false, false⟩⟩

def callOf (id : Str) : Json :=
  .object [("id".toList, .string id), ("function".toList, .object [("name".toList, .string "x".toList)])]

/-- With room for three messages the second of two results pushes out the message
that made the calls, and the next request starts with both results. -/
theorem mid_turn_compaction_unpairs :
    ∃ es c, Run (Step ⟨fun _ => none, fun _ => []⟩ (fun _ => false))
      ⟨agentNewConversation smallAgent, .idle⟩ es c ∧
      ∃ e ∈ es, ∃ request, e.request = some request ∧
        ¬ WellPaired (request.children.map wireEntry) := by
  have hrun : Run (Step ⟨fun _ => none, fun _ => []⟩ (fun _ => false))
      ⟨agentNewConversation smallAgent, .idle⟩
      [.began "hi".toList, .called _ none (.array [callOf "a".toList, callOf "b".toList]),
        .unknown _, .unknown _, .looped, .answered _ "ok".toList] _ :=
    .cons (.began rfl (by decide)) (.cons (.called rfl (by decide) (by decide))
      (.cons (.unknown rfl rfl) (.cons (.unknown rfl rfl)
        (.cons (.looped rfl) (.single (.answered rfl (by decide)))))))
  refine ⟨_, _, hrun, _, List.mem_of_getLast? rfl, _, rfl, ?_⟩
  rw [buildMessagesJson_entries, wellPaired_iff]
  decide

end Dobby.AgentLoop
