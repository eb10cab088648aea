import Dobby.Proofs.AgentRollback
import Mathlib.Data.List.Infix

namespace Dobby.AgentLoop
open Runs

/-- The message that the user starts the turn with. -/
def question (text : Str) : Message := ⟨"user".toList, text, none, none, none, true⟩

def Message.isQuestion (m : Message) : Bool := m.fresh && m.role == "user".toList

def questionAt (a : Agent) : Nat := a.messages.findIdx Message.isQuestion

/-- Stretches of `agent_chat` within one turn. -/
def Onward (cj : Codec) (registry : Str → Bool) (c : Chat) (e : Event) (d : Chat) : Prop :=
  Step cj registry c e d ∧ e.returned = none

/-- A message that finds the history full leaves a cut in front of the question. -/
def Spares (c : Chat) (e : Event) : Prop :=
  0 < e.adds → c.agent.limit ≤ c.agent.messages.length → c.agent.cutEnd ≤ questionAt c.agent

/-- The request has the question of this turn among its messages. -/
def Carries (cj : Codec) (c : Chat) (text : Str) (request : Json) : Prop :=
  ∃ front back, c.agent.messages = front ++ question text :: back ∧
    request = .array ((front ++ question text :: back).map (wireMessage cj c.agent.fmt))

/-- The first element of its kind is behind a cut exactly if the cut lies in front of it. -/
theorem mem_drop_iff_findIdx {p : α → Bool} {l : List α} {x : α} (h : l.filter p = [x]) (k : Nat) :
    x ∈ l.drop k ↔ k ≤ l.findIdx p := by
  have hx : p x = true := by
    have hmem : x ∈ l.filter p := by simp [h]
    exact (List.mem_filter.mp hmem).2
  have hsplit : (l.take k).filter p ++ (l.drop k).filter p = [x] := by
    rw [← List.filter_append, List.take_append_drop, h]
  constructor
  · intro hmem
    by_contra hlt
    have hlen : l.findIdx p < l.length := List.findIdx_lt_length.mpr ⟨x, List.mem_of_mem_drop hmem, hx⟩
    have hfirst : l[l.findIdx p] ∈ (l.take k).filter p := by
      apply List.mem_filter.mpr
      refine ⟨List.mem_take_iff_getElem.mpr ⟨l.findIdx p, by omega, rfl⟩, List.findIdx_getElem⟩
    have hsecond : x ∈ (l.drop k).filter p := List.mem_filter.mpr ⟨hmem, hx⟩
    have htwo := congrArg List.length hsplit
    have h₁ := List.length_pos_of_mem hfirst
    have h₂ := List.length_pos_of_mem hsecond
    rw [List.length_append, List.length_singleton] at htwo
    omega
  · intro hle
    have hnone : (l.take k).filter p = [] := by
      apply List.filter_eq_nil_iff.mpr
      intro y hy
      obtain ⟨i, hi, rfl⟩ := List.mem_take_iff_getElem.mp hy
      have hbefore : i < l.findIdx p := by omega
      simp [List.not_of_lt_findIdx hbefore]
    rw [hnone, List.nil_append] at hsplit
    have hmem : x ∈ (l.drop k).filter p := by simp [hsplit]
    exact (List.mem_filter.mp hmem).1

section Adding
variable {a : Agent} {role : Str} {content toolCallId name : Option Str} {toolCalls : Option Json}

/-- Behind what is left of the history comes the new message. -/
theorem add_sublist (hne : a.messages ≠ []) (role : Str) (content toolCallId name : Option Str)
    (toolCalls : Option Json) : ∃ front,
    (agentAddMessage a role content toolCallId name toolCalls).messages =
      front ++ [⟨role, content.getD [], toolCallId, name, toolCalls, true⟩] ∧
    front.Sublist a.messages := by
  by_cases hfull : a.limit ≤ a.messages.length
  · have hpos := List.length_pos_of_ne_nil hne
    have hcut := (cutEnd_bounds a).1
    refine ⟨a.messages.take 1 ++ a.messages.drop a.cutEnd, by rw [add_full hfull, List.append_assoc], ?_⟩
    calc (a.messages.take 1 ++ a.messages.drop a.cutEnd).Sublist
          (a.messages.take 1 ++ a.messages.drop 1) :=
        (List.drop_sublist_drop_left a.messages (by omega)).append_left _
      _ = a.messages := List.take_append_drop 1 a.messages
  · exact ⟨a.messages, add_room (Nat.lt_of_not_le hfull) .., List.Sublist.refl _⟩

/-- Answers and results bring no second question. -/
theorem add_questions (hrole : role ≠ "user".toList) (hne : a.messages ≠ []) :
    ((agentAddMessage a role content toolCallId name toolCalls).messages.filter
      Message.isQuestion).Sublist (a.messages.filter Message.isQuestion) := by
  have hnew : Message.isQuestion ⟨role, content.getD [], toolCallId, name, toolCalls, true⟩ = false := by
    simpa [Message.isQuestion] using hrole
  obtain ⟨front, hm, hfront⟩ := add_sublist hne role content toolCallId name toolCalls
  rw [hm, List.filter_append, List.filter_cons_of_neg (by simp [hnew]), List.filter_nil,
    List.append_nil]
  exact hfront.filter _

theorem question_add_iff (hrole : role ≠ "user".toList)
    (hhead : ∀ m ∈ a.messages.head?, m.fresh = false)
    (hone : a.messages.filter Message.isQuestion = [question text]) :
    question text ∈ (agentAddMessage a role content toolCallId name toolCalls).messages ↔
      (a.limit ≤ a.messages.length → a.cutEnd ≤ questionAt a) := by
  have hnew : question text ≠ ⟨role, content.getD [], toolCallId, name, toolCalls, true⟩ := by
    intro h
    exact hrole (congrArg Message.role h).symm
  have hin : question text ∈ a.messages := by
    have hmem : question text ∈ a.messages.filter Message.isQuestion := by simp [hone]
    exact (List.mem_filter.mp hmem).1
  by_cases hfull : a.limit ≤ a.messages.length
  · have hsystem : question text ∉ a.messages.take 1 := by
      intro hmem
      cases hm : a.messages with
      | nil =>
        rw [hm] at hmem
        cases hmem
      | cons m rest =>
        rw [hm, List.take_succ_cons, List.take_zero, List.mem_singleton] at hmem
        have hfresh := hhead m (by simp [hm])
        rw [← hmem] at hfresh
        cases hfresh
    rw [add_full hfull, List.mem_append, List.mem_append, List.mem_singleton,
      mem_drop_iff_findIdx hone]
    constructor
    · intro h _
      exact (h.resolve_left hsystem).resolve_right hnew
    · intro h
      exact .inr (.inl (h hfull))
  · rw [add_room (Nat.lt_of_not_le hfull)]
    exact iff_of_true (List.mem_append_left _ hin) (fun h => absurd h hfull)

end Adding

section Steps
variable {cj : Codec} {registry : Str → Bool} {b c d : Chat}

/-- The middle of a turn: an older message stands first, and at most the one question
of this turn is in the history. -/
structure Chat.Turn (text : Str) (c : Chat) : Prop where
  busy : c.pc ≠ .idle
  nonempty : c.agent.messages ≠ []
  head : ∀ m ∈ c.agent.messages.head?, m.fresh = false
  questions : (c.agent.messages.filter Message.isQuestion).Sublist [question text]

theorem Chat.Turn.one (h : c.Turn text) (hin : question text ∈ c.agent.messages) :
    c.agent.messages.filter Message.isQuestion = [question text] := by
  apply (List.sublist_singleton.mp h.questions).resolve_left
  intro hnone
  have hmem : question text ∈ c.agent.messages.filter Message.isQuestion :=
    List.mem_filter.mpr ⟨hin, rfl⟩
  rw [hnone] at hmem
  cases hmem

theorem add_head (hne : a.messages ≠ []) (role : Str) (content toolCallId name : Option Str)
    (toolCalls : Option Json) :
    (agentAddMessage a role content toolCallId name toolCalls).messages.head? = a.messages.head? := by
  by_cases hfull : a.limit ≤ a.messages.length
  · rw [add_full hfull]
    cases hm : a.messages with
    | nil => exact absurd hm hne
    | cons m rest => rfl
  · rw [add_room (Nat.lt_of_not_le hfull), List.head?_append_of_ne_nil _ hne]

theorem Chat.Turn.add {pc : Pc} (h : c.Turn text) (hrole : role ≠ "user".toList) (hpc : pc ≠ .idle) :
    (⟨agentAddMessage c.agent role content toolCallId name toolCalls, pc⟩ : Chat).Turn text := by
  have hhead := add_head h.nonempty role content toolCallId name toolCalls
  refine ⟨hpc, ?_, ?_, (add_questions hrole h.nonempty).trans h.questions⟩
  · intro hnil
    change (agentAddMessage c.agent role content toolCallId name toolCalls).messages = [] at hnil
    rw [hnil, List.head?_nil, eq_comm, List.head?_eq_none_iff] at hhead
    exact h.nonempty hhead
  · intro m hm
    exact h.head m (hhead ▸ hm)

theorem began_turn (hs : Step cj registry ⟨a, .idle⟩ (.began text) c) :
    c.Turn text ∧ question text ∈ c.agent.messages := by
  cases hs with
  | began pc nonempty =>
    have hne : a.ready.messages ≠ [] := List.ne_nil_of_length_pos (ready_ne_nil a)
    have hold : ∀ m ∈ a.ready.messages, m.fresh = false := ready_settled a
    obtain ⟨front, hm, hfront⟩ : ∃ front,
        (agentAddMessage a.ready "user".toList (some text) none none none).messages =
          front ++ [question text] ∧ front.Sublist a.ready.messages :=
      add_sublist hne ..
    have hhead := add_head hne "user".toList (some text) none none none
    refine ⟨⟨Pc.noConfusion, ?_, ?_, ?_⟩, ?_⟩
    · change (agentAddMessage a.ready "user".toList (some text) none none none).messages ≠ []
      rw [hm]
      exact List.concat_ne_nil _ _
    · intro m hmem
      exact hold m (List.mem_of_mem_head? (hhead ▸ hmem))
    · change ((agentAddMessage a.ready "user".toList (some text) none none none).messages.filter
        Message.isQuestion).Sublist [question text]
      have hnone : front.filter Message.isQuestion = [] := by
        apply List.filter_eq_nil_iff.mpr
        intro m hmem
        simp [Message.isQuestion, hold m (hfront.subset hmem)]
      rw [hm, List.filter_append, hnone, List.nil_append]
      exact List.filter_sublist
    · change question text ∈ (agentAddMessage a.ready "user".toList (some text) none none none).messages
      rw [hm]
      exact List.mem_append_right _ List.mem_cons_self

theorem assistant_not_user : "assistant".toList ≠ "user".toList := by decide

theorem tool_not_user : "tool".toList ≠ "user".toList := by decide

theorem Chat.Turn.step (h : c.Turn text) (hs : Onward cj registry c e d) : d.Turn text := by
  obtain ⟨hs, hreturned⟩ := hs
  cases hs with
  | refused | failed | answered | exhausted => cases hreturned
  | began pc => exact absurd pc h.busy
  | called pc more some => exact h.add assistant_not_user Pc.noConfusion
  | ran pc | unknown pc => exact h.add tool_not_user Pc.noConfusion
  | looped pc => exact ⟨Pc.noConfusion, h.nonempty, h.head, h.questions⟩

/-- A step of the turn keeps the question exactly if it spares it. -/
theorem question_step_iff (h : c.Turn text) (hs : Onward cj registry c e d) :
    question text ∈ d.agent.messages ↔ question text ∈ c.agent.messages ∧ Spares c e := by
  have hadd {role : Str} {content toolCallId name : Option Str} {toolCalls : Option Json}
      (hrole : role ≠ "user".toList) :
      question text ∈ (agentAddMessage c.agent role content toolCallId name toolCalls).messages ↔
        question text ∈ c.agent.messages ∧
          (c.agent.limit ≤ c.agent.messages.length → c.agent.cutEnd ≤ questionAt c.agent) := by
    by_cases hin : question text ∈ c.agent.messages
    · rw [question_add_iff hrole h.head (h.one hin)]
      exact (and_iff_right hin).symm
    · refine iff_of_false ?_ (fun hand => hin hand.1)
      intro hmem
      obtain ⟨front, hm, hfront⟩ := add_sublist h.nonempty role content toolCallId name toolCalls
      rw [hm, List.mem_append, List.mem_singleton] at hmem
      rcases hmem with hmem | hmem
      · exact hin (hfront.subset hmem)
      · exact hrole (congrArg Message.role hmem).symm
  obtain ⟨hs, hreturned⟩ := hs
  cases hs with
  | refused | failed | answered | exhausted => cases hreturned
  | began pc => exact absurd pc h.busy
  | called pc more some =>
    rw [hadd assistant_not_user]
    simp [Spares, Event.adds]
  | ran pc | unknown pc =>
    rw [hadd tool_not_user]
    simp [Spares, Event.adds]
  | looped pc => simp [Spares, Event.adds]

/-- What the provider is asked has the question of the turn exactly if every message
added since spared it. -/
theorem request_carries_iff (hbegan : Step cj registry ⟨a, .idle⟩ (.began text) b)
    (h : Run (Onward cj registry) b es c) (hs : Step cj registry c e d)
    (hreq : e.request = some request) :
    Carries cj c text request ↔ Run (Guarded (Onward cj registry) Spares) b es c := by
  obtain ⟨hturn, hasked⟩ := began_turn hbegan
  have hrequest : request = buildMessagesJson cj c.agent := by
    cases hs with
    | failed | called | answered => exact (Option.some.inj hreq).symm
    | _ => cases hreq
  have hcarries : Carries cj c text request ↔ question text ∈ c.agent.messages := by
    constructor
    · intro hc
      obtain ⟨front, back, hm, -⟩ := hc
      simp [hm]
    · intro hmem
      obtain ⟨front, back, hm⟩ := List.append_of_mem hmem
      exact ⟨front, back, hm, by rw [hrequest, buildMessagesJson, hm]⟩
  rw [hcarries]
  exact h.guarded_iff (P := fun c => c.Turn text) (A := fun c => question text ∈ c.agent.messages)
    hturn hasked (fun _ _ _ hc hs => hc.step hs) (fun _ _ _ hc hs => question_step_iff hc hs)

end Steps

def talker (limit : Int) : Agent := ⟨[], limit, 10, [], ⟨false, false, false⟩⟩

def asked (a : Agent) (text : Str) : Chat :=
  ⟨agentAddMessage a.ready "user".toList (some text) none none none,
    .asking a.ready.messages.length 0⟩

def lookupCall (id : Str) : Json :=
  .object [("id".toList, .string id), ("function".toList, .object [("name".toList, .string "x".toList)])]

theorem answered (content : Str) {c : Chat} (pc : c.pc = .asking 1 1) (more : 1 < c.agent.maxIterations) :
    Step cj registry c (.answered (buildMessagesJson cj c.agent) content)
      ⟨agentAddMessage c.agent "assistant".toList (stripThinkTags (some content)) none none none, .idle⟩ :=
  .answered pc more

/-- One result fits in behind the question. -/
theorem short_turn_carries : ∃ c : Chat, ∃ request : Json, c.agent.limit ≤ c.agent.messages.length ∧
    Carries ⟨fun _ => none, fun _ => []⟩ c "hi".toList request := by
  have hbegan : Step ⟨fun _ => none, fun _ => []⟩ (fun _ => false) ⟨talker 4, .idle⟩
      (.began "hi".toList) (asked (talker 4) "hi".toList) := .began rfl (by decide)
  have hgood : Run (Guarded (Onward ⟨fun _ => none, fun _ => []⟩ (fun _ => false)) Spares)
      (asked (talker 4) "hi".toList)
      [.called _ none (.array [lookupCall "a".toList]), .unknown _, .looped] _ :=
    .cons ⟨fun _ hfull => absurd hfull (by decide), .called rfl (by decide) (by decide), rfl⟩
      (.cons ⟨fun _ hfull => absurd hfull (by decide), .unknown rfl rfl, rfl⟩
        (.single ⟨fun hadds => absurd hadds (by decide), .looped rfl, rfl⟩))
  refine ⟨_, _, ?_, (request_carries_iff hbegan hgood.unguard
    (answered "ok".toList rfl (by decide)) rfl).mpr hgood⟩
  decide

/-- With room for four messages the second of two results pushes the question out. -/
theorem question_pushed_out : ∃ (b c d : Chat) (es : List Event) (e : Event) (request : Json),
    4 ≤ (talker 4).limit ∧
    Step ⟨fun _ => none, fun _ => []⟩ (fun _ => false) ⟨talker 4, .idle⟩ (.began "hi".toList) b ∧
    Run (Onward ⟨fun _ => none, fun _ => []⟩ (fun _ => false)) b es c ∧
    Step ⟨fun _ => none, fun _ => []⟩ (fun _ => false) c e d ∧ e.request = some request ∧
    ¬ Carries ⟨fun _ => none, fun _ => []⟩ c "hi".toList request := by
  have hbegan : Step ⟨fun _ => none, fun _ => []⟩ (fun _ => false) ⟨talker 4, .idle⟩
      (.began "hi".toList) (asked (talker 4) "hi".toList) := .began rfl (by decide)
  have hrun : Run (Onward ⟨fun _ => none, fun _ => []⟩ (fun _ => false))
      (asked (talker 4) "hi".toList)
      [.called _ none (.array [lookupCall "a".toList, lookupCall "b".toList]), .unknown _, .unknown _,
        .looped] _ :=
    .cons ⟨.called rfl (by decide) (by decide), rfl⟩ (.cons ⟨.unknown rfl rfl, rfl⟩
      (.cons ⟨.unknown rfl rfl, rfl⟩ (.single ⟨.looped rfl, rfl⟩)))
  refine ⟨_, _, _, _, .answered _ "ok".toList, _, by decide, hbegan, hrun, .answered (by rfl) ?_,
    rfl, ?_⟩
  · decide
  intro hcarries
  obtain ⟨front, back, hm, -⟩ := hcarries
  have hroles := congrArg (List.map Message.role) hm
  have hrole : "user".toList ∈ (front ++ question "hi".toList :: back).map Message.role := by
    simp [question]
  rw [← hroles] at hrole
  exact absurd hrole (by decide)

end Dobby.AgentLoop
