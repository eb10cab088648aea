import Dobby.Model.Agent

namespace Dobby.AgentLoop

theorem rollBack_eq_take (pre : Nat) (messages : List Message) :
    rollBack pre messages = messages.take pre := by
  induction hn : messages.length using Nat.strongRecOn generalizing messages with
  | _ n ih =>
    rw [rollBack]
    split
    · rename_i hlt
      have hlen : messages.dropLast.length = n - 1 := by rw [List.length_dropLast, hn]
      rw [agentPopLastMessage, ih (n - 1) (by omega) _ hlen, List.dropLast_eq_take, List.take_take]
      congr 1
      omega
    · rename_i hle
      rw [List.take_of_length_le (by omega)]

theorem limit_pos (a : Agent) : 0 < a.limit := by
  unfold Agent.limit
  split
  · omega
  · decide

theorem limit_eq {a b : Agent} (h : b.maxMessages = a.maxMessages) : b.limit = a.limit := by
  rw [Agent.limit, Agent.limit, h]

theorem walkBack_le (messages : List Message) (n : Nat) : walkBack messages n ≤ n := by
  induction n with
  | zero => exact Nat.le_refl 0
  | succ n ih =>
    rw [walkBack]
    split
    · exact Nat.le_succ_of_le ih
    · exact Nat.le_refl _

theorem walkBack_ge (messages : List Message) (n : Nat) : min n 2 ≤ walkBack messages n := by
  induction n with
  | zero => exact Nat.zero_le _
  | succ n ih =>
    rw [walkBack]
    split
    · omega
    · omega

/-- The cut lies behind the system message, and behind the next one if there is one. -/
theorem cutEnd_bounds (a : Agent) :
    min a.messages.length 2 ≤ a.cutEnd ∧ a.cutEnd ≤ a.messages.length := by
  have hle := walkBack_le a.messages (min (1 + max 1 (a.limit / 4)) a.messages.length)
  have hge := walkBack_ge a.messages (min (1 + max 1 (a.limit / 4)) a.messages.length)
  change a.cutEnd ≤ _ at hle
  change _ ≤ a.cutEnd at hge
  constructor <;> omega

theorem compact_messages (a : Agent) (h : a.messages ≠ []) :
    (agentCompactHistory a).messages = a.messages.take 1 ++ a.messages.drop a.cutEnd := by
  have hpos := List.length_pos_of_ne_nil h
  obtain ⟨hge, _⟩ := cutEnd_bounds a
  rw [agentCompactHistory]
  split
  · have hone : a.cutEnd = 1 := by omega
    rw [hone, List.take_append_drop]
  · rfl

theorem compact_frame (a : Agent) :
    (agentCompactHistory a).maxMessages = a.maxMessages ∧
      (agentCompactHistory a).maxIterations = a.maxIterations ∧
      (agentCompactHistory a).fmt = a.fmt := by
  rw [agentCompactHistory]
  split <;> exact ⟨rfl, rfl, rfl⟩

theorem add_room {a : Agent} (h : a.messages.length < a.limit) (role : Str)
    (content toolCallId name : Option Str) (toolCalls : Option Json) :
    (agentAddMessage a role content toolCallId name toolCalls).messages =
      a.messages ++ [⟨role, content.getD [], toolCallId, name, toolCalls, true⟩] := by
  simp only [agentAddMessage, if_neg (Nat.not_le_of_lt h)]

theorem add_full {a : Agent} (h : a.limit ≤ a.messages.length) (role : Str)
    (content toolCallId name : Option Str) (toolCalls : Option Json) :
    (agentAddMessage a role content toolCallId name toolCalls).messages =
      a.messages.take 1 ++ (a.messages.drop a.cutEnd ++
        [⟨role, content.getD [], toolCallId, name, toolCalls, true⟩]) := by
  have hne : a.messages ≠ [] := List.ne_nil_of_length_pos (Nat.lt_of_lt_of_le (limit_pos a) h)
  simp only [agentAddMessage, if_pos h]
  rw [compact_messages a hne, List.append_assoc]

theorem add_maxMessages (a : Agent) (role : Str) (content toolCallId name : Option Str)
    (toolCalls : Option Json) :
    (agentAddMessage a role content toolCallId name toolCalls).maxMessages = a.maxMessages := by
  simp only [agentAddMessage]
  split
  · exact (compact_frame a).1
  · rfl

/-- Only an empty history gets a system message. -/
theorem ready_messages (a : Agent) :
    (a.messages ≠ [] → a.ready.messages = a.messages.map Message.settle) ∧
    (a.messages = [] → ∃ content, a.ready.messages =
      [⟨"system".toList, content, none, none, none, false⟩]) := by
  constructor
  · intro h
    simp [Agent.ready, h]
  · intro h
    have hroom : a.messages.length < a.limit := by
      rw [h]
      exact limit_pos a
    refine ⟨buildSystemPrompt a, ?_⟩
    simp [Agent.ready, h, add_room hroom, Message.settle]

theorem ready_maxMessages (a : Agent) : a.ready.maxMessages = a.maxMessages := by
  simp only [Agent.ready]
  split
  · exact add_maxMessages ..
  · rfl

end Dobby.AgentLoop
