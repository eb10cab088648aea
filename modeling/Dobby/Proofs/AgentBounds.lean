import Dobby.Proofs.AgentPairing

namespace Dobby.AgentLoop
open Runs

/-- The index that `agent_add_message` writes to. -/
def writeIndex (a : Agent) : Nat :=
  (if a.limit ≤ a.messages.length then agentCompactHistory a else a).messages.length

/-- The indices of the messages that a stretch of `agent_chat` writes. -/
def Chat.writes (c : Chat) : Event → List Nat
  | .began _ =>
    (if c.agent.messages.length = 0 then [writeIndex c.agent] else []) ++ [writeIndex c.agent.ready]
  | .called _ _ _ | .answered _ _ | .ran _ _ _ | .unknown _ => [writeIndex c.agent]
  | _ => []

/-- What happens to an agent: a stretch of `agent_chat`, or a new conversation
between two calls of it. -/
inductive Move (cj : Codec) (registry : Str → Bool) : Chat → Option Event → Chat → Prop where
  | chat (step : Step cj registry c e d) : Move cj registry c (some e) d
  | renewed (pc : c.pc = .idle) : Move cj registry c none ⟨agentNewConversation c.agent, .idle⟩

theorem limit_le (a : Agent) : a.limit ≤ maxMessagesHard := by
  unfold Agent.limit
  split
  · rename_i h
    exact Int.toNat_le.mpr h.2
  · exact Nat.le_refl _

section Adding
variable {a : Agent} {role : Str} {content toolCallId name : Option Str} {toolCalls : Option Json}

theorem add_written (a : Agent) (role : Str) (content toolCallId name : Option Str)
    (toolCalls : Option Json) : ∃ front,
    (agentAddMessage a role content toolCallId name toolCalls).messages =
      front ++ [⟨role, content.getD [], toolCallId, name, toolCalls, true⟩] ∧
    front.length = writeIndex a :=
  ⟨_, rfl, rfl⟩

/-- Compaction makes room for a message, or the history holds the system message only. -/
theorem writeIndex_lt (h : a.messages.length ≤ max a.limit 2) : writeIndex a < max a.limit 2 := by
  unfold writeIndex
  split
  · rename_i hfull
    have hlen : 0 < a.messages.length := Nat.lt_of_lt_of_le (limit_pos a) hfull
    obtain ⟨hge, hle⟩ := cutEnd_bounds a
    rw [compact_messages a (List.ne_nil_of_length_pos hlen), List.length_append, List.length_take,
      List.length_drop]
    omega
  · omega

theorem add_bound (h : a.messages.length ≤ max a.limit 2) :
    (agentAddMessage a role content toolCallId name toolCalls).messages.length ≤ max a.limit 2 := by
  obtain ⟨front, hm, hfront⟩ := add_written a role content toolCallId name toolCalls
  have hlt := writeIndex_lt h
  rw [hm, List.length_append, List.length_singleton]
  omega

theorem written_inside (h : a.messages.length ≤ max a.limit 2) : writeIndex a < maxMessagesHard := by
  have hlt := writeIndex_lt h
  have hle := limit_le a
  have htwo : 2 ≤ maxMessagesHard := by decide
  omega

end Adding

theorem ready_bound {a : Agent} (h : a.messages.length ≤ max a.limit 2) :
    a.ready.messages.length ≤ max a.limit 2 := by
  by_cases hm : a.messages = []
  · obtain ⟨content, hready⟩ := (ready_messages a).2 hm
    rw [hready, List.length_singleton]
    omega
  · rw [(ready_messages a).1 hm, List.length_map]
    exact h

section Moves
variable {cj : Codec} {registry : Str → Bool} {c d : Chat}

/-- The system message stands first and the history has its size; the limit stays. -/
structure Chat.Bounded (a : Agent) (c : Chat) : Prop where
  headed : c.Headed
  limit : c.agent.limit = a.limit
  length : c.agent.messages.length ≤ max a.limit 2

theorem renewed_bounded (h : b.limit = a.limit) :
    (⟨agentNewConversation b, .idle⟩ : Chat).Bounded a := by
  refine ⟨⟨.inl rfl, fun hbusy => absurd rfl hbusy, ?_⟩, h, Nat.zero_le _⟩
  intro pre iter hpc
  rcases hpc with hpc | ⟨_, hpc⟩ <;> cases hpc

theorem step_limit (hs : Step cj registry c e d) : d.agent.limit = c.agent.limit := by
  cases hs with
  | refused | failed | looped | exhausted => rfl
  | began => exact (limit_eq (add_maxMessages ..)).trans (limit_eq (ready_maxMessages c.agent))
  | called | answered | ran | unknown => exact limit_eq (add_maxMessages ..)

theorem step_length (h : c.agent.messages.length ≤ max c.agent.limit 2)
    (hs : Step cj registry c e d) : d.agent.messages.length ≤ max c.agent.limit 2 := by
  have hroll (pre : Nat) : (rollBack pre c.agent.messages).length ≤ max c.agent.limit 2 := by
    rw [rollBack_eq_take]
    exact (List.length_take_le' pre _).trans h
  cases hs with
  | refused | looped => exact h
  | failed | exhausted => exact hroll _
  | called | answered | ran | unknown => exact add_bound h
  | began =>
    have hlimit := limit_eq (ready_maxMessages c.agent)
    have hready := ready_bound h
    rw [← hlimit] at hready ⊢
    exact add_bound hready

theorem step_writes (h : c.agent.messages.length ≤ max c.agent.limit 2) (e : Event) :
    ∀ i ∈ c.writes e, i < maxMessagesHard := by
  have hready : writeIndex c.agent.ready < maxMessagesHard := by
    apply written_inside
    rw [limit_eq (ready_maxMessages c.agent)]
    exact ready_bound h
  have hwritten := written_inside h
  intro i hi
  cases e with
  | refused | failed | looped | exhausted => cases hi
  | called | answered | ran | unknown => exact List.mem_singleton.mp hi ▸ hwritten
  | began =>
    rcases List.mem_append.mp hi with hi | hi
    · split at hi
      · exact List.mem_singleton.mp hi ▸ hwritten
      · cases hi
    · exact List.mem_singleton.mp hi ▸ hready

theorem Chat.Bounded.move (h : c.Bounded a) (hm : Move cj registry c e d) : d.Bounded a := by
  obtain ⟨hheaded, hlimit, hlength⟩ := h
  cases hm with
  | chat hs =>
    rw [← hlimit] at hlength
    refine ⟨hheaded.step hs, (step_limit hs).trans hlimit, ?_⟩
    rw [← hlimit]
    exact step_length hlength hs
  | renewed => exact renewed_bounded hlimit

/-- Whatever the limit is set to, the history stays inside its array, and behind the
system message. -/
theorem history_bounded (h : Run (Move cj registry) ⟨agentNewConversation a, .idle⟩ es c) :
    (∀ e d, Step cj registry c e d → ∀ i ∈ c.writes e, i < maxMessagesHard) ∧
    c.agent.messages.length ≤ max a.limit 2 ∧ (c.agent.messages ≠ [] → c.agent.Headed) := by
  obtain ⟨hheaded, hlimit, hlength⟩ :=
    h.invariant (renewed_bounded (a := a) rfl) (fun _ _ _ hb hm => hb.move hm)
  refine ⟨?_, hlength, hheaded.system.resolve_left⟩
  intro e d _
  rw [← hlimit] at hlength
  exact step_writes hlength e

end Moves

/-- An agent that may keep one message only. -/
def terseAgent : Agent := ⟨[], 1, 10, [], ⟨false, false, false⟩⟩

/-- Such an agent keeps its system message and the newest message, also in its next chat. -/
theorem terse_history_bounded : ∃ request c, c.agent.messages.length = 2 ∧
    Run (Move ⟨fun _ => none, fun _ => []⟩ (fun _ => false)) ⟨agentNewConversation terseAgent, .idle⟩
      [some (.began "a".toList), some (.answered request "b".toList), none,
        some (.began "c".toList)] c ∧
    c.agent.messages.length ≤ max terseAgent.limit 2 := by
  have hbegins {c : Chat} (text : Str) (pc : c.pc = .idle) (nonempty : text ≠ []) :
      Move ⟨fun _ => none, fun _ => []⟩ (fun _ => false) c (some (.began text)) _ :=
    .chat (.began pc nonempty)
  have hanswers {c : Chat} {pre iter : Nat} (pc : c.pc = .asking pre iter)
      (more : iter < c.agent.maxIterations) : Move ⟨fun _ => none, fun _ => []⟩ (fun _ => false) c
        (some (.answered (buildMessagesJson _ c.agent) "b".toList)) _ :=
    .chat (.answered pc more)
  have hbegun := hbegins (c := ⟨agentNewConversation terseAgent, .idle⟩) "a".toList rfl (by decide)
  have hturn := (Run.single hbegun).snoc (hanswers rfl (by decide))
  have hrun := (hturn.snoc (.renewed rfl)).snoc (hbegins "c".toList rfl (by decide))
  exact ⟨_, _, rfl, hrun, (history_bounded hrun).2.1⟩

end Dobby.AgentLoop
