import Dobby.Proofs.AgentHistory
import Dobby.Base.Runs

namespace Dobby.AgentLoop
open Runs

/-- The events that return an error and roll the turn back. -/
def Event.Fails : Event → Prop
  | .failed _ _ | .exhausted => True
  | _ => False

/-- How many messages an event puts into the history. -/
def Event.adds : Event → Nat
  | .began _ | .called _ _ _ | .answered _ _ | .ran _ _ _ | .unknown _ => 1
  | _ => 0

def added (es : List Event) : Nat := (es.map Event.adds).sum

/-- Behind the system message only older messages are left, in their order. -/
def RolledBack (a b : Agent) : Prop :=
  ∃ system rest, b.messages = system :: rest ∧ a.ready.messages.head? = some system ∧
    rest.Sublist a.ready.messages.tail ∧ ∀ m ∈ b.messages, m.fresh = false

/-- A history during a turn that began with the messages `old` and has added `n`:
all of them behind all the old ones, or, once it was full, behind fewer of them. -/
def InTurn (old : List Message) (limit n : Nat) (messages : List Message) : Prop :=
  ∃ kept new, messages = old.take 1 ++ (kept ++ new) ∧ kept <:+ old.drop 1 ∧
    (∀ m ∈ new, m.fresh = true) ∧ (0 < n → new ≠ []) ∧
    (old.length ≤ 1 ∨
      (kept = old.drop 1 ∧ new.length = n ∧ (n = 0 ∨ old.length + n ≤ limit)) ∨
      (kept.length + 1 < old.length ∧ limit < old.length + n))

theorem ready_ne_nil (a : Agent) : 0 < a.ready.messages.length := by
  by_cases h : a.messages = []
  · obtain ⟨content, hready⟩ := (ready_messages a).2 h
    simp [hready]
  · rw [(ready_messages a).1 h, List.length_map]
    exact List.length_pos_of_ne_nil h

theorem ready_settled (a : Agent) : ∀ m ∈ a.ready.messages, m.fresh = false := by
  by_cases h : a.messages = []
  · obtain ⟨content, hready⟩ := (ready_messages a).2 h
    simp [hready]
  · rw [(ready_messages a).1 h]
    intro m hm
    obtain ⟨m', _, rfl⟩ := List.mem_map.mp hm
    rfl

section Adding
variable {a : Agent} {role : Str} {content toolCallId name : Option Str} {toolCalls : Option Json}

theorem InTurn.add_room (h : InTurn old a.limit n a.messages)
    (hroom : a.messages.length < a.limit) :
    InTurn old a.limit (n + 1)
      (agentAddMessage a role content toolCallId name toolCalls).messages := by
  obtain ⟨kept, new, hm, hkept, hfresh, _, hcases⟩ := h
  refine ⟨kept, new ++ [⟨role, content.getD [], toolCallId, name, toolCalls, true⟩],
    by rw [AgentLoop.add_room hroom, hm]; simp, hkept, ?_, fun _ => by simp, ?_⟩
  · intro m hmem
    rcases List.mem_append.mp hmem with hmem | hmem
    · exact hfresh m hmem
    · rw [List.mem_singleton.mp hmem]
  · rcases hcases with hone | ⟨hall, hn, _⟩ | ⟨hfew, hlim⟩
    · exact .inl hone
    · refine .inr (.inl ⟨hall, by simp [hn], .inr ?_⟩)
      rw [hm, hall, List.length_append, List.length_append, List.length_take, List.length_drop] at hroom
      omega
    · exact .inr (.inr ⟨hfew, by omega⟩)

/-- Adding to a full history costs an older message if there is one. -/
theorem InTurn.add_full (hpos : 0 < old.length) (h : InTurn old a.limit n a.messages)
    (hfull : a.limit ≤ a.messages.length) :
    InTurn old a.limit (n + 1)
      (agentAddMessage a role content toolCallId name toolCalls).messages := by
  obtain ⟨kept, new, hm, hkept, hfresh, _, hcases⟩ := h
  have hone : (old.take 1).length = 1 := by
    rw [List.length_take]
    omega
  have hlen : a.messages.length = 1 + (kept.length + new.length) := by
    rw [hm, List.length_append, List.length_append, hone]
  obtain ⟨hge, _⟩ := cutEnd_bounds a
  obtain ⟨cut, hcut⟩ : ∃ cut, a.cutEnd = cut + 1 := ⟨a.cutEnd - 1, by omega⟩
  have htake : a.messages.take 1 = old.take 1 := by
    rw [hm, List.take_append_of_le_length (by omega), List.take_take]
    rfl
  have hdrop : a.messages.drop a.cutEnd = kept.drop cut ++ new.drop (cut - kept.length) := by
    have hover : cut + 1 - (old.take 1).length = cut := by omega
    have hsystem : (old.take 1).drop (cut + 1) = [] := List.drop_eq_nil_of_le (by omega)
    rw [hm, hcut, List.drop_append, List.drop_append, hover, hsystem, List.nil_append]
  refine ⟨kept.drop cut, new.drop (cut - kept.length) ++
    [⟨role, content.getD [], toolCallId, name, toolCalls, true⟩], ?_,
    (List.drop_suffix _ _).trans hkept, ?_, fun _ => by simp, ?_⟩
  · rw [AgentLoop.add_full hfull, hdrop, htake, List.append_assoc]
  · intro m hmem
    rcases List.mem_append.mp hmem with hmem | hmem
    · exact hfresh m (List.mem_of_mem_drop hmem)
    · rw [List.mem_singleton.mp hmem]
  · rcases hcases with hsmall | ⟨hall, hn, _⟩ | ⟨hfew, hlim⟩
    · exact .inl hsmall
    · by_cases hsmall : old.length ≤ 1
      · exact .inl hsmall
      · have hkeptlen : kept.length = old.length - 1 := by rw [hall, List.length_drop]
        refine .inr (.inr ⟨?_, by omega⟩)
        rw [List.length_drop]
        omega
    · refine .inr (.inr ⟨?_, by omega⟩)
      rw [List.length_drop]
      omega

theorem InTurn.add (hpos : 0 < old.length) (h : InTurn old a.limit n a.messages) :
    InTurn old a.limit (n + 1)
      (agentAddMessage a role content toolCallId name toolCalls).messages := by
  by_cases hfull : a.limit ≤ a.messages.length
  · exact h.add_full hpos hfull
  · exact h.add_room (Nat.lt_of_not_le hfull)

end Adding

theorem inTurn_start (old : List Message) (limit : Nat) : InTurn old limit 0 old := by
  have hold : old = old.take 1 ++ (old.drop 1 ++ []) := by
    rw [List.append_nil, List.take_append_drop]
  exact ⟨old.drop 1, [], hold, List.suffix_refl _, fun m hm => absurd hm List.not_mem_nil,
    fun h => absurd h (Nat.lt_irrefl 0), .inr (.inl ⟨rfl, rfl, .inl rfl⟩)⟩

theorem inTurn_rollBack_iff {a b : Agent} (h : InTurn a.ready.messages limit n messages)
    (hn : 0 < n) (hb : b.messages = rollBack a.ready.messages.length messages) :
    RolledBack a b ↔ a.ready.messages.length ≤ 1 ∨ a.ready.messages.length + n ≤ limit := by
  have hold : ∀ m ∈ a.ready.messages, m.fresh = false := ready_settled a
  have hpos := ready_ne_nil a
  have hrestored : b.messages = a.ready.messages → RolledBack a b := by
    intro he
    cases hr : a.ready.messages with
    | nil =>
      rw [hr] at hpos
      exact absurd hpos (Nat.lt_irrefl 0)
    | cons system rest =>
      refine ⟨system, rest, he.trans hr, by rw [hr]; rfl, by rw [hr]; exact List.Sublist.refl _, ?_⟩
      rw [he]
      exact hold
  obtain ⟨kept, new, hm, _, hfresh, hnew, hcases⟩ := h
  rw [rollBack_eq_take, hm] at hb
  have hone : (a.ready.messages.take 1).length = 1 := by
    rw [List.length_take]
    omega
  rcases hcases with hsmall | ⟨hall, _, hlim⟩ | ⟨hfew, hlim⟩
  · refine iff_of_true (hrestored ?_) (.inl hsmall)
    rw [hb, List.take_append_of_le_length (by omega), List.take_take]
    exact List.take_of_length_le (by omega)
  · refine iff_of_true (hrestored ?_) (.inr (by omega))
    rw [hb, hall, ← List.append_assoc, List.take_append_drop, List.take_left]
  · refine iff_of_false ?_ (by omega)
    rintro ⟨_, _, _, _, _, hsettled⟩
    obtain ⟨m, rest, hcons⟩ := List.exists_cons_of_ne_nil (hnew hn)
    have hmem : m ∈ b.messages := by
      rw [hb, hcons, List.take_append, List.take_append, hone]
      refine List.mem_append_right _ (List.mem_append_right _ ?_)
      obtain ⟨j, hj⟩ : ∃ j, a.ready.messages.length - 1 - kept.length = j + 1 :=
        ⟨a.ready.messages.length - 2 - kept.length, by omega⟩
      rw [hj]
      exact List.mem_cons_self
    have htrue := hfresh m (by rw [hcons]; exact List.mem_cons_self)
    rw [hsettled m hmem] at htrue
    cases htrue

section Steps
variable {cj : Codec} {registry : Str → Bool} {c d : Chat}

/-- The middle of a turn that found the history `old` and has added `n` messages. -/
structure Chat.Amid (old : List Message) (limit n : Nat) (c : Chat) : Prop where
  pc : ∃ iter, c.pc = .asking old.length iter ∨ ∃ calls, c.pc = .running old.length iter calls
  bound : c.agent.limit = limit
  history : InTurn old limit n c.agent.messages

theorem amid_add (hpos : 0 < old.length) (hlimit : a.limit = limit)
    (h : InTurn old limit n a.messages) {role : Str} {content toolCallId name : Option Str}
    {toolCalls : Option Json}
    (hpc : ∃ iter, pc = .asking old.length iter ∨ ∃ calls, pc = .running old.length iter calls) :
    (⟨agentAddMessage a role content toolCallId name toolCalls, pc⟩ : Chat).Amid old limit
      (n + 1) := by
  subst hlimit
  exact ⟨hpc, limit_eq (add_maxMessages ..), h.add hpos⟩

theorem began_amid (hs : Step cj registry ⟨a, .idle⟩ (.began text) c) :
    c.Amid a.ready.messages a.limit 1 := by
  cases hs with
  | began pc nonempty =>
    exact amid_add (ready_ne_nil a) (limit_eq (ready_maxMessages a)) (inTurn_start _ _) ⟨0, .inl rfl⟩

theorem Chat.Amid.step (hpos : 0 < old.length) (h : c.Amid old limit n)
    (hs : Step cj registry c e d) (he : e.returned = none) : d.Amid old limit (n + e.adds) := by
  obtain ⟨⟨iter, hpc⟩, hlimit, hhistory⟩ := h
  cases hs with
  | refused | failed | answered | exhausted => cases he
  | began pc =>
    rw [pc] at hpc
    rcases hpc with hpc | ⟨_, hpc⟩ <;> cases hpc
  | called pc =>
    rw [pc] at hpc
    rcases hpc with hpc | ⟨_, hpc⟩ <;> cases hpc
    exact amid_add hpos hlimit hhistory ⟨_, .inr ⟨_, rfl⟩⟩
  | ran pc | unknown pc =>
    rw [pc] at hpc
    rcases hpc with hpc | ⟨_, hpc⟩ <;> cases hpc
    exact amid_add hpos hlimit hhistory ⟨_, .inr ⟨_, rfl⟩⟩
  | looped pc =>
    rw [pc] at hpc
    rcases hpc with hpc | ⟨_, hpc⟩ <;> cases hpc
    exact ⟨⟨_, .inl rfl⟩, hlimit, hhistory⟩

theorem amid_run (hpos : 0 < old.length) (h : Run (Step cj registry) c es d)
    (hstart : c.Amid old limit n) (hes : ∀ e ∈ es, e.returned = none) :
    d.Amid old limit (n + added es) := by
  induction h with
  | nil => exact hstart
  | @snoc es c e d run last ih =>
    have hstep := (ih (fun e he => hes e (List.mem_append_left _ he))).step hpos last
      (hes e (by simp))
    have hsum : added (es ++ [e]) = added es + e.adds := by simp [added]
    rwa [hsum, ← Nat.add_assoc]

theorem fails_rollBack (h : c.Amid old limit n) (hs : Step cj registry c e d) (he : e.Fails) :
    d.agent.messages = rollBack old.length c.agent.messages := by
  obtain ⟨⟨iter, hpc⟩, _, _⟩ := h
  cases hs with
  | failed pc | exhausted pc =>
    rw [pc] at hpc
    rcases hpc with hpc | ⟨_, hpc⟩ <;> cases hpc
    rfl
  | _ => exact absurd he id

/-- A turn that returns an error leaves none of its messages behind exactly if it
found at most the system message or never met a full history. -/
theorem failed_turn_rolled_back_iff
    (h : Run (Step cj registry) ⟨a, .idle⟩ (.began text :: (mid ++ [last])) d)
    (hmid : ∀ e ∈ mid, e.returned = none) (hlast : last.Fails) :
    RolledBack a d.agent ↔
      a.ready.messages.length ≤ 1 ∨ a.ready.messages.length + (1 + added mid) ≤ a.limit := by
  obtain ⟨c₁, hbegan, hrest⟩ := h.uncons
  obtain ⟨c₂, hturn, hfail⟩ := hrest.unsnoc
  have hamid := amid_run (ready_ne_nil a) hturn (began_amid hbegan) hmid
  exact inTurn_rollBack_iff hamid.history (by omega) (fails_rollBack hamid hfail hlast)

end Steps

/-- An agent whose two messages fill its history. -/
def fullAgent : Agent :=
  ⟨[⟨"system".toList, [], none, none, none, false⟩,
    ⟨"user".toList, "a".toList, none, none, none, false⟩], 2, 10, [], ⟨false, false, false⟩⟩

/-- The first call of an agent can be rolled back whatever happens. -/
theorem failed_turn_rolled_back_first :
    RolledBack (agentNewConversation fullAgent) { agentNewConversation fullAgent with
      messages := rollBack 1 (agentAddMessage (agentNewConversation fullAgent).ready "user".toList
        (some "hi".toList) none none none).messages } := by
  have hrun : Run (Step ⟨fun _ => none, fun _ => []⟩ (fun _ => false))
      ⟨agentNewConversation fullAgent, .idle⟩
      (.began "hi".toList :: ([] ++ [.failed _ "rate limit".toList])) _ :=
    .cons (.began rfl (by decide)) (.single (.failed rfl (by decide)))
  exact (failed_turn_rolled_back_iff hrun (fun _ h => absurd h List.not_mem_nil) trivial).mpr
    (.inl (by decide))

/-- A full history loses an old message to the new one, and the rollback keeps the new one. -/
theorem failed_turn_leaves_message :
    ∃ a text mid last d, Run (Step ⟨fun _ => none, fun _ => []⟩ (fun _ => false))
      ⟨a, .idle⟩ (.began text :: (mid ++ [last])) d ∧ (∀ e ∈ mid, e.returned = none) ∧ last.Fails ∧
      ¬ RolledBack a d.agent := by
  have hrun : Run (Step ⟨fun _ => none, fun _ => []⟩ (fun _ => false)) ⟨fullAgent, .idle⟩
      (.began "hi".toList :: ([] ++ [.failed _ "rate limit".toList])) _ :=
    .cons (.began rfl (by decide)) (.single (.failed rfl (by decide)))
  refine ⟨_, _, _, _, _, hrun, fun _ h => absurd h List.not_mem_nil, trivial, ?_⟩
  rintro ⟨_, _, _, _, _, hsettled⟩
  have hstays := hsettled ⟨"user".toList, "hi".toList, none, none, none, true⟩
    (by
      rw [rollBack_eq_take]
      exact List.mem_cons_of_mem _ List.mem_cons_self)
  cases hstays

end Dobby.AgentLoop
