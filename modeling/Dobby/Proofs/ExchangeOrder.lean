import Dobby.Proofs.ExchangeWires
import Dobby.Proofs.ExchangeSessions

namespace Dobby.Exchange
open CString Queue Session Runs

/-- Shutdown has not begun. -/
def Serving (_ : System α φ) : Event → Prop
  | .stopped | .shut => False
  | _ => True

/-- A reply that went where its message says. -/
def Fits (r : InboundMsg × Reply) : Prop :=
  match r.2 with
  | .delivered rp _ => r.1.rp = some rp
  | .posted out => r.1.rp = none ∧ ∃ response, out = outboundFor r.1 response
  | .dropped _ => False

/-- What the logs of a run without shutdown say about its last state. -/
structure System.Ledger (es : List Event) (s : System α φ) : Prop where
  up : s.shutDown = false
  alive : s.pc ≠ .exited
  running : s.pc ≠ .boot → s.running = true
  dispatching : s.dispatching = true
  tagged : ∀ p ∈ acceptedIn es, p.2.rp = p.1
  fits : ∀ r ∈ repliedIn es, Fits r
  conserved : (acceptedIn es).map Prod.snd = (repliedIn es).map Prod.fst ++ s.pending
  consumed : consumedIn es = (repliedIn es).map Prod.fst ++ s.pc.hand.toList
  posted : postedIn es = dispatchedIn es ++ s.outbound.contents

section Steps
variable {factory : φ → Option α × φ} {chat : α → Str → φ → Option Str × α × φ}
  {s t : System α φ}

/-- What a step adds to the consumed messages is what it moves through the hand. -/
theorem hand_step (h : Step factory chat s e t) :
    s.pc.hand.toList ++ consumedIn [e] = (repliedIn [e]).map Prod.fst ++ t.pc.hand.toList := by
  cases h with
  | looked pc made =>
    rw [pc, afterLookup_hand]
    rfl
  | booted pc | stays pc | leaves pc | consumed pc | drained pc | chatted pc | released pc
  | delivered pc | posted pc | dropped pc =>
    rw [pc]
    rfl
  | _ => exact List.append_nil _

theorem outbound_step (hv : s.outbound.Valid s.outbound.contents) (h : Step factory chat s e t) :
    s.outbound.contents ++ postedIn [e] = dispatchedIn [e] ++ t.outbound.contents := by
  cases h with
  | posted pc async stay => exact (push_contents hv stay).1.symm
  | dispatched on stay => exact (List.append_nil _).trans (pop_contents hv stay).1
  | _ => exact List.append_nil _

/-- An accepted message carries its publisher's pair, or none. -/
theorem tagged_step (hw : s.Wired) (h : Step factory chat s e t) :
    ∀ p ∈ acceptedIn [e], p.2.rp = p.1 := by
  intro p hp
  cases h with
  | accepted call phase stay =>
    obtain rfl := List.mem_singleton.mp hp
    exact hw.carried _ _ call
  | acceptedAsync plain stay =>
    obtain rfl := List.mem_singleton.mp hp
    exact plain_rp plain
  | _ => exact absurd hp List.not_mem_nil

theorem fits_step (hup : s.shutDown = false) (h : Step factory chat s e t) :
    ∀ r ∈ repliedIn [e], Fits r := by
  intro r hr
  cases h with
  | delivered pc sync =>
    obtain rfl := List.mem_singleton.mp hr
    exact sync
  | posted pc async stay =>
    obtain rfl := List.mem_singleton.mp hr
    exact ⟨async, _, rfl⟩
  | dropped pc async stay =>
    rw [qPush_refused stay] at hup
    cases hup
  | _ => exact absurd hr List.not_mem_nil

theorem System.Ledger.step (hl : s.Ledger es) (hw : s.Wired) (hserve : Serving s e)
    (h : Step factory chat s e t) : t.Ledger (es ++ [e]) := by
  have hpend := pending_step hw.inbound h
  have hhand := hand_step h
  have hout := outbound_step hw.outbound h
  have htag := tagged_step hw h
  have hfit := fits_step hl.up h
  refine ⟨?_, ?_, ?_, ?_, ?_, ?_, ?_, ?_, ?_⟩
  · cases h with
    | shut => exact absurd hserve id
    | _ => exact hl.up
  · cases h with
    | leaves pc off =>
      rw [hl.running (by rw [pc]; exact fun h => by cases h)] at off
      cases off
    | drained pc stay =>
      have hshut := (qPop_drained stay).2
      rw [hl.up] at hshut
      cases hshut
    | @looked _ _ res => cases res <;> exact fun h => by cases h
    | booted | stays | consumed | chatted | released | delivered | posted | dropped =>
      exact fun h => by cases h
    | _ => exact hl.alive
  · intro hboot
    cases h with
    | booted => rfl
    | stopped => exact absurd hserve id
    | stays pc | consumed pc | looked pc | chatted pc | released pc | delivered pc | posted pc
    | dropped pc | leaves pc | drained pc =>
      exact hl.running (by rw [pc]; exact fun h => by cases h)
    | _ => exact hl.running hboot
  · cases h with
    | dispatcherLeaves on stay =>
      have hshut := (qPop_drained stay).2
      rw [hl.up] at hshut
      cases hshut
    | _ => exact hl.dispatching
  · intro p hp
    rw [acceptedIn_append] at hp
    exact (List.mem_append.mp hp).elim (hl.tagged p) (htag p)
  · intro r hr
    rw [repliedIn_append] at hr
    exact (List.mem_append.mp hr).elim (hl.fits r) (hfit r)
  · rw [acceptedIn_append, repliedIn_append, List.map_append, List.map_append, hl.conserved,
      List.append_assoc, hpend, List.append_assoc]
  · rw [consumedIn_append, repliedIn_append, List.map_append, hl.consumed, List.append_assoc, hhand,
      List.append_assoc]
  · rw [postedIn_append, dispatchedIn_append, hl.posted, List.append_assoc, hout, List.append_assoc]

/-- The whole exchange along a run without shutdown. -/
structure System.Serves (factory : φ → Option α × φ) (chat : α → Str → φ → Option Str × α × φ)
    (es : List Event) (s : System α φ) : Prop where
  wired : s.Wired
  sessions : s.Sessions factory chat es
  ledger : s.Ledger es

theorem System.Serves.step (hs : s.Serves factory chat es) (hserve : Serving s e)
    (h : Step factory chat s e t) : t.Serves factory chat (es ++ [e]) :=
  ⟨hs.wired.step h, hs.sessions.step h, hs.ledger.step hs.wired hserve h⟩

/-- Steps that the worker and the dispatcher take by themselves to answer what
is in hand. -/
def Event.Internal : Event → Prop
  | .looked .. | .chatted .. | .released | .replied .. | .dispatched _ => True
  | _ => False

/-- By itself the system can finish the message in hand. -/
def System.Finishes (factory : φ → Option α × φ) (chat : α → Str → φ → Option Str × α × φ)
    (s : System α φ) : Prop :=
  ∃ fs t, Run (Guarded (Step factory chat) Serving) s fs t ∧ (∀ e ∈ fs, e.Internal) ∧
    t.pc.hand = none

theorem System.Finishes.idle (h : s.pc.hand = none) : s.Finishes factory chat :=
  ⟨[], s, .nil, fun _ h => absurd h List.not_mem_nil, h⟩

theorem System.Finishes.after (h : Step factory chat s e t) (hi : e.Internal)
    (hf : t.Finishes factory chat) : s.Finishes factory chat := by
  obtain ⟨fs, u, hrun, hall, hhand⟩ := hf
  have hserve : Serving s e := by
    cases e <;> trivial
  refine ⟨e :: fs, u, (Run.single ⟨hserve, h⟩).append hrun, ?_, hhand⟩
  intro e' he'
  rcases List.mem_cons.mp he' with rfl | he'
  · exact hi
  · exact hall e' he'

end Steps

/-- The reply to a message is its publisher's pair delivered once, or one
outbound message to the same channel and chat with the same metadata. -/
def Answers (p : Option Nat × InboundMsg) (r : InboundMsg × Reply) : Prop :=
  r.1 = p.2 ∧ match p.1, r.2 with
    | some rp, .delivered rp' _ => rp' = rp
    | none, .posted out =>
      out.channel = p.2.channel ∧ out.chatId = p.2.chatId ∧ out.metadata = p.2.metadata
    | _, _ => False

end Dobby.Exchange
