import Dobby.Model.Queue
import Dobby.Base.Fifo

namespace Dobby.Queue
open Runs WaitSet

/-- The ring stands for a queue, and `tail` is where the next item goes. -/
structure Bq.Valid (q : Bq α) (xs : List α) : Prop where
  ring : Ring.Represents q.items busQueueDepth q.head q.count xs
  tail : q.tail = (q.head + q.count) % busQueueDepth

theorem Bq.Valid.contents {q : Bq α} (h : q.Valid xs) : q.contents = xs := h.ring.contents

theorem Bq.Valid.length {q : Bq α} (h : q.Valid xs) : xs.length = q.count := h.ring.length

theorem bqInit_valid : (bqInit : Bq α).Valid [] :=
  ⟨Ring.Represents.empty (by decide), rfl⟩

/-- An accepting stay: the flag was down, there was room, the item is last. -/
theorem qPush_accepted {q q' : Bq α} (hv : q.Valid xs)
    (h : qPush q x shutDown = .accepted q') :
    shutDown = false ∧ q.count < busQueueDepth ∧ q'.count = q.count + 1 ∧
      q'.Valid (xs ++ [x]) := by
  unfold qPush at h
  split at h
  · cases h
  · rename_i hw
    split at h
    · cases h
    · rename_i hs
      have hshut : shutDown = false := by simpa using hs
      have hroom : q.count < busQueueDepth := by
        by_contra hfull
        exact hw ⟨Nat.le_of_not_lt hfull, hshut⟩
      cases h
      refine ⟨hshut, hroom, rfl, ?_, ?_⟩
      · have hp := hv.ring.push hroom x
        rwa [← hv.tail] at hp
      · change (q.tail + 1) % busQueueDepth = (q.head + (q.count + 1)) % busQueueDepth
        rw [hv.tail, Nat.mod_add_mod, Nat.add_assoc]

theorem qPush_refused {q : Bq α} (h : qPush q x shutDown = .refused) : shutDown = true := by
  unfold qPush at h
  split at h
  · cases h
  · split at h
    · assumption
    · cases h

theorem qPush_waits {q : Bq α} (h : qPush q x shutDown = .waits) :
    busQueueDepth ≤ q.count ∧ shutDown = false := by
  unfold qPush at h
  split at h
  · assumption
  · split at h <;> cases h

/-- A stay that takes an item takes the oldest one, and it is not null. -/
theorem qPop_item {q q' : Bq α} (hv : q.Valid xs) (h : qPop q shutDown = .item x q') :
    ∃ y rest, x = some y ∧ xs = y :: rest ∧ q.count = q'.count + 1 ∧ q'.Valid rest := by
  unfold qPop at h
  split at h
  · cases h
  · split at h
    · cases h
    · rename_i hne
      cases h
      obtain ⟨n, hn⟩ := Nat.exists_eq_succ_of_ne_zero hne
      have hlen := hv.length
      rw [hn] at hlen
      obtain ⟨y, rest, rfl⟩ := List.exists_cons_of_length_eq_add_one hlen
      have hring := hv.ring
      rw [hn] at hring
      obtain ⟨hcell, hrest⟩ := hring.pop
      refine ⟨y, rest, hcell, rfl, by simp [hn], ?_, ?_⟩
      · simpa [hn] using hrest
      · change q.tail = ((q.head + 1) % busQueueDepth + (q.count - 1)) % busQueueDepth
        rw [hv.tail, Nat.mod_add_mod, hn]
        congr 1
        omega

theorem qPop_drained {q : Bq α} (h : qPop q shutDown = .drained) :
    q.count = 0 ∧ shutDown = true := by
  unfold qPop at h
  split at h
  · cases h
  · rename_i hw
    split at h
    · rename_i h0
      refine ⟨h0, ?_⟩
      cases shutDown
      · exact absurd ⟨h0, rfl⟩ hw
      · rfl
    · cases h

theorem qPop_waits {q : Bq α} (h : qPop q shutDown = .waits) :
    q.count = 0 ∧ shutDown = false := by
  unfold qPop at h
  split at h
  · assumption
  · split at h <;> cases h

/-- What a monitor event means for the abstract channel. -/
def Event.view : Event α τ → List (Fifo.Event α)
  | .accepted _ x => [.push x]
  | .refused _ x => [.refuse x]
  | .popped _ (some x) => [.pop x]
  | .drained _ => [.drained]
  | _ => []

def BusEvent.view (side : Side) : BusEvent α τ → List (Fifo.Event α)
  | .queue s e => if s = side then e.view else []
  | .store => [.close]

/-- A queue and the flag stand for a channel of the same contents. -/
def Stands (q : Bq α) (shutDown : Bool) (f : Fifo.State α) : Prop :=
  q.Valid f.items ∧ f.closed = shutDown

/-- One step of the monitor is at most one step of the channel. -/
theorem monitor_step_view {m m' : Monitor α τ} {f : Fifo.State α}
    (hf : Stands m.queue shutDown f) (hs : MonitorStep idle shutDown m e m') :
    ∃ g, Run (Fifo.Step busQueueDepth) f e.view g ∧ Stands m'.queue shutDown g := by
  obtain ⟨hv, hc⟩ := hf
  cases hs with
  | accepted enter stay signal =>
    obtain ⟨hopen, hroom, _, hv'⟩ := qPush_accepted hv stay
    have hlen : f.items.length < busQueueDepth := by rwa [hv.length]
    exact ⟨_, .single (.push (hc.trans hopen) hlen), hv', hc⟩
  | refused enter stay =>
    exact ⟨f, .single (.refuse (hc.trans (qPush_refused stay))), hv, hc⟩
  | pushSleeps enter stay => exact ⟨f, .nil, hv, hc⟩
  | popped enter stay signal =>
    obtain ⟨y, rest, rfl, hcons, _, hv'⟩ := qPop_item hv stay
    exact ⟨_, .single (.pop hcons), hv', hc⟩
  | drained enter stay =>
    obtain ⟨h0, hshut⟩ := qPop_drained stay
    have hempty : f.items = [] := List.length_eq_zero_iff.mp (hv.length.trans h0)
    exact ⟨f, .single (.drained (hc.trans hshut) hempty), hv, hc⟩
  | popSleeps enter stay => exact ⟨f, .nil, hv, hc⟩
  | consumerWakes wake => exact ⟨f, .nil, hv, hc⟩
  | producerWakes wake => exact ⟨f, .nil, hv, hc⟩
  | broadcast stored => exact ⟨f, .nil, hv, hc⟩

/-- The bus simulates one channel for each of its queues. -/
theorem bus_simulates (side : Side) :
    Simulates (BusStep (α := α) (τ := τ)) (Fifo.Step busQueueDepth) (BusEvent.view side)
      (fun b f => Stands (b.queues side).queue b.shutDown f) := by
  intro b e b' f hf hs
  cases hs with
  | @queue s e m step =>
    by_cases he : s = side
    · subst he
      simpa [BusEvent.view] using monitor_step_view hf step
    · refine ⟨f, ?_, ?_⟩
      · simp only [BusEvent.view, he, ↓reduceIte]
        exact .nil
      · simpa only [Function.update_of_ne (Ne.symm he)] using hf
  | store => exact ⟨{ f with closed := true }, .single .close, hf.1, rfl⟩

theorem view_accepted (side : Side) (es : List (BusEvent α τ)) :
    Fifo.accepted (es.flatMap (BusEvent.view side)) = acceptedAt side es := by
  induction es with
  | nil => rfl
  | cons e es ih =>
    rw [List.flatMap_cons, Fifo.accepted_append, ih, ← List.singleton_append, acceptedAt_append]
    congr 1
    cases e with
    | store => rfl
    | queue s e =>
      cases s <;> cases side <;> cases e with
      | popped t x => cases x <;> rfl
      | _ => rfl

theorem view_delivered (side : Side) (es : List (BusEvent α τ)) :
    Fifo.delivered (es.flatMap (BusEvent.view side)) = poppedAt side es := by
  induction es with
  | nil => rfl
  | cons e es ih =>
    rw [List.flatMap_cons, Fifo.delivered_append, ih, ← List.singleton_append, poppedAt_append]
    congr 1
    cases e with
    | store => rfl
    | queue s e =>
      cases s <;> cases side <;> cases e with
      | popped t x => cases x <;> rfl
      | _ => rfl

/-- Every run of the bus is, queue by queue, a run of a bounded channel that
ends with the ring's contents and the flag. -/
theorem bus_run_refines {b : Bus α τ} (h : Run BusStep busCreate es b) (side : Side) :
    ∃ xs, (b.queues side).queue.Valid xs ∧
      Run (Fifo.Step busQueueDepth) ⟨[], false⟩ (es.flatMap (BusEvent.view side))
        ⟨xs, b.shutDown⟩ := by
  have h0 : Stands ((busCreate : Bus α τ).queues side).queue false ⟨[], false⟩ :=
    ⟨bqInit_valid, rfl⟩
  obtain ⟨⟨xs, closed⟩, hrun, hv, hc⟩ := (bus_simulates side).run h h0
  cases hc
  exact ⟨xs, hv, hrun⟩

/-- What a queue accepted is what it handed out and then what it holds. -/
theorem accepted_eq_popped_append {b : Bus α τ} (h : Run BusStep busCreate es b) (side : Side) :
    acceptedAt side es = poppedAt side es ++ (b.queues side).queue.contents := by
  obtain ⟨xs, hv, hrun⟩ := bus_run_refines h side
  have hk := Fifo.run_conserves hrun
  rwa [List.nil_append, view_accepted, view_delivered, ← hv.contents] at hk

/-- The flag goes up only by a store. -/
theorem store_of_shutDown {b : Bus α τ} (h : Run BusStep busCreate es b)
    (hs : b.shutDown = true) : .store ∈ es := by
  refine h.invariant_log (P := fun es b => b.shutDown = true → .store ∈ es) ?_ ?_ hs
  · intro h0
    cases h0
  · intro es b e c ih hstep hc
    cases hstep with
    | queue step => exact List.mem_append_left _ (ih hc)
    | store => simp

/-- Each bus queue is a bounded first-in first-out channel of capacity 64 with a
closed flag, whatever the interleaving of pushes, pops and shutdowns. -/
theorem bus_queue_refines_fifo {b : Bus α τ} (h : Run BusStep busCreate es b) (side : Side) :
    let q := (b.queues side).queue
    q.count ≤ 64 ∧ q.tail = (q.head + q.count) % 64 ∧
    Run (Fifo.Step 64) ⟨[], false⟩ (es.flatMap (BusEvent.view side)) ⟨q.contents, b.shutDown⟩ ∧
    acceptedAt side es = poppedAt side es ++ q.contents ∧
    (∀ before after, es = before ++ .store :: after →
      acceptedAt side after = [] ∧
      acceptedAt side before = poppedAt side before ++ (poppedAt side after ++ q.contents)) ∧
    (∀ before t after, es = before ++ .queue side (.drained t) :: after →
      .store ∈ before ∧ acceptedAt side before = poppedAt side before) := by
  obtain ⟨xs, hv, hrun⟩ := bus_run_refines h side
  rw [← hv.contents] at hrun
  have hall := accepted_eq_popped_append h side
  refine ⟨hv.ring.fits, hv.tail, hrun, hall, ?_, ?_⟩
  · rintro before after rfl
    have hnone : acceptedAt side after = [] := by
      rw [List.flatMap_append, List.flatMap_cons] at hrun
      rw [← view_accepted]
      exact Fifo.no_push_after_close hrun
    exact ⟨hnone, by simpa [hnone] using hall⟩
  · rintro before t after rfl
    rw [List.append_cons] at h
    obtain ⟨c, hc, _⟩ := h.split
    obtain ⟨d, hd, hlast⟩ := hc.unsnoc
    obtain ⟨ys, _, hr⟩ := bus_run_refines hc side
    have hview : (before ++ [BusEvent.queue side (.drained t)]).flatMap (BusEvent.view side) =
        before.flatMap (BusEvent.view side) ++ [.drained] := by
      simp [BusEvent.view, Event.view]
    rw [hview] at hr
    obtain ⟨hshut, hdrained⟩ := Fifo.drained_last hr
    rw [List.nil_append, view_accepted, view_delivered] at hdrained
    refine ⟨store_of_shutDown hd ?_, hdrained⟩
    cases hlast with
    | queue step => exact hshut

/-- A fresh bus after one accepted push and a shutdown. -/
def pushedThenShut : Bus Nat Nat :=
  ⟨Function.update (fun _ => Monitor.init) .inbound
    ⟨⟨(List.replicate 64 none).set 0 (some 7), 0, 1, 1⟩, nobody, nobody⟩, true⟩

theorem pushedThenShut_run :
    Run BusStep (busCreate : Bus Nat Nat)
      [.queue .inbound (.accepted 0 7), .store] pushedThenShut := by
  have hfree : (busCreate : Bus Nat Nat).Idle 0 := fun _ => ⟨List.not_mem_nil, List.not_mem_nil⟩
  have hpush : MonitorStep (busCreate : Bus Nat Nat).Idle false Monitor.init (.accepted 0 7)
      ⟨⟨(List.replicate 64 none).set 0 (some 7), 0, 1, 1⟩, nobody, nobody⟩ :=
    .accepted (.calls hfree) rfl (.lost rfl)
  have hqueue : BusStep busCreate (.queue .inbound (.accepted 0 7))
      ⟨Function.update (fun _ => Monitor.init) .inbound _, false⟩ := .queue hpush
  exact .cons hqueue (.single .store)

theorem bus_queue_refines_fifo_shut :
    acceptedAt .inbound [BusEvent.queue .inbound (.accepted 0 7), .store] =
      poppedAt .inbound [BusEvent.queue .inbound (.accepted 0 7), .store] ++
        (pushedThenShut.queues .inbound).queue.contents :=
  (bus_queue_refines_fifo pushedThenShut_run .inbound).2.2.2.1

end Dobby.Queue
