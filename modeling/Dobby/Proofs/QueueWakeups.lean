import Dobby.Proofs.QueueOrder

namespace Dobby.Queue
open Runs WaitSet

/-- Every queued item has a woken consumer on its way if any consumer sleeps,
and every free slot a woken producer if any producer sleeps. -/
structure Balanced (m : Monitor α τ) : Prop where
  items : Covered m.consumers m.queue.count
  slots : Covered m.producers (busQueueDepth - m.queue.count)

theorem balanced_init : Balanced (Monitor.init : Monitor α τ) :=
  ⟨covered_nobody _, covered_nobody _⟩

theorem qPush_count {q q' : Bq α} (h : qPush q x false = .accepted q') :
    q'.count = q.count + 1 := by
  simp only [qPush] at h
  split at h
  · cases h
  · cases h
    rfl

theorem qPop_count {q q' : Bq α} (h : qPop q false = .item x q') : q.count = q'.count + 1 := by
  simp only [qPop] at h
  split at h
  · cases h
  · split at h
    · cases h
    · cases h
      change q.count = q.count - 1 + 1
      omega

theorem Balanced.step {m m' : Monitor α τ} (hb : Balanced m)
    (hs : MonitorStep idle false m e m') : Balanced m' := by
  cases hs with
  | accepted enter stay signal =>
    have hcount := qPush_count stay
    constructor
    · dsimp only
      rw [hcount]
      exact hb.items.signal signal
    · exact (hb.slots.enters enter).mono (by dsimp only; omega)
  | refused enter stay => exact absurd (qPush_refused stay) (by decide)
  | pushSleeps enter stay =>
    have hfull := (qPush_waits stay).1
    exact ⟨hb.items, (covered_sleep _ _).mono (by dsimp only; omega)⟩
  | popped enter stay signal =>
    have hcount := qPop_count stay
    constructor
    · exact (hb.items.enters enter).mono (by dsimp only; omega)
    · exact (hb.slots.signal signal).mono (by dsimp only; omega)
  | drained enter stay => exact absurd (qPop_drained stay).2 (by decide)
  | popSleeps enter stay =>
    have hempty := (qPop_waits stay).1
    exact ⟨(covered_sleep _ _).mono (by dsimp only; omega), hb.slots⟩
  | consumerWakes wake => exact ⟨(hb.items.wakes wake).mono (Nat.le_succ _), hb.slots⟩
  | producerWakes wake => exact ⟨hb.items, (hb.slots.wakes wake).mono (Nat.le_succ _)⟩
  | broadcast stored => cases stored

theorem balanced_of_run {b : Bus α τ} (h : Run BusStep busCreate es b)
    (hopen : b.shutDown = false) (side : Side) : Balanced (b.queues side) := by
  refine h.invariant (P := fun b => b.shutDown = false → Balanced (b.queues side))
    (fun _ => balanced_init) ?_ hopen
  intro b e c ih hstep hc
  cases hstep with
  | @queue s e m step =>
    have hb := ih hc
    change b.shutDown = false at hc
    rw [hc] at step
    by_cases he : s = side
    · subst he
      simpa using hb.step step
    · simpa only [Function.update_of_ne (Ne.symm he)] using hb
  | store => cases hc

/-- Nobody sleeps on either condition variable of the queue. -/
def Awake (m : Monitor α τ) : Prop := m.consumers.asleep = [] ∧ m.producers.asleep = []

/-- While the flag is up no stay ends in a wait. -/
theorem Awake.step {m m' : Monitor α τ} (ha : Awake m) (hs : MonitorStep idle true m e m') :
    Awake m' := by
  obtain ⟨hc, hp⟩ := ha
  cases hs with
  | accepted enter stay signal => exact ⟨signal.empty hc, enter.asleep.trans hp⟩
  | refused enter stay => exact ⟨hc, enter.asleep.trans hp⟩
  | pushSleeps enter stay => exact absurd (qPush_waits stay).2 (by decide)
  | popped enter stay signal => exact ⟨enter.asleep.trans hc, signal.empty hp⟩
  | drained enter stay => exact ⟨enter.asleep.trans hc, hp⟩
  | popSleeps enter stay => exact absurd (qPop_waits stay).2 (by decide)
  | consumerWakes wake => exact absurd (wakes_asleep wake) (by simp [hc])
  | producerWakes wake => exact absurd (wakes_asleep wake) (by simp [hp])
  | broadcast stored => exact ⟨rfl, rfl⟩

theorem awake_of_broadcast {b : Bus α τ} (h : Run BusStep busCreate es b) (side : Side)
    (hb : .queue side .broadcast ∈ es) : b.shutDown = true ∧ Awake (b.queues side) := by
  refine h.invariant_log
    (P := fun es b => .queue side .broadcast ∈ es → b.shutDown = true ∧ Awake (b.queues side))
    ?_ ?_ hb
  · intro hm
    cases hm
  · intro es b e c ih hstep hm
    rcases List.mem_append.mp hm with hm | hm
    · obtain ⟨hshut, hawake⟩ := ih hm
      cases hstep with
      | @queue s e m step =>
        refine ⟨hshut, ?_⟩
        rw [hshut] at step
        by_cases he : s = side
        · subst he
          simpa using hawake.step step
        · simpa only [Function.update_of_ne (Ne.symm he)] using hawake
      | store => exact ⟨rfl, hawake⟩
    · cases List.mem_singleton.mp hm
      cases hstep with
      | queue step =>
        cases step with
        | broadcast stored => exact ⟨stored, by simp [Awake, broadcast]⟩

/-- No wake-up is lost before the shutdown, and after the shutdown's broadcast
on a queue nobody sleeps on it or goes to sleep on it. -/
theorem bus_no_lost_wakeup {b : Bus α τ} (h : Run BusStep busCreate es b) (side : Side) :
    let m := b.queues side
    (b.shutDown = false → m.consumers.asleep ≠ [] → m.queue.count ≤ m.consumers.woken.length) ∧
    (b.shutDown = false → m.producers.asleep ≠ [] →
      64 - m.queue.count ≤ m.producers.woken.length) ∧
    (.queue side .broadcast ∈ es → m.consumers.asleep = [] ∧ m.producers.asleep = []) :=
  ⟨fun hopen => (balanced_of_run h hopen side).items,
    fun hopen => (balanced_of_run h hopen side).slots,
    fun hb => (awake_of_broadcast h side hb).2⟩

/-- A bus whose inbound queue is this, and whose outbound queue is fresh. -/
def inboundBus (m : Monitor Nat Nat) : Bus Nat Nat :=
  ⟨Function.update (fun _ => Monitor.init) .inbound m, false⟩

theorem inboundBus_init : inboundBus Monitor.init = busCreate := by
  unfold inboundBus busCreate
  rw [Function.update_eq_self]

theorem inbound_step {m m' : Monitor Nat Nat} {e : Event Nat Nat}
    (h : MonitorStep (inboundBus m).Idle false m e m') :
    BusStep (inboundBus m) (.queue .inbound e) (inboundBus m') := by
  have hstep : BusStep (inboundBus m) (.queue .inbound e) _ := .queue h
  rwa [inboundBus, Function.update_idem] at hstep

/-- One item, a consumer asleep and the other woken by the push. -/
def oneWoken : Monitor Nat Nat :=
  ⟨⟨(List.replicate 64 none).set 0 (some 7), 0, 1, 1⟩, ⟨[1], [0]⟩, nobody⟩

theorem oneWoken_run : Run BusStep busCreate
    [.queue .inbound (.popSleeps 0), .queue .inbound (.popSleeps 1), .queue .inbound (.accepted 2 7)]
    (inboundBus oneWoken) := by
  have hidle : ∀ t asleep, t ∉ asleep → (inboundBus ⟨bqInit, ⟨asleep, []⟩, nobody⟩).Idle t := by
    intro t asleep ht side
    cases side with
    | inbound => exact ⟨by simpa [inboundBus] using ht, List.not_mem_nil⟩
    | outbound => exact ⟨List.not_mem_nil, List.not_mem_nil⟩
  have hfirst : BusStep busCreate (.queue .inbound (.popSleeps 0))
      (inboundBus ⟨bqInit, ⟨[0], []⟩, nobody⟩) := by
    rw [← inboundBus_init]
    exact inbound_step (.popSleeps (.calls (hidle 0 [] List.not_mem_nil)) rfl)
  have hsecond : BusStep (inboundBus ⟨bqInit, ⟨[0], []⟩, nobody⟩) (.queue .inbound (.popSleeps 1))
      (inboundBus ⟨bqInit, ⟨[1, 0], []⟩, nobody⟩) :=
    inbound_step (.popSleeps (.calls (hidle 1 [0] (by decide))) rfl)
  have hwakes : Signal ⟨[1, 0], []⟩ ⟨[1], [0]⟩ :=
    .wakes (show Wakes ⟨[1] ++ 0 :: [], []⟩ 0 ⟨[1] ++ [], [0]⟩ from .mk)
  have hpush : BusStep (inboundBus ⟨bqInit, ⟨[1, 0], []⟩, nobody⟩) (.queue .inbound (.accepted 2 7))
      (inboundBus oneWoken) :=
    inbound_step (.accepted (.calls (hidle 2 [1, 0] (by decide))) rfl hwakes)
  exact .cons hfirst (.cons hsecond (.single hpush))

theorem bus_no_lost_wakeup_woken :
    (oneWoken.consumers.asleep ≠ [] ∧ oneWoken.queue.count = 1) ∧
      oneWoken.queue.count ≤ oneWoken.consumers.woken.length :=
  ⟨⟨by decide, rfl⟩, (bus_no_lost_wakeup oneWoken_run .inbound).1 rfl (by decide)⟩

end Dobby.Queue
