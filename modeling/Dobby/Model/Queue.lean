import Dobby.Base.Ring
import Dobby.Base.WaitSet
import Dobby.Base.Runs
import Mathlib.Logic.Function.Basic

namespace Dobby.Queue
open WaitSet

def busQueueDepth : Nat := 64

/-- `bq_t` without its lock: the ring of pointers and its three indices. -/
structure Bq (α : Type u) where
  items : List (Option α)
  head : Nat
  tail : Nat
  count : Nat

def bqInit : Bq α := ⟨List.replicate busQueueDepth none, 0, 0, 0⟩

/-- The queued pointers from `head` on, oldest first. -/
def Bq.contents (q : Bq α) : List α := Ring.contents q.items busQueueDepth q.head q.count

inductive PushOutcome (α : Type u) where
  | waits
  | refused
  | accepted (q : Bq α)

/-- One stay of `q_push` inside the lock, from the loop test to the wait or to
the unlock. The flag is set outside the lock, but each path reads it with effect
once and the setter's next action needs the lock, so the stay is one step. -/
def qPush (q : Bq α) (item : α) (shutDown : Bool) : PushOutcome α :=
  if busQueueDepth ≤ q.count ∧ shutDown = false then .waits
  else if shutDown then .refused
  else .accepted { q with
    items := q.items.set q.tail (some item)
    tail := (q.tail + 1) % busQueueDepth
    count := q.count + 1 }

inductive PopOutcome (α : Type u) where
  | waits
  | drained
  | item (x : Option α) (q : Bq α)

/-- One stay of `q_pop` inside the lock. -/
def qPop (q : Bq α) (shutDown : Bool) : PopOutcome α :=
  if q.count = 0 ∧ shutDown = false then .waits
  else if q.count = 0 then .drained
  else .item (Ring.cell q.items q.head) { q with
    head := (q.head + 1) % busQueueDepth
    count := q.count - 1 }

/-- A queue with the wait sets of its two condition variables. A producer
sleeps holding the item it is pushing. -/
structure Monitor (α : Type u) (τ : Type v) where
  queue : Bq α
  consumers : Waiters τ
  producers : Waiters (τ × α)

def Monitor.init : Monitor α τ := ⟨bqInit, nobody, nobody⟩

/-- What a thread did during one stay inside the lock, or to a wait set. -/
inductive Event (α : Type u) (τ : Type v) where
  | accepted (t : τ) (x : α)
  | refused (t : τ) (x : α)
  | pushSleeps (t : τ) (x : α)
  | popped (t : τ) (x : Option α)
  | drained (t : τ)
  | popSleeps (t : τ)
  | consumerWakes (t : τ)
  | producerWakes (t : τ) (x : α)
  | broadcast

inductive MonitorStep (idle : τ → Prop) (shutDown : Bool) :
    Monitor α τ → Event α τ → Monitor α τ → Prop where
  | accepted (enter : Enters (idle t) m.producers (t, x) ps)
      (stay : qPush m.queue x shutDown = .accepted q) (signal : Signal m.consumers cs) :
      MonitorStep idle shutDown m (.accepted t x) ⟨q, cs, ps⟩
  | refused (enter : Enters (idle t) m.producers (t, x) ps)
      (stay : qPush m.queue x shutDown = .refused) :
      MonitorStep idle shutDown m (.refused t x) { m with producers := ps }
  | pushSleeps (enter : Enters (idle t) m.producers (t, x) ps)
      (stay : qPush m.queue x shutDown = .waits) :
      MonitorStep idle shutDown m (.pushSleeps t x) { m with producers := sleep ps (t, x) }
  | popped (enter : Enters (idle t) m.consumers t cs)
      (stay : qPop m.queue shutDown = .item x q) (signal : Signal m.producers ps) :
      MonitorStep idle shutDown m (.popped t x) ⟨q, cs, ps⟩
  | drained (enter : Enters (idle t) m.consumers t cs)
      (stay : qPop m.queue shutDown = .drained) :
      MonitorStep idle shutDown m (.drained t) { m with consumers := cs }
  | popSleeps (enter : Enters (idle t) m.consumers t cs)
      (stay : qPop m.queue shutDown = .waits) :
      MonitorStep idle shutDown m (.popSleeps t) { m with consumers := sleep cs t }
  -- POSIX lets a condition wait return without any signal
  | consumerWakes (wake : Wakes m.consumers t cs) :
      MonitorStep idle shutDown m (.consumerWakes t) { m with consumers := cs }
  | producerWakes (wake : Wakes m.producers (t, x) ps) :
      MonitorStep idle shutDown m (.producerWakes t x) { m with producers := ps }
  -- `bq_broadcast` runs only inside `bus_shutdown`, after the flag is stored
  | broadcast (stored : shutDown = true) :
      MonitorStep idle shutDown m .broadcast
        ⟨m.queue, WaitSet.broadcast m.consumers, WaitSet.broadcast m.producers⟩

inductive Side where
  | inbound
  | outbound
  deriving DecidableEq

/-- `struct bus`: two queues and the flag they share. -/
structure Bus (α : Type u) (τ : Type v) where
  queues : Side → Monitor α τ
  shutDown : Bool

def busCreate : Bus α τ := ⟨fun _ => Monitor.init, false⟩

/-- A thread blocked in a queue call cannot start another one. -/
def Bus.Idle (b : Bus α τ) (t : τ) : Prop :=
  ∀ side, t ∉ (b.queues side).consumers.asleep ++ (b.queues side).consumers.woken ∧
    t ∉ ((b.queues side).producers.asleep ++ (b.queues side).producers.woken).map Prod.fst

inductive BusEvent (α : Type u) (τ : Type v) where
  | queue (side : Side) (e : Event α τ)
  | store

inductive BusStep : Bus α τ → BusEvent α τ → Bus α τ → Prop where
  | queue {b : Bus α τ} {side : Side} {e : Event α τ} {m : Monitor α τ}
      (step : MonitorStep b.Idle b.shutDown (b.queues side) e m) :
      BusStep b (.queue side e) { b with queues := Function.update b.queues side m }
  | store : BusStep b .store { b with shutDown := true }

/-- Items a queue accepted, in order. -/
def acceptedAt (side : Side) (es : List (BusEvent α τ)) : List α :=
  es.filterMap fun
    | .queue s (.accepted _ x) => if s = side then some x else none
    | _ => none

@[simp] theorem acceptedAt_append (side : Side) (es fs : List (BusEvent α τ)) :
    acceptedAt side (es ++ fs) = acceptedAt side es ++ acceptedAt side fs := by
  simp [acceptedAt]

@[simp] theorem acceptedAt_store (side : Side) (es : List (BusEvent α τ)) :
    acceptedAt side (.store :: es) = acceptedAt side es := rfl

/-- Items handed out by a queue, in order. -/
def poppedAt (side : Side) (es : List (BusEvent α τ)) : List α :=
  es.filterMap fun
    | .queue s (.popped _ x) => if s = side then x else none
    | _ => none

@[simp] theorem poppedAt_append (side : Side) (es fs : List (BusEvent α τ)) :
    poppedAt side (es ++ fs) = poppedAt side es ++ poppedAt side fs := by
  simp [poppedAt]

@[simp] theorem poppedAt_store (side : Side) (es : List (BusEvent α τ)) :
    poppedAt side (.store :: es) = poppedAt side es := rfl

end Dobby.Queue
