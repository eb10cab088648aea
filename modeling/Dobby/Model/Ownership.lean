import Dobby.Model.Queue

namespace Dobby.Ownership
open Queue

inductive Publisher where
  | terminal
  | gateway (conn : Nat)
  | email
  | scheduler
  | heartbeat
  | whatsapp
  deriving DecidableEq

/-- Who a message belongs to. `bus_publish_inbound` takes it from its publisher. -/
inductive Owner where
  | publisher (p : Publisher)
  | bus
  | worker
  | released
  deriving DecidableEq

/-- The `inbound_msg_t` and the strings it points to. -/
inductive Part where
  | struct
  | strings
  deriving DecidableEq

/-- The history of one message: who has freed which part of it, whether it was used by
a party it did not belong to, and whether its publish returned false. -/
@[ext]
structure Ledger where
  owner : Owner
  frees : Part → List Owner
  misused : Bool
  refused : Bool

def inboundMsgNew (p : Publisher) : Ledger := ⟨.publisher p, fun _ => [], false, false⟩

def Ledger.use (who : Owner) (m : Ledger) : Ledger :=
  { m with misused := m.misused || decide (m.owner ≠ who) }

/-- `free` of the bare pointer, as `q_push` and `bq_destroy` have it. -/
def Ledger.free (who : Owner) (m : Ledger) : Ledger :=
  { m with
    owner := .released
    frees := Function.update m.frees .struct (m.frees .struct ++ [who]) }

def inboundMsgFree (who : Owner) (m : Ledger) : Ledger :=
  { m.use who with owner := .released, frees := fun part => m.frees part ++ [who] }

/-- What a publisher does with a message when its publish has returned false. Only
the terminal does anything. -/
def onFalse (p : Publisher) (m : Ledger) : Ledger :=
  let told := { m with owner := .released, refused := true }
  if p = .terminal then inboundMsgFree (.publisher p) told else told

inductive BusState where
  | missing
  | live
  | destroyed
  deriving DecidableEq

inductive WorkerPc where
  | top
  | consuming
  | busy (ptr : Nat)
  | exited
  deriving DecidableEq

def WorkerPc.hand : WorkerPc → Option Nat
  | .busy ptr => some ptr
  | _ => none

/-- How far `boot` got. Without its dispatcher thread `worker_start` destroys the worker
again, which shuts the bus down. Nothing of this ends the program. -/
inductive Boot where
  | noBus
  | noWorker
  | noDispatcher
  | up
  deriving DecidableEq

structure System where
  bus : BusState
  shutDown : Bool
  running : Bool
  inbound : Bq Nat
  msgs : Nat → Option Ledger
  /-- Between `inbound_msg_new` and the return of the publish. -/
  publishing : Publisher → Option Nat
  pc : WorkerPc
  /-- `run` has come to `cleanup`. -/
  leaving : Bool

def System.boot (b : Boot) : System where
  bus := if b = .noBus then .missing else .live
  shutDown := b = .noDispatcher
  running := b = .up
  inbound := bqInit
  msgs _ := none
  publishing _ := none
  pc := if b = .up then .top else .exited
  leaving := false

/-- The publishers that can still start a message. `cleanup` joins the threads of the
two channels before it destroys the bus; the heartbeat, the scheduler and the email
channel look for a bus first. -/
def System.Alive (s : System) : Publisher → Prop
  | .terminal => s.leaving = false
  | .gateway _ => True
  | .email => s.bus = .live
  | .scheduler => s.bus ≠ .missing
  | .heartbeat => s.bus ≠ .missing
  | .whatsapp => s.bus ≠ .destroyed

def System.setMsg (s : System) (ptr : Nat) (m : Ledger) : System :=
  { s with msgs := Function.update s.msgs ptr (some m) }

/-- The publish is over, and this has become of the message. -/
def System.published (s : System) (p : Publisher) (ptr : Nat) (m : Ledger) : System :=
  { s.setMsg ptr m with publishing := Function.update s.publishing p none }

inductive Event where
  | created (p : Publisher) (ptr : Nat)
  | published (p : Publisher) (ptr : Nat)
  | stays
  | leaves
  | consumed (ptr : Nat)
  | drained
  | read (ptr : Nat)
  | released (ptr : Nat)
  | signsOff
  | stopped
  | shut
  | destroyed

/-- The publishers, the worker and `cleanup` taking turns. What a publisher does with
a false result only it can see, so it is part of the publish. -/
inductive Step : System → Event → System → Prop where
  | created (alive : s.Alive p) (idle : s.publishing p = none) (fresh : s.msgs ptr = none) :
      Step s (.created p ptr)
        { s.setMsg ptr (inboundMsgNew p) with
          publishing := Function.update s.publishing p (some ptr) }
  | accepted (call : s.publishing p = some ptr) (msg : s.msgs ptr = some m) (live : s.bus = .live)
      (stay : qPush s.inbound ptr s.shutDown = .accepted q) :
      Step s (.published p ptr)
        { s.published p ptr { m.use (.publisher p) with owner := .bus } with inbound := q }
  | refused (call : s.publishing p = some ptr) (msg : s.msgs ptr = some m) (live : s.bus = .live)
      (stay : qPush s.inbound ptr s.shutDown = .refused) :
      Step s (.published p ptr)
        (s.published p ptr (onFalse p ((m.use (.publisher p)).free .bus)))
  | unavailable (call : s.publishing p = some ptr) (msg : s.msgs ptr = some m)
      (nobus : s.bus = .missing) :
      Step s (.published p ptr) (s.published p ptr (onFalse p m))
  -- nothing is defined for a bus that has been freed, so nobody answers for the message
  | lost (call : s.publishing p = some ptr) (msg : s.msgs ptr = some m) (gone : s.bus = .destroyed) :
      Step s (.published p ptr) (s.published p ptr { m with owner := .released })
  | stays (pc : s.pc = .top) (on : s.running = true) : Step s .stays { s with pc := .consuming }
  | leaves (pc : s.pc = .top) (off : s.running = false) : Step s .leaves { s with pc := .exited }
  | consumed (pc : s.pc = .consuming) (stay : qPop s.inbound s.shutDown = .item (some ptr) q)
      (msg : s.msgs ptr = some m) :
      Step s (.consumed ptr)
        { s.setMsg ptr { m with owner := .worker } with inbound := q, pc := .busy ptr }
  | drained (pc : s.pc = .consuming) (stay : qPop s.inbound s.shutDown = .drained) :
      Step s .drained { s with pc := .exited }
  | read (pc : s.pc = .busy ptr) (msg : s.msgs ptr = some m) :
      Step s (.read ptr) (s.setMsg ptr (m.use .worker))
  | released (pc : s.pc = .busy ptr) (msg : s.msgs ptr = some m) :
      Step s (.released ptr) { s.setMsg ptr (inboundMsgFree .worker m) with pc := .top }
  | signsOff (idle : s.publishing .terminal = none) :
      Step s .signsOff { s with leaving := true }
  | stopped (cleanup : s.leaving = true) : Step s .stopped { s with running := false }
  | shut (cleanup : s.leaving = true) : Step s .shut { s with shutDown := true }
  | destroyed (cleanup : s.leaving = true) (shut : s.shutDown = true) (live : s.bus = .live)
      (joined : s.pc = .exited) (email : s.publishing .email = none)
      (whatsapp : s.publishing .whatsapp = none) :
      Step s .destroyed
        { s with
          bus := .destroyed
          inbound := bqInit
          msgs := fun ptr =>
            if ptr ∈ s.inbound.contents then (s.msgs ptr).map (Ledger.free .bus) else s.msgs ptr }

def System.ownerOf (s : System) (ptr : Nat) : Option Owner := (s.msgs ptr).map Ledger.owner

@[simp] theorem onFalse_owner (p : Publisher) (m : Ledger) : (onFalse p m).owner = .released := by
  unfold onFalse
  split <;> rfl

end Dobby.Ownership
