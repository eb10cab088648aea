import Dobby.Base.Runs
import Mathlib.Logic.Function.Basic

namespace Dobby.Gateway

/-- `GATEWAY_MAX_THREADS`, the first value of the semaphore. -/
def maxThreads : Nat := 8

/-- Where `gateway_listen_thread` stands. -/
inductive Listener where
  | top
  | waiting
  | taken
  | accepting
  | accepted (fd : Nat)
  | prepared (fd : Nat)
  | exited
  deriving DecidableEq

/-- Where a thread of `gateway_conn_thread` stands: in `read_request`, in a handler, in
`bus_publish_inbound`, in `response_pair_wait`, in `send_response`, before its `close` and
before its `sem_post`. The sockets have no timeouts. -/
inductive Worker where
  | reading (fd : Nat)
  | serving (fd : Nat)
  | publishing (fd : Nat)
  | awaiting (fd : Nat)
  | writing (fd : Nat)
  | done (fd : Nat)
  | closed
  deriving DecidableEq

/-- The workers are listed in no particular order. -/
structure Server where
  slots : Nat
  running : Bool
  listener : Listener
  workers : List Worker
  isOpen : Nat → Bool
  freed : Bool

/-- The state in which `gateway_start` makes the listener thread. -/
def Server.start : Server := ⟨maxThreads, true, .top, [], fun _ => false, false⟩

inductive Call where
  | loops
  | leaves
  | semWait
  | goesOn
  | givesUp
  | accepts (fd : Nat)
  | acceptFails
  | prepares
  | noMemory
  | spawns
  | noThread
  | requested (fd : Nat) (chat : Bool)
  | noRequest (fd : Nat)
  | answers (fd : Nat)
  | published (fd : Nat)
  | responded (fd : Nat)
  | written (fd : Nat)
  | closes (fd : Nat)
  | posts
  | stops
  | joins

/-- `sem_post`. -/
def Server.post (s : Server) : Server := { s with slots := s.slots + 1 }

def Server.close (s : Server) (fd : Nat) : Server :=
  { s with isOpen := Function.update s.isOpen fd false }

/-- A worker on its way to `close`. It has a request as soon as its client has sent one or
has stopped sending, and none if it has no buffer or the client sends nothing. A chat goes
over the bus, which may have to wait for room, and waits for its response. The writes wait
for a client that takes nothing. -/
inductive Turn : Worker → Call → Worker → Prop where
  | requested : Turn (.reading fd) (.requested fd chat)
      (if chat then .publishing fd else .serving fd)
  | noRequest : Turn (.reading fd) (.noRequest fd) (.done fd)
  | answers : Turn (.serving fd) (.answers fd) (.writing fd)
  | published : Turn (.publishing fd) (.published fd) (.awaiting fd)
  | responded : Turn (.awaiting fd) (.responded fd) (.writing fd)
  | written : Turn (.writing fd) (.written fd) (.done fd)

/-- The listener, the workers and `gateway_destroy` taking turns. -/
inductive Serves : Server → Call → Server → Prop where
  | loops (pc : s.listener = .top) (on : s.running = true) :
      Serves s .loops { s with listener := .waiting }
  | leaves (pc : s.listener = .top) (off : s.running = false) :
      Serves s .leaves { s with listener := .exited }
  | semWait (pc : s.listener = .waiting) (free : s.slots = n + 1) :
      Serves s .semWait { s with slots := n, listener := .taken }
  | goesOn (pc : s.listener = .taken) (on : s.running = true) :
      Serves s .goesOn { s with listener := .accepting }
  | givesUp (pc : s.listener = .taken) (off : s.running = false) :
      Serves s .givesUp { s.post with listener := .exited }
  -- the kernel hands out a descriptor that is not in use
  | accepts (pc : s.listener = .accepting) (fresh : s.isOpen fd = false) :
      Serves s (.accepts fd)
        { s with listener := .accepted fd, isOpen := Function.update s.isOpen fd true }
  | acceptFails (pc : s.listener = .accepting) :
      Serves s .acceptFails
        { s.post with listener := if s.running then .top else .exited }
  | prepares (pc : s.listener = .accepted fd) : Serves s .prepares { s with listener := .prepared fd }
  | noMemory (pc : s.listener = .accepted fd) :
      Serves s .noMemory { (s.close fd).post with listener := .top }
  | spawns (pc : s.listener = .prepared fd) :
      Serves s .spawns { s with listener := .top, workers := .reading fd :: s.workers }
  | noThread (pc : s.listener = .prepared fd) :
      Serves s .noThread { (s.close fd).post with listener := .top }
  | turns (live : s.workers = ws ++ w :: vs) (turn : Turn w c v) :
      Serves s c { s with workers := ws ++ v :: vs }
  | closes (live : s.workers = ws ++ .done fd :: vs) :
      Serves s (.closes fd) { s.close fd with workers := ws ++ .closed :: vs }
  | posts (live : s.workers = ws ++ .closed :: vs) :
      Serves s .posts { s.post with workers := ws ++ vs }
  | stops : Serves s .stops { s with running := false }
  -- the rest of `gateway_destroy`, which waits for the listener and for no worker
  | joins (off : s.running = false) (pc : s.listener = .exited) :
      Serves s .joins { s with freed := true }

end Dobby.Gateway
