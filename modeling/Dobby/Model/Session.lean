import Dobby.Base.CString
import Dobby.Base.Probing
import Mathlib.Data.Fintype.Basic
import Mathlib.Logic.Function.Basic

namespace Dobby.Session
open Probing

def sessionKeyMax : Nat := 320
def sessionMax : Nat := 64
def sessionTtlDefault : Int := 3600

instance : NeZero sessionMax := ⟨by decide⟩

def djb2 (s : Str) : UInt32 :=
  s.foldl (fun h c => (h * 33) ^^^ (UInt32.ofNat (c.toNat % 256))) 5381

/-- `session_t`. The agent is owned by its slot. -/
structure Slot (α : Type u) where
  key : Str
  agent : Option α
  lastActive : Int
  inUse : Bool
  deriving DecidableEq

/-- A slot after `memset`. -/
def Slot.zero : Slot α := ⟨[], none, 0, false⟩

structure Manager (α : Type u) where
  slots : Fin sessionMax → Slot α
  ttlSeconds : Int
  count : Int

def sessionManagerCreate (ttlSeconds : Int) : Manager α :=
  ⟨fun _ => .zero, if 0 < ttlSeconds then ttlSeconds else sessionTtlDefault, 0⟩

/-- `snprintf` of `channel:chat_id` into the key buffer. -/
def sessionKey (channel chatId : Str) : Str :=
  (channel ++ ':' :: chatId).take (sessionKeyMax - 1)

def findSlot (sm : Manager α) (key : Str) : Option (Fin sessionMax) :=
  scan (fun i => (sm.slots i).inUse && (sm.slots i).key == key)
    (fun i => !(sm.slots i).inUse) none
    (probeOrder sessionMax ((djb2 key).toNat % sessionMax))

/-- The eviction test of one slot. -/
def Manager.stale (sm : Manager α) (now : Int) (i : Fin sessionMax) : Bool :=
  (sm.slots i).inUse && decide (sm.ttlSeconds ≤ now - (sm.slots i).lastActive)

def evictSlot (now : Int) (st : Manager α × Nat) (i : Fin sessionMax) : Manager α × Nat :=
  if st.1.stale now i then
    ({ st.1 with slots := Function.update st.1.slots i .zero, count := st.1.count - 1 }, st.2 + 1)
  else st

/-- `evict_locked`: one pass over the table, counting what it evicts. -/
def evictLocked (sm : Manager α) (now : Int) : Manager α × Nat :=
  (List.finRange sessionMax).foldl (evictSlot now) (sm, 0)

/-- The tail of `session_get_or_create`: a slot in use is handed out as it is, a
free one gets a fresh agent from the factory. -/
def useSlot (factory : φ → Option α × φ) (sm : Manager α) (data : φ) (key : Str)
    (now : Int) (idx : Fin sessionMax) : Option (Fin sessionMax) × Manager α × φ :=
  if (sm.slots idx).inUse then (some idx, sm, data)
  else match factory data with
    | (none, data') => (none, sm, data')
    | (some agent, data') =>
      (some idx,
        { sm with
          slots := Function.update sm.slots idx
            ⟨key.take (sessionKeyMax - 1), some agent, now, true⟩
          count := sm.count + 1 },
        data')

/-- `tEvict` and `tCreate` are the two clock readings of the call. -/
def sessionGetOrCreate (factory : φ → Option α × φ) (sm : Manager α) (data : φ)
    (channel chatId : Str) (tEvict tCreate : Int) :
    Option (Fin sessionMax) × Manager α × φ :=
  let key := sessionKey channel chatId
  match findSlot sm key with
  | some idx => useSlot factory sm data key tCreate idx
  | none =>
    let sm' := (evictLocked sm tEvict).1
    match findSlot sm' key with
    | some idx => useSlot factory sm' data key tCreate idx
    | none => (none, sm', data)

/-- `session_release` touches the slot it is given, live or not. -/
def sessionRelease (sm : Manager α) (idx : Fin sessionMax) (now : Int) : Manager α :=
  { sm with slots := Function.update sm.slots idx { sm.slots idx with lastActive := now } }

theorem sessionRelease_self (sm : Manager α) (idx : Fin sessionMax) (now : Int) :
    (sessionRelease sm idx now).slots idx = { sm.slots idx with lastActive := now } :=
  Function.update_self ..

theorem sessionRelease_ne (sm : Manager α) (now : Int) {j idx : Fin sessionMax} (hj : j ≠ idx) :
    (sessionRelease sm idx now).slots j = sm.slots j :=
  Function.update_of_ne hj ..

def sessionEvictStale (sm : Manager α) (now : Int) : Manager α × Nat := evictLocked sm now

inductive Call where
  | getOrCreate (channel chatId : Str) (tEvict tCreate : Int)
  | release (idx : Fin sessionMax) (now : Int)
  | evictStale (now : Int)

/-- One call on the manager together with the factory's own data. -/
inductive Step (factory : φ → Option α × φ) :
    Manager α × φ → Call → Manager α × φ → Prop where
  | getOrCreate
      (made : sessionGetOrCreate factory sm data channel chatId tEvict tCreate = (res, sm', data')) :
      Step factory (sm, data) (.getOrCreate channel chatId tEvict tCreate) (sm', data')
  | release : Step factory (sm, data) (.release idx now) (sessionRelease sm idx now, data)
  | evictStale : Step factory (sm, data) (.evictStale now) ((sessionEvictStale sm now).1, data)

end Dobby.Session
