import Dobby.Base.Tokens
import Dobby.Model.Email

namespace Dobby.Email
open CString Allowlist

/-- What the server answers in one turn of `poll_fn`: the text of the search, unless it
failed, and for each UID the fetched message, unless that failed. -/
structure Poll where
  response : Option Str
  fetch : Nat → Option Str

/-- `processed` lists the UIDs whose message `process_uid` has got. -/
structure Poller where
  channel : State
  lastUid : Nat
  processed : List Nat

def Poller.start : Poller := ⟨startState, 0, []⟩

/-- The numbers that the loop over the tokens goes through. -/
def uidTokens (result : Str) : List Nat :=
  let p := if startsWith "* SEARCH".toList result then result.drop 8 else result
  (strtok " \r\n".toList (p.dropWhile (fun c => c = ' '))).map strtoul

/-- Whether a UID is fetched when its token comes. -/
def Poller.wants (st : Poller) (uid : Nat) : Bool := decide (0 < uid) && decide (st.lastUid < uid)

/-- One turn of the loop over the tokens. -/
def takeUid (al : Option Allowlist) (fetch : Nat → Option Str) (st : Poller) (uid : Nat) : Poller :=
  if st.wants uid then
    { channel := processUid al st.channel (fetch uid)
      lastUid := uid
      processed := if (fetch uid).isSome then st.processed ++ [uid] else st.processed }
  else st

/-- One turn of `poll_fn`. -/
def pollOnce (al : Option Allowlist) (st : Poller) (poll : Poll) : Poller :=
  match poll.response with
  | none => st
  | some result => (uidTokens (cstr result)).foldl (takeUid al poll.fetch) st

def pollAll (al : Option Allowlist) (polls : List Poll) : Poller :=
  polls.foldl (pollOnce al) Poller.start

end Dobby.Email
