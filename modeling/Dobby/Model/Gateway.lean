import Dobby.Base.Tokens

namespace Dobby.Gateway
open CString

def recvBuf : Nat := 64 * 1024
def bodyLimit : Nat := 32 * 1024

def headEnd : Str := "\r\n\r\n".toList
def lengthName : Str := "Content-Length:".toList

/-- The memory from the start of the receive buffer on, as `malloc` leaves it. A search
that finds no null byte in the buffer goes on behind it. -/
structure Heap where
  bytes : Str
  room : recvBuf ≤ bytes.length
  addressed : bytes.length ≤ 2 ^ 63

/-- What a search sees while these bytes have been received. -/
def visible (heap : Heap) (got : Str) : Str := cstr (got ++ heap.bytes.drop got.length)

/-- The number behind the first `Content-Length:`, if it is one that the loop goes by. -/
def asked (seen : Str) : Option Nat :=
  match strcasestrTail seen lengthName with
  | none => none
  | some cl =>
    let clVal := strtol (cl.drop 15)
    if clVal ≤ 0 ∨ bodyLimit < clVal then none else some clVal.toNat

/-- The unsigned difference of two sizes. -/
def sizeSub (a b : Nat) : Nat := (a + (2 ^ 64 - b)) % 2 ^ 64

/-- What the loop makes of the buffer after a read: whether it ends, and whether the
subtraction wraps around. -/
structure Look where
  ends : Bool
  wraps : Bool

def look (heap : Heap) (got : Str) : Look :=
  let seen := visible heap got
  match strstr headEnd seen with
  | none => ⟨false, false⟩
  | some tail =>
    match asked seen with
    | none => ⟨true, false⟩
    | some clVal =>
      let hdrBytes := seen.length - tail.length + 4
      ⟨decide (clVal ≤ sizeSub got.length hdrBytes), decide (got.length < hdrBytes)⟩

/-- `blocked` is a read that waits for bytes that do not come. -/
inductive Outcome where
  | null
  | returned (buf : Str)
  | blocked

def finish (got : Str) : Outcome := if got = [] then .null else .returned (cstr got)

/-- The loop of `read_request` over the results of `read`; an empty one is the end of the
stream. The flag says whether a subtraction has wrapped around. -/
def readLoop (heap : Heap) (got : Str) (wrapped : Bool) : List Str → Outcome × Bool
  | [] => if got.length < recvBuf - 1 then (.blocked, wrapped) else (finish got, wrapped)
  | chunk :: chunks =>
    if got.length < recvBuf - 1 ∧ chunk ≠ [] then
      let got := got ++ chunk.take (recvBuf - 1 - got.length)
      let l := look heap got
      if l.ends then (finish got, wrapped || l.wraps)
      else readLoop heap got (wrapped || l.wraps) chunks
    else (finish got, wrapped)

def readRequest (heap : Heap) (reads : List Str) : Outcome × Bool := readLoop heap [] false reads

def requestBody (buf : Str) : Option Str := (strstr headEnd buf).map (List.drop 4)

end Dobby.Gateway
