import Dobby.Base.Ansi

namespace Dobby.Serial
open CString

def maxOutputBytes : Nat := 256 * 1024
def maxCommands : Nat := 32

/-- The rest of a control sequence is skipped, its last byte included. -/
def skipControl : Str → Str
  | [] => []
  | c :: cs => if c.toNat < 0x40 ∨ 0x7e < c.toNat then skipControl cs else cs

theorem skipControl_length (s : Str) : (skipControl s).length ≤ s.length := by
  induction s with
  | nil => exact Nat.le_refl _
  | cons c cs ih =>
    rw [skipControl, List.length_cons]
    split <;> omega

def stripAnsi : Str → Str
  | [] => []
  | c :: cs =>
    if c = '\x1b' then
      match cs with
      | [] => []
      | d :: ds =>
        if d = '[' then stripAnsi (skipControl ds)
        else if d = '(' ∨ d = ')' then stripAnsi (ds.drop 1)
        else stripAnsi ds
    else c :: stripAnsi cs
termination_by s => s.length
decreasing_by
  · have := skipControl_length ds
    simp only [List.length_cons]
    omega
  · simp only [List.length_drop, List.length_cons]
    omega
  · simp only [List.length_cons]
    omega
  · simp only [List.length_cons]
    omega

/-- The buffer behind a read. -/
def collect (sb stripped : Str) : Str :=
  if stripped ≠ [] ∧ sb.length < maxOutputBytes then
    sb ++ stripped.take (min stripped.length (maxOutputBytes - sb.length))
  else sb

/-- The first pattern that the buffer contains. -/
def matched (patterns : List Str) (sb : Str) : Option Nat :=
  patterns.findIdx? fun p => p ≠ [] && (strstr p (cstr sb)).isSome

/-- The loop over what `read` gives until the deadline; a call that gives nothing changes
nothing. -/
def readUntil (patterns : List Str) (sb : Str) : List Str → Option Nat × Str
  | [] => (none, sb)
  | raw :: reads =>
    let sb := collect sb (stripAnsi raw)
    match matched patterns sb with
    | some p => (some p, sb)
    | none => readUntil patterns sb reads

/-- What a call of `write` does. -/
inductive Write where
  | wrote (n : Nat)
  | interrupted
  | failed

/-- How the sending of a line goes, with the outcomes of `write` that are left. In
`waiting` there are none left and the line is not complete. -/
inductive Sent where
  | whole (rest : List Write)
  | failed (rest : List Write)
  | waiting

/-- The loop of `serial_send` over the rest of its buffer: what is written and how it ends. -/
def sendLoop (buf : Str) : List Write → Str × Sent
  | [] => ([], if buf = [] then .whole [] else .waiting)
  | w :: writes =>
    if buf = [] then ([], .whole (w :: writes))
    else match w with
      | .interrupted => sendLoop buf writes
      | .failed => ([], .failed writes)
      | .wrote n =>
        let later := sendLoop (buf.drop n) writes
        (buf.take n ++ later.1, later.2)

def serialSend (text : Str) (writes : List Write) : Str × Sent := sendLoop (text ++ "\r\n".toList) writes

/-- What the device receives from the loop over the commands, which goes on behind a
command that could not be sent. -/
def runCommands : List Str → List Write → Str
  | [], _ => []
  | command :: commands, writes =>
    match serialSend command writes with
    | (bytes, .whole rest) => bytes ++ runCommands commands rest
    | (bytes, .failed rest) => bytes ++ runCommands commands rest
    | (bytes, .waiting) => bytes

/-- The command phase of `serial_execute`. -/
def commandPhase (commands : List Str) (writes : List Write) : Str :=
  runCommands (commands.take maxCommands) writes

end Dobby.Serial
