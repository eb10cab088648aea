import Dobby.Base.Cjson
import Dobby.Model.Allowlist

namespace Dobby.Shell
open Allowlist

def defaultTimeout : Int := 30

def jsonError (msg : Str) (detail : Option Str) : Json :=
  .object (("error".toList, .string msg) ::
    (detail.map (fun d => ("detail".toList, Json.string d))).toList)

/-- What a call of the tool comes to: a reply, or a child that runs `sh -c`. -/
inductive Outcome where
  | refused (reply : Json)
  | ran (command : Str) (timeout : Int)

def timeoutOf (args : Json) : Int :=
  let timeout := match args.getObjectItem "timeout".toList with
    | some tv => if tv.isNumber then tv.valueInt else defaultTimeout
    | none => defaultTimeout
  if timeout ≤ 0 ∨ 300 < timeout then defaultTimeout else timeout

/-- Whether the allowlist stands in the way. Without one nothing does. -/
def blocks (al : Option Allowlist) (command : Str) : Bool :=
  match al with
  | none => false
  | some al => allowlistIsEnabled al .command && !allowlistCheck al .command command

def shellExecute (al : Option Allowlist) (args : Json) : Outcome :=
  match args.field "command".toList with
  | none | some [] => .refused (jsonError "'command' parameter required".toList none)
  | some command =>
    if blocks al command then
      .refused (jsonError "Command not permitted by allowlist".toList (some command))
    else .ran command (timeoutOf args)

def maxOutputSize : Nat := 32 * 1024

/-- What one `read` adds to the text of the buffer: the chunk, cut to the room there is, as
a string. -/
def drainRead (sb : Str) (buf : List Char) : Str :=
  if sb.length < maxOutputSize then
    let take := if maxOutputSize < sb.length + buf.length then maxOutputSize - sb.length else buf.length
    sb ++ CString.cstr (buf.take take)
  else sb

/-- One turn of the polling loop: what is read, the status of a child that has ended, and
whether the deadline has passed. -/
structure Round where
  reads : List (List Char)
  exit : Option Int
  late : Bool

/-- The text, the exit code and whether the command timed out. No result: the loop goes on. -/
def pollLoop (sb : Str) : List Round → Option (Str × Int × Bool)
  | [] => none
  | r :: rs =>
    let sb := r.reads.foldl drainRead sb
    match r.exit with
    | some code => some (sb, code, false)
    | none => if r.late then some (sb, -1, true) else pollLoop sb rs

def timeoutNotice : Str := "\n[dobby: command timed out and was killed]".toList

def truncationNotice : Str := "\n[dobby: output truncated]".toList

/-- The parent's part of `shell_run_timed`, with the reads of the last drain. -/
def shellRunTimed (rounds : List Round) (last : List (List Char)) : Option (Str × Int) :=
  (pollLoop [] rounds).map fun (sb, code, timedOut) =>
    let sb := last.foldl drainRead sb
    (sb ++ (if timedOut then timeoutNotice
      else if maxOutputSize ≤ sb.length then truncationNotice else []), code)

end Dobby.Shell
