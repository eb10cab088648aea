import Dobby.Base.Cjson
import Dobby.Model.Allowlist

namespace Dobby.FileTool
open Allowlist

/-- The allowlist of the file tools may be missing. -/
def checkPath (al : Option Allowlist) (path : Str) : Bool :=
  match al with
  | none => true
  | some al => if allowlistIsEnabled al .path then allowlistCheck al .path path else true

def errorText (message : Str) : Str :=
  "\x7b\"error\": \"".toList ++ message ++ "\"\x7d".toList

/-- The way of a checked path to the file system. -/
def opened (al : Option Allowlist) (path : Str) : Except Str Str :=
  if checkPath al path then .ok path else .error (errorText "Path not allowed".toList)

def fileReadExec (al : Option Allowlist) (args : Json) : Except Str Str :=
  match args.field "path".toList with
  | none => .error (errorText "'path' required".toList)
  | some path => opened al path

def fileWriteExec (al : Option Allowlist) (args : Json) : Except Str Str :=
  match args.field "path".toList, args.field "content".toList with
  | some path, some _ => opened al path
  | _, _ => .error (errorText "'path' and 'content' required".toList)

def fileListExec (al : Option Allowlist) (args : Json) : Except Str Str :=
  opened al ((args.field "path".toList).getD ['.'])

def fileSearchExec (al : Option Allowlist) (args : Json) : Except Str Str :=
  match args.field "pattern".toList with
  | none => .error (errorText "'pattern' required".toList)
  | some _ => opened al ((args.field "path".toList).getD ['.'])

def fileDeleteExec (al : Option Allowlist) (args : Json) : Except Str Str :=
  match args.field "path".toList with
  | none => .error (errorText "'path' required".toList)
  | some path => opened al path

inductive Tool where
  | read
  | write
  | list
  | search
  | delete
  deriving DecidableEq

/-- The path that a tool hands to the file system first, or the text of its error. -/
def Tool.exec : Tool → Option Allowlist → Json → Except Str Str
  | .read => fileReadExec
  | .write => fileWriteExec
  | .list => fileListExec
  | .search => fileSearchExec
  | .delete => fileDeleteExec

end Dobby.FileTool
