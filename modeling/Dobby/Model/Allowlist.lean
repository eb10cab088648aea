import Dobby.Base.Files
import Dobby.Base.Glob
import Dobby.Base.Lines

namespace Dobby
open CString Glob Lines

namespace Allowlist

def maxRules : Nat := 256

inductive AclType where
  | command
  | path
  | endpoint
  | email
  deriving DecidableEq

def AclType.name : AclType → Str
  | .command => "command".toList
  | .path => "path".toList
  | .endpoint => "endpoint".toList
  | .email => "email".toList

@[ext]
structure AclList where
  rules : List Str
  enabled : Bool
  bounded : rules.length ≤ maxRules

end Allowlist

abbrev Allowlist := Allowlist.AclType → Allowlist.AclList

namespace Allowlist

inductive Result where
  | ok
  | generic (message : Str)
  deriving DecidableEq

def allowlistCreate : Allowlist := fun _ => ⟨[], false, by decide⟩

def allowlistAdd (al : Allowlist) (type : AclType) (pattern : Str) : Result × Allowlist :=
  if h : (al type).rules.length < maxRules then
    (.ok, Function.update al type ⟨(al type).rules ++ [pattern], true,
      by rw [List.length_append]; exact h⟩)
  else (.generic ("Max rules reached for ".toList ++ type.name), al)

/-- The text before the first space, for a value that has one. -/
def commandName (value : Str) : Option Str :=
  if ' ' ∈ value then some (value.takeWhile (fun c => c ≠ ' ')) else none

/-- Whether one rule lets a value pass. -/
def ruleAdmits (type : AclType) (value pattern : Str) : Bool :=
  match type with
  | .command => fnmatch pattern value || (commandName value).any (fnmatch pattern)
  | .path => pattern.isPrefixOf value
  | .endpoint => pattern.isPrefixOf value
  | .email => fnmatchFold pattern value

def allowlistCheck (al : Allowlist) (type : AclType) (value : Str) : Bool :=
  if (al type).enabled then (al type).rules.any (ruleAdmits type value) else true

def allowlistIsEnabled (al : Allowlist) (type : AclType) : Bool := (al type).enabled

/-- The section that a trimmed line opens. -/
def sectionType (s : Str) : Option AclType :=
  if s = "[commands]".toList then some .command
  else if s = "[paths]".toList then some .path
  else if s = "[endpoints]".toList then some .endpoint
  else if s = "[email]".toList then some .email
  else none

/-- The values of a trimmed line that starts with `allow`. `strtok` passes over
empty values, and so does the loop. -/
def allowValues (s : Str) : List Str :=
  if "allow".toList.isPrefixOf s then
    match s.dropWhile (fun c => c ≠ '=') with
    | [] => []
    | _ :: vals => (((strTrim vals).splitOn ',').map strTrim).filter (fun v => v ≠ [])
  else []

/-- One turn of the loop of `allowlist_load`. -/
def loadLine (st : AclType × Allowlist) (line : Str) : AclType × Allowlist :=
  let s := strTrim (cstr line)
  if s = [] ∨ s.head? = some '#' then st
  else match sectionType s with
    | some type => (type, st.2)
    | none => (st.1, (allowValues s).foldl (fun al v => (allowlistAdd al st.1 v).2) st.2)

def allowlistLoad (fs : Fs) (al : Allowlist) (configPath : Str) : Result × Allowlist :=
  match fs configPath with
  | none => (.ok, al)
  | some bytes => (.ok, ((fgetsAll 1024 bytes).foldl loadLine (.command, al)).2)

/-- The first rule that is equal in any case goes. -/
def allowlistRemove (al : Allowlist) (type : AclType) (pattern : Str) : Bool × Allowlist :=
  if (al type).rules.any (fun rule => strcaseEq rule pattern) then
    let rules := (al type).rules.eraseP (fun rule => strcaseEq rule pattern)
    (true, Function.update al type ⟨rules, (al type).enabled && !rules.isEmpty,
      (List.length_eraseP_le).trans (al type).bounded⟩)
  else (false, al)

/-- The new `[email]` section, built in a buffer of 4096 bytes. -/
def emailSection (al : Allowlist) : Str :=
  if (al .email).rules = [] then []
  else "[email]\nallow = ".toList ++ ", ".toList.intercalate (al .email).rules ++ ['\n']

/-- Where the old section is taken to start. -/
def emailStart (content : Str) : Option Str :=
  match strstr "\n[email]".toList content with
  | some start => some start
  | none => strstr "[email]".toList content

/-- The loop that looks for the next section. Past the newline of a comment it goes
on to the next newline, so the line after a comment is not looked at. -/
def nextSection (inComment : Bool) : Str → Option Str
  | [] => none
  | c :: cs =>
    if c = '\n' then
      if inComment then nextSection false cs
      else match cs with
        | [] => some []
        | '[' :: _ => some cs
        | '#' :: _ => nextSection true cs
        | _ => nextSection false cs
    else nextSection inComment cs

def initialComment : Str := "# Dobby Security Allowlists\n\n".toList

/-- The text that is written back. `content` is missing for an empty file. -/
def saveText (content : Option Str) (sec : Str) : Str :=
  match content with
  | none => initialComment ++ sec
  | some content =>
    match emailStart content with
    | none => content ++ (if sec = [] then [] else '\n' :: sec)
    | some start =>
      content.take (content.length - start.length) ++ '\n' :: sec ++
        (nextSection false (start.drop 1)).getD []

def readContent (fs : Fs) (configPath : Str) : Option Str :=
  match fs configPath with
  | none => none
  | some [] => none
  | some bytes => some (cstr bytes)

/-- There is no result where the section overruns its buffer. -/
def allowlistSaveEmail (writable : Bool) (fs : Fs) (al : Option Allowlist)
    (configPath : Option Str) : Option (Result × Fs) :=
  match al, configPath with
  | none, _ | _, none => some (.generic "null argument".toList, fs)
  | some al, some path =>
    if (emailSection al).length < 4096 then
      some (if writable then (.ok, fs.write path (saveText (readContent fs path) (emailSection al)))
        else (.generic "cannot write allowlist.conf".toList, fs))
    else none

end Allowlist
end Dobby
