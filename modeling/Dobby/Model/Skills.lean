import Dobby.Base.Files
import Dobby.Base.Lines
import Dobby.Base.Tokens

namespace Dobby.Skills
open CString Lines

def maxRequires : Nat := 8
def maxReqLen : Nat := 64

/-- What the front matter sets. The arrays are listed up to their counts. -/
structure Metadata where
  name : Str
  description : Str
  always : Bool
  requiresBins : List Str
  requiresEnv : List Str
  deriving DecidableEq

/-- `skill_t` -/
structure Skill extends Metadata where
  path : Str
  slug : Str
  available : Bool
  content : Str

def cmdOnPath (system : Str → Bool) (bin : Str) : Bool :=
  bin = [] || system (snprintf 256 ("command -v ".toList ++ bin ++ " >/dev/null 2>&1".toList))

def envSet (getenv : Str → Option Str) (var : Str) : Bool := (getenv var).getD [] ≠ []

def splitWords (src : Str) (max : Nat) : List Str :=
  ((strtok " \t,".toList (snprintf 512 src)).take max).map (snprintf maxReqLen)

def defaults (slug : Str) : Metadata :=
  ⟨snprintf 256 slug, snprintf 256 "A custom skill".toList, false, [], []⟩

def truthy (val : Str) : Bool := val = "true".toList || val = "yes".toList || val = "1".toList

/-- A line of the front matter. -/
def setLine (md : Metadata) (line : Str) : Metadata :=
  if ':' ∈ line then
    let key := strTrim (line.takeWhile (· ≠ ':'))
    let val := strTrim ((line.dropWhile (· ≠ ':')).drop 1)
    if key = "name".toList then { md with name := snprintf 256 val }
    else if key = "description".toList then { md with description := snprintf 256 val }
    else if key = "always".toList then { md with always := truthy val }
    else if key = "requires_bins".toList then { md with requiresBins := splitWords val maxRequires }
    else if key = "requires_env".toList then { md with requiresEnv := splitWords val maxRequires }
    else md
  else md

def dropEnd (c : Char) (s : Str) : Str := if s.getLast? = some c then s.dropLast else s

/-- A line without its end. -/
def chomp (piece : Str) : Str := dropEnd '\r' (dropEnd '\n' (cstr piece))

def marker : Str := "---".toList

/-- The variables of the loop of `parse_skill_file`. -/
structure Parser where
  metadata : Metadata
  dashes : Nat
  inFm : Bool
  body : Str

/-- What the loop makes of the text of a line. -/
def readText (p : Parser) (line : Str) : Parser :=
  let dashes := if line = marker then p.dashes + 1 else p.dashes
  if line = marker ∧ dashes = 1 then { p with dashes := dashes, inFm := true }
  else if line = marker ∧ dashes = 2 then { p with dashes := dashes, inFm := false }
  else if p.inFm then { p with dashes := dashes, metadata := setLine p.metadata line }
  else if 2 ≤ dashes then { p with dashes := dashes, body := p.body ++ (line ++ ['\n']) }
  else { p with dashes := dashes }

def readLine (p : Parser) (piece : Str) : Parser := readText p (chomp piece)

/-- A file that cannot be opened has no result. -/
def parseSkillFile (system : Str → Bool) (getenv : Str → Option Str) (fs : Fs) (path : Str)
    (sk : Skill) : Option Skill :=
  (fs path).map fun bytes =>
    let p := (fgetsAll 1024 bytes).foldl readLine ⟨defaults sk.slug, 0, false, []⟩
    let content := if p.dashes < 2 then (fgetsAll 1024 bytes).flatMap cstr else p.body
    { sk with
      toMetadata := p.metadata
      content := content
      available := p.metadata.requiresBins.all (cmdOnPath system) &&
        p.metadata.requiresEnv.all (envSet getenv) }

end Dobby.Skills
