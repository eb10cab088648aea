import Dobby.Base.CString

namespace Dobby.Types
open CString

/-- `size_t` counts modulo this. -/
def sizeMod : Nat := 2 ^ 64

def sizeMax : Nat := 2 ^ 64 - 1

/-- `strbuf_t`, with the memory that `data` points to. -/
structure Strbuf where
  data : List Char
  len : Nat
  cap : Nat

/-- Fresh memory of a size. What it holds is not known. -/
def malloc (junk : Nat → Nat → Char) (size : Nat) : List Char := (List.range size).map (junk size)

def realloc (junk : Nat → Nat → Char) (data : List Char) (size : Nat) : List Char :=
  data.take size ++ (malloc junk size).drop data.length

/-- A write outside the memory has no result. -/
def store (data : List Char) (off : Nat) (bytes : List Char) : Option (List Char) :=
  if off + bytes.length ≤ data.length then
    some (data.take off ++ bytes ++ data.drop (off + bytes.length))
  else none

section Operations
variable (junk : Nat → Nat → Char)

def strbufInit (initialCap : Nat) : Option Strbuf :=
  let cap := if 0 < initialCap then initialCap else 256
  (store (malloc junk cap) 0 ['\x00']).map (fun data => ⟨data, 0, cap⟩)

/-- The doubling loop before so many bytes are added. It has no result if it takes more
turns than this. -/
def grow (added : Nat) : Nat → Strbuf → Option Strbuf
  | 0, _ => none
  | turns + 1, sb =>
    if sb.cap < (sb.len + added + 1) % sizeMod then
      let cap := sb.cap * 2 % sizeMod
      grow added turns { sb with cap := cap, data := realloc junk sb.data cap }
    else some sb

def strbufAppend (turns : Nat) (sb : Strbuf) (str : List Char) : Option Strbuf := do
  let slen := (cstr str).length
  let sb ← grow junk slen turns sb
  let data ← store sb.data sb.len (cstr str ++ ['\x00'])
  some { sb with data := data, len := (sb.len + slen) % sizeMod }

/-- A read behind the end of the source has no result. -/
def strbufAppendLen (turns : Nat) (sb : Strbuf) (str : Option (List Char)) (len : Nat) : Option Strbuf :=
  match str with
  | none => some sb
  | some str =>
    if len = 0 then some sb
    else if str.length < len then none
    else do
      let sb ← grow junk len turns sb
      let data ← store sb.data sb.len (str.take len)
      let sb := { sb with data := data, len := (sb.len + len) % sizeMod }
      let data ← store sb.data sb.len ['\x00']
      some { sb with data := data }

/-- `vsnprintf` makes a text of at most `INT_MAX` bytes or reports an error. -/
def strbufAppendf (turns : Nat) (sb : Strbuf) (printed : Option (List Char)) : Option Strbuf :=
  match printed with
  | none => some sb
  | some buf => strbufAppend junk turns sb buf

def strbufClear (sb : Strbuf) : Option Strbuf :=
  (store sb.data 0 ['\x00']).map (fun data => { sb with data := data, len := 0 })

end Operations

inductive Op where
  | append (str : List Char)
  | appendLen (str : Option (List Char)) (len : Nat)
  | appendf (printed : Option (List Char))
  | clear

def Op.run (junk : Nat → Nat → Char) (turns : Nat) (sb : Strbuf) : Op → Option Strbuf
  | .append str => strbufAppend junk turns sb str
  | .appendLen str len => strbufAppendLen junk turns sb str len
  | .appendf printed => strbufAppendf junk turns sb printed
  | .clear => strbufClear sb

/-- The operations one after the other, on a buffer that `strbuf_init` made. -/
def runAll (junk : Nat → Nat → Char) (turns initialCap : Nat) (ops : List Op) : Option Strbuf := do
  ops.foldlM (Op.run junk turns) (← strbufInit junk initialCap)

end Dobby.Types
