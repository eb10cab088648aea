import Dobby.Base.Lines
import Dobby.Base.Writes

namespace Dobby.MdMemory
open CString Lines

def memoryFile : Str := "MEMORY.md".toList
def maxFileSize : Nat := 256 * 1024

def canonicalSections : List Str :=
  ["User Information".toList, "Preferences".toList, "Project Context".toList,
    "Important Notes".toList]

/-- The keyword heuristics, tried when no section name fits. -/
def sectionByKeyword (category : Str) : Str :=
  if strcasestr category "user".toList || strcasestr category "person".toList then
    "User Information".toList
  else if strcasestr category "pref".toList || strcasestr category "setting".toList then
    "Preferences".toList
  else if strcasestr category "project".toList || strcasestr category "task".toList then
    "Project Context".toList
  else "Important Notes".toList

def canonicaliseSection : Option Str → Str
  | none => "Important Notes".toList
  | some category =>
    (canonicalSections.find? (fun s => strcasestr s category || strcasestr category s)).getD
      (sectionByKeyword category)

/-- The path buffer holds 512 bytes with the terminator. -/
structure Memory where
  baseDir : Str
  path : Str
  fits : path.length < 512

/-- `read_memory_file`: an over-large file reads as an empty one. -/
def readMemoryFile (fs : Fs) (mem : Memory) : Str :=
  match fs mem.path with
  | none => []
  | some bytes => if bytes.length = 0 ∨ maxFileSize < bytes.length then [] else cstr bytes

def readMemoryFileWith (f : Faults) (fs : Fs) (mem : Memory) : Str :=
  if f.readable then readMemoryFile fs mem else []

inductive Result where
  | ok
  | generic (message : Str)
  | cannotWrite (tmp : Str)
  | cannotRename (tmp : Str)
  deriving DecidableEq

def tmpPath (mem : Memory) : Str := snprintf 520 (mem.path ++ ".tmp".toList)

/-- The buffer has room for the longer name. -/
theorem tmpPath_eq (mem : Memory) : tmpPath mem = mem.path ++ ".tmp".toList := by
  apply snprintf_fits
  rw [List.length_append]
  exact Nat.lt_of_lt_of_le (Nat.add_lt_add_right mem.fits _) (by decide)

/-- `write_memory_file` as the system calls it makes. `fputs` writes up to the first null
byte. -/
def writeMemoryFile (f : Faults) (mem : Memory) (content : Str) : Result × List Write :=
  let tmp := tmpPath mem
  let bytes := f.arrived (cstr content)
  if f.opens then
    if f.renames then (.ok, replace tmp mem.path bytes)
    else (.cannotRename tmp, overwrite tmp bytes ++ [.unlink tmp])
  else (.cannotWrite tmp, [])

/-- The line buffer holds 2047 bytes and a terminator. -/
def lineBuf (line : Str) : Str := line.take 2047

/-- `strbuf_append_len` of the line buffer with the length of the whole line. For
a longer line it copies the terminator and what lies behind the buffer; null
bytes stand for that, since `fputs` stops at the terminator. -/
def copyLine (line : Str) : Str :=
  if line.length < 2048 then line
  else line.take 2047 ++ List.replicate (line.length - 2047) '\x00'

def isHeading (linebuf : Str) : Bool := "## ".toList.isPrefixOf linebuf

def isBullet (linebuf : Str) : Bool := "- ".toList.isPrefixOf linebuf

/-- The heading as `memory_store` compares it. -/
def storeHeading (linebuf : Str) : Str :=
  (((linebuf.drop 3).take 255).takeWhile (fun c => c ≠ '\n')).takeWhile (fun c => c ≠ '\r')

/-- The heading as `memory_recall` compares it. -/
def recallHeading (linebuf : Str) : Str :=
  strTrim (((linebuf.drop 3).take 255).takeWhile (fun c => c ≠ '\n'))

/-- The key of a bullet with a colon. One of 512 bytes or more reads as empty. -/
def bulletKey (linebuf : Str) : Option Str :=
  let text := linebuf.drop 2
  let key := text.takeWhile (fun c => c ≠ ':')
  if ':' ∈ text then some (if key.length < 512 then strTrim key else []) else none

def bulletValue (linebuf : Str) : Str :=
  strTrim ((((linebuf.drop 2).dropWhile (fun c => c ≠ ':')).drop 1).take 511)

/-- The bullet that `memory_store` writes. -/
def bulletFor (key value : Str) : Str :=
  snprintf 2048 ("- ".toList ++ key ++ ": ".toList ++ value)

/-- The flags of the loop of `memory_store`. -/
structure Cursor where
  inTarget : Bool
  keyWritten : Bool
  sectionFound : Bool

/-- Whether a heading ends the target section before the key was seen. -/
def endsSection (c : Cursor) (linebuf : Str) : Bool :=
  isHeading linebuf && c.inTarget && !c.keyWritten

def atHeading (sec : Str) (c : Cursor) (linebuf : Str) : Cursor :=
  if isHeading linebuf then
    let here := storeHeading linebuf == sec
    ⟨here, c.keyWritten || c.inTarget, c.sectionFound || here⟩
  else c

/-- Whether the line is the bullet to replace. -/
def replaces (key : Str) (c : Cursor) (linebuf : Str) : Bool :=
  c.inTarget && isBullet linebuf && (bulletKey linebuf).getD [] == key

/-- One turn of the loop of `memory_store`. -/
def storeLine (sec key bullet : Str) (st : Str × Cursor) (line : Str) : Str × Cursor :=
  let linebuf := lineBuf line
  let out := if endsSection st.2 linebuf then st.1 ++ bullet ++ ['\n'] else st.1
  let c := atHeading sec st.2 linebuf
  if replaces key c linebuf then (out ++ bullet ++ ['\n'], { c with keyWritten := true })
  else (out ++ copyLine line, c)

/-- What `memory_store` appends when the loop has not written the key. -/
def storeTail (sec bullet : Str) (c : Cursor) : Str :=
  if c.keyWritten then []
  else if c.sectionFound then bullet ++ ['\n']
  else '\n' :: "## ".toList ++ sec ++ ['\n', '\n'] ++ bullet ++ ['\n']

def storeText (sec key bullet content : Str) : Str :=
  let st := (lines content).foldl (storeLine sec key bullet) ([], ⟨false, false, false⟩)
  st.1 ++ storeTail sec bullet st.2

/-- A null key counts as an empty one. -/
def memoryStoreWith (f : Faults) (fs : Fs) (mem : Memory) (category : Option Str) (key : Str)
    (value : Option Str) : Result × List Write :=
  match key, value with
  | [], _ | _, none => (.generic "key and value are required".toList, [])
  | key, some value =>
    writeMemoryFile f mem
      (storeText (canonicaliseSection category) key (bulletFor key value)
        (readMemoryFileWith f fs mem))

/-- How a call turns out whose writes bring every byte to the disk. -/
inductive Disk where
  | works
  | cannotOpen
  | cannotRename

def Disk.faults : Disk → Faults
  | .works => .none
  | .cannotOpen => { Faults.none with opens := false }
  | .cannotRename => { Faults.none with renames := false }

def memoryStore (disk : Disk) (fs : Fs) (mem : Memory) (category : Option Str) (key : Str)
    (value : Option Str) : Result × Fs :=
  let call := memoryStoreWith disk.faults fs mem category key value
  (call.1, runWrites fs call.2)

/-- The loop of `memory_recall` with its flag. -/
def recallFrom (sec key : Str) (inTarget : Bool) : List Str → Option Str
  | [] => none
  | line :: rest =>
    let linebuf := lineBuf line
    if isHeading linebuf then recallFrom sec key (recallHeading linebuf == sec) rest
    else if inTarget && isBullet linebuf && bulletKey linebuf == some key then
      some (bulletValue linebuf)
    else recallFrom sec key inTarget rest

def memoryRecall (fs : Fs) (mem : Memory) (category : Option Str) (key : Str) : Option Str :=
  recallFrom (canonicaliseSection category) key false (lines (readMemoryFile fs mem))

def initialMemory : Str :=
  "# Long-term Memory\n\n".toList ++ "This file stores important ".toList ++
    "information that should ".toList ++ "persist across sessions.\n\n".toList ++
    "## User Information\n\n".toList ++ "## Preferences\n\n".toList ++
    "## Project Context\n\n".toList ++ "## Important Notes\n".toList

def createInitialMemory (f : Faults) (mem : Memory) : List Write :=
  if f.opens then overwrite mem.path (f.arrived initialMemory) else []

def strEndsWith (s suffix : Str) : Bool := suffix.isSuffixOf s

def legacyPath (baseDir name : Str) : Str := snprintf 512 (baseDir ++ '/' :: name)

/-- What the loop over `fgets` collects of a file. -/
def readByLines (bytes : Str) : Str := (fgetsAll 1024 bytes).flatMap cstr

/-- How the file operations on a directory entry turn out. -/
structure Outcome where
  opened : Bool
  store : Faults
  unlinked : Bool

def Outcome.works : Outcome := ⟨true, .none, true⟩

/-- One directory entry in `migrate_legacy_files`. -/
def migrateEntry (mem : Memory) (fs : Fs) (name : Str) (o : Outcome) : Fs :=
  if !strEndsWith name ".md".toList || name == memoryFile then fs
  else match fs (legacyPath mem.baseDir name), o.opened with
    | some bytes, true =>
      let text := readByLines bytes
      let writes := if text.length = 0 then []
        else (memoryStoreWith o.store fs mem (some "Important Notes".toList) name (some text)).2
      let fs := runWrites fs writes
      if o.unlinked then fs.unlink (legacyPath mem.baseDir name) else fs
    | _, _ => fs

/-- `memory_create` without the files. -/
def memoryAt (baseDir : Str) : Memory :=
  ⟨baseDir, snprintf 512 (baseDir ++ '/' :: memoryFile), snprintf_lt (Nat.zero_lt_succ 511) _⟩

def startMemory (f : Faults) (fs : Fs) (baseDir : Str) : Fs :=
  if (fs (memoryAt baseDir).path).isSome then fs
  else runWrites fs (createInitialMemory f (memoryAt baseDir))

def migrateLegacyFiles (mem : Memory) (fs : Fs) (entries : List (Str × Outcome)) : Fs :=
  entries.foldl (fun fs e => migrateEntry mem fs e.1 e.2) fs

/-- `memory_create` on a directory whose entries `readdir` returns in this order, with the
outcomes of its file operations. -/
def memoryCreateWith (f : Faults) (fs : Fs) (baseDir : Str) (entries : List (Str × Outcome)) :
    Memory × Fs :=
  (memoryAt baseDir, migrateLegacyFiles (memoryAt baseDir) (startMemory f fs baseDir) entries)

/-- The same with all file operations succeeding. -/
def memoryCreate (fs : Fs) (baseDir : Str) (entries : List Str) : Memory × Fs :=
  memoryCreateWith .none fs baseDir (entries.map (·, .works))

end Dobby.MdMemory
