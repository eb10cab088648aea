import Dobby.Model.Memory

namespace Dobby

/-- `lastDate` holds the date of the last entry written. -/
structure History where
  path : Str
  lastDate : Str

end Dobby

namespace Dobby.History
open CString Lines

def categoryNames : List Str :=
  ["System Event".toList, "Tool Execution".toList, "Memory Update".toList,
    "Model Change".toList, "API Call".toList, "Error".toList, "Feature".toList, "Fix".toList]

def catName (category : Int) : Str :=
  if 0 ≤ category then categoryNames.getD category.toNat "Event".toList else "Event".toList

def header : Str :=
  ("\n\n" ++ "# History\n\n" ++
    "Chronological, append-only log of significant agent events.\n\n" ++
    "Purpose: auditability, debugging, execution traceability.\n\n" ++
    "**This file must never be rewritten or reordered.**\n\n" ++ "---\n\n").toList

/-- `ensure_file` writes the header of a file that is not there. -/
def ensureFile (fs : Fs) (path : Str) : Fs :=
  if (fs path).isSome then fs else fs.write path header

/-- One turn of the loop of `detect_last_date`. -/
def dateOfLine (last line : Str) : Str :=
  if "## 20".toList.isPrefixOf (cstr line) then ((cstr line).drop 3).take 10 else last

/-- The date of the last heading in the last 4096 bytes. -/
def detectLastDate (bytes : Str) : Str :=
  (fgetsAll 256 (bytes.drop (bytes.length - 4096))).foldl dateOfLine []

def historyCreate (fs : Fs) (path : Option Str) : History × Fs :=
  let path := path.getD "HISTORY.md".toList
  let fs := ensureFile fs path
  (⟨path, detectLastDate ((fs path).getD [])⟩, fs)

/-- A line of the details, as a bullet. -/
def detailBullet (line : Str) : Str :=
  let body := line.takeWhile (fun c => c ≠ '\n')
  match body with
  | [] => []
  | c :: _ => if c = '-' ∨ c = '*' then body ++ ['\n'] else "- ".toList ++ body ++ ['\n']

def entryText (lastDate : Str) (category : Int) (title details date ts : Str) : Str :=
  (if date = lastDate then [] else "\n## ".toList ++ date ++ "\n\n".toList) ++
    "### [".toList ++ catName category ++ "] ".toList ++ title ++ ['\n'] ++
    "- Time: ".toList ++ ts ++ ['\n'] ++ (lines details).flatMap detailBullet ++ ['\n']

/-- Null details count as empty ones. -/
def historyLog (h : History) (fs : Fs) (category : Int) (title details : Option Str)
    (date ts : Str) : History × Fs :=
  match title with
  | none => (h, fs)
  | some title =>
    ({ h with lastDate := if date = h.lastDate then h.lastDate else date.take 15 },
      fs.append h.path (entryText h.lastDate category title (details.getD []) date ts))

/-- The workspace buffer of `main` holds 512 bytes with the terminator. -/
structure Workspace where
  path : Str
  fits : path.length < 512

def histPath (ws : Workspace) : Str := snprintf 1024 (ws.path ++ "/memory/HISTORY.md".toList)

def memDir (ws : Workspace) : Str := snprintf 1024 (ws.path ++ "/memory".toList)

/-- The files of a workspace and the process that runs on it. `starting` says that
its `boot` has not come to `memory_create` yet. -/
structure System where
  fs : Fs
  history : Option History
  starting : Bool

inductive Event where
  | created
  | logged (category : Int) (title details : Option Str) (date ts : Str)
  | migrated (entries : List Str)

/-- `readdir` returns at least the files of the directory. -/
def Lists (fs : Fs) (dir : Str) (entries : List Str) : Prop :=
  ∀ name, '/' ∉ name → (fs (dir ++ '/' :: name)).isSome = true → name ∈ entries

inductive Step (ws : Workspace) : System → Event → System → Prop where
  /-- A process starts, whatever became of the one before. -/
  | created : Step ws s .created
      ⟨(historyCreate s.fs (some (histPath ws))).2,
        some (historyCreate s.fs (some (histPath ws))).1, true⟩
  | logged (handle : s.history = some h) :
      Step ws s (.logged category title details date ts)
        ⟨(historyLog h s.fs category title details date ts).2,
          some (historyLog h s.fs category title details date ts).1, s.starting⟩
  | migrated (boot : s.starting = true) (lists : Lists s.fs (memDir ws) entries) :
      Step ws s (.migrated entries)
        { s with fs := (MdMemory.memoryCreate s.fs (memDir ws) entries).2, starting := false }

/-- No process has run on the workspace yet. -/
def System.cold (fs : Fs) : System := ⟨fs, none, false⟩

def System.content (ws : Workspace) (s : System) : Str := (s.fs (histPath ws)).getD []

end Dobby.History
