import Dobby.Model.CjsonText
import Dobby.Model.Memory

namespace Dobby.MdMemory
open CString Lines Cjson

/-- One turn of the loop of `memory_search`: the text so far and the matches. -/
def searchLine (query : Str) (st : Str × Nat) (line : Str) : Str × Nat :=
  if strcasestr (lineBuf line) query then
    let header := if st.2 = 0 then "Results for \"".toList ++ query ++ "\":\n\n".toList else []
    (st.1 ++ header ++ "  ".toList ++ copyLine line, st.2 + 1)
  else st

/-- What `strdup` takes of the string buffer ends at the first null byte. -/
def memorySearch (fs : Fs) (mem : Memory) (query : Str) : Str :=
  let st := (lines (readMemoryFile fs mem)).foldl (searchLine query) ([], 0)
  if st.2 = 0 then "No memories matching \"".toList ++ query ++ "\".".toList else cstr st.1

/-- The message that `err` prints into its buffer of 1024 bytes. -/
def Result.message (strerror : Str) : Result → Str
  | .ok => []
  | .generic message => snprintf 1024 message
  | .cannotWrite tmp => snprintf 1024 ("Cannot write ".toList ++ tmp ++ ": ".toList ++ strerror)
  | .cannotRename tmp => snprintf 1024 ("Cannot rename ".toList ++ tmp ++ ": ".toList ++ strerror)

/-- The section argument of the tools, with its alias. -/
def sectionOf (args : Json) : Option Str :=
  (args.field "section".toList).or (args.field "category".toList)

section

variable (doubles : Doubles)

def errorReply (message : Str) : Str :=
  cJSONPrintUnformatted doubles (.object [("error".toList, .string message)])

def toolMemoryStore (strerror : Str) (f : Faults) (fs : Fs) (mem : Memory) (args : Json) :
    Str × Fs :=
  let (result, writes) := memoryStoreWith f fs mem (sectionOf args)
    ((args.field "key".toList).getD []) (args.field "value".toList)
  if result = .ok then ("\x7b\"status\":\"stored\"\x7d".toList, runWrites fs writes)
  else (errorReply doubles (result.message strerror), runWrites fs writes)

def recallTree : Option Str → Json
  | some value => .object [("value".toList, .string value)]
  | none => .object [("error".toList, .string "not found".toList)]

/-- There is no reply without a key: `strcmp` takes no null pointer. -/
def toolMemoryRecall (fs : Fs) (mem : Memory) (args : Json) : Option Str :=
  (args.field "key".toList).map fun key =>
    cJSONPrintUnformatted doubles (recallTree (memoryRecall fs mem (sectionOf args) key))

def toolMemorySearch (fs : Fs) (mem : Memory) (args : Json) : Str :=
  match args.field "query".toList with
  | none | some [] => "\x7b\"error\":\"query required\"\x7d".toList
  | some query => memorySearch fs mem query

end

/-- What the agent asks of the memory, the program's start, and what other parts of the
program write to other files. -/
inductive Call where
  | store (args : Json) (f : Faults)
  | recalls (args : Json)
  | search (args : Json)
  | start (created : Faults) (entries : List (Str × Outcome))
  | others (files : Fs)

/-- The files after a call. -/
def after (doubles : Doubles) (strerror baseDir : Str) (fs : Fs) : Call → Fs
  | .store args f => (toolMemoryStore doubles strerror f fs (memoryAt baseDir) args).2
  | .recalls _ | .search _ => fs
  | .start created entries => (memoryCreateWith created fs baseDir entries).2
  | .others files => fun p => if p = (memoryAt baseDir).path then fs p else files p

end Dobby.MdMemory
