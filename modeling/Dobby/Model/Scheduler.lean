import Dobby.Base.Files
import Dobby.Model.Shell

namespace Dobby.Schedule
open CString

def maxTasks : Nat := 64

inductive TaskType where
  | shell
  | agentTurn
  deriving DecidableEq

def TaskType.name : TaskType → Str
  | .shell => "shell".toList
  | .agentTurn => "agent_turn".toList

/-- The type that a member of this text stands for. -/
def TaskType.ofName (typeStr : Option Str) : TaskType :=
  if typeStr = some "shell".toList then .shell else .agentTurn

/-- `sched_task_t`. A deleted task keeps its slot. -/
structure Task where
  id : Int
  name : Str
  type : TaskType
  task : Str
  intervalSec : Int
  lastRun : Int
  paused : Bool
  active : Bool

/-- The slots in use are the first `task_count` ones. -/
structure Scheduler where
  tasks : List Task
  nextId : Int
  jobsPath : Str
  bounded : tasks.length ≤ maxTasks

/-- `%d` of `sscanf`: the number, kept in 64 and cut to 32 bits, and what follows. -/
def scanInt (s : Str) : Option (Int × Str) :=
  let signed := takeSign (s.dropWhile isSpace)
  let digits := signed.2.takeWhile Char.isDigit
  let n : Int := Nat.ofDigitChars 10 digits 0
  if digits = [] then none
  else some ((max (-2 ^ 63) (min (2 ^ 63 - 1) (if signed.1 then -n else n))).bmod (2 ^ 32),
    signed.2.dropWhile Char.isDigit)

/-- The seconds of a unit, the first one that its text contains. -/
def unitSeconds (unit : Str) : Option Int :=
  if (strstr "sec".toList unit).isSome then some 1
  else if (strstr "min".toList unit).isSome then some 60
  else if (strstr "hour".toList unit).isSome then some 3600
  else if (strstr "day".toList unit).isSome then some 86400
  else none

/-- `every N unit`. The product wraps around. -/
def everySpec (spec : Str) : Option Int :=
  if "every".toList.isPrefixOf spec then
    match scanInt (spec.drop 5) with
    | none => none
    | some (n, rest) =>
      let unit := ((rest.dropWhile isSpace).takeWhile (fun c => !isSpace c)).take 31
      (unitSeconds unit).map (fun k => (n * k).bmod (2 ^ 32))
  else none

def parseInterval (spec : Str) : Int :=
  match everySpec spec with
  | some n => n
  | none =>
    match scanInt spec with
    | some (n, _) => if 0 < n then n else -1
    | none => -1

def jobItem (t : Task) : Json :=
  .object
    [("id".toList, .ofInt t.id), ("name".toList, .string t.name), ("type".toList, .string t.type.name),
      ("task".toList, .string t.task), ("interval_sec".toList, .ofInt t.intervalSec),
      ("paused".toList, .bool t.paused)]

def jobsTree (sched : Scheduler) : Json :=
  .array ((sched.tasks.filter Task.active).map jobItem)

/-- `cJSON_Print` and `cJSON_Parse`. -/
structure Codec where
  print : Json → Str
  parse : Str → Option Json

def saveJobs (cj : Codec) (fs : Fs) (sched : Scheduler) : Fs :=
  if sched.jobsPath = [] then fs else fs.write sched.jobsPath (cstr (cj.print (jobsTree sched)))

/-- The task that an item of the file describes, under this id if it names none. -/
def loadTask (now nextId : Int) (item : Json) : Option Task :=
  match item.field "name".toList, item.field "task".toList,
      item.getObjectItem "interval_sec".toList with
  | some name, some task, some iv =>
    some
      { id := match item.getObjectItem "id".toList with
          | some id => id.valueInt
          | none => nextId
        name := name
        type := TaskType.ofName (item.field "type".toList)
        task := task
        intervalSec := iv.valueInt
        lastRun := now
        paused := (item.getObjectItem "paused".toList).any Json.isTrue
        active := true }
  | _, _, _ => none

/-- One turn of the loop of `load_jobs`. A full table ends it. -/
def loadItem (now : Int) (sched : Scheduler) (item : Json) : Scheduler :=
  if h : sched.tasks.length < maxTasks then
    match loadTask now sched.nextId item with
    | none => sched
    | some t =>
      { sched with
        tasks := sched.tasks ++ [t]
        nextId := if sched.nextId ≤ t.id then t.id + 1 else sched.nextId
        bounded := by rw [List.length_append]; exact h }
  else sched

def loadJobs (cj : Codec) (fs : Fs) (sched : Scheduler) (now : Int) : Scheduler :=
  if sched.jobsPath = [] then sched
  else match fs sched.jobsPath with
    | none => sched
    | some bytes =>
      match cj.parse (cstr bytes) with
      | none => sched
      | some arr => arr.children.foldl (loadItem now) sched

def jobsPathOf (workspace : Str) : Str :=
  if workspace = [] then []
  else snprintf 512 (snprintf 512 (workspace ++ "/scheduler".toList) ++ "/jobs.json".toList)

def schedulerCreate (cj : Codec) (fs : Fs) (workspace : Str) (now : Int) : Scheduler :=
  loadJobs cj fs ⟨[], 1, jobsPathOf workspace, Nat.zero_le _⟩ now

def errorReply (msg : Str) : Json := .object [("error".toList, .string msg)]

/-- The new task of a call, unless its arguments are refused. -/
def addedTask (sched : Scheduler) (now : Int) (args : Json) : Except Json Task :=
  match args.field "name".toList, args.field "task".toList, args.field "interval".toList with
  | some name, some task, some interval =>
    if parseInterval interval ≤ 0 then
      .error (errorReply "Invalid interval. Use 'every N seconds/minutes/hours/days'".toList)
    else .ok
      { id := sched.nextId
        name := name
        type := TaskType.ofName (args.field "type".toList)
        task := task
        intervalSec := parseInterval interval
        lastRun := now
        paused := false
        active := true }
  | _, _, _ => .error (errorReply "name, task, and interval are required".toList)

def addReply (t : Task) : Json :=
  .object
    [("status".toList, .string "scheduled".toList), ("task_id".toList, .ofInt t.id),
      ("name".toList, .string t.name), ("type".toList, .string t.type.name),
      ("interval_seconds".toList, .ofInt t.intervalSec)]

/-- The table with one more task. -/
def pushTask (sched : Scheduler) (t : Task) (h : sched.tasks.length < maxTasks) : Scheduler :=
  { sched with
    tasks := sched.tasks ++ [t]
    nextId := sched.nextId + 1
    bounded := by rw [List.length_append]; exact h }

def toolScheduleAdd (cj : Codec) (fs : Fs) (sched : Scheduler) (now : Int) (args : Json) :
    Json × Fs × Scheduler :=
  match addedTask sched now args with
  | .error reply => (reply, fs, sched)
  | .ok t =>
    if h : sched.tasks.length < maxTasks then
      (addReply t, saveJobs cj fs (pushTask sched t h), pushTask sched t h)
    else (errorReply "Max tasks reached".toList, fs, sched)

def listItem (t : Task) : Json :=
  .object
    [("id".toList, .ofInt t.id), ("name".toList, .string t.name), ("type".toList, .string t.type.name),
      ("task".toList, .string t.task), ("interval_seconds".toList, .ofInt t.intervalSec),
      ("paused".toList, .bool t.paused)]

def toolScheduleList (sched : Scheduler) : Json :=
  .array ((sched.tasks.filter Task.active).map listItem)

/-- What `schedule_control` can do to a task. -/
inductive Action where
  | pause
  | resume
  | delete
  deriving DecidableEq

def Action.ofName (action : Str) : Option Action :=
  if action = "pause".toList then some .pause
  else if action = "resume".toList then some .resume
  else if action = "delete".toList then some .delete
  else none

/-- The strings of a deleted task are freed. -/
def Action.apply (action : Action) (t : Task) : Task :=
  match action with
  | .pause => { t with paused := true }
  | .resume => { t with paused := false }
  | .delete => { t with active := false, name := [], task := [] }

/-- The first active task of an id. -/
def findTask (sched : Scheduler) (id : Int) : Option Nat :=
  sched.tasks.findIdx? (fun t => t.id == id && t.active)

def controlTask (sched : Scheduler) (i : Nat) (action : Action) : Scheduler :=
  { sched with
    tasks := sched.tasks.modify i action.apply
    bounded := by rw [List.length_modify]; exact sched.bounded }

/-- The task and the action that a call asks for, unless there is an error. -/
def controlTarget (sched : Scheduler) (action : Str) (args : Json) : Except Json (Nat × Action) :=
  match args.getObjectItem "task_id".toList with
  | none => .error (errorReply "task_id required for pause/resume/delete".toList)
  | some id =>
    match findTask sched id.valueInt with
    | none => .error (errorReply "Task not found".toList)
    | some i =>
      match Action.ofName action with
      | none => .error (errorReply "unknown action \u00e2\u0080\u0094 use list/pause/resume/delete".toList)
      | some action => .ok (i, action)

def controlReply (action : Str) (args : Json) : Json :=
  .object [("status".toList, .string action),
    ("task_id".toList, .ofInt (((args.getObjectItem "task_id".toList).map Json.valueInt).getD 0))]

/-- The call that changes a task, with the task and the action. -/
def controlled (sched : Scheduler) (args : Json) : Option (Nat × Action) :=
  match args.field "action".toList with
  | none => none
  | some action =>
    if action = "list".toList then none
    else (controlTarget sched action args).toOption

def toolScheduleControl (cj : Codec) (fs : Fs) (sched : Scheduler) (args : Json) :
    Json × Fs × Scheduler :=
  match args.field "action".toList with
  | none => (errorReply "action required".toList, fs, sched)
  | some action =>
    if action = "list".toList then (toolScheduleList sched, fs, sched)
    else match controlTarget sched action args with
      | .error reply => (reply, fs, sched)
      | .ok (i, act) =>
        (controlReply action args, saveJobs cj fs (controlTask sched i act), controlTask sched i act)

/-- The copies that the thread makes of a task before it lets go of the lock. -/
structure Held where
  slot : Nat
  chatId : Str
  content : Str

/-- Where the scheduler thread is. Ticking, it is about to take the lock and go on
with the task at the index; the lock is free in all three states. -/
inductive Pc where
  | sleeping
  | ticking (now : Int) (i : Nat)
  | publishing (now : Int) (held : Held)

def due (now : Int) (t : Task) : Bool :=
  t.active && !t.paused && decide (t.intervalSec ≤ now - t.lastRun)

def intText (n : Int) : Str := match Json.ofInt n with
  | .number text => text
  | _ => []

def chatIdOf (t : Task) : Str := snprintf 64 ("scheduler:".toList ++ intText t.id)

/-- The loop from some slot on, up to the first agent turn: the tasks, the commands
that were run, and the copies of that turn. -/
def fire (now : Int) (i : Nat) : List Task → List Task × List Str × Option Held
  | [] => ([], [], none)
  | t :: rest =>
    if due now t then
      match t.type with
      | .shell =>
        let (rest, commands, held) := fire now (i + 1) rest
        ({ t with lastRun := now } :: rest, t.task :: commands, held)
      | .agentTurn => ({ t with lastRun := now } :: rest, [], some ⟨i, chatIdOf t, t.task⟩)
    else
      let (rest, commands, held) := fire now (i + 1) rest
      (t :: rest, commands, held)

theorem fire_length (now : Int) (i : Nat) (ts : List Task) :
    (fire now i ts).1.length = ts.length := by
  induction ts generalizing i with
  | nil => rfl
  | cons t rest ih =>
    rw [fire]
    split
    · split
      · simp [ih]
      · rfl
    · simp [ih]

/-- The thread from taking the lock to letting it go. -/
def tick (sched : Scheduler) (now : Int) (i : Nat) : Scheduler × List Str × Pc :=
  let fired := fire now i (sched.tasks.drop i)
  ({ sched with
      tasks := sched.tasks.take i ++ fired.1
      bounded := by
        rw [List.length_append, fire_length, ← List.length_append, List.take_append_drop]
        exact sched.bounded },
    fired.2.1,
    match fired.2.2 with
    | none => .sleeping
    | some held => .publishing now held)

/-- A message of the scheduler on the bus, with the time it was put there. -/
structure Put where
  at_ : Int
  held : Held

/-- `shells` is what was handed to `sh -c`, `bus` what was put on the bus. -/
structure State where
  clock : Int
  fs : Fs
  sched : Scheduler
  pc : Pc
  shells : List Str
  bus : List Put

/-- Tool calls, the turns of the scheduler thread, the passing of time, and restarts
of the process. A wait for the bus is a `put` that comes late. -/
inductive Event where
  | pass (clock : Int)
  | shellExec (args : Json)
  | add (args : Json)
  | control (args : Json)
  | wake
  | tick
  | put
  | drop
  | restart

variable (cj : Codec) (al : Option Allowlist) (workspace : Str)

def outcomeCommands : Shell.Outcome → List Str
  | .refused _ => []
  | .ran command _ => [command]

inductive Step : State → Event → State → Prop where
  | pass (later : s.clock ≤ clock) : Step s (.pass clock) { s with clock := clock }
  | shellExec : Step s (.shellExec args)
      { s with shells := s.shells ++ outcomeCommands (Shell.shellExecute al args) }
  | add (made : toolScheduleAdd cj s.fs s.sched s.clock args = (reply, fs, sched)) :
      Step s (.add args) { s with fs := fs, sched := sched }
  | control (made : toolScheduleControl cj s.fs s.sched args = (reply, fs, sched)) :
      Step s (.control args) { s with fs := fs, sched := sched }
  | wake (at_ : s.pc = .sleeping) : Step s .wake { s with pc := .ticking s.clock 0 }
  | tick (at_ : s.pc = .ticking now i) (made : tick s.sched now i = (sched, commands, pc)) :
      Step s .tick { s with sched := sched, shells := s.shells ++ commands, pc := pc }
  | put (at_ : s.pc = .publishing now held) :
      Step s .put
        { s with pc := .ticking now (held.slot + 1), bus := s.bus ++ [⟨s.clock, held⟩] }
  | drop (at_ : s.pc = .publishing now held) :
      Step s .drop { s with pc := .ticking now (held.slot + 1) }
  | restart : Step s .restart
      { s with sched := schedulerCreate cj s.fs workspace s.clock, pc := .sleeping }

/-- The first start of the process on a workspace. -/
def startState (fs : Fs) (clock : Int) : State :=
  ⟨clock, fs, schedulerCreate cj fs workspace clock, .sleeping, [], []⟩

end Dobby.Schedule
