import Dobby.Proofs.CommandCheck
import Dobby.Proofs.SchedulerTable

namespace Dobby.Schedule
open CString Runs Allowlist

variable {cj : Codec} {al : Allowlist} {workspace : Str}

/-- A description of a task that is no shell task, or one whose command passes. -/
def Admitted (al : Allowlist) (item : Json) : Prop :=
  item.field "type".toList = some "shell".toList →
    ∀ command, item.field "task".toList = some command →
      allowlistCheck al .command command = true

/-- A jobs file whose shell tasks pass. -/
def FileAdmitted (cj : Codec) (al : Allowlist) (workspace : Str) (fs : Fs) : Prop :=
  ∀ bytes arr, fs (jobsPathOf workspace) = some bytes → cj.parse (cstr bytes) = some arr →
    ∀ item ∈ arr.children, Admitted al item

/-- What may be scheduled by a call and found in the jobs file by a restart. -/
def Screened (cj : Codec) (al : Allowlist) (workspace : Str) (s : State) : Event → Prop
  | .add args => Admitted al args
  | .restart => FileAdmitted cj al workspace s.fs
  | _ => True

/-- A task that is no shell task, or one whose command passes. -/
def Task.Passes (al : Allowlist) (t : Task) : Prop :=
  t.active = true → t.type = .shell → allowlistCheck al .command t.task = true

theorem ofName_shell {typeStr : Option Str} (h : TaskType.ofName typeStr = .shell) :
    typeStr = some "shell".toList := by
  rw [TaskType.ofName] at h
  split at h
  · assumption
  · cases h

theorem loadTask_passes {item : Json} (h : Admitted al item)
    (ht : loadTask now nextId item = some t) : t.Passes al := by
  intro _ htype
  rw [loadTask] at ht
  split at ht
  · rename_i _ htask _
    cases ht
    exact h (ofName_shell htype) _ htask
  · cases ht

theorem loadItem_passes {sched : Scheduler} {item : Json} (hs : ∀ t ∈ sched.tasks, t.Passes al)
    (h : Admitted al item) : ∀ t ∈ (loadItem now sched item).tasks, t.Passes al := by
  intro t ht
  rw [loadItem] at ht
  split at ht
  · split at ht
    · exact hs t ht
    · rename_i hload
      rcases List.mem_append.mp ht with ht | ht
      · exact hs t ht
      · rw [List.mem_singleton.mp ht]
        exact loadTask_passes h hload
  · exact hs t ht

theorem foldl_loadItem_passes {items : List Json} (h : ∀ item ∈ items, Admitted al item)
    {sched : Scheduler} (hs : ∀ t ∈ sched.tasks, t.Passes al) :
    ∀ t ∈ (items.foldl (loadItem now) sched).tasks, t.Passes al := by
  induction items generalizing sched with
  | nil => exact hs
  | cons item items ih =>
    exact ih (fun i hi => h i (List.mem_cons_of_mem item hi))
      (loadItem_passes hs (h item List.mem_cons_self))

theorem create_passes (h : FileAdmitted cj al workspace fs) (now : Int) :
    ∀ t ∈ (schedulerCreate cj fs workspace now).tasks, t.Passes al := by
  have hempty : ∀ t ∈ ([] : List Task), t.Passes al := fun t ht => absurd ht List.not_mem_nil
  rw [schedulerCreate, loadJobs]
  split
  · exact hempty
  split
  · exact hempty
  split
  · exact hempty
  rename_i bytes hbytes _ arr harr
  exact foldl_loadItem_passes (h bytes arr hbytes harr) hempty

theorem Task.Passes.apply {t : Task} (h : t.Passes al) (action : Action) :
    (action.apply t).Passes al := by
  cases action with
  | pause => exact h
  | resume => exact h
  | delete => exact fun hactive => absurd hactive Bool.false_ne_true

theorem Task.Passes.of_erased {t u : Task} (h : u.Passes al) (he : t.erased = u.erased) :
    t.Passes al := by
  rw [erased_eq he]
  exact h

/-- The table's shell tasks and the strings handed over so far pass. -/
structure Mediated (al : Allowlist) (s : State) : Prop where
  tasks : ∀ t ∈ s.sched.tasks, t.Passes al
  shells : ∀ command ∈ s.shells, allowlistCheck al .command command = true

theorem Mediated.step {s t : State} (hm : Mediated al s) (hgood : Screened cj al workspace s e)
    (hs : Step cj (some al) workspace s e t) : Mediated al t := by
  obtain ⟨htasks, hshells⟩ := hm
  cases hs with
  | pass | wake _ | put _ | drop _ => exact ⟨htasks, hshells⟩
  | @shellExec _ args =>
    refine ⟨htasks, fun command hc => ?_⟩
    rcases List.mem_append.mp hc with hc | hc
    · exact hshells command hc
    · cases hout : Shell.shellExecute (some al) args with
      | refused reply =>
        rw [hout] at hc
        exact absurd hc List.not_mem_nil
      | ran ranCommand timeout =>
        rw [hout, outcomeCommands, List.mem_singleton] at hc
        rw [hc]
        exact Shell.ran_admitted hout
  | @add args reply fs sched _ made =>
    rcases add_cases made with ⟨rfl, rfl⟩ | ⟨t, hlen, hadded, rfl, rfl⟩
    · exact ⟨htasks, hshells⟩
    · refine ⟨fun u hu => ?_, hshells⟩
      rcases List.mem_append.mp hu with hu | hu
      · exact htasks u hu
      · obtain ⟨_, htype, htask, _⟩ := addedTask_spec hadded
        rw [List.mem_singleton.mp hu]
        intro _ hshell
        exact hgood (ofName_shell (htype.symm.trans hshell)) _ htask
  | @control args reply fs sched _ made =>
    rcases control_cases made with ⟨_, rfl, rfl⟩ | ⟨i, action, _, rfl, rfl⟩
    · exact ⟨htasks, hshells⟩
    · refine ⟨fun u hu => ?_, hshells⟩
      rcases mem_controlTask hu with hu | ⟨v, hv, rfl⟩
      · exact htasks u hu
      · exact (htasks v hv).apply action
  | @tick now i sched commands pc _ _ made =>
    have herased := tick_erased s.sched now i
    have hcommands : ∀ command ∈ (tick s.sched now i).2.1, _ := fun _ => tick_commands
    rw [made] at herased hcommands
    refine ⟨fun t ht => ?_, fun command hc => ?_⟩
    · obtain ⟨u, hu, he⟩ := mem_of_erased herased ht
      exact (htasks u hu).of_erased he
    · rcases List.mem_append.mp hc with hc | hc
      · exact hshells command hc
      · obtain ⟨t, ht, hactive, htype, rfl⟩ := hcommands command hc
        exact htasks t ht hactive htype
  | restart => exact ⟨create_passes hgood s.clock, hshells⟩

/-- Where no shell task is scheduled or loaded that the allowlist refuses, every
string that any tool hands to `sh -c` passed the check. -/
theorem commands_mediated {fs : Fs} {clock : Int} (hfile : FileAdmitted cj al workspace fs)
    (hrun : Run (Guarded (Step cj (some al) workspace) (Screened cj al workspace))
      (startState cj workspace fs clock) log s) :
    ∀ command ∈ s.shells, allowlistCheck al .command command = true := by
  have hm : Mediated al s := by
    apply hrun.invariant
    · exact ⟨create_passes hfile clock, fun _ h => absurd h List.not_mem_nil⟩
    · exact fun s e t hm hs => hm.step hs.1 hs.2
  exact hm.shells

def sampleCodec : Codec := ⟨fun _ => "[]".toList, fun _ => some (.array [])⟩

def sampleFs : Fs := fun _ => none

def lsOnly : Allowlist := Shell.onlyRule "ls".toList

def shellCall (command : Str) : Json := .object [("command".toList, .string command)]

def addCall (command : Str) : Json :=
  .object [("name".toList, .string "n".toList), ("task".toList, .string command),
    ("interval".toList, .string "every 1 seconds".toList), ("type".toList, .string "shell".toList)]

/-- A command of the shell tool, and a task that the scheduler runs. -/
theorem commands_mediated_ls :
    ∃ s : State, s.shells = ["ls -l".toList, "ls /tmp".toList] ∧
      ∀ command ∈ s.shells, allowlistCheck lsOnly .command command = true := by
  have hfile : FileAdmitted sampleCodec lsOnly "w".toList sampleFs := fun _ _ h => by cases h
  have hadmitted : Admitted lsOnly (addCall "ls /tmp".toList) := by
    intro _ task htask
    obtain rfl : "ls /tmp".toList = task := Option.some.inj htask
    decide
  have hadd : Guarded (Step sampleCodec (some lsOnly) "w".toList)
      (Screened sampleCodec lsOnly "w".toList) (startState sampleCodec "w".toList sampleFs 0)
      (.add (addCall "ls /tmp".toList)) _ := ⟨hadmitted, .add rfl⟩
  have hlater : (0 : Int) ≤ 1 := by decide
  have hrun : Run (Guarded (Step sampleCodec (some lsOnly) "w".toList)
      (Screened sampleCodec lsOnly "w".toList)) (startState sampleCodec "w".toList sampleFs 0)
      [.add (addCall "ls /tmp".toList), .shellExec (shellCall "ls -l".toList), .pass 1, .wake, .tick] _ :=
    .cons hadd (.cons ⟨trivial, .shellExec⟩ (.cons ⟨trivial, .pass hlater⟩
      (.cons ⟨trivial, .wake rfl⟩ (.single ⟨trivial, .tick rfl rfl⟩))))
  exact ⟨_, rfl, commands_mediated hfile hrun⟩

/-- With the one rule `ls` the scheduler hands over a string that the check refuses. -/
theorem scheduled_command_unchecked :
    ∃ log s, Run (Step sampleCodec (some lsOnly) "w".toList)
        (startState sampleCodec "w".toList sampleFs 0) log s ∧
      (lsOnly .command).enabled = true ∧
      "rm x".toList ∈ s.shells ∧ allowlistCheck lsOnly .command "rm x".toList = false := by
  have hadd : Step sampleCodec (some lsOnly) "w".toList
    (startState sampleCodec "w".toList sampleFs 0) (.add (addCall "rm x".toList)) _ := .add rfl
  have hlater : (0 : Int) ≤ 1 := by decide
  exact ⟨_, _, .cons hadd (.cons (.pass hlater) (.cons (.wake rfl) (.single (.tick rfl rfl)))), rfl,
    by decide +kernel, by decide⟩

end Dobby.Schedule
