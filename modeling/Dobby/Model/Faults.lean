import Dobby.Base.Writes
import Dobby.Model.Scheduler

namespace Dobby.Schedule
open CString

/-- `save_jobs` as the system calls it makes. -/
def saveJobsWith (cj : Codec) (f : Faults) (sched : Scheduler) : List Write :=
  if sched.jobsPath = [] then []
  else if f.opens then overwrite sched.jobsPath (f.arrived (cstr (cj.print (jobsTree sched))))
  else []

/-- The table that a call of `schedule_add` saves. -/
def addSaves (sched : Scheduler) (now : Int) (args : Json) : Option Scheduler :=
  match addedTask sched now args with
  | .error _ => none
  | .ok t => if h : sched.tasks.length < maxTasks then some (pushTask sched t h) else none

/-- The table that a call of `schedule_control` saves. -/
def controlSaves (sched : Scheduler) (args : Json) : Option Scheduler :=
  (controlled sched args).map (fun target => controlTask sched target.1 target.2)

def scheduleAddWith (cj : Codec) (f : Faults) (sched : Scheduler) (now : Int) (args : Json) :
    List Write := ((addSaves sched now args).map (saveJobsWith cj f)).getD []

def scheduleControlWith (cj : Codec) (f : Faults) (sched : Scheduler) (args : Json) : List Write :=
  ((controlSaves sched args).map (saveJobsWith cj f)).getD []

end Dobby.Schedule
