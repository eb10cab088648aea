import Dobby.Proofs.SchedulerTable

namespace Dobby.Schedule
open CString Runs

variable {cj : Codec} {al : Option Allowlist} {workspace : Str}

/-- What a restart has to bring back of a task. -/
structure Record where
  id : Int
  name : Str
  type : TaskType
  task : Str
  intervalSec : Int
  paused : Bool

def Task.record (t : Task) : Record := ⟨t.id, t.name, t.type, t.task, t.intervalSec, t.paused⟩

def activeTasks (sched : Scheduler) : List Task := sched.tasks.filter Task.active

def FitsInt (n : Int) : Prop := Json.intMin ≤ n ∧ n ≤ Json.intMax

theorem fitsInt_bmod (n : Int) : FitsInt (n.bmod (2 ^ 32)) := by
  have hlow := Int.le_bmod (x := n) (m := 2 ^ 32) (by decide)
  have hhigh := Int.bmod_lt (x := n) (m := 2 ^ 32) (by decide)
  constructor
  · refine Int.le_trans ?_ hlow
    decide
  · refine Int.le_of_lt_add_one (Int.lt_of_lt_of_le hhigh ?_)
    decide

theorem fitsInt_scanInt (h : scanInt s = some (n, rest)) : FitsInt n := by
  rw [scanInt] at h
  split at h
  · cases h
  · cases h
    exact fitsInt_bmod _

theorem fitsInt_everySpec (h : everySpec s = some n) : FitsInt n := by
  rw [everySpec] at h
  split at h
  · split at h
    · cases h
    · obtain ⟨k, _, rfl⟩ := Option.map_eq_some_iff.mp h
      exact fitsInt_bmod _
  · cases h

theorem fitsInt_parseInterval (spec : Str) : FitsInt (parseInterval spec) := by
  rw [parseInterval]
  split
  · rename_i h
    exact fitsInt_everySpec h
  · split
    · rename_i h
      split
      · exact fitsInt_scanInt h
      · exact ⟨by decide, by decide⟩
    · exact ⟨by decide, by decide⟩

theorem ofName_name (type : TaskType) : TaskType.ofName (some type.name) = type := by
  cases type <;> rfl

theorem loadTask_jobItem {t : Task} (hid : FitsInt t.id) (hiv : FitsInt t.intervalSec)
    (now nextId : Int) :
    loadTask now nextId (jobItem t) = some { t with lastRun := now, active := true } := by
  have hload : loadTask now nextId (jobItem t) = some
      { id := (Json.ofInt t.id).valueInt
        name := t.name
        type := TaskType.ofName (some t.type.name)
        task := t.task
        intervalSec := (Json.ofInt t.intervalSec).valueInt
        lastRun := now
        paused := t.paused
        active := true } := rfl
  rw [hload, Json.valueInt_ofInt hid.1 hid.2, Json.valueInt_ofInt hiv.1 hiv.2, ofName_name]

/-- The active tasks as a restart at this time loads them. -/
def reloaded (now : Int) (t : Task) : Task := { t with lastRun := now, active := true }

theorem foldl_loadItem (now : Int) {ts : List Task}
    (hint : ∀ t ∈ ts, FitsInt t.id ∧ FitsInt t.intervalSec) (sched : Scheduler)
    (hroom : sched.tasks.length + ts.length ≤ maxTasks) :
    ((ts.map jobItem).foldl (loadItem now) sched).tasks = sched.tasks ++ ts.map (reloaded now) ∧
      ((ts.map jobItem).foldl (loadItem now) sched).jobsPath = sched.jobsPath ∧
      ((ts.map jobItem).foldl (loadItem now) sched).nextId =
        ts.foldl (fun n t => if n ≤ t.id then t.id + 1 else n) sched.nextId := by
  induction ts generalizing sched with
  | nil => exact ⟨(List.append_nil _).symm, rfl, rfl⟩
  | cons t ts ih =>
    obtain ⟨hid, hiv⟩ := hint t List.mem_cons_self
    rw [List.length_cons] at hroom
    have hlen : sched.tasks.length < maxTasks := by omega
    have hitem : loadItem now sched (jobItem t) =
        { sched with
          tasks := sched.tasks ++ [reloaded now t]
          nextId := if sched.nextId ≤ t.id then t.id + 1 else sched.nextId
          bounded := by rw [List.length_append]; exact hlen } := by
      unfold loadItem
      rw [dif_pos hlen, loadTask_jobItem hid hiv]
      rfl
    have hrest : (loadItem now sched (jobItem t)).tasks.length + ts.length ≤ maxTasks := by
      rw [hitem, List.length_append, List.length_singleton]
      omega
    obtain ⟨htasks, hpath, hnext⟩ := ih (fun u hu => hint u (List.mem_cons_of_mem t hu)) _ hrest
    rw [List.map_cons, List.foldl_cons]
    rw [hitem] at htasks hpath hnext ⊢
    refine ⟨?_, hpath, hnext⟩
    rw [htasks, List.map_cons, List.append_assoc]
    rfl

theorem foldl_nextId {ts : List Task} {n bound : Int} (hn : n ≤ bound)
    (hids : ∀ t ∈ ts, t.id < bound) :
    n ≤ ts.foldl (fun n t => if n ≤ t.id then t.id + 1 else n) n ∧
      ts.foldl (fun n t => if n ≤ t.id then t.id + 1 else n) n ≤ bound ∧
      ∀ t ∈ ts, t.id < ts.foldl (fun n t => if n ≤ t.id then t.id + 1 else n) n := by
  induction ts generalizing n with
  | nil => exact ⟨Int.le_refl n, hn, fun _ ht => absurd ht List.not_mem_nil⟩
  | cons t ts ih =>
    have ht := hids t List.mem_cons_self
    have hstep : n ≤ (if n ≤ t.id then t.id + 1 else n) ∧ t.id < (if n ≤ t.id then t.id + 1 else n) ∧
        (if n ≤ t.id then t.id + 1 else n) ≤ bound := by
      split <;> omega
    obtain ⟨hle, hbound, hall⟩ := ih hstep.2.2 (fun u hu => hids u (List.mem_cons_of_mem t hu))
    refine ⟨hstep.1.trans hle, hbound, fun u hu => ?_⟩
    rcases List.mem_cons.mp hu with rfl | hu
    · exact lt_of_lt_of_le hstep.2.1 hle
    · exact hall u hu

/-- Ids are handed out once and in order, and every number fits its field. -/
structure Scheduler.Sound (sched : Scheduler) : Prop where
  first : 1 ≤ sched.nextId
  last : sched.nextId ≤ Json.intMax
  ids : ∀ t ∈ sched.tasks, 1 ≤ t.id ∧ t.id < sched.nextId
  distinct : (sched.tasks.map Task.id).Nodup
  intervals : ∀ t ∈ sched.tasks, FitsInt t.intervalSec

theorem Scheduler.Sound.fits {sched : Scheduler} (h : sched.Sound) :
    ∀ t ∈ sched.tasks, FitsInt t.id ∧ FitsInt t.intervalSec := by
  intro t ht
  obtain ⟨hlow, hhigh⟩ := h.ids t ht
  have hlast := h.last
  have hmin : Json.intMin ≤ 1 := by decide
  exact ⟨⟨by omega, by omega⟩, h.intervals t ht⟩

theorem Scheduler.Sound.push {sched : Scheduler} (h : sched.Sound) {now : Int} {args : Json}
    {t : Task} (ht : addedTask sched now args = .ok t) (hlen : sched.tasks.length < maxTasks)
    (hnext : sched.nextId < Json.intMax) : (pushTask sched t hlen).Sound := by
  obtain ⟨hid, -, -, -, ⟨spec, hspec⟩, -, -⟩ := addedTask_spec ht
  have hfirst := h.first
  have hmem : ∀ u ∈ (pushTask sched t hlen).tasks, u ∈ sched.tasks ∨ u = t := by
    intro u hu
    exact (List.mem_append.mp hu).imp_right List.mem_singleton.mp
  refine ⟨?_, ?_, ?_, ?_, ?_⟩
  · change 1 ≤ sched.nextId + 1
    omega
  · change sched.nextId + 1 ≤ _
    omega
  · intro u hu
    change 1 ≤ u.id ∧ u.id < sched.nextId + 1
    rcases hmem u hu with hu | rfl
    · have := h.ids u hu
      omega
    · omega
  · change ((sched.tasks ++ [t]).map Task.id).Nodup
    rw [List.map_append, List.map_singleton, List.nodup_append]
    refine ⟨h.distinct, List.pairwise_singleton _ _, ?_⟩
    intro i hi j hj
    obtain ⟨u, hu, rfl⟩ := List.mem_map.mp hi
    rw [List.mem_singleton.mp hj, hid]
    exact Int.ne_of_lt (h.ids u hu).2
  · intro u hu
    rcases hmem u hu with hu | rfl
    · exact h.intervals u hu
    · rw [hspec]
      exact fitsInt_parseInterval spec

/-- Neither a control call nor a pass over the table touches ids and intervals. -/
theorem Scheduler.Sound.relabel {sched sched' : Scheduler} (h : sched.Sound)
    (hnext : sched'.nextId = sched.nextId)
    (hsame : sched'.tasks.map (fun t => (t.id, t.intervalSec)) =
      sched.tasks.map (fun t => (t.id, t.intervalSec))) : sched'.Sound := by
  have hmem : ∀ t ∈ sched'.tasks, ∃ u ∈ sched.tasks, t.id = u.id ∧
      t.intervalSec = u.intervalSec := by
    intro t ht
    have hm := List.mem_map_of_mem (f := fun t : Task => (t.id, t.intervalSec)) ht
    rw [hsame] at hm
    obtain ⟨u, hu, he⟩ := List.mem_map.mp hm
    rw [Prod.mk.injEq] at he
    exact ⟨u, hu, he.1.symm, he.2.symm⟩
  have hids : sched'.tasks.map Task.id = sched.tasks.map Task.id := by
    have := congrArg (List.map Prod.fst) hsame
    rwa [List.map_map, List.map_map] at this
  refine ⟨hnext ▸ h.first, hnext ▸ h.last, ?_, hids ▸ h.distinct, ?_⟩
  · intro t ht
    obtain ⟨u, hu, hid, -⟩ := hmem t ht
    rw [hid, hnext]
    exact h.ids u hu
  · intro t ht
    obtain ⟨u, hu, -, hiv⟩ := hmem t ht
    rw [hiv]
    exact h.intervals u hu

theorem Scheduler.Sound.control {sched : Scheduler} (h : sched.Sound) (i : Nat) (action : Action) :
    (controlTask sched i action).Sound := by
  have hnext : (controlTask sched i action).nextId = sched.nextId := rfl
  apply h.relabel hnext
  apply List.ext_getElem?
  intro k
  rw [List.getElem?_map, List.getElem?_map, controlTask, List.getElem?_modify, Option.map_eq_map,
    Option.map_map]
  congr 1
  funext t
  cases action <;> by_cases hik : i = k <;> simp [hik, Action.apply]

theorem Scheduler.Sound.tick {sched : Scheduler} (h : sched.Sound) (now : Int) (i : Nat) :
    (Schedule.tick sched now i).1.Sound := by
  have hnext : (Schedule.tick sched now i).1.nextId = sched.nextId := rfl
  have herased := congrArg (List.map (fun t : Task => (t.id, t.intervalSec)))
    (tick_erased sched now i)
  rw [List.map_map, List.map_map] at herased
  exact h.relabel hnext herased

/-- A process that has loaded nothing. -/
def emptyTable (path : Str) : Scheduler := ⟨[], 1, path, Nat.zero_le _⟩

theorem emptyTable_sound (path : Str) : (emptyTable path).Sound :=
  ⟨Int.le_refl 1, (by decide : (1 : Int) ≤ Json.intMax), fun _ h => absurd h List.not_mem_nil,
    List.nodup_nil, fun _ h => absurd h List.not_mem_nil⟩

/-- The table that a restart makes of the active tasks. -/
theorem reload_spec {sched : Scheduler} (h : sched.Sound) (now : Int) (path : Str) :
    let r := ((activeTasks sched).map jobItem).foldl (loadItem now) (emptyTable path)
    r.tasks = (activeTasks sched).map (reloaded now) ∧ r.jobsPath = path ∧ r.Sound := by
  intro r
  have hmem : ∀ t ∈ activeTasks sched, t ∈ sched.tasks := fun t ht => (List.mem_filter.mp ht).1
  have hroom : (emptyTable path).tasks.length + (activeTasks sched).length ≤ maxTasks := by
    have hle := (List.filter_sublist (p := Task.active) (l := sched.tasks)).length_le
    have hbound := sched.bounded
    simp only [emptyTable, activeTasks, List.length_nil]
    omega
  obtain ⟨htasks, hpath, hnext⟩ :=
    foldl_loadItem now (fun t ht => h.fits t (hmem t ht)) _ hroom
  obtain ⟨hle, hbound, hall⟩ := foldl_nextId h.first (fun t ht => (h.ids t (hmem t ht)).2)
  have hr : r.tasks = (activeTasks sched).map (reloaded now) := htasks
  have hrn : r.nextId = (activeTasks sched).foldl (fun n t => if n ≤ t.id then t.id + 1 else n) 1 :=
    hnext
  refine ⟨hr, hpath, ?_, ?_, ?_, ?_, ?_⟩
  · rw [hrn]
    exact hle
  · rw [hrn]
    exact hbound.trans h.last
  · intro t ht
    rw [hr] at ht
    obtain ⟨u, hu, rfl⟩ := List.mem_map.mp ht
    rw [hrn]
    exact ⟨(h.ids u (hmem u hu)).1, hall u hu⟩
  · rw [hr, List.map_map]
    exact h.distinct.sublist (List.filter_sublist.map Task.id)
  · intro t ht
    rw [hr] at ht
    obtain ⟨u, hu, rfl⟩ := List.mem_map.mp ht
    exact h.intervals u (hmem u hu)

theorem jobsTree_erased {sched sched' : Scheduler}
    (h : sched'.tasks.map Task.erased = sched.tasks.map Task.erased) :
    jobsTree sched' = jobsTree sched := by
  have hitems : ∀ ts : List Task, (ts.filter Task.active).map jobItem =
      ((ts.map Task.erased).filter Task.active).map jobItem := by
    intro ts
    rw [List.filter_map, List.map_map]
    rfl
  rw [jobsTree, jobsTree, hitems, hitems sched.tasks, h]

/-- The table is sound and the file describes its active tasks. -/
structure Kept (cj : Codec) (workspace : Str) (s : State) : Prop where
  path : s.sched.jobsPath = jobsPathOf workspace
  sound : s.sched.Sound
  file : s.fs (jobsPathOf workspace) = some (cstr (cj.print (jobsTree s.sched))) ∨
    (s.fs (jobsPathOf workspace) = none ∧ activeTasks s.sched = [])

/-- The next id fits its field where a task is added, and the file of a restart is
parsed as what was printed. -/
def Sane (cj : Codec) (s : State) : Event → Prop
  | .add _ => s.sched.nextId < Json.intMax
  | .restart => cj.parse (cstr (cj.print (jobsTree s.sched))) = some (jobsTree s.sched)
  | _ => True

theorem jobsPathOf_ne (h : workspace ≠ []) : jobsPathOf workspace ≠ [] := by
  rw [jobsPathOf, if_neg h, snprintf]
  simp

theorem saved (cj : Codec) (hws : workspace ≠ []) (sched : Scheduler)
    (hpath : sched.jobsPath = jobsPathOf workspace) (fs : Fs) :
    saveJobs cj fs sched (jobsPathOf workspace) = some (cstr (cj.print (jobsTree sched))) := by
  rw [saveJobs, hpath, if_neg (jobsPathOf_ne hws), Fs.write_self]

theorem cstr_cstr (text : Str) : cstr (cstr text) = cstr text := cstr_eq_self (not_mem_cstr text)

/-- What a restart finds. -/
theorem Kept.create {s : State} (hk : Kept cj workspace s) (hws : workspace ≠ [])
    (hcodec : cj.parse (cstr (cj.print (jobsTree s.sched))) = some (jobsTree s.sched)) (now : Int) :
    let r := schedulerCreate cj s.fs workspace now
    r.tasks = (activeTasks s.sched).map (reloaded now) ∧ r.jobsPath = jobsPathOf workspace ∧
      r.Sound := by
  have hspec := reload_spec hk.sound now (jobsPathOf workspace)
  rw [schedulerCreate, loadJobs, if_neg (jobsPathOf_ne hws)]
  rcases hk.file with hfile | ⟨hfile, hnone⟩
  · simp only [hfile, cstr_cstr, hcodec]
    exact hspec
  · rw [hnone] at hspec ⊢
    simp only [hfile]
    exact ⟨rfl, trivial, hspec.2.2⟩

theorem filter_reloaded (now : Int) (ts : List Task) :
    (ts.map (reloaded now)).filter Task.active = ts.map (reloaded now) := by
  apply List.filter_eq_self.mpr
  intro t ht
  obtain ⟨u, -, rfl⟩ := List.mem_map.mp ht
  rfl

theorem Kept.step {s t : State} (hk : Kept cj workspace s) (hws : workspace ≠ [])
    (hsane : Sane cj s e) (hs : Step cj al workspace s e t) : Kept cj workspace t := by
  obtain ⟨hpath, hsound, hfile⟩ := hk
  cases hs with
  | pass | shellExec | wake _ | put _ | drop _ => exact ⟨hpath, hsound, hfile⟩
  | @add args reply fs sched _ made =>
    rcases add_cases made with ⟨rfl, rfl⟩ | ⟨t, hlen, hadded, rfl, rfl⟩
    · exact ⟨hpath, hsound, hfile⟩
    · have hfile := saved cj hws (pushTask s.sched t hlen) hpath s.fs
      exact ⟨hpath, hsound.push hadded hlen hsane, Or.inl hfile⟩
  | @control args reply fs sched _ made =>
    rcases control_cases made with ⟨_, rfl, rfl⟩ | ⟨i, action, _, rfl, rfl⟩
    · exact ⟨hpath, hsound, hfile⟩
    · have hfile := saved cj hws (controlTask s.sched i action) hpath s.fs
      exact ⟨hpath, hsound.control i action, Or.inl hfile⟩
  | @tick now i sched commands pc _ _ made =>
    have herased := tick_erased s.sched now i
    have hsound' := hsound.tick now i
    have hpath' : (tick s.sched now i).1.jobsPath = jobsPathOf workspace := hpath
    rw [made] at herased hsound' hpath'
    refine ⟨hpath', hsound', ?_⟩
    rw [jobsTree_erased herased]
    refine hfile.imp_right (fun h => ⟨h.1, ?_⟩)
    have hactive : (activeTasks sched).map Task.erased = (activeTasks s.sched).map Task.erased := by
      have := congrArg (List.filter Task.active) herased
      rwa [List.filter_map, List.filter_map] at this
    rw [h.2] at hactive
    exact List.map_eq_nil_iff.mp hactive
  | restart =>
    obtain ⟨htasks, hpath', hsound'⟩ := Kept.create ⟨hpath, hsound, hfile⟩ hws hsane s.clock
    refine ⟨hpath', hsound', ?_⟩
    have hactive : activeTasks (schedulerCreate cj s.fs workspace s.clock) =
        (activeTasks s.sched).map (reloaded s.clock) := by
      rw [activeTasks, htasks, filter_reloaded]
    have htree : jobsTree (schedulerCreate cj s.fs workspace s.clock) = jobsTree s.sched := by
      change Json.array ((activeTasks _).map jobItem) = Json.array ((activeTasks _).map jobItem)
      rw [hactive, List.map_map]
      rfl
    rw [htree]
    refine hfile.imp_right (fun h => ⟨h.1, ?_⟩)
    rw [hactive, h.2]
    rfl

/-- From a fresh workspace, through any calls, passes of the thread and restarts: the
ids of the active tasks are distinct and below the next one, and a restart brings back
exactly the active tasks. -/
theorem jobs_survive_restarts {fs : Fs} {clock : Int} (hws : workspace ≠ [])
    (hfresh : fs (jobsPathOf workspace) = none)
    (hrun : Run (Guarded (Step cj al workspace) (Sane cj)) (startState cj workspace fs clock) log s) :
    ((activeTasks s.sched).map Task.id).Nodup ∧
      (∀ t ∈ activeTasks s.sched, t.id < s.sched.nextId) ∧
      ∀ t, Sane cj s .restart → Step cj al workspace s .restart t →
        (activeTasks t.sched).map Task.record = (activeTasks s.sched).map Task.record := by
  have hstart : Kept cj workspace (startState cj workspace fs clock) := by
    have hcreate : schedulerCreate cj fs workspace clock = emptyTable (jobsPathOf workspace) := by
      rw [schedulerCreate, loadJobs, if_neg (jobsPathOf_ne hws)]
      simp only [hfresh]
      rfl
    refine ⟨?_, ?_, Or.inr ⟨hfresh, ?_⟩⟩
    · exact congrArg Scheduler.jobsPath hcreate
    · change (schedulerCreate cj fs workspace clock).Sound
      rw [hcreate]
      exact emptyTable_sound (jobsPathOf workspace)
    · exact congrArg activeTasks hcreate
  have hk : Kept cj workspace s := hrun.invariant hstart (fun s e t hk hs => hk.step hws hs.1 hs.2)
  refine ⟨?_, ?_, ?_⟩
  · exact hk.sound.distinct.sublist (List.filter_sublist.map Task.id)
  · intro t ht
    exact (hk.sound.ids t (List.mem_filter.mp ht).1).2
  · intro t hsane hs
    cases hs
    have htasks := (hk.create hws hsane s.clock).1
    have hactive : activeTasks (schedulerCreate cj s.fs workspace s.clock) =
        (activeTasks s.sched).map (reloaded s.clock) := by
      rw [activeTasks, htasks, filter_reloaded]
    change (activeTasks (schedulerCreate cj s.fs workspace s.clock)).map Task.record = _
    rw [hactive, List.map_map]
    rfl

/-- The file with one task, as `cJSON_Print` lays it out. -/
def sampleJobs : Str :=
  ("[\x7b\n\t\t\"id\":\t1,\n\t\t\"name\":\t\"n\",\n\t\t\"type\":\t\"agent_turn\"," ++
    "\n\t\t\"task\":\t\"hi\",\n\t\t\"interval_sec\":\t60,\n\t\t\"paused\":\tfalse\n\t\x7d]").toList

def sampleTask : Task := ⟨1, "n".toList, .agentTurn, "hi".toList, 60, 0, false, true⟩

/-- It prints and parses this one file. -/
def sampleJobsCodec : Codec := ⟨fun _ => sampleJobs, fun _ => some (.array [jobItem sampleTask])⟩

def sampleAdd : Json :=
  .object [("name".toList, .string "n".toList), ("task".toList, .string "hi".toList),
    ("interval".toList, .string "every 1 minute".toList)]

theorem jobs_survive_restarts_one :
    ∃ s : State, activeTasks s.sched = [sampleTask] ∧
      ∀ t, Step sampleJobsCodec none "w".toList s .restart t →
        (activeTasks t.sched).map Task.record = [sampleTask.record] := by
  have hadd : Step sampleJobsCodec none "w".toList
    (startState sampleJobsCodec "w".toList (fun _ => none) 0) (.add sampleAdd) _ := .add rfl
  have hsane : Sane sampleJobsCodec
      (startState sampleJobsCodec "w".toList (fun _ => none) 0) (.add sampleAdd) := by
    change (1 : Int) < Json.intMax
    decide
  have hws : "w".toList ≠ [] := by decide
  have hkept := jobs_survive_restarts hws rfl (.single ⟨hsane, hadd⟩)
  exact ⟨_, rfl, fun t => hkept.2.2 t rfl⟩

end Dobby.Schedule
