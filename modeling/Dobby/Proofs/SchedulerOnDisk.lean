import Dobby.Proofs.CjsonRoundTrip
import Dobby.Proofs.Persistence

namespace Dobby.Schedule
open CString Runs JsonText Cjson

variable {doubles : Doubles} {al : Option Allowlist} {workspace : Str}

/-- `cJSON_Print` and `cJSON_Parse` as they are. -/
def cjsonCodec (doubles : Doubles) : Codec := ⟨cJSONPrint doubles, cJSONParse⟩

/-- Numbers fit their fields, strings are C strings, and ids are below the next one. -/
structure Scheduler.Tidy (sched : Scheduler) : Prop where
  first : 1 ≤ sched.nextId
  ids : ∀ t ∈ sched.tasks, Json.intMin ≤ t.id ∧ t.id < sched.nextId
  intervals : ∀ t ∈ sched.tasks, FitsInt t.intervalSec
  strings : ∀ t ∈ sched.tasks, '\x00' ∉ t.name ∧ '\x00' ∉ t.task

theorem Scheduler.Tidy.fits {sched : Scheduler} (h : sched.Tidy) (hlast : sched.nextId ≤ Json.intMax) :
    ∀ t ∈ sched.tasks, FitsInt t.id ∧ FitsInt t.intervalSec := by
  intro t ht
  obtain ⟨hlow, hhigh⟩ := h.ids t ht
  exact ⟨⟨hlow, by omega⟩, h.intervals t ht⟩

theorem typeName_clean (type : TaskType) : '\x00' ∉ type.name := by cases type <;> decide

theorem jobItem_plain {t : Task} (hid : FitsInt t.id) (hiv : FitsInt t.intervalSec)
    (hname : '\x00' ∉ t.name) (htask : '\x00' ∉ t.task) : Plain (jobItem t) := by
  refine .object ?_ ?_
  · simp only [List.forall_mem_cons]
    exact ⟨by decide, by decide, by decide, by decide, by decide, by decide, fun _ h => by cases h⟩
  · simp only [List.forall_mem_cons]
    exact ⟨.int hid.1 hid.2, .string hname, .string (typeName_clean t.type), .string htask,
      .int hiv.1 hiv.2, .bool, fun _ h => by cases h⟩

theorem jobsTree_plain {sched : Scheduler} (h : sched.Tidy) (hlast : sched.nextId ≤ Json.intMax) :
    Plain (jobsTree sched) := by
  refine .array fun j hj => ?_
  obtain ⟨t, ht, rfl⟩ := List.mem_map.mp hj
  have hmem := (List.mem_filter.mp ht).1
  obtain ⟨hid, hiv⟩ := h.fits hlast t hmem
  obtain ⟨hname, htask⟩ := h.strings t hmem
  exact jobItem_plain hid hiv hname htask

theorem jobsTree_nested (sched : Scheduler) : Nested 2 (jobsTree sched) := by
  intro j hj
  obtain ⟨t, -, rfl⟩ := List.mem_map.mp hj
  intro m hm
  simp only [List.mem_cons, List.not_mem_nil, or_false] at hm
  rcases hm with rfl | rfl | rfl | rfl | rfl | rfl <;> trivial

theorem cJSONParse_nil : cJSONParse [] = none := by
  cases h : cJSONParse [] with
  | none => rfl
  | some j =>
    obtain ⟨bom, w, t, r, -, htext, -, hden⟩ := cJSONParse_denotes h
    obtain ⟨c, cs, rfl, -⟩ := denotes_front hden
    have hlength := congrArg List.length htext
    simp [cstr] at hlength

theorem print_clean (doubles : Doubles) (j : Json) :
    cstr (cJSONPrint doubles j) = cJSONPrint doubles j :=
  cstr_eq_self (printValue_clean doubles true 0 j)

/-- The text of a table is read back, and no start of it is a document. -/
theorem jobsTree_exact (doubles : Doubles) {sched : Scheduler} (h : sched.Tidy)
    (hlast : sched.nextId ≤ Json.intMax) : (cjsonCodec doubles).Exact (jobsTree sched) := by
  have hnested : Nested nestingLimit (jobsTree sched) :=
    Nested.mono (by decide) (jobsTree_nested sched)
  have hclean : cstr ((cjsonCodec doubles).print (jobsTree sched)) = cJSONPrint doubles (jobsTree sched) :=
    print_clean doubles (jobsTree sched)
  refine ⟨?_, cJSONParse_nil, ?_⟩
  · have hparse := print_parse doubles true hnested
    rw [normal_plain doubles (jobsTree_plain h hlast)] at hparse
    rw [hclean]
    exact hparse
  · rw [hclean]
    intro text hpre hcut
    exact print_cut doubles true id hpre hcut

theorem fitsInt_valueInt (j : Json) : FitsInt j.valueInt := by
  unfold Json.valueInt
  split
  · exact ⟨le_max_left _ _, max_le (by decide) (min_le_left _ _)⟩
  · exact ⟨by decide, by decide⟩
  · exact ⟨by decide, by decide⟩

theorem field_within {root j : Json} {name s : Str} (hj : root.Within j)
    (h : j.field name = some s) : root.Within (.string s) := by
  obtain ⟨item, hitem, hvalue⟩ := Option.bind_eq_some_iff.mp h
  cases item with
  | string t =>
    cases hvalue
    exact hj.getObjectItem hitem
  | _ => cases hvalue

/-- Every string in the tree is a C string. -/
def CleanStrings (root : Json) : Prop := ∀ s, root.Within (.string s) → '\x00' ∉ s

theorem loadTask_spec {root item : Json} (hroot : CleanStrings root) (hitem : root.Within item)
    {now nextId : Int} (hnext : 1 ≤ nextId) {t : Task} (h : loadTask now nextId item = some t) :
    Json.intMin ≤ t.id ∧ FitsInt t.intervalSec ∧ ('\x00' ∉ t.name ∧ '\x00' ∉ t.task) ∧
      t.active = true := by
  unfold loadTask at h
  split at h
  · rename_i name task iv hname htask hiv
    cases h
    refine ⟨?_, fitsInt_valueInt iv, ⟨hroot _ (field_within hitem hname),
      hroot _ (field_within hitem htask)⟩, rfl⟩
    cases item.getObjectItem "id".toList with
    | some id => exact (fitsInt_valueInt id).1
    | none => exact Int.le_trans (by decide) hnext
  · cases h

/-- A table that a start has made of a file. -/
structure Loaded (path : Str) (sched : Scheduler) : Prop extends sched.Tidy where
  jobsPath : sched.jobsPath = path
  active : ∀ t ∈ sched.tasks, t.active = true

theorem Loaded.loadItem {path : Str} {root item : Json} (hroot : CleanStrings root)
    (hitem : root.Within item) {sched : Scheduler} (h : Loaded path sched) (now : Int) :
    Loaded path (loadItem now sched item) := by
  unfold Schedule.loadItem
  split
  · split
    · exact h
    · rename_i t ht
      obtain ⟨hid, hiv, hstrings, hactive⟩ := loadTask_spec hroot hitem h.first ht
      have hnext : sched.nextId ≤ (if sched.nextId ≤ t.id then t.id + 1 else sched.nextId) ∧
          t.id < (if sched.nextId ≤ t.id then t.id + 1 else sched.nextId) := by
        split <;> omega
      refine ⟨⟨Int.le_trans h.first hnext.1, ?_, ?_, ?_⟩, h.jobsPath, ?_⟩
      · refine List.forall_mem_append.mpr ⟨fun u hu => ?_, List.forall_mem_singleton.mpr ⟨hid, hnext.2⟩⟩
        exact ⟨(h.ids u hu).1, Int.lt_of_lt_of_le (h.ids u hu).2 hnext.1⟩
      · exact List.forall_mem_append.mpr ⟨h.intervals, List.forall_mem_singleton.mpr hiv⟩
      · exact List.forall_mem_append.mpr ⟨h.strings, List.forall_mem_singleton.mpr hstrings⟩
      · exact List.forall_mem_append.mpr ⟨h.active, List.forall_mem_singleton.mpr hactive⟩
  · exact h

theorem Loaded.foldl {path : Str} {root : Json} (hroot : CleanStrings root) (now : Int)
    {items : List Json} (hitems : ∀ item ∈ items, root.Within item) {sched : Scheduler}
    (h : Loaded path sched) : Loaded path (items.foldl (Schedule.loadItem now) sched) := by
  induction items generalizing sched with
  | nil => exact h
  | cons item items ih =>
    obtain ⟨hitem, hrest⟩ := List.forall_mem_cons.mp hitems
    exact ih hrest (h.loadItem hroot hitem now)

theorem startJobs_loaded (doubles : Doubles) (fs : Fs) (path : Str) (now : Int) :
    Loaded path (startJobs (cjsonCodec doubles) fs path now) := by
  have hempty : Loaded path (emptyTable path) :=
    ⟨⟨Int.le_refl 1, fun _ h => absurd h List.not_mem_nil, fun _ h => absurd h List.not_mem_nil,
      fun _ h => absurd h List.not_mem_nil⟩, rfl, fun _ h => absurd h List.not_mem_nil⟩
  unfold startJobs loadJobs
  split
  · exact hempty
  split
  · exact hempty
  split
  · exact hempty
  · rename_i arr harr
    exact hempty.foldl (fun _ hs => parsed_strings_clean harr hs) now
      (fun _ hitem => Json.Within.root.child hitem)

theorem Loaded.activeTasks {path : Str} {sched : Scheduler} (h : Loaded path sched) :
    activeTasks sched = sched.tasks :=
  List.filter_eq_self.mpr h.active

/-- Two tables that differ in the times of their last runs. -/
structure SameJobs (a b : Scheduler) : Prop where
  tasks : a.tasks.map Task.erased = b.tasks.map Task.erased
  nextId : a.nextId = b.nextId
  jobsPath : a.jobsPath = b.jobsPath

theorem loadTask_erased (now now' nextId : Int) (item : Json) :
    (loadTask now nextId item).map Task.erased = (loadTask now' nextId item).map Task.erased := by
  unfold loadTask
  split <;> rfl

theorem SameJobs.loadItem {a b : Scheduler} (h : SameJobs a b) (now now' : Int) (item : Json) :
    SameJobs (loadItem now a item) (loadItem now' b item) := by
  have hlength : a.tasks.length = b.tasks.length := by
    have := congrArg List.length h.tasks
    rwa [List.length_map, List.length_map] at this
  have hload := loadTask_erased now now' a.nextId item
  unfold Schedule.loadItem
  by_cases hlen : a.tasks.length < maxTasks
  · rw [dif_pos hlen, dif_pos (hlength ▸ hlen), ← h.nextId]
    cases ht : loadTask now a.nextId item with
    | none =>
      rw [ht] at hload
      rw [Option.map_eq_none_iff.mp hload.symm]
      exact h
    | some t =>
      rw [ht] at hload
      obtain ⟨u, hu, herased⟩ := Option.map_eq_some_iff.mp hload.symm
      rw [hu]
      have hid : u.id = t.id := by simpa [Task.erased] using congrArg Task.id herased
      refine ⟨?_, ?_, h.jobsPath⟩
      · simp [h.tasks, herased]
      · simp [hid]
  · rw [dif_neg hlen, dif_neg (hlength ▸ hlen)]
    exact h

theorem SameJobs.foldl {a b : Scheduler} (h : SameJobs a b) (now now' : Int) (items : List Json) :
    SameJobs (items.foldl (Schedule.loadItem now) a) (items.foldl (Schedule.loadItem now') b) := by
  induction items generalizing a b with
  | nil => exact h
  | cons item items ih => exact ih (h.loadItem now now' item)

theorem startJobs_same (cj : Codec) (fs : Fs) (path : Str) (now now' : Int) :
    SameJobs (startJobs cj fs path now) (startJobs cj fs path now') := by
  have hempty : SameJobs (emptyTable path) (emptyTable path) := ⟨rfl, rfl, rfl⟩
  unfold startJobs loadJobs
  split
  · exact hempty
  split
  · exact hempty
  split
  · exact hempty
  · exact hempty.foldl now now' _

theorem SameJobs.records {a b : Scheduler} (h : SameJobs a b) :
    a.tasks.map Task.record = b.tasks.map Task.record := by
  have hrecord := congrArg (List.map Task.record) h.tasks
  rwa [List.map_map, List.map_map] at hrecord

theorem addedTask_name {sched : Scheduler} {now : Int} {args : Json} {t : Task}
    (h : addedTask sched now args = .ok t) : args.field "name".toList = some t.name := by
  unfold addedTask at h
  split at h
  · rename_i hname _ _
    split at h
    · cases h
    · cases h
      exact hname
  · cases h

theorem Scheduler.Tidy.push {sched : Scheduler} (h : sched.Tidy) {now : Int} {args : Json} {t : Task}
    (hargs : CleanStrings args) (ht : addedTask sched now args = .ok t)
    (hlen : sched.tasks.length < maxTasks) : (pushTask sched t hlen).Tidy := by
  obtain ⟨hid, -, htask, -, ⟨spec, hspec⟩, -, -⟩ := addedTask_spec ht
  have hfirst := h.first
  have hmin : Json.intMin ≤ 1 := by decide
  refine ⟨?_, ?_, ?_, ?_⟩
  · change 1 ≤ sched.nextId + 1
    omega
  · change ∀ u ∈ sched.tasks ++ [t], Json.intMin ≤ u.id ∧ u.id < sched.nextId + 1
    refine List.forall_mem_append.mpr ⟨fun u hu => ?_, List.forall_mem_singleton.mpr ?_⟩
    · have hu := h.ids u hu
      omega
    · omega
  · refine List.forall_mem_append.mpr ⟨h.intervals, List.forall_mem_singleton.mpr ?_⟩
    rw [hspec]
    exact fitsInt_parseInterval spec
  · exact List.forall_mem_append.mpr ⟨h.strings, List.forall_mem_singleton.mpr
      ⟨hargs _ (field_within .root (addedTask_name ht)), hargs _ (field_within .root htask)⟩⟩

theorem Scheduler.Tidy.control {sched : Scheduler} (h : sched.Tidy) (i : Nat) (action : Action) :
    (controlTask sched i action).Tidy := by
  have hmem : ∀ t ∈ (controlTask sched i action).tasks, ∃ u ∈ sched.tasks,
      t.id = u.id ∧ t.intervalSec = u.intervalSec ∧ (t.name = u.name ∨ t.name = []) ∧
        (t.task = u.task ∨ t.task = []) := by
    intro t ht
    obtain ⟨k, hk⟩ := List.mem_iff_getElem?.mp ht
    rw [controlTask, List.getElem?_modify] at hk
    obtain ⟨u, hu, rfl⟩ := Option.map_eq_some_iff.mp hk
    refine ⟨u, List.mem_of_getElem? hu, ?_⟩
    split
    · cases action <;> simp [Action.apply]
    · simp
  refine ⟨h.first, ?_, ?_, ?_⟩
  · intro t ht
    obtain ⟨u, hu, hid, -⟩ := hmem t ht
    rw [hid]
    exact h.ids u hu
  · intro t ht
    obtain ⟨u, hu, -, hiv, -⟩ := hmem t ht
    rw [hiv]
    exact h.intervals u hu
  · intro t ht
    obtain ⟨u, hu, -, -, hname, htask⟩ := hmem t ht
    obtain ⟨hcleanName, hcleanTask⟩ := h.strings u hu
    refine ⟨?_, ?_⟩
    · rcases hname with he | he <;> simp [he, hcleanName]
    · rcases htask with he | he <;> simp [he, hcleanTask]

theorem Scheduler.Tidy.erased {a b : Scheduler} (h : a.Tidy) (hnext : b.nextId = a.nextId)
    (hsame : b.tasks.map Task.erased = a.tasks.map Task.erased) : b.Tidy := by
  have hmem : ∀ t ∈ b.tasks, ∃ u ∈ a.tasks, t = { u with lastRun := t.lastRun } := by
    intro t ht
    obtain ⟨u, hu, he⟩ := mem_of_erased hsame ht
    exact ⟨u, hu, erased_eq he⟩
  refine ⟨hnext ▸ h.first, ?_, ?_, ?_⟩
  · intro t ht
    obtain ⟨u, hu, he⟩ := hmem t ht
    rw [he, hnext]
    exact h.ids u hu
  · intro t ht
    obtain ⟨u, hu, he⟩ := hmem t ht
    rw [he]
    exact h.intervals u hu
  · intro t ht
    obtain ⟨u, hu, he⟩ := hmem t ht
    rw [he]
    exact h.strings u hu

/-- A start finds the active tasks of the table whose text is in the file. -/
theorem startJobs_text (doubles : Doubles) {sched : Scheduler} (h : sched.Tidy)
    (hlast : sched.nextId ≤ Json.intMax) {fs : Fs} {path text : Str} (hpath : path ≠ [])
    (hfile : fs path = some text) (htext : cstr text = cJSONPrint doubles (jobsTree sched)) (now : Int) :
    (startJobs (cjsonCodec doubles) fs path now).tasks = (activeTasks sched).map (reloaded now) ∧
      (startJobs (cjsonCodec doubles) fs path now).nextId ≤ Json.intMax := by
  have hexact := (jobsTree_exact doubles h hlast).parsed
  have hprint : cstr ((cjsonCodec doubles).print (jobsTree sched)) = cstr text :=
    (congrArg cstr htext.symm).trans (cstr_cstr text)
  rw [hprint] at hexact
  have hload : startJobs (cjsonCodec doubles) fs path now =
      ((activeTasks sched).map jobItem).foldl (loadItem now) (emptyTable path) := by
    have hempty : (emptyTable path).jobsPath = path := rfl
    rw [startJobs, loadJobs, hempty, if_neg hpath]
    simp only [hfile, hexact]
    rfl
  have hmem : ∀ t ∈ activeTasks sched, t ∈ sched.tasks := fun t ht => (List.mem_filter.mp ht).1
  have hroom : (emptyTable path).tasks.length + (activeTasks sched).length ≤ maxTasks := by
    have hle := (List.filter_sublist (p := Task.active) (l := sched.tasks)).length_le
    have hbound := sched.bounded
    simp only [emptyTable, activeTasks, List.length_nil]
    omega
  obtain ⟨htasks, -, hnext⟩ := foldl_loadItem now (fun t ht => h.fits hlast t (hmem t ht)) _ hroom
  obtain ⟨-, hbound, -⟩ := foldl_nextId (n := 1) h.first fun t ht => (h.ids t (hmem t ht)).2
  rw [hload]
  refine ⟨htasks, ?_⟩
  rw [hnext]
  exact Int.le_trans hbound hlast

/-- A start on this disk would find the active tasks. -/
structure Stored (doubles : Doubles) (workspace : Str) (s : State) : Prop where
  path : s.sched.jobsPath = jobsPathOf workspace
  tidy : s.sched.Tidy
  last : s.sched.nextId ≤ Json.intMax
  records : (startJobs (cjsonCodec doubles) s.fs (jobsPathOf workspace) 0).tasks.map Task.record =
    (activeTasks s.sched).map Task.record
  bound : (startJobs (cjsonCodec doubles) s.fs (jobsPathOf workspace) 0).nextId ≤ Json.intMax

/-- The ids have not run out where a task is added, and its strings are C strings. -/
def Proper (s : State) : Event → Prop
  | .add args => s.sched.nextId < Json.intMax ∧ CleanStrings args
  | _ => True

theorem Stored.save {s : State} {fs : Fs} {sched : Scheduler} (hws : workspace ≠ [])
    (hpath : sched.jobsPath = jobsPathOf workspace) (htidy : sched.Tidy)
    (hlast : sched.nextId ≤ Json.intMax) :
    Stored doubles workspace
      { s with fs := saveJobs (cjsonCodec doubles) fs sched, sched := sched } := by
  have hfile := saved (cjsonCodec doubles) hws sched hpath fs
  have htext := (cstr_cstr _).trans (print_clean doubles (jobsTree sched))
  obtain ⟨htasks, hbound⟩ := startJobs_text doubles htidy hlast (jobsPathOf_ne hws) hfile htext 0
  refine ⟨hpath, htidy, hlast, ?_, hbound⟩
  rw [htasks, List.map_map]
  rfl

theorem schedulerCreate_eq (cj : Codec) (fs : Fs) (workspace : Str) (now : Int) :
    schedulerCreate cj fs workspace now = startJobs cj fs (jobsPathOf workspace) now := rfl

theorem Stored.start {s : State} (hpath : Loaded (jobsPathOf workspace) s.sched)
    (hsame : SameJobs s.sched (startJobs (cjsonCodec doubles) s.fs (jobsPathOf workspace) 0))
    (hlast : s.sched.nextId ≤ Json.intMax) : Stored doubles workspace s := by
  refine ⟨hpath.jobsPath, hpath.toTidy, hlast, ?_, hsame.nextId ▸ hlast⟩
  rw [hpath.activeTasks]
  exact hsame.records.symm

theorem Stored.step {s t : State} {e : Event} (h : Stored doubles workspace s) (hws : workspace ≠ [])
    (hproper : Proper s e) (hstep : Step (cjsonCodec doubles) al workspace s e t) :
    Stored doubles workspace t := by
  obtain ⟨hpath, htidy, hlast, hrecords, hbound⟩ := h
  cases hstep with
  | pass | shellExec | wake _ | put _ | drop _ => exact ⟨hpath, htidy, hlast, hrecords, hbound⟩
  | add made =>
    rcases add_cases made with ⟨rfl, rfl⟩ | ⟨t, hlen, hadded, rfl, rfl⟩
    · exact ⟨hpath, htidy, hlast, hrecords, hbound⟩
    · exact Stored.save hws hpath (htidy.push hproper.2 hadded hlen) hproper.1
  | control made =>
    rcases control_cases made with ⟨_, rfl, rfl⟩ | ⟨i, action, _, rfl, rfl⟩
    · exact ⟨hpath, htidy, hlast, hrecords, hbound⟩
    · exact Stored.save hws hpath (htidy.control i action) hlast
  | @tick now i sched commands pc _ _ made =>
    have herased := tick_erased s.sched now i
    have hnext : (tick s.sched now i).1.nextId = s.sched.nextId := rfl
    have hpath' : (tick s.sched now i).1.jobsPath = jobsPathOf workspace := hpath
    rw [made] at herased hnext hpath'
    refine ⟨hpath', htidy.erased hnext herased, hnext ▸ hlast, ?_, hbound⟩
    have hactive := congrArg (List.map Task.record) (congrArg (List.filter Task.active) herased)
    rw [List.filter_map, List.filter_map, List.map_map, List.map_map] at hactive
    exact hrecords.trans hactive.symm
  | restart =>
    refine Stored.start (startJobs_loaded doubles s.fs _ s.clock)
      (startJobs_same (cjsonCodec doubles) s.fs _ s.clock 0) ?_
    exact (startJobs_same (cjsonCodec doubles) s.fs _ s.clock 0).nextId ▸ hbound

/-- Whatever the disk holds when the process first starts, and whatever happens then, a
restart finds the active tasks as they are, in their order. -/
theorem restart_keeps_jobs {fs : Fs} {clock : Int} {log : List Event} {s t : State}
    (hws : workspace ≠ [])
    (hids : (startState (cjsonCodec doubles) workspace fs clock).sched.nextId ≤ Json.intMax)
    (hrun : Run (Guarded (Step (cjsonCodec doubles) al workspace) Proper)
      (startState (cjsonCodec doubles) workspace fs clock) log s)
    (hrestart : Step (cjsonCodec doubles) al workspace s .restart t) :
    (activeTasks t.sched).map Task.record = (activeTasks s.sched).map Task.record := by
  have hstart : Stored doubles workspace (startState (cjsonCodec doubles) workspace fs clock) :=
    Stored.start (startJobs_loaded doubles fs _ clock)
      (startJobs_same (cjsonCodec doubles) fs _ clock 0) hids
  have hstored := hrun.invariant hstart fun s e t h hs => h.step hws hs.1 hs.2
  cases hrestart
  have hloaded := startJobs_loaded doubles s.fs (jobsPathOf workspace) s.clock
  change (activeTasks (startJobs _ s.fs (jobsPathOf workspace) s.clock)).map Task.record = _
  rw [hloaded.activeTasks, (startJobs_same _ s.fs _ s.clock 0).records]
  exact hstored.records

theorem plain_strings {j : Json} (h : Plain j) : CleanStrings j := by
  induction h with
  | string hs =>
    intro s h
    rcases within_children h with he | ⟨_, hitem, _⟩
    · cases he
      exact hs
    · cases hitem
  | array _ ih =>
    intro s h
    rcases within_children h with he | ⟨item, hitem, hw⟩
    · cases he
    · exact ih item hitem s hw
  | object _ _ ih =>
    intro s h
    rcases within_children h with he | ⟨item, hitem, hw⟩
    · cases he
    · obtain ⟨m, hm, rfl⟩ := List.mem_map.mp hitem
      exact ih m hm s hw
  | _ =>
    intro s h
    rcases within_children h with he | ⟨_, hitem, _⟩
    · cases he
    · cases hitem

theorem sampleAdd_strings : CleanStrings sampleAdd := by
  refine plain_strings (.object ?_ ?_)
  · exact List.forall_mem_cons.mpr ⟨by decide, List.forall_mem_cons.mpr ⟨by decide,
      List.forall_mem_singleton.mpr (by decide)⟩⟩
  · exact List.forall_mem_cons.mpr ⟨.string (by decide), List.forall_mem_cons.mpr
      ⟨.string (by decide), List.forall_mem_singleton.mpr (.string (by decide))⟩⟩

theorem restart_keeps_jobs_one :
    ∃ s : State, activeTasks s.sched = [sampleTask] ∧
      ∀ t, Step (cjsonCodec noDoubles) none "w".toList s .restart t →
        (activeTasks t.sched).map Task.record = [sampleTask.record] := by
  have hadd : Step (cjsonCodec noDoubles) none "w".toList
    (startState (cjsonCodec noDoubles) "w".toList (fun _ => none) 0) (.add sampleAdd) _ := .add rfl
  have hids : (startState (cjsonCodec noDoubles) "w".toList (fun _ => none) 0).sched.nextId <
      Json.intMax := by
    change (1 : Int) < Json.intMax
    decide
  have hproper : Proper (startState (cjsonCodec noDoubles) "w".toList (fun _ => none) 0)
    (.add sampleAdd) := ⟨hids, sampleAdd_strings⟩
  have hws : "w".toList ≠ [] := by decide
  exact ⟨_, rfl, fun t => restart_keeps_jobs hws (Int.le_of_lt hids) (.single ⟨hproper, hadd⟩)⟩

/-- A jobs file that a crash cut short is read as the whole table or as none. -/
theorem cut_jobs_file {sched : Scheduler} (htidy : sched.Tidy) (hlast : sched.nextId ≤ Json.intMax)
    {path text : Str} (hpath : path ≠ [])
    (hpre : text <+: cJSONPrint doubles (jobsTree sched)) (fs : Fs) (now : Int) :
    (startJobs (cjsonCodec doubles) (fs.write path text) path now).tasks =
      if text = cJSONPrint doubles (jobsTree sched) then (activeTasks sched).map (reloaded now)
      else [] := by
  have hclean := print_clean doubles (jobsTree sched)
  have hfile := Fs.write_self fs path text
  split
  · rename_i hwhole
    exact (startJobs_text doubles htidy hlast hpath hfile (hwhole ▸ hclean) now).1
  · rename_i hcut
    have hnul : '\x00' ∉ text := by
      obtain ⟨more, hmore⟩ := hpre
      intro hnul
      refine not_mem_cstr (cJSONPrint doubles (jobsTree sched)) ?_
      rw [hclean, ← hmore]
      exact List.mem_append_left more hnul
    have hexact := (jobsTree_exact doubles htidy hlast).cut text
    have hprint : cstr ((cjsonCodec doubles).print (jobsTree sched)) =
        cJSONPrint doubles (jobsTree sched) := hclean
    rw [hprint] at hexact
    have hparse : (cjsonCodec doubles).parse (cstr text) = none := by
      rw [cstr_eq_self hnul]
      exact hexact hpre hcut
    rw [startJobs_unparsed hfile hparse]
    rfl

def sampleTable : Scheduler := ⟨[sampleTask], 2, "j".toList, (by decide : 1 ≤ 64)⟩

theorem cut_jobs_file_one :
    (startJobs (cjsonCodec noDoubles) (Fs.write (fun _ => none) "j".toList ['[']) "j".toList 0).tasks =
      [] := by
  have htidy : sampleTable.Tidy := by
    refine ⟨by decide, List.forall_mem_singleton.mpr (by decide),
      List.forall_mem_singleton.mpr ⟨by decide, by decide⟩, List.forall_mem_singleton.mpr (by decide)⟩
  have htext : ∃ t, cJSONPrint noDoubles (jobsTree sampleTable) = '[' :: t ∧ t ≠ [] := by
    rw [cJSONPrint, jobsTree, printValue]
    exact ⟨_, rfl, List.append_ne_nil_of_right_ne_nil _ (List.cons_ne_nil _ _)⟩
  obtain ⟨t, ht, hne⟩ := htext
  have hpre : ['['] <+: cJSONPrint noDoubles (jobsTree sampleTable) := by
    rw [ht]
    exact ⟨t, rfl⟩
  have hcut := cut_jobs_file htidy (show (2 : Int) ≤ Json.intMax by decide)
    (by decide : "j".toList ≠ []) hpre (fun _ => none) 0
  rw [hcut, if_neg]
  rw [ht]
  exact fun h => hne (List.cons.inj h).2.symm

end Dobby.Schedule
