import Dobby.Proofs.SchedulerFiring

namespace Dobby.Schedule
open Runs

/-- A `schedule_add` whose arguments are valid. -/
def validAdd : Event → Bool
  | .add args =>
    (args.field "name".toList).isSome && (args.field "task".toList).isSome &&
      (args.field "interval".toList).any (fun spec => decide (0 < parseInterval spec))
  | _ => false

def activeCount (sched : Scheduler) : Nat := sched.tasks.countP Task.active

def AllActive (s : State) : Prop := ∀ x ∈ s.sched.tasks, x.active = true

/-- A call that deletes no task. -/
def Lasting (s : State) : Event → Prop
  | .control args => ∀ i, controlled s.sched args ≠ some (i, .delete)
  | _ => True

/-- A valid call is turned away only if every place is taken by an active task. -/
def Fair (cj : Codec) (s : State) : Prop :=
  ∀ args, validAdd (.add args) = true →
    (toolScheduleAdd cj s.fs s.sched s.clock args).1 = errorReply "Max tasks reached".toList →
    activeCount s.sched = maxTasks

/-- As many new tasks are taken in as are not active of the most there may be. -/
def Roomy (cj : Codec) (al : Option Allowlist) (workspace : Str) (s : State) : Prop :=
  ∀ es t, Run (Step cj al workspace) s es t → (∀ e ∈ es, validAdd e = true) →
    activeCount s.sched + es.length ≤ maxTasks →
    activeCount t.sched = activeCount s.sched + es.length

section Room
variable {cj : Codec} {al : Option Allowlist} {workspace : Str} {s t : State} {e : Event}

theorem addedTask_valid {sched : Scheduler} {now : Int} {args : Json} :
    (∃ x, addedTask sched now args = .ok x) ↔ validAdd (.add args) = true := by
  have hvalid : validAdd (.add args) = true ↔ ∃ name task interval,
      args.field "name".toList = some name ∧ args.field "task".toList = some task ∧
        args.field "interval".toList = some interval ∧ 0 < parseInterval interval := by
    unfold validAdd
    rw [Bool.and_eq_true, Bool.and_eq_true, Option.isSome_iff_exists, Option.isSome_iff_exists,
      Option.any_eq_true]
    constructor
    · intro h
      obtain ⟨⟨⟨name, hname⟩, task, htask⟩, interval, hinterval, hpos⟩ := h
      exact ⟨name, task, interval, hname, htask, hinterval, of_decide_eq_true hpos⟩
    · intro h
      obtain ⟨name, task, interval, hname, htask, hinterval, hpos⟩ := h
      exact ⟨⟨⟨name, hname⟩, task, htask⟩, interval, hinterval, decide_eq_true hpos⟩
  rw [hvalid]
  constructor
  · intro h
    obtain ⟨x, hx⟩ := h
    unfold addedTask at hx
    split at hx
    · rename_i name task interval hname htask hinterval
      split at hx
      · cases hx
      · rename_i hpos
        exact ⟨name, task, interval, hname, htask, hinterval, Int.not_le.mp hpos⟩
    · cases hx
  · intro h
    obtain ⟨name, task, interval, hname, htask, hinterval, hpos⟩ := h
    unfold addedTask
    rw [hname, htask, hinterval]
    dsimp only
    rw [if_neg (Int.not_le.mpr hpos)]
    exact ⟨_, rfl⟩

/-- Only a full table turns a valid call away. -/
theorem add_refused_iff {fs : Fs} {sched : Scheduler} {now : Int} {args : Json}
    (h : validAdd (.add args) = true) :
    (toolScheduleAdd cj fs sched now args).1 = errorReply "Max tasks reached".toList ↔
      sched.tasks.length = maxTasks := by
  obtain ⟨x, hx⟩ : ∃ x, addedTask sched now args = .ok x := addedTask_valid.mpr h
  have hbound := sched.bounded
  rw [toolScheduleAdd, hx]
  dsimp only
  split
  · rename_i hlt
    refine iff_of_false ?_ (by omega)
    intro heq
    simp [addReply, errorReply] at heq
  · exact iff_of_true rfl (by omega)

theorem step_length (hs : Step cj al workspace s e t) (hrun : e ≠ .restart) :
    t.sched.tasks.length =
      min maxTasks (s.sched.tasks.length + if validAdd e = true then 1 else 0) := by
  have hbound := s.sched.bounded
  have hsame (h : validAdd e = false) : s.sched.tasks.length =
      min maxTasks (s.sched.tasks.length + if validAdd e = true then 1 else 0) := by
    rw [h, if_neg Bool.false_ne_true]
    omega
  cases hs with
  | pass | shellExec | wake _ | put _ | drop _ => exact hsame rfl
  | restart => exact absurd rfl hrun
  | @tick now i sched commands pc _ hpc made =>
    have herased := congrArg List.length (tick_erased s.sched now i)
    rw [made, List.length_map, List.length_map] at herased
    exact herased.trans (hsame rfl)
  | @control args reply fs sched _ made =>
    rcases control_cases made with ⟨_, rfl, rfl⟩ | ⟨i, action, hc, rfl, rfl⟩
    · exact hsame rfl
    · change (s.sched.tasks.modify i action.apply).length = _
      rw [List.length_modify]
      exact hsame rfl
  | @add args reply fs sched _ made =>
    cases hv : validAdd (.add args) with
    | false =>
      rcases add_cases made with ⟨rfl, rfl⟩ | ⟨x, hlt, hadd, rfl, rfl⟩
      · exact hv ▸ hsame hv
      · rw [addedTask_valid.mp ⟨x, hadd⟩] at hv
        cases hv
    | true =>
      obtain ⟨x, hadd⟩ : ∃ x, addedTask s.sched s.clock args = .ok x := addedTask_valid.mpr hv
      rw [toolScheduleAdd, hadd] at made
      dsimp only at made
      rw [if_pos rfl]
      split at made
      · rename_i hlt
        cases made
        change (s.sched.tasks ++ [x]).length = _
        rw [List.length_append, List.length_singleton]
        omega
      · cases made
        change s.sched.tasks.length = _
        omega

theorem modify_active (ts : List Task) (i : Nat) {action : Action} (h : action ≠ .delete) :
    (ts.modify i action.apply).map Task.active = ts.map Task.active := by
  have hkeeps (x : Task) : (action.apply x).active = x.active := by
    cases action with
    | pause | resume => rfl
    | delete => exact absurd rfl h
  apply List.ext_getElem?
  intro j
  rw [List.getElem?_map, List.getElem?_map, List.getElem?_modify]
  cases ts[j]? with
  | none => rfl
  | some x => by_cases hij : i = j <;> simp [hij, hkeeps]

/-- Only a deletion makes an active task inactive, and nothing makes it active again. -/
theorem step_allActive_iff (hs : Step cj al workspace s e t) (hrun : e ≠ .restart) :
    AllActive t ↔ AllActive s ∧ Lasting s e := by
  cases hs with
  | pass | shellExec | wake _ | put _ | drop _ => exact (and_iff_left trivial).symm
  | restart => exact absurd rfl hrun
  | @tick now i sched commands pc _ hpc made =>
    have herased := tick_erased s.sched now i
    rw [made] at herased
    refine Iff.trans ?_ (and_iff_left trivial).symm
    constructor
    · intro h x hx
      obtain ⟨y, hy, he⟩ := mem_of_erased herased.symm hx
      exact (congrArg Task.active he).trans (h y hy)
    · intro h x hx
      obtain ⟨y, hy, he⟩ := mem_of_erased herased hx
      exact (congrArg Task.active he).trans (h y hy)
  | @add args reply fs sched _ made =>
    refine Iff.trans ?_ (and_iff_left trivial).symm
    rcases add_cases made with ⟨rfl, rfl⟩ | ⟨x, hlt, hadd, rfl, rfl⟩
    · exact Iff.rfl
    · have hactive := (addedTask_spec hadd).2.2.2.2.2.2
      constructor
      · intro h y hy
        exact h y (List.mem_append_left _ hy)
      · intro h y hy
        rcases List.mem_append.mp hy with hy | hy
        · exact h y hy
        · exact List.mem_singleton.mp hy ▸ hactive
  | @control args reply fs sched _ made =>
    rcases control_cases made with ⟨hnone, rfl, rfl⟩ | ⟨i, action, hc, rfl, rfl⟩
    · refine (and_iff_left ?_).symm
      intro i hi
      rw [hnone] at hi
      cases hi
    · by_cases hdelete : action = .delete
      · subst hdelete
        refine iff_of_false ?_ (fun h => h.2 i hc)
        intro h
        obtain ⟨x, hx⟩ := controlled_slot hc
        have hslot : (s.sched.tasks.modify i Action.delete.apply)[i]? = some (Action.delete.apply x) := by
          rw [List.getElem?_modify, hx]
          exact congrArg some (if_pos rfl)
        cases h _ (List.mem_of_getElem? hslot)
      · have hlasting : Lasting s (.control args) := by
          intro j hj
          rw [hc] at hj
          cases hj
          exact hdelete rfl
        refine Iff.trans ?_ (and_iff_left hlasting).symm
        have hsame := modify_active s.sched.tasks i hdelete
        change (∀ x ∈ s.sched.tasks.modify i action.apply, x.active = true) ↔
          ∀ x ∈ s.sched.tasks, x.active = true
        rw [← List.forall_mem_map (f := Task.active) (P := fun b => b = true), hsame,
          List.forall_mem_map]

theorem run_length (h : Run (Guarded (Step cj al workspace) Running) s es t) :
    t.sched.tasks.length = min maxTasks (s.sched.tasks.length + es.countP validAdd) := by
  induction h with
  | nil =>
    have hbound := s.sched.bounded
    rw [List.countP_nil]
    omega
  | snoc run last ih =>
    rw [step_length last.2 last.1, ih, List.countP_append, List.countP_singleton]
    omega

theorem activeCount_eq_iff (s : State) :
    activeCount s.sched = s.sched.tasks.length ↔ AllActive s :=
  List.countP_eq_length

theorem fair_iff (s : State) :
    Fair cj s ↔ s.sched.tasks.length < maxTasks ∨ AllActive s := by
  have hbound := s.sched.bounded
  have hcount : activeCount s.sched ≤ s.sched.tasks.length := List.countP_le_length
  rw [← activeCount_eq_iff]
  constructor
  · intro h
    by_cases hlt : s.sched.tasks.length < maxTasks
    · exact .inl hlt
    · have hvalid : validAdd (.add sampleTurn) = true := by decide
      have hfull := h sampleTurn hvalid ((add_refused_iff hvalid).mpr (by omega))
      right
      omega
  · intro h args hvalid hrefused
    have hfull := (add_refused_iff hvalid).mp hrefused
    omega

/-- There is a run of any calls of `schedule_add`. -/
theorem adds_run (cj : Codec) (al : Option Allowlist) (workspace : Str) (args : Json)
    (n : Nat) (s : State) : ∃ t, Run (Step cj al workspace) s (List.replicate n (.add args)) t := by
  induction n with
  | zero => exact ⟨s, .nil⟩
  | succ n ih =>
    obtain ⟨t, ht⟩ := ih
    rw [List.replicate_succ']
    exact ⟨_, ht.snoc (.add rfl)⟩

theorem running_of_adds (h : Run (Step cj al workspace) s es t)
    (hes : ∀ e ∈ es, validAdd e = true) : Run (Guarded (Step cj al workspace) Running) s es t := by
  induction h with
  | nil => exact .nil
  | @snoc es s e t run last ih =>
    have hadd := hes e (List.mem_append_right es List.mem_cons_self)
    refine .snoc (ih (fun e he => hes e (List.mem_append_left _ he))) ⟨?_, last⟩
    intro hrestart
    rw [hrestart] at hadd
    cases hadd

theorem adds_lasting (hes : ∀ e ∈ es, validAdd e = true)
    (h : Run (Guarded (Step cj al workspace) Running) s es t) : AllActive t ↔ AllActive s := by
  induction h with
  | nil => exact Iff.rfl
  | @snoc es s e t run last ih =>
    have hadd := hes e (List.mem_append_right es List.mem_cons_self)
    have hlasting : Lasting s e := by
      cases e with
      | control => cases hadd
      | _ => trivial
    rw [step_allActive_iff last.2 last.1, and_iff_left hlasting]
    exact ih (fun e he => hes e (List.mem_append_left _ he))

theorem roomy_iff (s : State) : Roomy cj al workspace s ↔ AllActive s := by
  have hbound := s.sched.bounded
  have hcount : activeCount s.sched ≤ s.sched.tasks.length := List.countP_le_length
  constructor
  · intro h
    have hvalid : ∀ e ∈ List.replicate (maxTasks - activeCount s.sched) (Event.add sampleTurn),
        validAdd e = true := by
      intro e he
      rw [List.eq_of_mem_replicate he]
      decide
    obtain ⟨t, ht⟩ := adds_run cj al workspace sampleTurn (maxTasks - activeCount s.sched) s
    have hroom := h _ t ht hvalid (by rw [List.length_replicate]; omega)
    rw [List.length_replicate] at hroom
    have hlast := adds_lasting hvalid (running_of_adds ht hvalid)
    rw [← hlast, ← activeCount_eq_iff]
    have hboundt := t.sched.bounded
    have hcountt : activeCount t.sched ≤ t.sched.tasks.length := List.countP_le_length
    omega
  · intro h es t ht hes hfits
    have hrun := running_of_adds ht hes
    have hlen := run_length hrun
    rw [List.countP_eq_length.mpr hes] at hlen
    have hactive := (activeCount_eq_iff t).mpr ((adds_lasting hes hrun).mpr h)
    have hbefore := (activeCount_eq_iff s).mpr h
    omega

theorem loadItem_active {now : Int} {sched : Scheduler} (item : Json)
    (h : ∀ x ∈ sched.tasks, x.active = true) : ∀ x ∈ (loadItem now sched item).tasks, x.active = true := by
  unfold loadItem
  split
  · split
    · exact h
    · rename_i x hload
      have hx : x.active = true := by
        unfold loadTask at hload
        split at hload
        · cases hload
          rfl
        · cases hload
      intro y hy
      rcases List.mem_append.mp hy with hy | hy
      · exact h y hy
      · exact List.mem_singleton.mp hy ▸ hx
  · exact h

/-- A process starts with active tasks only. -/
theorem start_active (cj : Codec) (workspace : Str) (fs : Fs) (clock : Int) :
    AllActive (startState cj workspace fs clock) := by
  have hload (items : List Json) (sched : Scheduler) (h : ∀ x ∈ sched.tasks, x.active = true) :
      ∀ x ∈ (items.foldl (loadItem clock) sched).tasks, x.active = true := by
    induction items generalizing sched with
    | nil => exact h
    | cons item items ih => exact ih _ (loadItem_active item h)
  have hempty : ∀ x ∈ ([] : List Task), x.active = true := by
    intro x hx
    cases hx
  change ∀ x ∈ (schedulerCreate cj fs workspace clock).tasks, x.active = true
  unfold schedulerCreate loadJobs
  split
  · exact hempty
  · split
    · exact hempty
    · split
      · exact hempty
      · exact hload _ _ hempty

/-- A valid call finds room exactly while there is an unused slot or nothing was deleted,
and every inactive task leaves room for another exactly if nothing was deleted. -/
theorem table_room_iff
    (h : Run (Guarded (Step cj al workspace) Running) (startState cj workspace fs clock) es s) :
    (Fair cj s ↔
      (startState cj workspace fs clock).sched.tasks.length + es.countP validAdd < maxTasks ∨
      Run (Guarded (Guarded (Step cj al workspace) Running) Lasting)
        (startState cj workspace fs clock) es s) ∧
    (Roomy cj al workspace s ↔
      Run (Guarded (Guarded (Step cj al workspace) Running) Lasting)
        (startState cj workspace fs clock) es s) := by
  have hactive : AllActive s ↔ Run (Guarded (Guarded (Step cj al workspace) Running) Lasting)
      (startState cj workspace fs clock) es s :=
    h.guarded_iff (P := fun _ => True) (A := AllActive) trivial (start_active cj workspace fs clock)
      (fun _ _ _ _ _ => trivial) (fun _ _ _ _ hs => step_allActive_iff hs.2 hs.1)
  have hlen := run_length h
  have hlt : s.sched.tasks.length < maxTasks ↔
      (startState cj workspace fs clock).sched.tasks.length + es.countP validAdd < maxTasks := by
    omega
  rw [fair_iff, roomy_iff, hlt, hactive]
  exact ⟨Iff.rfl, Iff.rfl⟩

end Room

theorem one_task_fair : Fair firingCodec (copiedState 2 []) := by
  refine (table_room_iff copied_reached).1.mpr (.inl ?_)
  decide

/-- The state after the only task was deleted. -/
def deletedState : State :=
  ⟨0, firingFs.write "w/scheduler/jobs.json".toList [], controlTask (turnSched 0) 0 .delete,
    .sleeping, [], []⟩

/-- With one deleted task and 63 active ones there is no room for another. -/
theorem deleted_slot_lost : ∃ s,
    Run (Guarded (Step firingCodec none "w".toList) Running) firingStart
      ([.add sampleTurn, .control deleteCall] ++ List.replicate 63 (.add sampleTurn)) s ∧
    ¬ Fair firingCodec s := by
  have hadd : Guarded (Step firingCodec none "w".toList) Running firingStart (.add sampleTurn)
      ⟨0, firingFs, turnSched 0, .sleeping, [], []⟩ := ⟨by simp [Running], .add rfl⟩
  have hdelete : Guarded (Step firingCodec none "w".toList) Running
      ⟨0, firingFs, turnSched 0, .sleeping, [], []⟩ (.control deleteCall) deletedState :=
    ⟨by simp [Running], .control rfl⟩
  have hvalid : ∀ e ∈ List.replicate 63 (Event.add sampleTurn), validAdd e = true := by
    intro e he
    rw [List.eq_of_mem_replicate he]
    decide
  obtain ⟨s, hs⟩ := adds_run firingCodec none "w".toList sampleTurn 63 deletedState
  have hrun := running_of_adds hs hvalid
  refine ⟨s, (Run.cons hadd (.single hdelete)).append hrun, ?_⟩
  rw [fair_iff]
  intro hfair
  have hlen := run_length hrun
  rw [List.countP_eq_length.mpr hvalid, List.length_replicate] at hlen
  have hone : deletedState.sched.tasks.length = 1 := rfl
  have hlost : ¬ AllActive deletedState := by
    intro hall
    cases hall _ List.mem_cons_self
  rcases hfair with hlt | hall
  · rw [hlen, hone] at hlt
    exact absurd hlt (by decide)
  · exact hlost ((adds_lasting hvalid hrun).mp hall)

end Dobby.Schedule
