import Dobby.Base.Runs
import Dobby.Model.Scheduler

namespace Dobby.Schedule
open CString

/-- A task apart from the time of its last run. -/
def Task.erased (t : Task) : Task := { t with lastRun := 0 }

theorem erased_eq {t u : Task} (h : t.erased = u.erased) : t = { u with lastRun := t.lastRun } := by
  cases t
  cases u
  simp only [Task.erased, Task.mk.injEq] at h
  obtain ⟨rfl, rfl, rfl, rfl, rfl, -, rfl, rfl⟩ := h
  rfl

theorem mem_of_erased {ts us : List Task} (h : ts.map Task.erased = us.map Task.erased) {t : Task}
    (ht : t ∈ ts) : ∃ u ∈ us, t.erased = u.erased := by
  have hm := List.mem_map_of_mem (f := Task.erased) ht
  rw [h] at hm
  obtain ⟨u, hu, he⟩ := List.mem_map.mp hm
  exact ⟨u, hu, he.symm⟩

/-- What the loop does with the first task. -/
theorem fire_cases (now : Int) (i : Nat) (t : Task) (rest : List Task) :
    (due now t = false ∧ fire now i (t :: rest) =
      (t :: (fire now (i + 1) rest).1, (fire now (i + 1) rest).2.1, (fire now (i + 1) rest).2.2)) ∨
    (due now t = true ∧ t.type = .shell ∧ fire now i (t :: rest) =
      ({ t with lastRun := now } :: (fire now (i + 1) rest).1,
        t.task :: (fire now (i + 1) rest).2.1, (fire now (i + 1) rest).2.2)) ∨
    (due now t = true ∧ t.type = .agentTurn ∧ fire now i (t :: rest) =
      ({ t with lastRun := now } :: rest, [], some ⟨i, chatIdOf t, t.task⟩)) := by
  cases hdue : due now t with
  | false => exact Or.inl ⟨rfl, by rw [fire, if_neg (by simp [hdue])]⟩
  | true =>
    right
    cases htype : t.type with
    | shell => exact Or.inl ⟨rfl, rfl, by simp only [fire, hdue, htype, if_true]⟩
    | agentTurn => exact Or.inr ⟨rfl, rfl, by simp only [fire, hdue, htype, if_true]⟩

theorem fire_erased (now : Int) (i : Nat) (ts : List Task) :
    (fire now i ts).1.map Task.erased = ts.map Task.erased := by
  induction ts generalizing i with
  | nil => rfl
  | cons t rest ih =>
    rcases fire_cases now i t rest with ⟨_, he⟩ | ⟨_, _, he⟩ | ⟨_, _, he⟩
    all_goals rw [he]
    · rw [List.map_cons, List.map_cons, ih]
    · rw [List.map_cons, List.map_cons, ih]
      rfl
    · rfl

/-- Commands come from active shell tasks. -/
theorem fire_commands {now : Int} {i : Nat} {ts : List Task} {command : Str}
    (h : command ∈ (fire now i ts).2.1) :
    ∃ t ∈ ts, t.active = true ∧ t.type = .shell ∧ t.task = command := by
  induction ts generalizing i with
  | nil => exact absurd h List.not_mem_nil
  | cons t rest ih =>
    have hrest : command ∈ (fire now (i + 1) rest).2.1 →
        ∃ u ∈ t :: rest, u.active = true ∧ u.type = .shell ∧ u.task = command := by
      intro hc
      obtain ⟨u, hu, hspec⟩ := ih hc
      exact ⟨u, List.mem_cons_of_mem t hu, hspec⟩
    rcases fire_cases now i t rest with ⟨_, he⟩ | ⟨hdue, htype, he⟩ | ⟨_, _, he⟩
    all_goals rw [he] at h
    · exact hrest h
    · rcases List.mem_cons.mp h with rfl | h
      · rw [due, Bool.and_eq_true, Bool.and_eq_true] at hdue
        exact ⟨t, List.mem_cons_self, hdue.1.1, htype, rfl⟩
      · exact hrest h
    · exact absurd h List.not_mem_nil

theorem tick_erased (sched : Scheduler) (now : Int) (i : Nat) :
    (tick sched now i).1.tasks.map Task.erased = sched.tasks.map Task.erased := by
  rw [tick, List.map_append, fire_erased, ← List.map_append, List.take_append_drop]

theorem tick_commands {sched : Scheduler} {now : Int} {i : Nat} {command : Str}
    (h : command ∈ (tick sched now i).2.1) :
    ∃ t ∈ sched.tasks, t.active = true ∧ t.type = .shell ∧ t.task = command := by
  obtain ⟨t, ht, hspec⟩ := fire_commands h
  exact ⟨t, List.mem_of_mem_drop ht, hspec⟩

/-- A call of `schedule_add` that changes anything puts a new task behind the others
and saves the table. -/
theorem add_cases {fs fs' : Fs} {sched sched' : Scheduler}
    (made : toolScheduleAdd cj fs sched now args = (reply, fs', sched')) :
    (fs' = fs ∧ sched' = sched) ∨
    ∃ (t : Task) (h : sched.tasks.length < maxTasks), addedTask sched now args = .ok t ∧
      fs' = saveJobs cj fs (pushTask sched t h) ∧ sched' = pushTask sched t h := by
  rw [toolScheduleAdd] at made
  cases hadd : addedTask sched now args with
  | error answer =>
    rw [hadd] at made
    cases made
    exact Or.inl ⟨rfl, rfl⟩
  | ok t =>
    simp only [hadd] at made
    split at made
    · rename_i h
      cases made
      exact Or.inr ⟨t, h, rfl, rfl, rfl⟩
    · cases made
      exact Or.inl ⟨rfl, rfl⟩

theorem addedTask_spec {sched : Scheduler} {now : Int} {args : Json} {t : Task}
    (h : addedTask sched now args = .ok t) :
    t.id = sched.nextId ∧ t.type = TaskType.ofName (args.field "type".toList) ∧
      args.field "task".toList = some t.task ∧ 0 < t.intervalSec ∧
      (∃ spec, t.intervalSec = parseInterval spec) ∧ t.paused = false ∧ t.active = true := by
  rw [addedTask] at h
  split at h
  · rename_i interval _ htask _
    split at h
    · cases h
    · rename_i hpos
      cases h
      exact ⟨rfl, rfl, htask, Int.not_le.mp hpos, ⟨interval, rfl⟩, rfl, rfl⟩
  · cases h

/-- A call of `schedule_control` that changes anything applies its action to one
active task and saves the table. -/
theorem control_cases {fs fs' : Fs} {sched sched' : Scheduler}
    (made : toolScheduleControl cj fs sched args = (reply, fs', sched')) :
    (controlled sched args = none ∧ fs' = fs ∧ sched' = sched) ∨
    ∃ i action, controlled sched args = some (i, action) ∧
      fs' = saveJobs cj fs (controlTask sched i action) ∧ sched' = controlTask sched i action := by
  rw [toolScheduleControl] at made
  rw [controlled]
  cases hargs : args.field "action".toList with
  | none =>
    simp only [hargs] at made
    cases made
    exact Or.inl ⟨rfl, rfl, rfl⟩
  | some action =>
    simp only [hargs] at made ⊢
    split at made
    · rename_i hunknown
      cases made
      rw [if_pos hunknown]
      exact Or.inl ⟨rfl, rfl, rfl⟩
    · rename_i hknown
      rw [if_neg hknown]
      cases htarget : controlTarget sched action args with
      | error answer =>
        rw [htarget] at made
        cases made
        exact Or.inl ⟨rfl, rfl, rfl⟩
      | ok target =>
        rw [htarget] at made
        cases made
        exact Or.inr ⟨target.1, target.2, rfl, rfl, rfl⟩

/-- What a control call leaves in the slots. -/
theorem mem_controlTask {sched : Scheduler} {i : Nat} {action : Action} {t : Task}
    (h : t ∈ (controlTask sched i action).tasks) :
    t ∈ sched.tasks ∨ ∃ u ∈ sched.tasks, t = action.apply u := by
  obtain ⟨k, hk⟩ := List.mem_iff_getElem?.mp h
  rw [controlTask, List.getElem?_modify] at hk
  obtain ⟨u, hu, he⟩ := Option.map_eq_some_iff.mp hk
  have hmem := List.mem_of_getElem? hu
  split at he
  · exact Or.inr ⟨u, hmem, he.symm⟩
  · rw [← he]
    exact Or.inl hmem

end Dobby.Schedule
