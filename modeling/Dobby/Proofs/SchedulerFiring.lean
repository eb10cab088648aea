import Dobby.Proofs.SchedulerTable

namespace Dobby.Schedule
open CString Runs

variable {cj : Codec} {al : Option Allowlist} {workspace : Str}

/-- The task that a call stops, by a pause or for good. -/
def stops (sched : Scheduler) (args : Json) : Option Nat :=
  match controlled sched args with
  | some (i, .pause) | some (i, .delete) => some i
  | _ => none

/-- No call that resumes the task. -/
def NotResumed (i : Nat) (s : State) : Event → Prop
  | .control args => controlled s.sched args ≠ some (i, .resume)
  | _ => True

/-- No message of a task that was stopped and not resumed since. -/
def Quiet (step : State → Event → State → Prop) (start : State) : Prop :=
  ∀ before s args t between u v i now held, Run step start before s →
    stops s.sched args = some i → step s (.control args) t →
    Run (Guarded step (NotResumed i)) t between u → u.pc = .publishing now held →
    step u .put v → held.slot ≠ i

/-- No two messages of a task closer than its interval. -/
def Spaced (step : State → Event → State → Prop) (start : State) : Prop :=
  ∀ before s t between u v now held now' held' task, Run step start before s →
    s.pc = .publishing now held → step s .put t → Run step t between u →
    u.pc = .publishing now' held' → step u .put v → held'.slot = held.slot →
    u.sched.tasks[held.slot]? = some task → task.intervalSec ≤ u.clock - s.clock

/-- What is asked of the messages of agent turns. -/
structure Disciplined (step : State → Event → State → Prop) (start : State) : Prop where
  quiet : Quiet step start
  spaced : Spaced step start

/-- One process. -/
def Running (_ : State) (e : Event) : Prop := e ≠ .restart

/-- A message is put on the bus at the time its pass over the table read, and no call
stops a task between the copy and the put. -/
def Prompt (s : State) : Event → Prop
  | .restart => False
  | .put => ∀ now held, s.pc = .publishing now held → s.clock = now
  | .control args => ∀ now held, s.pc = .publishing now held → stops s.sched args ≠ some held.slot
  | _ => True

theorem Prompt.running {s : State} {e : Event} (h : Prompt s e) : e ≠ .restart := by
  rintro rfl
  exact h

theorem fire_slot {now : Int} {i k : Nat} {ts : List Task} {x : Task} (h : ts[k]? = some x) :
    (fire now i ts).1[k]? = some x ∨
      (due now x = true ∧ (fire now i ts).1[k]? = some { x with lastRun := now }) := by
  induction ts generalizing i k with
  | nil => cases h
  | cons t rest ih =>
    cases k with
    | zero =>
      obtain rfl : t = x := Option.some.inj h
      rcases fire_cases now i t rest with ⟨_, he⟩ | ⟨hdue, _, he⟩ | ⟨hdue, _, he⟩
      all_goals rw [he]
      · exact Or.inl rfl
      · exact Or.inr ⟨hdue, rfl⟩
      · exact Or.inr ⟨hdue, rfl⟩
    | succ k =>
      have hk : rest[k]? = some x := h
      rcases fire_cases now i t rest with ⟨_, he⟩ | ⟨_, _, he⟩ | ⟨_, _, he⟩
      all_goals rw [he]
      · exact ih hk
      · exact ih hk
      · exact Or.inl hk

/-- A copy is made of a task that is due, which is marked as run at this time. -/
theorem fire_held {now : Int} {i : Nat} {ts : List Task} {held : Held}
    (h : (fire now i ts).2.2 = some held) :
    ∃ k x, held.slot = i + k ∧ ts[k]? = some x ∧ due now x = true ∧
      (fire now i ts).1[k]? = some { x with lastRun := now } := by
  induction ts generalizing i with
  | nil => cases h
  | cons t rest ih =>
    rcases fire_cases now i t rest with ⟨_, he⟩ | ⟨_, _, he⟩ | ⟨hdue, _, he⟩
    all_goals rw [he] at h ⊢
    · obtain ⟨k, x, hslot, hx, hspec⟩ := ih h
      exact ⟨k + 1, x, by omega, hx, hspec⟩
    · obtain ⟨k, x, hslot, hx, hspec⟩ := ih h
      exact ⟨k + 1, x, by omega, hx, hspec⟩
    · cases h
      exact ⟨0, t, rfl, rfl, hdue, rfl⟩

/-- A pass leaves a task as it is or marks it as run, if it is due. -/
theorem tick_slot {sched : Scheduler} {j : Nat} {x : Task} (h : sched.tasks[j]? = some x)
    (now : Int) (i : Nat) :
    (tick sched now i).1.tasks[j]? = some x ∨
      (due now x = true ∧ (tick sched now i).1.tasks[j]? = some { x with lastRun := now }) := by
  have hj : j < sched.tasks.length := (List.getElem?_eq_some_iff.mp h).1
  rw [tick]
  by_cases hji : j < i
  · left
    rw [List.getElem?_append_left (by rw [List.length_take]; omega), List.getElem?_take, if_pos hji]
    exact h
  · have hlen : (sched.tasks.take i).length = i := by
      rw [List.length_take]
      omega
    rw [List.getElem?_append_right (by omega), hlen]
    apply fire_slot
    rw [List.getElem?_drop]
    rwa [Nat.add_sub_of_le (by omega)]

theorem tick_held {sched : Scheduler} {now : Int} {i : Nat} {pc : Pc}
    (h : (tick sched now i).2.2 = pc) :
    pc = .sleeping ∨ ∃ held x, pc = .publishing now held ∧
      sched.tasks[held.slot]? = some x ∧ due now x = true ∧
      (tick sched now i).1.tasks[held.slot]? = some { x with lastRun := now } := by
  rw [tick] at h ⊢
  simp only at h ⊢
  cases hheld : (fire now i (sched.tasks.drop i)).2.2 with
  | none =>
    rw [hheld] at h
    exact Or.inl h.symm
  | some held =>
    rw [hheld] at h
    obtain ⟨k, x, hslot, hx, hdue, hfired⟩ := fire_held hheld
    rw [List.getElem?_drop, ← hslot] at hx
    have hlen : (sched.tasks.take i).length = i := by
      have := (List.getElem?_eq_some_iff.mp hx).1
      rw [List.length_take]
      omega
    refine Or.inr ⟨held, x, h.symm, hx, hdue, ?_⟩
    rw [List.getElem?_append_right (by omega), hlen, hslot, Nat.add_sub_cancel_left]
    exact hfired

/-- What one step of a process does to a slot. -/
theorem step_slot {s t : State} (hs : Step cj al workspace s e t) (hrun : e ≠ .restart)
    {j : Nat} {x : Task} (hx : s.sched.tasks[j]? = some x) :
    ∃ y, t.sched.tasks[j]? = some y ∧ (y = x ∨
      (∃ args action, e = .control args ∧ controlled s.sched args = some (j, action) ∧
        y = action.apply x) ∨
      ∃ now i, e = .tick ∧ s.pc = .ticking now i ∧ due now x = true ∧
        y = { x with lastRun := now }) := by
  cases hs with
  | pass | shellExec | wake _ | put _ | drop _ => exact ⟨x, hx, Or.inl rfl⟩
  | restart => exact absurd rfl hrun
  | @add args reply fs sched _ made =>
    rcases add_cases made with ⟨rfl, rfl⟩ | ⟨task, hlen, _, rfl, rfl⟩
    · exact ⟨x, hx, Or.inl rfl⟩
    · refine ⟨x, ?_, Or.inl rfl⟩
      change (s.sched.tasks ++ [task])[j]? = some x
      rw [List.getElem?_append_left (List.getElem?_eq_some_iff.mp hx).1]
      exact hx
  | @control args reply fs sched _ made =>
    rcases control_cases made with ⟨_, rfl, rfl⟩ | ⟨i, action, hc, rfl, rfl⟩
    · exact ⟨x, hx, Or.inl rfl⟩
    · have hy : (controlTask s.sched i action).tasks[j]? =
          some (if i = j then action.apply x else x) := by
        rw [controlTask, List.getElem?_modify, hx]
        rfl
      by_cases hij : i = j
      · subst hij
        rw [if_pos rfl] at hy
        exact ⟨_, hy, Or.inr (Or.inl ⟨args, action, rfl, hc, rfl⟩)⟩
      · rw [if_neg hij] at hy
        exact ⟨x, hy, Or.inl rfl⟩
  | @tick now i sched commands pc _ hpc made =>
    have hy := tick_slot hx now i
    rw [made] at hy
    rcases hy with hy | ⟨hdue, hy⟩
    · exact ⟨x, hy, Or.inl rfl⟩
    · exact ⟨_, hy, Or.inr (Or.inr ⟨now, i, rfl, hpc, hdue, rfl⟩)⟩

/-- The task of a slot is paused or deleted. -/
def Stopped (j : Nat) (s : State) : Prop :=
  ∃ x, s.sched.tasks[j]? = some x ∧ (x.paused = true ∨ x.active = false)

theorem controlled_slot {sched : Scheduler} {args : Json}
    (h : controlled sched args = some (i, action)) : ∃ x, sched.tasks[i]? = some x := by
  rw [controlled] at h
  split at h
  · cases h
  split at h
  · cases h
  rename_i action' _ _
  rw [controlTarget] at h
  split at h
  · cases h
  split at h
  · cases h
  rename_i k hk
  split at h
  · cases h
  · cases h
    obtain ⟨hlt, _⟩ := List.findIdx?_eq_some_iff_getElem.mp hk
    exact ⟨_, List.getElem?_eq_getElem hlt⟩

theorem stops_stopped {s t : State} (hstop : stops s.sched args = some j)
    (hs : Step cj al workspace s (.control args) t) : Stopped j t := by
  have hc : ∃ action, controlled s.sched args = some (j, action) ∧ action ≠ .resume := by
    rw [stops] at hstop
    split at hstop
    · rename_i h
      exact ⟨.pause, by rw [h, Option.some.inj hstop], by simp⟩
    · rename_i h
      exact ⟨.delete, by rw [h, Option.some.inj hstop], by simp⟩
    · cases hstop
  obtain ⟨action, hc, hne⟩ := hc
  cases hs with
  | @control _ reply fs sched _ made =>
    obtain ⟨x, hx⟩ := controlled_slot hc
    rcases control_cases made with ⟨hnone, _, _⟩ | ⟨i, action', hsome, rfl, rfl⟩
    · rw [hc] at hnone
      cases hnone
    · rw [hc] at hsome
      cases hsome
      refine ⟨action.apply x, ?_, ?_⟩
      · change (s.sched.tasks.modify j action.apply)[j]? = _
        rw [List.getElem?_modify, hx]
        exact congrArg some (if_pos rfl)
      · cases action with
        | pause => exact Or.inl rfl
        | delete => exact Or.inr rfl
        | resume => exact absurd rfl hne

theorem Stopped.step {s t : State} (h : Stopped j s) (hs : Step cj al workspace s e t)
    (hrun : e ≠ .restart) (hresume : NotResumed j s e) : Stopped j t := by
  obtain ⟨x, hx, hstop⟩ := h
  obtain ⟨y, hy, rfl | ⟨args, action, rfl, hc, rfl⟩ | ⟨now, i, rfl, _, _, rfl⟩⟩ := step_slot hs hrun hx
  · exact ⟨y, hy, hstop⟩
  · refine ⟨_, hy, ?_⟩
    cases action with
    | pause => exact Or.inl rfl
    | delete => exact Or.inr rfl
    | resume => exact absurd hc hresume
  · exact ⟨_, hy, hstop⟩

theorem not_stops {sched : Scheduler} {args : Json} {action : Action} {i : Nat}
    (hc : controlled sched args = some (i, action)) (h : stops sched args ≠ some i) :
    action = .resume := by
  rw [stops, hc] at h
  cases action with
  | pause | delete => exact absurd rfl h
  | resume => rfl

/-- The state of the thread: the time that its pass read is not in the future, and a
task that was copied can run and is marked as run at that time. -/
def Fresh (s : State) : Prop :=
  match s.pc with
  | .sleeping => True
  | .ticking now _ => now ≤ s.clock
  | .publishing now held => now ≤ s.clock ∧ ∃ x, s.sched.tasks[held.slot]? = some x ∧
      x.lastRun = now ∧ x.active = true ∧ x.paused = false

theorem due_spec {now : Int} {x : Task} (h : due now x = true) :
    x.active = true ∧ x.paused = false ∧ x.intervalSec ≤ now - x.lastRun := by
  rw [due, Bool.and_eq_true, Bool.and_eq_true, Bool.not_eq_true'] at h
  exact ⟨h.1.1, h.1.2, of_decide_eq_true h.2⟩

/-- A slot keeps its last run and its interval through a call of the tools. -/
theorem Action.apply_times (action : Action) (x : Task) :
    (action.apply x).lastRun = x.lastRun ∧ (action.apply x).intervalSec = x.intervalSec := by
  cases action with
  | pause | resume | delete => exact ⟨rfl, rfl⟩

theorem Fresh.step {s t : State} (h : Fresh s) (hs : Step cj al workspace s e t)
    (hgood : Prompt s e) : Fresh t := by
  have hkeep : t.pc = s.pc → s.clock ≤ t.clock → Fresh t := by
    intro hpc hclock
    rw [Fresh, hpc]
    rw [Fresh] at h
    split
    · trivial
    · rename_i now i heq
      rw [heq] at h
      exact Int.le_trans h hclock
    · rename_i now held heq
      rw [heq] at h
      obtain ⟨hnow, x, hx, hrun, hact, hpause⟩ := h
      refine ⟨Int.le_trans hnow hclock, ?_⟩
      obtain ⟨y, hy, rfl | ⟨args, action, rfl, hc, rfl⟩ | ⟨_, _, _, htick, _⟩⟩ :=
        step_slot hs hgood.running hx
      · exact ⟨y, hy, hrun, hact, hpause⟩
      · obtain rfl := not_stops hc (hgood now held heq)
        exact ⟨_, hy, hrun, hact, rfl⟩
      · rw [heq] at htick
        cases htick
  cases hs with
  | pass later => exact hkeep rfl later
  | shellExec | add _ | control _ => exact hkeep rfl (Int.le_refl _)
  | wake hpc => exact Int.le_refl _
  | @tick now i sched commands pc _ hpc made =>
    rw [Fresh, hpc] at h
    rcases tick_held (congrArg (fun r => r.2.2) made) with rfl | ⟨held, x, rfl, _, hdue, hx⟩
    · trivial
    · rw [made] at hx
      obtain ⟨hact, hpause, _⟩ := due_spec hdue
      exact ⟨h, _, hx, rfl, hact, hpause⟩
  | @put now held _ hpc | @drop now held _ hpc =>
    rw [Fresh, hpc] at h
    exact h.1
  | restart => exact hgood.elim

/-- Since a message of a slot at some time: a later copy of its task is made by a pass
that read a time at least the interval later. -/
def Since (j : Nat) (c : Int) (s : State) : Prop :=
  c ≤ s.clock ∧ ∃ x, s.sched.tasks[j]? = some x ∧ c ≤ x.lastRun ∧
    match s.pc with
    | .sleeping => True
    | .ticking now _ => c ≤ now
    | .publishing now held => c ≤ now ∧ (held.slot = j → x.intervalSec ≤ now - c)

theorem Since.step {s t : State} (h : Since j c s) (hs : Step cj al workspace s e t)
    (hrun : e ≠ .restart) : Since j c t := by
  obtain ⟨hc, x, hx, hlast, hpc⟩ := h
  obtain ⟨y, hy, hxy⟩ := step_slot hs hrun hx
  have htimes : e ≠ .tick → y.lastRun = x.lastRun ∧ y.intervalSec = x.intervalSec := by
    intro htick
    rcases hxy with rfl | ⟨_, action, _, _, rfl⟩ | ⟨_, _, rfl, _⟩
    · exact ⟨rfl, rfl⟩
    · exact action.apply_times x
    · exact absurd rfl htick
  have hkeep : e ≠ .tick → t.pc = s.pc → s.clock ≤ t.clock → Since j c t := by
    intro htick heq hclock
    obtain ⟨hrun, hint⟩ := htimes htick
    refine ⟨Int.le_trans hc hclock, y, hy, by rw [hrun]; exact hlast, ?_⟩
    rw [heq, hint]
    exact hpc
  cases hs with
  | pass later => exact hkeep (by simp) rfl later
  | shellExec | add _ | control _ => exact hkeep (by simp) rfl (Int.le_refl _)
  | wake _ => exact ⟨hc, x, hx, hlast, hc⟩
  | @put now held _ heq | @drop now held _ heq =>
    rw [heq] at hpc
    exact ⟨hc, x, hx, hlast, hpc.1⟩
  | @tick now i sched commands pc _ heq made =>
    rw [heq] at hpc
    have hly : c ≤ y.lastRun ∧ y.intervalSec = x.intervalSec := by
      rcases hxy with rfl | ⟨_, _, hcontrol, _⟩ | ⟨_, _, _, htick, _, rfl⟩
      · exact ⟨hlast, rfl⟩
      · cases hcontrol
      · rw [heq] at htick
        cases htick
        exact ⟨hpc, rfl⟩
    refine ⟨hc, y, hy, hly.1, ?_⟩
    rcases tick_held (congrArg (fun r => r.2.2) made) with rfl | ⟨held, z, rfl, hz, hdue, _⟩
    · trivial
    · refine ⟨hpc, ?_⟩
      rintro rfl
      obtain rfl := Option.some.inj (hx.symm.trans hz)
      have := (due_spec hdue).2.2
      rw [hly.2]
      omega
  | restart => exact absurd rfl hrun

/-- The discipline is kept where no message is late and none is overtaken by a call
that stops its task. -/
theorem firing_disciplined (cj : Codec) (al : Option Allowlist) (workspace : Str)
    (fs : Fs) (clock : Int) :
    Disciplined (Guarded (Step cj al workspace) Prompt) (startState cj workspace fs clock) := by
  have hfresh : ∀ {es s}, Run (Guarded (Step cj al workspace) Prompt)
      (startState cj workspace fs clock) es s → Fresh s :=
    fun hrun => hrun.invariant trivial (fun s e t h hs => h.step hs.2 hs.1)
  constructor
  · intro before s args t between u v i now held hbefore hstop hcall hbetween hpc hput heq
    have hstopped : Stopped i u :=
      hbetween.invariant (stops_stopped hstop hcall.2)
        (fun s e t h hs => h.step hs.2.2 hs.2.1.running hs.1)
    have hcopied := hfresh ((hbefore.snoc hcall).append hbetween.unguard)
    rw [Fresh, hpc] at hcopied
    obtain ⟨_, x, hx, _, hact, hpause⟩ := hcopied
    obtain ⟨y, hy, hstop⟩ := hstopped
    rw [heq] at hx
    obtain rfl := Option.some.inj (hx.symm.trans hy)
    rw [hact, hpause] at hstop
    rcases hstop with h | h <;> cases h
  · intro before s t between u v now held now' held' task hbefore hpc hput hbetween hpc' hput'
      hslot htask
    have hcopied := hfresh hbefore
    rw [Fresh, hpc] at hcopied
    obtain ⟨_, x, hx, hlast, _⟩ := hcopied
    have hnow : s.clock = now := hput.1 now held hpc
    have hsince : Since held.slot s.clock t := by
      obtain ⟨_, hs⟩ := hput
      cases hs with
      | @put now₀ held₀ _ heq =>
        rw [hpc] at heq
        cases heq
        exact ⟨Int.le_refl _, x, hx, by omega, by simp [hnow]⟩
    have hlater : Since held.slot s.clock u :=
      hbetween.invariant hsince (fun s e t h hs => h.step hs.2 hs.1.running)
    obtain ⟨_, y, hy, _, hdue⟩ := hlater
    rw [hpc'] at hdue
    obtain rfl := Option.some.inj (htask.symm.trans hy)
    have hnow' : u.clock = now' := hput'.1 now' held' hpc'
    rw [hnow']
    exact hdue.2 hslot

def sampleTurn : Json :=
  .object [("name".toList, .string "n".toList), ("task".toList, .string "t".toList),
    ("interval".toList, .string "every 2 seconds".toList)]

def deleteCall : Json :=
  .object [("action".toList, .string "delete".toList), ("task_id".toList, .number "1".toList)]

def firingCodec : Codec := ⟨fun _ => [], fun _ => none⟩

def firingStart : State := startState firingCodec "w".toList (fun _ => none) 0

def firingFs : Fs := Fs.write (fun _ => none) "w/scheduler/jobs.json".toList []

/-- The table after the task ran at a time. -/
def turnSched (lastRun : Int) : Scheduler :=
  ⟨[⟨1, "n".toList, .agentTurn, "t".toList, 2, lastRun, false, true⟩], 2,
    "w/scheduler/jobs.json".toList, by rw [List.length_singleton, maxTasks]; omega⟩

/-- The thread holds a copy that it made of the task at this time. -/
def copiedState (now : Int) (bus : List Put) : State :=
  ⟨now, firingFs, turnSched now, .publishing now ⟨0, "scheduler:1".toList, "t".toList⟩, [], bus⟩

theorem copied_reached : Run (Guarded (Step firingCodec none "w".toList) Running) firingStart
    [.add sampleTurn, .pass 2, .wake, .tick] (copiedState 2 []) := by
  have hadd : Guarded (Step firingCodec none "w".toList) Running firingStart (.add sampleTurn)
      ⟨0, firingFs, turnSched 0, .sleeping, [], []⟩ := ⟨by simp [Running], .add rfl⟩
  have hlater : (0 : Int) ≤ 2 := by decide
  exact .cons hadd (.cons ⟨by simp [Running], .pass hlater⟩
    (.cons ⟨by simp [Running], .wake rfl⟩ (.single ⟨by simp [Running], .tick rfl rfl⟩)))

/-- A task is deleted while its message waits for the bus. Another message waits until
its task is due again. -/
theorem late_message_undisciplined :
    ¬ Quiet (Guarded (Step firingCodec none "w".toList) Running) firingStart ∧
    ¬ Spaced (Guarded (Step firingCodec none "w".toList) Running) firingStart := by
  constructor
  · intro hquiet
    have hdelete : Guarded (Step firingCodec none "w".toList) Running (copiedState 2 [])
        (.control deleteCall)
        { copiedState 2 [] with
          fs := firingFs.write "w/scheduler/jobs.json".toList []
          sched := controlTask (turnSched 2) 0 .delete } :=
      ⟨by simp [Running], .control rfl⟩
    exact hquiet _ _ deleteCall _ _ _ _ _ _ _ copied_reached rfl hdelete .nil rfl
      ⟨by simp [Running], .put rfl⟩ rfl
  · intro hspaced
    have hwait : Guarded (Step firingCodec none "w".toList) Running (copiedState 2 [])
        (.pass 10) { copiedState 2 [] with clock := 10 } := ⟨by simp [Running], .pass (by decide)⟩
    have hsecond : (10 : Int) ≤ 11 := by decide
    have hagain : Run (Guarded (Step firingCodec none "w".toList) Running)
        { copiedState 2 [⟨10, 0, "scheduler:1".toList, "t".toList⟩] with
          clock := 10, pc := .ticking 2 1 } [.tick, .pass 11, .wake, .tick]
        (copiedState 11 [⟨10, 0, "scheduler:1".toList, "t".toList⟩]) :=
      .cons ⟨by simp [Running], .tick rfl rfl⟩ (.cons ⟨by simp [Running], .pass hsecond⟩
        (.cons ⟨by simp [Running], .wake rfl⟩ (.single ⟨by simp [Running], .tick rfl rfl⟩)))
    have hspace := hspaced _ _ _ _ _ _ _ _ _ _ _ (copied_reached.snoc hwait) rfl
      ⟨by simp [Running], .put rfl⟩ hagain rfl ⟨by simp [Running], .put rfl⟩ rfl rfl
    exact absurd hspace (by decide)

end Dobby.Schedule
