import Dobby.Proofs.SubagentOutcome

namespace Dobby.Subagent
open CString Runs Function

/-- The owner of the lock joins a worker that is in line for the lock, or is a worker
that a cancellation has ended. -/
def LockedUp (s : State) : Prop :=
  (∃ caller i request fate w, s.owner = some (.joining caller i request fate) ∧
    s.workers (s.slots i).thread = some w ∧ w.waits = true) ∨
  ∃ o k w, s.owner = some o ∧ o.thread = .worker k ∧ s.workers k = some w ∧ w.phase = .cancelled

/-- No worker with a pending cancellation is in line for the lock: a watchdog finds its
worker out of the line, and a cancelled worker does not get in. -/
def Heeded (s : State) : Event → Prop
  | .timeout dog => ∀ i w, watched s.slots dog.id = some i →
      s.workers (s.slots i).thread = some w → w.waits = false
  | .ask k _ | .answer k _ => ∀ w, s.workers k = some w → w.pending = false
  | _ => True

/-- A worker that meets its cancellation away from the lock, whoever owns it. -/
structure Calmed (s : State) : Prop where
  pending : ∀ k w, s.workers k = some w → w.pending = true →
    w.waits = false ∧ w.phase ≠ .reporting
  reports : ∀ k w, s.workers k = some w → w.phase = .reporting → s.owner = some (.reporting k)
  reporter : ∀ k, s.owner = some (.reporting k) → ∃ w, s.workers k = some w ∧ w.phase = .reporting
  joiner : ∀ k i request fate, s.owner = some (.joining (.worker k) i request fate) →
    ∃ w, s.workers k = some w ∧ w.waits = true
  spawner : ∀ k, s.owner ≠ some (.spawning k)

theorem Worker.waits_active {w : Worker} (h : w.waits = true) : w.active = true := by
  rw [waits] at h
  rw [active]
  cases hphase : w.phase with
  | chatting | calling | answered => rfl
  | reporting | returned | cancelled =>
    rw [hphase] at h
    cases h

theorem Calmed.unlocked {s : State} (h : Calmed s) (hpool : Pool s) : ¬ LockedUp s := by
  rintro (⟨caller, i, request, fate, w, howner, hw, hwaits⟩ | ⟨o, k, w, howner, hthread, hw, hcancelled⟩)
  · obtain ⟨hend, hvalid⟩ := hpool.held.claimed caller i request fate howner
    obtain ⟨u, hu, hslot, _⟩ := hpool.sound.crew i hvalid
    obtain rfl := Option.some.inj (hw.symm.trans hu)
    have hcalm : w.pending = false := by
      by_contra hp
      rw [(h.pending _ w hw (by simpa using hp)).1] at hwaits
      cases hwaits
    have hrun := hpool.tied _ w hw (Worker.waits_active hwaits)
    rw [hslot, hcalm] at hrun
    rw [hrun] at hend
    cases hend
  · cases o with
    | joining caller i request fate =>
      obtain rfl : caller = .worker k := hthread
      obtain ⟨u, hu, hwaits⟩ := h.joiner k i request fate howner
      obtain rfl := Option.some.inj (hw.symm.trans hu)
      rw [Worker.waits, hcancelled] at hwaits
      cases hwaits
    | spawning j => exact h.spawner j howner
    | reporting j =>
      obtain rfl : j = k := Caller.worker.inj hthread
      obtain ⟨u, hu, hphase⟩ := h.reporter j howner
      obtain rfl := Option.some.inj (hw.symm.trans hu)
      rw [hcancelled] at hphase
      cases hphase

/-- No worker reports, and none with a pending cancellation is in line. -/
def Quiet (workers : Nat → Option Worker) : Prop :=
  ∀ k w, workers k = some w → (w.pending = true → w.waits = false) ∧ w.phase ≠ .reporting

theorem Quiet.update {workers : Nat → Option Worker} (h : Quiet workers) {v : Worker}
    (hv : (v.pending = true → v.waits = false) ∧ v.phase ≠ .reporting) (k : Nat) :
    Quiet (update workers k (some v)) := by
  intro j u hu
  by_cases hj : j = k
  · subst hj
    rw [update_self] at hu
    cases hu
    exact hv
  · rw [update_of_ne hj] at hu
    exact h j u hu

theorem Calmed.quiet {s : State} (h : Calmed s) (howner : ∀ k, s.owner ≠ some (.reporting k)) :
    Quiet s.workers :=
  fun k w hw => ⟨fun hp => (h.pending k w hw hp).1, fun hr => howner k (h.reports k w hw hr)⟩

theorem Quiet.calmed {s : State} (h : Quiet s.workers) (hfree : s.owner = none) : Calmed s where
  pending k w hw hp := ⟨(h k w hw).1 hp, (h k w hw).2⟩
  reports k w hw hr := absurd hr (h k w hw).2
  reporter k ho := by
    rw [hfree] at ho
    cases ho
  joiner k i request fate ho := by
    rw [hfree] at ho
    cases ho
  spawner k ho := by
    rw [hfree] at ho
    cases ho

theorem Quiet.resume {s : State} (h : Quiet s.workers) (caller : Caller) :
    Quiet (s.resume caller).workers := by
  cases caller with
  | outside => exact h
  | worker k =>
    rw [State.resume, State.setPhase]
    split
    · exact h
    · rename_i w hw
      exact h.update (v := { w with phase := .chatting }) ⟨fun _ => rfl, by simp⟩ k

theorem Quiet.fill {s : State} (h : Quiet s.workers) (timeoutSec : Int) (i : Fin maxSlots)
    (request : Request) (fate : Fate) :
    Quiet (fillSlot timeoutSec (s.recycle i) i request fate).workers := by
  rw [← recycle_workers s i] at h
  cases fate with
  | agentFailed | threadFailed => exact h
  | started watched =>
    exact h.update (v := ⟨(s.recycle i).nextId, i, .chatting, false⟩) ⟨by simp, by simp⟩ _

/-- A worker that does not own the lock takes a step of its own. -/
theorem Calmed.setWorker {s : State} (h : Calmed s) (hw : s.workers k = some w)
    (hchats : w.phase = .chatting) {v : Worker} (hpending : v.pending = true → v.waits = false)
    (hphase : v.phase ≠ .reporting) : Calmed (s.setWorker k v) := by
  have hother : ∀ {j u}, (s.setWorker k v).workers j = some u → j ≠ k → s.workers j = some u :=
    fun hu hj => (s.setWorker_ne v hj).symm.trans hu
  have hself : ∀ {u}, (s.setWorker k v).workers k = some u → v = u :=
    fun hu => Option.some.inj ((s.setWorker_self k v).symm.trans hu)
  constructor
  · intro j u hu hp
    by_cases hj : j = k
    · subst hj
      obtain rfl := hself hu
      exact ⟨hpending hp, hphase⟩
    · exact h.pending j u (hother hu hj) hp
  · intro j u hu hr
    by_cases hj : j = k
    · subst hj
      obtain rfl := hself hu
      exact absurd hr hphase
    · exact h.reports j u (hother hu hj) hr
  · intro j ho
    obtain ⟨u, hu, hr⟩ := h.reporter j ho
    by_cases hj : j = k
    · subst hj
      obtain rfl := Option.some.inj (hw.symm.trans hu)
      rw [hchats] at hr
      cases hr
    · exact ⟨u, (s.setWorker_ne v hj).trans hu, hr⟩
  · intro j i request fate ho
    obtain ⟨u, hu, hwaits⟩ := h.joiner j i request fate ho
    by_cases hj : j = k
    · subst hj
      obtain rfl := Option.some.inj (hw.symm.trans hu)
      rw [Worker.waits, hchats] at hwaits
      cases hwaits
    · exact ⟨u, (s.setWorker_ne v hj).trans hu, hwaits⟩
  · exact h.spawner

theorem Calmed.step {s t : State} (h : Calmed s) (hs : Step timeoutSec s e t)
    (hgood : Heeded s e) : Calmed t := by
  have hquiet : s.owner = none → Quiet s.workers := fun hfree => h.quiet (by simp [hfree])
  cases hs with
  | pass later => exact ⟨h.pending, h.reports, h.reporter, h.joiner, h.spawner⟩
  | ask worker chats | answer worker chats =>
    refine h.setWorker worker chats (fun hp => ?_) (by simp)
    rw [show _ = false from hgood _ worker] at hp
    cases hp
  | cancel worker chats hit => exact h.setWorker worker chats (fun _ => rfl) (by simp)
  | status free asks | refuse free asks =>
    exact ((hquiet free).resume _).calmed ((resume_owner ..).trans free)
  | poolJson => exact h
  | spawn free asks fit found unjoined =>
    refine (((hquiet free).fill _ _ _ _).resume _).calmed ?_
    rw [resume_owner, fillSlot_owner, free]
  | @evict _ caller args fate request i free asks fit found joins =>
    refine ⟨h.pending, fun k w hw hr => absurd hr (hquiet free k w hw).2, by simp, ?_, by simp⟩
    intro k j r f ho
    cases ho
    obtain ⟨w, hw, hphase⟩ := asks
    exact ⟨w, hw, by rw [Worker.waits, hphase]⟩
  | joined owner calm gone =>
    have hworkers : Quiet s.workers := h.quiet (by simp [owner])
    exact Quiet.calmed (s := { (State.resume _ _) with owner := none })
      ((hworkers.fill _ _ _ _).resume _) rfl
  | fall owner worker lives hit =>
    obtain ⟨u, hu, hwaits⟩ := h.joiner _ _ _ _ owner
    obtain rfl := Option.some.inj (worker.symm.trans hu)
    rw [(h.pending _ _ worker hit).1] at hwaits
    cases hwaits
  | faint free worker hit calls =>
    have hwaits := (h.pending _ _ worker hit).1
    rw [Worker.waits, calls] at hwaits
    cases hwaits
  | @report w _ k response free worker answered =>
    have hcalm : w.pending = false := by
      by_contra hp
      have hwaits := (h.pending k w worker (by simpa using hp)).1
      rw [Worker.waits, answered] at hwaits
      cases hwaits
    refine ⟨fun j u hu hp => ?_, fun j u hu hr => ?_, fun j ho => ?_, by simp, by simp⟩
    · by_cases hj : j = k
      · subst hj
        obtain rfl := Option.some.inj ((State.setWorker_self ..).symm.trans hu)
        rw [show w.pending = true from hp] at hcalm
        cases hcalm
      · exact h.pending j u ((State.setWorker_ne _ _ hj).symm.trans hu) hp
    · by_cases hj : j = k
      · rw [hj]
      · have hold : s.workers j = some u := (State.setWorker_ne _ _ hj).symm.trans hu
        exact absurd hr (hquiet free j u hold).2
    · obtain rfl : k = j := Owner.reporting.inj (Option.some.inj ho)
      exact ⟨_, State.setWorker_self .., rfl⟩
  | drop owner worker reports hit => exact absurd reports (h.pending _ _ worker hit).2
  | @release w _ k owner worker reports =>
    refine Quiet.calmed (fun j u hu => ?_) rfl
    by_cases hj : j = k
    · subst hj
      obtain rfl := Option.some.inj ((State.setWorker_self ..).symm.trans hu)
      exact ⟨fun _ => rfl, by simp⟩
    · have hold : s.workers j = some u := (State.setWorker_ne _ _ hj).symm.trans hu
      refine ⟨fun hp => (h.pending j u hold hp).1, fun hr => ?_⟩
      have howner := h.reports j u hold hr
      rw [owner] at howner
      cases howner
      exact hj rfl
  | @timeout dog _ free outstanding woke =>
    refine Quiet.calmed ?_ ((watchdogFn_owner ..).trans free)
    change Quiet (watchdogFn s dog.id).workers
    rw [watchdogFn]
    split
    · exact hquiet free
    · rename_i i hi
      change Quiet (pthreadCancel s (s.slots i).thread).workers
      rw [pthreadCancel]
      split
      · exact hquiet free
      · rename_i w hw
        exact (hquiet free).update (v := { w with pending := true })
          ⟨fun _ => hgood i w hi hw, (hquiet free _ w hw).2⟩ _

/-- The pool does not lock up where cancellations are heeded away from the lock. -/
theorem pool_unlocked
    (hrun : Run (Guarded (Step timeoutSec) Heeded) (startState clock) log s) : ¬ LockedUp s := by
  have hreached : Pool s ∧ Calmed s := by
    refine hrun.invariant (P := fun s => Pool s ∧ Calmed s) ⟨start_pool clock, ?_⟩ ?_
    · exact Quiet.calmed (fun _ _ h => by cases h) rfl
    · intro r e t ⟨hpool, hcalmed⟩ ⟨hgood, hstep⟩
      exact ⟨hpool.step hstep, hcalmed.step hstep hgood⟩
  exact hreached.2.unlocked hreached.1

theorem pool_unlocked_recycled : ¬ LockedUp recycledPool := by
  have hspawns : ∀ n, n ≤ 8 → Run (Guarded (Step 1) Heeded) (startState 0)
      (List.replicate n (.call .outside sampleCall)) (crowd n) := by
    intro n
    induction n with
    | zero =>
      intro _
      have hstart : crowd 0 = startState 0 := by simp [crowd, startState]
      rw [hstart]
      exact .nil
    | succ n ih =>
      intro h
      rw [List.replicate_succ']
      exact (ih (by omega)).snoc ⟨trivial, crowd_spawn n (by omega)⟩
  obtain ⟨hanswer, hreport, hrelease, hpass⟩ := reported_steps
  obtain ⟨htimeout, hcancel, hevict, hjoined⟩ := recycled_steps
  have hcalm : Heeded (crowd 8) (.answer 0 hi) := by
    intro w hw
    cases hw
    rfl
  have hheeded : Heeded reportedPool (.timeout ⟨2, 1⟩) := by
    intro i w hi hw
    have hfound : watched reportedPool.slots 2 = some ⟨1, by decide⟩ := by decide
    obtain rfl := Option.some.inj (hfound.symm.trans hi)
    cases hw
    rfl
  have hrun := (hspawns 8 (Nat.le_refl 8)).append (.cons ⟨hcalm, hanswer⟩
    (.cons ⟨by trivial, hreport⟩ (.cons ⟨by trivial, hrelease⟩ (.cons ⟨by trivial, hpass⟩
      (.cons ⟨hheeded, htimeout⟩ (.cons ⟨by trivial, hcancel⟩ (.cons ⟨by trivial, hevict⟩
        (.single ⟨by trivial, hjoined⟩))))))))
  exact pool_unlocked hrun

theorem overwritten_drop : Step 1 overwritten (.drop 0)
    (sampleState 1 (reportSlot 1 (some "hi".toList) (timeoutSlot 1 sampleSlot))
      (sampleWorker .cancelled true) (some (.reporting 0)) []) := by
  have hstep : Step 1 overwritten (.drop 0) _ :=
    .drop rfl (sample_worker 1 _ (sampleWorker .reporting true) _ []) rfl rfl
  rw [overwritten, sample_setWorker] at hstep
  exact hstep

/-- Eight subagents run. The first has its answer and waits for the lock. -/
def fullPool : State :=
  { (crowd 8).setWorker 0 { crowdWorker 0 with phase := .answered none } with clock := 1 }

/-- Its watchdog has come first. -/
def fullTimedOut : State := { watchdogFn fullPool 1 with watchdogs := fullPool.watchdogs.erase ⟨1, 1⟩ }

/-- A ninth spawn joins the worker, which still needs the lock. -/
def fullJoining : State :=
  { fullTimedOut with
    owner := some (.joining .outside firstSlot ⟨"worker".toList, "t".toList, none⟩ (.started true)) }

theorem fullJoining_reached : ∃ log, Run (Step 1) (startState 0) log fullJoining := by
  have hlater : (0 : Int) ≤ 1 := by decide
  have hanswer : Step 1 (crowd 8) (.answer 0 none)
      ((crowd 8).setWorker 0 { crowdWorker 0 with phase := .answered none }) := .answer rfl rfl
  have hpass : Step 1 ((crowd 8).setWorker 0 { crowdWorker 0 with phase := .answered none })
      (.pass 1) fullPool := .pass hlater
  have htimeout : Step 1 fullPool (.timeout ⟨1, 1⟩) fullTimedOut :=
    .timeout rfl (by decide) (by decide)
  have hasks : Asks fullTimedOut .outside sampleCall := rfl
  have hfound : allocSlot fullTimedOut.clock fullTimedOut.slots = some firstSlot := by decide
  have hevict : Step 1 fullTimedOut (.call .outside sampleCall) fullJoining :=
    .evict rfl hasks rfl hfound rfl
  exact ⟨_, ((((crowd_reached 8 (Nat.le_refl 8)).snoc hanswer).snoc hpass).snoc htimeout).snoc hevict⟩

/-- Both ways in which the pool locks up: a spawn joins a worker that waits for the lock,
and a worker is cancelled in its log line. -/
theorem pool_locks_up :
    (∃ log, Run (Step 1) (startState 0) log fullJoining) ∧ LockedUp fullJoining ∧
    ∃ s, Run (Step 1) (startState 0) (lateLog ++ [.report 0] ++ [.drop 0]) s ∧ LockedUp s := by
  refine ⟨fullJoining_reached, Or.inl ⟨.outside, firstSlot, _, _, _, rfl, rfl, rfl⟩, _,
    (timedOut_reached.snoc timedOut_report).snoc overwritten_drop,
    Or.inr ⟨_, 0, _, rfl, rfl, rfl, rfl⟩⟩

end Dobby.Subagent
