import Dobby.Base.Runs
import Dobby.Proofs.SubagentPool

namespace Dobby.Subagent
open CString Runs Function

/-- The slot of an active worker runs until its watchdog cancels the worker. -/
def Tied (slots : Slots) (workers : Nat → Option Worker) : Prop :=
  ∀ k w, workers k = some w → w.active = true →
    (slots w.slot).state = if w.pending then .timeout else .running

theorem Tied.worker {slots : Slots} {workers : Nat → Option Worker} (h : Tied slots workers)
    (hw : workers k = some w) {v : Worker} (hslot : v.slot = w.slot) (hpending : v.pending = w.pending)
    (hactive : v.active = true → w.active = true) : Tied slots (update workers k (some v)) := by
  intro j u hu ha
  by_cases hj : j = k
  · subst hj
    rw [update_self] at hu
    cases hu
    rw [hslot, hpending]
    exact h j w hw (hactive ha)
  · rw [update_of_ne hj] at hu
    exact h j u hu ha

theorem Tied.slot {slots : Slots} {workers : Nat → Option Worker} (h : Tied slots workers)
    {i : Fin maxSlots} (hnone : ∀ k w, workers k = some w → w.active = true → w.slot ≠ i) (sl : Slot) :
    Tied (update slots i sl) workers := by
  intro k w hw ha
  rw [update_of_ne (hnone k w hw ha)]
  exact h k w hw ha

theorem Tied.new {slots : Slots} {workers : Nat → Option Worker} (h : Tied slots workers)
    {v : Worker} (hpending : v.pending = false) (hrun : (slots v.slot).state = .running) (k : Nat) :
    Tied slots (update workers k (some v)) := by
  intro j u hu ha
  by_cases hj : j = k
  · subst hj
    rw [update_self] at hu
    cases hu
    rw [hpending]
    exact hrun
  · rw [update_of_ne hj] at hu
    exact h j u hu ha

theorem Tied.setPhase {s : State} (h : Tied s.slots s.workers) {k : Nat} {phase : Phase}
    (hactive : ∀ w, s.workers k = some w → w.active = true) :
    Tied (s.setPhase k phase).slots (s.setPhase k phase).workers := by
  rw [State.setPhase]
  cases hw : s.workers k with
  | none => exact h
  | some w => exact h.worker hw rfl rfl (fun _ => hactive w hw)

theorem Tied.recycle {s : State} (h : Tied s.slots s.workers) {i : Fin maxSlots}
    (hnone : ∀ k w, s.workers k = some w → w.active = true → w.slot ≠ i) :
    Tied (s.recycle i).slots (s.recycle i).workers := by
  rw [State.recycle]
  split
  · exact h
  · exact h.slot hnone _

theorem Tied.fill {s : State} (h : Tied s.slots s.workers) {i : Fin maxSlots}
    (hnone : ∀ k w, s.workers k = some w → w.active = true → w.slot ≠ i) (timeoutSec : Int)
    (request : Request) (fate : Fate) :
    Tied (fillSlot timeoutSec s i request fate).slots
      (fillSlot timeoutSec s i request fate).workers := by
  cases fate with
  | agentFailed | threadFailed => exact h.slot hnone _
  | started watched =>
    refine (h.slot hnone _).new rfl ?_ s.created
    change (update s.slots i _ i).state = .running
    rw [update_self]
    rfl

/-- The worker that a watchdog cancels is the one of the slot it ends. -/
theorem Tied.watchdog {s : State} (h : Tied s.slots s.workers) (hsound : Sound s) (id : Nat) :
    Tied (watchdogFn s id).slots (watchdogFn s id).workers := by
  rw [watchdogFn]
  split
  · exact h
  · rename_i i hi
    obtain ⟨_, _, hvalid⟩ := watched_spec hi
    obtain ⟨w, hw, hslot, _⟩ := hsound.crew i hvalid
    rw [pthreadCancel, hw]
    intro k u hu ha
    by_cases hk : k = (s.slots i).thread
    · subst hk
      obtain rfl := Option.some.inj ((s.setWorker_self _ _).symm.trans hu)
      change (update s.slots i _ w.slot).state = .timeout
      rw [hslot, update_self]
      rfl
    · have hold : s.workers k = some u := (s.setWorker_ne _ hk).symm.trans hu
      have hne : u.slot ≠ i := by
        rintro rfl
        exact hk (hsound.home k u hold (Worker.active_lives ha)).2.1.symm
      refine (congrArg Slot.state (update_of_ne hne ..)).trans ?_
      exact h k u hold ha

theorem Tied.resume {s : State} (h : Tied s.slots s.workers) {caller : Caller}
    (hactive : Active s caller) : Tied (s.resume caller).slots (s.resume caller).workers := by
  cases caller with
  | outside => exact h
  | worker k => exact h.setPhase hactive

theorem Tied.spawn {s : State} (h : Tied s.slots s.workers) (hsound : Sound s) {i : Fin maxSlots}
    (hgone : (s.slots i).threadValid = true →
      ∀ w, s.workers (s.slots i).thread = some w → w.ended = true)
    {caller : Caller} (hactive : Active s caller) (timeoutSec : Int) (request : Request)
    (fate : Fate) :
    Tied ((fillSlot timeoutSec (s.recycle i) i request fate).resume caller).slots
      ((fillSlot timeoutSec (s.recycle i) i request fate).resume caller).workers := by
  have hnone : ∀ k w, s.workers k = some w → w.active = true → w.slot ≠ i :=
    fun k w hw ha => hsound.vacant hgone k w hw (Worker.active_lives ha)
  refine ((h.recycle hnone).fill (fun k w hw => ?_) _ _ _).resume (hactive.fill _ _ _ _)
  rw [recycle_workers] at hw
  exact hnone k w hw

theorem Tied.step {s t : State} (h : Tied s.slots s.workers) (hsound : Sound s) (hheld : Held s)
    (hs : Step timeoutSec s e t) : Tied t.slots t.workers := by
  cases hs with
  | pass | poolJson | evict => exact h
  | ask worker chats | answer worker chats =>
    exact h.worker worker rfl rfl (fun _ => by rw [Worker.active, chats])
  | cancel worker | fall _ worker | drop _ worker | release _ worker =>
    exact h.worker worker rfl rfl (fun h => by cases h)
  | status _ asks | refuse _ asks => exact h.resume asks.active
  | spawn free asks fit found unjoined =>
    exact h.spawn hsound (hsound.gone unjoined) asks.active _ _ _
  | joined owner calm gone =>
    exact h.spawn hsound (fun _ => gone) (hheld.active owner calm) _ _ _
  | @faint w args request i _ k fate free worker hit calls fit found unjoined =>
    have hnone : ∀ j u, s.workers j = some u → u.active = true → u.slot ≠ i :=
      fun j u hu ha => hsound.vacant (hsound.gone unjoined) j u hu (Worker.active_lives ha)
    have hworkers := recycle_workers s i
    have hslot := (h.recycle hnone).slot (by rw [hworkers]; exact hnone)
      (startSlot timeoutSec s request ((s.recycle i).slots i))
    have hold : (s.recycle i).workers k = some w := by
      rw [hworkers]
      exact worker
    exact hslot.worker hold rfl rfl (fun h => by cases h)
  | @report w _ k response free worker answered =>
    have hlive : w.ended = false := by rw [Worker.ended, answered]
    have hworker := h.worker (v := { w with phase := .reporting }) worker rfl rfl (fun h => by cases h)
    refine hworker.slot (fun j u hu ha hslot => ?_) _
    by_cases hj : j = k
    · subst hj
      rw [update_self] at hu
      cases hu
      cases ha
    · rw [update_of_ne hj] at hu
      have hthread := (hsound.home j u hu (Worker.active_lives ha)).2.1
      rw [hslot, (hsound.home k w worker hlive).2.1] at hthread
      exact hj hthread.symm
  | timeout => exact h.watchdog hsound _

/-- The invariants of a pool. -/
structure Pool (s : State) : Prop where
  sound : Sound s
  held : Held s
  tied : Tied s.slots s.workers

theorem start_pool (clock : Int) : Pool (startState clock) :=
  ⟨start_sound clock, .unjoined (by simp [startState]), fun _ _ h => by cases h⟩

theorem Pool.step {s t : State} (h : Pool s) (hs : Step timeoutSec s e t) : Pool t :=
  ⟨h.sound.step h.held hs, h.held.step h.sound hs, h.tied.step h.sound h.held hs⟩

theorem reached_pool (hrun : Run (Step timeoutSec) (startState clock) log s) : Pool s :=
  hrun.invariant (start_pool clock) (fun _ _ _ h hs => h.step hs)

end Dobby.Subagent
