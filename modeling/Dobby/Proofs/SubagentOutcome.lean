import Dobby.Proofs.SubagentSlots

namespace Dobby.Subagent
open CString Runs Function

/-- A slot that has ended keeps its state and its result while it keeps its subagent. -/
def Settled (s t : State) : Prop :=
  ∀ i, (s.slots i).state.terminal = true → (t.slots i).id = (s.slots i).id →
    (t.slots i).state = (s.slots i).state ∧ (t.slots i).result = (s.slots i).result

/-- An answer that reports one of the three ends. -/
def ReportsEnd (answer : Json) : Prop :=
  ∃ st : SaState, st.terminal = true ∧ answer.field "status".toList = some st.name

/-- Two answers about one id that report an end agree. -/
def Agree (s t : State) : Prop :=
  ∀ args args' target, askedFor args = some target → askedFor args' = some target →
    ReportsEnd (toolStatus s args) → ReportsEnd (toolStatus t args') →
    (toolStatus t args').field "status".toList = (toolStatus s args).field "status".toList ∧
    (toolStatus t args').field "result".toList = (toolStatus s args).field "result".toList

structure Final (s t : State) : Prop where
  settled : Settled s t
  agree : Agree s t

/-- No worker reports after its watchdog has ended its slot. -/
def InTime (s : State) (e : Event) : Prop :=
  ∀ k w, e = .report k → s.workers k = some w → (s.slots w.slot).state = .running

theorem name_injective {a b : SaState} (h : a.name = b.name) : a = b := by
  cases a <;> cases b <;> first | rfl | exact absurd h (by decide)

theorem slotAnswer_status (now : Int) (sl : Slot) :
    (slotAnswer now sl).field "status".toList = some sl.state.name := rfl

theorem slotAnswer_result (now : Int) {sl : Slot} (h : sl.state ≠ .running) :
    (slotAnswer now sl).field "result".toList =
      some (sl.result.getD "(no result)".toList) := by
  rw [slotAnswer, if_neg h]
  rfl

/-- An answer that reports an end describes a slot of the id that has ended. -/
theorem reportsEnd_slot {s : State} {args : Json} {target : Int} (hasked : askedFor args = some target)
    (h : ReportsEnd (toolStatus s args)) :
    ∃ i, ((s.slots i).id : Int) = target ∧ (s.slots i).state.terminal = true ∧
      toolStatus s args = slotAnswer s.clock (s.slots i) := by
  obtain ⟨st, hend, hstatus⟩ := h
  rw [toolStatus, hasked] at hstatus ⊢
  simp only at hstatus ⊢
  cases hi : lookup s.slots target with
  | none =>
    rw [hi] at hstatus
    cases hstatus
  | some i =>
    rw [hi] at hstatus
    simp only [slotAnswer_status, Option.some.injEq] at hstatus
    have hfound := List.find?_some hi
    simp only [Bool.and_eq_true, beq_iff_eq] at hfound
    refine ⟨i, hfound.1, ?_, rfl⟩
    rw [name_injective hstatus]
    exact hend

theorem terminal_rests {st : SaState} (h : st.terminal = true) : st ≠ .running ∧ st ≠ .idle := by
  constructor <;> rintro rfl <;> cases h

/-- Slots get new ids only. -/
structure Later (s t : State) : Prop where
  next : s.nextId ≤ t.nextId
  ids : ∀ i, (t.slots i).id = (s.slots i).id ∨ s.nextId ≤ (t.slots i).id
  settled : Settled s t

theorem Later.agree {s t : State} (h : Later s t) (hsound : Sound s) : Agree s t := by
  intro args args' target hasked hasked' hs ht
  obtain ⟨i, hi, hend, he⟩ := reportsEnd_slot hasked hs
  obtain ⟨j, hj, hend', he'⟩ := reportsEnd_slot hasked' ht
  have hid : (t.slots j).id = (s.slots i).id := by omega
  have hold : (t.slots j).id = (s.slots j).id := by
    rcases h.ids j with hold | hnew
    · exact hold
    · have := hsound.below i
      omega
  have hij : j = i := by
    rcases hsound.distinct j i (hold.symm.trans hid) with hzero | hij
    · exact absurd (hid.symm.trans (hold.trans hzero)) (hsound.used i (terminal_rests hend).2)
    · exact hij
  subst hij
  obtain ⟨hstate, hresult⟩ := h.settled j hend hid
  rw [he, he', slotAnswer_status, slotAnswer_status, slotAnswer_result _ (terminal_rests hend').1,
    slotAnswer_result _ (terminal_rests hend).1, hstate, hresult]
  exact ⟨rfl, rfl⟩

theorem Later.refl (s : State) : Later s s :=
  ⟨Nat.le_refl _, fun _ => Or.inl rfl, fun _ _ _ => ⟨rfl, rfl⟩⟩

theorem Later.step {r s t : State} (h : Later r s) (hr : Sound r) (hs : Sound s) (hheld : Held s)
    (hstep : Step timeoutSec s e t) (hgood : InTime s e) : Later r t := by
  refine ⟨Nat.le_trans h.next hstep.nextId, fun i => ?_, fun i hend hid => ?_⟩
  · cases hstep.change hs hheld i with
    | same kept =>
      rw [kept]
      exact h.ids i
    | report k w response event worker answered home written =>
      rw [written]
      exact h.ids i
    | timeout dog event found written =>
      rw [written]
      exact h.ids i
    | taken rests id lives =>
      rw [id]
      exact Or.inr h.next
  · cases hstep.change hs hheld i with
    | same kept =>
      rw [kept] at hid ⊢
      exact h.settled i hend hid
    | report k w response event worker answered home written =>
      have hrun := hgood k w event worker
      rw [written] at hid
      rw [home, (h.settled i hend hid).1] at hrun
      exact absurd hrun (terminal_rests hend).1
    | timeout dog event found written =>
      have hrun := (watched_spec found).2.1
      rw [written] at hid
      rw [(h.settled i hend hid).1] at hrun
      exact absurd hrun (terminal_rests hend).1
    | taken rests id lives =>
      have := hr.below i
      have := h.next
      omega

/-- A report that comes too late changes the state of its slot. -/
theorem settled_inTime {s t : State} (hs : Pool s) (hstep : Step timeoutSec s e t)
    (h : Settled s t) : InTime s e := by
  rintro k w rfl hw
  cases hstep with
  | @report w' _ _ response free worker answered =>
    obtain rfl := Option.some.inj (hw.symm.trans worker)
    have htied := hs.tied k w hw (by rw [Worker.active, answered])
    by_contra hrun
    have htimeout : (s.slots w.slot).state = .timeout := by
      rw [htied] at hrun ⊢
      split
      · rfl
      · rename_i hp
        exact absurd (if_neg hp) hrun
    have hself := s.setSlot_self w.slot (reportSlot s.clock response (s.slots w.slot))
    have hid : ((s.setSlot w.slot (reportSlot s.clock response (s.slots w.slot))).slots w.slot).id =
        (s.slots w.slot).id := by
      rw [hself]
      rfl
    have hkept := (h w.slot (by rw [htimeout]; rfl) hid).1
    have hnew : outcomeOf response = .timeout :=
      (congrArg Slot.state hself).symm.trans (hkept.trans htimeout)
    rw [outcomeOf] at hnew
    split at hnew <;> cases hnew

theorem step_unique {s t u : State} (h₁ : Step timeoutSec s e t) (h₂ : Step timeoutSec s e u) :
    t = u := by
  cases h₁ <;> cases h₂ <;> simp_all

/-- A run keeps all ends final exactly where none of its workers reports after its
watchdog has ended its slot. -/
theorem ends_final_iff (hrun : Run (Step timeoutSec) (startState clock) log t) :
    Along (Step timeoutSec) Final (startState clock) log ↔
      Run (Guarded (Step timeoutSec) InTime) (startState clock) log t := by
  have hinv : ∀ s e t, Pool s → Step timeoutSec s e t → Pool t := fun _ _ _ h hs => h.step hs
  constructor
  · refine guarded_of_along hinv (fun s e t hs hstep hfinal => ?_) (start_pool clock) hrun
    exact settled_inTime hs hstep hfinal.settled
  · refine along_of_guarded (fun _ _ _ _ => step_unique) hinv (fun s q t hs hq => ?_)
      (start_pool clock)
    have hlater : Pool t ∧ Later s t := by
      refine hq.invariant (P := fun t => Pool t ∧ Later s t) ⟨hs, .refl s⟩ ?_
      intro r e u ⟨hr, hlater⟩ ⟨hgood, hstep⟩
      exact ⟨hr.step hstep, hlater.step hs.sound hr.sound hr.held hstep hgood⟩
    exact ⟨hlater.2.settled, hlater.2.agree hs.sound⟩

def lateLog : List Event :=
  [.call .outside sampleCall, .answer 0 (some "hi".toList), .pass 1, .timeout ⟨1, 1⟩]

def lateWorker (pending : Bool) : Worker := sampleWorker (.answered (some "hi".toList)) pending

/-- The watchdog has ended the slot of a worker that waits for the lock. -/
def timedOut : State := sampleState 1 (timeoutSlot 1 sampleSlot) (lateWorker true) none []

theorem sample_timeout : Step 1 (sampleState 1 sampleSlot (lateWorker false) none [⟨1, 1⟩])
    (.timeout ⟨1, 1⟩) timedOut := by
  have hstep : Step 1 (sampleState 1 sampleSlot (lateWorker false) none [⟨1, 1⟩])
      (.timeout ⟨1, 1⟩) _ := .timeout rfl List.mem_cons_self (Int.le_refl _)
  have hfound : watchdogFn (sampleState 1 sampleSlot (lateWorker false) none [⟨1, 1⟩]) 1 =
      ((sampleState 1 sampleSlot (lateWorker false) none [⟨1, 1⟩]).setWorker 0
        (lateWorker true)).setSlot firstSlot (timeoutSlot 1 sampleSlot) := rfl
  rw [hfound, sample_setWorker, sample_setSlot] at hstep
  exact hstep

theorem timedOut_reached : Run (Step 1) (startState 0) lateLog timedOut := by
  have hlater : (0 : Int) ≤ 1 := by decide
  exact (((Run.single sample_spawn).snoc (sample_answer _)).snoc (.pass hlater)).snoc sample_timeout

/-- The worker has got the lock after its watchdog. -/
def overwritten : State :=
  sampleState 1 (reportSlot 1 (some "hi".toList) (timeoutSlot 1 sampleSlot))
    (sampleWorker .reporting true) (some (.reporting 0)) []

theorem timedOut_report : Step 1 timedOut (.report 0) overwritten := by
  have hstep : Step 1 timedOut (.report 0) _ :=
    .report rfl (sample_worker 1 (timeoutSlot 1 sampleSlot) (lateWorker true) none []) rfl
  have hslot : timedOut.setSlot (lateWorker true).slot
      (reportSlot timedOut.clock (some "hi".toList) (timedOut.slots (lateWorker true).slot)) =
      sampleState 1 (reportSlot 1 (some "hi".toList) (timeoutSlot 1 sampleSlot)) (lateWorker true)
        none [] := sample_setSlot ..
  rw [hslot, sample_setWorker] at hstep
  exact hstep

/-- A run in which an end is not final: a timeout turns into a result. -/
theorem late_report_overwrites :
    Run (Step 1) (startState 0) (lateLog ++ [.report 0]) overwritten ∧
      (timedOut.slots firstSlot).state = .timeout ∧ (overwritten.slots firstSlot).state = .done ∧
      ¬ Along (Step 1) Final (startState 0) (lateLog ++ [.report 0]) := by
  refine ⟨timedOut_reached.snoc timedOut_report, rfl, rfl, fun halong => ?_⟩
  have hfinal := halong lateLog [.report 0] [] timedOut overwritten rfl timedOut_reached
    (.single timedOut_report)
  have hstate := (hfinal.settled firstSlot rfl rfl).1
  cases hstate

theorem ends_final_sample :
    Along (Step 1) Final (startState 0) lateLog ↔
      Run (Guarded (Step 1) InTime) (startState 0) lateLog timedOut :=
  ends_final_iff timedOut_reached

end Dobby.Subagent
