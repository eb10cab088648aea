import Dobby.Proofs.SubagentWorkers

namespace Dobby.Subagent
open CString Runs Function

theorem resume_slots (s : State) (caller : Caller) : (s.resume caller).slots = s.slots := by
  cases caller with
  | outside => rfl
  | worker k =>
    rw [State.resume, State.setPhase]
    split <;> rfl

theorem resume_nextId (s : State) (caller : Caller) : (s.resume caller).nextId = s.nextId := by
  cases caller with
  | outside => rfl
  | worker k =>
    rw [State.resume, State.setPhase]
    split <;> rfl

theorem recycle_ne {s : State} {i j : Fin maxSlots} (hj : j ≠ i) :
    (s.recycle i).slots j = s.slots j := by
  rw [State.recycle]
  split
  · rfl
  · exact s.setSlot_ne _ hj

theorem fillSlot_ne (timeoutSec : Int) (s : State) {i j : Fin maxSlots} (hj : j ≠ i)
    (request : Request) (fate : Fate) :
    (fillSlot timeoutSec s i request fate).slots j = s.slots j := by
  cases fate <;> exact s.setSlot_ne _ hj

/-- A spawn that goes on to the end or fails leaves its slot with a new id. -/
theorem fillSlot_self (timeoutSec : Int) (s : State) (i : Fin maxSlots) (request : Request)
    (fate : Fate) : ((fillSlot timeoutSec s i request fate).slots i).id = s.nextId ∧
      ((fillSlot timeoutSec s i request fate).slots i).state.terminal = false ∧
      (fillSlot timeoutSec s i request fate).nextId = s.nextId + 1 := by
  cases fate <;> simp [fillSlot, State.setSlot, startSlot, slotReset, SaState.terminal]

/-- What a step does to a slot. -/
inductive Change (s : State) (e : Event) (t : State) (i : Fin maxSlots) : Prop where
  | same (kept : t.slots i = s.slots i)
  | report (k : Nat) (w : Worker) (response : Option Str) (event : e = .report k)
      (worker : s.workers k = some w) (answered : w.phase = .answered response)
      (home : w.slot = i) (written : t.slots i = reportSlot s.clock response (s.slots i))
  | timeout (dog : Watchdog) (event : e = .timeout dog) (found : watched s.slots dog.id = some i)
      (written : t.slots i = timeoutSlot s.clock (s.slots i))
  | taken (rests : (s.slots i).state ≠ .running) (id : (t.slots i).id = s.nextId)
      (lives : (t.slots i).state.terminal = false)

theorem allocated_rests {s : State} (h : Sound s) {i : Fin maxSlots}
    (hfound : allocSlot s.clock s.slots = some i) : (s.slots i).state ≠ .running := by
  have hspec := allocSlot_spec h.past
  rw [hfound] at hspec
  intro hrun
  rcases hspec with hidle | ⟨_, hend, _⟩
  · rw [hrun] at hidle
    cases hidle
  · rw [hrun] at hend
    cases hend

theorem change_taken {s t : State} {e : Event} {i : Fin maxSlots}
    (hrests : (s.slots i).state ≠ .running) (hid : (t.slots i).id = s.nextId)
    (hlive : (t.slots i).state.terminal = false) (hne : ∀ j, j ≠ i → t.slots j = s.slots j)
    (j : Fin maxSlots) : Change s e t j := by
  by_cases hj : j = i
  · subst hj
    exact .taken hrests hid hlive
  · exact .same (hne j hj)

theorem Step.change {s t : State} (h : Sound s) (hheld : Held s) (hs : Step timeoutSec s e t)
    (j : Fin maxSlots) : Change s e t j := by
  have hfill : ∀ i request fate (caller : Caller), (s.slots i).state ≠ .running →
      t.slots = ((fillSlot timeoutSec (s.recycle i) i request fate).resume caller).slots →
      Change s e t j := by
    intro i request fate caller hrests ht
    rw [resume_slots] at ht
    obtain ⟨hid, hlive, _⟩ := fillSlot_self timeoutSec (s.recycle i) i request fate
    refine change_taken hrests ?_ ?_ (fun k hk => ?_) j
    · rw [ht, hid, recycle_nextId]
    · rw [ht, hlive]
    · rw [ht, fillSlot_ne timeoutSec _ hk, recycle_ne hk]
  cases hs with
  | pass | ask _ _ | answer _ _ | cancel _ _ | poolJson | evict | fall | drop | release =>
    exact .same rfl
  | status _ asks | refuse _ asks => exact .same (congrFun (resume_slots ..) j)
  | spawn free asks fit found unjoined => exact hfill _ _ _ _ (allocated_rests h found) rfl
  | joined owner calm gone =>
    refine hfill _ _ _ _ (fun hrun => ?_) rfl
    have hend := (hheld.claimed _ _ _ _ owner).1
    rw [hrun] at hend
    cases hend
  | @faint w args request i _ k fate free worker hit calls fit found unjoined =>
    have hself := (s.recycle i).setSlot_self i
      (startSlot timeoutSec s request ((s.recycle i).slots i))
    refine change_taken (allocated_rests h found) ?_ ?_ (fun k hk => ?_) j
    · exact congrArg Slot.id hself
    · exact congrArg (fun sl => sl.state.terminal) hself
    · exact (State.setSlot_ne _ _ hk).trans (recycle_ne hk)
  | @report w _ k response free worker answered =>
    by_cases hj : j = w.slot
    · subst hj
      exact .report k w response rfl worker answered rfl (s.setSlot_self ..)
    · exact .same (s.setSlot_ne _ hj)
  | @timeout dog _ free outstanding woke =>
    cases hi : watched s.slots dog.id with
    | none => exact .same (by rw [watchdogFn, hi])
    | some i =>
      by_cases hj : j = i
      · subst hj
        exact .timeout dog rfl hi (by rw [watchdogFn, hi]; exact State.setSlot_self ..)
      · refine .same ?_
        rw [watchdogFn, hi]
        refine (State.setSlot_ne _ _ hj).trans ?_
        rw [pthreadCancel_slots]

theorem Step.nextId {s t : State} (hs : Step timeoutSec s e t) : s.nextId ≤ t.nextId := by
  cases hs with
  | pass | ask _ _ | answer _ _ | cancel _ _ | poolJson | evict | fall | drop | release | report =>
    exact Nat.le_refl _
  | status _ asks | refuse _ asks => exact Nat.le_of_eq (resume_nextId ..).symm
  | spawn free asks fit found unjoined =>
    rw [resume_nextId, (fillSlot_self ..).2.2, recycle_nextId]
    exact Nat.le_succ _
  | joined owner calm gone =>
    change s.nextId ≤ (State.resume _ _).nextId
    rw [resume_nextId, (fillSlot_self ..).2.2, recycle_nextId]
    exact Nat.le_succ _
  | faint => exact Nat.le_succ _
  | timeout free =>
    change s.nextId ≤ (watchdogFn s _).nextId
    rw [watchdogFn]
    split
    · exact Nat.le_refl _
    · rw [State.setSlot, pthreadCancel]
      split <;> exact Nat.le_refl _

/-- The steps that a worker takes for itself, and not in a call of a tool. -/
def Event.ofWorker (k : Nat) : Event → Prop
  | .answer h _ | .cancel h | .report h | .drop h | .release h => h = k
  | _ => False

/-- What is asked of the pool in a state: about the ids, the writes of workers, the
reach of watchdogs, running slots, and what `alloc_slot` settles on. -/
structure Kept (timeoutSec : Int) (s : State) : Prop where
  distinct : ∀ i j, (s.slots i).state ≠ .idle → (s.slots j).state ≠ .idle →
    (s.slots i).id = (s.slots j).id → i = j
  writes : ∀ k w e t j, s.workers k = some w → e.ofWorker k → Step timeoutSec s e t →
    t.slots j ≠ s.slots j → (s.slots j).id = w.madeFor ∧ (t.slots j).id = w.madeFor
  cancels : ∀ dog t k w v, Step timeoutSec s (.timeout dog) t → s.workers k = some w →
    t.workers k = some v → v ≠ w → w.madeFor = dog.id
  runs : ∀ e t i, Step timeoutSec s e t → (s.slots i).state = .running →
    (t.slots i).id = (s.slots i).id ∧ (t.slots i).state ≠ .idle
  fails : allocSlot s.clock s.slots = none ↔ ∀ i, (s.slots i).state = .running
  picks : ∀ i, allocSlot s.clock s.slots = some i → (s.slots i).state = .idle ∨
    (∀ j, (s.slots j).state ≠ .idle) ∧ (s.slots i).state.terminal = true ∧
      ∀ j, (s.slots j).state.terminal = true → (s.slots i).finishedAt ≤ (s.slots j).finishedAt

/-- A worker that lives is in the slot of its id. -/
theorem Sound.ident {s : State} (h : Sound s) (hw : s.workers k = some w)
    (hlive : w.ended = false) : (s.slots w.slot).id = w.madeFor := by
  obtain ⟨_, hthread, hvalid⟩ := h.home k w hw hlive
  obtain ⟨u, hu, _, hmade⟩ := h.crew w.slot hvalid
  rw [hthread, hw] at hu
  cases hu
  exact hmade.symm

/-- A cancellation reaches the one thread that it names. -/
theorem pthreadCancel_ne {s : State} {j k : Nat} (hk : k ≠ j) :
    (pthreadCancel s j).workers k = s.workers k := by
  rw [pthreadCancel]
  split
  · rfl
  · exact s.setWorker_ne _ hk

theorem Sound.kept {s : State} (h : Sound s) (hheld : Held s) : Kept timeoutSec s where
  distinct i j hi _ heq := (h.distinct i j heq).resolve_left (h.used i hi)
  writes k w e t j hw hown hs hne := by
    cases hs with
    | @report w' _ h' response free worker answered =>
      obtain rfl : h' = k := hown
      obtain rfl := Option.some.inj (hw.symm.trans worker)
      have hid := h.ident hw (by rw [Worker.ended, answered])
      by_cases hj : j = w.slot
      · subst hj
        have hself := s.setSlot_self w.slot (reportSlot s.clock response (s.slots w.slot))
        exact ⟨hid, (congrArg Slot.id hself).trans hid⟩
      · exact absurd (s.setSlot_ne _ hj) hne
    | answer | cancel | drop | release => exact absurd rfl hne
    | pass | ask | status | poolJson | refuse | spawn | evict | joined | fall | faint | timeout =>
      exact hown.elim
  cancels dog t k w v hs hw hv hne := by
    cases hs with
    | timeout free outstanding woke =>
      change (watchdogFn s dog.id).workers k = some v at hv
      rw [watchdogFn] at hv
      split at hv
      · exact absurd (Option.some.inj (hv.symm.trans hw)) hne
      · rename_i i hi
        obtain ⟨hid, _, hvalid⟩ := watched_spec hi
        obtain ⟨u, hu, _, hmade⟩ := h.crew i hvalid
        by_cases hk : k = (s.slots i).thread
        · rw [hk, hu] at hw
          cases hw
          exact hmade.trans hid
        · have hsame : s.workers k = some v := (pthreadCancel_ne hk).symm.trans hv
          exact absurd (Option.some.inj (hsame.symm.trans hw)) hne
  runs e t i hs hrun := by
    cases hs.change h hheld i with
    | same kept =>
      rw [kept, hrun]
      exact ⟨rfl, by simp⟩
    | report k w response event worker answered home written =>
      rw [written]
      refine ⟨rfl, fun hidle => ?_⟩
      have hend := outcomeOf_terminal response
      rw [show outcomeOf response = .idle from hidle] at hend
      cases hend
    | timeout dog event found written =>
      rw [written]
      exact ⟨rfl, by simp [timeoutSlot]⟩
    | taken rests => exact absurd hrun rests
  fails := by
    have hspec := allocSlot_spec h.past
    constructor
    · intro hnone
      rwa [hnone] at hspec
    · intro hrun
      cases hfound : allocSlot s.clock s.slots with
      | none => rfl
      | some i => exact absurd (hrun i) (allocated_rests h hfound)
  picks i hfound := by
    have hspec := allocSlot_spec h.past
    rwa [hfound] at hspec

/-- The ids, writes, cancellations and evictions of a pool are in order in every state
of every run. -/
theorem pool_kept (hrun : Run (Step timeoutSec) (startState clock) log s) : Kept timeoutSec s := by
  have hpool := reached_pool hrun
  exact hpool.sound.kept hpool.held

def sampleCall : Call := .spawn (.object [("task".toList, .string "t".toList)]) (.started true)

def sampleSlot : Slot :=
  ⟨1, .running, some "worker".toList, some "t".toList, none, none, 0, 0, 1, 0, true⟩

def firstSlot : Fin maxSlots := ⟨0, by decide⟩

def sampleWorker (phase : Phase) (pending : Bool) : Worker := ⟨1, firstSlot, phase, pending⟩

/-- After the first spawn, at a time, with the worker and its slot in some state. -/
def sampleState (clock : Int) (sl : Slot) (w : Worker) (owner : Option Owner)
    (watchdogs : List Watchdog) : State :=
  ⟨clock, update (fun _ => emptySlot) firstSlot sl, 2, owner, update (fun _ => none) 0 (some w), 1,
    watchdogs⟩

theorem sample_worker (clock : Int) (sl : Slot) (w : Worker) (owner : Option Owner)
    (watchdogs : List Watchdog) :
    (sampleState clock sl w owner watchdogs).workers 0 = some w := rfl

theorem sample_setWorker (clock : Int) (sl : Slot) (w v : Worker) (owner : Option Owner)
    (watchdogs : List Watchdog) : (sampleState clock sl w owner watchdogs).setWorker 0 v =
      sampleState clock sl v owner watchdogs := by
  rw [State.setWorker, sampleState, update_idem]
  rfl

theorem sample_setSlot (clock : Int) (sl sl' : Slot) (w : Worker) (owner : Option Owner)
    (watchdogs : List Watchdog) : (sampleState clock sl w owner watchdogs).setSlot firstSlot sl' =
      sampleState clock sl' w owner watchdogs := by
  rw [State.setSlot, sampleState, update_idem]
  rfl

theorem sample_spawn : Step 1 (startState 0) (.call .outside sampleCall)
    (sampleState 0 sampleSlot (sampleWorker .chatting false) none [⟨1, 1⟩]) := by
  have hasks : Asks (startState 0) .outside sampleCall := rfl
  exact .spawn rfl hasks rfl rfl rfl

theorem sample_answer (response : Option Str) :
    Step 1 (sampleState 0 sampleSlot (sampleWorker .chatting false) none [⟨1, 1⟩])
      (.answer 0 response)
      (sampleState 0 sampleSlot (sampleWorker (.answered response) false) none [⟨1, 1⟩]) := by
  have hstep : Step 1 _ (.answer 0 response) _ :=
    .answer (sample_worker 0 sampleSlot (sampleWorker .chatting false) none [⟨1, 1⟩]) rfl
  rw [sample_setWorker] at hstep
  exact hstep

def crowdSlot (k : Nat) : Slot :=
  ⟨k + 1, .running, some "worker".toList, some "t".toList, none, none, 0, 0, 1, k, true⟩

def crowdWorker (k : Nat) : Worker := ⟨k + 1, ⟨k % 8, Nat.mod_lt k (by decide)⟩, .chatting, false⟩

/-- The pool after some spawns that found idle slots. -/
def crowd (n : Nat) : State :=
  { clock := 0
    slots := fun i => if i.val < n then crowdSlot i else emptySlot
    nextId := n + 1
    owner := none
    workers := fun k => if k < n then some (crowdWorker k) else none
    created := n
    watchdogs := (List.range n).map (fun k => ⟨k + 1, 1⟩) }

theorem crowd_fill (n : Nat) (h : n < 8) :
    fillSlot 1 (crowd n) ⟨n, h⟩ ⟨"worker".toList, "t".toList, none⟩ (.started true) =
      crowd (n + 1) := by
  have hidle : (crowd n).slots ⟨n, h⟩ = emptySlot := if_neg (Nat.lt_irrefl n)
  have hslots : update (crowd n).slots ⟨n, h⟩ (crowdSlot n) = (crowd (n + 1)).slots := by
    funext i
    by_cases hi : i = ⟨n, h⟩
    · rw [hi, update_self]
      exact (if_pos (Nat.lt_succ_self n)).symm
    · have hne : i.val ≠ n := fun he => hi (Fin.ext he)
      rw [update_of_ne hi]
      have hiff : i.val < n ↔ i.val < n + 1 := by omega
      simp only [crowd, hiff]
  have hworkers : update (crowd n).workers n (some ⟨n + 1, ⟨n, h⟩, .chatting, false⟩) =
      (crowd (n + 1)).workers := by
    funext k
    by_cases hk : k = n
    · simp [hk, crowd, crowdWorker, Nat.mod_eq_of_lt h]
    · have hiff : k < n ↔ k < n + 1 := by omega
      simp only [update_of_ne hk, crowd, hiff]
  have hdogs : (crowd n).watchdogs ++ [⟨n + 1, 1⟩] = (crowd (n + 1)).watchdogs := by
    simp [crowd, List.range_succ]
  rw [fillSlot, hidle]
  change State.mk 0 (update (crowd n).slots ⟨n, h⟩ (crowdSlot n)) (n + 2) none
    (update (crowd n).workers n (some ⟨n + 1, ⟨n, h⟩, .chatting, false⟩)) (n + 1)
    ((crowd n).watchdogs ++ [⟨n + 1, 1⟩]) = _
  rw [hslots, hworkers, hdogs]
  rfl

theorem crowd_spawn (n : Nat) (h : n < 8) :
    Step 1 (crowd n) (.call .outside sampleCall) (crowd (n + 1)) := by
  have hasks : Asks (crowd n) .outside sampleCall := rfl
  have hfound : ∀ n, (h : n < 8) → allocSlot (crowd n).clock (crowd n).slots = some ⟨n, h⟩ := by
    decide
  have hidle : (crowd n).slots ⟨n, h⟩ = emptySlot := if_neg (Nat.lt_irrefl n)
  have hrecycle : (crowd n).recycle ⟨n, h⟩ = crowd n := if_pos (by rw [hidle]; rfl)
  have hfit : requestOf (.object [("task".toList, .string "t".toList)]) =
    some ⟨"worker".toList, "t".toList, none⟩ := rfl
  have hfree : ((crowd n).slots ⟨n, h⟩).joins = false := by
    rw [hidle]
    rfl
  have hstep : Step 1 (crowd n) (.call .outside sampleCall) _ :=
    .spawn rfl hasks hfit (hfound n h) hfree
  rw [hrecycle, crowd_fill n h] at hstep
  exact hstep

theorem crowd_reached (n : Nat) (h : n ≤ 8) :
    Run (Step 1) (startState 0) (List.replicate n (.call .outside sampleCall)) (crowd n) := by
  induction n with
  | zero =>
    have hstart : crowd 0 = startState 0 := by simp [crowd, startState]
    rw [hstart]
    exact .nil
  | succ n ih =>
    rw [List.replicate_succ']
    exact (ih (by omega)).snoc (crowd_spawn n (by omega))

def hi : Option Str := some "hi".toList

/-- Eight subagents run, and the first has its answer. -/
def answeredPool : State := (crowd 8).setWorker 0 { crowdWorker 0 with phase := .answered hi }

def reportingPool : State :=
  { (answeredPool.setSlot firstSlot (reportSlot 0 hi (crowdSlot 0))).setWorker 0
      { crowdWorker 0 with phase := .reporting } with
    owner := some (.reporting 0) }

/-- A second later it has reported. -/
def reportedPool : State :=
  { reportingPool.setWorker 0 { crowdWorker 0 with phase := .returned } with
    owner := none
    clock := 1 }

/-- The watchdog of the second subagent has come, -/
def watchedPool : State :=
  { watchdogFn reportedPool 2 with watchdogs := reportedPool.watchdogs.erase ⟨2, 1⟩ }

/-- and its worker is gone. -/
def cancelledPool : State :=
  watchedPool.setWorker 1 { crowdWorker 1 with phase := .cancelled, pending := true }

/-- A ninth spawn joins the worker of the first and takes its slot. -/
def joiningPool : State :=
  { cancelledPool with
    owner := some (.joining .outside firstSlot ⟨"worker".toList, "t".toList, none⟩ (.started true)) }

def recycledPool : State :=
  { fillSlot 1 (joiningPool.recycle firstSlot) firstSlot ⟨"worker".toList, "t".toList, none⟩
      (.started true) with
    owner := none }

theorem reported_steps : Step 1 (crowd 8) (.answer 0 hi) answeredPool ∧
    Step 1 answeredPool (.report 0) reportingPool ∧
    Step 1 reportingPool (.release 0) { reportedPool with clock := 0 } ∧
    Step 1 { reportedPool with clock := 0 } (.pass 1) reportedPool :=
  ⟨.answer rfl rfl,
    .report (w := { crowdWorker 0 with phase := .answered hi }) rfl rfl (show _ = Phase.answered hi from rfl),
    .release (w := { crowdWorker 0 with phase := .reporting }) rfl rfl rfl, .pass (by decide)⟩

theorem recycled_steps : Step 1 reportedPool (.timeout ⟨2, 1⟩) watchedPool ∧
    Step 1 watchedPool (.cancel 1) cancelledPool ∧
    Step 1 cancelledPool (.call .outside sampleCall) joiningPool ∧
    Step 1 joiningPool .joined recycledPool := by
  have hfound : allocSlot cancelledPool.clock cancelledPool.slots = some firstSlot := by decide
  have hgone : ∀ w, joiningPool.workers (joiningPool.slots firstSlot).thread = some w →
      w.ended = true := by
    intro w hw
    cases hw
    rfl
  exact ⟨.timeout rfl (by decide) (by decide),
    .cancel (w := { crowdWorker 1 with pending := true }) rfl rfl rfl,
    .evict rfl rfl rfl hfound rfl, .joined rfl (show Calm joiningPool .outside from trivial) hgone⟩

def recycledLog : List Event :=
  List.replicate 8 (.call .outside sampleCall) ++ [.answer 0 hi, .report 0, .release 0, .pass 1,
    .timeout ⟨2, 1⟩, .cancel 1, .call .outside sampleCall, .joined]

theorem recycled_run : Run (Step 1) (startState 0) recycledLog recycledPool := by
  obtain ⟨hanswer, hreport, hrelease, hpass⟩ := reported_steps
  obtain ⟨htimeout, hcancel, hevict, hjoined⟩ := recycled_steps
  exact (crowd_reached 8 (Nat.le_refl 8)).append (.cons hanswer (.cons hreport (.cons hrelease
    (.cons hpass (.cons htimeout (.cons hcancel (.cons hevict (.single hjoined))))))))

theorem pool_kept_recycled : (recycledPool.slots firstSlot).id = 9 ∧
    (recycledPool.slots ⟨1, by decide⟩).state = .timeout ∧ Kept 1 recycledPool :=
  ⟨rfl, rfl, pool_kept recycled_run⟩

end Dobby.Subagent
