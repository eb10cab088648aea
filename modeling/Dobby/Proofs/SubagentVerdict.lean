import Dobby.Proofs.AgentRollback
import Dobby.Proofs.SubagentSlots

namespace Dobby.Subagent
open CString Runs Function

/-- From one phase of a worker to the next. -/
inductive Moves (k : Nat) : Phase → Event → Phase → Prop where
  | stay (other : ∀ r, e ≠ .answer k r) : Moves k phase e phase
  | ask : Moves k .chatting (.ask k call) (.calling call)
  | back (other : ∀ r, e ≠ .answer k r) : Moves k (.calling call) e .chatting
  | answer : Moves k .chatting (.answer k response) (.answered response)
  | report : Moves k (.answered response) (.report k) .reporting
  | release : Moves k .reporting (.release k) .returned
  | cancel : Moves k phase e .cancelled

/-- What a step does to a worker. -/
inductive Turn (s : State) (e : Event) (t : State) (k : Nat) : Prop where
  | none (other : ∀ r, e ≠ .answer k r) (old : s.workers k = none) (new : t.workers k = none)
  | born (w : Worker) (other : ∀ r, e ≠ .answer k r) (old : s.workers k = none)
      (new : t.workers k = some w) (chats : w.phase = .chatting) (made : w.madeFor = s.nextId)
      (id : (t.slots w.slot).id = w.madeFor) (thread : (t.slots w.slot).thread = k)
  | moved (w v : Worker) (old : s.workers k = some w) (new : t.workers k = some v)
      (made : v.madeFor = w.madeFor) (slot : v.slot = w.slot) (phase : Moves k w.phase e v.phase)

theorem turn_same {s t : State} {k : Nat} (hkept : t.workers k = s.workers k)
    (hother : ∀ r, e ≠ .answer k r) : Turn s e t k := by
  cases hw : s.workers k with
  | none => exact .none hother hw (hkept.trans hw)
  | some w => exact .moved w w hw (hkept.trans hw) rfl rfl (.stay hother)

theorem turn_set {s t : State} {h : Nat} {w : Worker} {q : Phase} {b : Bool}
    (hw : s.workers h = some w) (hphase : w.phase = p) (hmove : Moves h p e q)
    (ht : t.workers = update s.workers h (some { w with phase := q, pending := b }))
    (hother : ∀ k, k ≠ h → ∀ r, e ≠ .answer k r) (k : Nat) : Turn s e t k := by
  subst hphase
  by_cases hk : k = h
  · subst hk
    exact .moved w { w with phase := q, pending := b } hw (by rw [ht, update_self]) rfl rfl
      hmove
  · exact turn_same (by rw [ht, update_of_ne hk]) (hother k hk)

/-- The caller is back from its call. -/
theorem turn_resume {s t u : State} {caller : Caller} (hcalls : Calls s caller)
    (hu : ∀ j w, s.workers j = some w → u.workers j = some w)
    (ht : t.workers = (u.resume caller).workers) (hother : ∀ k r, e ≠ .answer k r) (k : Nat)
    (hturn : t.workers k = u.workers k → Turn s e t k) : Turn s e t k := by
  cases caller with
  | outside => exact hturn (congrFun ht k)
  | worker h =>
    obtain ⟨w, call, hw, hphase⟩ := hcalls
    have hset : u.resume (.worker h) = u.setWorker h { w with phase := .chatting } := by
      rw [State.resume, State.setPhase, hu h w hw]
    rw [hset] at ht
    by_cases hk : k = h
    · subst hk
      refine .moved w { w with phase := .chatting } hw ?_ rfl rfl ?_
      · rw [ht, State.setWorker_self]
      · rw [hphase]
        exact .back (hother k)
    · exact hturn (by rw [ht, State.setWorker_ne _ _ hk])

theorem turn_spawn {s t : State} (h : Sound s) {caller : Caller} (hcalls : Calls s caller)
    {i : Fin maxSlots} {request : Request} {fate : Fate}
    (hslots : t.slots = ((fillSlot timeoutSec (s.recycle i) i request fate).resume caller).slots)
    (ht : t.workers = ((fillSlot timeoutSec (s.recycle i) i request fate).resume caller).workers)
    (hother : ∀ k r, e ≠ .answer k r) (k : Nat) : Turn s e t k := by
  have hrecycled := recycle_workers s i
  have hcreated : (s.recycle i).created = s.created := by
    rw [State.recycle]
    split <;> rfl
  rw [resume_slots] at hslots
  cases fate with
  | agentFailed | threadFailed =>
    refine turn_resume hcalls (fun j w hw => ?_) ht hother k (fun hk => ?_)
    · exact (congrFun hrecycled j).trans hw
    · exact turn_same (hk.trans (congrFun hrecycled k)) (hother k)
  | started watched =>
    have hworkers : (fillSlot timeoutSec (s.recycle i) i request (.started watched)).workers =
        update s.workers s.created (some ⟨s.nextId, i, .chatting, false⟩) := by
      rw [← hcreated, ← recycle_nextId s i, ← hrecycled]
      rfl
    have hnew := h.fresh s.created (Nat.le_refl _)
    refine turn_resume hcalls (fun j w hw => ?_) ht hother k (fun hk => ?_)
    · have hj : j ≠ s.created := by
        rintro rfl
        rw [hnew] at hw
        cases hw
      rw [hworkers, update_of_ne hj]
      exact hw
    · rw [hworkers] at hk
      by_cases hj : k = s.created
      · subst hj
        rw [update_self] at hk
        refine .born _ (hother _) hnew hk rfl rfl ?_ ?_
        · rw [hslots, (fillSlot_self ..).1, recycle_nextId]
        · rw [hslots, ← hcreated]
          exact congrArg Slot.thread (State.setSlot_self ..)
      · rw [update_of_ne hj] at hk
        exact turn_same hk (hother k)

theorem Step.turn {s t : State} (h : Sound s) (hheld : Held s) (hs : Step timeoutSec s e t)
    (k : Nat) : Turn s e t k := by
  cases hs with
  | pass | poolJson | evict => exact turn_same rfl (fun r => by simp)
  | ask worker chats => exact turn_set worker chats .ask rfl (fun _ _ _ => by simp) k
  | answer worker chats =>
    refine turn_set worker chats .answer rfl (fun j hj r => ?_) k
    simp [Ne.symm hj]
  | cancel worker | fall _ worker | drop _ worker =>
    exact turn_set worker rfl .cancel rfl (fun _ _ _ => by simp) k
  | @faint w _ _ i _ _ _ _ worker =>
    refine turn_set (b := w.pending) worker rfl .cancel ?_ (fun _ _ _ => by simp) k
    rw [← recycle_workers s i]
    rfl
  | status _ asks | refuse _ asks =>
    exact turn_resume asks.calls (fun _ _ => id) rfl (fun _ _ => by simp) k
      (fun hk => turn_same hk (fun r => by simp))
  | spawn free asks fit found unjoined =>
    exact turn_spawn h asks.calls rfl rfl (fun _ _ => by simp) k
  | joined owner calm gone =>
    have hother : ∀ k r, Event.joined ≠ .answer k r := fun _ _ => by simp
    apply turn_spawn h (hheld.calls owner calm) ?slots ?workers hother k
    case slots => rfl
    case workers => rfl
  | report free worker answered =>
    exact turn_set worker answered .report rfl (fun _ _ _ => by simp) k
  | release owner worker reports =>
    exact turn_set worker reports .release rfl (fun _ _ _ => by simp) k
  | @timeout dog free outstanding woke =>
    have hother : ∀ k r, (.timeout dog : Event) ≠ .answer k r := fun _ _ => by simp
    cases hi : watched s.slots dog.id with
    | none =>
      refine turn_same ?_ (hother k)
      change (watchdogFn s dog.id).workers k = _
      rw [watchdogFn, hi]
    | some i =>
      obtain ⟨w, hw, _⟩ := h.crew i (watched_spec hi).2.2
      refine turn_set (b := true) hw rfl (.stay (hother _)) ?_ (fun _ _ => hother _) k
      change (watchdogFn s dog.id).workers = _
      simp only [watchdogFn, hi, pthreadCancel, hw]
      rfl

/-- What the answers of a worker say of it and of the state that its slot shows. -/
def Phase.Tells (said : Option Str → Prop) (shown : SaState → Prop) : Phase → Prop
  | .chatting | .calling _ => ∀ r, ¬ said r
  | .answered response => ∀ r, said r → r = response
  | .reporting | .returned => ∀ r, said r → shown (outcomeOf r)
  | .cancelled => True

/-- The slot of a worker shows a state, while it keeps the id of the worker. -/
def Shows (s : State) (w : Worker) (st : SaState) : Prop :=
  (s.slots w.slot).id = w.madeFor → (s.slots w.slot).state = st

/-- Ids are given to one worker each, and what a worker has answered decides what its
slot shows after the report. -/
structure Reported (log : List Event) (s : State) : Prop where
  older : ∀ k w, s.workers k = some w → w.madeFor < s.nextId
  owns : ∀ k w, s.workers k = some w → (s.slots w.slot).id = w.madeFor →
    (s.slots w.slot).thread = k
  silent : ∀ k r, s.workers k = none → .answer k r ∉ log
  tells : ∀ k w, s.workers k = some w → w.phase.Tells (fun r => .answer k r ∈ log) (Shows s w)

theorem start_reported (clock : Int) : Reported [] (startState clock) where
  older _ _ h := by cases h
  owns _ _ h := by cases h
  silent _ _ _ := List.not_mem_nil
  tells _ _ h := by cases h

theorem said_snoc {log : List Event} (hother : ∀ r, e ≠ .answer k r) {r : Option Str} :
    .answer k r ∈ log ++ [e] ↔ .answer k r ∈ log := by
  simp [Ne.symm (hother r)]

theorem Moves.tells (h : Moves k p e q)
    (htells : p.Tells (fun r => .answer k r ∈ log) shown)
    (hkeep : p = .reporting ∨ p = .returned → ∀ r, .answer k r ∈ log → shown (outcomeOf r) →
      shown' (outcomeOf r))
    (hreport : ∀ r, p = .answered r → e = .report k → shown' (outcomeOf r)) :
    q.Tells (fun r => .answer k r ∈ log ++ [e]) shown' := by
  cases h with
  | stay other =>
    have hsaid : ∀ r, .answer k r ∈ log ++ [e] → .answer k r ∈ log := fun r => (said_snoc other).mp
    cases p with
    | chatting | calling => exact fun r hr => htells r (hsaid r hr)
    | answered => exact fun r hr => htells r (hsaid r hr)
    | reporting => exact fun r hr => hkeep (Or.inl rfl) r (hsaid r hr) (htells r (hsaid r hr))
    | returned => exact fun r hr => hkeep (Or.inr rfl) r (hsaid r hr) (htells r (hsaid r hr))
    | cancelled => trivial
  | ask => exact fun r hr => htells r ((said_snoc (fun _ => by simp)).mp hr)
  | back other => exact fun r hr => htells r ((said_snoc other).mp hr)
  | answer =>
    intro r hr
    rcases List.mem_append.mp hr with hr | hr
    · exact absurd hr (htells r)
    · cases List.mem_singleton.mp hr
      rfl
  | report =>
    intro r hr
    rw [htells r ((said_snoc (fun _ => by simp)).mp hr)]
    exact hreport _ rfl rfl
  | release =>
    intro r hr
    have hr := (said_snoc (fun _ => by simp)).mp hr
    exact hkeep (Or.inl rfl) r hr (htells r hr)
  | cancel => trivial

/-- Nobody but a worker itself reports into its slot. -/
theorem Reported.slot {s t : State} (h : Reported log s) (hpool : Pool s)
    (hs : Step timeoutSec s e t) (hw : s.workers k = some w)
    (hid : (t.slots w.slot).id = w.madeFor) :
    (s.slots w.slot).id = w.madeFor ∧ (t.slots w.slot).thread = k ∧
      ((t.slots w.slot).state = (s.slots w.slot).state ∨ (s.slots w.slot).state = .running ∨
        ∃ r, w.phase = .answered r) := by
  cases hs.change hpool.sound hpool.held w.slot with
  | same kept =>
    rw [kept] at hid ⊢
    exact ⟨hid, h.owns k w hw hid, Or.inl rfl⟩
  | report j u response event worker answered home written =>
    rw [written] at hid ⊢
    have hthread := (hpool.sound.home j u worker (by rw [Worker.ended, answered])).2.1
    rw [home, h.owns k w hw hid] at hthread
    subst hthread
    obtain rfl := Option.some.inj (hw.symm.trans worker)
    exact ⟨hid, h.owns k w hw hid, Or.inr (Or.inr ⟨response, answered⟩)⟩
  | timeout dog event found written =>
    rw [written] at hid ⊢
    exact ⟨hid, h.owns k w hw hid, Or.inr (Or.inl (watched_spec found).2.1)⟩
  | taken rests id lives =>
    have := h.older k w hw
    omega

theorem report_shows {s t : State} (hs : Step timeoutSec s (.report k) t)
    (hw : s.workers k = some w) (hphase : w.phase = .answered r) :
    (t.slots w.slot).state = outcomeOf r := by
  cases hs with
  | report free worker answered =>
    obtain rfl := Option.some.inj (hw.symm.trans worker)
    obtain rfl := Phase.answered.inj (hphase.symm.trans answered)
    exact congrArg Slot.state (State.setSlot_self ..)

theorem Reported.step {s t : State} (h : Reported log s) (hpool : Pool s)
    (hs : Step timeoutSec s e t) : Reported (log ++ [e]) t := by
  have hturn := hs.turn hpool.sound hpool.held
  constructor
  · intro k v hv
    cases hturn k with
    | none other old new => exact absurd (new.symm.trans hv) (by simp)
    | born w other old new chats made id thread =>
      obtain rfl := Option.some.inj (new.symm.trans hv)
      rw [← id]
      exact (hpool.step hs).sound.below _
    | moved w u old new made slot phase =>
      obtain rfl := Option.some.inj (new.symm.trans hv)
      rw [made]
      exact Nat.lt_of_lt_of_le (h.older k w old) hs.nextId
  · intro k v hv hid
    cases hturn k with
    | none other old new => exact absurd (new.symm.trans hv) (by simp)
    | born w other old new chats made id thread =>
      obtain rfl := Option.some.inj (new.symm.trans hv)
      exact thread
    | moved w u old new made slot phase =>
      obtain rfl := Option.some.inj (new.symm.trans hv)
      rw [slot, made] at hid
      rw [slot]
      exact (h.slot hpool hs old hid).2.1
  · intro k r hv
    cases hturn k with
    | none other old new =>
      rw [said_snoc other]
      exact h.silent k r old
    | born w other old new => exact absurd (new.symm.trans hv) (by simp)
    | moved w u old new => exact absurd (new.symm.trans hv) (by simp)
  · intro k v hv
    cases hturn k with
    | none other old new => exact absurd (new.symm.trans hv) (by simp)
    | born w other old new chats made id thread =>
      obtain rfl := Option.some.inj (new.symm.trans hv)
      rw [chats]
      intro r hr
      exact h.silent k r old ((said_snoc other).mp hr)
    | moved w u old new made slot phase =>
      obtain rfl := Option.some.inj (new.symm.trans hv)
      refine phase.tells (h.tells k w old) ?_ ?_
      · intro hphase r hr hshows hid
        rw [slot, made] at hid
        obtain ⟨hold, -, hstate⟩ := h.slot hpool hs old hid
        rw [slot]
        rcases hstate with hkept | hrun | ⟨r', hanswered⟩
        · exact hkept.trans (hshows hold)
        · have hend := outcomeOf_terminal r
          rw [← hshows hold, hrun] at hend
          cases hend
        · rw [hanswered] at hphase
          rcases hphase with hphase | hphase <;> cases hphase
      · rintro r hanswered rfl hid
        rw [slot]
        exact report_shows hs old hanswered

theorem reached_reported (hrun : Run (Step timeoutSec) (startState clock) log s) :
    Reported log s := by
  refine (hrun.invariant_log (P := fun log s => Pool s ∧ Reported log s)
    ⟨start_pool clock, start_reported clock⟩ ?_).2
  rintro log s e t ⟨hpool, h⟩ hs
  exact ⟨hpool.step hs, h.step hpool hs⟩

/-- The slot of a worker that has returned shows what its answer amounts to. -/
theorem returned_shows (hrun : Run (Step timeoutSec) (startState clock) log s)
    (hw : s.workers k = some w) (hphase : w.phase = .returned)
    (hslot : (s.slots w.slot).id = w.madeFor) (hanswer : .answer k response ∈ log) :
    (s.slots w.slot).state = outcomeOf response := by
  have htells := (reached_reported hrun).tells k w hw
  rw [hphase] at htells
  exact htells response hanswer hslot

/-- The texts that `worker_fn` takes for errors. -/
def Marked (text : Str) : Prop := "[Error".toList <+: text ∨ "[Dobby:".toList <+: text

/-- `agent_chat` returns through an error path. -/
def Errs : AgentLoop.Event → Prop
  | .refused | .failed _ _ | .exhausted => True
  | _ => False

/-- `agent_chat` returns a final text response. -/
def Answers : AgentLoop.Event → Prop
  | .answered _ _ => True
  | _ => False

/-- The text of a provider error is marked, and a final text is not. -/
def Recognized : AgentLoop.Event → Prop
  | .failed _ error => Marked error
  | .answered _ content => ¬ Marked (strTrim (AgentLoop.stripFrom content))
  | _ => True

/-- The state of a subagent is the one for the way in which its chat has ended. -/
def Faithful (st : SaState) (e : AgentLoop.Event) : Prop :=
  (st = .error ↔ Errs e) ∧ (st = .done ↔ Answers e)

theorem outcomeOf_error_iff (text : Str) : outcomeOf (some text) = .error ↔ Marked text := by
  rw [Marked, ← List.isPrefixOf_iff_prefix, ← List.isPrefixOf_iff_prefix, ← Bool.or_eq_true]
  rw [outcomeOf, Option.any_some]
  split <;> simp_all

theorem outcomeOf_done_iff (text : Str) : outcomeOf (some text) = .done ↔ ¬ Marked text := by
  rw [← outcomeOf_error_iff, outcomeOf]
  split <;> simp

theorem outcome_faithful_iff {b : AgentLoop.Agent} (h : AgentLoop.Step cj registry c e ⟨b, .idle⟩) :
    Faithful (outcomeOf e.returned) e ↔ Recognized e := by
  cases h with
  | refused | exhausted =>
    refine iff_of_true ⟨iff_of_true ?_ trivial, iff_of_false ?_ id⟩ trivial
    · rfl
    · intro hdone
      cases hdone
  | failed pc more =>
    rw [Faithful, AgentLoop.Event.returned, outcomeOf_error_iff, outcomeOf_done_iff]
    simp [Errs, Answers, Recognized]
  | answered pc more =>
    rw [Faithful, AgentLoop.Event.returned, AgentLoop.stripThinkTags, Option.map_some,
      outcomeOf_error_iff, outcomeOf_done_iff]
    simp [Errs, Answers, Recognized]

/-- The state of a subagent whose worker has returned tells how its chat has ended, exactly
where a provider error has one of the two marks and a final text has neither. -/
theorem verdict_faithful_iff {a b : AgentLoop.Agent}
    (hrun : Run (Step timeoutSec) (startState clock) log s)
    (hw : s.workers k = some w) (hphase : w.phase = .returned)
    (hslot : (s.slots w.slot).id = w.madeFor)
    (hchat : Run (AgentLoop.Step cj registry) ⟨a, .idle⟩ (es ++ [e]) ⟨b, .idle⟩)
    (hanswer : .answer k e.returned ∈ log) :
    Faithful (s.slots w.slot).state e ↔ Recognized e := by
  obtain ⟨c, -, hlast⟩ := hchat.unsnoc
  rw [returned_shows hrun hw hphase hslot hanswer]
  exact outcome_faithful_iff hlast

def returnedLog (response : Option Str) : List Event :=
  [.call .outside sampleCall, .answer 0 response, .report 0, .release 0]

def reportedSlot (response : Option Str) : Slot := reportSlot 0 response sampleSlot

/-- The first subagent after its worker has returned. -/
def returnedState (response : Option Str) : State :=
  sampleState 0 (reportedSlot response) (sampleWorker .returned false) none [⟨1, 1⟩]

theorem sample_report (response : Option Str) :
    Step 1 (sampleState 0 sampleSlot (sampleWorker (.answered response) false) none [⟨1, 1⟩])
      (.report 0) (sampleState 0 (reportedSlot response) (sampleWorker .reporting false)
        (some (.reporting 0)) [⟨1, 1⟩]) := by
  have hstep : Step 1 (sampleState 0 sampleSlot (sampleWorker (.answered response) false) none
      [⟨1, 1⟩]) (.report 0) _ := .report rfl (sample_worker ..) rfl
  have hslot : (sampleState 0 sampleSlot (sampleWorker (.answered response) false) none
      [⟨1, 1⟩]).setSlot firstSlot (reportedSlot response) =
      sampleState 0 (reportedSlot response) (sampleWorker (.answered response) false) none
        [⟨1, 1⟩] := sample_setSlot ..
  change Step 1 _ _ { (State.setSlot _ firstSlot (reportedSlot response)).setWorker 0 _ with
    owner := _ } at hstep
  rw [hslot, sample_setWorker] at hstep
  exact hstep

theorem returned_reached (response : Option Str) :
    Run (Step 1) (startState 0) (returnedLog response) (returnedState response) := by
  have hrelease : Step 1 (sampleState 0 (reportedSlot response) (sampleWorker .reporting false)
      (some (.reporting 0)) [⟨1, 1⟩]) (.release 0) _ := .release rfl (sample_worker ..) rfl
  rw [sample_setWorker] at hrelease
  have hspawned := Run.single sample_spawn
  exact ((hspawned.snoc (sample_answer response)).snoc (sample_report response)).snoc hrelease

def sampleAgent : AgentLoop.Agent := ⟨[], 0, 10, [], ⟨false, false, false⟩⟩

/-- A chat whose first request ends in an error. -/
theorem sample_chat (error : Str) : ∃ request b, Run (AgentLoop.Step ⟨fun _ => none, fun _ => []⟩
    (fun _ => false)) ⟨sampleAgent, .idle⟩ ([.began "t".toList] ++ [.failed request error])
      ⟨b, .idle⟩ := by
  have hbegan : "t".toList ≠ [] := by decide
  have hmore : (0 : Int) < 10 := by decide
  exact ⟨_, _, .cons (.began rfl hbegan) (.single (.failed rfl hmore))⟩

theorem verdict_faithful_marked : ∃ request,
    Faithful ((returnedState (some "[Error: timeout]".toList)).slots firstSlot).state
      (.failed request "[Error: timeout]".toList) := by
  obtain ⟨request, b, hchat⟩ := sample_chat "[Error: timeout]".toList
  refine ⟨request, (verdict_faithful_iff (returned_reached _) (sample_worker ..) rfl rfl hchat
    ?_).mpr ?_⟩
  · exact List.mem_cons_of_mem _ List.mem_cons_self
  · exact Or.inl ⟨": timeout]".toList, rfl⟩

/-- The error of a provider makes a subagent that is done. -/
theorem unmarked_error_done : ∃ request b,
    let error := "Failed to parse Ollama response (invalid JSON)".toList
    Run (AgentLoop.Step ⟨fun _ => none, fun _ => []⟩ (fun _ => false)) ⟨sampleAgent, .idle⟩
      ([.began "t".toList] ++ [.failed request error]) ⟨b, .idle⟩ ∧
    Run (Step 1) (startState 0) (returnedLog (some error)) (returnedState (some error)) ∧
    ((returnedState (some error)).slots firstSlot).state = .done ∧
    ¬ Faithful ((returnedState (some error)).slots firstSlot).state (.failed request error) := by
  obtain ⟨request, b, hchat⟩ := sample_chat "Failed to parse Ollama response (invalid JSON)".toList
  refine ⟨request, b, hchat, returned_reached _, rfl, fun hfaithful => ?_⟩
  exact hfaithful.2.mp rfl

end Dobby.Subagent
