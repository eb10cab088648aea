import Dobby.Model.Subagent

namespace Dobby.Subagent
open CString Function

/-- In `agent_chat` or on the way from it to the report. -/
def Worker.active (w : Worker) : Bool :=
  match w.phase with
  | .chatting | .calling _ | .answered _ => true
  | _ => false

theorem Worker.active_lives {w : Worker} (h : w.active = true) : w.ended = false := by
  rw [active] at h
  rw [ended]
  cases hphase : w.phase with
  | chatting | calling | answered | reporting => rfl
  | returned | cancelled =>
    rw [hphase] at h
    cases h

/-- What ties slots, ids and threads together, whoever holds the lock. -/
structure Sound (s : State) : Prop where
  used : ∀ i, (s.slots i).state ≠ .idle → (s.slots i).id ≠ 0
  below : ∀ i, (s.slots i).id < s.nextId
  distinct : ∀ i j, (s.slots i).id = (s.slots j).id → (s.slots i).id = 0 ∨ i = j
  fresh : ∀ h, s.created ≤ h → s.workers h = none
  crew : ∀ i, (s.slots i).threadValid = true → ∃ w, s.workers (s.slots i).thread = some w ∧
    w.slot = i ∧ w.madeFor = (s.slots i).id
  home : ∀ h w, s.workers h = some w → w.ended = false → (s.slots w.slot).state ≠ .idle ∧
    (s.slots w.slot).thread = h ∧ (s.slots w.slot).threadValid = true
  ready : ∀ i, (s.slots i).state = .idle → (s.slots i).threadValid = false
  past : ∀ i, (s.slots i).state.terminal = true → (s.slots i).finishedAt ≤ s.clock

theorem start_sound (clock : Int) : Sound (startState clock) where
  used _ h := absurd rfl h
  below _ := Nat.zero_lt_one
  distinct _ _ _ := Or.inl rfl
  fresh _ _ := rfl
  crew _ h := by cases h
  home _ _ h := by cases h
  ready _ _ := rfl
  past _ h := by cases h

theorem Sound.pass {s : State} (h : Sound s) {clock : Int} (hlater : s.clock ≤ clock) :
    Sound { s with clock := clock } :=
  { h with past := fun i hi => Int.le_trans (h.past i hi) hlater }

/-- The owner and the watchdogs have no part in it. -/
theorem Sound.withOwner {s : State} (h : Sound s) (owner : Option Owner)
    (watchdogs : List Watchdog) : Sound { s with owner := owner, watchdogs := watchdogs } :=
  { h with }

theorem Sound.setWorker {s : State} (h : Sound s) (hw : s.workers k = some w) {v : Worker}
    (hmade : v.madeFor = w.madeFor) (hslot : v.slot = w.slot)
    (hlive : v.ended = false → w.ended = false) : Sound (s.setWorker k v) := by
  refine { h with fresh := fun j hj => ?_, crew := fun i hi => ?_, home := fun j u hu hend => ?_ }
  · have hne : j ≠ k := by
      rintro rfl
      rw [h.fresh j hj] at hw
      cases hw
    exact (s.setWorker_ne v hne).trans (h.fresh j hj)
  · obtain ⟨u, hu, hspec⟩ := h.crew i hi
    by_cases hk : (s.slots i).thread = k
    · rw [hk, hw] at hu
      cases hu
      refine ⟨v, ?_, hslot.trans hspec.1, hmade.trans hspec.2⟩
      rw [← hk]
      exact s.setWorker_self ..
    · exact ⟨u, (s.setWorker_ne v hk).trans hu, hspec⟩
  · by_cases hk : j = k
    · subst hk
      rw [State.setWorker_self] at hu
      cases hu
      rw [hslot]
      exact h.home j w hw (hlive hend)
    · rw [State.setWorker_ne s v hk] at hu
      exact h.home j u hu hend

theorem Sound.setPhase {s : State} (h : Sound s) {phase : Phase}
    (hlive : ∀ w, s.workers k = some w → w.ended = false) : Sound (s.setPhase k phase) := by
  rw [State.setPhase]
  cases hw : s.workers k with
  | none => exact h
  | some w => exact h.setWorker hw rfl rfl (fun _ => hlive w hw)

/-- A slot gets another value, with its old id or the next new one. It keeps its
thread or has none, and a worker that lives keeps its slot. -/
theorem Sound.replace {s : State} (h : Sound s) {i : Fin maxSlots} {sl : Slot} {n : Nat}
    (hid : sl.id = (s.slots i).id ∧ n = s.nextId ∨ sl.id = s.nextId ∧ n = s.nextId + 1)
    (hused : sl.state ≠ .idle → sl.id ≠ 0)
    (hcrew : sl.threadValid = true → (s.slots i).threadValid = true ∧
      sl.thread = (s.slots i).thread ∧ sl.id = (s.slots i).id)
    (hhome : ∀ k w, s.workers k = some w → w.ended = false → w.slot = i →
      sl.state ≠ .idle ∧ sl.thread = k ∧ sl.threadValid = true)
    (hready : sl.state = .idle → sl.threadValid = false)
    (hpast : sl.state.terminal = true → sl.finishedAt ≤ s.clock) :
    Sound { s.setSlot i sl with nextId := n } := by
  have hslot : ∀ j, (s.setSlot i sl).slots j = if j = i then sl else s.slots j := by
    intro j
    split
    · rename_i hj
      rw [hj, State.setSlot_self]
    · rename_i hj
      exact s.setSlot_ne sl hj
  have hbelow := h.below
  have hother : ∀ k, k ≠ i → sl.id = (s.slots k).id → sl.id = 0 := by
    intro k hk heq
    have := hbelow k
    rcases hid with ⟨hold, _⟩ | ⟨hnew, _⟩
    · rcases h.distinct i k (hold.symm.trans heq) with hzero | hik
      · exact hold.trans hzero
      · exact absurd hik.symm hk
    · omega
  constructor
  all_goals simp only [hslot]
  · intro j
    split
    · exact hused
    · exact h.used j
  · intro j
    have := hbelow j
    split <;> [have := hbelow i; skip]
    all_goals omega
  · intro j k heq
    by_cases hj : j = i <;> by_cases hk : k = i <;> simp only [hj, hk, if_true, if_false] at heq ⊢
    · exact Or.inr trivial
    · exact Or.inl (hother k hk heq)
    · exact Or.inl (heq.trans (hother j hj heq.symm))
    · exact h.distinct j k heq
  · exact h.fresh
  · intro j hj
    split at hj
    · rename_i hji
      obtain ⟨hvalid, hthread, hsame⟩ := hcrew hj
      rw [hji, if_pos rfl, hthread, hsame]
      exact h.crew i hvalid
    · rename_i hji
      rw [if_neg hji]
      exact h.crew j hj
  · intro k w hw hend
    split
    · rename_i hi
      exact hhome k w hw hend hi
    · exact h.home k w hw hend
  · intro j
    split
    · exact hready
    · exact h.ready j
  · intro j
    split
    · exact hpast
    · exact h.past j

/-- A write that keeps the id and the thread of a slot in use. -/
theorem Sound.write {s : State} (h : Sound s) {i : Fin maxSlots} {sl : Slot}
    (hbusy : (s.slots i).state ≠ .idle) (hid : sl.id = (s.slots i).id)
    (hthread : sl.thread = (s.slots i).thread) (hvalid : sl.threadValid = (s.slots i).threadValid)
    (hstate : sl.state.terminal = true) (hnow : sl.finishedAt = s.clock) :
    Sound (s.setSlot i sl) := by
  have hne : sl.state ≠ .idle := by
    intro he
    rw [he] at hstate
    cases hstate
  refine h.replace (n := s.nextId) (Or.inl ⟨hid, rfl⟩) ?_ ?_ ?_ ?_ ?_
  · intro _
    rw [hid]
    exact h.used i hbusy
  · exact fun hv => ⟨hvalid.symm.trans hv, hthread, hid⟩
  · rintro k w hw hend rfl
    obtain ⟨_, ht, hv⟩ := h.home k w hw hend
    exact ⟨hne, hthread.trans ht, hvalid.trans hv⟩
  · exact fun he => absurd he hne
  · exact fun _ => Int.le_of_eq hnow

/-- No worker lives in a slot whose thread has ended or was never made. -/
theorem Sound.vacant {s : State} (h : Sound s) {i : Fin maxSlots}
    (hgone : (s.slots i).threadValid = true →
      ∀ w, s.workers (s.slots i).thread = some w → w.ended = true) :
    ∀ k w, s.workers k = some w → w.ended = false → w.slot ≠ i := by
  rintro k w hw hend rfl
  obtain ⟨_, rfl, hv⟩ := h.home k w hw hend
  rw [hgone hv w hw] at hend
  cases hend

theorem Sound.recycle {s : State} (h : Sound s) {i : Fin maxSlots}
    (hgone : (s.slots i).threadValid = true →
      ∀ w, s.workers (s.slots i).thread = some w → w.ended = true) : Sound (s.recycle i) := by
  rw [State.recycle]
  split
  · exact h
  · refine h.replace (n := s.nextId) (Or.inl ⟨rfl, rfl⟩) ?_ ?_ ?_ ?_ ?_
    · exact fun hne => absurd rfl hne
    · exact fun h => by cases h
    · exact fun k w hw hend hi => absurd hi (h.vacant hgone k w hw hend)
    · exact fun _ => rfl
    · exact fun h => by cases h

/-- A slot without a thread takes the next id. -/
theorem Sound.take {s : State} (h : Sound s) {i : Fin maxSlots} {sl : Slot}
    (hfree : (s.slots i).threadValid = false) (hid : sl.id = s.nextId)
    (hvalid : sl.threadValid = false) (hstate : sl.state.terminal = false) :
    Sound { s.setSlot i sl with nextId := s.nextId + 1 } := by
  refine h.replace (Or.inr ⟨hid, rfl⟩) ?_ ?_ ?_ ?_ ?_
  · have := h.below i
    omega
  · exact fun hv => absurd (hvalid.symm.trans hv) Bool.false_ne_true
  · intro k w hw hend hi
    refine absurd hi (h.vacant (fun hv => ?_) k w hw hend)
    rw [hfree] at hv
    cases hv
  · exact fun _ => hvalid
  · exact fun ht => absurd (hstate.symm.trans ht) Bool.false_ne_true

/-- A running slot without a thread gets a new worker. -/
theorem Sound.launch {s : State} (h : Sound s) {i : Fin maxSlots} {sl : Slot}
    (hsl : sl = { s.slots i with thread := s.created, threadValid := true })
    (hfree : (s.slots i).threadValid = false) (hbusy : (s.slots i).state ≠ .idle) :
    Sound { (s.setSlot i sl).setWorker s.created ⟨(s.slots i).id, i, .chatting, false⟩ with
      created := s.created + 1 } := by
  subst hsl
  have hvacant := h.vacant (i := i) (fun hv => absurd (hfree.symm.trans hv) Bool.false_ne_true)
  have hsame : ∀ j, ∃ thread valid, (s.setSlot i
      { s.slots i with thread := s.created, threadValid := true }).slots j =
        { s.slots j with thread := thread, threadValid := valid } := by
    intro j
    by_cases hj : j = i
    · exact ⟨s.created, true, by rw [hj, State.setSlot_self]⟩
    · exact ⟨_, _, State.setSlot_ne s _ hj⟩
  constructor
  · intro j
    obtain ⟨t, v, he⟩ := hsame j
    simp only [State.setWorker, he]
    exact h.used j
  · intro j
    obtain ⟨t, v, he⟩ := hsame j
    simp only [State.setWorker, he]
    exact h.below j
  · intro j k
    obtain ⟨_, _, hj⟩ := hsame j
    obtain ⟨_, _, hk⟩ := hsame k
    simp only [State.setWorker, hj, hk]
    exact h.distinct j k
  · intro k hk
    refine (State.setWorker_ne _ _ (Nat.ne_of_gt hk)).trans ?_
    exact h.fresh k (Nat.le_of_succ_le hk)
  · intro j hj
    by_cases hji : j = i
    · subst hji
      refine ⟨⟨(s.slots j).id, j, .chatting, false⟩, ?_, rfl, ?_⟩
      · simp [State.setWorker, State.setSlot]
      · simp [State.setWorker, State.setSlot]
    · have he := State.setSlot_ne s { s.slots i with thread := s.created, threadValid := true } hji
      simp only [State.setWorker, he] at hj ⊢
      obtain ⟨w, hw, hspec⟩ := h.crew j hj
      have hne : (s.slots j).thread ≠ s.created := by
        intro heq
        rw [heq, h.fresh s.created (Nat.le_refl _)] at hw
        cases hw
      exact ⟨w, (update_of_ne hne _ _).trans hw, hspec⟩
  · intro k w hw hend
    by_cases hk : k = s.created
    · subst hk
      obtain rfl := Option.some.inj ((State.setWorker_self _ _ _).symm.trans hw)
      simp [State.setWorker, State.setSlot, hbusy]
    · have hw : s.workers k = some w := (State.setWorker_ne _ _ hk).symm.trans hw
      have he := State.setSlot_ne s { s.slots i with thread := s.created, threadValid := true }
        (hvacant k w hw hend)
      simp only [State.setWorker, he]
      exact h.home k w hw hend
  · intro j hj
    by_cases hji : j = i
    · subst hji
      exact absurd (by simpa [State.setWorker, State.setSlot] using hj) hbusy
    · have he := State.setSlot_ne s { s.slots i with thread := s.created, threadValid := true } hji
      simp only [State.setWorker, he] at hj ⊢
      exact h.ready j hj
  · intro j
    obtain ⟨t, v, he⟩ := hsame j
    simp only [State.setWorker, he]
    exact h.past j

theorem Sound.fill {s : State} (h : Sound s) {i : Fin maxSlots}
    (hfree : (s.slots i).threadValid = false) (timeoutSec : Int) (request : Request) (fate : Fate) :
    Sound (fillSlot timeoutSec s i request fate) := by
  cases fate with
  | agentFailed | threadFailed => exact h.take hfree rfl rfl rfl
  | started watched =>
    have htaken : Sound { s.setSlot i (startSlot timeoutSec s request (s.slots i)) with
        nextId := s.nextId + 1 } := h.take hfree rfl rfl rfl
    have hstart : (s.setSlot i (startSlot timeoutSec s request (s.slots i))).slots i =
        startSlot timeoutSec s request (s.slots i) := State.setSlot_self ..
    have hlaunched := htaken.launch (i := i) rfl (by simp only [hstart]; rfl)
      (by simp [startSlot])
    simp only [hstart] at hlaunched
    have hdone := hlaunched.withOwner s.owner
      (if watched then s.watchdogs ++ [⟨s.nextId, s.clock + timeoutSec⟩] else s.watchdogs)
    simpa [fillSlot, State.setSlot, State.setWorker, startSlot] using hdone

/-- What the second loop knows after some slots. -/
def Oldest (slots : Slots) (now : Int) (seen : List (Fin maxSlots)) :
    Option (Fin maxSlots) × Int → Prop
  | (none, best) => best = now + 1 ∧ ∀ j ∈ seen, (slots j).state.terminal = false
  | (some i, best) => best = (slots i).finishedAt ∧ best ≤ now ∧ (slots i).state.terminal = true ∧
      ∀ j ∈ seen, (slots j).state.terminal = true → best ≤ (slots j).finishedAt

theorem Oldest.step {slots : Slots} {now : Int} {seen : List (Fin maxSlots)}
    {best : Option (Fin maxSlots) × Int} (h : Oldest slots now seen best) {i : Fin maxSlots}
    (hpast : (slots i).state.terminal = true → (slots i).finishedAt ≤ now) :
    Oldest slots now (seen ++ [i]) (older slots best i) := by
  obtain ⟨found, time⟩ := best
  rw [older]
  split
  · rename_i hold
    refine ⟨rfl, hpast hold.1, hold.1, ?_⟩
    intro j hj ht
    rcases List.mem_append.mp hj with hj | hj
    · cases found with
      | none => exact absurd (h.2 j hj) (by simp [ht])
      | some k => exact Int.le_trans (Int.le_of_lt hold.2) (h.2.2.2 j hj ht)
    · obtain rfl := List.mem_singleton.mp hj
      exact Int.le_refl _
  · rename_i hnew
    cases found with
    | none =>
      obtain ⟨htime, hseen⟩ := h
      refine ⟨htime, fun j hj => ?_⟩
      rcases List.mem_append.mp hj with hj | hj
      · exact hseen j hj
      · obtain rfl := List.mem_singleton.mp hj
        by_contra ht
        rw [Bool.not_eq_false] at ht
        have := hpast ht
        exact hnew ⟨ht, by simp only; omega⟩
    | some k =>
      obtain ⟨htime, hnow, hk, hseen⟩ := h
      refine ⟨htime, hnow, hk, fun j hj ht => ?_⟩
      rcases List.mem_append.mp hj with hj | hj
      · exact hseen j hj ht
      · obtain rfl := List.mem_singleton.mp hj
        exact Int.not_lt.mp (fun hlt => hnew ⟨ht, hlt⟩)

theorem Oldest.fold {slots : Slots} {now : Int} {seen : List (Fin maxSlots)}
    {best : Option (Fin maxSlots) × Int} (h : Oldest slots now seen best)
    (hpast : ∀ i, (slots i).state.terminal = true → (slots i).finishedAt ≤ now)
    (rest : List (Fin maxSlots)) :
    Oldest slots now (seen ++ rest) (rest.foldl (older slots) best) := by
  induction rest generalizing seen best with
  | nil => simpa using h
  | cons i rest ih =>
    rw [List.foldl_cons, ← List.singleton_append, ← List.append_assoc]
    exact ih (h.step (hpast i))

theorem running_of {st : SaState} (hidle : st ≠ .idle) (hterminal : st.terminal = false) :
    st = .running := by
  cases st with
  | idle => exact absurd rfl hidle
  | running => rfl
  | done | error | timeout => cases hterminal

/-- `alloc_slot` fails only where all slots run. Else it settles on an idle slot, or
on an oldest one of those that have ended. -/
theorem allocSlot_spec {slots : Slots} {now : Int}
    (hpast : ∀ i, (slots i).state.terminal = true → (slots i).finishedAt ≤ now) :
    match allocSlot now slots with
    | none => ∀ i, (slots i).state = .running
    | some i => (slots i).state = .idle ∨ (∀ j, (slots j).state ≠ .idle) ∧
        (slots i).state.terminal = true ∧
        ∀ j, (slots j).state.terminal = true → (slots i).finishedAt ≤ (slots j).finishedAt := by
  rw [allocSlot]
  cases hfind : (List.finRange maxSlots).find? (fun i => (slots i).state == .idle) with
  | some i => exact Or.inl (by simpa using List.find?_some hfind)
  | none =>
    have hbusy : ∀ j, (slots j).state ≠ .idle := by
      intro j hj
      have := List.find?_eq_none.mp hfind j (List.mem_finRange j)
      simp [hj] at this
    have hstart : Oldest slots now [] (none, now + 1) :=
      ⟨rfl, fun _ hj => absurd hj List.not_mem_nil⟩
    have hfold := hstart.fold hpast (List.finRange maxSlots)
    simp only
    generalize (List.finRange maxSlots).foldl (older slots) (none, now + 1) = best at hfold
    obtain ⟨found, time⟩ := best
    cases found with
    | none => exact fun i => running_of (hbusy i) (hfold.2 i (List.mem_finRange i))
    | some i =>
      obtain ⟨rfl, _, hi, hseen⟩ := hfold
      exact Or.inr ⟨hbusy, hi, fun j hj => hseen j (List.mem_finRange j) hj⟩

/-- The call that holds the lock in a join: its slot has ended, and it will go on only
if it lives. -/
structure Held (s : State) : Prop where
  claimed : ∀ caller i request fate, s.owner = some (.joining caller i request fate) →
    (s.slots i).state.terminal = true ∧ (s.slots i).threadValid = true
  attended : ∀ k i request fate, s.owner = some (.joining (.worker k) i request fate) →
    ∃ w, s.workers k = some w ∧ ((∃ call, w.phase = .calling call) ∨ w.pending = true)

/-- The caller, if it is a worker, is in a call. -/
def Calls (s : State) : Caller → Prop
  | .outside => True
  | .worker k => ∃ w call, s.workers k = some w ∧ w.phase = .calling call

/-- The caller, if it is a worker, is active. -/
def Active (s : State) : Caller → Prop
  | .outside => True
  | .worker k => ∀ w, s.workers k = some w → w.active = true

theorem Calls.active {s : State} {caller : Caller} (h : Calls s caller) : Active s caller := by
  cases caller with
  | outside => trivial
  | worker k =>
    obtain ⟨w, call, hw, hphase⟩ := h
    intro u hu
    obtain rfl := Option.some.inj (hw.symm.trans hu)
    rw [Worker.active, hphase]

theorem Asks.calls {s : State} {caller : Caller} {call : Call} (h : Asks s caller call) :
    Calls s caller := by
  cases caller with
  | outside => trivial
  | worker k =>
    obtain ⟨w, hw, hphase⟩ := h
    exact ⟨w, call, hw, hphase⟩

theorem Asks.active {s : State} {caller : Caller} {call : Call} (h : Asks s caller call) :
    Active s caller := h.calls.active

theorem Held.calls {s : State} (h : Held s) {caller : Caller}
    (howner : s.owner = some (.joining caller i request fate)) (hcalm : Calm s caller) :
    Calls s caller := by
  cases caller with
  | outside => trivial
  | worker k =>
    obtain ⟨w, hw, hcalls⟩ := h.attended k i request fate howner
    obtain ⟨u, hu, hpending⟩ := hcalm
    obtain rfl := Option.some.inj (hw.symm.trans hu)
    rcases hcalls with ⟨call, hcall⟩ | hcalls
    · exact ⟨w, call, hw, hcall⟩
    · rw [hpending] at hcalls
      cases hcalls

theorem Held.active {s : State} (h : Held s) {caller : Caller}
    (howner : s.owner = some (.joining caller i request fate)) (hcalm : Calm s caller) :
    Active s caller := (h.calls howner hcalm).active

theorem Sound.resume {s : State} (h : Sound s) {caller : Caller} (hactive : Active s caller) :
    Sound (s.resume caller) := by
  cases caller with
  | outside => exact h
  | worker k => exact h.setPhase (fun w hw => Worker.active_lives (hactive w hw))

theorem recycle_workers (s : State) (i : Fin maxSlots) : (s.recycle i).workers = s.workers := by
  rw [State.recycle]
  split <;> rfl

theorem recycle_nextId (s : State) (i : Fin maxSlots) : (s.recycle i).nextId = s.nextId := by
  rw [State.recycle]
  split <;> rfl

theorem Sound.recycle_free {s : State} (h : Sound s) (i : Fin maxSlots) :
    ((s.recycle i).slots i).threadValid = false := by
  rw [State.recycle]
  split
  · rename_i hidle
    exact h.ready i hidle
  · rw [State.setSlot_self]
    rfl

theorem Active.fill {s : State} {caller : Caller} (h : Active s caller) (timeoutSec : Int)
    (i : Fin maxSlots) (request : Request) (fate : Fate) :
    Active (fillSlot timeoutSec (s.recycle i) i request fate) caller := by
  cases caller with
  | outside => trivial
  | worker k =>
    intro w hw
    cases fate with
    | agentFailed | threadFailed => exact h w ((congrFun (recycle_workers s i) k).symm.trans hw)
    | started watched =>
      change update (s.recycle i).workers (s.recycle i).created _ k = some w at hw
      by_cases hk : k = (s.recycle i).created
      · rw [hk, update_self] at hw
        cases hw
        rfl
      · rw [update_of_ne hk, recycle_workers] at hw
        exact h w hw

/-- A slot that is not joined has no thread. -/
theorem Sound.unjoined {s : State} (h : Sound s) {i : Fin maxSlots}
    (hjoins : (s.slots i).joins = false) : (s.slots i).threadValid = false := by
  rw [Slot.joins] at hjoins
  by_cases hidle : (s.slots i).state = .idle
  · exact h.ready i hidle
  · simpa [hidle] using hjoins

/-- Nobody is left in a slot that is not joined. -/
theorem Sound.gone {s : State} (h : Sound s) {i : Fin maxSlots}
    (hjoins : (s.slots i).joins = false) : (s.slots i).threadValid = true →
      ∀ w, s.workers (s.slots i).thread = some w → w.ended = true :=
  fun hv => absurd ((h.unjoined hjoins).symm.trans hv) Bool.false_ne_true

theorem outcomeOf_terminal (response : Option Str) : (outcomeOf response).terminal = true := by
  rw [outcomeOf]
  split <;> rfl

theorem Sound.cancel {s : State} (h : Sound s) (k : Nat) : Sound (pthreadCancel s k) := by
  rw [pthreadCancel]
  cases hw : s.workers k with
  | none => exact h
  | some w => exact h.setWorker hw rfl rfl id

theorem pthreadCancel_slots (s : State) (k : Nat) : (pthreadCancel s k).slots = s.slots := by
  rw [pthreadCancel]
  split <;> rfl

theorem pthreadCancel_clock (s : State) (k : Nat) : (pthreadCancel s k).clock = s.clock := by
  rw [pthreadCancel]
  split <;> rfl

/-- A watchdog finds the running slot of its id. -/
theorem watched_spec {slots : Slots} {id : Nat} {i : Fin maxSlots} (h : watched slots id = some i) :
    (slots i).id = id ∧ (slots i).state = .running ∧ (slots i).threadValid = true := by
  have hfound := List.find?_some h
  simp only [Bool.and_eq_true, beq_iff_eq] at hfound
  exact ⟨hfound.1.1, hfound.1.2, hfound.2⟩

theorem Sound.step {s t : State} (h : Sound s) (hheld : Held s) (hs : Step timeoutSec s e t) :
    Sound t := by
  cases hs with
  | pass later => exact h.pass later
  | ask worker chats | answer worker chats | cancel worker chats =>
    exact h.setWorker worker rfl rfl (fun _ => by rw [Worker.ended, chats])
  | status _ asks | refuse _ asks => exact h.resume asks.active
  | poolJson => exact h
  | spawn free asks fit found unjoined =>
    have hrecycled := h.recycle (h.gone unjoined)
    exact (hrecycled.fill (h.recycle_free _) _ _ _).resume (asks.active.fill _ _ _ _)
  | evict => exact h.withOwner _ _
  | joined owner calm gone =>
    have hrecycled := h.recycle (fun _ => gone)
    exact ((hrecycled.fill (h.recycle_free _) _ _ _).resume
      ((hheld.active owner calm).fill _ _ _ _)).withOwner _ _
  | fall owner worker lives hit => exact h.setWorker worker rfl rfl (fun h => by cases h)
  | @faint w args request i _ k fate free worker hit calls fit found unjoined =>
    have hrecycled := h.recycle (h.gone unjoined)
    have hid : (startSlot timeoutSec s request ((s.recycle i).slots i)).id = (s.recycle i).nextId :=
      (recycle_nextId s i).symm
    have htaken := hrecycled.take (h.recycle_free i) hid rfl rfl
    rw [recycle_nextId] at htaken
    have hworker : (s.recycle i).workers k = some w := by
      rw [recycle_workers]
      exact worker
    have hfainted := htaken.setWorker (v := { w with phase := .cancelled }) hworker rfl rfl
      (fun h => by cases h)
    exact hfainted.withOwner (some (.spawning k)) _
  | @report w _ k response free worker answered =>
    have hlive : w.ended = false := by rw [Worker.ended, answered]
    have hwritten : Sound (s.setSlot w.slot (reportSlot s.clock response (s.slots w.slot))) :=
      h.write (h.home _ w worker hlive).1 rfl rfl rfl (outcomeOf_terminal response) rfl
    exact (hwritten.setWorker (k := k) (v := { w with phase := .reporting }) worker rfl rfl
      (fun _ => hlive)).withOwner (some (.reporting k)) _
  | drop owner worker reports hit => exact h.setWorker worker rfl rfl (fun h => by cases h)
  | @release w _ k owner worker reports =>
    have hreturned := h.setWorker (v := { w with phase := .returned }) worker rfl rfl
      (fun h => by cases h)
    exact hreturned.withOwner none _
  | @timeout dog _ free outstanding woke =>
    refine Sound.withOwner ?_ _ _
    rw [watchdogFn]
    split
    · exact h
    · rename_i i hi
      obtain ⟨_, hrun, _⟩ := watched_spec hi
      have hcancelled := h.cancel (s.slots i).thread
      refine hcancelled.write ?_ ?_ ?_ ?_ rfl (pthreadCancel_clock ..).symm
      all_goals rw [pthreadCancel_slots]
      · rw [hrun]
        simp
      all_goals rfl

theorem resume_owner (s : State) (caller : Caller) : (s.resume caller).owner = s.owner := by
  cases caller with
  | outside => rfl
  | worker k =>
    rw [State.resume, State.setPhase]
    split <;> rfl

theorem fillSlot_owner (timeoutSec : Int) (s : State) (i : Fin maxSlots) (request : Request)
    (fate : Fate) : (fillSlot timeoutSec (s.recycle i) i request fate).owner = s.owner := by
  rw [State.recycle]
  cases fate <;> rw [fillSlot] <;> split <;> rfl

theorem pthreadCancel_owner (s : State) (k : Nat) : (pthreadCancel s k).owner = s.owner := by
  rw [pthreadCancel]
  split <;> rfl

theorem watchdogFn_owner (s : State) (id : Nat) : (watchdogFn s id).owner = s.owner := by
  rw [watchdogFn]
  split
  · rfl
  · exact pthreadCancel_owner ..

theorem Held.unjoined {s : State}
    (h : ∀ caller i request fate, s.owner ≠ some (.joining caller i request fate)) : Held s :=
  ⟨fun caller i request fate ho => absurd ho (h caller i request fate),
    fun k i request fate ho => absurd ho (h (.worker k) i request fate)⟩

theorem Held.setWorker {s : State} (h : Held s) {k : Nat} (hw : s.workers k = some w) {v : Worker}
    (hcall : ∀ call, w.phase = .calling call → v.phase = .calling call ∨ v.pending = true)
    (hpending : w.pending = true → v.pending = true) : Held (s.setWorker k v) := by
  refine ⟨h.claimed, fun j i request fate ho => ?_⟩
  obtain ⟨u, hu, hcalls⟩ := h.attended j i request fate ho
  by_cases hj : j = k
  · subst hj
    obtain rfl := Option.some.inj (hw.symm.trans hu)
    refine ⟨v, s.setWorker_self .., ?_⟩
    rcases hcalls with ⟨call, hphase⟩ | hcalls
    · exact (hcall call hphase).imp_left (fun hv => ⟨call, hv⟩)
    · exact Or.inr (hpending hcalls)
  · exact ⟨u, (s.setWorker_ne v hj).trans hu, hcalls⟩

theorem Held.step {s t : State} (hsound : Sound s) (h : Held s) (hs : Step timeoutSec s e t) :
    Held t := by
  cases hs with
  | pass later => exact ⟨h.claimed, h.attended⟩
  | ask worker chats | answer worker chats =>
    refine h.setWorker worker (fun call hcall => ?_) id
    rw [chats] at hcall
    cases hcall
  | cancel worker chats hit => exact h.setWorker worker (fun _ _ => Or.inr hit) id
  | status free asks | refuse free asks =>
    refine .unjoined fun caller i request fate ho => ?_
    rw [resume_owner, free] at ho
    cases ho
  | poolJson => exact h
  | spawn free asks fit found unjoined =>
    refine .unjoined fun caller i request fate ho => ?_
    rw [resume_owner, fillSlot_owner, free] at ho
    cases ho
  | @evict _ caller args fate request i free asks fit found joins =>
    constructor
    · intro c j r f ho
      cases ho
      have hspec := allocSlot_spec hsound.past
      rw [found] at hspec
      rw [Slot.joins, Bool.and_eq_true] at joins
      rcases hspec with hidle | ⟨_, hend, _⟩
      · rw [hidle] at joins
        cases joins.1
      · exact ⟨hend, joins.2⟩
    · intro k j r f ho
      cases ho
      obtain ⟨w, hw, hphase⟩ := asks
      exact ⟨w, hw, Or.inl ⟨_, hphase⟩⟩
  | joined => exact .unjoined (by simp)
  | fall owner worker lives hit => exact h.setWorker worker (fun _ _ => Or.inr hit) id
  | faint => exact .unjoined (by simp)
  | report => exact .unjoined (by simp)
  | drop owner worker reports hit => exact h.setWorker worker (fun _ _ => Or.inr hit) id
  | release => exact .unjoined (by simp)
  | timeout free =>
    refine .unjoined fun caller i request fate ho => ?_
    change (watchdogFn s _).owner = _ at ho
    rw [watchdogFn_owner, free] at ho
    cases ho

end Dobby.Subagent
