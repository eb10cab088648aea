import Dobby.Model.Exchange
import Dobby.Proofs.SessionMap

namespace Dobby.Exchange
open Queue Session Runs

/-- An agent's state after it was given these texts, one `agent_chat` each. -/
inductive Talked (chat : α → Str → φ → Option Str × α × φ) (fresh : α) : List Str → α → Prop where
  | nil : Talked chat fresh [] fresh
  | snoc (before : Talked chat fresh texts agent)
      (talk : chat agent text data = (response, agent', data')) :
      Talked chat fresh (texts ++ [text]) agent'

/-- The step gives this slot a fresh agent. -/
def Event.opens (i : Fin sessionMax) : Event → Prop
  | .booted (.opened j) | .looked _ (.opened j) => j = i
  | _ => False

theorem opens_booted (i : Fin sessionMax) (l : Lookup) :
    (Event.booted l).opens i ↔ l = .opened i := by
  cases l <;> simp [Event.opens]

theorem opens_looked (i : Fin sessionMax) (msg : InboundMsg) (l : Lookup) :
    (Event.looked msg l).opens i ↔ l = .opened i := by
  cases l <;> simp [Event.opens]

/-- What the agent in this slot is about to be given. -/
def Pc.unheard (i : Fin sessionMax) : Pc → Option Str
  | .chatting msg j => if j = i then some msg.content else none
  | _ => none

/-- Since its slot was opened last, the agent has been given the contents of all
messages with its key, in order, up to the one that it is given next. -/
def Heard (factory : φ → Option α × φ) (chat : α → Str → φ → Option Str × α × φ)
    (es : List Event) (slot : Slot α) (i : Fin sessionMax) (unheard : Option Str) : Prop :=
  ∃ before opening after texts data data' fresh agent,
    es = before ++ opening :: after ∧ opening.opens i ∧ (∀ e ∈ after, ¬ e.opens i) ∧
    factory data = (some fresh, data') ∧ slot.agent = some agent ∧ Talked chat fresh texts agent ∧
    contentsFor slot.key (opening :: after) = texts ++ unheard.toList

section Slots
variable {factory : φ → Option α × φ} {chat : α → Str → φ → Option Str × α × φ} {slot slot' : Slot α}

/-- Another event at most adds what the agent is given next. -/
theorem Heard.log (h : Heard factory chat es slot i unheard) (hkey : slot'.key = slot.key)
    (hagent : slot'.agent = slot.agent) (hopen : ¬ e.opens i)
    (hnew : unheard.toList ++ contentsFor slot.key [e] = unheard'.toList) :
    Heard factory chat (es ++ [e]) slot' i unheard' := by
  obtain ⟨before, opening, after, texts, data, data', fresh, agent, rfl, hopens, hafter, hmade,
    hg, htalked, hcontents⟩ := h
  refine ⟨before, opening, after ++ [e], texts, data, data', fresh, agent, by simp, hopens, ?_,
    hmade, hagent.trans hg, htalked, ?_⟩
  · exact List.forall_mem_append.mpr ⟨hafter, List.forall_mem_singleton.mpr hopen⟩
  · rw [← List.cons_append, contentsFor_append, hkey, hcontents, List.append_assoc, hnew]

theorem Heard.opened (hopens : e.opens i) (hmade : factory data = (some fresh, data'))
    (hagent : slot.agent = some fresh) (hnew : contentsFor slot.key [e] = unheard.toList) :
    Heard factory chat (es ++ [e]) slot i unheard :=
  ⟨es, e, [], [], data, data', fresh, fresh, rfl, hopens, fun _ h => absurd h List.not_mem_nil,
    hmade, hagent, .nil, hnew⟩

/-- `agent_chat` hands the agent what was next. -/
theorem Heard.talk (h : Heard factory chat es slot i (some text)) (hagent : slot.agent = some g)
    (talk : chat g text data = (response, g', data')) (hopen : ¬ e.opens i)
    (hnew : contentsFor slot.key [e] = []) :
    Heard factory chat (es ++ [e]) { slot with agent := some g' } i none := by
  obtain ⟨before, opening, after, texts, data₀, data₁, fresh, agent, rfl, hopens, hafter, hmade,
    hg, htalked, hcontents⟩ := h
  rw [hagent] at hg
  cases hg
  refine ⟨before, opening, after ++ [e], texts ++ [text], data₀, data₁, fresh, g', by simp, hopens,
    ?_, hmade, rfl, htalked.snoc talk, ?_⟩
  · exact List.forall_mem_append.mpr ⟨hafter, List.forall_mem_singleton.mpr hopen⟩
  · change contentsFor slot.key (opening :: (after ++ [e])) = _
    rw [← List.cons_append, contentsFor_append, hcontents, hnew]
    simp

end Slots

/-- The table and what its agents have been given, along a run. -/
structure System.Sessions (factory : φ → Option α × φ) (chat : α → Str → φ → Option Str × α × φ)
    (es : List Event) (s : System α φ) : Prop where
  valid : s.sessions.Valid
  heard : ∀ i, (s.sessions.slots i).inUse = true →
    Heard factory chat es (s.sessions.slots i) i (s.pc.unheard i)
  held : ∀ msg i, s.pc = .chatting msg i → (s.sessions.slots i).inUse = true

/-- What a lookup does to the slots, whatever its result. -/
theorem lookup_cases {factory : φ → Option α × φ} {sm sm' : Manager α} (hv : sm.Valid)
    (made : sessionGetOrCreate factory sm data channel chatId tEvict tCreate = (res, sm', data')) :
    let key := sessionKey channel chatId
    (∃ i, res = some i ∧ lookupOf sm key res = .resumed i ∧ sm' = sm ∧
      (sm.slots i).inUse = true ∧ (sm.slots i).key = key) ∨
    (∃ i fresh data', res = some i ∧ lookupOf sm key res = .opened i ∧
      factory data = (some fresh, data') ∧ sm'.slots i = ⟨key, some fresh, tCreate, true⟩ ∧
      ∀ j, j ≠ i → (sm'.slots j).inUse = true → sm'.slots j = sm.slots j ∧ (sm.slots j).key ≠ key) ∨
    (res = none ∧ lookupOf sm key res = .unavailable ∧
      ∀ j, (sm'.slots j).inUse = true → sm'.slots j = sm.slots j ∧ (sm.slots j).key ≠ key) := by
  intro key
  have hroom : sm.Absent key → ∀ j, ((sm.room tEvict).slots j).inUse = true →
      (sm.room tEvict).slots j = sm.slots j ∧ (sm.slots j).key ≠ key := by
    intro ha j hj
    have hsame : (sm.room tEvict).slots j = sm.slots j := by
      unfold Manager.room at hj ⊢
      split at hj
      · rename_i hall
        rw [if_pos hall]
        exact (evictLocked_inUse hj).2.2
      · rename_i hall
        rw [if_neg hall]
    rw [hsame] at hj
    exact ⟨hsame, ha j hj⟩
  rcases getOrCreate_cases factory hv data channel chatId tEvict tCreate with
    ⟨i, hi, hk, hr⟩ | ⟨ha, i, fresh, data₁, hfree, hmade, hr⟩ | ⟨ha, _, data₁, _, hr⟩ | ⟨ha, _, hr⟩
  all_goals
    rw [made] at hr
    cases hr
  · exact .inl ⟨i, rfl, by simp [lookupOf, hi, hk, key], rfl, hi, hk⟩
  · refine .inr (.inl ⟨i, fresh, _, rfl, ?_, hmade, by simp [Manager.put, key], ?_⟩)
    · have hmiss : ((sm.slots i).inUse && (sm.slots i).key == key) = false := by
        cases hi : (sm.slots i).inUse with
        | false => rfl
        | true => simpa using ha i hi
      simp only [lookupOf]
      rw [hmiss]
      rfl
    · intro j hj hin
      have hput : ((sm.room tEvict).put i key fresh tCreate).slots j = (sm.room tEvict).slots j := by
        simp [Manager.put, hj]
      rw [hput] at hin ⊢
      exact hroom ha j hin
  · exact .inr (.inr ⟨rfl, rfl, hroom ha⟩)
  · exact .inr (.inr ⟨rfl, rfl, hroom ha⟩)

section Steps
variable {factory : φ → Option α × φ} {chat : α → Str → φ → Option Str × α × φ}
  {s t : System α φ}

/-- A lookup by `boot` or by the worker. `text` is what it is going to say. -/
theorem System.Sessions.lookup (hs : s.Sessions factory chat es) (text : Option Str)
    (made : sessionGetOrCreate factory s.sessions s.data channel chatId tEvict tCreate
      = (res, sm, data')) (hquiet : ∀ i, s.pc.unheard i = none)
    (hopens : ∀ i, e.opens i ↔ lookupOf s.sessions (sessionKey channel chatId) res = .opened i)
    (hnew : ∀ key, contentsFor key [e] = if sessionKey channel chatId = key then text.toList else [])
    (hcalls : t.sessions = sm) (hunheard : ∀ i, t.pc.unheard i = if res = some i then text else none)
    (hheld : ∀ msg i, t.pc = .chatting msg i → res = some i) :
    t.Sessions factory chat (es ++ [e]) := by
  have hvalid : sm.Valid := by
    have h := hs.valid.getOrCreate factory s.data channel chatId tEvict tCreate
    rwa [made] at h
  have hold : ∀ j, (s.sessions.slots j).inUse = true →
      (s.sessions.slots j).key ≠ sessionKey channel chatId → res ≠ some j → ¬ e.opens j →
      Heard factory chat (es ++ [e]) (s.sessions.slots j) j (t.pc.unheard j) := by
    intro j hj hkey hres hopen
    refine (hs.heard j hj).log rfl rfl hopen ?_
    rw [hquiet, hnew, if_neg (Ne.symm hkey), hunheard, if_neg hres]
    rfl
  refine ⟨hcalls ▸ hvalid, ?_, ?_⟩ <;> rw [hcalls]
  · intro j hj
    rcases lookup_cases hs.valid made with ⟨i, rfl, hl, rfl, hi, hki⟩ |
      ⟨i, fresh, data₁, rfl, hl, hmade, hslot, hother⟩ | ⟨rfl, hl, hother⟩
    · have hopen : ¬ e.opens j := by
        rw [hopens, hl]
        exact fun h => by cases h
      by_cases hji : j = i
      · subst hji
        refine (hs.heard j hj).log rfl rfl hopen ?_
        rw [hquiet, hnew, if_pos hki.symm, hunheard, if_pos rfl]
        rfl
      · refine hold j hj (fun hk => hji (hs.valid.distinct j i hj hi (hk.trans hki.symm))) ?_ hopen
        exact fun h => hji (Option.some.inj h).symm
    · by_cases hji : j = i
      · subst hji
        refine Heard.opened ((hopens j).mpr hl) hmade (by rw [hslot]) ?_
        rw [hslot, hnew, if_pos rfl, hunheard, if_pos rfl]
      · obtain ⟨hsame, hkey⟩ := hother j hji hj
        rw [hsame] at hj ⊢
        refine hold j hj hkey (fun h => hji (Option.some.inj h).symm) ?_
        rw [hopens, hl]
        exact fun h => hji (by cases h; rfl)
    · obtain ⟨hsame, hkey⟩ := hother j hj
      rw [hsame] at hj ⊢
      refine hold j hj hkey (fun h => by cases h) ?_
      rw [hopens, hl]
      exact fun h => by cases h
  · intro msg i hpc
    have hres := hheld msg i hpc
    rcases lookup_cases hs.valid made with ⟨j, hj, _, rfl, hi, _⟩ | ⟨j, _, _, hj, _, _, hslot, _⟩ |
      ⟨hnone, _⟩
    · rw [hres] at hj
      cases hj
      exact hi
    · rw [hres] at hj
      cases hj
      rw [hslot]
    · rw [hres] at hnone
      cases hnone

/-- Steps that leave the table alone and are not about a session. -/
theorem System.Sessions.moves (hs : s.Sessions factory chat es) (hsame : t.sessions = s.sessions)
    (hopen : ∀ i, ¬ e.opens i) (hnew : ∀ key, contentsFor key [e] = [])
    (hunheard : ∀ i, t.pc.unheard i = s.pc.unheard i)
    (hheld : ∀ msg i, t.pc = .chatting msg i → s.pc = .chatting msg i) :
    t.Sessions factory chat (es ++ [e]) := by
  refine ⟨hsame ▸ hs.valid, ?_, ?_⟩ <;> rw [hsame]
  · intro i hi
    refine (hs.heard i hi).log rfl rfl (hopen i) ?_
    rw [hnew, hunheard, List.append_nil]
  · intro msg i hpc
    exact hs.held msg i (hheld msg i hpc)

theorem System.Sessions.talk (hs : s.Sessions factory chat es) (hpc : s.pc = .chatting msg i)
    (owner : (s.sessions.slots i).agent = some agent)
    (talk : chat agent msg.content s.data = (response, agent', data')) :
    ({ s.setAgent i agent' with data := data', pc := .releasing msg i response } :
      System α φ).Sessions factory chat (es ++ [.chatted i response]) := by
  have hother : ∀ j, j ≠ i → (s.setAgent i agent').sessions.slots j = s.sessions.slots j := by
    intro j hj
    simp [System.setAgent, hj]
  have hown : (s.setAgent i agent').sessions.slots i =
      { s.sessions.slots i with agent := some agent' } := by
    simp [System.setAgent]
  refine ⟨?_, ?_, fun _ _ h => by cases h⟩
  · change (s.setAgent i agent').sessions.Valid
    refine hs.valid.relabel rfl (fun j => ?_)
    by_cases hj : j = i
    · subst hj
      rw [hown]
      exact ⟨rfl, rfl⟩
    · rw [hother j hj]
      exact ⟨rfl, rfl⟩
  · intro j hj
    change ((s.setAgent i agent').sessions.slots j).inUse = true at hj
    change Heard factory chat _ ((s.setAgent i agent').sessions.slots j) j none
    by_cases hji : j = i
    · subst hji
      have hheard := hs.heard j (hs.held msg j hpc)
      simp only [hpc, Pc.unheard, ↓reduceIte] at hheard
      rw [hown]
      exact hheard.talk owner talk id rfl
    · rw [hother j hji] at hj ⊢
      refine (hs.heard j hj).log rfl rfl id ?_
      simp [hpc, Pc.unheard, Ne.symm hji, contentsFor]

theorem System.Sessions.release (hs : s.Sessions factory chat es)
    (hpc : s.pc = .releasing msg i response) (now : Int) :
    ({ s with sessions := sessionRelease s.sessions i now, pc := .replying msg response } :
      System α φ).Sessions factory chat (es ++ [.released]) := by
  have hsame : ∀ j, ((sessionRelease s.sessions i now).slots j).inUse = (s.sessions.slots j).inUse ∧
      ((sessionRelease s.sessions i now).slots j).key = (s.sessions.slots j).key ∧
      ((sessionRelease s.sessions i now).slots j).agent = (s.sessions.slots j).agent := by
    intro j
    by_cases hj : j = i
    · subst hj
      rw [sessionRelease_self]
      exact ⟨rfl, rfl, rfl⟩
    · rw [sessionRelease_ne _ now hj]
      exact ⟨rfl, rfl, rfl⟩
  refine ⟨hs.valid.release i now, ?_, fun _ _ h => by cases h⟩
  intro j hj
  obtain ⟨hin, hkey, hagent⟩ := hsame j
  refine (hs.heard j (hin.symm.trans hj)).log hkey hagent id ?_
  simp [hpc, Pc.unheard, contentsFor]

theorem System.Sessions.step (hs : s.Sessions factory chat es) (h : Step factory chat s e t) :
    t.Sessions factory chat (es ++ [e]) := by
  cases h with
  | booted pc made =>
    exact hs.lookup none made (fun i => by rw [pc]; rfl) (fun i => opens_booted i _)
      (fun _ => (ite_self _).symm) rfl (fun i => by simp [Pc.unheard]) (fun _ _ h => by cases h)
  | @looked _ _ res _ _ _ msg pc made =>
    refine hs.lookup (some msg.content) made (fun i => by rw [pc]; rfl)
      (fun i => opens_looked i msg _) (fun key => ?_) rfl (fun i => ?_) (fun msg' i h => ?_)
    · by_cases hk : sessionKey msg.channel msg.chatId = key <;> simp [contentsFor, hk]
    · cases res <;> simp [afterLookup, Pc.unheard]
    · cases res with
      | none => cases h
      | some j =>
        cases h
        rfl
  | chatted pc owner talk => exact hs.talk pc owner talk
  | released pc => exact hs.release pc _
  | stays pc | leaves pc | consumed pc | drained pc | delivered pc | posted pc | dropped pc =>
    refine hs.moves rfl (fun _ h => h) (fun _ => rfl) (fun i => ?_) (fun _ _ h => by cases h)
    rw [pc]
    rfl
  | _ => exact hs.moves rfl (fun _ h => h) (fun _ => rfl) (fun _ => rfl) (fun _ _ h => h)

end Steps
end Dobby.Exchange
