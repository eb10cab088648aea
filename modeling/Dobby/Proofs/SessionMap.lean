import Dobby.Proofs.SessionTable

namespace Dobby.Session
open Runs

/-- What the component is for: at most one idle-timed agent for each key. -/
structure Entry (α : Type u) where
  agent : Option α
  lastActive : Int

abbrev Table (α : Type u) := Str → Option (Entry α)

noncomputable def Table.size (m : Table α) : Nat := Set.ncard {k | m k ≠ none}

/-- Drop the entries idle for the time to live or longer. -/
def Table.sweep (m : Table α) (ttl now : Int) : Table α :=
  fun k => (m k).filter (fun e => decide (now - e.lastActive < ttl))

/-- Only a full table is swept to make room for a new key. -/
noncomputable def Table.room (m : Table α) (ttl now : Int) : Table α :=
  if m.size < sessionMax then m else m.sweep ttl now

noncomputable def Table.getOrCreate (factory : φ → Option α × φ) (ttl : Int) (m : Table α)
    (data : φ) (key : Str) (tEvict tCreate : Int) : Option (Entry α) × Table α × φ :=
  match m key with
  | some e => (some e, m, data)
  | none =>
    if (m.room ttl tEvict).size < sessionMax then
      match factory data with
      | (none, data') => (none, m.room ttl tEvict, data')
      | (some agent, data') =>
        (some ⟨some agent, tCreate⟩,
          Function.update (m.room ttl tEvict) key (some ⟨some agent, tCreate⟩), data')
    else (none, m.room ttl tEvict, data)

/-- The calls on the abstract table. A release names a session by its key; the
release of a session that is gone changes nothing. -/
inductive TableStep (factory : φ → Option α × φ) (ttl : Int) :
    Table α × φ → Call → Table α × φ → Prop where
  | getOrCreate : TableStep factory ttl (m, data) (.getOrCreate channel chatId tEvict tCreate)
      (m.getOrCreate factory ttl data (sessionKey channel chatId) tEvict tCreate).2
  | release (live : m key = some e) : TableStep factory ttl (m, data) (.release idx now)
      (Function.update m key (some { e with lastActive := now }), data)
  | releaseGone : TableStep factory ttl (m, data) (.release idx now) (m, data)
  | evictStale : TableStep factory ttl (m, data) (.evictStale now) (m.sweep ttl now, data)

def Slot.entry (s : Slot α) : Entry α := ⟨s.agent, s.lastActive⟩

/-- The slot in use that carries a key. -/
def Manager.slotOf (sm : Manager α) (key : Str) : Option (Fin sessionMax) :=
  (List.finRange sessionMax).find? (fun i => (sm.slots i).inUse && (sm.slots i).key == key)

/-- The table that a manager stands for. -/
def Manager.view (sm : Manager α) : Table α :=
  fun key => (sm.slotOf key).map (fun i => (sm.slots i).entry)

theorem view_absent {sm : Manager α} (ha : sm.Absent key) : sm.view key = none := by
  have hn : sm.slotOf key = none := by
    apply List.find?_eq_none.mpr
    intro i _
    have := ha i
    cases hi : (sm.slots i).inUse <;> simp_all
  simp [Manager.view, hn]

theorem view_present {sm : Manager α} (hv : sm.Valid) (hi : (sm.slots i).inUse = true) :
    sm.view (sm.slots i).key = some (sm.slots i).entry := by
  have hs : sm.slotOf (sm.slots i).key = some i := by
    cases hf : sm.slotOf (sm.slots i).key with
    | none =>
      have := List.find?_eq_none.mp hf i (List.mem_finRange i)
      simp [hi] at this
    | some j =>
      have hj := List.find?_some hf
      simp only [Bool.and_eq_true, beq_iff_eq] at hj
      rw [hv.distinct j i hj.1 hi hj.2]
  simp [Manager.view, hs]

theorem view_ne_none {sm : Manager α} (hv : sm.Valid) :
    {k | sm.view k ≠ none} = (fun i => (sm.slots i).key) '' (sm.used : Set (Fin sessionMax)) := by
  ext k
  constructor
  · intro hk
    by_contra hn
    apply hk
    apply view_absent
    intro i hi he
    exact hn ⟨i, by simpa using mem_used.mpr hi, he⟩
  · rintro ⟨i, hi, rfl⟩
    have hi' : (sm.slots i).inUse = true := mem_used.mp (by simpa using hi)
    simp [view_present hv hi']

/-- The abstract size is the number of slots in use. -/
theorem size_view {sm : Manager α} (hv : sm.Valid) : sm.view.size = sm.used.card := by
  have hinj : Set.InjOn (fun i => (sm.slots i).key) (sm.used : Set (Fin sessionMax)) := by
    intro i hi j hj he
    exact hv.distinct i j (mem_used.mp (by simpa using hi)) (mem_used.mp (by simpa using hj)) he
  rw [Table.size, view_ne_none hv, hinj.ncard_image, Set.ncard_coe_finset]

theorem size_lt_iff {sm : Manager α} (hv : sm.Valid) :
    sm.view.size < sessionMax ↔ ∃ i, (sm.slots i).inUse = false := by
  rw [size_view hv]
  constructor
  · intro hlt
    by_contra hn
    have hall : sm.used = Finset.univ := by
      ext i
      simp only [mem_used, Finset.mem_univ, iff_true]
      cases hi : (sm.slots i).inUse with
      | true => rfl
      | false => exact absurd ⟨i, hi⟩ hn
    rw [hall, Finset.card_univ, Fintype.card_fin] at hlt
    exact Nat.lt_irrefl _ hlt
  · rintro ⟨i, hi⟩
    have hne : sm.used ⊂ Finset.univ := by
      refine ⟨Finset.subset_univ _, fun hsub => ?_⟩
      have := mem_used.mp (hsub (Finset.mem_univ i))
      rw [hi] at this
      cases this
    simpa using Finset.card_lt_card hne

theorem view_evict {sm : Manager α} (hv : sm.Valid) (now : Int) :
    (evictLocked sm now).1.view = sm.view.sweep sm.ttlSeconds now := by
  funext k
  by_cases hp : ∃ i, (sm.slots i).inUse = true ∧ (sm.slots i).key = k
  · obtain ⟨i, hi, rfl⟩ := hp
    rw [Table.sweep, view_present hv hi]
    cases hs : sm.stale now i with
    | true =>
      have hidle : sm.ttlSeconds ≤ now - (sm.slots i).lastActive := by
        simpa [Manager.stale, hi] using hs
      have ha : (evictLocked sm now).1.Absent (sm.slots i).key := by
        intro j hj hk
        obtain ⟨hj', hns, he⟩ := evictLocked_inUse hj
        rw [he] at hk
        rw [hv.distinct j i hj' hi hk, hs] at hns
        cases hns
      rw [view_absent ha, Option.filter_some, if_neg]
      exact fun h => absurd (of_decide_eq_true h) (Int.not_lt.mpr hidle)
    | false =>
      have hidle : now - (sm.slots i).lastActive < sm.ttlSeconds := by
        simpa [Manager.stale, hi] using hs
      have he : (evictLocked sm now).1.slots i = sm.slots i := by
        rw [evictLocked_slots]
        simp [hs]
      have hp := view_present (hv.evict now) (i := i) (by rw [he]; exact hi)
      rw [he] at hp
      rw [hp, Option.filter_some, if_pos]
      exact decide_eq_true hidle
  · have ha : sm.Absent k := fun i hi hk => hp ⟨i, hi, hk⟩
    rw [Table.sweep, view_absent ha, view_absent (ha.evict now)]
    rfl

theorem view_room {sm : Manager α} (hv : sm.Valid) (now : Int) :
    (sm.room now).view = sm.view.room sm.ttlSeconds now := by
  unfold Manager.room Table.room
  by_cases hfull : ∀ i, (sm.slots i).inUse = true
  · have hn : ¬ sm.view.size < sessionMax := by
      rw [size_lt_iff hv]
      rintro ⟨i, hi⟩
      rw [hfull i] at hi
      cases hi
    rw [if_pos hfull, if_neg hn, view_evict hv]
  · have hp : sm.view.size < sessionMax := by
      rw [size_lt_iff hv]
      simpa using hfull
    rw [if_neg hfull, if_pos hp]

theorem room_ttl (sm : Manager α) (now : Int) : (sm.room now).ttlSeconds = sm.ttlSeconds := by
  unfold Manager.room
  split
  · exact evictLocked_ttl sm now
  · rfl

/-- Filling a free slot or touching the session of a key changes only what is
found under that key. -/
theorem view_change {sm sm' : Manager α} (hv : sm.Valid) (hv' : sm'.Valid)
    (hother : ∀ j, j ≠ i → sm'.slots j = sm.slots j) (hi : (sm'.slots i).inUse = true)
    (hwas : (sm.slots i).inUse = true → (sm.slots i).key = (sm'.slots i).key) :
    sm'.view = Function.update sm.view (sm'.slots i).key (some (sm'.slots i).entry) := by
  funext k
  by_cases hk : k = (sm'.slots i).key
  · subst hk
    simpa using view_present hv' hi
  rw [Function.update_of_ne hk]
  by_cases hp : ∃ j, (sm.slots j).inUse = true ∧ (sm.slots j).key = k
  · obtain ⟨j, hj, rfl⟩ := hp
    have hji : j ≠ i := by
      rintro rfl
      exact hk (hwas hj)
    have hp := view_present hv' (i := j) (by rw [hother j hji]; exact hj)
    rw [hother j hji] at hp
    rw [hp, view_present hv hj]
  · have ha : sm.Absent k := fun j hj hkj => hp ⟨j, hj, hkj⟩
    have ha' : sm'.Absent k := by
      intro j hj hkj
      by_cases hji : j = i
      · subst hji
        exact hk hkj.symm
      · rw [hother j hji] at hj hkj
        exact ha j hj hkj
    rw [view_absent ha, view_absent ha']

theorem view_put {sm : Manager α} (hv : sm.Valid) (ha : sm.Absent key)
    (hfree : (sm.slots i).inUse = false) (agent : α) (now : Int) :
    (sm.put i key agent now).view = Function.update sm.view key (some ⟨some agent, now⟩) := by
  have hown : (sm.put i key agent now).slots i = ⟨key, some agent, now, true⟩ := by
    simp [Manager.put]
  have hother : ∀ j, j ≠ i → (sm.put i key agent now).slots j = sm.slots j := by
    intro j hj
    simp [Manager.put, Function.update_of_ne hj]
  have h := view_change hv (hv.put ha hfree agent now) hother (by rw [hown])
    (fun h => absurd (hfree.symm.trans h) Bool.false_ne_true)
  rwa [hown] at h

theorem view_release {sm : Manager α} (hv : sm.Valid) (hi : (sm.slots idx).inUse = true)
    (now : Int) : (sessionRelease sm idx now).view =
      Function.update sm.view (sm.slots idx).key (some ⟨(sm.slots idx).agent, now⟩) := by
  have hown := sessionRelease_self sm idx now
  have hother : ∀ j, j ≠ idx → (sessionRelease sm idx now).slots j = sm.slots j :=
    fun _ hj => sessionRelease_ne sm now hj
  have h := view_change hv (hv.release idx now) hother (by rw [hown]; exact hi)
    (fun _ => by rw [hown])
  rwa [hown] at h

/-- A slot that is not in use can change its time stamp unseen. -/
theorem view_release_gone {sm : Manager α} (hv : sm.Valid) (hi : (sm.slots idx).inUse = false)
    (now : Int) : (sessionRelease sm idx now).view = sm.view := by
  have hown := sessionRelease_self sm idx now
  have hother : ∀ j, j ≠ idx → (sessionRelease sm idx now).slots j = sm.slots j :=
    fun _ hj => sessionRelease_ne sm now hj
  funext k
  by_cases hp : ∃ j, (sm.slots j).inUse = true ∧ (sm.slots j).key = k
  · obtain ⟨j, hj, rfl⟩ := hp
    have hji : j ≠ idx := by
      rintro rfl
      exact absurd (hi.symm.trans hj) Bool.false_ne_true
    have hp := view_present (hv.release idx now) (i := j) (by rw [hother j hji]; exact hj)
    rw [hother j hji] at hp
    rw [hp, view_present hv hj]
  · have ha : sm.Absent k := fun j hj hkj => hp ⟨j, hj, hkj⟩
    have ha' : (sessionRelease sm idx now).Absent k := by
      intro j hj hkj
      by_cases hji : j = idx
      · subst hji
        rw [hown] at hj
        exact absurd (hi.symm.trans hj) Bool.false_ne_true
      · rw [hother j hji] at hj hkj
        exact ha j hj hkj
    rw [view_absent ha, view_absent ha']

/-- `session_get_or_create` is the abstract lookup or insertion. -/
theorem view_getOrCreate (factory : φ → Option α × φ) {sm : Manager α} (hv : sm.Valid)
    (data : φ) (channel chatId : Str) (tEvict tCreate : Int) :
    let r := sessionGetOrCreate factory sm data channel chatId tEvict tCreate
    sm.view.getOrCreate factory sm.ttlSeconds data (sessionKey channel chatId) tEvict tCreate =
      (r.1.map (fun i => (r.2.1.slots i).entry), r.2.1.view, r.2.2) := by
  intro r
  rcases getOrCreate_cases factory hv data channel chatId tEvict tCreate with
    ⟨i, hi, hk, hr⟩ | ⟨ha, i, agent, data', hfree, hmade, hr⟩ | ⟨ha, hfree, data', hmade, hr⟩ |
    ⟨ha, hfull, hr⟩
  · change r = _ at hr
    rw [hr, ← hk]
    simp [Table.getOrCreate, view_present hv hi]
  · change r = _ at hr
    have hsize := (size_lt_iff (hv.room tEvict)).mpr ⟨i, hfree⟩
    rw [view_room hv] at hsize
    have hview := view_put (hv.room tEvict) (ha.room tEvict) hfree agent tCreate
    rw [view_room hv] at hview
    have hown : ((sm.room tEvict).put i (sessionKey channel chatId) agent tCreate).slots i =
        ⟨sessionKey channel chatId, some agent, tCreate, true⟩ := by simp [Manager.put]
    rw [hr]
    simp only [Table.getOrCreate, view_absent ha, if_pos hsize, hmade, Option.map_some, hview,
      hown, Slot.entry]
  · change r = _ at hr
    have hsize := (size_lt_iff (hv.room tEvict)).mpr hfree
    rw [view_room hv] at hsize
    rw [hr]
    simp [Table.getOrCreate, view_absent ha, if_pos hsize, hmade, view_room hv]
  · change r = _ at hr
    have hsize : ¬ (sm.view.room sm.ttlSeconds tEvict).size < sessionMax := by
      rw [← view_room hv, size_lt_iff (hv.room tEvict)]
      rintro ⟨i, hi⟩
      exact absurd ((hfull i).symm.trans hi).symm Bool.false_ne_true
    rw [hr]
    simp [Table.getOrCreate, view_absent ha, if_neg hsize, view_room hv]

/-- A manager stands for its view, under the factory's own data. -/
def Stands (ttl : Int) (c : Manager α × φ) (a : Table α × φ) : Prop :=
  c.1.Valid ∧ c.1.ttlSeconds = ttl ∧ a = (c.1.view, c.2)

theorem getOrCreate_ttl (factory : φ → Option α × φ) {sm : Manager α} (hv : sm.Valid)
    (data : φ) (channel chatId : Str) (tEvict tCreate : Int) :
    (sessionGetOrCreate factory sm data channel chatId tEvict tCreate).2.1.ttlSeconds =
      sm.ttlSeconds := by
  rcases getOrCreate_cases factory hv data channel chatId tEvict tCreate with
    ⟨i, _, _, hr⟩ | ⟨_, i, agent, data', _, _, hr⟩ | ⟨_, _, data', _, hr⟩ | ⟨_, _, hr⟩
  all_goals rw [hr]
  · exact room_ttl sm tEvict
  · exact room_ttl sm tEvict
  · exact room_ttl sm tEvict

/-- Each call on the table of slots is the same call on the map. -/
theorem manager_simulates (factory : φ → Option α × φ) (ttl : Int) :
    Simulates (Step factory) (TableStep factory ttl) (fun call => [call]) (Stands ttl) := by
  rintro ⟨sm, data⟩ call t a ⟨hv, httl, rfl⟩ hs
  dsimp only at hv httl
  subst httl
  have hv' := Manager.Valid.step hv hs
  cases hs with
  | @getOrCreate sm data channel chatId tEvict tCreate res sm' data' made =>
    have hview := view_getOrCreate factory hv data channel chatId tEvict tCreate
    have httl := getOrCreate_ttl factory hv data channel chatId tEvict tCreate
    rw [made] at hview httl
    refine ⟨_, .single .getOrCreate, hv', httl, ?_⟩
    rw [hview]
  | @release _ _ idx now =>
    cases hi : (sm.slots idx).inUse with
    | true =>
      refine ⟨_, .single (.release (view_present hv hi)), hv', rfl, ?_⟩
      rw [view_release hv hi]
      rfl
    | false =>
      refine ⟨_, .single .releaseGone, hv', rfl, ?_⟩
      rw [view_release_gone hv hi]
  | @evictStale _ _ now =>
    dsimp only [sessionEvictStale] at hv' ⊢
    have httl := evictLocked_ttl sm now
    have hstep : TableStep factory sm.ttlSeconds (sm.view, data) (.evictStale now)
        (sm.view.sweep sm.ttlSeconds now, data) := .evictStale
    refine ⟨_, .single hstep, ?_⟩
    dsimp only [Stands]
    exact ⟨hv', httl, by rw [view_evict hv]⟩

/-- What one `session_get_or_create` may answer and change. -/
structure Served (factory : φ → Option α × φ) (sm : Manager α) (data : φ) (key : Str)
    (tEvict tCreate : Int) (res : Option (Fin sessionMax)) (sm' : Manager α) (data' : φ) :
    Prop where
  present : ∀ i, (sm.slots i).inUse = true → (sm.slots i).key = key →
    res = some i ∧ sm' = sm ∧ data' = data
  created : sm.Absent key → ∀ i, res = some i →
    ∃ agent, factory data = (some agent, data') ∧ sm'.slots i = ⟨key, some agent, tCreate, true⟩
  refused : res = none → (factory data).1 = none ∨
    ∀ i, (sm.slots i).inUse = true ∧ (sm.slots i).key ≠ key ∧
      tEvict - (sm.slots i).lastActive < sm.ttlSeconds
  others : ∀ j, (sm.slots j).inUse = true → (sm.slots j).key ≠ key →
    sm'.slots j = sm.slots j ∨
      ((∀ i, (sm.slots i).inUse = true) ∧ sm.ttlSeconds ≤ tEvict - (sm.slots j).lastActive)

/-- Making room evicts from a full table only, and only what is stale. -/
theorem room_slots (sm : Manager α) (now : Int) (hj : (sm.slots j).inUse = true) :
    (sm.room now).slots j = sm.slots j ∨
      ((∀ i, (sm.slots i).inUse = true) ∧ sm.ttlSeconds ≤ now - (sm.slots j).lastActive) := by
  unfold Manager.room
  split
  · rename_i hall
    rw [evictLocked_slots]
    split
    · rename_i hs
      exact .inr ⟨hall, by simpa [Manager.stale, hj] using hs⟩
    · exact .inl rfl
  · exact .inl rfl

theorem room_full {sm : Manager α} {now : Int}
    (h : ∀ i, ((sm.room now).slots i).inUse = true) (j : Fin sessionMax) :
    (sm.slots j).inUse = true ∧ now - (sm.slots j).lastActive < sm.ttlSeconds := by
  have hj := h j
  unfold Manager.room at hj
  split at hj
  · obtain ⟨hi, hs, _⟩ := evictLocked_inUse hj
    exact ⟨hi, by simpa [Manager.stale, hi] using hs⟩
  · rename_i hn
    refine absurd (fun i => ?_) hn
    have hi := h i
    unfold Manager.room at hi
    rwa [if_neg hn] at hi

theorem getOrCreate_served {factory : φ → Option α × φ} {sm : Manager α} (hv : sm.Valid)
    (data : φ) (channel chatId : Str) (tEvict tCreate : Int) :
    let r := sessionGetOrCreate factory sm data channel chatId tEvict tCreate
    Served factory sm data (sessionKey channel chatId) tEvict tCreate r.1 r.2.1 r.2.2 := by
  intro r
  rcases getOrCreate_cases factory hv data channel chatId tEvict tCreate with
    ⟨i, hi, hk, hr⟩ | ⟨ha, i, agent, data', hfree, hmade, hr⟩ | ⟨ha, hfree, data', hmade, hr⟩ |
    ⟨ha, hfull, hr⟩
  all_goals
    change r = _ at hr
    rw [hr]
  · refine ⟨?_, ?_, ?_, fun _ _ _ => .inl rfl⟩
    · intro j hj hkj
      exact ⟨by rw [hv.distinct i j hi hj (hk.trans hkj.symm)], rfl, rfl⟩
    · intro ha
      exact absurd hk (ha i hi)
    · intro h
      cases h
  · refine ⟨fun j hj hk => absurd hk (ha j hj), ?_, fun h => (by cases h), ?_⟩
    · rintro _ j hj
      obtain rfl := Option.some.inj hj
      exact ⟨agent, hmade, by simp [Manager.put]⟩
    · intro j hj _
      rcases room_slots sm tEvict hj with he | hstale
      · left
        have hji : j ≠ i := by
          rintro rfl
          rw [he, hj] at hfree
          cases hfree
        simpa [Manager.put, Function.update_of_ne hji] using he
      · exact .inr hstale
  · refine ⟨fun j hj hk => absurd hk (ha j hj), fun _ _ h => (by cases h), fun _ => .inl ?_,
      fun j hj _ => room_slots sm tEvict hj⟩
    rw [hmade]
  · refine ⟨fun j hj hk => absurd hk (ha j hj), fun _ _ h => (by cases h), fun _ => .inr ?_,
      fun j hj _ => room_slots sm tEvict hj⟩
    intro j
    obtain ⟨hj, hidle⟩ := room_full hfull j
    exact ⟨hj, ha j hj, hidle⟩

/-- The open-addressing table refines a map from keys to sessions, over every
sequence of calls and whatever the factory and the clock do. -/
theorem session_table_refines_map {factory : φ → Option α × φ} {ttlSeconds : Int} {data₀ : φ}
    {sm : Manager α} {data : φ}
    (h : Run (Step factory) (sessionManagerCreate ttlSeconds, data₀) calls (sm, data)) :
    (∀ i j, (sm.slots i).inUse = true → (sm.slots j).inUse = true →
      (sm.slots i).key = (sm.slots j).key → i = j) ∧
    sm.count = (Finset.univ.filter (fun i => (sm.slots i).inUse = true)).card ∧
    Run (TableStep factory sm.ttlSeconds) (fun _ => none, data₀) calls (sm.view, data) ∧
    ∀ channel chatId tEvict tCreate,
      let r := sessionGetOrCreate factory sm data channel chatId tEvict tCreate
      Served factory sm data (sessionKey channel chatId) tEvict tCreate r.1 r.2.1 r.2.2 := by
  have hempty : (sessionManagerCreate ttlSeconds : Manager α).view = fun _ => none := by
    funext k
    exact view_absent (fun i hi => absurd hi Bool.false_ne_true)
  have h0 : Stands (sessionManagerCreate ttlSeconds : Manager α).ttlSeconds
      (sessionManagerCreate ttlSeconds, data₀) (fun _ => none, data₀) :=
    ⟨create_valid ttlSeconds, rfl, by rw [hempty]⟩
  obtain ⟨a, hrun, hv, httl, rfl⟩ := (manager_simulates factory _).run h h0
  dsimp only at hv httl
  refine ⟨hv.distinct, hv.counted, ?_, fun channel chatId tEvict tCreate =>
    getOrCreate_served hv data channel chatId tEvict tCreate⟩
  rw [httl]
  simpa using hrun

/-- A factory that numbers the agents. -/
def numbering (n : Nat) : Option Nat × Nat := (some n, n + 1)

def afterCall (st : Manager Nat × Nat) : Call → Manager Nat × Nat
  | .getOrCreate channel chatId tEvict tCreate =>
    (sessionGetOrCreate numbering st.1 st.2 channel chatId tEvict tCreate).2
  | .release idx now => (sessionRelease st.1 idx now, st.2)
  | .evictStale now => ((sessionEvictStale st.1 now).1, st.2)

theorem run_calls (st : Manager Nat × Nat) (calls : List Call) :
    Run (Step numbering) st calls (calls.foldl afterCall st) := by
  induction calls using List.reverseRecOn with
  | nil => exact .nil
  | append_singleton calls c ih =>
    rw [List.foldl_concat]
    refine .snoc ih ?_
    cases c with
    | getOrCreate => exact .getOrCreate rfl
    | release => exact .release
    | evictStale => exact .evictStale

/-- Two keys that hash to one slot. The first gets stale, the second is found behind the hole it
leaves, and a third key of that slot fills the hole. -/
def holeCalls : List Call :=
  [.getOrCreate "cli".toList "local".toList 5 5, .getOrCreate "http".toList "b1".toList 5 5,
    .release 21 3600, .evictStale 3605, .getOrCreate "http".toList "b1".toList 3606 3606,
    .getOrCreate "http".toList "d7".toList 3606 3606]

def holeSessions (n : Nat) : Manager Nat × Nat :=
  (holeCalls.take n).foldl afterCall (sessionManagerCreate 0, 0)

theorem holeSessions_run (n : Nat) : Run (Step numbering) (sessionManagerCreate 0, 0)
    (holeCalls.take n) ((holeSessions n).1, (holeSessions n).2) := by
  rw [Prod.mk.eta]
  exact run_calls _ _

theorem session_table_refines_map_hole :
    ((holeSessions 4).1.slots 20).inUse = false ∧
      ((holeSessions 6).1.slots 20).key = "http:d7".toList ∧
      ((holeSessions 6).1.slots 21).key = "http:b1".toList ∧
      ((holeSessions 6).1.slots 21).agent = some 1 ∧
      (holeSessions 6).1.count =
        (Finset.univ.filter (fun i => ((holeSessions 6).1.slots i).inUse = true)).card := by
  refine ⟨by decide +kernel, by decide +kernel, by decide +kernel, by decide +kernel, ?_⟩
  exact (session_table_refines_map (holeSessions_run 6)).2.1

end Dobby.Session
