import Dobby.Model.Session
import Dobby.Base.Runs
import Mathlib.Data.Fintype.Card
import Mathlib.Data.Set.Card

namespace Dobby.Session
open Runs Probing

def Manager.used (sm : Manager α) : Finset (Fin sessionMax) :=
  Finset.univ.filter (fun i => (sm.slots i).inUse = true)

/-- No session in use carries this key. -/
def Manager.Absent (sm : Manager α) (key : Str) : Prop :=
  ∀ i, (sm.slots i).inUse = true → (sm.slots i).key ≠ key

/-- Holes may lie anywhere; what matters is that keys do not repeat. -/
structure Manager.Valid (sm : Manager α) : Prop where
  distinct : ∀ i j, (sm.slots i).inUse = true → (sm.slots j).inUse = true →
    (sm.slots i).key = (sm.slots j).key → i = j
  counted : sm.count = sm.used.card

theorem mem_used {sm : Manager α} {i : Fin sessionMax} :
    i ∈ sm.used ↔ (sm.slots i).inUse = true := by
  simp [Manager.used]

theorem create_valid (ttl : Int) : (sessionManagerCreate ttl : Manager α).Valid :=
  ⟨fun _ _ h => absurd h Bool.false_ne_true,
    by simp [sessionManagerCreate, Manager.used, Slot.zero]⟩

theorem findSlot_present {sm : Manager α} (hv : sm.Valid) {i : Fin sessionMax}
    (hi : (sm.slots i).inUse = true) : findSlot sm (sm.slots i).key = some i := by
  have hown : ∃ j ∈ probeOrder sessionMax ((djb2 (sm.slots i).key).toNat % sessionMax),
      ((sm.slots j).inUse && (sm.slots j).key == (sm.slots i).key) = true :=
    ⟨i, mem_probeOrder sessionMax _ i, by simp [hi]⟩
  obtain ⟨j, _, hhit, he⟩ := scan_hit (fun i => !(sm.slots i).inUse) none hown
  simp only [Bool.and_eq_true, beq_iff_eq] at hhit
  have hij := hv.distinct j i hhit.1 hi hhit.2
  subst hij
  exact he

theorem findSlot_absent {sm : Manager α} {key : Str} (ha : sm.Absent key) :
    findSlot sm key = (probeOrder sessionMax ((djb2 key).toNat % sessionMax)).find?
      (fun i => !(sm.slots i).inUse) := by
  unfold findSlot
  rw [scan_miss, Option.none_or]
  intro i _
  cases hi : (sm.slots i).inUse with
  | false => rfl
  | true => simpa [hi] using ha i hi

theorem findSlot_free {sm : Manager α} {key : Str} (ha : sm.Absent key)
    (hf : findSlot sm key = some i) : (sm.slots i).inUse = false := by
  rw [findSlot_absent ha] at hf
  simpa using List.find?_some hf

/-- A lookup fails only on a table full of other sessions. -/
theorem findSlot_none {sm : Manager α} {key : Str} (hf : findSlot sm key = none) :
    sm.Absent key ∧ ∀ i, (sm.slots i).inUse = true := by
  have ha : sm.Absent key := by
    intro i hi hk
    have hown : ∃ j ∈ probeOrder sessionMax ((djb2 key).toNat % sessionMax),
        ((sm.slots j).inUse && (sm.slots j).key == key) = true :=
      ⟨i, mem_probeOrder sessionMax _ i, by simp [hi, hk]⟩
    obtain ⟨j, _, _, he⟩ := scan_hit (fun i => !(sm.slots i).inUse) none hown
    rw [findSlot, he] at hf
    cases hf
  refine ⟨ha, fun i => ?_⟩
  rw [findSlot_absent ha] at hf
  simpa using List.find?_eq_none.mp hf i (mem_probeOrder sessionMax _ i)

/-- What a pass over distinct slots does: each stale one is cleared and counted. -/
theorem evict_pass (now : Int) (l : List (Fin sessionMax)) (hn : l.Nodup)
    (sm : Manager α) (n : Nat) :
    (∀ i, (l.foldl (evictSlot now) (sm, n)).1.slots i =
      if i ∈ l ∧ sm.stale now i = true then .zero else sm.slots i) ∧
    (l.foldl (evictSlot now) (sm, n)).1.ttlSeconds = sm.ttlSeconds ∧
    (l.foldl (evictSlot now) (sm, n)).1.count = sm.count - (l.filter (sm.stale now)).length ∧
    (l.foldl (evictSlot now) (sm, n)).2 = n + (l.filter (sm.stale now)).length := by
  induction l generalizing sm n with
  | nil => simp
  | cons j js ih =>
    obtain ⟨hj, hjs⟩ := List.nodup_cons.mp hn
    rw [List.foldl_cons]
    by_cases hs : sm.stale now j = true
    · let sm' : Manager α :=
        { sm with slots := Function.update sm.slots j .zero, count := sm.count - 1 }
      have hstep : evictSlot now (sm, n) j = (sm', n + 1) := by simp [evictSlot, hs, sm']
      have hother : ∀ i, i ≠ j → sm'.slots i = sm.slots i := by
        intro i hi
        simp [sm', Function.update_of_ne hi]
      have hstale : ∀ i, i ≠ j → sm'.stale now i = sm.stale now i := by
        intro i hi
        simp only [Manager.stale, hother i hi]
        rfl
      have hfilter : js.filter (sm'.stale now) = js.filter (sm.stale now) := by
        apply List.filter_congr
        intro i hi
        exact hstale i (fun he => hj (he ▸ hi))
      obtain ⟨hslots, httl, hcount, hevicted⟩ := ih hjs sm' (n + 1)
      rw [hstep]
      refine ⟨?_, httl, ?_, ?_⟩
      · intro i
        rw [hslots i]
        by_cases hi : i = j
        · subst hi
          simp [hj, hs, sm']
        · simp [hi, hstale i hi, hother i hi]
      · rw [hcount, hfilter, List.filter_cons_of_pos hs, List.length_cons]
        simp only [sm']
        omega
      · rw [hevicted, hfilter, List.filter_cons_of_pos hs, List.length_cons]
        omega
    · have hstep : evictSlot now (sm, n) j = (sm, n) := by simp [evictSlot, hs]
      obtain ⟨hslots, httl, hcount, hevicted⟩ := ih hjs sm n
      rw [hstep]
      refine ⟨?_, httl, ?_, ?_⟩
      · intro i
        rw [hslots i]
        by_cases hi : i = j
        · subst hi
          simp [hs]
        · simp [hi]
      · rwa [List.filter_cons_of_neg hs]
      · rwa [List.filter_cons_of_neg hs]

theorem evictLocked_slots (sm : Manager α) (now : Int) (i : Fin sessionMax) :
    (evictLocked sm now).1.slots i = if sm.stale now i = true then .zero else sm.slots i := by
  obtain ⟨h, _⟩ := evict_pass now (List.finRange sessionMax) (List.nodup_finRange _) sm 0
  rw [evictLocked, h i]
  simp only [List.mem_finRange, true_and]

theorem evictLocked_ttl (sm : Manager α) (now : Int) :
    (evictLocked sm now).1.ttlSeconds = sm.ttlSeconds := by
  obtain ⟨_, h, _⟩ := evict_pass now (List.finRange sessionMax) (List.nodup_finRange _) sm 0
  rw [evictLocked, h]

theorem evictLocked_inUse {sm : Manager α} {now : Int} {i : Fin sessionMax}
    (h : ((evictLocked sm now).1.slots i).inUse = true) :
    (sm.slots i).inUse = true ∧ sm.stale now i = false ∧
      (evictLocked sm now).1.slots i = sm.slots i := by
  rw [evictLocked_slots] at h ⊢
  split at h
  · cases h
  · rename_i hs
    exact ⟨h, by simpa using hs, by simp [hs]⟩

theorem length_filter_finRange (p : Fin n → Bool) :
    ((List.finRange n).filter p).length = (Finset.univ.filter (fun i => p i = true)).card := by
  rw [← List.toFinset_card_of_nodup ((List.nodup_finRange n).filter p)]
  congr 1
  ext i
  simp

/-- Evicting leaves the fresh sessions and the exact count of them. -/
theorem Manager.Valid.evict {sm : Manager α} (hv : sm.Valid) (now : Int) :
    (evictLocked sm now).1.Valid := by
  refine ⟨?_, ?_⟩
  · intro i j hi hj hk
    obtain ⟨hi', _, hei⟩ := evictLocked_inUse hi
    obtain ⟨hj', _, hej⟩ := evictLocked_inUse hj
    rw [hei, hej] at hk
    exact hv.distinct i j hi' hj' hk
  · obtain ⟨_, _, hcount, _⟩ :=
      evict_pass now (List.finRange sessionMax) (List.nodup_finRange _) sm 0
    have hused : (evictLocked sm now).1.used =
        sm.used \ Finset.univ.filter (fun i => sm.stale now i = true) := by
      ext i
      rw [mem_used, evictLocked_slots]
      by_cases hs : sm.stale now i = true
      · simp [hs, Slot.zero]
      · simp [hs, mem_used]
    have hsub : Finset.univ.filter (fun i => sm.stale now i = true) ⊆ sm.used := by
      intro i hi
      simp only [Finset.mem_filter, Finset.mem_univ, true_and, Manager.stale,
        Bool.and_eq_true] at hi
      exact mem_used.mpr hi.1
    have hcard := Finset.card_sdiff_add_card_eq_card hsub
    rw [hused, evictLocked, hcount, hv.counted, length_filter_finRange]
    omega

/-- The table a new session is put into: stale sessions go only if it is full. -/
def Manager.room (sm : Manager α) (now : Int) : Manager α :=
  if ∀ i, (sm.slots i).inUse = true then (evictLocked sm now).1 else sm

def Manager.put (sm : Manager α) (i : Fin sessionMax) (key : Str) (agent : α) (now : Int) :
    Manager α :=
  { sm with slots := Function.update sm.slots i ⟨key, some agent, now, true⟩, count := sm.count + 1 }

theorem sessionKey_short (channel chatId : Str) :
    (sessionKey channel chatId).take (sessionKeyMax - 1) = sessionKey channel chatId := by
  simp [sessionKey]

theorem useSlot_free (factory : φ → Option α × φ) {sm : Manager α} (data : φ) (now : Int)
    (hfree : (sm.slots i).inUse = false) (hk : key.take (sessionKeyMax - 1) = key) :
    (∃ agent data', factory data = (some agent, data') ∧
      useSlot factory sm data key now i = (some i, sm.put i key agent now, data')) ∨
    (∃ data', factory data = (none, data') ∧
      useSlot factory sm data key now i = (none, sm, data')) := by
  simp only [useSlot, hfree, Bool.false_eq_true, ↓reduceIte, hk]
  cases hf : factory data with
  | mk made data' =>
    cases made with
    | none => exact .inr ⟨data', rfl, rfl⟩
    | some agent => exact .inl ⟨agent, data', rfl, rfl⟩

theorem Manager.Absent.evict {sm : Manager α} (ha : sm.Absent key) (now : Int) :
    (evictLocked sm now).1.Absent key := by
  intro i hi
  obtain ⟨hi', _, he⟩ := evictLocked_inUse hi
  rw [he]
  exact ha i hi'

/-- Everything a `session_get_or_create` can do: hand out the session of the key,
put a fresh one into a free slot, fail in the factory, or find no room. -/
theorem getOrCreate_cases (factory : φ → Option α × φ) {sm : Manager α} (hv : sm.Valid)
    (data : φ) (channel chatId : Str) (tEvict tCreate : Int) :
    let key := sessionKey channel chatId
    let r := sessionGetOrCreate factory sm data channel chatId tEvict tCreate
    (∃ i, (sm.slots i).inUse = true ∧ (sm.slots i).key = key ∧ r = (some i, sm, data)) ∨
    (sm.Absent key ∧ ∃ i agent data', ((sm.room tEvict).slots i).inUse = false ∧
      factory data = (some agent, data') ∧
      r = (some i, (sm.room tEvict).put i key agent tCreate, data')) ∨
    (sm.Absent key ∧ (∃ i, ((sm.room tEvict).slots i).inUse = false) ∧
      ∃ data', factory data = (none, data') ∧ r = (none, sm.room tEvict, data')) ∨
    (sm.Absent key ∧ (∀ i, ((sm.room tEvict).slots i).inUse = true) ∧
      r = (none, sm.room tEvict, data)) := by
  intro key r
  have hk : key.take (sessionKeyMax - 1) = key := sessionKey_short channel chatId
  by_cases hp : ∃ i, (sm.slots i).inUse = true ∧ (sm.slots i).key = key
  · obtain ⟨i, hi, hki⟩ := hp
    refine .inl ⟨i, hi, hki, ?_⟩
    have hf := findSlot_present hv hi
    rw [hki] at hf
    simp only [r, sessionGetOrCreate]
    rw [hf]
    simp [useSlot, hi]
  have ha : sm.Absent key := fun i hi hki => hp ⟨i, hi, hki⟩
  right
  cases hf : findSlot sm key with
  | some i =>
    have hi := findSlot_free ha hf
    have hroom : sm.room tEvict = sm := by
      simp only [Manager.room]
      rw [if_neg]
      intro hall
      rw [hall i] at hi
      cases hi
    have hr : r = useSlot factory sm data key tCreate i := by
      simp only [r, sessionGetOrCreate]
      rw [hf]
    rw [hroom]
    rcases useSlot_free factory data tCreate hi hk with
      ⟨agent, data', hmade, hu⟩ | ⟨data', hmade, hu⟩
    · exact .inl ⟨ha, i, agent, data', hi, hmade, hr.trans hu⟩
    · exact .inr (.inl ⟨ha, ⟨i, hi⟩, data', hmade, hr.trans hu⟩)
  | none =>
    have hroom : sm.room tEvict = (evictLocked sm tEvict).1 := by
      simp only [Manager.room]
      rw [if_pos (findSlot_none hf).2]
    rw [hroom]
    have ha' := ha.evict tEvict
    cases hf' : findSlot (evictLocked sm tEvict).1 key with
    | some i =>
      have hi := findSlot_free ha' hf'
      have hr : r = useSlot factory (evictLocked sm tEvict).1 data key tCreate i := by
        simp only [r, sessionGetOrCreate]
        rw [hf]
        simp only
        rw [hf']
      rcases useSlot_free factory data tCreate hi hk with
        ⟨agent, data', hmade, hu⟩ | ⟨data', hmade, hu⟩
      · exact .inl ⟨ha, i, agent, data', hi, hmade, hr.trans hu⟩
      · exact .inr (.inl ⟨ha, ⟨i, hi⟩, data', hmade, hr.trans hu⟩)
    | none =>
      refine .inr (.inr ⟨ha, (findSlot_none hf').2, ?_⟩)
      simp only [r, sessionGetOrCreate]
      rw [hf]
      simp only
      rw [hf']

theorem Manager.Valid.room {sm : Manager α} (hv : sm.Valid) (now : Int) : (sm.room now).Valid := by
  unfold Manager.room
  split
  · exact hv.evict now
  · exact hv

theorem Manager.Absent.room {sm : Manager α} (ha : sm.Absent key) (now : Int) :
    (sm.room now).Absent key := by
  unfold Manager.room
  split
  · exact ha.evict now
  · exact ha

theorem Manager.Valid.put {sm : Manager α} (hv : sm.Valid) (ha : sm.Absent key)
    (hfree : (sm.slots i).inUse = false) (agent : α) (now : Int) :
    (sm.put i key agent now).Valid := by
  have hother : ∀ j, j ≠ i → (sm.put i key agent now).slots j = sm.slots j := by
    intro j hj
    simp [Manager.put, Function.update_of_ne hj]
  have hown : (sm.put i key agent now).slots i = ⟨key, some agent, now, true⟩ := by
    simp [Manager.put]
  refine ⟨?_, ?_⟩
  · intro j l hj hl hk
    by_cases hji : j = i <;> by_cases hli : l = i
    · exact hji.trans hli.symm
    · subst hji
      rw [hown, hother l hli] at hk
      rw [hother l hli] at hl
      exact absurd hk.symm (ha l hl)
    · subst hli
      rw [hown, hother j hji] at hk
      rw [hother j hji] at hj
      exact absurd hk (ha j hj)
    · rw [hother j hji] at hj hk
      rw [hother l hli] at hl hk
      exact hv.distinct j l hj hl hk
  · have hused : (sm.put i key agent now).used = insert i sm.used := by
      ext j
      rw [mem_used, Finset.mem_insert]
      by_cases hj : j = i
      · subst hj
        simp [hown]
      · simp [hother j hj, hj, mem_used]
    have hnot : i ∉ sm.used := by simp [mem_used, hfree]
    rw [hused, Finset.card_insert_of_notMem hnot]
    simp [Manager.put, hv.counted]

theorem Manager.Valid.getOrCreate {sm : Manager α} (hv : sm.Valid)
    (factory : φ → Option α × φ) (data : φ) (channel chatId : Str) (tEvict tCreate : Int) :
    (sessionGetOrCreate factory sm data channel chatId tEvict tCreate).2.1.Valid := by
  rcases getOrCreate_cases factory hv data channel chatId tEvict tCreate with
    ⟨i, _, _, hr⟩ | ⟨ha, i, agent, data', hfree, _, hr⟩ | ⟨_, _, data', _, hr⟩ | ⟨_, _, hr⟩
  all_goals rw [hr]
  · exact hv
  · exact (hv.room tEvict).put (ha.room tEvict) hfree agent tCreate
  · exact hv.room tEvict
  · exact hv.room tEvict

/-- Only the keys in use and their number matter. -/
theorem Manager.Valid.relabel {sm sm' : Manager α} (hv : sm.Valid) (hcount : sm'.count = sm.count)
    (hsame : ∀ j, (sm'.slots j).inUse = (sm.slots j).inUse ∧ (sm'.slots j).key = (sm.slots j).key) :
    sm'.Valid := by
  refine ⟨?_, ?_⟩
  · intro i j hi hj hk
    rw [(hsame i).1] at hi
    rw [(hsame j).1] at hj
    rw [(hsame i).2, (hsame j).2] at hk
    exact hv.distinct i j hi hj hk
  · have hused : sm'.used = sm.used := by
      ext j
      rw [mem_used, mem_used, (hsame j).1]
    rw [hused, hcount]
    exact hv.counted

theorem Manager.Valid.release {sm : Manager α} (hv : sm.Valid) (idx : Fin sessionMax)
    (now : Int) : (sessionRelease sm idx now).Valid := by
  refine hv.relabel rfl (fun j => ?_)
  by_cases hj : j = idx
  · subst hj
    rw [sessionRelease_self]
    exact ⟨rfl, rfl⟩
  · rw [sessionRelease_ne sm now hj]
    exact ⟨rfl, rfl⟩

theorem Manager.Valid.step {factory : φ → Option α × φ} {s t : Manager α × φ} (hv : s.1.Valid)
    (hs : Step factory s call t) : t.1.Valid := by
  cases hs with
  | @getOrCreate sm data channel chatId tEvict tCreate res sm' data' made =>
    have h := hv.getOrCreate factory data channel chatId tEvict tCreate
    rwa [made] at h
  | release => exact hv.release _ _
  | evictStale =>
    dsimp only [sessionEvictStale] at hv ⊢
    exact hv.evict _

end Dobby.Session
