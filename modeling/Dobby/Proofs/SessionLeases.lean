import Dobby.Proofs.SessionTable

namespace Dobby.Session
open Runs

/-- A session that was handed out, as its caller got it. -/
structure Lease (α : Type u) where
  idx : Fin sessionMax
  key : Str
  agent : Option α

/-- The manager, the sessions handed out and not yet released, and when the session in
each slot was last released, if it was. -/
structure World (α φ : Type u) where
  sm : Manager α
  data : φ
  leases : List (Lease α)
  released : Fin sessionMax → Option Int
  clock : Int

def World.start (ttlSeconds : Int) (data : φ) : World α φ :=
  ⟨sessionManagerCreate ttlSeconds, data, [], fun _ => none, 0⟩

/-- One call of some thread; the manager's lock makes it one step. Callers release
what they were handed. -/
inductive Use (factory : φ → Option α × φ) : World α φ → Call → World α φ → Prop where
  | found (later : s.clock ≤ tEvict) (times : tEvict ≤ tCreate)
      (old : (s.sm.slots i).inUse = true ∧ (s.sm.slots i).key = sessionKey channel chatId)
      (made : sessionGetOrCreate factory s.sm s.data channel chatId tEvict tCreate =
        (some i, sm', data')) :
      Use factory s (.getOrCreate channel chatId tEvict tCreate)
        ⟨sm', data', s.leases ++ [⟨i, (sm'.slots i).key, (sm'.slots i).agent⟩], s.released, tCreate⟩
  | created (later : s.clock ≤ tEvict) (times : tEvict ≤ tCreate)
      (fresh : ¬ ((s.sm.slots i).inUse = true ∧ (s.sm.slots i).key = sessionKey channel chatId))
      (made : sessionGetOrCreate factory s.sm s.data channel chatId tEvict tCreate =
        (some i, sm', data')) :
      Use factory s (.getOrCreate channel chatId tEvict tCreate)
        ⟨sm', data', s.leases ++ [⟨i, (sm'.slots i).key, (sm'.slots i).agent⟩],
          Function.update s.released i none, tCreate⟩
  | refused (later : s.clock ≤ tEvict) (times : tEvict ≤ tCreate)
      (made : sessionGetOrCreate factory s.sm s.data channel chatId tEvict tCreate =
        (none, sm', data')) :
      Use factory s (.getOrCreate channel chatId tEvict tCreate)
        ⟨sm', data', s.leases, s.released, tCreate⟩
  | released (later : s.clock ≤ now) (held : s.leases = before ++ l :: after) :
      Use factory s (.release l.idx now)
        ⟨sessionRelease s.sm l.idx now, s.data, before ++ after,
          Function.update s.released l.idx (some now), now⟩
  | evicted (later : s.clock ≤ now) :
      Use factory s (.evictStale now)
        ⟨(sessionEvictStale s.sm now).1, s.data, s.leases, s.released, now⟩

/-- The slot still has the session that was handed out. -/
def Manager.Honours (sm : Manager α) (l : Lease α) : Prop :=
  (sm.slots l.idx).inUse = true ∧ (sm.slots l.idx).key = l.key ∧ (sm.slots l.idx).agent = l.agent

def World.Live (s : World α φ) : Prop := ∀ l ∈ s.leases, s.sm.Honours l

def World.Idle (s : World α φ) (i : Fin sessionMax) : Prop := ∀ l ∈ s.leases, l.idx ≠ i

/-- A session that was there and that nobody has is handed out only within its time. -/
def HandsFresh (factory : φ → Option α × φ) (s : World α φ) : Call → Prop
  | .getOrCreate channel chatId tEvict tCreate =>
    ∀ i, (sessionGetOrCreate factory s.sm s.data channel chatId tEvict tCreate).1 = some i →
      (s.sm.slots i).inUse = true → (s.sm.slots i).key = sessionKey channel chatId → s.Idle i →
      ∀ r, s.released i = some r → tCreate - r < s.sm.ttlSeconds
  | _ => True

/-- A pass over the table finds none of the sessions handed out stale, and a session
that is looked up is handed out already or not stale. -/
def Timely (s : World α φ) : Call → Prop
  | .getOrCreate channel chatId tEvict tCreate =>
    (∀ i, (s.sm.slots i).inUse = true → (s.sm.slots i).key = sessionKey channel chatId →
      s.Idle i → s.sm.stale tCreate i = false) ∧
    (s.sm.Absent (sessionKey channel chatId) → (∀ i, (s.sm.slots i).inUse = true) →
      ∀ l ∈ s.leases, s.sm.stale tEvict l.idx = false)
  | .release _ _ => True
  | .evictStale now => ∀ l ∈ s.leases, s.sm.stale now l.idx = false

/-- As long as every lease is honoured, idle sessions carry the time of their release. -/
structure World.Sound (s : World α φ) : Prop where
  valid : s.sm.Valid
  live : s.Live
  stamped : ∀ i, (s.sm.slots i).inUse = true → s.Idle i →
    s.released i = some (s.sm.slots i).lastActive

theorem room_inUse {sm : Manager α} {now : Int} {i : Fin sessionMax} :
    ((sm.room now).slots i).inUse = true ↔ (sm.slots i).inUse = true ∧
      ((∀ j, (sm.slots j).inUse = true) → sm.stale now i = false) := by
  unfold Manager.room
  split
  · rename_i hfull
    rw [evictLocked_slots]
    cases sm.stale now i <;> simp [hfull, Slot.zero]
  · rename_i hfull
    simp [hfull]

theorem room_same {sm : Manager α} {now : Int} {i : Fin sessionMax}
    (h : ((sm.room now).slots i).inUse = true) : (sm.room now).slots i = sm.slots i := by
  unfold Manager.room at h ⊢
  split at h
  · rename_i hfull
    rw [if_pos hfull]
    exact (evictLocked_inUse h).2.2
  · rename_i hfull
    rw [if_neg hfull]

section Lookup
variable {factory : φ → Option α × φ} {sm sm' : Manager α} {data data' : φ} {channel chatId : Str}
  {tEvict tCreate : Int}

theorem found_same (hv : sm.Valid)
    (old : (sm.slots i).inUse = true ∧ (sm.slots i).key = sessionKey channel chatId)
    (made : sessionGetOrCreate factory sm data channel chatId tEvict tCreate = (res, sm', data')) :
    res = some i ∧ sm' = sm := by
  rcases getOrCreate_cases factory hv data channel chatId tEvict tCreate with
    ⟨j, hj, hkj, hr⟩ | ⟨ha, _⟩ | ⟨ha, _⟩ | ⟨ha, _⟩
  · rw [made, Prod.mk.injEq, Prod.mk.injEq] at hr
    obtain ⟨rfl, rfl, -⟩ := hr
    exact ⟨congrArg some (hv.distinct j i hj old.1 (hkj.trans old.2.symm)), rfl⟩
  all_goals exact absurd old.2 (ha i old.1)

theorem created_put (hv : sm.Valid)
    (fresh : ¬ ((sm.slots i).inUse = true ∧ (sm.slots i).key = sessionKey channel chatId))
    (made : sessionGetOrCreate factory sm data channel chatId tEvict tCreate =
      (some i, sm', data')) :
    sm.Absent (sessionKey channel chatId) ∧ ((sm.room tEvict).slots i).inUse = false ∧
      ∃ agent, sm' = (sm.room tEvict).put i (sessionKey channel chatId) agent tCreate := by
  rcases getOrCreate_cases factory hv data channel chatId tEvict tCreate with
    ⟨j, hj, hkj, hr⟩ | ⟨ha, j, agent, _, hfree, _, hr⟩ | ⟨_, _, _, _, hr⟩ | ⟨_, _, hr⟩
  all_goals
    rw [made, Prod.mk.injEq, Prod.mk.injEq] at hr
    obtain ⟨hi, hsm, -⟩ := hr
  · obtain rfl := Option.some.inj hi
    exact absurd ⟨hj, hkj⟩ fresh
  · obtain rfl := Option.some.inj hi
    exact ⟨ha, hfree, agent, hsm⟩
  · cases hi
  · cases hi

theorem refused_room (hv : sm.Valid)
    (made : sessionGetOrCreate factory sm data channel chatId tEvict tCreate = (none, sm', data')) :
    sm.Absent (sessionKey channel chatId) ∧ sm' = sm.room tEvict := by
  rcases getOrCreate_cases factory hv data channel chatId tEvict tCreate with
    ⟨j, _, _, hr⟩ | ⟨_, j, agent, _, _, _, hr⟩ | ⟨ha, _, _, _, hr⟩ | ⟨ha, _, hr⟩
  all_goals
    rw [made, Prod.mk.injEq, Prod.mk.injEq] at hr
    obtain ⟨hi, hsm, -⟩ := hr
  · cases hi
  · cases hi
  · exact ⟨ha, hsm⟩
  · exact ⟨ha, hsm⟩

end Lookup

/-- A pass over a full table breaks the leases that it finds stale, and no others. -/
theorem room_honours_iff {sm : Manager α} {l : Lease α} (h : sm.Honours l) (now : Int) :
    (sm.room now).Honours l ↔ ((∀ i, (sm.slots i).inUse = true) → sm.stale now l.idx = false) := by
  constructor
  · intro hroom
    exact (room_inUse.mp hroom.1).2
  · intro hkept
    have hin := room_inUse.mpr ⟨h.1, hkept⟩
    have hsame := room_same hin
    exact ⟨hin, by rw [hsame]; exact h.2.1, by rw [hsame]; exact h.2.2⟩

theorem evict_honours_iff {sm : Manager α} {l : Lease α} (h : sm.Honours l) (now : Int) :
    (evictLocked sm now).1.Honours l ↔ sm.stale now l.idx = false := by
  constructor
  · intro hkept
    exact (evictLocked_inUse hkept.1).2.1
  · intro hs
    have hsame : (evictLocked sm now).1.slots l.idx = sm.slots l.idx := by
      rw [evictLocked_slots]
      simp [hs]
    rw [Manager.Honours, hsame]
    exact h

/-- A new session takes the place of none that is still in its slot. -/
theorem put_honours_iff {sm room : Manager α} {l : Lease α} (h : sm.Honours l) (ha : sm.Absent key)
    (hfree : (room.slots i).inUse = false) (agent : α) (now : Int) :
    (room.put i key agent now).Honours l ↔ room.Honours l := by
  by_cases hi : l.idx = i
  · refine iff_of_false ?_ ?_
    · intro hput
      have hkey : key = l.key := by simpa [Manager.put, hi] using hput.2.1
      exact ha l.idx h.1 (h.2.1.trans hkey.symm)
    · intro hroom
      rw [Manager.Honours, hi, hfree] at hroom
      cases hroom.1
  · have hsame : (room.put i key agent now).slots l.idx = room.slots l.idx := by
      simp [Manager.put, Function.update_of_ne hi]
    rw [Manager.Honours, Manager.Honours, hsame]

theorem release_honours {sm : Manager α} {l : Lease α} (h : sm.Honours l) (idx : Fin sessionMax)
    (now : Int) : (sessionRelease sm idx now).Honours l := by
  by_cases hi : l.idx = idx
  · subst hi
    rw [Manager.Honours, sessionRelease_self]
    exact h
  · rw [Manager.Honours, sessionRelease_ne sm now hi]
    exact h

section Steps
variable {factory : φ → Option α × φ} {s t : World α φ} {call : Call}

theorem stale_false_iff {sm : Manager α} {now : Int} (hi : (sm.slots i).inUse = true) :
    sm.stale now i = false ↔ now - (sm.slots i).lastActive < sm.ttlSeconds := by
  simp [Manager.stale, hi]

/-- What is found is what is looked up, and its time stamp is its release. -/
theorem handsFresh_iff (hs : s.Sound) (channel chatId : Str) (tEvict tCreate : Int) :
    HandsFresh factory s (.getOrCreate channel chatId tEvict tCreate) ↔
      ∀ i, (s.sm.slots i).inUse = true → (s.sm.slots i).key = sessionKey channel chatId →
        s.Idle i → s.sm.stale tCreate i = false := by
  rcases hmade : sessionGetOrCreate factory s.sm s.data channel chatId tEvict tCreate with
    ⟨res, sm', data'⟩
  rw [HandsFresh, hmade]
  constructor
  · intro h i hi hk hidle
    have hres := (found_same hs.valid ⟨hi, hk⟩ hmade).1
    exact (stale_false_iff hi).mpr (h i hres hi hk hidle _ (hs.stamped i hi hidle))
  · intro h i _ hi hk hidle r hr
    have hstamp := hs.stamped i hi hidle
    rw [hr] at hstamp
    obtain rfl := Option.some.inj hstamp
    exact (stale_false_iff hi).mp (h i hi hk hidle)

/-- A step keeps the leases and hands out no expired session exactly if it is timely. -/
theorem use_kept_iff (hs : s.Sound) (h : Use factory s call t) :
    t.Live ∧ HandsFresh factory s call ↔ Timely s call := by
  cases h with
  | found later times old made =>
    obtain ⟨-, rfl⟩ := found_same hs.valid old made
    rw [handsFresh_iff hs, Timely, and_comm, and_congr_right_iff]
    intro _
    refine iff_of_true ?_ (fun ha => absurd old.2 (ha _ old.1))
    intro l hl
    rcases List.mem_append.mp hl with hl | hl
    · exact hs.live l hl
    · obtain rfl := List.mem_singleton.mp hl
      exact ⟨old.1, rfl, rfl⟩
  | @created tEvict tCreate channel chatId i sm' data' _ later times fresh made =>
    obtain ⟨ha, hfree, agent, rfl⟩ := created_put hs.valid fresh made
    rw [handsFresh_iff hs, Timely, and_comm, and_congr_right_iff]
    intro _
    have hold (l : Lease α) (hl : l ∈ s.leases) :
        ((s.sm.room tEvict).put i (sessionKey channel chatId) agent tCreate).Honours l ↔
          ((∀ i, (s.sm.slots i).inUse = true) → s.sm.stale tEvict l.idx = false) :=
      (put_honours_iff (hs.live l hl) ha hfree agent tCreate).trans (room_honours_iff (hs.live l hl) tEvict)
    constructor
    · intro hlive _ hfull l hl
      exact (hold l hl).mp (hlive l (List.mem_append_left _ hl)) hfull
    · intro hkept l hl
      rcases List.mem_append.mp hl with hl | hl
      · exact (hold l hl).mpr (fun hfull => hkept ha hfull l hl)
      · obtain rfl := List.mem_singleton.mp hl
        exact ⟨by simp [Manager.put], rfl, rfl⟩
  | refused later times made =>
    obtain ⟨ha, rfl⟩ := refused_room hs.valid made
    rw [handsFresh_iff hs, Timely, and_comm, and_congr_right_iff]
    intro _
    constructor
    · intro hlive _ hfull l hl
      exact (room_honours_iff (hs.live l hl) _).mp (hlive l hl) hfull
    · intro hkept l hl
      exact (room_honours_iff (hs.live l hl) _).mpr (fun hfull => hkept ha hfull l hl)
  | @released now before l after _ later held =>
    refine iff_of_true ⟨?_, trivial⟩ trivial
    intro l' hl'
    apply release_honours
    apply hs.live
    rw [held]
    rcases List.mem_append.mp hl' with hl' | hl'
    · exact List.mem_append_left _ hl'
    · exact List.mem_append_right _ (List.mem_cons_of_mem l hl')
  | @evicted now later =>
    rw [and_iff_left (show HandsFresh factory s (.evictStale now) from trivial)]
    dsimp only [World.Live, Timely, sessionEvictStale]
    constructor
    · intro hlive l hl
      exact (evict_honours_iff (hs.live l hl) now).mp (hlive l hl)
    · intro hkept l hl
      exact (evict_honours_iff (hs.live l hl) now).mpr (hkept l hl)

/-- Slots that stay in use unchanged, with at least their leases, stay stamped. -/
theorem use_sound (hs : s.Sound) (h : Use factory s call t) (hlive : t.Live) : t.Sound := by
  cases h with
  | found later times old made =>
    obtain ⟨-, rfl⟩ := found_same hs.valid old made
    refine ⟨hs.valid, hlive, ?_⟩
    intro j hj hidle
    exact hs.stamped j hj (fun l hl => hidle l (List.mem_append_left _ hl))
  | @created tEvict tCreate channel chatId i sm' data' _ later times fresh made =>
    obtain ⟨ha, hfree, agent, rfl⟩ := created_put hs.valid fresh made
    refine ⟨(hs.valid.room tEvict).put (ha.room tEvict) hfree agent tCreate, hlive, ?_⟩
    intro j hj hidle
    have hji : j ≠ i := Ne.symm (hidle _ (List.mem_append_right _ List.mem_cons_self))
    have hput : ((s.sm.room tEvict).put i (sessionKey channel chatId) agent tCreate).slots j =
        (s.sm.room tEvict).slots j := by
      simp [Manager.put, Function.update_of_ne hji]
    dsimp only at hj ⊢
    rw [hput] at hj ⊢
    rw [Function.update_of_ne hji, room_same hj]
    exact hs.stamped j (room_inUse.mp hj).1 (fun l hl => hidle l (List.mem_append_left _ hl))
  | refused later times made =>
    obtain ⟨-, rfl⟩ := refused_room hs.valid made
    refine ⟨hs.valid.room _, hlive, ?_⟩
    intro j hj hidle
    dsimp only at hj ⊢
    rw [room_same hj]
    exact hs.stamped j (room_inUse.mp hj).1 hidle
  | @released now before l after _ later held =>
    refine ⟨hs.valid.release _ _, hlive, ?_⟩
    intro j hj hidle
    dsimp only at hj ⊢
    by_cases hji : j = l.idx
    · subst hji
      rw [Function.update_self, sessionRelease_self]
    · rw [sessionRelease_ne s.sm now hji] at hj ⊢
      rw [Function.update_of_ne hji]
      refine hs.stamped j hj ?_
      intro l' hl'
      rw [held] at hl'
      rcases List.mem_append.mp hl' with hl' | hl'
      · exact hidle l' (List.mem_append_left _ hl')
      · rcases List.mem_cons.mp hl' with rfl | hl'
        · exact Ne.symm hji
        · exact hidle l' (List.mem_append_right _ hl')
  | @evicted now later =>
    have hvalid := hs.valid.evict now
    dsimp only [sessionEvictStale] at hlive ⊢
    refine ⟨?_, hlive, ?_⟩
    · dsimp only
      exact hvalid
    intro j hj hidle
    dsimp only [World.Idle] at hj hidle ⊢
    obtain ⟨hin, -, hsame⟩ := evictLocked_inUse hj
    rw [hsame]
    exact hs.stamped j hin hidle

/-- In exactly the runs of timely calls every session handed out stays where it is until
it is released, and no expired session is handed out. -/
theorem sessions_live_iff (factory : φ → Option α × φ) (ttlSeconds : Int) (data : φ)
    (calls : List Call) (s : World α φ) :
    Run (fun s call t => Use factory s call t ∧ t.Live ∧ HandsFresh factory s call)
      (World.start ttlSeconds data) calls s ↔
    Run (Guarded (Use factory) Timely) (World.start ttlSeconds data) calls s := by
  have hstart : (World.start ttlSeconds data : World α φ).Sound := by
    refine ⟨create_valid ttlSeconds, ?_, fun i hi => absurd hi Bool.false_ne_true⟩
    intro l hl
    cases hl
  exact Run.kept_iff (P := World.Sound) hstart (fun _ _ _ hs h hk => use_sound hs h hk.1)
    (fun _ _ _ hs h => use_kept_iff hs h)

end Steps

/-- A factory that numbers its agents. -/
def numbered (n : Nat) : Option Nat × Nat := (some n, n + 1)

theorem terminal_created : ∃ i sm, sessionGetOrCreate numbered (sessionManagerCreate 10) 0
    "cli".toList "local".toList 0 0 = (some i, sm, 1) ∧ sm.Valid ∧ sm.ttlSeconds = 10 ∧
    sm.slots i = ⟨sessionKey "cli".toList "local".toList, some 0, 0, true⟩ := by
  have hv := create_valid (α := Nat) 10
  have hvalid := hv.getOrCreate numbered 0 "cli".toList "local".toList 0 0
  have hroom : (sessionManagerCreate 10 : Manager Nat).room 0 = sessionManagerCreate 10 :=
    if_neg (fun hall => Bool.false_ne_true (hall 0))
  rcases getOrCreate_cases numbered hv 0 "cli".toList "local".toList 0 0 with
    ⟨i, hi, -, -⟩ | ⟨-, i, agent, data, -, hmade, hr⟩ | ⟨-, -, data, hmade, -⟩ | ⟨-, hfull, -⟩
  · cases hi
  · cases hmade
    rw [hr] at hvalid
    rw [hroom] at hr hvalid
    exact ⟨i, _, hr, hvalid, rfl, by simp [Manager.put]⟩
  · cases hmade
  · rw [hroom] at hfull
    cases hfull 0

/-- A turn of ten seconds loses its session to a pass over the table, and one that is
ten seconds old is handed out again. -/
theorem busy_session_evicted :
    (∃ calls s t, Run (Use numbered) (World.start 10 0) calls s ∧ s.Live ∧
      Use numbered s (.evictStale 10) t ∧ ¬ t.Live) ∧
    ∃ calls s t, Run (Use numbered) (World.start 10 0) calls s ∧ s.Live ∧
      Use numbered s (.getOrCreate "cli".toList "local".toList 11 11) t ∧
      ¬ HandsFresh numbered s (.getOrCreate "cli".toList "local".toList 11 11) := by
  obtain ⟨i, sm, hmade, hv, httl, hslot⟩ := terminal_created
  have hopen : Run (Use numbered) (World.start 10 0) [.getOrCreate "cli".toList "local".toList 0 0]
      ⟨sm, 1, [⟨i, (sm.slots i).key, (sm.slots i).agent⟩], Function.update (fun _ => none) i none, 0⟩ :=
    .single (.created (Int.le_refl 0) (Int.le_refl 0) (fun h => Bool.false_ne_true h.1) hmade)
  have hin : (sm.slots i).inUse = true := by rw [hslot]
  have hlease : sm.Honours ⟨i, (sm.slots i).key, (sm.slots i).agent⟩ := ⟨hin, rfl, rfl⟩
  constructor
  · have hlater : (0 : Int) ≤ 10 := by decide
    refine ⟨_, _, _, hopen, ?_, .evicted hlater, ?_⟩
    · intro l hl
      cases List.mem_singleton.mp hl
      exact hlease
    · intro hlive
      dsimp only [World.Live, sessionEvictStale] at hlive
      have hkept := (evict_honours_iff hlease 10).mp (hlive _ List.mem_cons_self)
      simp [Manager.stale, hslot, httl] at hkept
  · have hlater : (0 : Int) ≤ 1 := by decide
    have hreleased : Use numbered
        ⟨sm, 1, [⟨i, (sm.slots i).key, (sm.slots i).agent⟩], Function.update (fun _ => none) i none, 0⟩
        (.release i 1) ⟨sessionRelease sm i 1, 1, [] ++ [],
          Function.update (Function.update (fun _ => none) i none) i (some 1), 1⟩ :=
      .released (l := ⟨i, (sm.slots i).key, (sm.slots i).agent⟩) hlater (List.nil_append _).symm
    have hold : ((sessionRelease sm i 1).slots i).inUse = true ∧
        ((sessionRelease sm i 1).slots i).key = sessionKey "cli".toList "local".toList := by
      rw [sessionRelease_self, hslot]
      exact ⟨rfl, rfl⟩
    rcases hagain : sessionGetOrCreate numbered (sessionRelease sm i 1) 1 "cli".toList "local".toList
      11 11 with ⟨res, sm', data⟩
    obtain ⟨rfl, rfl⟩ := found_same (hv.release i 1) hold hagain
    have hlast : (1 : Int) ≤ 11 := by decide
    refine ⟨_, _, _, hopen.snoc hreleased, ?_, .found hlast (Int.le_refl 11) hold hagain, ?_⟩
    · intro l hl
      cases hl
    · intro hfresh
      have hidle := hfresh i (by rw [hagain]) hold.1 hold.2 (fun l hl => (by cases hl)) 1
        (Function.update_self ..)
      change (11 : Int) - 1 < sm.ttlSeconds at hidle
      rw [httl] at hidle
      exact absurd hidle (by decide)

end Dobby.Session
