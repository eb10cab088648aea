import Dobby.Proofs.SessionMap

namespace Dobby.Session
open Runs

/-- The names under which the program's channels publish. -/
def channelNames : List Str :=
  ["http".toList, "whatsapp".toList, "email".toList, "heartbeat".toList, "cli".toList,
    "scheduler".toList]

/-- Whether a call evicts the session of a slot. -/
def Manager.evicts (sm : Manager α) (i : Fin sessionMax) : Call → Prop
  | .getOrCreate channel chatId tEvict _ =>
    findSlot sm (sessionKey channel chatId) = none ∧ sm.stale tEvict i = true
  | .release _ _ => False
  | .evictStale now => sm.stale now i = true

/-- Some history hands one session to both pairs while it is live: a slot goes to
the first, nothing evicts its session, and the second is given the same slot. -/
def Shared (factory : φ → Option α × φ) (ttl : Int) (data : φ) (p q : Str × Str) : Prop :=
  ∃ calls calls' s mid t i tEvict tCreate tEvict' tCreate',
    Run (Step factory) (sessionManagerCreate ttl, data) calls s ∧
    sessionGetOrCreate factory s.1 s.2 p.1 p.2 tEvict tCreate = (some i, mid) ∧
    Run (Guarded (Step factory) (fun s call => ¬ s.1.evicts i call)) mid calls' t ∧
    ¬ t.1.evicts i (.getOrCreate q.1 q.2 tEvict' tCreate') ∧
    (sessionGetOrCreate factory t.1 t.2 q.1 q.2 tEvict' tCreate').1 = some i

/-- Two pairs that no history lets share a live session, or one pair. -/
def Isolated (p q : Str × Str) : Prop :=
  ∀ (α φ : Type) (factory : φ → Option α × φ) (ttl : Int) (data : φ),
    Shared factory ttl data p q → p = q

/-- A slot that holds the live session of a key. -/
def Manager.Holds (sm : Manager α) (i : Fin sessionMax) (key : Str) : Prop :=
  (sm.slots i).inUse = true ∧ (sm.slots i).key = key

theorem room_kept {sm : Manager α} (ha : sm.Absent (sessionKey channel chatId))
    (hlive : ¬ sm.evicts i (.getOrCreate channel chatId tEvict tCreate)) :
    (sm.room tEvict).slots i = sm.slots i := by
  unfold Manager.room
  split
  · rename_i hall
    rw [evictLocked_slots, if_neg]
    intro hs
    refine hlive ⟨?_, hs⟩
    rw [findSlot_absent ha]
    apply List.find?_eq_none.mpr
    intro j _
    simp [hall j]
  · rfl

/-- A call that evicts another session at most leaves this one under its key. -/
theorem Manager.Holds.getOrCreate {factory : φ → Option α × φ} {sm : Manager α} (hv : sm.Valid)
    (hh : sm.Holds i key) (hlive : ¬ sm.evicts i (.getOrCreate channel chatId tEvict tCreate)) :
    (sessionGetOrCreate factory sm data channel chatId tEvict tCreate).2.1.Holds i key ∧
      ((sessionGetOrCreate factory sm data channel chatId tEvict tCreate).1 = some i →
        key = sessionKey channel chatId) := by
  obtain ⟨hi, hk⟩ := hh
  rcases getOrCreate_cases factory hv data channel chatId tEvict tCreate with
    ⟨j, _, hkj, hr⟩ | ⟨ha, j, agent, data', hfree, _, hr⟩ | ⟨ha, _, data', _, hr⟩ | ⟨ha, _, hr⟩
  all_goals rw [hr]
  · refine ⟨⟨hi, hk⟩, ?_⟩
    intro hsame
    obtain rfl := Option.some.inj hsame
    exact hk.symm.trans hkj
  all_goals have hkept := room_kept ha hlive
  · have hij : i ≠ j := by
      rintro rfl
      rw [hkept, hi] at hfree
      cases hfree
    have hslot : ((sm.room tEvict).put j (sessionKey channel chatId) agent tCreate).slots i =
        sm.slots i := by
      simpa [Manager.put, Function.update_of_ne hij] using hkept
    refine ⟨?_, ?_⟩
    · rw [Manager.Holds, hslot]
      exact ⟨hi, hk⟩
    · intro hsame
      exact absurd (Option.some.inj hsame).symm hij
  all_goals
    rw [Manager.Holds, hkept]
    exact ⟨⟨hi, hk⟩, fun h => by cases h⟩

theorem Manager.Holds.step {factory : φ → Option α × φ} {s t : Manager α × φ} (hv : s.1.Valid)
    (hh : s.1.Holds i key) (hlive : ¬ s.1.evicts i call) (hs : Step factory s call t) :
    t.1.Holds i key := by
  cases hs with
  | @getOrCreate sm data channel chatId tEvict tCreate res sm' data' made =>
    have h : (sessionGetOrCreate factory sm data channel chatId tEvict tCreate).2.1.Holds i key :=
      (hh.getOrCreate hv hlive).1
    rwa [made] at h
  | @release sm data idx now =>
    by_cases hi : i = idx
    · subst hi
      rw [Manager.Holds, sessionRelease_self]
      exact hh
    · rw [Manager.Holds, sessionRelease_ne sm now hi]
      exact hh
  | @evictStale sm data now =>
    have hslot : ((sessionEvictStale sm now).1).slots i = sm.slots i := by
      rw [sessionEvictStale, evictLocked_slots]
      exact if_neg hlive
    rw [Manager.Holds, hslot]
    exact hh

/-- The slot that a pair is given holds the session of its key. -/
theorem getOrCreate_holds {factory : φ → Option α × φ} {sm : Manager α} (hv : sm.Valid)
    (hr : sessionGetOrCreate factory sm data channel chatId tEvict tCreate = (some i, mid)) :
    mid.1.Holds i (sessionKey channel chatId) := by
  rcases getOrCreate_cases factory hv data channel chatId tEvict tCreate with
    ⟨j, hj, hkj, he⟩ | ⟨_, j, agent, data', _, _, he⟩ | ⟨_, _, data', _, he⟩ | ⟨_, _, he⟩
  all_goals
    rw [he] at hr
    cases hr
  · exact ⟨hj, hkj⟩
  · simp [Manager.Holds, Manager.put]

/-- Whoever shares a live session has the key it was made under. -/
theorem Shared.same_key {factory : φ → Option α × φ} (h : Shared factory ttl data p q) :
    sessionKey p.1 p.2 = sessionKey q.1 q.2 := by
  obtain ⟨calls, calls', s, mid, t, i, tEvict, tCreate, tEvict', tCreate', hrun, hgot, hkeep,
    hlive, hsame⟩ := h
  have hv : s.1.Valid :=
    hrun.invariant (P := fun s => s.1.Valid) (create_valid ttl) (fun _ _ _ hv hs => hv.step hs)
  have hvm : mid.1.Valid := by
    have h := hv.getOrCreate factory s.2 p.1 p.2 tEvict tCreate
    rwa [hgot] at h
  have hheld : t.1.Valid ∧ t.1.Holds i (sessionKey p.1 p.2) := by
    apply hkeep.invariant (P := fun t => t.1.Valid ∧ t.1.Holds i (sessionKey p.1 p.2))
    · exact ⟨hvm, getOrCreate_holds hv hgot⟩
    · intro s call t hs hstep
      exact ⟨hs.1.step hstep.2, hs.2.step hs.1 hstep.1 hstep.2⟩
  exact (hheld.2.getOrCreate hheld.1 hlive).2 hsame

/-- A pair with the key of a live session is given that session. -/
theorem Manager.Holds.given {factory : φ → Option α × φ} {sm : Manager α} (hv : sm.Valid)
    (hh : sm.Holds i (sessionKey channel chatId)) :
    ¬ sm.evicts i (.getOrCreate channel chatId tEvict tCreate) ∧
      (sessionGetOrCreate factory sm data channel chatId tEvict tCreate).1 = some i := by
  obtain ⟨hi, hk⟩ := hh
  refine ⟨?_, ?_⟩
  · intro hev
    have hfound := findSlot_present hv hi
    rw [hk, hev.1] at hfound
    cases hfound
  rcases getOrCreate_cases factory hv data channel chatId tEvict tCreate with
    ⟨j, hj, hkj, hr⟩ | ⟨ha, _⟩ | ⟨ha, _⟩ | ⟨ha, _⟩
  · rw [hr, hv.distinct i j hi hj (hk.trans hkj.symm)]
  all_goals exact absurd hk (ha i hi)

/-- Equal keys are shared already by the second call on a fresh manager. -/
theorem shared_of_same_key (hk : sessionKey p.1 p.2 = sessionKey q.1 q.2) :
    Shared (fun u : Unit => (some (), u)) 0 () p q := by
  let factory := fun u : Unit => (some (), u)
  let sm : Manager Unit := sessionManagerCreate 0
  have hv : sm.Valid := create_valid 0
  have hfree : ∀ i, (sm.slots i).inUse = false := fun _ => rfl
  obtain ⟨i, mid, hr⟩ : ∃ i mid, sessionGetOrCreate factory sm () p.1 p.2 0 0 = (some i, mid) := by
    rcases getOrCreate_cases factory hv () p.1 p.2 0 0 with
      ⟨i, hi, _⟩ | ⟨_, i, agent, data', _, _, hr⟩ | ⟨_, _, data', hmade, _⟩ | ⟨_, hfull, _⟩
    · rw [hfree i] at hi
      cases hi
    · exact ⟨i, _, hr⟩
    · cases hmade
    · have hused := (room_full hfull 0).1
      rw [hfree 0] at hused
      cases hused
  have hvm : mid.1.Valid := by
    have h := hv.getOrCreate factory () p.1 p.2 0 0
    rwa [hr] at h
  have hheld := getOrCreate_holds hv hr
  rw [hk] at hheld
  obtain ⟨hlive, hsame⟩ := hheld.given hvm
  exact ⟨[], [], (sm, ()), mid, mid, i, 0, 0, 0, 0, .nil, hr, .nil, hlive, hsame⟩

/-- The two copies of the key cut it behind the 319th byte. -/
theorem sessionKey_eq {channel : Str} (hc : channel.length < sessionKeyMax - 1) (chatId : Str) :
    sessionKey channel chatId =
      channel ++ ':' :: chatId.take (sessionKeyMax - 2 - channel.length) := by
  have hn : sessionKeyMax - 1 - channel.length = sessionKeyMax - 2 - channel.length + 1 := by
    omega
  rw [sessionKey, List.take_append, List.take_of_length_le (by omega), hn, List.take_succ_cons]

theorem channelNames_plain {c : Str} (hc : c ∈ channelNames) : ':' ∉ c ∧ c.length < 10 := by
  have hall : ∀ c ∈ channelNames, ':' ∉ c ∧ c.length < 10 := by decide
  exact hall c hc

/-- The first colon ends the channel's name. -/
theorem append_colon_inj {c d : Str} (hc : ':' ∉ c) (hd : ':' ∉ d)
    (h : c ++ ':' :: x = d ++ ':' :: y) : c = d ∧ x = y := by
  induction c generalizing d with
  | nil =>
    cases d with
    | nil => exact ⟨rfl, List.tail_eq_of_cons_eq h⟩
    | cons b d => exact absurd (List.head_eq_of_cons_eq h) (fun he => hd (he ▸ List.mem_cons_self))
  | cons a c ih =>
    cases d with
    | nil => exact absurd (List.head_eq_of_cons_eq h) (fun he => hc (he ▸ List.mem_cons_self))
    | cons b d =>
      rw [List.cons_append, List.cons_append, List.cons.injEq] at h
      obtain ⟨rfl, rfl⟩ := ih (fun hm => hc (.tail _ hm)) (fun hm => hd (.tail _ hm)) h.2
      exact ⟨by rw [h.1], rfl⟩

/-- Two pairs are kept apart exactly when, on one channel, different ids differ
within the bytes that the 320-byte key leaves them. -/
theorem sessions_isolated_iff (hp : p.1 ∈ channelNames) (hq : q.1 ∈ channelNames) :
    Isolated p q ↔ (p.1 = q.1 → p.2 ≠ q.2 →
      p.2.take (sessionKeyMax - 2 - p.1.length) ≠ q.2.take (sessionKeyMax - 2 - p.1.length)) := by
  obtain ⟨hpc, hpl⟩ := channelNames_plain hp
  obtain ⟨hqc, hql⟩ := channelNames_plain hq
  have hpn : p.1.length < sessionKeyMax - 1 := by
    rw [sessionKeyMax]
    omega
  have hqn : q.1.length < sessionKeyMax - 1 := by
    rw [sessionKeyMax]
    omega
  have hpk := sessionKey_eq hpn p.2
  have hqk := sessionKey_eq hqn q.2
  constructor
  · intro hiso hchan hne htake
    refine hne (congrArg Prod.snd (hiso Unit Unit _ 0 () (shared_of_same_key ?_)))
    rw [hpk, hqk, ← hchan, htake]
  · intro hcond α φ factory ttl data hshared
    have hkey := hshared.same_key
    rw [hpk, hqk] at hkey
    obtain ⟨hchan, htake⟩ := append_colon_inj hpc hqc hkey
    rw [← hchan] at htake
    by_contra hne
    exact hcond hchan (fun hid => hne (Prod.ext hchan hid)) htake

/-- Two senders with short addresses. -/
theorem sessions_isolated_short :
    Isolated ("email".toList, "a@b.c".toList) ("email".toList, "a@b.d".toList) :=
  (sessions_isolated_iff (by decide) (by decide)).mpr (fun _ _ => by decide)

/-- Two sender addresses that differ only behind their 313th byte. -/
theorem long_senders_share :
    ¬ Isolated ("email".toList, List.replicate 313 'a' ++ "@b".toList)
      ("email".toList, List.replicate 313 'a' ++ "@c".toList) := by
  intro h
  have hkey : sessionKey "email".toList (List.replicate 313 'a' ++ "@b".toList) =
      sessionKey "email".toList (List.replicate 313 'a' ++ "@c".toList) := by
    have hroom : sessionKeyMax - 2 - "email".toList.length = 313 := by decide
    rw [sessionKey_eq (by decide), sessionKey_eq (by decide), hroom,
      List.take_left' List.length_replicate, List.take_left' List.length_replicate]
  have heq := congrArg Prod.snd (h Unit Unit _ 0 () (shared_of_same_key hkey))
  exact absurd (List.append_cancel_left heq) (by decide)

end Dobby.Session
