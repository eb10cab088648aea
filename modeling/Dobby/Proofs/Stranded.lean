import Dobby.Proofs.ExchangeWires

namespace Dobby.Exchange
open CString Queue Session Runs

/-- A blocked caller's message is queued for a worker that still runs, or is the
one being processed. -/
def System.NoneStranded (s : System α φ) : Prop :=
  ∀ rp c, s.calls rp = some c → c.phase = .waiting → c.done = false →
    (∃ msg ∈ s.inbound.contents, msg.rp = some rp ∧ s.pc ≠ .exited) ∨
    (∃ msg, s.pc.hand = some msg ∧ msg.rp = some rp)

/-- The steps that strand nobody: no gateway call is refused, the worker leaves
only a queue without callers, and nobody queues behind a worker that has left. -/
def Kept (s : System α φ) : Event → Prop
  | .refused (.gateway _) _ => False
  | .leaves => ∀ msg ∈ s.inbound.contents, msg.rp = none
  | .accepted (some _) _ => s.pc ≠ .exited
  | _ => True

theorem boot_noneStranded (ttl : Int) (data : φ) :
    (System.boot ttl data : System α φ).NoneStranded := by
  intro rp c hcall
  cases hcall

section Steps
variable {factory : φ → Option α × φ} {chat : α → Str → φ → Option Str × α × φ}
  {s t : System α φ}

/-- Steps of the worker and the dispatcher that neither answer nor leave. -/
theorem System.NoneStranded.moves (hn : s.NoneStranded) (hcalls : t.calls = s.calls)
    (hin : t.inbound = s.inbound)
    (hhand : ∀ msg rp, s.pc.hand = some msg → msg.rp = some rp → t.pc.hand = some msg)
    (hexit : t.pc = .exited → s.pc = .exited) : t.NoneStranded := by
  intro rp c hcall hphase hdone
  rw [hcalls] at hcall
  rcases hn rp c hcall hphase hdone with ⟨msg, hmem, hrp, hpc⟩ | ⟨msg, hmsg, hrp⟩
  · exact .inl ⟨msg, hin ▸ hmem, hrp, fun h => hpc (hexit h)⟩
  · exact .inr ⟨msg, hhand msg rp hmsg hrp, hrp⟩

/-- A worker that exits with nothing in hand must leave no caller in the queue. -/
theorem noneStranded_exit_iff (hw : s.Wired) (hn : s.NoneStranded) (hhand : s.pc.hand = none) :
    ({ s with pc := .exited } : System α φ).NoneStranded ↔
      ∀ msg ∈ s.inbound.contents, msg.rp = none := by
  constructor
  · intro ht msg hmem
    by_contra hrp
    obtain ⟨rp, hrp⟩ := Option.ne_none_iff_exists'.mp hrp
    obtain ⟨c, hcall, _, hphase, hdone⟩ :=
      hw.owned msg (List.mem_append_right _ hmem) rp hrp
    rcases ht rp c hcall hphase hdone with ⟨_, _, _, hpc⟩ | ⟨_, h, _⟩
    · exact hpc rfl
    · cases h
  · intro hclear rp c hcall hphase hdone
    rcases hn rp c hcall hphase hdone with ⟨msg, hmem, hrp, _⟩ | ⟨msg, h, _⟩
    · rw [hclear msg hmem] at hrp
      cases hrp
    · rw [hhand] at h
      cases h

theorem System.NoneStranded.setCall (hn : s.NoneStranded)
    (hown : ∀ c, new = some c → c.phase = .publishing ∨ c.done = true) :
    (s.setCall rp new).NoneStranded := by
  intro rp' c hcall hphase hdone
  by_cases hne : rp' = rp
  · subst hne
    rcases hown c (by simpa [System.setCall] using hcall) with h | h
    · rw [h] at hphase
      cases hphase
    · rw [h] at hdone
      cases hdone
  · exact hn rp' c (by simpa [System.setCall, hne] using hcall) hphase hdone

/-- Whoever is accepted waits, so the worker has to be there. -/
theorem noneStranded_publish_iff (hw : s.Wired) (hn : s.NoneStranded)
    (call : s.calls rp = some c) (phase : c.phase = .publishing)
    (hq : q.contents = s.inbound.contents ++ [c.msg]) :
    ({ s.setCall rp (some { c with phase := .waiting }) with inbound := q } :
      System α φ).NoneStranded ↔ s.pc ≠ .exited := by
  have hidle := publishing_idle call phase
  constructor
  · intro ht
    have hself : Function.update s.calls rp (some { c with phase := .waiting }) rp =
        some { c with phase := .waiting } := Function.update_self ..
    rcases ht rp _ hself rfl (hw.unanswered rp c call phase) with ⟨_, _, _, hpc⟩ | ⟨msg, hmsg, hrp⟩
    · exact hpc
    · exfalso
      refine hw.not_pending hidle msg ?_ hrp
      change s.pc.hand = some msg at hmsg
      simp [System.pending, hmsg]
  · intro hpc rp' c' hcall hphase hdone
    by_cases hne : rp' = rp
    · subst hne
      exact .inl ⟨c.msg, by simp [hq], hw.carried rp' c call, hpc⟩
    · have hcall' : s.calls rp' = some c' := by simpa [System.setCall, hne] using hcall
      rcases hn rp' c' hcall' hphase hdone with ⟨msg, hmem, hrp, _⟩ | h
      · exact .inl ⟨msg, by simp [hq, hmem], hrp, hpc⟩
      · exact .inr h

theorem noneStranded_refused_iff (hw : s.Wired) (hn : s.NoneStranded)
    (call : s.calls rp = some c) (phase : c.phase = .publishing) :
    (s.setCall rp (afterRefusal c)).NoneStranded ↔ Kept s (.refused c.caller rp) := by
  have hdone := hw.unanswered rp c call phase
  cases hc : c.caller with
  | cli =>
    refine iff_of_true (hn.setCall (fun c' hc' => ?_)) trivial
    simp [afterRefusal, hc] at hc'
  | gateway ip =>
    refine iff_of_false (fun ht => ?_) id
    have hself : (s.setCall rp (afterRefusal c)).calls rp = some { c with phase := .waiting } := by
      simp [System.setCall, afterRefusal, hc]
    have hgone : ∃ msg ∈ s.pending, msg.rp = some rp := by
      rcases ht rp _ hself rfl hdone with ⟨msg, hmem, hrp, _⟩ | ⟨msg, hmsg, hrp⟩
      · exact ⟨msg, List.mem_append_right _ hmem, hrp⟩
      · change s.pc.hand = some msg at hmsg
        exact ⟨msg, by simp [System.pending, hmsg], hrp⟩
    obtain ⟨msg, hmem, hrp⟩ := hgone
    refine hw.not_pending (fun c' hcall => ?_) msg hmem hrp
    rw [call] at hcall
    cases hcall
    exact .inl phase

theorem System.NoneStranded.consume (hn : s.NoneStranded)
    (hpc : s.pc = .consuming) (hq : s.inbound.contents = msg :: q.contents) :
    ({ s with inbound := q, pc := .looking msg } : System α φ).NoneStranded := by
  intro rp c hcall hphase hdone
  rcases hn rp c hcall hphase hdone with ⟨m, hmem, hrp, _⟩ | ⟨m, h, _⟩
  · rw [hq] at hmem
    rcases List.mem_cons.mp hmem with rfl | hmem
    · exact .inr ⟨m, rfl, hrp⟩
    · exact .inl ⟨m, hmem, hrp, fun h => by cases h⟩
  · rw [hpc] at h
    cases h

theorem System.NoneStranded.deliver (hn : s.NoneStranded)
    (hpc : s.pc = .replying msg response) (hrp : msg.rp = some rp) :
    ({ s.setCall rp ((s.calls rp).map (responsePairDeliver response)) with pc := .top } :
      System α φ).NoneStranded := by
  intro rp' c hcall hphase hdone
  by_cases hne : rp' = rp
  · subst hne
    obtain ⟨c', _, rfl⟩ : ∃ c', s.calls rp' = some c' ∧ responsePairDeliver response c' = c := by
      simpa [System.setCall] using hcall
    cases hdone
  · have hcall' : s.calls rp' = some c := by simpa [System.setCall, hne] using hcall
    rcases hn rp' c hcall' hphase hdone with ⟨m, hmem, hrp', _⟩ | ⟨m, h, hrp'⟩
    · exact .inl ⟨m, hmem, hrp', fun h => by cases h⟩
    · rw [hpc] at h
      cases h
      rw [hrp] at hrp'
      cases hrp'
      exact absurd rfl hne

/-- A step from a state that strands nobody strands somebody exactly if it is
not one of the kept ones. -/
theorem noneStranded_step_iff (hw : s.Wired) (hn : s.NoneStranded)
    (h : Step factory chat s e t) : t.NoneStranded ↔ Kept s e := by
  cases h with
  | begins fresh nonnull fits =>
    exact iff_of_true (hn.setCall (fun c hc => by cases hc; exact .inl rfl)) trivial
  | accepted call phase stay =>
    exact noneStranded_publish_iff hw hn call phase (push_contents hw.inbound stay).1
  | refused call phase stay => exact noneStranded_refused_iff hw hn call phase
  | returned call phase done =>
    exact iff_of_true (hn.setCall (fun c hc => by cases hc)) trivial
  | acceptedAsync plain stay =>
    refine iff_of_true ?_ trivial
    intro rp c hcall hphase hdone
    rcases hn rp c hcall hphase hdone with ⟨msg, hmem, hrp⟩ | h
    · exact .inl ⟨msg, by simp [(push_contents hw.inbound stay).1, hmem], hrp⟩
    · exact .inr h
  | leaves pc off => exact noneStranded_exit_iff hw hn (by rw [pc]; rfl)
  | drained pc stay =>
    refine iff_of_true ((noneStranded_exit_iff hw hn (by rw [pc]; rfl)).mpr ?_) trivial
    have hempty := List.length_eq_zero_iff.mp (hw.inbound.length.trans (qPop_drained stay).1)
    rw [hempty]
    exact fun _ h => absurd h List.not_mem_nil
  | consumed pc stay =>
    exact iff_of_true (hn.consume pc (pop_contents hw.inbound stay).1) trivial
  | delivered pc sync => exact iff_of_true (hn.deliver pc sync) trivial
  | posted pc async stay | dropped pc async stay =>
    refine iff_of_true (hn.moves rfl rfl (fun msg rp hmsg hrp => ?_) (fun h => by cases h)) trivial
    rw [pc] at hmsg
    cases hmsg
    exact absurd (async.symm.trans hrp) (by simp)
  | booted pc made | stays pc on =>
    refine iff_of_true (hn.moves rfl rfl (fun msg rp hmsg hrp => ?_) (fun h => by cases h)) trivial
    rw [pc] at hmsg
    cases hmsg
  | looked pc made =>
    refine iff_of_true (hn.moves rfl rfl (fun msg rp hmsg hrp => ?_) (fun h => ?_)) trivial
    · rw [pc] at hmsg
      rw [← hmsg]
      exact afterLookup_hand ..
    · unfold afterLookup at h
      split at h <;> cases h
  | chatted pc owner talk | released pc =>
    refine iff_of_true (hn.moves rfl rfl (fun msg rp hmsg hrp => ?_) (fun h => by cases h)) trivial
    rw [pc] at hmsg
    exact hmsg
  | refusedAsync | dispatched | dispatcherLeaves | stopped | shut =>
    exact iff_of_true (hn.moves rfl rfl (fun msg rp hmsg hrp => hmsg) id) trivial

/-- In every run whose steps are kept no caller is stranded, and a run strands
nobody at any point exactly if all its steps are kept. -/
theorem none_stranded_iff (ttl : Int) (data : φ) (es : List Event) (s : System α φ) :
    (Run (Guarded (Step factory chat) Kept) (System.boot ttl data) es s → s.NoneStranded) ∧
    (Run (fun s e t => Step factory chat s e t ∧ t.NoneStranded) (System.boot ttl data) es s ↔
      Run (Guarded (Step factory chat) Kept) (System.boot ttl data) es s) := by
  have hstart : (System.boot ttl data : System α φ).Wired ∧ (System.boot ttl data : System α φ).NoneStranded :=
    ⟨boot_wired ttl data, boot_noneStranded ttl data⟩
  constructor
  · intro h
    have hsafe := h.invariant (P := fun s => s.Wired ∧ s.NoneStranded) hstart (by
      intro s e t ⟨hw, hn⟩ ⟨hkept, hstep⟩
      exact ⟨hw.step hstep, (noneStranded_step_iff hw hn hstep).mpr hkept⟩)
    exact hsafe.2
  · exact Run.kept_iff (P := fun s => s.Wired ∧ s.NoneStranded) hstart
      (fun _ _ _ h hs hn => ⟨h.1.step hs, hn⟩)
      (fun _ _ _ h hs => noneStranded_step_iff h.1 h.2 hs)

end Steps

def gatewayCall : SyncCall :=
  responsePairInit (.gateway none) ((Caller.gateway none).message 4096 "hi".toList)

/-- A gateway call has begun, and then the bus is shut down. -/
def shutGateway : System Unit Unit :=
  { (System.boot 3600 ()).setCall 4096 (some gatewayCall) with running := false, shutDown := true }

/-- The call publishes only now. -/
def refusedGateway : System Unit Unit :=
  shutGateway.setCall 4096 (some { gatewayCall with phase := .waiting })

theorem refused_gateway_run :
    Run (Step (fun d : Unit => (some (), d)) (fun g _ d => (none, g, d))) (System.boot 3600 ())
      [.begins (.gateway none) 4096 "hi".toList, .stopped, .shut, .refused (.gateway none) 4096]
      refusedGateway := by
  have hshut : Run (Step (fun d : Unit => (some (), d)) (fun g _ d => (none, g, d)))
      (System.boot 3600 ()) [.begins (.gateway none) 4096 "hi".toList, .stopped, .shut]
      shutGateway :=
    .cons (.begins rfl (by decide) (by decide)) (.cons .stopped (.single .shut))
  have hcall : shutGateway.calls 4096 = some gatewayCall := by
    simp [shutGateway, System.setCall]
  exact hshut.append (.single (.refused hcall rfl rfl))

/-- The caller of `refusedGateway` waits for a pair that no message carries. -/
theorem gateway_call_stranded :
    ∃ es s, Run (Step (fun d : Unit => (some (), d)) (fun g _ d => (none, g, d)))
      (System.boot 3600 ()) es s ∧ ¬ s.NoneStranded := by
  refine ⟨_, _, refused_gateway_run, fun h => ?_⟩
  have hcall : refusedGateway.calls 4096 = some { gatewayCall with phase := .waiting } := by
    simp [refusedGateway, System.setCall]
  have hq : refusedGateway.inbound.contents = [] := bqInit_valid.contents
  rcases h 4096 _ hcall rfl rfl with ⟨msg, hmem, _⟩ | ⟨msg, hmsg, _⟩
  · rw [hq] at hmem
    cases hmem
  · cases hmsg

end Dobby.Exchange
