import Dobby.Model.Exchange
import Dobby.Proofs.QueueOrder

namespace Dobby.Exchange
open CString Queue Session Runs

/-- A caller's own address comes back out of the metadata it writes. -/
theorem message_rp (caller : Caller) (text : Str) (hpos : 0 < rp) (hfits : rp < 2 ^ 64) :
    (caller.message rp text).rp = some rp := by
  have hlen := length_printHex hfits
  have hmeta : ∀ size, 20 ≤ size →
      responsePairFromMeta (some (snprintf size (rpMark ++ printHex rp))) = some rp := by
    intro size hsize
    have hmark : rpMark.length = 3 := rfl
    rw [snprintf_fits (by rw [List.length_append]; omega)]
    simp only [responsePairFromMeta]
    rw [strstr_append]
    simp only
    rw [show (rpMark ++ printHex rp).drop 3 = printHex rp from rfl, scanHex_printHex hfits]
    split
    · rename_i h
      cases h
      exact absurd hpos (Nat.lt_irrefl 0)
    · rfl
  cases caller with
  | cli => exact hmeta 32 (by decide)
  | gateway ip => exact hmeta 64 (by decide)

theorem plain_rp {msg : InboundMsg}
    (plain : ∀ metadata, msg.metadata = some metadata → strstr rpMark metadata = none) :
    msg.rp = none := by
  unfold InboundMsg.rp responsePairFromMeta
  cases hm : msg.metadata with
  | none => rfl
  | some metadata => simp [plain metadata hm]

/-- Every response pair that still travels belongs to a caller that waits for
it, and travels once. -/
structure System.Wired (s : System α φ) : Prop where
  inbound : s.inbound.Valid s.inbound.contents
  outbound : s.outbound.Valid s.outbound.contents
  carried : ∀ rp c, s.calls rp = some c → c.msg.rp = some rp
  unanswered : ∀ rp c, s.calls rp = some c → c.phase = .publishing → c.done = false
  owned : ∀ msg ∈ s.pending, ∀ rp, msg.rp = some rp →
    ∃ c, s.calls rp = some c ∧ c.msg = msg ∧ c.phase = .waiting ∧ c.done = false
  once : (s.pending.filterMap InboundMsg.rp).Nodup

theorem boot_wired (ttl : Int) (data : φ) : (System.boot ttl data : System α φ).Wired := by
  have hempty : ∀ {β : Type}, (bqInit : Bq β).Valid (bqInit : Bq β).contents := by
    intro β
    rw [bqInit_valid.contents]
    exact bqInit_valid
  have hpend : (System.boot ttl data : System α φ).pending = [] := by
    change [] ++ (bqInit : Bq InboundMsg).contents = []
    rw [bqInit_valid.contents]
    rfl
  refine ⟨hempty, hempty, fun _ _ h => (by cases h), fun _ _ h => (by cases h), ?_, ?_⟩
  · rw [hpend]
    exact fun _ h => absurd h List.not_mem_nil
  · rw [hpend]
    exact List.nodup_nil

theorem push_contents {q q' : Bq β} (hv : q.Valid q.contents)
    (h : qPush q x shutDown = .accepted q') :
    q'.contents = q.contents ++ [x] ∧ q'.Valid q'.contents := by
  obtain ⟨_, _, _, hv'⟩ := qPush_accepted hv h
  rw [hv'.contents]
  exact ⟨rfl, hv'⟩

theorem pop_contents {q q' : Bq β} (hv : q.Valid q.contents)
    (h : qPop q shutDown = .item (some x) q') :
    q.contents = x :: q'.contents ∧ q'.Valid q'.contents := by
  obtain ⟨y, rest, he, hcons, _, hv'⟩ := qPop_item hv h
  cases he
  rw [hv'.contents]
  exact ⟨hcons, hv'⟩

theorem afterLookup_hand (msg : InboundMsg) (res : Option (Fin sessionMax)) :
    (afterLookup msg res).hand = some msg := by
  cases res <;> rfl

section Steps
variable {factory : φ → Option α × φ} {chat : α → Str → φ → Option Str × α × φ}
  {s t : System α φ}

/-- What a step adds behind the pending messages and what it takes from their front. -/
theorem pending_step (hin : s.inbound.Valid s.inbound.contents) (h : Step factory chat s e t) :
    s.pending ++ (acceptedIn [e]).map Prod.snd = (repliedIn [e]).map Prod.fst ++ t.pending := by
  cases h with
  | accepted call phase stay =>
    rw [System.pending, List.append_assoc]
    exact congrArg _ (push_contents hin stay).1.symm
  | acceptedAsync plain stay =>
    rw [System.pending, List.append_assoc]
    exact congrArg _ (push_contents hin stay).1.symm
  | consumed pc stay =>
    rw [System.pending, pc]
    exact (List.append_nil _).trans (pop_contents hin stay).1
  | looked pc made =>
    rw [System.pending, System.pending, pc, afterLookup_hand]
    exact List.append_nil _
  | booted pc | stays pc | leaves pc | drained pc | chatted pc | released pc | delivered pc
  | posted pc | dropped pc =>
    rw [System.pending, pc]
    exact List.append_nil _
  | _ => exact List.append_nil _

theorem pending_suffix (hin : s.inbound.Valid s.inbound.contents) (h : Step factory chat s e t)
    (hnone : acceptedIn [e] = []) : t.pending <:+ s.pending := by
  have hpend := pending_step hin h
  rw [hnone, List.map_nil, List.append_nil] at hpend
  exact ⟨_, hpend.symm⟩

theorem publishing_idle (call : s.calls rp = some c) (phase : c.phase = .publishing) :
    ∀ c', s.calls rp = some c' → c'.phase = .publishing ∨ c'.done = true := by
  intro c' hcall
  rw [call] at hcall
  cases hcall
  exact .inl phase

/-- An address whose caller is not waiting for an answer does not travel. -/
theorem System.Wired.not_pending (hw : s.Wired)
    (hidle : ∀ c, s.calls rp = some c → c.phase = .publishing ∨ c.done = true) :
    ∀ msg ∈ s.pending, msg.rp ≠ some rp := by
  intro msg hmem hrp
  obtain ⟨c, hcall, _, hphase, hdone⟩ := hw.owned msg hmem rp hrp
  rcases hidle c hcall with h | h
  · rw [h] at hphase
    cases hphase
  · rw [h] at hdone
    cases hdone

theorem System.Wired.setCall (hw : s.Wired)
    (hidle : ∀ c, s.calls rp = some c → c.phase = .publishing ∨ c.done = true)
    (hown : ∀ c, new = some c → c.msg.rp = some rp ∧ (c.phase = .publishing → c.done = false)) :
    (s.setCall rp new).Wired := by
  have hcalls : ∀ rp' c, (s.setCall rp new).calls rp' = some c →
      c.msg.rp = some rp' ∧ (c.phase = .publishing → c.done = false) := by
    intro rp' c hcall
    by_cases hrp : rp' = rp
    · subst hrp
      exact hown c (by simpa [System.setCall] using hcall)
    · have hcall' : s.calls rp' = some c := by simpa [System.setCall, hrp] using hcall
      exact ⟨hw.carried rp' c hcall', hw.unanswered rp' c hcall'⟩
  refine ⟨hw.inbound, hw.outbound, fun rp' c h => (hcalls rp' c h).1,
    fun rp' c h => (hcalls rp' c h).2, ?_, hw.once⟩
  · intro msg hmem rp' hrp'
    have hne : rp' ≠ rp := by
      rintro rfl
      exact hw.not_pending hidle msg hmem hrp'
    obtain ⟨c, hcall, hc⟩ := hw.owned msg hmem rp' hrp'
    exact ⟨c, by simpa [System.setCall, hne] using hcall, hc⟩

/-- Steps that touch no call and at most drop messages from the front. -/
theorem System.Wired.moves (hw : s.Wired) (hcalls : t.calls = s.calls)
    (hin : t.inbound.Valid t.inbound.contents) (hout : t.outbound.Valid t.outbound.contents)
    (hpend : t.pending <:+ s.pending) : t.Wired := by
  refine ⟨hin, hout, ?_, ?_, ?_, ?_⟩
  · rw [hcalls]
    exact hw.carried
  · rw [hcalls]
    exact hw.unanswered
  · intro msg hmem
    rw [hcalls]
    exact hw.owned msg (hpend.subset hmem)
  · exact hw.once.sublist (hpend.sublist.filterMap _)

theorem System.Wired.publish (hw : s.Wired) (call : s.calls rp = some c)
    (phase : c.phase = .publishing) (hv : q.Valid q.contents)
    (hq : q.contents = s.inbound.contents ++ [c.msg]) :
    ({ s.setCall rp (some { c with phase := .waiting }) with inbound := q } : System α φ).Wired := by
  have hidle := publishing_idle call phase
  have hrp := hw.carried rp c call
  have hw' : (s.setCall rp (some { c with phase := .waiting })).Wired :=
    hw.setCall hidle (fun c' h => by cases h; exact ⟨hrp, fun hp => by cases hp⟩)
  have hpend : s.pc.hand.toList ++ q.contents = s.pending ++ [c.msg] := by
    rw [hq, System.pending, List.append_assoc]
  refine ⟨hv, hw.outbound, hw'.carried, hw'.unanswered, ?_, ?_⟩
  · intro msg hmem rp' hrp'
    have hmem' : msg ∈ s.pending ++ [c.msg] := hpend ▸ hmem
    rcases List.mem_append.mp hmem' with h | h
    · exact hw'.owned msg h rp' hrp'
    · obtain rfl := List.mem_singleton.mp h
      rw [hrp] at hrp'
      cases hrp'
      exact ⟨{ c with phase := .waiting }, by simp [System.setCall], rfl, rfl,
        hw.unanswered rp c call phase⟩
  · change ((s.pc.hand.toList ++ q.contents).filterMap InboundMsg.rp).Nodup
    rw [hpend, List.filterMap_append, List.nodup_append]
    refine ⟨hw.once, by simp [hrp], ?_⟩
    intro x hx y hy hxy
    obtain ⟨msg, hmem, hx⟩ := List.mem_filterMap.mp hx
    obtain rfl : y = rp := by simpa [hrp] using hy
    exact hw.not_pending hidle msg hmem (hxy ▸ hx)

theorem System.Wired.publishAsync (hw : s.Wired)
    (plain : ∀ metadata, msg.metadata = some metadata → strstr rpMark metadata = none)
    (hv : q.Valid q.contents) (hq : q.contents = s.inbound.contents ++ [msg]) :
    ({ s with inbound := q } : System α φ).Wired := by
  have hrp := plain_rp plain
  have hpend : s.pc.hand.toList ++ q.contents = s.pending ++ [msg] := by
    rw [hq, System.pending, List.append_assoc]
  refine ⟨hv, hw.outbound, hw.carried, hw.unanswered, ?_, ?_⟩
  · intro msg' hmem rp' hrp'
    have hmem' : msg' ∈ s.pending ++ [msg] := hpend ▸ hmem
    rcases List.mem_append.mp hmem' with h | h
    · exact hw.owned msg' h rp' hrp'
    · obtain rfl := List.mem_singleton.mp h
      rw [hrp] at hrp'
      cases hrp'
  · change ((s.pc.hand.toList ++ q.contents).filterMap InboundMsg.rp).Nodup
    rw [hpend, List.filterMap_append]
    simpa [hrp] using hw.once

theorem System.Wired.answer (hw : s.Wired) (hpc : s.pc = .replying msg response)
    (hrp : msg.rp = some rp) :
    ({ s.setCall rp ((s.calls rp).map (responsePairDeliver response)) with pc := .top } :
      System α φ).Wired := by
  have hpend : s.pending = msg :: s.inbound.contents := by simp [System.pending, Pc.hand, hpc]
  have honce := hw.once
  rw [hpend, List.filterMap_cons_some hrp, List.nodup_cons] at honce
  have hcalls : ∀ rp' c, Function.update s.calls rp
      ((s.calls rp).map (responsePairDeliver response)) rp' = some c →
      c.msg.rp = some rp' ∧ (c.phase = .publishing → c.done = false) := by
    intro rp' c hcall
    by_cases hne : rp' = rp
    · subst hne
      obtain ⟨c', hc', hmsg, hphase, _⟩ := hw.owned msg (by simp [hpend]) rp' hrp
      rw [Function.update_self, hc'] at hcall
      cases hcall
      exact ⟨hw.carried rp' c' hc', fun hp => absurd (hphase.symm.trans hp) (by decide)⟩
    · rw [Function.update_of_ne hne] at hcall
      exact ⟨hw.carried rp' c hcall, hw.unanswered rp' c hcall⟩
  refine ⟨hw.inbound, hw.outbound, fun rp' c h => (hcalls rp' c h).1,
    fun rp' c h => (hcalls rp' c h).2, ?_, honce.2⟩
  intro msg' hmem rp' hrp'
  have hne : rp' ≠ rp := by
    rintro rfl
    exact honce.1 (List.mem_filterMap.mpr ⟨msg', hmem, hrp'⟩)
  obtain ⟨c, hcall, hc⟩ := hw.owned msg' (hpend ▸ List.mem_cons_of_mem msg hmem) rp' hrp'
  exact ⟨c, by simpa [System.setCall, hne] using hcall, hc⟩

theorem System.Wired.step (hw : s.Wired) (h : Step factory chat s e t) : t.Wired := by
  have hsuffix := pending_suffix hw.inbound h
  cases h with
  | @begins rp _ caller text fresh nonnull fits =>
    refine hw.setCall (fun c hc => ?_) (fun c hc => ?_)
    · rw [fresh] at hc
      cases hc
    · cases hc
      exact ⟨message_rp caller text nonnull fits, fun _ => rfl⟩
  | accepted call phase stay =>
    obtain ⟨hq, hv⟩ := push_contents hw.inbound stay
    exact hw.publish call phase hv hq
  | refused call phase stay =>
    have hrp := hw.carried _ _ call
    refine hw.setCall (fun c' hc => ?_) (fun c' hc => ?_)
    · rw [call] at hc
      cases hc
      exact .inl phase
    · unfold afterRefusal at hc
      split at hc
      · cases hc
      · cases hc
        exact ⟨hrp, fun hp => by cases hp⟩
  | returned call phase done =>
    refine hw.setCall (fun c' hc => ?_) (fun c' hc => by cases hc)
    rw [call] at hc
    cases hc
    exact .inr done
  | acceptedAsync plain stay =>
    obtain ⟨hq, hv⟩ := push_contents hw.inbound stay
    exact hw.publishAsync plain hv hq
  | consumed pc stay =>
    obtain ⟨_, hv⟩ := pop_contents hw.inbound stay
    exact hw.moves rfl hv hw.outbound (hsuffix rfl)
  | delivered pc sync => exact hw.answer pc sync
  | posted pc async stay =>
    obtain ⟨_, hv⟩ := push_contents hw.outbound stay
    exact hw.moves rfl hw.inbound hv (hsuffix rfl)
  | dispatched on stay =>
    obtain ⟨_, hv⟩ := pop_contents hw.outbound stay
    exact hw.moves rfl hw.inbound hv (hsuffix rfl)
  | _ =>
    refine hw.moves ?_ ?_ ?_ (hsuffix rfl)
    · rfl
    · exact hw.inbound
    · exact hw.outbound

theorem wired_run (h : Run (Step factory chat) (System.boot ttl data) es s) : s.Wired :=
  h.invariant (boot_wired ttl data) (fun _ _ _ hs hstep => hs.step hstep)

end Steps
end Dobby.Exchange
