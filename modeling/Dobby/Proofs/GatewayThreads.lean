import Dobby.Model.GatewaySlots
import Mathlib.Algebra.GroupWithZero.Nat

namespace Dobby.Gateway
open Runs

/-- Whether the listener has taken a slot that it has not passed on. -/
def Listener.holds : Listener → Nat
  | .taken | .accepting | .accepted _ | .prepared _ => 1
  | _ => 0

/-- The descriptor that the listener has accepted and not passed on. -/
def Listener.fds : Listener → List Nat
  | .accepted fd | .prepared fd => [fd]
  | _ => []

def Worker.fds : Worker → List Nat
  | .reading fd | .serving fd | .publishing fd | .awaiting fd | .writing fd | .done fd => [fd]
  | .closed => []

/-- What a worker has still to do, itself or others for it. -/
def Worker.todo : Worker → Nat
  | .reading _ => 6
  | .publishing _ => 5
  | .awaiting _ | .serving _ => 4
  | .writing _ => 3
  | .done _ => 2
  | .closed => 1

/-- The steps that bring a connection on. -/
def Call.inService : Call → Bool
  | .requested .. | .noRequest _ | .answers _ | .published _ | .responded _ | .written _
  | .closes _ | .posts => true
  | _ => false

/-- The steps that a waiting worker waits for: its client's, the bus's and the agent's. -/
def Worker.needs : Worker → Call → Prop
  | .reading fd, c => c = .noRequest fd ∨ ∃ chat, c = .requested fd chat
  | .publishing fd, c => c = .published fd
  | .awaiting fd, c => c = .responded fd
  | .writing fd, c => c = .written fd
  | _, _ => True

theorem Turn.fds {w v : Worker} {c : Call} (h : Turn w c v) : v.fds = w.fds := by
  cases h with
  | @requested _ chat => cases chat <;> rfl
  | _ => rfl

theorem Turn.needed {w v : Worker} {c : Call} (h : Turn w c v) : w.needs c := by
  cases h with
  | requested => exact .inr ⟨_, rfl⟩
  | noRequest => exact .inl rfl
  | answers => trivial
  | _ => rfl

/-- The descriptors in some thread's hands. -/
def Server.fds (s : Server) : List Nat := s.listener.fds ++ s.workers.flatMap Worker.fds

/-- Each slot is free, with the listener or with a worker, and each open descriptor is in
one thread's hands. -/
structure Accounted (s : Server) : Prop where
  slots : s.slots + s.listener.holds + s.workers.length = maxThreads
  once : s.fds.Nodup
  opened : ∀ fd, s.isOpen fd = true ↔ fd ∈ s.fds
  joined : s.freed = true → s.listener = .exited ∧ s.running = false

/-- What a step does to the slots. -/
theorem Serves.slots {s t : Server} {c : Call} (h : Serves s c t) :
    t.slots + t.listener.holds + t.workers.length =
      s.slots + s.listener.holds + s.workers.length := by
  cases h with
  | acceptFails pc =>
    have hout : (if s.running then Listener.top else .exited).holds = 0 := by split <;> rfl
    simp only [Server.post, pc, hout]
    rfl
  | turns live turn => simp [live]
  | closes live => simp [Server.close, live]
  | posts live => simp [Server.post, live]; omega
  | semWait pc free => simp [pc, free, Listener.holds]
  | _ => simp [Server.post, Server.close, Listener.holds, *] <;> omega

/-- What a step does to the descriptors: it passes them on, takes a fresh one or closes
the one in a thread's hands. -/
theorem Serves.held {s t : Server} {c : Call} (h : Serves s c t) :
    (t.fds.Perm s.fds ∧ t.isOpen = s.isOpen) ∨
    (∃ fd, s.isOpen fd = false ∧ t.fds.Perm (fd :: s.fds) ∧
      t.isOpen = Function.update s.isOpen fd true) ∨
    (∃ fd, s.fds.Perm (fd :: t.fds) ∧ t.isOpen = Function.update s.isOpen fd false) := by
  cases h with
  | acceptFails pc =>
    refine .inl ⟨.of_eq ?_, rfl⟩
    have hout : (if s.running then Listener.top else .exited).fds = [] := by split <;> rfl
    simp only [Server.fds, Server.post, pc, hout]
    rfl
  | @accepts _ fd pc fresh =>
    exact .inr (.inl ⟨fd, fresh, .of_eq (by simp [Server.fds, pc, Listener.fds]), rfl⟩)
  | @noMemory _ fd pc =>
    refine .inr (.inr ⟨fd, .of_eq ?_, rfl⟩)
    simp [Server.fds, Server.post, Server.close, pc, Listener.fds]
  | @noThread _ fd pc =>
    refine .inr (.inr ⟨fd, .of_eq ?_, rfl⟩)
    simp [Server.fds, Server.post, Server.close, pc, Listener.fds]
  | @closes ws vs _ fd live =>
    refine .inr (.inr ⟨fd, ?_, rfl⟩)
    have hsplit : s.fds = (s.listener.fds ++ ws.flatMap Worker.fds) ++ fd :: vs.flatMap Worker.fds := by
      simp [Server.fds, live, Worker.fds]
    rw [hsplit]
    have hmiddle : List.Perm ((s.listener.fds ++ ws.flatMap Worker.fds) ++ fd :: vs.flatMap Worker.fds)
        _ := List.perm_middle
    simpa [Server.fds, Server.close, Worker.fds] using hmiddle
  | turns live turn => exact .inl ⟨.of_eq (by simp [Server.fds, live, turn.fds]), rfl⟩
  | posts live => exact .inl ⟨.of_eq (by simp [Server.fds, Server.post, live, Worker.fds]), rfl⟩
  | spawns pc => exact .inl ⟨.of_eq (by simp [Server.fds, pc, Listener.fds, Worker.fds]), rfl⟩
  | _ => exact .inl ⟨.of_eq (by simp [Server.fds, Server.post, Listener.fds, *]), rfl⟩

/-- Once the gateway is freed, the listener is gone and `running` stays off. -/
theorem Serves.joined {s t : Server} {c : Call} (h : Serves s c t)
    (hs : s.freed = true → s.listener = .exited ∧ s.running = false) :
    t.freed = true → t.listener = .exited ∧ t.running = false := by
  intro hfreed
  cases h with
  | joins off pc => exact ⟨pc, off⟩
  | stops => exact ⟨(hs hfreed).1, rfl⟩
  | turns live turn => exact hs hfreed
  | closes live => exact hs hfreed
  | posts live => exact hs hfreed
  | _ => simp_all [Server.post, Server.close]

theorem start_accounted : Accounted Server.start where
  slots := rfl
  once := List.nodup_nil
  opened _ := ⟨fun h => absurd h Bool.false_ne_true, fun h => absurd h List.not_mem_nil⟩
  joined h := absurd h Bool.false_ne_true

theorem Serves.accounted {s t : Server} {c : Call} (h : Serves s c t) (hs : Accounted s) :
    Accounted t := by
  have hslots := h.slots.trans hs.slots
  have hjoined := h.joined hs.joined
  obtain ⟨hperm, hopen⟩ | ⟨fd, hfresh, hperm, hopen⟩ | ⟨fd, hperm, hopen⟩ := h.held
  · refine ⟨hslots, hperm.nodup_iff.mpr hs.once, fun fd => ?_, hjoined⟩
    rw [hopen, hs.opened, hperm.mem_iff]
  · have hnew : fd ∉ s.fds := fun hmem => by simp [(hs.opened fd).mpr hmem] at hfresh
    refine ⟨hslots, hperm.nodup_iff.mpr (List.nodup_cons.mpr ⟨hnew, hs.once⟩), ?_, hjoined⟩
    intro f
    rw [hopen, hperm.mem_iff, List.mem_cons, ← hs.opened]
    by_cases hf : f = fd <;> simp [Function.update, hf]
  · obtain ⟨hout, honce⟩ := List.nodup_cons.mp (hperm.nodup_iff.mp hs.once)
    refine ⟨hslots, honce, fun f => ?_, hjoined⟩
    have hmem := hs.opened f
    rw [hperm.mem_iff, List.mem_cons] at hmem
    rw [hopen]
    by_cases hf : f = fd
    · simp [Function.update, hf, hout]
    · simpa [Function.update, hf] using hmem

theorem run_accounted {s : Server} {cs : List Call} (h : Run Serves .start cs s) : Accounted s :=
  h.invariant start_accounted fun _ _ _ hs hstep => hstep.accounted hs

/-- A worker that gets what it waits for is a step further. -/
theorem worker_goesOn {s : Server} {w : Worker} {ws : List Worker} (live : s.workers = w :: ws) :
    ∃ c t left, c.inService = true ∧ Serves s c t ∧ t.workers = left ++ ws ∧
      t.listener = s.listener ∧ (left.map Worker.todo).sum + 1 = w.todo := by
  have hturn {c : Call} {v : Worker} (turn : Turn w c v) : Serves s c _ :=
    .turns (show s.workers = [] ++ w :: ws from live) turn
  cases w with
  | reading fd => exact ⟨_, _, [_], rfl, hturn (Turn.requested : Turn _ (.requested fd true) _), rfl, rfl, rfl⟩
  | serving fd => exact ⟨_, _, [_], rfl, hturn .answers, rfl, rfl, rfl⟩
  | publishing fd => exact ⟨_, _, [_], rfl, hturn .published, rfl, rfl, rfl⟩
  | awaiting fd => exact ⟨_, _, [_], rfl, hturn .responded, rfl, rfl, rfl⟩
  | writing fd => exact ⟨_, _, [_], rfl, hturn .written, rfl, rfl, rfl⟩
  | done fd => exact ⟨_, _, [_], rfl, .closes (show s.workers = [] ++ .done fd :: ws from live), rfl, rfl, rfl⟩
  | closed => exact ⟨_, _, [], rfl, .posts (show s.workers = [] ++ .closed :: ws from live), rfl, rfl, rfl⟩

theorem workers_finish (s : Server) :
    ∃ cs t, (∀ c ∈ cs, c.inService = true) ∧ cs.length = (s.workers.map Worker.todo).sum ∧
      Run Serves s cs t ∧ t.workers = [] ∧ t.listener = s.listener := by
  generalize hn : (s.workers.map Worker.todo).sum = n
  induction n generalizing s with
  | zero =>
    cases hws : s.workers with
    | nil => exact ⟨[], s, by simp, rfl, .nil, hws, rfl⟩
    | cons w ws =>
      rw [hws, List.map_cons, List.sum_cons] at hn
      cases w <;> simp [Worker.todo] at hn
  | succ n ih =>
    cases hws : s.workers with
    | nil =>
      rw [hws] at hn
      cases hn
    | cons w ws =>
      obtain ⟨c, u, left, hc, hstep, hu, hlisten, htodo⟩ := worker_goesOn hws
      have hleft : (u.workers.map Worker.todo).sum = n := by
        rw [hws, List.map_cons, List.sum_cons] at hn
        simp [hu]
        omega
      obtain ⟨cs, t, hcs, hlen, hrun, ht, hsame⟩ := ih u hleft
      have hall : ∀ d ∈ c :: cs, d.inService = true := by
        simp [hc]
        exact hcs
      exact ⟨c :: cs, t, hall, by simp [hlen], .cons hstep hrun, ht, hsame.trans hlisten⟩

theorem Worker.todo_le (w : Worker) : w.todo ≤ 6 := by
  cases w <;> simp [Worker.todo]

theorem todo_sum_le (ws : List Worker) : (ws.map Worker.todo).sum ≤ 6 * ws.length := by
  induction ws with
  | nil => simp
  | cons w ws ih =>
    have hone := w.todo_le
    simp only [List.map_cons, List.sum_cons, List.length_cons]
    omega

/-- A worker stays where it waits as long as what it waits for does not come. -/
theorem Serves.keeps {s t : Server} {c : Call} {w : Worker} (h : Serves s c t)
    (hw : w ∈ s.workers) (hc : ¬ w.needs c) : w ∈ t.workers := by
  cases h with
  | spawns pc => exact List.mem_cons_of_mem _ hw
  | @turns _ v _ _ _ _ live turn =>
    have hne : w ≠ v := by
      rintro rfl
      exact hc turn.needed
    simp [live, hne] at hw
    simpa using hw.imp_right .inr
  | @closes _ _ _ fd live =>
    have hne : w ≠ .done fd := by
      rintro rfl
      exact hc trivial
    simp [live, hne] at hw
    simpa using hw.imp_right .inr
  | posts live =>
    have hne : w ≠ .closed := by
      rintro rfl
      exact hc trivial
    simp [live, hne] at hw
    simpa using hw
  | _ => exact hw

theorem run_keeps {s t : Server} {cs : List Call} {w : Worker} (h : Run Serves s cs t)
    (hw : w ∈ s.workers) (hcs : ∀ c ∈ cs, ¬ w.needs c) : w ∈ t.workers := by
  induction h with
  | nil => exact hw
  | snoc run last ih =>
    have hbefore := ih fun c hc => hcs c (List.mem_append_left _ hc)
    exact last.keeps hbefore (hcs _ (by simp))

/-- The listener's steps for one connection. -/
def handover (fd : Nat) : List Call :=
  [.loops, .semWait, .goesOn, .accepts fd, .prepares, .spawns]

theorem handover_run {s : Server} (htop : s.listener = .top) (hon : s.running = true)
    (hfree : s.slots = n + 1) (hfresh : s.isOpen fd = false) :
    Run Serves s (handover fd) { s with
      slots := n, listener := .top, workers := .reading fd :: s.workers,
      isOpen := Function.update s.isOpen fd true } := by
  have hloops : Serves s .loops _ := .loops htop hon
  have hwait := Serves.semWait (s := { s with listener := .waiting }) rfl hfree
  have hgo := Serves.goesOn (s := { s with slots := n, listener := .taken }) rfl hon
  have haccept := Serves.accepts (s := { s with slots := n, listener := .accepting }) rfl hfresh
  exact .cons hloops (.cons hwait (.cons hgo (.cons haccept
    (.cons (.prepares rfl) (.single (.spawns rfl))))))

/-- In every order of the listener's, the workers' and the owner's steps there are at most
eight workers, each open connection is in one thread's hands and the listener waits in vain
only for eight live workers. Six steps for each worker give all slots back, some of them
its client's, the bus's or the agent's. Without these it stays where it is. -/
theorem connections_accounted {s : Server} {cs : List Call} (h : Run Serves .start cs s) :
    s.workers.length ≤ maxThreads ∧
    s.fds.Nodup ∧ (∀ fd, s.isOpen fd = true ↔ fd ∈ s.fds) ∧
    (s.listener = .waiting → s.slots = 0 → s.workers.length = maxThreads) ∧
    (∃ ds t, (∀ c ∈ ds, c.inService = true) ∧ ds.length ≤ 6 * s.workers.length ∧
      Run Serves s ds t ∧ t.workers = [] ∧ t.slots + s.listener.holds = maxThreads ∧
      ∀ fd, t.isOpen fd = true ↔ fd ∈ s.listener.fds) ∧
    ∀ w ∈ s.workers, ∀ ds t, Run Serves s ds t → (∀ c ∈ ds, ¬ w.needs c) → w ∈ t.workers := by
  have hs := run_accounted h
  have hslots := hs.slots
  refine ⟨by omega, hs.once, hs.opened, ?_, ?_, fun w hw ds t hrun => run_keeps hrun hw⟩
  · intro hwait hnone
    simpa [hwait, hnone, Listener.holds] using hslots
  · obtain ⟨ds, t, hds, hlen, hrun, hempty, hlisten⟩ := workers_finish s
    have ht := run_accounted (h.append hrun)
    refine ⟨ds, t, hds, Nat.le_trans (Nat.le_of_eq hlen) (todo_sum_le _), hrun, hempty, ?_, fun fd => ?_⟩
    · simpa [hempty, hlisten] using ht.slots
    · simpa [Server.fds, hempty, hlisten] using ht.opened fd

/-- Two connections, one of a chat that waits for the agent and one of a silent client. -/
theorem connections_accounted_two :
    ∃ s, Run Serves .start (handover 5 ++ handover 6 ++ [.requested 5 true, .published 5]) s ∧
      s.workers = [.reading 6, .awaiting 5] ∧ s.workers.length ≤ maxThreads ∧
      ∀ ds t, Run Serves s ds t → (∀ c ∈ ds, c ≠ .noRequest 6 ∧ ∀ chat, c ≠ .requested 6 chat) →
        .reading 6 ∈ t.workers := by
  have hfirst : Run Serves .start (handover 5) _ := handover_run rfl rfl (n := 7) rfl rfl
  have hboth : Run Serves .start (handover 5 ++ handover 6) _ :=
    hfirst.append (handover_run rfl rfl (n := 6) rfl (by rfl))
  have hask {s : Server} (live : s.workers = [.reading 6, .reading 5]) :
      Serves s (.requested 5 true) { s with workers := [.reading 6, .publishing 5] } :=
    .turns (show s.workers = [.reading 6] ++ .reading 5 :: [] from live) .requested
  have hpublish {s : Server} (live : s.workers = [.reading 6, .publishing 5]) :
      Serves s (.published 5) { s with workers := [.reading 6, .awaiting 5] } :=
    .turns (show s.workers = [.reading 6] ++ .publishing 5 :: [] from live) .published
  have hrun := hboth.append (.cons (hask rfl) (.single (hpublish rfl)))
  obtain ⟨hle, -, -, -, -, hstays⟩ := connections_accounted hrun
  refine ⟨_, hrun, rfl, hle, fun ds t ht hds => hstays _ (.head _) ds t ht ?_⟩
  rintro c hc (hgone | ⟨chat, hasks⟩)
  · exact (hds c hc).1 hgone
  · exact (hds c hc).2 chat hasks

/-- Any number of connections up to eight can be in service at once. -/
theorem fills {n : Nat} (h : n ≤ maxThreads) :
    ∃ cs s, Run Serves .start cs s ∧ s.running = true ∧ s.listener = .top ∧
      s.slots = maxThreads - n ∧ s.workers = (List.range n).reverse.map .reading := by
  induction n with
  | zero => exact ⟨[], .start, .nil, rfl, rfl, rfl, rfl⟩
  | succ n ih =>
    obtain ⟨cs, s, hrun, hon, htop, hslots, hws⟩ := ih (by omega)
    have hfresh : s.isOpen n = false := by
      have hout : n ∉ s.fds := by simp [Server.fds, htop, hws, Listener.fds, Worker.fds]
      simpa using mt ((run_accounted hrun).opened n).mp hout
    have hnext := handover_run htop hon (n := maxThreads - (n + 1)) (by omega) hfresh
    refine ⟨_, _, hrun.append hnext, hon, rfl, rfl, ?_⟩
    simp [hws, List.range_succ]

/-- `gateway_destroy` frees the gateway with some number of workers still to post to it,
one for each slot that is not back, and any number up to eight can be left so. -/
theorem destroy_leaves_workers :
    (∀ cs s, Run Serves .start cs s → s.freed = true →
      s.workers.length = maxThreads - s.slots) ∧
    ∀ n, n ≤ maxThreads → ∃ cs s, Run Serves .start cs s ∧ s.freed = true ∧
      s.workers = (List.range n).reverse.map .reading := by
  constructor
  · intro cs s hrun hfreed
    have hs := run_accounted hrun
    have hslots := hs.slots
    simp only [(hs.joined hfreed).1, Listener.holds] at hslots
    omega
  · intro n hn
    obtain ⟨cs, s, hrun, -, htop, -, hws⟩ := fills hn
    have hstop : Serves s .stops _ := .stops
    have hleave := Serves.leaves (s := { s with running := false }) htop rfl
    have hjoin := Serves.joins (s := { s with running := false, listener := .exited }) rfl rfl
    exact ⟨_, _, hrun.append (.cons hstop (.cons hleave (.single hjoin))), rfl, hws⟩

end Dobby.Gateway
