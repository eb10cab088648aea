import Dobby.Model.Ownership
import Dobby.Proofs.QueueOrder

namespace Dobby.Ownership
open Queue Runs

/-- Who really has a pointer to a message. -/
def System.Holds (s : System) : Owner → Nat → Prop
  | .publisher p, ptr => s.publishing p = some ptr
  | .bus, ptr => ptr ∈ s.inbound.contents
  | .worker, ptr => s.pc.hand = some ptr
  | .released, _ => False

/-- Until its release a message has one holder, its owner, and its record is blank. -/
structure System.Held (s : System) : Prop where
  ring : s.inbound.Valid s.inbound.contents
  once : s.inbound.contents.Nodup
  holder : ∀ o ptr, o ≠ .released → (s.Holds o ptr ↔ s.ownerOf ptr = some o)
  blank : ∀ ptr m, s.msgs ptr = some m → m.owner ≠ .released →
    m = ⟨m.owner, fun _ => [], false, false⟩

/-- What a release leaves of one part: freed once, and by the bus alone where the
publish returned false. -/
structure Ledger.Settled (part : Part) (m : Ledger) : Prop where
  unused : m.misused = false
  once : m.owner = .released → ∃ who, m.frees part = [who] ∧ (m.refused = true → who = .bus)
  kept : m.owner ≠ .released → m.frees part = []

def System.AllSettled (part : Part) (s : System) : Prop :=
  ∀ ptr m, s.msgs ptr = some m → m.Settled part

/-- Each message is with its owner or has been released once, all of it. -/
def System.Accounted (s : System) : Prop := s.Held ∧ ∀ part, s.AllSettled part

/-- The steps after which this part of each message is still accounted for. -/
def Keeps (part : Part) (s : System) : Event → Prop
  | .published p _ => s.bus = .live ∧ (s.shutDown = true → part = .struct ∧ p ≠ .terminal)
  | .destroyed => part = .strings → s.inbound.contents = []
  | _ => True

/-- There is a bus for every publish, none comes after the shutdown, and nothing is queued
when the bus is destroyed. -/
def Orderly (s : System) : Event → Prop
  | .published _ _ => s.bus = .live ∧ s.shutDown = false
  | .destroyed => s.inbound.contents = []
  | _ => True

theorem boot_held (b : Boot) : (System.boot b).Held where
  ring := by
    change (bqInit : Bq Nat).Valid (bqInit : Bq Nat).contents
    rw [bqInit_valid.contents]
    exact bqInit_valid
  once := by
    change (bqInit : Bq Nat).contents.Nodup
    rw [bqInit_valid.contents]
    exact List.nodup_nil
  holder o ptr _ := by
    have hempty : (bqInit : Bq Nat).contents = [] := bqInit_valid.contents
    cases o <;> cases b <;> simp [System.Holds, System.boot, System.ownerOf, hempty, WorkerPc.hand]
  blank ptr m hm := by cases hm

/-- A message changes hands. -/
theorem System.Held.moves {s t : System} (hs : s.Held) (ptr : Nat) (m : Ledger)
    (hring : t.inbound.Valid t.inbound.contents) (honce : t.inbound.contents.Nodup)
    (hmsgs : t.msgs = Function.update s.msgs ptr (some m))
    (hblank : m.owner ≠ .released → m = ⟨m.owner, fun _ => [], false, false⟩)
    (hholds : ∀ o x, o ≠ .released →
      (t.Holds o x ↔ if x = ptr then o = m.owner else s.Holds o x)) : t.Held where
  ring := hring
  once := honce
  holder o x ho := by
    rw [hholds o x ho]
    have howner : t.ownerOf x = if x = ptr then some m.owner else s.ownerOf x := by
      by_cases hx : x = ptr <;> simp [System.ownerOf, hmsgs, hx]
    rw [howner]
    split
    · simp only [Option.some.injEq, eq_comm]
    · exact hs.holder o x ho
  blank x n hn := by
    rw [hmsgs] at hn
    by_cases hx : x = ptr
    · subst hx
      rw [Function.update_self] at hn
      cases hn
      exact hblank
    · rw [Function.update_of_ne hx] at hn
      exact hs.blank x n hn

theorem System.Held.owner {s : System} (hs : s.Held) {o : Owner} (ho : o ≠ .released)
    (h : s.Holds o ptr) : s.ownerOf ptr = some o := (hs.holder o ptr ho).mp h

/-- A message that somebody holds has a blank record. -/
theorem System.Held.msg {s : System} (hs : s.Held) {o : Owner} (ho : o ≠ .released)
    (h : s.Holds o ptr) (hm : s.msgs ptr = some m) : m = ⟨o, fun _ => [], false, false⟩ := by
  have hown := hs.owner ho h
  rw [System.ownerOf, hm] at hown
  have hmo : m.owner = o := Option.some.inj hown
  rw [hs.blank ptr m hm (by rwa [hmo]), hmo]

/-- Nobody else holds it. -/
theorem System.Held.sole {s : System} (hs : s.Held) {o w : Owner} (ho : o ≠ .released)
    (h : s.Holds o ptr) (h' : s.Holds w ptr) : w = o := by
  by_cases hw : w = .released
  · subst hw
    cases h'
  · have := hs.owner ho h
    rw [hs.owner hw h'] at this
    exact Option.some.inj this

/-- Whoever neither had the message nor gets it holds what he held. -/
theorem holds_same {s t : System} {o o' : Owner} (hsame : ∀ x, t.Holds o x ↔ s.Holds o x)
    (hold : ¬s.Holds o ptr) (hne : o ≠ o') (x : Nat) :
    t.Holds o x ↔ if x = ptr then o = o' else s.Holds o x := by
  rw [hsame]
  split
  · rename_i hx
    subst hx
    exact iff_of_false hold hne
  · exact Iff.rfl

/-- The one publisher of a message lets go of it. -/
theorem publishing_ends {s t : System} {o : Owner}
    (ht : t.publishing = Function.update s.publishing p none)
    (hcall : s.publishing p = some ptr) (hsole : ∀ p', s.publishing p' = some ptr → p' = p)
    (ho : ∀ p', o ≠ .publisher p') (p' : Publisher) (x : Nat) :
    t.Holds (.publisher p') x ↔ if x = ptr then .publisher p' = o else s.Holds (.publisher p') x := by
  change t.publishing p' = some x ↔ if x = ptr then .publisher p' = o else s.publishing p' = some x
  rw [ht]
  by_cases hp : p' = p
  · subst hp
    rw [Function.update_self, hcall]
    split
    · exact iff_of_false (fun h => by cases h) (Ne.symm (ho p'))
    · rename_i hx
      simp [Ne.symm hx]
  · rw [Function.update_of_ne hp]
    split
    · rename_i hx
      subst hx
      exact iff_of_false (fun h => hp (hsole p' h)) (Ne.symm (ho p'))
    · exact Iff.rfl

section Steps
variable {s t : System}

theorem System.Held.sole_publisher (hs : s.Held) (hcall : s.publishing p = some ptr) (p' : Publisher)
    (h : s.publishing p' = some ptr) : p' = p := by
  have hsole := hs.sole (o := .publisher p) (w := .publisher p') (by simp) hcall h
  exact Owner.publisher.inj hsole

/-- A publish that ends without the queue taking the message. -/
theorem System.Held.publish_ends (hs : s.Held) (hcall : s.publishing p = some ptr)
    (hm : m.owner = .released) : (s.published p ptr m).Held := by
  have hsole := fun o => hs.sole (o := .publisher p) (w := o) (by simp) hcall
  refine hs.moves ptr _ hs.ring hs.once rfl (fun h => absurd hm h) ?_
  intro o x ho
  cases o with
  | publisher p' =>
    refine publishing_ends rfl hcall (hs.sole_publisher hcall) ?_ p' x
    simp [hm]
  | bus => exact holds_same (fun _ => Iff.rfl) (fun h => by cases hsole .bus h) (by simp [hm]) x
  | worker => exact holds_same (fun _ => Iff.rfl) (fun h => by cases hsole .worker h) (by simp [hm]) x
  | released => exact absurd rfl ho

theorem System.Held.created (hs : s.Held) (idle : s.publishing p = none) (fresh : s.msgs ptr = none) :
    ({ s.setMsg ptr (inboundMsgNew p) with
      publishing := Function.update s.publishing p (some ptr) } : System).Held := by
  have hno : ∀ o, o ≠ .released → ¬s.Holds o ptr := by
    intro o ho h
    have hown := hs.owner ho h
    rw [System.ownerOf, fresh] at hown
    cases hown
  refine hs.moves ptr _ hs.ring hs.once rfl (fun _ => rfl) ?_
  intro o x ho
  cases o with
  | publisher p' =>
    have hp' := hno (.publisher p') ho
    change Function.update s.publishing p (some ptr) p' = some x ↔
      if x = ptr then Owner.publisher p' = .publisher p else s.publishing p' = some x
    change ¬s.publishing p' = some ptr at hp'
    by_cases hp : p' = p
    · subst hp
      rw [Function.update_self, idle]
      simp [eq_comm]
    · rw [Function.update_of_ne hp]
      split
      · rename_i hx
        subst hx
        exact iff_of_false hp' (fun h => hp (Owner.publisher.inj h))
      · exact Iff.rfl
  | bus => exact holds_same (fun _ => Iff.rfl) (hno .bus ho) (by simp [inboundMsgNew]) x
  | worker => exact holds_same (fun _ => Iff.rfl) (hno .worker ho) (by simp [inboundMsgNew]) x
  | released => exact absurd rfl ho

theorem System.Held.accepted (hs : s.Held) (hcall : s.publishing p = some ptr)
    (hm : s.msgs ptr = some m) (stay : qPush s.inbound ptr s.shutDown = .accepted q) :
    ({ s.published p ptr { m.use (.publisher p) with owner := .bus } with inbound := q } :
      System).Held := by
  have hsole := fun o => hs.sole (o := .publisher p) (w := o) (by simp) hcall
  obtain rfl := hs.msg (o := .publisher p) (by simp) hcall hm
  obtain ⟨-, -, -, hv⟩ := qPush_accepted hs.ring stay
  have hnew : ptr ∉ s.inbound.contents := fun h => by cases hsole .bus h
  refine hs.moves ptr ⟨.bus, fun _ => [], false, false⟩ ?_ ?_ ?_ (fun _ => rfl) ?_
  · change q.Valid q.contents
    rwa [hv.contents]
  · change q.contents.Nodup
    rw [hv.contents]
    refine List.nodup_append.mpr ⟨hs.once, by simp, ?_⟩
    intro a ha b hb
    rw [List.mem_singleton.mp hb]
    exact ne_of_mem_of_not_mem ha hnew
  · simp [System.published, System.setMsg, Ledger.use]
  intro o x ho
  cases o with
  | publisher p' =>
    exact publishing_ends rfl hcall (hs.sole_publisher hcall) (by simp) p' x
  | bus =>
    change x ∈ q.contents ↔ if x = ptr then Owner.bus = .bus else x ∈ s.inbound.contents
    rw [hv.contents, List.mem_append, List.mem_singleton]
    by_cases hx : x = ptr <;> simp [hx]
  | worker => exact holds_same (fun _ => Iff.rfl) (fun h => by cases hsole .worker h) (by simp) x
  | released => exact absurd rfl ho

theorem System.Held.consumed (hs : s.Held) (hpc : s.pc = .consuming)
    (stay : qPop s.inbound s.shutDown = .item (some ptr) q) (hm : s.msgs ptr = some m) :
    ({ s.setMsg ptr { m with owner := .worker } with inbound := q, pc := .busy ptr } :
      System).Held := by
  obtain ⟨y, rest, hy, hcons, -, hv⟩ := qPop_item hs.ring stay
  cases hy
  have hmem : ptr ∈ s.inbound.contents := by simp [hcons]
  have hnodup := hs.once
  rw [hcons, List.nodup_cons] at hnodup
  have hsole := fun o => hs.sole (o := .bus) (w := o) (by simp) hmem
  obtain rfl := hs.msg (o := .bus) (by simp) hmem hm
  refine hs.moves ptr ⟨.worker, fun _ => [], false, false⟩ ?_ ?_ rfl (fun _ => rfl) ?_
  · change q.Valid q.contents
    rwa [hv.contents]
  · change q.contents.Nodup
    rw [hv.contents]
    exact hnodup.2
  intro o x ho
  cases o with
  | publisher p' =>
    exact holds_same (fun _ => Iff.rfl) (fun h => by cases hsole (.publisher p') h) (by simp) x
  | bus =>
    change x ∈ q.contents ↔ if x = ptr then Owner.bus = .worker else x ∈ s.inbound.contents
    rw [hv.contents, hcons, List.mem_cons]
    by_cases hx : x = ptr <;> simp [hx, hnodup.1]
  | worker =>
    change some ptr = some x ↔ if x = ptr then Owner.worker = .worker else s.pc.hand = some x
    rw [hpc]
    split
    · rename_i hx
      simp [hx]
    · rename_i hx
      simp [Ne.symm hx, WorkerPc.hand]
  | released => exact absurd rfl ho

theorem busy_holds (hpc : s.pc = .busy ptr) : s.Holds .worker ptr := by
  change s.pc.hand = some ptr
  rw [hpc]
  rfl

theorem System.Held.released (hs : s.Held) (hpc : s.pc = .busy ptr) (hm : m.owner = .released) :
    ({ s.setMsg ptr m with pc := .top } : System).Held := by
  have hhand := busy_holds hpc
  have hsole := fun o => hs.sole (o := .worker) (w := o) (by simp) hhand
  refine hs.moves ptr _ hs.ring hs.once rfl (fun h => absurd hm h) ?_
  intro o x ho
  cases o with
  | publisher p' =>
    exact holds_same (fun _ => Iff.rfl) (fun h => by cases hsole (.publisher p') h) (by simp [hm]) x
  | bus => exact holds_same (fun _ => Iff.rfl) (fun h => by cases hsole .bus h) (by simp [hm]) x
  | worker =>
    change none = some x ↔ if x = ptr then Owner.worker = m.owner else s.pc.hand = some x
    rw [hpc, hm]
    split
    · rename_i hx
      simp [hx]
    · rename_i hx
      simp [Ne.symm hx, WorkerPc.hand]
  | released => exact absurd rfl ho

/-- The worker looks at the message it holds. -/
theorem System.Held.read (hs : s.Held) (hpc : s.pc = .busy ptr) (hm : s.msgs ptr = some m) :
    (s.setMsg ptr (m.use .worker)).msgs = s.msgs := by
  obtain rfl := hs.msg (by simp) (busy_holds hpc) hm
  funext x
  by_cases hx : x = ptr
  · subst hx
    simp [System.setMsg, Ledger.use, hm]
  · simp [System.setMsg, hx]

/-- A step of the threads that leaves the messages where they are. -/
theorem System.Held.same (hs : s.Held) (hin : t.inbound = s.inbound) (hmsgs : t.msgs = s.msgs)
    (hpub : t.publishing = s.publishing) (hhand : t.pc.hand = s.pc.hand) : t.Held where
  ring := by
    rw [hin]
    exact hs.ring
  once := by
    rw [hin]
    exact hs.once
  holder o ptr ho := by
    have hown : t.ownerOf ptr = s.ownerOf ptr := by rw [System.ownerOf, System.ownerOf, hmsgs]
    rw [hown, ← hs.holder o ptr ho]
    cases o <;> simp [System.Holds, hin, hpub, hhand]
  blank := by
    rw [hmsgs]
    exact hs.blank

theorem bqInit_empty : (bqInit : Bq Nat).contents = [] := bqInit_valid.contents

/-- `bq_destroy` frees what belongs to the bus. -/
def freedByBus (m : Ledger) : Ledger := if m.owner = .bus then m.free .bus else m

theorem destroyed_msgs (hs : s.Held) (ptr : Nat) :
    (if ptr ∈ s.inbound.contents then (s.msgs ptr).map (Ledger.free .bus) else s.msgs ptr) =
      (s.msgs ptr).map freedByBus := by
  have hown := hs.holder .bus ptr (by simp)
  change ptr ∈ s.inbound.contents ↔ s.ownerOf ptr = some .bus at hown
  rw [System.ownerOf] at hown
  cases hm : s.msgs ptr with
  | none => simp
  | some m =>
    rw [hm, Option.map_some, Option.some.injEq] at hown
    by_cases hb : m.owner = .bus
    · rw [if_pos (hown.mpr hb), Option.map_some, Option.map_some, freedByBus, if_pos hb]
    · rw [if_neg (fun h => hb (hown.mp h)), Option.map_some, freedByBus, if_neg hb]

theorem freedByBus_owner (m : Ledger) {o : Owner} (ho : o ≠ .released) :
    (freedByBus m).owner = o ↔ m.owner = o ∧ o ≠ .bus := by
  unfold freedByBus
  split
  · rename_i hb
    change Owner.released = o ↔ m.owner = o ∧ o ≠ .bus
    rw [hb]
    exact iff_of_false (Ne.symm ho) (fun h => h.2 h.1.symm)
  · rename_i hb
    refine ⟨fun h => ⟨h, fun ho => hb (h.trans ho)⟩, fun h => h.1⟩

theorem System.Held.destroyed (hs : s.Held) :
    ({ s with
      bus := .destroyed
      inbound := bqInit
      msgs := fun ptr =>
        if ptr ∈ s.inbound.contents then (s.msgs ptr).map (Ledger.free .bus) else s.msgs ptr } :
      System).Held where
  ring := by
    change (bqInit : Bq Nat).Valid (bqInit : Bq Nat).contents
    rw [bqInit_empty]
    exact bqInit_valid
  once := by
    change (bqInit : Bq Nat).contents.Nodup
    rw [bqInit_empty]
    exact List.nodup_nil
  holder o ptr ho := by
    have hold := hs.holder o ptr ho
    simp only [System.ownerOf, destroyed_msgs hs]
    rw [System.ownerOf, Option.map_eq_some_iff] at hold
    rw [Option.map_map, Option.map_eq_some_iff]
    simp only [Function.comp_apply, freedByBus_owner _ ho]
    cases o with
    | bus => simp [System.Holds, bqInit_empty]
    | publisher p => simpa [System.Holds] using hold
    | worker => simpa [System.Holds] using hold
    | released => exact absurd rfl ho
  blank ptr m hm hne := by
    simp only [destroyed_msgs hs, Option.map_eq_some_iff] at hm
    obtain ⟨n, hn, rfl⟩ := hm
    unfold freedByBus at hne ⊢
    split at hne
    · exact absurd rfl hne
    · rename_i hb
      rw [if_neg hb]
      exact hs.blank ptr n hn hne

theorem held_step (hs : s.Held) (hstep : Step s e t) : t.Held := by
  cases hstep with
  | created alive idle fresh => exact hs.created idle fresh
  | accepted call msg live stay => exact hs.accepted call msg stay
  | refused call msg live stay => exact hs.publish_ends call (onFalse_owner _ _)
  | unavailable call msg nobus => exact hs.publish_ends call (onFalse_owner _ _)
  | lost call msg gone => exact hs.publish_ends call rfl
  | stays pc on => exact hs.same rfl rfl rfl (by rw [pc]; rfl)
  | leaves pc off => exact hs.same rfl rfl rfl (by rw [pc]; rfl)
  | consumed pc stay msg => exact hs.consumed pc stay msg
  | drained pc stay => exact hs.same rfl rfl rfl (by rw [pc]; rfl)
  | read pc msg => exact hs.same rfl (hs.read pc msg) rfl rfl
  | released pc msg => exact hs.released pc rfl
  | signsOff idle => exact hs.same rfl rfl rfl rfl
  | stopped cleanup => exact hs.same rfl rfl rfl rfl
  | shut cleanup => exact hs.same rfl rfl rfl rfl
  | destroyed cleanup shut live joined email whatsapp => exact hs.destroyed

theorem blank_settled (part : Part) {o : Owner} (ho : o ≠ .released) :
    (⟨o, fun _ => [], false, false⟩ : Ledger).Settled part :=
  ⟨rfl, fun h => absurd h ho, fun _ => rfl⟩

/-- A refused message is freed by the bus, but its strings are not, and the terminal frees
it a second time. -/
theorem refused_settled (part : Part) (p : Publisher) :
    (onFalse p (Ledger.free .bus ⟨.publisher p, fun _ => [], false, false⟩)).Settled part ↔
      part = .struct ∧ p ≠ .terminal := by
  by_cases hp : p = .terminal
  · refine iff_of_false (fun h => ?_) (fun h => h.2 hp)
    subst hp
    cases h.unused
  · rw [onFalse, if_neg hp]
    cases part with
    | struct =>
      refine iff_of_true ⟨rfl, fun _ => ⟨.bus, ?_, fun _ => rfl⟩, fun h => absurd rfl h⟩ ⟨rfl, hp⟩
      simp [Ledger.free]
    | strings =>
      refine iff_of_false (fun h => ?_) (by simp)
      obtain ⟨who, hwho, -⟩ := h.once rfl
      simp [Ledger.free] at hwho

/-- Without a bus nobody frees the message, or not the bus. -/
theorem unavailable_unsettled (part : Part) (p : Publisher) :
    ¬(onFalse p ⟨.publisher p, fun _ => [], false, false⟩).Settled part := by
  intro h
  unfold onFalse at h
  split at h
  · cases h.unused
  · obtain ⟨who, hwho, -⟩ := h.once rfl
    cases hwho

theorem freed_settled (part : Part) :
    (inboundMsgFree .worker ⟨.worker, fun _ => [], false, false⟩).Settled part :=
  ⟨rfl, fun _ => ⟨.worker, rfl, fun h => by cases h⟩, fun h => absurd rfl h⟩

/-- Only the record of one message is new, and the old one was in order. -/
theorem settled_update (hmsgs : t.msgs = Function.update s.msgs ptr (some m'))
    (hold : ∀ m, s.msgs ptr = some m → m.Settled part) :
    t.AllSettled part ↔ s.AllSettled part ∧ m'.Settled part := by
  constructor
  · intro ht
    refine ⟨fun x m hm => ?_, ht ptr m' (by simp [hmsgs])⟩
    by_cases hx : x = ptr
    · subst hx
      exact hold m hm
    · exact ht x m (by simpa [hmsgs, hx] using hm)
  · rintro ⟨hs, hm'⟩ x m hm
    rw [hmsgs] at hm
    by_cases hx : x = ptr
    · subst hx
      rw [Function.update_self] at hm
      cases hm
      exact hm'
    · rw [Function.update_of_ne hx] at hm
      exact hs x m hm

/-- A held message gets a new record. -/
theorem System.Held.settled_update (hs : s.Held) {o : Owner} (ho : o ≠ .released)
    (h : s.Holds o ptr) (hmsgs : t.msgs = Function.update s.msgs ptr (some m')) :
    t.AllSettled part ↔ s.AllSettled part ∧ m'.Settled part := by
  apply Ownership.settled_update hmsgs
  intro m hm
  rw [hs.msg ho h hm]
  exact blank_settled part ho

theorem freedByBus_settled (hs : s.Held) (hm : s.msgs ptr = some m) :
    (freedByBus m).Settled part ↔ m.Settled part ∧ (m.owner = .bus → part = .struct) := by
  by_cases hb : m.owner = .bus
  · have hblank := hs.blank ptr m hm (by simp [hb])
    rw [freedByBus, if_pos hb, hblank, hb]
    have hsettled := blank_settled part (o := .bus) (by simp)
    cases part with
    | struct =>
      refine iff_of_true ⟨rfl, fun _ => ⟨.bus, ?_, fun _ => rfl⟩, fun h => absurd rfl h⟩
        ⟨hsettled, fun _ => rfl⟩
      simp [Ledger.free]
    | strings =>
      refine iff_of_false (fun h => ?_) (fun h => by cases h.2 rfl)
      obtain ⟨who, hwho, -⟩ := h.once rfl
      simp [Ledger.free] at hwho
  · rw [freedByBus, if_neg hb]
    exact ⟨fun h => ⟨h, fun h' => absurd h' hb⟩, fun h => h.1⟩

/-- What `bq_destroy` finds queued it frees without the strings. -/
theorem destroyed_settled (hs : s.Held) (hmsgs : ∀ ptr, t.msgs ptr = (s.msgs ptr).map freedByBus) :
    t.AllSettled part ↔ s.AllSettled part ∧ (part = .strings → s.inbound.contents = []) := by
  have hall : t.AllSettled part ↔ ∀ ptr m, s.msgs ptr = some m → (freedByBus m).Settled part := by
    simp only [System.AllSettled, hmsgs, Option.map_eq_some_iff]
    exact ⟨fun h ptr m hm => h ptr _ ⟨m, hm, rfl⟩, fun h ptr _ ⟨m, hm, he⟩ => he ▸ h ptr m hm⟩
  have hqueued : ∀ ptr, ptr ∈ s.inbound.contents ↔ ∃ m, s.msgs ptr = some m ∧ m.owner = .bus := by
    intro ptr
    have h := hs.holder .bus ptr (by simp)
    rwa [System.ownerOf, Option.map_eq_some_iff] at h
  rw [hall]
  constructor
  · intro h
    refine ⟨fun ptr m hm => ((freedByBus_settled hs hm).mp (h ptr m hm)).1, fun hpart => ?_⟩
    apply List.eq_nil_iff_forall_not_mem.mpr
    intro ptr hmem
    obtain ⟨m, hm, hb⟩ := (hqueued ptr).mp hmem
    have hstruct := ((freedByBus_settled hs hm).mp (h ptr m hm)).2 hb
    rw [hpart] at hstruct
    cases hstruct
  · rintro ⟨h, hempty⟩ ptr m hm
    refine (freedByBus_settled hs hm).mpr ⟨h ptr m hm, fun hb => ?_⟩
    cases part with
    | struct => rfl
    | strings =>
      have hmem := (hqueued ptr).mpr ⟨m, hm, hb⟩
      rw [hempty rfl] at hmem
      cases hmem

@[simp] theorem use_own (o : Owner) (frees : Part → List Owner) (refused : Bool) :
    Ledger.use o ⟨o, frees, false, refused⟩ = ⟨o, frees, false, refused⟩ := by
  simp [Ledger.use]

theorem settled_step (part : Part) (hs : s.Held) (hstep : Step s e t) :
    t.AllSettled part ↔ s.AllSettled part ∧ Keeps part s e := by
  have hsame : t.msgs = s.msgs → Keeps part s e →
      (t.AllSettled part ↔ s.AllSettled part ∧ Keeps part s e) := by
    intro hm hk
    rw [System.AllSettled, System.AllSettled, hm]
    exact (and_iff_left hk).symm
  cases hstep with
  | created alive idle fresh =>
    rw [settled_update rfl (fun m hm => by rw [fresh] at hm; cases hm)]
    exact and_congr_right' (iff_of_true (blank_settled part (by simp)) trivial)
  | accepted call msg live stay =>
    obtain rfl := hs.msg (o := .publisher _) (by simp) call msg
    obtain ⟨hshut, -⟩ := qPush_accepted hs.ring stay
    rw [hs.settled_update (o := .publisher _) (by simp) call rfl]
    refine and_congr_right' (iff_of_true ?_ ⟨live, fun h => ?_⟩)
    · rw [use_own]
      exact blank_settled part (by simp)
    · rw [hshut] at h
      cases h
  | refused call msg live stay =>
    obtain rfl := hs.msg (o := .publisher _) (by simp) call msg
    have hshut := qPush_refused stay
    rw [hs.settled_update (o := .publisher _) (by simp) call rfl, use_own, refused_settled]
    exact and_congr_right' ⟨fun h => ⟨live, fun _ => h⟩, fun h => h.2 hshut⟩
  | unavailable call msg nobus =>
    obtain rfl := hs.msg (o := .publisher _) (by simp) call msg
    rw [hs.settled_update (o := .publisher _) (by simp) call rfl]
    refine and_congr_right' (iff_of_false (unavailable_unsettled part _) (fun h => ?_))
    have hlive : s.bus = .live := h.1
    rw [nobus] at hlive
    cases hlive
  | lost call msg gone =>
    obtain rfl := hs.msg (o := .publisher _) (by simp) call msg
    rw [hs.settled_update (o := .publisher _) (by simp) call rfl]
    refine and_congr_right' (iff_of_false (fun h => ?_) (fun h => ?_))
    · obtain ⟨who, hwho, -⟩ := h.once rfl
      cases hwho
    · have hlive : s.bus = .live := h.1
      rw [gone] at hlive
      cases hlive
  | consumed pc stay msg =>
    obtain ⟨y, rest, hy, hcons, -, -⟩ := qPop_item hs.ring stay
    obtain rfl := Option.some.inj hy
    have hmem : s.Holds .bus _ := hcons ▸ List.mem_cons_self
    obtain rfl := hs.msg (by simp) hmem msg
    rw [hs.settled_update (by simp) hmem rfl]
    exact and_congr_right' (iff_of_true (blank_settled part (by simp)) trivial)
  | released pc msg =>
    have hhand := busy_holds pc
    obtain rfl := hs.msg (by simp) hhand msg
    rw [hs.settled_update (by simp) hhand rfl]
    exact and_congr_right' (iff_of_true (freed_settled part) trivial)
  | destroyed cleanup shut live joined email whatsapp =>
    exact destroyed_settled hs (fun ptr => destroyed_msgs hs ptr)
  | read pc msg => exact hsame (hs.read pc msg) trivial
  | stays pc on => exact hsame rfl trivial
  | leaves pc off => exact hsame rfl trivial
  | drained pc stay => exact hsame rfl trivial
  | signsOff idle => exact hsame rfl trivial
  | stopped cleanup => exact hsame rfl trivial
  | shut cleanup => exact hsame rfl trivial

/-- A part of every message is accounted for as long as no step loses it. The struct
alone also survives a refusal of any publisher but the terminal. -/
theorem part_settled_iff (part : Part) (h : Run Step (System.boot b) es s) :
    s.AllSettled part ↔ Run (Guarded Step (Keeps part)) (System.boot b) es s := by
  refine h.guarded_iff (boot_held b) (fun ptr m hm => by cases hm) ?_ ?_
  · exact fun s e t hs hstep => held_step hs hstep
  · exact fun s e t hs hstep => settled_step part hs hstep

theorem orderly_iff (s : System) (e : Event) : (∀ part, Keeps part s e) ↔ Orderly s e := by
  cases e with
  | published p ptr =>
    constructor
    · intro h
      refine ⟨(h .strings).1, ?_⟩
      by_contra hshut
      cases ((h .strings).2 (by simpa using hshut)).1
    · rintro ⟨hlive, hshut⟩ part
      refine ⟨hlive, fun h => ?_⟩
      rw [hshut] at h
      cases h
  | destroyed => exact ⟨fun h => h .strings rfl, fun h part _ => h⟩
  | _ => exact iff_of_true (fun _ => trivial) trivial

/-- Every message is released once, by its owner, in exactly the runs with a bus in which
nobody publishes after the shutdown and nothing is queued at the end. -/
theorem messages_released_once_iff (h : Run Step (System.boot b) es s) :
    s.Accounted ↔ Run (Guarded Step Orderly) (System.boot b) es s := by
  have hheld : s.Held := h.invariant (boot_held b) (fun s e t hs hstep => held_step hs hstep)
  have hall : s.Accounted ↔ ∀ part, s.AllSettled part := and_iff_right hheld
  rw [hall]
  refine h.guarded_iff (A := fun s => ∀ part, s.AllSettled part) (boot_held b) ?_ ?_ ?_
  · intro part ptr m hm
    cases hm
  · exact fun s e t hs hstep => held_step hs hstep
  · intro s e t hs hstep
    rw [← orderly_iff, ← forall_and]
    exact forall_congr' (fun part => settled_step part hs hstep)

end Steps

/-- A request of the gateway that the worker answers. -/
theorem messages_released_once_answered : ∃ s,
    Run Step (System.boot .up) [.created (.gateway 1) 0, .published (.gateway 1) 0, .stays,
      .consumed 0, .released 0] s ∧ s.Accounted := by
  have h : ∃ s, Run (Guarded Step Orderly) (System.boot .up) [.created (.gateway 1) 0,
      .published (.gateway 1) 0, .stays, .consumed 0, .released 0] s := by
    refine ⟨_, .cons ⟨trivial, .created trivial rfl rfl⟩ (.cons ⟨⟨rfl, rfl⟩, .accepted rfl rfl rfl rfl⟩
      (.cons ⟨trivial, .stays rfl rfl⟩ (.cons ⟨trivial, .consumed rfl rfl rfl⟩
        (.single ⟨trivial, .released rfl rfl⟩))))⟩
  obtain ⟨s, hs⟩ := h
  exact ⟨s, hs.unguard, (messages_released_once_iff hs.unguard).mpr hs⟩

/-- Where the dispatcher thread cannot be created the bus refuses every turn of the
terminal, and the terminal frees what the bus has freed. -/
theorem terminal_frees_twice : ∃ s,
    Run Step (System.boot .noDispatcher) [.created .terminal 0, .published .terminal 0] s ∧
      (s.msgs 0).map (fun m => m.frees .struct) = some [.bus, .publisher .terminal] ∧
      ¬s.Accounted := by
  refine ⟨_, .cons (.created rfl rfl rfl) (.single (.refused rfl rfl rfl rfl)), rfl, fun h => ?_⟩
  cases (h.2 .struct 0 _ rfl).unused

end Dobby.Ownership
