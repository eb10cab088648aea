import Dobby.Base.Crlf
import Dobby.Model.Gateway

namespace Dobby.Gateway
open CString

/-- The length that a header field gives, if it is a `Content-Length` with a number. -/
def lengthField (line : Str) : Option Nat :=
  let value := strTrim (line.drop 15)
  if strcaseEq (line.take 15) lengthName ∧ value ≠ [] ∧ value.all Char.isDigit then
    some (Nat.ofDigitChars 10 value 0)
  else none

structure Plain (line : Str) : Prop extends Crlf.Line line where
  string : '\x00' ∉ line

/-- An HTTP request with a `Content-Length` of 1 to 32768 or none. -/
structure Request where
  start : Str
  fields : List Str
  body : Str
  plain : ∀ line ∈ start :: fields, Plain line
  string : '\x00' ∉ body
  framed : fields.filterMap lengthField = [] ∧ body = [] ∨
    fields.filterMap lengthField = [body.length] ∧ 1 ≤ body.length ∧ body.length ≤ bodyLimit
  valued : ∀ line ∈ fields, strcaseEq (line.take 15) lengthName = true → (lengthField line).isSome
  small : (Crlf.text (start :: fields) ++ Crlf.crlf ++ body).length < 65535

namespace Request

def head (r : Request) : Str := Crlf.text (r.start :: r.fields) ++ Crlf.crlf

def bytes (r : Request) : Str := r.head ++ r.body

end Request

theorem Request.head_ends (r : Request) : strstr headEnd r.head = some headEnd :=
  Crlf.strstr_text (List.cons_ne_nil _ _) (fun line hline => (r.plain line hline).toLine) []

theorem Request.bytes_string (r : Request) : '\x00' ∉ r.bytes := by
  intro h
  rcases List.mem_append.mp h with h | h
  · rcases List.mem_append.mp h with h | h
    · obtain ⟨line, hline, hc⟩ := List.mem_flatMap.mp h
      rcases List.mem_append.mp hc with hc | hc
      · exact (r.plain line hline).string hc
      · exact absurd hc (by decide)
    · exact absurd h (by decide)
  · exact r.string h

section Look

variable {heap : Heap} {head : Str}

theorem visible_eq (heap : Heap) {got : Str} (hnul : '\x00' ∉ got) :
    visible heap got = got ++ cstr (heap.bytes.drop got.length) := cstr_append hnul _

theorem visible_length (heap : Heap) (got : Str) :
    (visible heap got).length ≤ got.length + 2 ^ 63 := by
  have hcut := (List.takeWhile_sublist (fun c => decide (c ≠ '\x00'))
    (l := got ++ heap.bytes.drop got.length)).length_le
  have hbytes := heap.addressed
  rw [List.length_append, List.length_drop] at hcut
  change (visible heap got).length ≤ _ at hcut
  omega

theorem sizeSub_of_le {a b : Nat} (h : b ≤ a) (ha : a < 2 ^ 64) : sizeSub a b = a - b := by
  unfold sizeSub
  omega

theorem sizeSub_of_lt {a b : Nat} (h : a < b) (hb : b ≤ 2 ^ 64) : sizeSub a b = 2 ^ 64 - (b - a) := by
  unfold sizeSub
  omega

theorem asked_le {seen : Str} {v : Nat} (h : asked seen = some v) : v ≤ bodyLimit := by
  unfold asked at h
  split at h
  · cases h
  · dsimp only at h
    split at h
    · cases h
    · cases h
      omega

theorem look_none {got : Str} (h : strstr headEnd (visible heap got) = none) :
    look heap got = ⟨false, false⟩ := by
  unfold look
  dsimp only
  rw [h]

/-- An empty line that is seen before the head is complete ends the loop. -/
theorem look_before {got : Str} (hhead : strstr headEnd head = some headEnd) (hgot : got <+: head)
    (hlt : got.length < head.length) (hnul : '\x00' ∉ got) (hsmall : got.length < 65535)
    (h : strstr headEnd (visible heap got) ≠ none) : (look heap got).ends = true := by
  obtain ⟨tail, htail⟩ := Option.ne_none_iff_exists'.mp h
  unfold look
  dsimp only
  rw [htail]
  dsimp only
  cases hasked : asked (visible heap got) with
  | none => rfl
  | some v =>
    have hv := asked_le hasked
    have hfar : got.length < (visible heap got).length - tail.length + 4 := by
      by_contra hnear
      obtain ⟨p, hp⟩ := strstr_suffix htail
      have hplen : p.length + tail.length = (visible heap got).length := by
        rw [← hp, List.length_append]
      have hend : headEnd.length = 4 := rfl
      have hshown : p ++ headEnd <+: visible heap got := by
        rw [← hp]
        exact (List.prefix_append_right_inj p).mpr (strstr_starts htail)
      have hwithin : p ++ headEnd <+: got := by
        apply List.prefix_of_prefix_length_le hshown
        · rw [visible_eq heap hnul]
          exact List.prefix_append _ _
        · rw [List.length_append]
          omega
      obtain ⟨r, hr, hleast⟩ := strstr_least (hwithin.trans hgot)
      rw [hhead] at hr
      cases hr
      omega
    have hlen := visible_length heap got
    have htl := strstr_length htail
    have hwrap : sizeSub got.length ((visible heap got).length - tail.length + 4) =
        2 ^ 64 - ((visible heap got).length - tail.length + 4 - got.length) :=
      sizeSub_of_lt hfar (by omega)
    have hlimit : bodyLimit = 32768 := rfl
    dsimp only
    rw [hwrap, decide_eq_true_eq]
    omega

/-- Once the head is complete, the loop ends when the number it goes by is reached. -/
theorem look_after (heap : Heap) {x : Str} (hhead : strstr headEnd head = some headEnd)
    (hnul : '\x00' ∉ head ++ x) (hsmall : (head ++ x).length < 65536) :
    (look heap (head ++ x)).wraps = false ∧ ((look heap (head ++ x)).ends = true ↔
      ∀ v, asked (visible heap (head ++ x)) = some v → v ≤ x.length) := by
  have hseen := visible_eq heap hnul
  have hlen : (visible heap (head ++ x)).length - (headEnd ++ (x ++ cstr (heap.bytes.drop
      (head ++ x).length))).length + 4 = head.length := by
    have hfour : 4 ≤ head.length := (by rfl : headEnd.length = 4) ▸ strstr_length hhead
    have hend : headEnd.length = 4 := rfl
    rw [hseen]
    simp only [List.length_append, hend]
    omega
  have htail := strstr_grow hhead (x ++ cstr (heap.bytes.drop (head ++ x).length))
  rw [← List.append_assoc, ← hseen] at htail
  unfold look
  dsimp only
  rw [htail]
  dsimp only
  cases hasked : asked (visible heap (head ++ x)) with
  | none => simp
  | some v =>
    have hsub : sizeSub (head ++ x).length head.length = x.length := by
      rw [sizeSub_of_le _ _, List.length_append, Nat.add_sub_cancel_left]
      · rw [List.length_append]
        exact Nat.le_add_right _ _
      · omega
    dsimp only
    rw [hlen, hsub]
    simp

end Look

/-- While this many bytes have come, what lies behind them does not end the head early,
and the number that the loop goes by is not reached before the body is complete but then. -/
structure Undisturbed (heap : Heap) (head body : Str) (closed : Bool) (total : Nat) : Prop where
  before : total < head.length → strstr headEnd (visible heap (head.take total)) = none
  within : head.length ≤ total → total < (head ++ body).length →
    ∃ v, asked (visible heap ((head ++ body).take total)) = some v ∧ total < head.length + v
  after : total = (head ++ body).length →
    closed = true ∨ ∀ v, asked (visible heap (head ++ body)) = some v → v ≤ body.length

/-- How many bytes have come after each read. -/
def totals (n : Nat) : List Str → List Nat
  | [] => []
  | chunk :: chunks => (n + chunk.length) :: totals (n + chunk.length) chunks

/-- The client may close its side after the request. -/
def closing (closed : Bool) : List Str := if closed then [[]] else []

section Loop

variable {heap : Heap} {head body : Str} {closed : Bool}

theorem look_prefix (heap : Heap) (closed : Bool) (hhead : strstr headEnd head = some headEnd)
    (hnul : '\x00' ∉ head ++ body) (hsmall : (head ++ body).length < 65535) {got : Str}
    (hgot : got <+: head ++ body) (hlt : got.length < (head ++ body).length) :
    (Undisturbed heap head body closed got.length ↔ (look heap got).ends = false) ∧
      ((look heap got).ends = false → (look heap got).wraps = false) := by
  have htake : (head ++ body).take got.length = got := (List.prefix_iff_eq_take.mp hgot).symm
  have hnul' : '\x00' ∉ got := fun h => hnul (hgot.subset h)
  by_cases hbefore : got.length < head.length
  · have hpre : got <+: head := List.prefix_of_prefix_length_le hgot
      (List.prefix_append head body) hbefore.le
    have htake' : head.take got.length = got := (List.prefix_iff_eq_take.mp hpre).symm
    by_cases hnone : strstr headEnd (visible heap got) = none
    · rw [look_none hnone]
      refine ⟨iff_of_true ⟨fun _ => ?_, fun h => ?_, fun h => ?_⟩ rfl, fun _ => rfl⟩
      · rw [htake']
        exact hnone
      · omega
      · omega
    · have hends := look_before hhead hpre hbefore hnul' (by omega) hnone
      rw [hends]
      refine ⟨iff_of_false (fun h => hnone ?_) Bool.noConfusion, Bool.noConfusion⟩
      have := h.before hbefore
      rwa [htake'] at this
  · obtain ⟨x, hx⟩ := List.prefix_of_prefix_length_le (List.prefix_append head body) hgot
      (Nat.le_of_not_lt hbefore)
    have hlen : got.length = head.length + x.length := by rw [← hx, List.length_append]
    subst hx
    obtain ⟨hwraps, hends⟩ := look_after heap hhead hnul' (by omega)
    refine ⟨?_, fun _ => hwraps⟩
    rw [← Bool.not_eq_true, hends]
    constructor
    · rintro h hall
      obtain ⟨v, hv, hle⟩ := h.within (by omega) hlt
      rw [htake] at hv
      have := hall v hv
      omega
    · intro h
      simp only [not_forall] at h
      obtain ⟨v, hv, hle⟩ := h
      refine ⟨fun hlt' => by omega, fun _ _ => ⟨v, ?_, by omega⟩, fun h => by omega⟩
      rw [htake]
      exact hv

theorem finish_returned (hnul : '\x00' ∉ head) (hne : head ≠ []) : finish head = .returned head := by
  rw [finish, if_neg hne, cstr_eq_self hnul]

theorem readLoop_cons {got chunk : Str} (hne : chunk ≠ []) (hroom : (got ++ chunk).length < 65535)
    (reads : List Str) :
    readLoop heap got false (chunk :: reads) =
      if (look heap (got ++ chunk)).ends then (finish (got ++ chunk), (look heap (got ++ chunk)).wraps)
      else readLoop heap (got ++ chunk) (look heap (got ++ chunk)).wraps reads := by
  have hbuf : recvBuf - 1 = 65535 := rfl
  rw [List.length_append] at hroom
  have hwhole : chunk.take (65535 - got.length) = chunk := List.take_of_length_le (by omega)
  have henter : got.length < 65535 ∧ chunk ≠ [] := ⟨by omega, hne⟩
  rw [readLoop, hbuf, if_pos henter]
  dsimp only
  rw [hwhole, Bool.false_or]

theorem readLoop_iff (hhead : strstr headEnd head = some headEnd) (hnul : '\x00' ∉ head ++ body)
    (hsmall : (head ++ body).length < 65535) {chunks : List Str} (hne : ∀ c ∈ chunks, c ≠ [])
    (hsome : chunks ≠ []) {got : Str} (hgot : got ++ chunks.flatten = head ++ body) :
    readLoop heap got false (chunks ++ closing closed) = (.returned (head ++ body), false) ↔
      ∀ total ∈ totals got.length chunks, Undisturbed heap head body closed total := by
  have hbytes : head ++ body ≠ [] := by
    rintro h
    rw [(List.append_eq_nil_iff.mp h).1] at hhead
    cases hhead
  induction chunks generalizing got with
  | nil => exact absurd rfl hsome
  | cons chunk chunks ih =>
    have hchunk := hne chunk List.mem_cons_self
    rw [List.flatten_cons, ← List.append_assoc] at hgot
    have hpre : got ++ chunk <+: head ++ body := by
      rw [← hgot]
      exact List.prefix_append _ _
    have hlen := hpre.length_le
    rw [List.cons_append, readLoop_cons hchunk (by omega), totals, ← List.length_append]
    cases chunks with
    | nil =>
      rw [List.flatten_nil, List.append_nil] at hgot
      rw [hgot]
      obtain ⟨hwraps, hends⟩ := look_after heap hhead hnul (by omega)
      have hwhole : Undisturbed heap head body closed (head ++ body).length ↔
          closed = true ∨ (look heap (head ++ body)).ends = true := by
        rw [hends]
        refine ⟨fun h => h.after rfl, fun h => ⟨fun hlt => ?_, fun _ hlt => ?_, fun _ => h⟩⟩
        · rw [List.length_append] at hlt
          omega
        · omega
      have hone : (∀ total ∈ (head ++ body).length :: totals (head ++ body).length [],
          Undisturbed heap head body closed total) ↔
            Undisturbed heap head body closed (head ++ body).length := by
        simp [totals]
      rw [hone, hwhole, hwraps, List.nil_append]
      cases hlook : (look heap (head ++ body)).ends with
      | true => simp [finish_returned hnul hbytes]
      | false =>
        cases closed with
        | true => simp [closing, readLoop, finish_returned hnul hbytes]
        | false =>
          have hroom : (head ++ body).length < recvBuf - 1 := hsmall
          simp only [closing, Bool.false_eq_true, if_false, readLoop, if_pos hroom]
          simp
    | cons next rest =>
      have hnext := hne next (by simp)
      have hlt : (got ++ chunk).length < (head ++ body).length := by
        have hpos := List.length_pos_iff.mpr hnext
        rw [← hgot]
        simp only [List.flatten_cons, List.length_append]
        omega
      obtain ⟨hundisturbed, hwraps⟩ := look_prefix heap closed hhead hnul hsmall hpre hlt
      rw [List.forall_mem_cons, hundisturbed]
      cases hlook : (look heap (got ++ chunk)).ends with
      | true =>
        refine iff_of_false ?_ (fun h => Bool.noConfusion h.1)
        have hnul' : '\x00' ∉ got ++ chunk := fun h => hnul (hpre.subset h)
        have hne' : got ++ chunk ≠ [] := fun h => hchunk (List.append_eq_nil_iff.mp h).2
        simp only [if_true, finish_returned hnul' hne']
        intro h
        have hsame : got ++ chunk = head ++ body := by
          injection h with h _
          injection h
        rw [hsame] at hlt
        exact Nat.lt_irrefl _ hlt
      | false =>
        have hmore := ih (fun c hc => hne c (List.mem_cons_of_mem _ hc)) (List.cons_ne_nil _ _) hgot
        rw [hwraps hlook]
        simpa using hmore

end Loop

/-- A request is read whole and without a wrapped difference exactly when what lies in
the buffer behind the bytes received does not disturb any of the reads. -/
theorem request_read_whole_iff (heap : Heap) (r : Request) (closed : Bool) (chunks : List Str)
    (hne : ∀ chunk ∈ chunks, chunk ≠ []) (hsplit : chunks.flatten = r.bytes) :
    readRequest heap (chunks ++ closing closed) = (.returned r.bytes, false) ↔
      ∀ total ∈ totals 0 chunks, Undisturbed heap r.head r.body closed total := by
  have hsome : chunks ≠ [] := by
    rintro rfl
    have hends := r.head_ends
    rw [(List.append_eq_nil_iff.mp hsplit.symm).1] at hends
    cases hends
  exact readLoop_iff r.head_ends r.bytes_string r.small hne hsome hsplit

/-- A freed buffer starts with what was read into it. -/
def reusedHeap (old : Str) (h : old.length ≤ recvBuf) : Heap where
  bytes := old ++ List.replicate recvBuf '\x00'
  room := by
    rw [List.length_append, List.length_replicate]
    exact Nat.le_add_left _ _
  addressed := by
    have hbuf : recvBuf = 65536 := rfl
    rw [List.length_append, List.length_replicate]
    omega

theorem visible_reused {old got : Str} (h : old.length ≤ recvBuf) (hgot : '\x00' ∉ got)
    (hold : '\x00' ∉ old) : visible (reusedHeap old h) got = got ++ old.drop got.length := by
  have hrest : '\x00' ∉ old.drop got.length := fun hmem => hold (List.mem_of_mem_drop hmem)
  have hzeros (n : Nat) : cstr (List.replicate n '\x00') = [] := by cases n <;> rfl
  rw [visible_eq _ hgot]
  change got ++ cstr ((old ++ List.replicate recvBuf '\x00').drop got.length) = _
  rw [List.drop_append, List.drop_replicate, cstr_append hrest, hzeros, List.append_nil]

/-- The request for the page. -/
def pageRequest : Request where
  start := "GET / HTTP/1.0".toList
  fields := []
  body := []
  plain := by
    intro line hline
    rw [List.mem_singleton.mp hline]
    exact ⟨⟨by decide, by decide, by decide⟩, by decide⟩
  string := List.not_mem_nil
  framed := Or.inl ⟨rfl, rfl⟩
  valued := fun _ h => absurd h List.not_mem_nil
  small := by decide

def pageHeap : Heap := reusedHeap pageRequest.bytes (by decide)

def sampleBody : Str := "\x7b\"message\":\"hi\"\x7d".toList

def sampleChat : Request where
  start := "POST /api/chat HTTP/1.1".toList
  fields := ["Content-Length: 16".toList]
  body := sampleBody
  plain := by
    have hline : ∀ line ∈ ["POST /api/chat HTTP/1.1".toList, "Content-Length: 16".toList],
        line ≠ [] ∧ ('\r' ∉ line ∧ '\n' ∉ line) ∧ '\x00' ∉ line := by decide
    intro line h
    obtain ⟨hne, ⟨hcr, hlf⟩, hnul⟩ := hline line h
    exact ⟨⟨hne, hcr, hlf⟩, hnul⟩
  string := by decide
  framed := .inr (by decide)
  valued := by decide
  small := by decide

/-- One read ends inside the head, one inside the body. -/
def chatChunks : List Str :=
  [sampleChat.bytes.take 20, (sampleChat.bytes.drop 20).take 35, sampleChat.bytes.drop 55]

theorem request_read_whole_in_pieces :
    readRequest pageHeap chatChunks = (.returned sampleChat.bytes, false) := by
  have hne : ∀ chunk ∈ chatChunks, chunk ≠ [] := by decide
  have hseen (n : Nat) (hn : 18 ≤ n) :
      visible pageHeap (sampleChat.bytes.take n) = sampleChat.bytes.take n := by
    have hgot : '\x00' ∉ sampleChat.bytes.take n := fun h =>
      sampleChat.bytes_string (List.mem_of_mem_take h)
    have hold : pageRequest.bytes.length = 18 := by decide
    have hall : sampleChat.bytes.length = 63 := by decide
    rw [pageHeap, visible_reused _ hgot (by decide), List.drop_of_length_le, List.append_nil]
    rw [List.length_take]
    omega
  refine (request_read_whole_iff pageHeap sampleChat false chatChunks hne (by decide)).mpr ?_
  have htotals : totals 0 chatChunks = [20, 55, 63] := by decide
  have hbody : asked (sampleChat.bytes.take 55) = some 16 := by decide
  have hall : asked (sampleChat.bytes.take 63) = some 16 := by decide
  rw [htotals, List.forall_mem_cons, List.forall_mem_cons, List.forall_mem_singleton]
  refine ⟨⟨fun _ => ?_, fun h => absurd h (by decide), fun h => absurd h (by decide)⟩,
    ⟨fun h => absurd h (by decide), fun _ _ => ⟨16, ?_, by decide⟩, fun h => absurd h (by decide)⟩,
    ⟨fun h => absurd h (by decide), fun _ h => absurd h (by decide), fun _ => .inr fun v hv => ?_⟩⟩
  · change strstr headEnd (visible pageHeap (sampleChat.bytes.take 20)) = none
    rw [hseen 20 (by decide)]
    decide
  · change asked (visible pageHeap (sampleChat.bytes.take 55)) = some 16
    rw [hseen 55 (by decide), hbody]
  · change asked (visible pageHeap (sampleChat.bytes.take 63)) = some v at hv
    rw [hseen 63 (by decide), hall] at hv
    cases hv
    decide

/-- The old request ends the new one after its first bytes. -/
theorem stale_request_ends_new_one :
    readRequest pageHeap [pageRequest.bytes.take 4, pageRequest.bytes.drop 4] ≠
      (.returned pageRequest.bytes, false) := by
  intro h
  have hsplit : [] ++ [pageRequest.bytes.take 4, pageRequest.bytes.drop 4].flatten =
      pageRequest.head ++ pageRequest.body := rfl
  have hloop : readLoop pageHeap [] false
      ([pageRequest.bytes.take 4, pageRequest.bytes.drop 4] ++ closing false) = _ ↔ _ :=
    readLoop_iff pageRequest.head_ends pageRequest.bytes_string pageRequest.small (by decide)
      (List.cons_ne_nil _ _) hsplit
  have hundisturbed := hloop.mp h 4 (by decide)
  have hseen : visible pageHeap (pageRequest.bytes.take 4) = pageRequest.bytes :=
    visible_reused (by decide) (by decide) (by decide)
  have hnone := hundisturbed.before (by decide)
  change strstr headEnd (visible pageHeap (pageRequest.bytes.take 4)) = none at hnone
  rw [hseen] at hnone
  exact absurd hnone (by decide)

end Dobby.Gateway
