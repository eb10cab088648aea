import Dobby.Model.Whatsapp

namespace Dobby.Whatsapp
open CString

/-- The terminated lines of a stream, without their ends, and the rest behind them. -/
def cutLines : Str → List Str × Str
  | [] => ([], [])
  | c :: cs =>
    if c = '\n' then ([] :: (cutLines cs).1, (cutLines cs).2)
    else match (cutLines cs).1 with
      | [] => ([], c :: (cutLines cs).2)
      | l :: ls => ((c :: l) :: ls, (cutLines cs).2)

def Fit (line : Str) : Prop := line ≠ [] ∧ line.length ≤ 8191

instance (line : Str) : Decidable (Fit line) := inferInstanceAs (Decidable (_ ∧ _))

/-- The lines of one stream that should be parsed. -/
def ownLines (s : Str) : List Str := (cutLines s).1.filter Fit

/-- The terminated lines of all streams, each behind what is left unfinished of the streams
before when it comes. -/
def withRest (left : Str) : List Str → List (Str × Str)
  | [] => []
  | s :: ss =>
    match (cutLines s).1 with
    | [] => withRest (left ++ (cutLines s).2) ss
    | l :: ls => (left, l) :: (ls.map fun m => ([], m)) ++ withRest (cutLines s).2 ss

def receipts (conns : List (List Str)) : List Receipt :=
  conns.flatMap fun chunks => chunks.map Receipt.bytes ++ [.closed]

/-- What is parsed of a line. -/
def parsedLine (line : Str) : List Str := if line = [] then [] else [line.take 8191]

theorem not_mem_rest {s : Str} {c : Char} (h : c ∉ s) : c ∉ (cutLines s).2 := by
  induction s with
  | nil => exact List.not_mem_nil
  | cons d ds ih =>
    obtain ⟨hd, hds⟩ := List.ne_and_not_mem_of_not_mem_cons h
    rw [cutLines]
    split
    · exact ih hds
    · split
      · exact List.not_mem_cons_of_ne_of_not_mem hd (ih hds)
      · exact ih hds

section Feed

variable {left : Str} (parsed : List Str)

theorem byte_newline (hleft : '\x00' ∉ left) :
    Receiver.byte ⟨left.take 8191, parsed⟩ '\n' = ⟨[], parsed ++ parsedLine left⟩ := by
  have hstring : cstr (left.take 8191) = left.take 8191 :=
    cstr_eq_self fun h => hleft (List.mem_of_mem_take h)
  rw [Receiver.byte, if_pos rfl, parsedLine, hstring]
  by_cases hempty : left = []
  · simp [hempty]
  · simp [hempty]

theorem byte_other {c : Char} (hc : c ≠ '\n') :
    Receiver.byte ⟨left.take 8191, parsed⟩ c = ⟨(left ++ [c]).take 8191, parsed⟩ := by
  rw [Receiver.byte, if_neg hc, List.take_append]
  have hmax : lineMax - 1 = 8191 := rfl
  split
  · rename_i h
    rw [hmax, List.length_take] at h
    have hone : ([c] : Str).take (8191 - left.length) = [c] :=
      List.take_of_length_le (by rw [List.length_singleton]; omega)
    rw [hone]
  · rename_i h
    rw [hmax, List.length_take] at h
    have hnone : 8191 - left.length = 0 := by omega
    rw [hnone, List.take_zero, List.append_nil]

/-- Bytes go on with the unfinished line, and the lines that end in them are parsed. -/
theorem feed_eq (hleft : '\x00' ∉ left) {s : Str} (hs : '\x00' ∉ s) :
    s.foldl Receiver.byte ⟨left.take 8191, parsed⟩ =
      match (cutLines s).1 with
      | [] => ⟨(left ++ (cutLines s).2).take 8191, parsed⟩
      | l :: ls =>
        ⟨(cutLines s).2.take 8191, parsed ++ (parsedLine (left ++ l) ++ ls.flatMap parsedLine)⟩ := by
  induction s generalizing left parsed with
  | nil => simp [cutLines]
  | cons c cs ih =>
    obtain ⟨hc, hcs⟩ := List.ne_and_not_mem_of_not_mem_cons hs
    rw [List.foldl_cons, cutLines]
    by_cases hbreak : c = '\n'
    · rw [if_pos hbreak, hbreak, byte_newline parsed hleft]
      have hrest := ih (parsed ++ parsedLine left) List.not_mem_nil hcs
      rw [List.take_nil] at hrest
      rw [hrest]
      cases (cutLines cs).1 <;> simp
    · have hlonger : '\x00' ∉ left ++ [c] := List.not_mem_append hleft (by simpa using hc)
      rw [if_neg hbreak, byte_other parsed hbreak, ih parsed hlonger hcs]
      cases (cutLines cs).1 <;> simp

end Feed

theorem step_bytes (r : Receiver) (chunks : List Str) :
    (chunks.map Receipt.bytes).foldl Receiver.step r = chunks.flatten.foldl Receiver.byte r := by
  rw [List.foldl_map, List.foldl_flatten]
  rfl

/-- All terminated lines are parsed, each behind what connections before it left. -/
theorem recv_eq (conns : List (List Str)) (hconns : ∀ chunks ∈ conns, '\x00' ∉ chunks.flatten)
    {left : Str} (hleft : '\x00' ∉ left) (parsed : List Str) :
    ((receipts conns).foldl Receiver.step ⟨left.take 8191, parsed⟩).parsed =
      parsed ++ (withRest left (conns.map List.flatten)).flatMap fun x => parsedLine (x.1 ++ x.2) := by
  induction conns generalizing left parsed with
  | nil => simp [receipts, withRest]
  | cons chunks conns ih =>
    obtain ⟨hchunks, hmore⟩ := List.forall_mem_cons.mp hconns
    have hrest := not_mem_rest hchunks
    have hreceipts : receipts (chunks :: conns) =
        chunks.map Receipt.bytes ++ Receipt.closed :: receipts conns := by
      simp [receipts]
    rw [hreceipts, List.foldl_append, List.foldl_cons, step_bytes, feed_eq parsed hleft hchunks,
      List.map_cons, withRest]
    cases (cutLines chunks.flatten).1 with
    | nil => exact ih hmore (List.not_mem_append hleft hrest) parsed
    | cons l ls =>
      have htail := ih hmore hrest (parsed ++ (parsedLine (left ++ l) ++ ls.flatMap parsedLine))
      refine htail.trans ?_
      simp [List.flatMap_map]

/-- A line that fits the buffer and comes with nothing left unfinished. A line that fills
the buffer may also repeat what is left. -/
def Undisturbed (x : Str × Str) : Prop :=
  x.2.length ≤ 8191 ∧ (x.1 = [] ∨ x.2.length = 8191 ∧ x.2 <+: x.1 ++ x.2)

instance (x : Str × Str) : Decidable (Undisturbed x) := inferInstanceAs (Decidable (_ ∧ _))

theorem parsedLine_eq_iff (x : Str × Str) :
    parsedLine (x.1 ++ x.2) = [x.2].filter Fit ↔ Undisturbed x := by
  obtain ⟨left, line⟩ := x
  unfold parsedLine Undisturbed Fit
  rw [List.filter_cons, List.filter_nil]
  dsimp only
  by_cases hlen : line.length ≤ 8191
  · by_cases hleft : left = []
    · by_cases hline : line = []
      · simp [hleft, hline]
      · simp [hleft, hline, hlen]
    · have hne : left ++ line ≠ [] := fun h => hleft (List.append_eq_nil_iff.mp h).1
      have hpos := List.length_pos_iff.mpr hleft
      rw [if_neg hne]
      constructor
      · intro h
        refine ⟨hlen, Or.inr ?_⟩
        split at h
        · have htake := List.singleton_inj.mp h
          refine ⟨?_, ?_⟩
          · have hcut := congrArg List.length htake
            rw [List.length_take, List.length_append] at hcut
            omega
          · rw [← htake]
            exact (List.take_prefix _ _).trans (by rw [htake])
        · cases h
      · rintro ⟨-, hleft' | ⟨hfull, hpre⟩⟩
        · exact absurd hleft' hleft
        · have hline : line ≠ [] := List.ne_nil_of_length_pos (by omega)
          have htake := List.prefix_iff_eq_take.mp hpre
          rw [hfull] at htake
          simp [hline, hlen, ← htake]
  · have hline : line ≠ [] := List.ne_nil_of_length_pos (by omega)
    simp [hlen, hline]

theorem withRest_lines (left : Str) (ss : List Str) :
    (withRest left ss).map Prod.snd = ss.flatMap fun s => (cutLines s).1 := by
  induction ss generalizing left with
  | nil => rfl
  | cons s ss ih =>
    rw [withRest, List.flatMap_cons]
    cases (cutLines s).1 with
    | nil => exact ih _
    | cons l ls => simp [ih]

/-- Two ways to make lists of elements give the same list only element by element, if one
never gives less than the other. -/
theorem flatMap_eq_iff {α β : Type} {f g : α → List β} {xs : List α}
    (hle : ∀ x ∈ xs, (g x).length ≤ (f x).length) :
    xs.flatMap f = xs.flatMap g ↔ ∀ x ∈ xs, f x = g x := by
  have hlength : ∀ ys : List α, (∀ y ∈ ys, (g y).length ≤ (f y).length) →
      (ys.flatMap g).length ≤ (ys.flatMap f).length := by
    intro ys hys
    induction ys with
    | nil => exact Nat.le_refl _
    | cons y ys ih =>
      obtain ⟨hy, hys⟩ := List.forall_mem_cons.mp hys
      have hmore := ih hys
      rw [List.flatMap_cons, List.flatMap_cons, List.length_append, List.length_append]
      omega
  induction xs with
  | nil => simp
  | cons x xs ih =>
    obtain ⟨hx, hxs⟩ := List.forall_mem_cons.mp hle
    rw [List.flatMap_cons, List.flatMap_cons, List.forall_mem_cons]
    constructor
    · intro h
      have hlen := congrArg List.length h
      have htail := hlength xs hxs
      rw [List.length_append, List.length_append] at hlen
      obtain ⟨hhead, hrest⟩ := List.append_inj h (by omega)
      exact ⟨hhead, (ih hxs).mp hrest⟩
    · rintro ⟨hhead, htail⟩
      rw [hhead, (ih hxs).mpr htail]

/-- The lines that go to the parser are those of each connection's own stream exactly when
every terminated line fits the buffer and comes with nothing left from before. -/
theorem parsed_lines_iff (conns : List (List Str))
    (hconns : ∀ chunks ∈ conns, '\x00' ∉ chunks.flatten) :
    (recvThread (receipts conns)).parsed = conns.flatMap (fun chunks => ownLines chunks.flatten) ↔
      ∀ x ∈ withRest [] (conns.map List.flatten), Undisturbed x := by
  have hown : conns.flatMap (fun chunks => ownLines chunks.flatten) =
      (withRest [] (conns.map List.flatten)).flatMap fun x => [x.2].filter Fit := by
    have hlines : conns.flatMap (fun chunks => ownLines chunks.flatten) =
        ((withRest [] (conns.map List.flatten)).map Prod.snd).filter Fit := by
      rw [withRest_lines, List.filter_flatMap, List.flatMap_map]
      rfl
    rw [hlines, ← List.flatMap_singleton' (List.map Prod.snd _), List.filter_flatMap,
      List.flatMap_map]
  have hparsed : (recvThread (receipts conns)).parsed =
      (withRest [] (conns.map List.flatten)).flatMap fun x => parsedLine (x.1 ++ x.2) :=
    recv_eq conns hconns List.not_mem_nil []
  rw [hparsed, hown, flatMap_eq_iff]
  · exact forall₂_congr fun x _ => parsedLine_eq_iff x
  · intro x _
    unfold parsedLine
    split
    · rename_i h
      rw [(List.append_eq_nil_iff.mp h).2]
      exact Nat.le_refl _
    · exact (List.length_filter_le _ _)

theorem split_line_parsed_once :
    (recvThread (receipts [["\x7b\x7d".toList, "\n".toList], ["[1]\n".toList]])).parsed =
      ["\x7b\x7d".toList, "[1]".toList] :=
  (parsed_lines_iff [["\x7b\x7d".toList, "\n".toList], ["[1]\n".toList]] (by decide)).mpr (by decide)

/-- The connection breaks inside a line, and its start is put before the next connection's. -/
theorem broken_line_joins_next :
    (recvThread (receipts [["\x7b\"type\":".toList], ["\x7b\x7d\n".toList]])).parsed ≠
      [["\x7b\"type\":".toList], ["\x7b\x7d\n".toList]].flatMap
        fun chunks => ownLines chunks.flatten := by
  decide

end Dobby.Whatsapp
