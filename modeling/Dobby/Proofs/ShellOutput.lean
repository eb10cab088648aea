import Dobby.Base.Runs
import Dobby.Model.Shell

namespace Dobby.Shell
open CString

def nonNull (s : List Char) : List Char := s.filter (· ≠ '\x00')

/-- The output that the stream should come to, whatever pieces it is read in. -/
def wanted (reads : List (List Char)) : Str := (nonNull reads.flatten).take maxOutputSize

def collected (reads : List (List Char)) : Str := reads.foldl drainRead []

/-- The reads of a command that exits in time, up to its end. -/
def readsOf : List Round → List (List Char)
  | [] => []
  | r :: rs => r.reads ++ if r.exit.isSome then [] else readsOf rs

def exitsInTime : List Round → Bool
  | [] => false
  | r :: rs => r.exit.isSome || (!r.late && exitsInTime rs)

/-- The room for this chunk ends before it or holds no null byte of it, or nothing but null
bytes follow its first one. -/
def ReadWhole (before : List (List Char)) (buf : List Char) : Prop :=
  '\x00' ∉ buf.take (maxOutputSize - (nonNull before.flatten).length) ∨
    ∀ c ∈ buf.dropWhile (· ≠ '\x00'), c = '\x00'

theorem nonNull_cons_null (s : List Char) : nonNull ('\x00' :: s) = nonNull s := rfl

theorem nonNull_cons {c : Char} (hc : c ≠ '\x00') (s : List Char) : nonNull (c :: s) = c :: nonNull s :=
  List.filter_cons_of_pos (by simpa using hc)

theorem nonNull_append (s t : List Char) : nonNull (s ++ t) = nonNull s ++ nonNull t :=
  List.filter_append s t

/-- A piece of a chunk as a string is the cut of the chunk without null bytes. -/
theorem cstr_take_iff (n : Nat) (buf : List Char) :
    cstr (buf.take n) = (nonNull buf).take n ↔
      '\x00' ∉ buf.take n ∨ ∀ c ∈ buf.dropWhile (· ≠ '\x00'), c = '\x00' := by
  induction buf generalizing n with
  | nil => simp [cstr, nonNull]
  | cons c cs ih =>
    cases n with
    | zero => simp [cstr]
    | succ n =>
      by_cases hc : c = '\x00'
      · subst hc
        have hstop : ('\x00' :: cs).dropWhile (· ≠ '\x00') = '\x00' :: cs := rfl
        have hempty : cstr (('\x00' :: cs).take (n + 1)) = [] := rfl
        rw [hempty, hstop, nonNull_cons_null, List.take_succ_cons]
        constructor
        · intro h
          right
          intro d hd
          rcases List.mem_cons.mp hd with hd | hd
          · exact hd
          · have hnone : nonNull cs = [] := by simpa using h.symm
            simpa using List.filter_eq_nil_iff.mp hnone d hd
        · intro h
          have hall := h.resolve_left (fun hnot => hnot List.mem_cons_self)
          have hnone : nonNull cs = [] :=
            List.filter_eq_nil_iff.mpr (fun d hd => by simpa using hall d (List.mem_cons_of_mem _ hd))
          rw [hnone]
          rfl
      · have hgo : (c :: cs).dropWhile (· ≠ '\x00') = cs.dropWhile (· ≠ '\x00') :=
          List.dropWhile_cons_of_pos (by simpa using hc)
        have hfirst : cstr (c :: cs.take n) = c :: cstr (cs.take n) :=
          List.takeWhile_cons_of_pos (by simpa using hc)
        rw [hgo, nonNull_cons hc, List.take_succ_cons, List.take_succ_cons, hfirst, List.cons_inj_right,
          ih, List.mem_cons, not_or]
        simp only [Ne.symm hc, not_false_iff, true_and]

theorem drainRead_room {sb : Str} (hroom : sb.length < maxOutputSize) (buf : List Char) :
    drainRead sb buf = sb ++ cstr (buf.take (maxOutputSize - sb.length)) := by
  rw [drainRead, if_pos hroom]
  by_cases hlong : maxOutputSize < sb.length + buf.length
  · dsimp only
    rw [if_pos hlong]
  · dsimp only
    rw [if_neg hlong, List.take_length, List.take_of_length_le (by omega)]

theorem collected_concat (before : List (List Char)) (buf : List Char) :
    collected (before ++ [buf]) = drainRead (collected before) buf := List.foldl_concat _ _ _ _

/-- A read goes on with what should be collected exactly if its chunk is read whole. -/
theorem collected_iff (before : List (List Char)) (buf : List Char) (h : collected before = wanted before) :
    collected (before ++ [buf]) = wanted (before ++ [buf]) ↔ ReadWhole before buf := by
  have hflatten : (before ++ [buf]).flatten = before.flatten ++ buf := by simp
  rw [collected_concat, h, wanted, wanted, hflatten, nonNull_append, ReadWhole]
  by_cases hroom : (nonNull before.flatten).length < maxOutputSize
  · rw [List.take_of_length_le hroom.le, drainRead_room hroom, List.take_append,
      List.take_of_length_le hroom.le, List.append_right_inj]
    exact cstr_take_iff _ _
  · have hfull := Nat.not_lt.mp hroom
    have hcut : ((nonNull before.flatten).take maxOutputSize).length = maxOutputSize :=
      List.length_take_of_le hfull
    have hzero : maxOutputSize - (nonNull before.flatten).length = 0 := Nat.sub_eq_zero_of_le hfull
    rw [drainRead, hcut, if_neg (Nat.lt_irrefl _), List.take_append_of_le_length hfull, hzero]
    simp

theorem pollLoop_eq {rounds : List Round} (h : exitsInTime rounds = true) (sb : Str) :
    ∃ code, pollLoop sb rounds = some ((readsOf rounds).foldl drainRead sb, code, false) := by
  induction rounds generalizing sb with
  | nil => cases h
  | cons r rs ih =>
    cases hexit : r.exit with
    | some code =>
      refine ⟨code, ?_⟩
      simp only [pollLoop, readsOf, hexit, Option.isSome_some, if_true, List.append_nil]
    | none =>
      simp only [exitsInTime, hexit, Option.isSome_none, Bool.false_or, Bool.and_eq_true,
        Bool.not_eq_true'] at h
      obtain ⟨code, hcode⟩ := ih h.2 (r.reads.foldl drainRead sb)
      refine ⟨code, ?_⟩
      simp only [pollLoop, readsOf, hexit, h.1, Option.isSome_none, Bool.false_eq_true, if_false,
        List.foldl_append, hcode]

theorem shellRunTimed_eq {rounds : List Round} (h : exitsInTime rounds = true) (last : List (List Char)) :
    ∃ code, shellRunTimed rounds last =
      some (collected (readsOf rounds ++ last) ++
        (if maxOutputSize ≤ (collected (readsOf rounds ++ last)).length then truncationNotice else []), code) := by
  obtain ⟨code, hcode⟩ := pollLoop_eq h []
  refine ⟨code, ?_⟩
  rw [shellRunTimed, hcode, Option.map_some, collected, List.foldl_append]
  rfl

/-- The result is the stream without null bytes, cut at the cap, with the notice where
something was cut off. -/
def Collects (rounds : List Round) (last : List (List Char)) : Prop :=
  ∃ code, shellRunTimed rounds last =
    some (wanted (readsOf rounds ++ last) ++
      (if maxOutputSize < (nonNull (readsOf rounds ++ last).flatten).length then truncationNotice
      else []), code)

theorem collected_of_whole {reads : List (List Char)}
    (h : ∀ before buf rest, reads = before ++ buf :: rest → ReadWhole before buf) :
    collected reads = wanted reads :=
  (Runs.beginnings_iff (P := fun before => collected before = wanted before) rfl collected_iff
    reads).mpr h reads (List.prefix_refl reads)

/-- The notice is wrong at the cap alone. -/
theorem collects_iff {rounds : List Round} (hexit : exitsInTime rounds = true) {last : List (List Char)}
    (hright : collected (readsOf rounds ++ last) = wanted (readsOf rounds ++ last)) :
    Collects rounds last ↔ (nonNull (readsOf rounds ++ last).flatten).length ≠ maxOutputSize := by
  obtain ⟨code, hcode⟩ := shellRunTimed_eq hexit last
  unfold Collects
  rw [hcode]
  generalize readsOf rounds ++ last = reads at hright ⊢
  have hlength : maxOutputSize ≤ (wanted reads).length ↔ maxOutputSize ≤ (nonNull reads.flatten).length := by
    rw [wanted, List.length_take]
    omega
  simp only [hright, hlength]
  constructor
  · intro h heq
    obtain ⟨code', h⟩ := h
    rw [heq, if_pos (Nat.le_refl _), if_neg (Nat.lt_irrefl _)] at h
    have htext := List.append_cancel_left (congrArg Prod.fst (Option.some.inj h))
    exact absurd htext (by decide)
  · intro hne
    have hsame : maxOutputSize ≤ (nonNull reads.flatten).length ↔
        maxOutputSize < (nonNull reads.flatten).length := by omega
    exact ⟨code, by simp only [hsame]⟩

/-- At every moment what is collected is what it should be, and so is the result, if and
only if every chunk is read whole and the stream does not end exactly at the cap. -/
theorem shell_output_iff {rounds : List Round} (hexit : exitsInTime rounds = true)
    (last : List (List Char)) :
    ((∀ before, before <+: readsOf rounds ++ last → collected before = wanted before) ∧
      Collects rounds last) ↔
      (∀ before buf rest, readsOf rounds ++ last = before ++ buf :: rest → ReadWhole before buf) ∧
        (nonNull (readsOf rounds ++ last).flatten).length ≠ maxOutputSize := by
  rw [Runs.beginnings_iff (P := fun before => collected before = wanted before) rfl collected_iff]
  apply and_congr_right
  intro hwhole
  exact collects_iff hexit (collected_of_whole hwhole)

theorem listing_collected :
    (∀ before, before <+: ["a\n".toList, "b\n".toList] → collected before = wanted before) ∧
      Collects [⟨["a\n".toList], none, false⟩, ⟨["b\n".toList], some 0, false⟩] [] := by
  have hexit : exitsInTime [⟨["a\n".toList], none, false⟩, ⟨["b\n".toList], some 0, false⟩] = true := rfl
  refine (shell_output_iff hexit []).mpr ⟨?_, by decide⟩
  intro before buf rest heq
  have hmem : buf ∈ ["a\n".toList, "b\n".toList] := by
    change ["a\n".toList, "b\n".toList] = _ at heq
    rw [heq]
    exact List.mem_append_right _ List.mem_cons_self
  left
  intro hnull
  have hin := List.mem_of_mem_take hnull
  rcases List.mem_cons.mp hmem with rfl | hmem
  · exact absurd hin (by decide)
  · rw [List.mem_singleton.mp hmem] at hin
    exact absurd hin (by decide)

def fullReads : List (List Char) := List.replicate maxOutputSize ['x']

theorem fullReads_length : (nonNull fullReads.flatten).length = maxOutputSize := by
  have hplain : fullReads.flatten = List.replicate maxOutputSize 'x' := List.flatten_replicate_singleton
  have hnone : nonNull (List.replicate maxOutputSize 'x') = List.replicate maxOutputSize 'x' := by
    apply List.filter_eq_self.mpr
    intro c hc
    rw [List.eq_of_mem_replicate hc]
    rfl
  rw [hplain, hnone, List.length_replicate]

/-- A null byte loses the rest of its chunk, and a stream that just fits is called
truncated. -/
theorem null_byte_loses :
    (shellRunTimed [⟨["a\x00b".toList], some 0, false⟩] [] = some ("a".toList, 0) ∧
      ¬ Collects [⟨["a\x00b".toList], some 0, false⟩] []) ∧
    shellRunTimed [⟨["a\x00".toList, "b".toList], some 0, false⟩] [] = some ("ab".toList, 0) ∧
    ¬ Collects [⟨fullReads, some 0, false⟩] [] := by
  have hlost : shellRunTimed [⟨["a\x00b".toList], some 0, false⟩] [] = some ("a".toList, 0) := by decide
  refine ⟨⟨hlost, ?_⟩, by decide, ?_⟩
  · intro h
    obtain ⟨code, h⟩ := h
    rw [hlost] at h
    have htext : "a".toList = "ab".toList := congrArg Prod.fst (Option.some.inj h)
    exact absurd htext (by decide)
  · have hreads : readsOf [⟨fullReads, some 0, false⟩] ++ [] = fullReads := by simp [readsOf]
    rw [collects_iff rfl]
    · rw [hreads, fullReads_length]
      exact fun hne => hne rfl
    · apply collected_of_whole
      intro before buf rest heq
      have hmem : buf ∈ fullReads := by
        rw [← hreads, heq]
        exact List.mem_append_right _ List.mem_cons_self
      left
      intro hnull
      have hin := List.mem_of_mem_take hnull
      rw [List.eq_of_mem_replicate hmem] at hin
      exact absurd hin (by decide)

end Dobby.Shell
