import Mathlib.Data.List.Infix
import Dobby.Base.Search
import Dobby.Model.Serial

namespace Dobby.Serial
open CString Ansi

theorem skipControl_strip (s : Str) : strip .text (skipControl s) = strip .control s := by
  induction s with
  | nil => rfl
  | cons c cs ih =>
    rw [skipControl, strip]
    by_cases hc : c.toNat < 0x40 ∨ 0x7e < c.toNat
    · have hfinal : isFinal c = false := by
        simp only [isFinal, Bool.and_eq_false_iff, decide_eq_false_iff_not]
        omega
      rw [if_pos hc, ih]
      simp [Mode.shows, Mode.next, hfinal]
    · have hfinal : isFinal c = true := by
        simp only [isFinal, Bool.and_eq_true, decide_eq_true_eq]
        omega
      rw [if_neg hc]
      simp [Mode.shows, Mode.next, hfinal]

/-- The loop over a chunk strips it as a terminal does that starts in text. -/
theorem stripAnsi_eq (s : Str) : stripAnsi s = strip .text s := by
  induction s using stripAnsi.induct with
  | case1 => rw [stripAnsi, strip]
  | case2 => simp [stripAnsi, strip, Mode.shows]
  | case3 ds ih =>
    rw [stripAnsi, ih, skipControl_strip]
    simp [strip, Mode.shows, Mode.next]
  | case4 d ds hcontrol hcharset ih =>
    rw [stripAnsi, ih]
    cases ds with
    | nil => simp [strip, Mode.shows, Mode.next, hcontrol, hcharset]
    | cons e es => simp [strip, Mode.shows, Mode.next, hcontrol, hcharset]
  | case5 d ds hcontrol hcharset ih =>
    rw [stripAnsi, ih]
    simp [strip, Mode.shows, Mode.next, hcontrol, hcharset]
  | case6 c cs hc ih =>
    rw [stripAnsi.eq_def]
    dsimp only
    rw [if_neg hc, ih]
    simp [strip, Mode.shows, Mode.next, hc]

/-- All that the bytes so far show. -/
def shown (seen : Str) : Str := strip .text seen

theorem shown_append (seen s : Str) :
    shown (seen ++ s) = shown seen ++ strip (modeAfter .text seen) s :=
  strip_append _ _ _

/-- The first pattern that stands in a text. -/
def found (patterns : List Str) (text : Str) : Option Nat :=
  patterns.findIdx? fun p => decide (p ≠ [] ∧ p <:+: text)

/-- What should be found and collected, read by read. -/
def wanted (patterns : List Str) (seen : Str) : List Str → Option Nat × Str
  | [] => (none, (shown seen).take maxOutputBytes)
  | raw :: reads =>
    match found patterns (shown (seen ++ raw)) with
    | some p => (some p, (shown (seen ++ raw)).take maxOutputBytes)
    | none => wanted patterns (seen ++ raw) reads

theorem collect_eq (text stripped : Str) :
    collect (text.take maxOutputBytes) stripped = (text ++ stripped).take maxOutputBytes := by
  unfold collect
  rw [List.take_append, List.length_take]
  split
  · rename_i h
    have hroom : maxOutputBytes - min maxOutputBytes text.length = maxOutputBytes - text.length := by
      omega
    rw [hroom, Nat.min_comm, ← List.take_eq_take_min]
  · rename_i h
    by_cases hnil : stripped = []
    · simp [hnil]
    · have hfull : maxOutputBytes - text.length = 0 := by
        have hlen : ¬ min maxOutputBytes text.length < maxOutputBytes := fun hlt => h ⟨hnil, hlt⟩
        omega
      rw [hfull, List.take_zero, List.append_nil]

/-- A read starts in text, or what is left of an escape sequence strips to the same text,
as far as there is room for it. -/
def Seamless (seen raw : Str) : Prop :=
  (strip .text raw).take (maxOutputBytes - (shown seen).length) =
    (strip (modeAfter .text seen) raw).take (maxOutputBytes - (shown seen).length)

instance (seen raw : Str) : Decidable (Seamless seen raw) := inferInstanceAs (Decidable (_ = _))

theorem collect_read_iff (seen raw : Str) :
    collect ((shown seen).take maxOutputBytes) (stripAnsi raw) =
        (shown (seen ++ raw)).take maxOutputBytes ↔ Seamless seen raw := by
  rw [collect_eq, stripAnsi_eq, shown_append, List.take_append, List.take_append]
  exact List.append_right_inj _

/-- The first pattern that is shown stands in front of any null byte and within the cap. -/
def Visible (patterns : List Str) (text : Str) : Prop :=
  ∀ p, patterns.find? (fun p => decide (p ≠ [] ∧ p <:+: text)) = some p →
    p <:+: cstr (text.take maxOutputBytes)

/-- Two searches of which one finds more agree exactly if the other finds its first hit. -/
theorem findIdx_eq_iff {α : Type} {q r : α → Bool} {xs : List α}
    (hqr : ∀ x ∈ xs, q x = true → r x = true) :
    xs.findIdx? q = xs.findIdx? r ↔ ∀ x, xs.find? r = some x → q x = true := by
  induction xs with
  | nil => simp
  | cons x xs ih =>
    obtain ⟨hx, hxs⟩ := List.forall_mem_cons.mp hqr
    rw [List.findIdx?_cons, List.findIdx?_cons, List.find?_cons]
    cases hr : r x with
    | true =>
      cases hq : q x with
      | true => simp [hq]
      | false => simp [hq]
    | false =>
      have hq : q x = false := by
        by_contra hne
        rw [hx (by simpa using hne)] at hr
        cases hr
      have hsucc : Function.Injective (Option.map fun i : Nat => i + 1) :=
        Option.map_injective (add_left_injective 1)
      rw [hq, if_neg Bool.false_ne_true, if_neg Bool.false_ne_true, hsucc.eq_iff]
      exact ih hxs

theorem matched_iff (patterns : List Str) (text : Str) :
    matched patterns (text.take maxOutputBytes) = found patterns text ↔ Visible patterns text := by
  have hfound (p : Str) : (p ≠ [] && (strstr p (cstr (text.take maxOutputBytes))).isSome) = true ↔
      p ≠ [] ∧ p <:+: cstr (text.take maxOutputBytes) := by
    rw [Bool.and_eq_true, decide_eq_true_eq, strstr_isSome_iff]
  have hpart : cstr (text.take maxOutputBytes) <:+: text :=
    ((List.takeWhile_prefix _).trans (List.take_prefix _ _)).isInfix
  unfold matched found Visible
  rw [findIdx_eq_iff]
  · refine forall₂_congr fun p hp => ?_
    have hshown := List.find?_some hp
    rw [decide_eq_true_eq] at hshown
    rw [hfound]
    exact and_iff_right hshown.1
  · intro p _ h
    rw [hfound] at h
    exact decide_eq_true ⟨h.1, h.2.trans hpart⟩

/-- Every read until a pattern is shown is seamless and shows its pattern where the search
sees it. -/
def Harmless (patterns : List Str) (seen : Str) : List Str → Prop
  | [] => True
  | raw :: reads => Seamless seen raw ∧ Visible patterns (shown (seen ++ raw)) ∧
      (found patterns (shown (seen ++ raw)) = none → Harmless patterns (seen ++ raw) reads)

theorem readUntil_seen_iff (patterns : List Str) (seen : Str) (reads : List Str) :
    (∀ k, readUntil patterns ((shown seen).take maxOutputBytes) (reads.take k) =
        wanted patterns seen (reads.take k)) ↔ Harmless patterns seen reads := by
  induction reads generalizing seen with
  | nil => simp [readUntil, wanted, Harmless]
  | cons raw reads ih =>
    rw [Harmless, ← ih (seen ++ raw), ← collect_read_iff, ← matched_iff]
    generalize hsb : collect ((shown seen).take maxOutputBytes) (stripAnsi raw) = sb
    have hread (k : Nat) : readUntil patterns ((shown seen).take maxOutputBytes)
        ((raw :: reads).take (k + 1)) =
          match matched patterns sb with
          | some p => (some p, sb)
          | none => readUntil patterns sb (reads.take k) := by
      subst hsb
      rfl
    have hwanted (k : Nat) : wanted patterns seen ((raw :: reads).take (k + 1)) =
        match found patterns (shown (seen ++ raw)) with
        | some p => (some p, (shown (seen ++ raw)).take maxOutputBytes)
        | none => wanted patterns (seen ++ raw) (reads.take k) := by
      rw [List.take_succ_cons, wanted]
    constructor
    · intro h
      have hfirst := h 1
      rw [hread, hwanted, List.take_zero, readUntil, wanted] at hfirst
      have hboth : (matched patterns sb, sb) = (found patterns (shown (seen ++ raw)),
          (shown (seen ++ raw)).take maxOutputBytes) := by
        cases hm : matched patterns sb <;> cases hf : found patterns (shown (seen ++ raw)) <;>
          simp_all
      obtain ⟨hmatched, rfl⟩ := Prod.mk.inj hboth
      refine ⟨rfl, hmatched, fun hnone k => ?_⟩
      have hnext := h (k + 1)
      rw [hread, hwanted, hmatched, hnone] at hnext
      exact hnext
    · rintro ⟨rfl, hmatched, hmore⟩ k
      cases k with
      | zero => rfl
      | succ k =>
        rw [hread, hwanted, hmatched]
        cases hf : found patterns (shown (seen ++ raw)) with
        | some p => rfl
        | none => exact hmore hf k

/-- Wherever the deadline falls, the loop finds and collects what the whole stream shows,
exactly if every read is harmless. -/
theorem read_until_iff (patterns reads : List Str) :
    (∀ k, readUntil patterns [] (reads.take k) = wanted patterns [] (reads.take k)) ↔
      Harmless patterns [] reads :=
  readUntil_seen_iff patterns [] reads

/-- A colour sequence that two reads share. -/
def colouredReads : List Str := ["\x1b[3".toList, "2m".toList]

theorem cut_sequence_collected :
    ¬ ∀ k, readUntil ["$".toList] [] (colouredReads.take k) =
      wanted ["$".toList] [] (colouredReads.take k) := by
  intro h
  have hsecond := ((readUntil_seen_iff ["$".toList] [] colouredReads).mp h).2.2 (by decide)
  exact absurd hsecond.1 (by decide)

end Dobby.Serial
