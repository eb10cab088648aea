import Dobby.Base.Rfc5322
import Dobby.Base.Trim

namespace Dobby.Rfc5322
open CString Lines

/-- The name of a header field. -/
structure FieldName where
  text : Str
  nonempty : text ≠ []
  letters : text.all isNameChar = true

/-- A line without its end, which is a line feed or CRLF. -/
def lineText (line : Str) : Str :=
  match line.reverse with
  | '\n' :: '\r' :: r => r.reverse
  | '\n' :: r => r.reverse
  | _ => line

/-- The lines before the first empty one. -/
def headerLines (msg : Str) : List Str := ((lines msg).map lineText).takeWhile (fun l => l ≠ [])

/-- Whether the line starts a field of this name, whatever the case of its letters. -/
def isField (name line : Str) : Bool :=
  decide (':' ∈ line) && strcaseEq (line.takeWhile (fun c => c ≠ ':')) name

/-- What stands behind the first colon. -/
def afterColon (line : Str) : Str := (line.dropWhile (fun c => c ≠ ':')).drop 1

/-- The lines from the first one of the field on. -/
def fromField (name : Str) (ls : List Str) : List Str := ls.dropWhile (fun l => !isField name l)

/-- The folded lines behind a line, joined. -/
def continuation (ls : List Str) : Str := (ls.takeWhile folds).flatten

/-- The value of the first field with this name in the header. -/
def headerField (msg name : Str) : Option Str :=
  match fromField name (headerLines msg) with
  | [] => none
  | l :: ls => some (strTrim (afterColon l ++ continuation ls))

theorem FieldName.colon (name : FieldName) : ':' ∉ name.text := by
  intro h
  exact absurd (List.all_eq_true.mp name.letters _ h) (by decide)

theorem lineText_append (line : Str) : ∃ brk ∈ [[], ['\n'], Crlf.crlf], line = lineText line ++ brk := by
  have hback : line.reverse.reverse = line := List.reverse_reverse line
  unfold lineText
  split
  · rename_i r hr
    rw [hr] at hback
    exact ⟨Crlf.crlf, by simp, by simpa [Crlf.crlf] using hback.symm⟩
  · rename_i r _ hr
    rw [hr] at hback
    exact ⟨['\n'], by simp, by simpa using hback.symm⟩
  · exact ⟨[], by simp, (List.append_nil line).symm⟩

section Colon

variable {a : Str} (ha : ':' ∉ a) (b : Str)
include ha

theorem not_colon : ∀ c ∈ a, decide (c ≠ ':') = true := fun c hc => by
  simpa using ne_of_mem_of_not_mem hc ha

theorem isField_colon (name : Str) : isField name (a ++ ':' :: b) = strcaseEq a name := by
  have htake : (a ++ ':' :: b).takeWhile (fun c => c ≠ ':') = a := by
    rw [List.takeWhile_append_of_pos (not_colon ha), List.takeWhile_cons_of_neg (by simp),
      List.append_nil]
  rw [isField, htake]
  simp

theorem afterColon_colon : afterColon (a ++ ':' :: b) = b := by
  rw [afterColon, List.dropWhile_append_of_pos (not_colon ha), List.dropWhile_cons_of_neg (by simp)]
  rfl

end Colon

theorem isField_eq_false {name line : Str} (h : ':' ∉ line) : isField name line = false := by
  simp [isField, h]

/-- A line break behind a line changes neither the field that it starts nor its value. -/
theorem isField_append (name line : Str) {t : Str} (h : ':' ∉ t) :
    isField name (line ++ t) = isField name line := by
  by_cases hc : ':' ∈ line
  · obtain ⟨a, b, rfl, ha⟩ := List.eq_append_cons_of_mem hc
    rw [List.append_assoc, List.cons_append, isField_colon ha, isField_colon ha]
  · rw [isField_eq_false hc, isField_eq_false (List.not_mem_append hc h)]

theorem afterColon_append {line : Str} (hc : ':' ∈ line) (t : Str) :
    afterColon (line ++ t) = afterColon line ++ t := by
  obtain ⟨a, b, rfl, ha⟩ := List.eq_append_cons_of_mem hc
  rw [List.append_assoc, List.cons_append, afterColon_colon ha, afterColon_colon ha]

theorem isField_lineText (name line : Str) : isField name (lineText line) = isField name line := by
  obtain ⟨brk, hbrk, hline⟩ := lineText_append line
  have hcolon : ':' ∉ brk := by
    simp only [List.mem_cons, List.not_mem_nil, or_false] at hbrk
    rcases hbrk with rfl | rfl | rfl <;> decide
  conv_rhs => rw [hline]
  exact (isField_append name (lineText line) hcolon).symm

theorem lineText_lf {line : Str} (h : '\n' ∉ line.dropLast) : '\n' ∉ lineText line := by
  have hback : line.reverse.reverse = line := List.reverse_reverse line
  unfold lineText
  split
  · rename_i r hr
    rw [← hback, hr] at h
    intro hmem
    apply h
    simp only [List.reverse_cons, List.dropLast_concat]
    exact List.mem_append_left _ hmem
  · rename_i r _ hr
    rwa [← hback, hr, List.reverse_cons, List.dropLast_concat] at h
  · rename_i hno
    cases hr : line.reverse with
    | nil =>
      rw [List.reverse_eq_nil_iff.mp hr]
      exact List.not_mem_nil
    | cons z zs =>
      rw [← hback, hr, List.reverse_cons] at h ⊢
      rw [List.dropLast_concat] at h
      refine List.not_mem_append h fun hz => ?_
      exact hno zs (by rw [hr, List.mem_singleton.mp hz])

theorem lineText_crlf (l : Str) : lineText (l ++ Crlf.crlf) = l := by
  have hrev : (l ++ Crlf.crlf).reverse = '\n' :: '\r' :: l.reverse := by simp [Crlf.crlf]
  unfold lineText
  rw [hrev]
  exact List.reverse_reverse l

theorem headerLines_text {ls : List Str} (h : ∀ l ∈ ls, Crlf.Line l) (rest : Str) :
    headerLines (Crlf.text ls ++ (Crlf.crlf ++ rest)) = ls := by
  unfold headerLines
  induction ls with
  | nil =>
    have hempty : lineText Crlf.crlf = [] := lineText_crlf []
    rw [Crlf.text_nil, List.nil_append, lines_break, List.map_cons, hempty,
      List.takeWhile_cons_of_neg (by simp)]
  | cons l ls ih =>
    have hl := h l List.mem_cons_self
    rw [Crlf.text_cons, List.append_assoc, List.append_assoc, lines_crlf hl.lf, List.map_cons,
      lineText_crlf, List.takeWhile_cons_of_pos (by simpa using hl.nonempty),
      ih (fun m hm => h m (List.mem_cons_of_mem l hm))]

theorem fromField_of_filter {name l : Str} {ls : List Str} (h : ls.filter (isField name) = [l]) :
    ∃ more, fromField name ls = l :: more := by
  unfold fromField
  induction ls with
  | nil => cases h
  | cons m ls ih =>
    cases hm : isField name m with
    | true =>
      rw [List.filter_cons_of_pos hm] at h
      exact ⟨ls, by rw [List.dropWhile_cons_of_neg (by simp [hm]), (List.cons.inj h).1]⟩
    | false =>
      rw [List.filter_cons_of_neg (by simp [hm])] at h
      rw [List.dropWhile_cons_of_pos (by simp [hm])]
      exact ih h

end Dobby.Rfc5322
