import Dobby.Base.Search

namespace Dobby.Crlf
open CString

def crlf : Str := "\r\n".toList

/-- An empty line behind another line. -/
def blank : Str := "\r\n\r\n".toList

/-- A line that is not empty, without its end. -/
structure Line (line : Str) : Prop where
  nonempty : line ≠ []
  cr : '\r' ∉ line
  lf : '\n' ∉ line

/-- Lines, each with its end. -/
def text (ls : List Str) : Str := ls.flatMap (· ++ crlf)

@[simp] theorem text_nil : text [] = [] := rfl

theorem text_cons (line : Str) (ls : List Str) : text (line :: ls) = line ++ (crlf ++ text ls) := by
  rw [text, List.flatMap_cons, List.append_assoc]
  rfl

/-- The break behind a line is not the empty line where another line follows. -/
theorem strstr_break {c : Char} (hc : c ≠ '\r') (s : Str) :
    strstr blank (crlf ++ c :: s) = strstr blank (c :: s) := by
  have hcr : ¬ blank <+: '\r' :: '\n' :: c :: s := by
    intro h
    have htail := (List.cons_prefix_cons.mp (List.cons_prefix_cons.mp h).2).2
    exact hc (List.cons_prefix_cons.mp htail).1.symm
  have hlf : ¬ blank <+: '\n' :: c :: s := by
    intro h
    exact absurd (List.cons_prefix_cons.mp h).1 (by decide)
  exact (strstr_cons_neg hcr).trans (strstr_cons_neg hlf)

/-- Behind lines and an empty line stands the first empty line. -/
theorem strstr_text {ls : List Str} (hne : ls ≠ []) (hls : ∀ line ∈ ls, Line line) (s : Str) :
    strstr blank (text ls ++ (crlf ++ s)) = some (blank ++ s) := by
  induction ls with
  | nil => exact absurd rfl hne
  | cons line rest ih =>
    have hline := hls line List.mem_cons_self
    have hskip : ∀ t, strstr blank (line ++ t) = strstr blank t := fun t => strstr_skip hline.cr t
    rw [text_cons, List.append_assoc, List.append_assoc, hskip]
    cases rest with
    | nil => exact strstr_append blank s
    | cons next rest =>
      have hnext := hls next (by simp)
      obtain ⟨c, cs, rfl⟩ := List.exists_cons_of_ne_nil hnext.nonempty
      have hcr : c ≠ '\r' := by
        rintro rfl
        exact hnext.cr List.mem_cons_self
      have hmore := ih (List.cons_ne_nil _ rest) (fun l hl => hls l (List.mem_cons_of_mem _ hl))
      rw [text_cons, List.cons_append, List.cons_append] at hmore ⊢
      rw [strstr_break hcr]
      exact hmore

end Dobby.Crlf
