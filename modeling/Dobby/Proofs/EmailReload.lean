import Dobby.Proofs.AllowlistSave

namespace Dobby.Allowlist
open CString Lines

/-- A pattern that the loader can make. -/
structure Plain (p : Str) : Prop where
  nonempty : p ≠ []
  comma : ',' ∉ p
  newline : '\n' ∉ p
  null : '\x00' ∉ p
  trimmed : strTrim p = p

/-- The EMAIL rules of a text that is entered in a section. -/
def emailRules (type : AclType) (text : Str) : List Str :=
  rulesOf .email (loader.reads type (fgetsAll 1024 text))

theorem Plain.ends {p : Str} (h : Plain p) :
    isSpace (p.headD ' ') = false ∧ isSpace (p.getLastD ' ') = false := by
  have hne : strTrim p ≠ [] := by
    rw [h.trimmed]
    exact h.nonempty
  have hends := strTrim_ends hne
  rwa [h.trimmed] at hends

/-- What a list with commas holds. -/
def listed (s : Str) : List Str := ((s.splitOn ',').map strTrim).filter (fun v => v ≠ [])

end Dobby.Allowlist
