import Dobby.Base.Ansi

namespace Dobby.Output
open Ansi

/-- The loop over a control sequence, on memory that ends with the terminator. -/
def skipCsi : List Char → Option (List Char)
  | [] => none
  | c :: cs =>
    if c ≠ '\x00' ∧ (c.toNat < 0x40 ∨ 0x7e < c.toNat) then skipCsi cs else some (c :: cs)

theorem skipCsi_length (h : skipCsi s = some t) : t.length ≤ s.length := by
  induction s with
  | nil => cases h
  | cons c cs ih =>
    rw [skipCsi] at h
    split at h
    · exact (ih h).trans (Nat.le_succ _)
    · cases h
      exact Nat.le_refl _

/-- The loop of `sanitize_output`, on memory that ends with the terminator. A read
behind it has no result. -/
def sanitizeFrom : List Char → Option Str
  | [] => none
  | c :: cs =>
    if c = '\x00' then some []
    else if c = '\x1b' then
      match cs with
      | [] => none
      | d :: ds =>
        if d = '[' then
          match _ : skipCsi ds with
          | none | some [] => none
          | some (e :: es) => if e = '\x00' then sanitizeFrom (e :: es) else sanitizeFrom es
        else if 0x40 ≤ d.toNat ∧ d.toNat ≤ 0x5f then sanitizeFrom ds
        else sanitizeFrom (d :: ds)
    else if c = '\r' then
      -- Both branches on the next byte step over the carriage return alone.
      match cs with
      | [] => none
      | d :: ds => sanitizeFrom (d :: ds)
    else if c = '\n' ∨ c = '\t' then (sanitizeFrom cs).map (c :: ·)
    else if 0x20 ≤ c.toNat ∧ c.toNat ≤ 0x7e then (sanitizeFrom cs).map (c :: ·)
    else sanitizeFrom cs
termination_by s => s.length
decreasing_by
  · have := skipCsi_length ‹skipCsi _ = some _›
    simp only [List.length_cons] at this ⊢
    omega
  · have := skipCsi_length ‹skipCsi _ = some _›
    simp only [List.length_cons] at this ⊢
    omega
  all_goals
    simp only [List.length_cons]
    omega

/-- `sanitize_output`. A null pointer gives the empty text. -/
def sanitizeOutput : Option Str → Option Str
  | none => some []
  | some src => sanitizeFrom (src ++ ['\x00'])

end Dobby.Output
