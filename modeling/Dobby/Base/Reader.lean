import Mathlib.Data.List.TakeWhile

namespace Dobby

/-- A reader that goes from line to line with a state. -/
structure Reader (τ : Type) (ω : Type) (ρ : Type) where
  step : τ → ω → τ × List ρ

namespace Reader

variable {τ ω ρ : Type} (rd : Reader τ ω ρ)

def state (t : τ) : List ω → τ
  | [] => t
  | l :: ls => state (rd.step t l).1 ls

/-- What the lines yield, in their order. -/
def reads (t : τ) : List ω → List ρ
  | [] => []
  | l :: ls => (rd.step t l).2 ++ reads (rd.step t l).1 ls

/-- A line that reads the same in every state. -/
def Resets (l : ω) : Prop := ∀ t u, rd.step t l = rd.step u l

theorem reads_append (t : τ) (ls ms : List ω) :
    rd.reads t (ls ++ ms) = rd.reads t ls ++ rd.reads (rd.state t ls) ms := by
  induction ls generalizing t with
  | nil => rfl
  | cons l ls ih => rw [List.cons_append, reads, ih, ← List.append_assoc, reads, state]

variable {rd}

/-- From the first line on that resets the reader, nothing depends on the lines before. -/
theorem reads_reset {p : ω → Bool} (hp : ∀ l, p l = true → rd.Resets l) (t u : τ) (ls : List ω) :
    rd.reads t ls = rd.reads t (ls.takeWhile (fun l => !p l)) ++
      rd.reads u (ls.dropWhile (fun l => !p l)) := by
  induction ls generalizing t with
  | nil => rfl
  | cons l ls ih =>
    cases h : p l with
    | true =>
      rw [List.takeWhile_cons_of_neg (by simp [h]), List.dropWhile_cons_of_neg (by simp [h]),
        reads, reads, hp l h t u]
      rfl
    | false =>
      rw [List.takeWhile_cons_of_pos (by simp [h]), List.dropWhile_cons_of_pos (by simp [h]),
        reads, reads, ih, List.append_assoc]

end Reader

/-- Two lists behind a third one and cut to a length. -/
theorem take_behind_iff {α : Type} (n : Nat) (a x y : List α) :
    (a ++ x).take n = (a ++ y).take n ↔ x.take (n - a.length) = y.take (n - a.length) := by
  rw [List.take_append, List.take_append, List.append_right_inj]

end Dobby
