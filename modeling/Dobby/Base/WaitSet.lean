import Mathlib.Data.List.Basic

namespace Dobby.WaitSet

/-- The threads of one condition variable: those asleep on it, and those
woken but not yet back inside the lock. -/
structure Waiters (τ : Type u) where
  asleep : List τ
  woken : List τ

def nobody : Waiters τ := ⟨[], []⟩

def sleep (w : Waiters τ) (t : τ) : Waiters τ := { w with asleep := t :: w.asleep }

def broadcast (w : Waiters τ) : Waiters τ := ⟨[], w.asleep ++ w.woken⟩

/-- One sleeping thread is woken, by a signal or spuriously. -/
inductive Wakes : Waiters τ → τ → Waiters τ → Prop where
  | mk : Wakes ⟨before ++ t :: after, woken⟩ t ⟨before ++ after, t :: woken⟩

/-- A signal wakes one sleeping thread, any one, and is lost if there is none. -/
inductive Signal : Waiters τ → Waiters τ → Prop where
  | lost (empty : w.asleep = []) : Signal w w
  | wakes (wake : Wakes w t w') : Signal w w'

/-- A woken thread gets the lock back. -/
inductive Reacquires : Waiters τ → τ → Waiters τ → Prop where
  | mk : Reacquires ⟨asleep, before ++ t :: after⟩ t ⟨asleep, before ++ after⟩

/-- A stay inside the lock begins with a fresh call or with a woken thread. -/
inductive Enters (idle : Prop) : Waiters τ → τ → Waiters τ → Prop where
  | calls (free : idle) : Enters idle w t w
  | resumes (back : Reacquires w t w') : Enters idle w t w'

/-- No wake-up is lost: while anybody sleeps, each of the `n` available units
has a woken thread on its way to it. -/
def Covered (w : Waiters τ) (n : Nat) : Prop := w.asleep ≠ [] → n ≤ w.woken.length

theorem covered_nobody (n : Nat) : Covered (nobody : Waiters τ) n := by
  intro h
  exact absurd rfl h

theorem Covered.mono {w : Waiters τ} (h : Covered w n) (hm : m ≤ n) : Covered w m :=
  fun hs => Nat.le_trans hm (h hs)

theorem covered_sleep (w : Waiters τ) (t : τ) : Covered (sleep w t) 0 :=
  fun _ => Nat.zero_le _

theorem Covered.wakes {w w' : Waiters τ} (h : Covered w n) (hw : Wakes w t w') :
    Covered w' (n + 1) := by
  cases hw
  intro _
  have := h (by simp)
  simpa using this

/-- A signal pays for one more unit. -/
theorem Covered.signal {w w' : Waiters τ} (h : Covered w n) (hs : Signal w w') :
    Covered w' (n + 1) := by
  cases hs with
  | lost empty => exact fun hne => absurd empty hne
  | wakes wake => exact h.wakes wake

/-- A woken thread that comes back and uses up a unit keeps the balance. -/
theorem Covered.reacquires {w w' : Waiters τ} (h : Covered w n)
    (hr : Reacquires w t w') : Covered w' (n - 1) := by
  cases hr
  intro hs
  have := h hs
  simp only [List.length_append, List.length_cons] at this ⊢
  omega

theorem wakes_asleep {w w' : Waiters τ} (h : Wakes w t w') : t ∈ w.asleep := by
  cases h
  simp

theorem Signal.empty {w w' : Waiters τ} (h : Signal w w') (he : w.asleep = []) :
    w'.asleep = [] := by
  cases h with
  | lost empty => exact empty
  | wakes wake =>
    have := wakes_asleep wake
    simp [he] at this

theorem Reacquires.asleep {w w' : Waiters τ} (h : Reacquires w t w') :
    w'.asleep = w.asleep := by
  cases h
  rfl

/-- A thread that enters by a fresh call uses a unit nobody was promised. -/
theorem Covered.enters {w w' : Waiters τ} (h : Covered w n) (he : Enters idle w t w') :
    Covered w' (n - 1) := by
  cases he with
  | calls free => exact h.mono (Nat.sub_le n 1)
  | resumes back => exact h.reacquires back

theorem Enters.asleep {w w' : Waiters τ} (h : Enters idle w t w') : w'.asleep = w.asleep := by
  cases h with
  | calls free => rfl
  | resumes back => exact back.asleep

end Dobby.WaitSet
