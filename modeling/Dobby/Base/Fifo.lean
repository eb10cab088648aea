import Dobby.Base.Runs

namespace Dobby.Fifo
open Runs

/-- A bounded first-in first-out channel that can be closed. -/
structure State (α : Type u) where
  items : List α
  closed : Bool

inductive Event (α : Type u) where
  | push (x : α)
  | refuse (x : α)
  | pop (x : α)
  | drained
  | close

/-- A closed channel refuses pushes but still hands out what it holds. -/
inductive Step (capacity : Nat) : State α → Event α → State α → Prop where
  | push (opened : f.closed = false) (room : f.items.length < capacity) :
      Step capacity f (.push x) { f with items := f.items ++ [x] }
  | refuse (shut : f.closed = true) : Step capacity f (.refuse x) f
  | pop (front : f.items = x :: rest) : Step capacity f (.pop x) { f with items := rest }
  | drained (shut : f.closed = true) (empty : f.items = []) : Step capacity f .drained f
  | close : Step capacity f .close { f with closed := true }

def accepted (es : List (Event α)) : List α :=
  es.filterMap (fun e => match e with | .push x => some x | _ => none)

def delivered (es : List (Event α)) : List α :=
  es.filterMap (fun e => match e with | .pop x => some x | _ => none)

@[simp] theorem accepted_append (es fs : List (Event α)) :
    accepted (es ++ fs) = accepted es ++ accepted fs := by
  simp [accepted]

@[simp] theorem delivered_append (es fs : List (Event α)) :
    delivered (es ++ fs) = delivered es ++ delivered fs := by
  simp [delivered]

/-- Nothing is lost, duplicated or overtaken: what went in is what came out
followed by what is still held. -/
theorem run_conserves {f g : State α} (h : Run (Step capacity) f es g) :
    f.items ++ accepted es = delivered es ++ g.items := by
  induction h with
  | nil => simp [accepted, delivered]
  | snoc run last ih =>
    cases last with
    | push opened room =>
      rw [accepted_append, ← List.append_assoc, ih]
      simp [accepted, delivered]
    | refuse shut => simpa [accepted, delivered] using ih
    | pop front =>
      rw [accepted_append, ← List.append_assoc, ih, front]
      simp [accepted, delivered]
    | drained shut empty => simpa [accepted, delivered] using ih
    | close => simpa [accepted, delivered] using ih

theorem run_closed {f g : State α} (h : Run (Step capacity) f es g)
    (hc : f.closed = true) : g.closed = true ∧ accepted es = [] := by
  refine h.invariant_log (P := fun es g => g.closed = true ∧ accepted es = [])
    ⟨hc, rfl⟩ ?_
  intro es s e t ⟨hs, hes⟩ ht
  cases ht with
  | push opened room => rw [opened] at hs; cases hs
  | refuse shut => exact ⟨hs, by simpa [accepted] using hes⟩
  | pop front => exact ⟨hs, by simpa [accepted] using hes⟩
  | drained shut empty => exact ⟨hs, by simpa [accepted] using hes⟩
  | close => exact ⟨rfl, by simpa [accepted] using hes⟩

/-- Once closed, no push is accepted any more. -/
theorem no_push_after_close {f g : State α}
    (h : Run (Step capacity) f (es ++ .close :: fs) g) : accepted fs = [] := by
  rw [List.append_cons] at h
  obtain ⟨m, h₁, h₂⟩ := h.split
  obtain ⟨k, _, hk⟩ := h₁.unsnoc
  have hc : m.closed = true := by
    cases hk
    rfl
  exact (run_closed h₂ hc).2

/-- The empty answer comes only after the close and after everything accepted
has been handed out. -/
theorem drained_last {f g : State α} (h : Run (Step capacity) f (es ++ [.drained]) g) :
    g.closed = true ∧ f.items ++ accepted es = delivered es := by
  obtain ⟨m, h₁, h₂⟩ := h.unsnoc
  have hk := run_conserves h₁
  cases h₂ with
  | drained shut empty =>
    rw [empty, List.append_nil] at hk
    exact ⟨shut, hk⟩

end Dobby.Fifo
