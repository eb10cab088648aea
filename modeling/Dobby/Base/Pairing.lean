import Mathlib.Data.List.Basic

namespace Dobby.Pairing

/-- A transcript in which some entries make calls and others answer them. -/
inductive Entry (ι : Type u) where
  | plain
  | calls (ids : List ι)
  | result (id : ι)
  deriving DecidableEq

/-- Directly behind the calls come their results, one for each and in order, and
there are no other results. -/
inductive WellPaired : List (Entry ι) → Prop where
  | nil : WellPaired []
  | plain (rest : WellPaired es) : WellPaired (.plain :: es)
  | block (rest : WellPaired es) : WellPaired (.calls ids :: (ids.map .result ++ es))

variable [DecidableEq ι]

/-- Reads a transcript while results are owed, and says what is owed at its end. -/
def owed : List ι → List (Entry ι) → Option (List ι)
  | pending, [] => some pending
  | [], .plain :: es => owed [] es
  | [], .calls ids :: es => owed ids es
  | i :: pending, .result j :: es => if i = j then owed pending es else none
  | _, _ => none

@[simp] theorem owed_nil (pending : List ι) : owed pending [] = some pending := by
  cases pending <;> rfl

theorem owed_append (pending : List ι) (es fs : List (Entry ι)) :
    owed pending (es ++ fs) = (owed pending es).bind (fun p => owed p fs) := by
  induction es generalizing pending with
  | nil => simp
  | cons e es ih =>
    cases pending with
    | nil => cases e <;> simp [owed, ih]
    | cons i pending =>
      cases e with
      | plain => rfl
      | calls ids => rfl
      | result j =>
        simp only [List.cons_append, owed]
        split
        · exact ih pending
        · rfl

theorem owed_results (ids : List ι) (es : List (Entry ι)) :
    owed ids (ids.map .result ++ es) = owed [] es := by
  induction ids with
  | nil => rfl
  | cons i ids ih => simpa [owed] using ih

theorem owed_of_wellPaired {es : List (Entry ι)} (h : WellPaired es) : owed [] es = some [] := by
  induction h with
  | nil => rfl
  | plain rest ih => exact ih
  | @block es ids rest ih =>
    change owed ids (ids.map .result ++ es) = some []
    rw [owed_results, ih]

/-- What is owed and then paid off makes up the front of what follows. -/
theorem owed_front {pending : List ι} {es : List (Entry ι)} (h : owed pending es = some []) :
    ∃ rest, es = pending.map .result ++ rest ∧ owed [] rest = some [] := by
  induction pending generalizing es with
  | nil => exact ⟨es, rfl, h⟩
  | cons i pending ih =>
    cases es with
    | nil => cases h
    | cons e es =>
      cases e with
      | plain => cases h
      | calls ids => cases h
      | result j =>
        simp only [owed] at h
        split at h
        · rename_i hij
          obtain ⟨rest, rfl, hrest⟩ := ih h
          exact ⟨rest, by simp [hij], hrest⟩
        · cases h

theorem wellPaired_of_owed {es : List (Entry ι)} (h : owed [] es = some []) : WellPaired es := by
  induction hn : es.length using Nat.strongRecOn generalizing es with
  | _ n ih =>
    cases es with
    | nil => exact .nil
    | cons e es =>
      rw [List.length_cons] at hn
      cases e with
      | plain => exact .plain (ih es.length (by omega) h rfl)
      | result id => cases h
      | calls ids =>
        have hes : owed ids es = some [] := h
        obtain ⟨rest, rfl, hrest⟩ := owed_front hes
        rw [List.length_append] at hn
        exact .block (ih rest.length (by omega) hrest rfl)

theorem wellPaired_iff {es : List (Entry ι)} : WellPaired es ↔ owed [] es = some [] :=
  ⟨owed_of_wellPaired, wellPaired_of_owed⟩

def Entry.IsResult : Entry ι → Prop
  | .result _ => True
  | _ => False

theorem owed_cons {pending : List ι} {e : Entry ι} (h : owed pending (e :: es) = some owing)
    (he : ¬ e.IsResult) : pending = [] := by
  cases pending with
  | nil => rfl
  | cons i pending =>
    cases e with
    | plain => cases h
    | calls ids => cases h
    | result id => exact absurd trivial he

/-- A transcript that is not cut before a result is cut between blocks. -/
theorem owed_cut {e : Entry ι} (h : owed [] (es ++ e :: fs) = some owing) (he : ¬ e.IsResult) :
    owed [] es = some [] ∧ owed [] (e :: fs) = some owing := by
  rw [owed_append] at h
  cases hes : owed [] es with
  | none =>
    rw [hes] at h
    cases h
  | some pending =>
    rw [hes, Option.bind_some] at h
    obtain rfl := owed_cons h he
    exact ⟨rfl, h⟩

/-- What is owed at the end of a transcript leaves no result at its head. -/
theorem head_of_owed {es : List (Entry ι)} (h : owed [] es = some owing) :
    ∀ e ∈ es.head?, ¬ e.IsResult := by
  intro e he
  cases es with
  | nil => cases he
  | cons f es =>
    cases he
    cases e with
    | result id => cases h
    | plain => exact id
    | calls ids => exact id

/-- Dropping the end of a paired transcript leaves it paired exactly if the end
does not start with a result. -/
theorem owed_take_iff (h : owed [] (es ++ fs) = some ([] : List ι)) :
    owed [] es = some [] ↔ ∀ e ∈ fs.head?, ¬ e.IsResult := by
  constructor
  · intro hes
    rw [owed_append, hes, Option.bind_some] at h
    exact head_of_owed h
  · intro hhead
    cases fs with
    | nil => simpa using h
    | cons f fs => exact (owed_cut h (hhead f rfl)).1

/-- The front may be dropped before an entry is added if what is left does not
start with a result. -/
theorem owed_drop {e : Entry ι} (h : owed [] (es ++ fs) = some owing)
    (hnew : owed owing [e] = some owing') (hhead : ∀ f ∈ (fs ++ [e]).head?, ¬ f.IsResult) :
    owed [] (fs ++ [e]) = some owing' := by
  cases fs with
  | nil =>
    obtain rfl := owed_cons hnew (hhead e rfl)
    exact hnew
  | cons f fs =>
    have hfs := (owed_cut h (hhead f rfl)).2
    rw [owed_append, hfs]
    exact hnew

end Dobby.Pairing
