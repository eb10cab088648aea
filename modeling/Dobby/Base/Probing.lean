import Mathlib.Data.List.Basic
import Mathlib.Data.List.Range
import Mathlib.Data.Fin.Basic
import Mathlib.Algebra.GroupWithZero.Nat

namespace Dobby.Probing

/-- The indices of a table of `n` slots in linear probing order. -/
def probeOrder (n : Nat) [NeZero n] (start : Nat) : List (Fin n) :=
  (List.range n).map (fun i => Fin.ofNat n (start + i))

/-- A probe over the whole order: the first hit wins, and without a hit the
first free slot seen, holes left by deletions included. -/
def scan (hit free : ι → Bool) : Option ι → List ι → Option ι
  | first, [] => first
  | first, i :: is =>
    if hit i then some i
    else scan hit free (if free i && first.isNone then some i else first) is

/-- Probing reaches every slot from every start. -/
theorem mem_probeOrder (n : Nat) [NeZero n] (start : Nat) (i : Fin n) :
    i ∈ probeOrder n start := by
  have hn : 0 < n := Nat.pos_of_ne_zero (NeZero.ne n)
  have hs : start % n < n := Nat.mod_lt _ hn
  refine List.mem_map.mpr ⟨(i.val + (n - start % n)) % n,
    List.mem_range.mpr (Nat.mod_lt _ hn), ?_⟩
  apply Fin.ext
  change (start + (i.val + (n - start % n)) % n) % n = i.val
  rw [Nat.add_mod_mod, ← Nat.mod_add_mod]
  have he : start % n + (i.val + (n - start % n)) = i.val + n := by omega
  rw [he, Nat.add_mod_right, Nat.mod_eq_of_lt i.isLt]

theorem scan_hit {hit : ι → Bool} (free : ι → Bool) (first : Option ι) {l : List ι}
    (h : ∃ i ∈ l, hit i = true) : ∃ i ∈ l, hit i = true ∧ scan hit free first l = some i := by
  induction l generalizing first with
  | nil => simp at h
  | cons j js ih =>
    by_cases hj : hit j = true
    · exact ⟨j, List.mem_cons_self, hj, by simp [scan, hj]⟩
    · have h' : ∃ i ∈ js, hit i = true := by
        obtain ⟨i, hi, hhit⟩ := h
        rcases List.mem_cons.mp hi with rfl | hi
        · exact absurd hhit hj
        · exact ⟨i, hi, hhit⟩
      obtain ⟨i, hi, hhit, he⟩ := ih (if free j && first.isNone then some j else first) h'
      exact ⟨i, List.mem_cons_of_mem _ hi, hhit, by simpa [scan, hj] using he⟩

theorem scan_miss {hit free : ι → Bool} {first : Option ι} {l : List ι}
    (h : ∀ i ∈ l, hit i = false) : scan hit free first l = first.or (l.find? free) := by
  induction l generalizing first with
  | nil => simp [scan]
  | cons j js ih =>
    have hj := h j List.mem_cons_self
    have hjs := fun i hi => h i (List.mem_cons_of_mem _ hi)
    simp only [scan, hj, Bool.false_eq_true, ↓reduceIte, ih hjs]
    cases first <;> cases hf : free j <;> simp [hf]

end Dobby.Probing
