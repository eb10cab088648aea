import Mathlib.Data.List.Basic
import Mathlib.Data.List.Range
import Mathlib.Data.Nat.ModEq

namespace Dobby.Ring

/-- The pointer stored at a physical index; outside the array it is null. -/
def cell (cells : List (Option α)) (i : Nat) : Option α := cells.getD i none

/-- The occupied cells in queue order: `count` of them from `head`, wrapping. -/
def contents (cells : List (Option α)) (n head count : Nat) : List α :=
  (List.range count).filterMap (fun i => cell cells ((head + i) % n))

/-- A circular array of `n` cells stands for a queue. No occupied cell is null. -/
structure Represents (cells : List (Option α)) (n head count : Nat) (xs : List α) : Prop where
  size : cells.length = n
  head_lt : head < n
  fits : count ≤ n
  occupied : (List.range count).map (fun i => cell cells ((head + i) % n)) = xs.map some

theorem cell_set_eq (cells : List (Option α)) (x : Option α) (h : i < cells.length) :
    cell (cells.set i x) i = x := by
  simp [cell, h]

theorem cell_set_ne (cells : List (Option α)) (x : Option α) (h : i ≠ j) :
    cell (cells.set i x) j = cell cells j := by
  simp [cell, h]

/-- Offsets below the capacity name distinct cells. -/
theorem offset_inj {n head i j : Nat} (hi : i < n) (hj : j < n)
    (he : (head + i) % n = (head + j) % n) : i = j := by
  have hc : Nat.ModEq n i j := Nat.ModEq.add_left_cancel' head he
  rwa [Nat.ModEq, Nat.mod_eq_of_lt hi, Nat.mod_eq_of_lt hj] at hc

theorem Represents.length {cells : List (Option α)} {xs : List α}
    (h : Represents cells n head count xs) : xs.length = count := by
  simpa using (congrArg List.length h.occupied).symm

theorem Represents.contents {cells : List (Option α)} {xs : List α}
    (h : Represents cells n head count xs) : contents cells n head count = xs := by
  have hm : Ring.contents cells n head count =
      ((List.range count).map (fun i => cell cells ((head + i) % n))).filterMap id := by
    rw [List.filterMap_map]
    rfl
  rw [hm, h.occupied, List.filterMap_map]
  simp

theorem Represents.empty (hn : 0 < n) :
    Represents (List.replicate n (none : Option α)) n 0 0 [] :=
  ⟨by simp, hn, by omega, rfl⟩

/-- Writing one past the last occupied cell appends to the queue. -/
theorem Represents.push {cells : List (Option α)} {xs : List α}
    (h : Represents cells n head count xs) (hroom : count < n) (x : α) :
    Represents (cells.set ((head + count) % n) (some x)) n head (count + 1) (xs ++ [x]) := by
  refine ⟨by simpa using h.size, h.head_lt, hroom, ?_⟩
  have hlast : cell (cells.set ((head + count) % n) (some x)) ((head + count) % n) = some x := by
    apply cell_set_eq
    rw [h.size]
    exact Nat.mod_lt _ (by omega)
  have hkept : (List.range count).map
      (fun i => cell (cells.set ((head + count) % n) (some x)) ((head + i) % n)) =
      (List.range count).map (fun i => cell cells ((head + i) % n)) := by
    apply List.map_congr_left
    intro i hi
    apply cell_set_ne
    intro he
    have := offset_inj hroom (Nat.lt_trans (List.mem_range.mp hi) hroom) he
    have := List.mem_range.mp hi
    omega
  rw [List.range_succ, List.map_append, hkept, h.occupied]
  simp [hlast]

/-- Advancing the head takes the first element off the queue. -/
theorem Represents.pop {cells : List (Option α)} {x : α} {xs : List α}
    (h : Represents cells n head (count + 1) (x :: xs)) :
    cell cells head = some x ∧ Represents cells n ((head + 1) % n) count xs := by
  have hocc := h.occupied
  rw [List.range_succ_eq_map] at hocc
  simp only [List.map_cons, List.map_map, Nat.add_zero, Nat.mod_eq_of_lt h.head_lt,
    List.cons.injEq] at hocc
  refine ⟨hocc.1, h.size, Nat.mod_lt _ (Nat.lt_of_le_of_lt (Nat.zero_le _) h.head_lt),
    Nat.le_of_succ_le h.fits, ?_⟩
  rw [← hocc.2]
  apply List.map_congr_left
  intro i _
  simp only [Function.comp_apply, Nat.mod_add_mod]
  congr 2
  omega

end Dobby.Ring
