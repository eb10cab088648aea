import Dobby.Base.CString
import Mathlib.Data.List.Infix

namespace Dobby.Paths

/-- One component of a path: the name of an entry, or the directory above. -/
inductive Part (α : Type u) where
  | name (a : α)
  | up
  deriving DecidableEq

section Walk

variable {α : Type u}

/-- One step from a directory, given by the names from the root on. The root is
above itself. -/
def enter (dir : List α) : Part α → List α
  | .name a => dir ++ [a]
  | .up => dir.dropLast

def resolve (dir : List α) (parts : List (Part α)) : List α := parts.foldl enter dir

/-- The depth below the start after one component, none above the start. -/
def descend : Nat → Part α → Option Nat
  | d, .name _ => some (d + 1)
  | 0, .up => none
  | d + 1, .up => some d

/-- How far below its start the walk ends, none if it is ever above. -/
def depth (parts : List (Part α)) : Option Nat := parts.foldlM descend 0

@[simp] theorem resolve_nil (dir : List α) : resolve dir [] = dir := rfl

@[simp] theorem resolve_append (dir : List α) (ps qs : List (Part α)) :
    resolve dir (ps ++ qs) = resolve (resolve dir ps) qs :=
  List.foldl_append

theorem depth_append_one (parts : List (Part α)) (p : Part α) :
    depth (parts ++ [p]) = (depth parts).bind (fun d => descend d p) := by
  simp [depth, List.foldlM_append]

/-- A walk that is never above its start ends below it, at its depth. -/
theorem depth_resolve {parts : List (Part α)} {d : Nat} (h : depth parts = some d) (dir : List α) :
    ∃ sub : List α, sub.length = d ∧ resolve dir parts = dir ++ sub := by
  induction parts using List.reverseRecOn generalizing d with
  | nil => exact ⟨[], Option.some.inj h, by simp⟩
  | append_singleton parts p ih =>
    rw [depth_append_one] at h
    obtain ⟨e, he, hd⟩ := Option.bind_eq_some_iff.mp h
    obtain ⟨sub, hlen, hsub⟩ := ih he
    rw [resolve_append, hsub]
    cases p with
    | name a =>
      cases hd
      exact ⟨sub ++ [a], by simp [hlen], by simp [resolve, enter]⟩
    | up =>
      cases e with
      | zero => cases hd
      | succ e =>
        cases hd
        have hne : sub ≠ [] := by
          intro hnil
          rw [hnil] at hlen
          cases hlen
        refine ⟨sub.dropLast, by simp [hlen], ?_⟩
        simp [resolve, enter, List.dropLast_append_of_ne_nil hne]

/-- A walk ends in a directory or below it exactly if it reaches the directory and is
never above it from then on. -/
theorem prefix_resolve_iff (dir : List α) (parts : List (Part α)) :
    dir <+: resolve [] parts ↔
      ∃ us vs, parts = us ++ vs ∧ resolve [] us = dir ∧ (depth vs).isSome := by
  constructor
  · intro h
    induction parts using List.reverseRecOn with
    | nil => exact ⟨[], [], rfl, (List.prefix_nil.mp h).symm, rfl⟩
    | append_singleton parts p ih =>
      by_cases hdir : resolve [] (parts ++ [p]) = dir
      · exact ⟨parts ++ [p], [], by simp, hdir, rfl⟩
      · rw [resolve_append] at h hdir
        have hbefore : dir <+: resolve [] parts := by
          cases p with
          | name a => exact (List.prefix_concat_iff.mp h).resolve_left (Ne.symm hdir)
          | up => exact h.trans (List.dropLast_prefix _)
        obtain ⟨us, vs, hparts, hus, hvs⟩ := ih hbefore
        obtain ⟨d, hd⟩ := Option.isSome_iff_exists.mp hvs
        refine ⟨us, vs ++ [p], by simp [hparts], hus, ?_⟩
        rw [depth_append_one, hd, Option.bind_some]
        cases p with
        | name a => rfl
        | up =>
          cases d with
          | succ d => rfl
          | zero =>
            obtain ⟨sub, hlen, hsub⟩ := depth_resolve hd (resolve [] us)
            rw [hparts, resolve_append, hsub, List.eq_nil_of_length_eq_zero hlen, List.append_nil,
              hus] at h hdir
            have hshort := h.length_le
            have hlast : dir = [] := by
              apply List.eq_nil_of_length_eq_zero
              simp [resolve, enter] at hshort
              omega
            exact absurd (by simp [hlast, resolve, enter]) hdir
  · intro h
    obtain ⟨us, vs, hparts, hus, hvs⟩ := h
    obtain ⟨d, hd⟩ := Option.isSome_iff_exists.mp hvs
    obtain ⟨sub, -, hsub⟩ := depth_resolve hd dir
    rw [hparts, resolve_append, hus, hsub]
    exact List.prefix_append dir sub

/-- Enough steps up lead to the root. -/
theorem resolve_ups {dir : List α} {n : Nat} (h : dir.length ≤ n) :
    resolve dir (List.replicate n .up) = [] := by
  induction n generalizing dir with
  | zero => exact List.eq_nil_of_length_eq_zero (Nat.le_zero.mp h)
  | succ n ih =>
    rw [List.replicate_succ]
    apply ih
    rw [enter, List.length_dropLast]
    omega

end Walk

def part (s : Str) : Option (Part Str) :=
  if s = [] ∨ s = ['.'] then none
  else if s = ['.', '.'] then some .up
  else some (.name s)

/-- The components of a path, without the empty ones and the single dots. -/
def components (path : Str) : List (Part Str) := (path.splitOn '/').filterMap part

/-- Where a path leads from the root if no entry is a link. -/
def normalise (path : Str) : List Str := resolve [] (components path)

theorem components_append_slash (a b : Str) :
    components (a ++ '/' :: b) = components a ++ components b := by
  rw [components, List.splitOn_append_cons_self, List.filterMap_append]
  rfl

/-- A path with so many steps up behind it. -/
def climb (path : Str) (n : Nat) : Str := path ++ (List.replicate n "/..".toList).flatten

theorem components_climb (path : Str) (n : Nat) :
    components (climb path n) = components path ++ List.replicate n .up := by
  induction n with
  | zero => simp [climb]
  | succ n ih =>
    have hstep : climb path (n + 1) = climb path n ++ '/' :: "..".toList := by
      simp [climb, List.replicate_succ']
    rw [hstep, components_append_slash, ih, List.replicate_succ', ← List.append_assoc]
    rfl

theorem normalise_climb (path : Str) : normalise (climb path (normalise path).length) = [] := by
  rw [normalise, components_climb, resolve_append]
  exact resolve_ups (Nat.le_refl _)

end Dobby.Paths
