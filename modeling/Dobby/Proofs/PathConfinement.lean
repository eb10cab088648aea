import Dobby.Base.Paths
import Dobby.Model.FileTool

namespace Dobby.FileTool
open Allowlist Paths

def Absolute (path : Str) : Prop := path.head? = some '/'

/-- The name of a directory from the root on, without dots. -/
structure Directory (rule : Str) : Prop where
  absolute : Absolute rule
  plain : ∀ name ∈ rule.splitOn '/', name ≠ ['.'] ∧ name ≠ ['.', '.']

/-- A path that leads to the directory of a rule or below it. -/
def Inside (rules : List Str) (path : Str) : Prop :=
  ∃ rule ∈ rules, normalise rule <+: normalise path

/-- A path on whose way lies the directory of a rule, with no more steps up than steps
down at any point behind it. -/
def Settles (rules : List Str) (path : Str) : Prop :=
  ∃ rule ∈ rules, ∃ way rest, components path = way ++ rest ∧ resolve [] way = normalise rule ∧
    (depth rest).isSome

/-- The root is among the rules, or no path passes. -/
def Confining (list : AclList) : Prop :=
  (∃ rule ∈ list.rules, normalise rule = []) ∨ (list.enabled = true ∧ list.rules = [])

theorem checkPath_some (al : Allowlist) (path : Str) :
    checkPath (some al) path = allowlistCheck al .path path := by
  cases h : (al .path).enabled <;> simp [checkPath, allowlistIsEnabled, allowlistCheck, h]

theorem opened_ok {al : Option Allowlist} {path p : Str} (h : opened al path = .ok p) :
    path = p ∧ checkPath al p = true := by
  unfold opened at h
  split at h
  · cases h
    exact ⟨rfl, by assumption⟩
  · cases h

/-- No tool goes on with a path that it has not checked. -/
theorem exec_checked {tool : Tool} {al : Option Allowlist} {args : Json} {path : Str}
    (h : tool.exec al args = .ok path) : checkPath al path = true := by
  cases tool with
  | read =>
    change fileReadExec al args = .ok path at h
    unfold fileReadExec at h
    split at h
    · cases h
    · exact (opened_ok h).2
  | write =>
    change fileWriteExec al args = .ok path at h
    unfold fileWriteExec at h
    split at h
    · exact (opened_ok h).2
    · cases h
  | list => exact (opened_ok h).2
  | search =>
    change fileSearchExec al args = .ok path at h
    unfold fileSearchExec at h
    split at h
    · cases h
    · exact (opened_ok h).2
  | delete =>
    change fileDeleteExec al args = .ok path at h
    unfold fileDeleteExec at h
    split at h
    · cases h
    · exact (opened_ok h).2

/-- Every path that passes the check is one that a tool opens. -/
theorem read_opens {al : Option Allowlist} {path : Str} (h : checkPath al path = true) :
    Tool.read.exec al (.object [("path".toList, .string path)]) = .ok path := by
  have hfield : (Json.object [("path".toList, .string path)]).field "path".toList = some path := rfl
  change fileReadExec al (.object [("path".toList, .string path)]) = .ok path
  unfold fileReadExec
  rw [hfield]
  exact if_pos h

theorem inside_iff (rules : List Str) (path : Str) : Inside rules path ↔ Settles rules path := by
  constructor
  · intro h
    obtain ⟨rule, hrule, hbelow⟩ := h
    exact ⟨rule, hrule, (prefix_resolve_iff _ _).mp hbelow⟩
  · intro h
    obtain ⟨rule, hrule, hway⟩ := h
    exact ⟨rule, hrule, (prefix_resolve_iff _ _).mpr hway⟩

/-- Only a path that is refused or settles is kept inside. -/
theorem kept_inside_iff (al : Allowlist) (path : Str) :
    (∀ (tool : Tool) (args : Json), tool.exec (some al) args = .ok path →
      Inside (al .path).rules path) ↔
        (checkPath (some al) path = false ∨ Settles (al .path).rules path) := by
  rw [← inside_iff]
  constructor
  · intro h
    by_cases hpasses : checkPath (some al) path = true
    · exact .inr (h .read _ (read_opens hpasses))
    · exact .inl (Bool.eq_false_of_not_eq_true hpasses)
  · intro h tool args hexec
    have hpasses := exec_checked hexec
    rcases h with hrefused | hinside
    · rw [hrefused] at hpasses
      cases hpasses
    · exact hinside

theorem climb_absolute {path : Str} (h : Absolute path) (n : Nat) : Absolute (climb path n) := by
  cases path with
  | nil => cases h
  | cons c cs => exact h

/-- A rule lets the path through that leads from it to the root. -/
theorem climb_passes {al : Allowlist} {rule : Str} (h : rule ∈ (al .path).rules) (n : Nat) :
    allowlistCheck al .path (climb rule n) = true := by
  unfold allowlistCheck
  split
  · refine List.any_eq_true.mpr ⟨rule, h, ?_⟩
    exact List.isPrefixOf_iff_prefix.mpr (List.prefix_append rule _)
  · rfl

/-- The tools keep every path inside exactly if the root is allowed, and keep one
path inside exactly if the check refuses it or it settles. -/
theorem tools_confined_iff (al : Allowlist) (hrules : ∀ rule ∈ (al .path).rules, Directory rule) :
    ((∀ (tool : Tool) (args : Json) (path : Str), tool.exec (some al) args = .ok path →
      Absolute path → Inside (al .path).rules path) ↔ Confining (al .path)) ∧
    ∀ path : Str, Absolute path →
      ((∀ (tool : Tool) (args : Json), tool.exec (some al) args = .ok path →
        Inside (al .path).rules path) ↔
          (checkPath (some al) path = false ∨ Settles (al .path).rules path)) := by
  refine ⟨?_, fun path _ => kept_inside_iff al path⟩
  constructor
  · intro h
    have hinside (path : Str) (hpath : Absolute path)
        (hpasses : allowlistCheck al .path path = true) : Inside (al .path).rules path := by
      rw [← checkPath_some] at hpasses
      exact h .read _ path (read_opens hpasses) hpath
    by_cases hnone : (al .path).rules = []
    · refine .inr ⟨?_, hnone⟩
      by_contra hoff
      obtain ⟨rule, hrule, -⟩ := hinside ['/'] rfl (by simp [allowlistCheck, hoff])
      rw [hnone] at hrule
      cases hrule
    · obtain ⟨rule, hrule⟩ := List.exists_mem_of_ne_nil _ hnone
      obtain ⟨other, hother, hbelow⟩ := hinside (climb rule (normalise rule).length)
        (climb_absolute (hrules rule hrule).absolute _) (climb_passes hrule _)
      rw [normalise_climb] at hbelow
      exact .inl ⟨other, hother, List.prefix_nil.mp hbelow⟩
  · intro h tool args path hexec hpath
    have hpasses := exec_checked hexec
    rw [checkPath_some] at hpasses
    rcases h with ⟨rule, hrule, hroot⟩ | ⟨hon, hnone⟩
    · refine ⟨rule, hrule, ?_⟩
      rw [hroot]
      exact List.nil_prefix
    · simp [allowlistCheck, hon, hnone] at hpasses

def tmpOnly : Allowlist := (allowlistAdd allowlistCreate .path "/tmp".toList).2

theorem tmp_directory : ∀ rule ∈ (tmpOnly .path).rules, Directory rule := by
  intro rule hrule
  cases List.mem_singleton.mp hrule
  refine ⟨rfl, ?_⟩
  intro name hname
  have hnames : "/tmp".toList.splitOn '/' = [[], "tmp".toList] := by decide +kernel
  rw [hnames] at hname
  simp at hname
  rcases hname with rfl | rfl <;> simp

/-- Below the allowed directory a path may go up and down. -/
theorem tmp_settles : Inside (tmpOnly .path).rules "/tmp/a/../b".toList := by
  have hpasses : checkPath (some tmpOnly) "/tmp/a/../b".toList = true := by decide
  refine ((tools_confined_iff tmpOnly tmp_directory).2 "/tmp/a/../b".toList rfl).mpr (.inr ?_)
    .read _ (read_opens hpasses)
  refine ⟨"/tmp".toList, by decide, [.name "tmp".toList],
    [.name ['a'], .up, .name ['b']], by decide +kernel, by decide +kernel, by decide⟩

/-- The check compares text, so a path may leave the directory that it begins with. -/
theorem tmp_escaped : (∀ rule ∈ (tmpOnly .path).rules, Directory rule) ∧
    Tool.read.exec (some tmpOnly) (.object [("path".toList, .string "/tmp/../etc/passwd".toList)]) =
      .ok "/tmp/../etc/passwd".toList ∧
    ¬Inside (tmpOnly .path).rules "/tmp/../etc/passwd".toList := by
  refine ⟨tmp_directory, read_opens (by decide), ?_⟩
  intro h
  obtain ⟨rule, hrule, hbelow⟩ := h
  cases List.mem_singleton.mp hrule
  revert hbelow
  decide +kernel

end Dobby.FileTool
