import Dobby.Base.Files

namespace Dobby

/-- A system call that changes the disk. `open_` makes a file or empties the one that is there. -/
inductive Write where
  | open_ (path : Str)
  | put (path bytes : Str)
  | rename (source target : Str)
  | unlink (path : Str)

namespace Write

def run (fs : Fs) : Write → Fs
  | open_ path => fs.write path []
  | put path bytes => fs.append path bytes
  | rename source target => fs.rename source target
  | unlink path => fs.unlink path

/-- The paths that a call can change. -/
def touches : Write → List Str
  | open_ path | put path _ | unlink path => [path]
  | rename source target => [source, target]

theorem run_of_not_mem {w : Write} {p : Str} (h : p ∉ w.touches) (fs : Fs) : w.run fs p = fs p := by
  cases w with
  | open_ path | put path _ => exact Fs.write_of_ne (List.ne_of_not_mem_cons h) _
  | unlink path => exact Fs.unlink_of_ne (List.ne_of_not_mem_cons h)
  | rename source target =>
    have hrest := List.not_mem_of_not_mem_cons h
    exact Fs.rename_of_ne (List.ne_of_not_mem_cons h) (List.ne_of_not_mem_cons hrest)

end Write

def runWrites (fs : Fs) (ws : List Write) : Fs := ws.foldl Write.run fs

theorem runWrites_cons (fs : Fs) (w : Write) (ws : List Write) :
    runWrites fs (w :: ws) = runWrites (w.run fs) ws := rfl

theorem runWrites_of_not_mem {ws : List Write} {p : Str} (h : ∀ w ∈ ws, p ∉ w.touches) (fs : Fs) :
    runWrites fs ws p = fs p := by
  induction ws generalizing fs with
  | nil => rfl
  | cons w ws ih =>
    rw [runWrites_cons, ih (fun v hv => h v (List.mem_cons_of_mem w hv)),
      Write.run_of_not_mem (h w List.mem_cons_self)]

/-- What goes wrong with the files of one call. `lost` counts the bytes at the end of a
text that `fputs` and `fclose` do not bring to the disk; neither result is looked at. -/
structure Faults where
  readable : Bool
  opens : Bool
  lost : Nat
  renames : Bool

def Faults.none : Faults := ⟨true, true, 0, true⟩

def Faults.arrived (f : Faults) (text : Str) : Str := text.take (text.length - f.lost)

@[simp] theorem Faults.arrived_none (text : Str) : Faults.none.arrived text = text :=
  List.take_of_length_le (Nat.le_refl _)

theorem Faults.arrived_whole {f : Faults} (h : f.lost = 0) (text : Str) : f.arrived text = text := by
  rw [Faults.arrived, h]
  exact List.take_of_length_le (Nat.le_refl _)

/-- A call that the process does not survive: its first so many system calls are made
and it returns nothing. -/
def crashed {α : Type} : Option Nat → α × List Write → Option α × List Write
  | none, (r, ws) => (some r, ws)
  | some n, (_, ws) => (none, ws.take n)

/-- A file is given a new content in place. -/
def overwrite (path bytes : Str) : List Write := [.open_ path, .put path bytes]

/-- It is written under another name first. -/
def replace (tmp path bytes : Str) : List Write := overwrite tmp bytes ++ [.rename tmp path]

theorem run_overwrite (fs : Fs) (path bytes : Str) :
    runWrites fs (overwrite path bytes) = fs.write path bytes := by
  change (fs.write path []).write path (((fs.write path []) path).getD [] ++ bytes) = _
  rw [Fs.write_self]
  exact Function.update_idem ..

theorem run_replace (fs : Fs) (tmp path bytes : Str) :
    runWrites fs (replace tmp path bytes) = (fs.write tmp bytes).rename tmp path := by
  rw [replace, runWrites, List.foldl_append]
  change (runWrites fs (overwrite tmp bytes)).rename tmp path = _
  rw [run_overwrite]

/-- A crash on the way leaves the old content, nothing, or the new one. -/
theorem overwrite_cut (fs : Fs) (path bytes : Str) (n : Nat) :
    runWrites fs ((overwrite path bytes).take n) path =
      if n = 0 then fs path else some (if n = 1 then [] else bytes) := by
  match n with
  | 0 => rfl
  | 1 => exact Fs.write_self ..
  | n + 2 =>
    have hall : (overwrite path bytes).take (n + 2) = overwrite path bytes :=
      List.take_of_length_le (Nat.le_add_left 2 n)
    rw [hall, run_overwrite]
    exact Fs.write_self ..

/-- A crash on the way leaves the old content or the new one. -/
theorem replace_cut {tmp path : Str} (h : path ≠ tmp) (fs : Fs) (bytes : Str) (n : Nat) :
    runWrites fs ((replace tmp path bytes).take n) path =
      if n < 3 then fs path else some bytes := by
  split
  · rename_i hn
    have hcut : (replace tmp path bytes).take n = (overwrite tmp bytes).take n :=
      List.take_append_of_le_length (Nat.le_of_lt_succ hn)
    rw [hcut]
    apply runWrites_of_not_mem
    intro w hw
    rcases List.mem_cons.mp (List.mem_of_mem_take hw) with rfl | hw
    · exact mt List.mem_singleton.mp h
    · rw [List.mem_singleton.mp hw]
      exact mt List.mem_singleton.mp h
  · rename_i hn
    rw [List.take_of_length_le (Nat.le_of_not_lt hn), run_replace, Fs.rename_target h,
      Fs.write_self]

end Dobby
