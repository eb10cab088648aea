import Dobby.Base.Crlf
import Dobby.Model.Serial

namespace Dobby.Serial
open CString

/-- The lines that bytes complete on a device that has read part of a line already. -/
def completed (line : Str) : Str → List Str
  | [] => []
  | c :: s =>
    if c = '\n' ∧ line.getLast? = some '\r' then line.dropLast :: completed [] s
    else completed (line ++ [c]) s

theorem completed_skip {t : Str} (ht : '\n' ∉ t) (line s : Str) :
    completed line (t ++ s) = completed (line ++ t) s := by
  induction t generalizing line with
  | nil => rw [List.nil_append, List.append_nil]
  | cons c cs ih =>
    obtain ⟨hc, hcs⟩ := List.ne_and_not_mem_of_not_mem_cons ht
    have hno : ¬(c = '\n' ∧ line.getLast? = some '\r') := fun h => hc h.1.symm
    rw [List.cons_append, completed, if_neg hno, ih hcs, List.append_assoc]
    rfl

theorem completed_crlf (line s : Str) :
    completed line (Crlf.crlf ++ s) = line :: completed [] s := by
  have hcr : completed line (Crlf.crlf ++ s) = completed (line ++ ['\r']) ('\n' :: s) :=
    completed_skip (t := ['\r']) (by decide) line ('\n' :: s)
  have hlast : (line ++ ['\r']).getLast? = some '\r' := List.getLast?_concat
  rw [hcr, completed, if_pos ⟨rfl, hlast⟩, List.dropLast_concat]

@[simp] theorem sendLoop_done (writes : List Write) : sendLoop [] writes = ([], .whole writes) := by
  cases writes with
  | nil => simp [sendLoop]
  | cons w writes => cases w <;> simp [sendLoop]

section Send

variable {buf : Str} (hbuf : buf ≠ []) (writes : List Write)
include hbuf

theorem sendLoop_waiting : sendLoop buf [] = ([], .waiting) := by simp [sendLoop, hbuf]

theorem sendLoop_interrupted : sendLoop buf (.interrupted :: writes) = sendLoop buf writes := by
  simp [sendLoop, hbuf]

theorem sendLoop_failed : sendLoop buf (.failed :: writes) = ([], .failed writes) := by
  simp [sendLoop, hbuf]

theorem sendLoop_wrote (n : Nat) : sendLoop buf (.wrote n :: writes) =
    (buf.take n ++ (sendLoop (buf.drop n) writes).1, (sendLoop (buf.drop n) writes).2) := by
  simp [sendLoop, hbuf]

end Send

/-- A line that is sent is sent whole, and one that is not lacks at least its last byte. -/
theorem sendLoop_bytes (buf : Str) (writes : List Write) :
    match sendLoop buf writes with
    | (bytes, .whole _) => bytes = buf
    | (bytes, _) => bytes <+: buf.dropLast := by
  induction writes generalizing buf with
  | nil =>
    by_cases hbuf : buf = []
    · simp [hbuf]
    · simp [sendLoop_waiting hbuf]
  | cons w writes ih =>
    by_cases hbuf : buf = []
    · simp [hbuf]
    · cases w with
      | interrupted =>
        rw [sendLoop_interrupted hbuf]
        exact ih buf
      | failed => simp [sendLoop_failed hbuf]
      | wrote n =>
        have hsplit := List.take_append_drop n buf
        have hlater := ih (buf.drop n)
        rw [sendLoop_wrote hbuf]
        by_cases hrest : buf.drop n = []
        · rw [hrest] at hsplit ⊢
          simpa using hsplit
        · have hback : buf.dropLast = buf.take n ++ (buf.drop n).dropLast := by
            rw [← List.dropLast_append_of_ne_nil hrest, hsplit]
          generalize sendLoop (buf.drop n) writes = later at hlater ⊢
          obtain ⟨bytes, how⟩ := later
          cases how with
          | whole rest =>
            dsimp only at hlater ⊢
            rw [hlater, hsplit]
          | failed rest =>
            dsimp only
            rw [hback]
            exact (List.prefix_append_right_inj _).mpr hlater
          | waiting =>
            dsimp only
            rw [hback]
            exact (List.prefix_append_right_inj _).mpr hlater

/-- A command that is sent whole comes behind nothing that failed ones have left, or it is
one of the given commands together with it. -/
def Apart (given : List Str) (left : Str) : List Str → List Write → Prop
  | [], _ => True
  | command :: commands, writes =>
    match serialSend command writes with
    | (_, .whole rest) => (left = [] ∨ left ++ command ∈ given) ∧ Apart given [] commands rest
    | (bytes, .failed rest) => Apart given (left ++ bytes) commands rest
    | (_, .waiting) => True

theorem completed_runCommands_iff {given commands : List Str} (hgiven : ∀ c ∈ commands, c ∈ given)
    (hsingle : ∀ c ∈ commands, '\n' ∉ c) (left : Str) (writes : List Write) :
    (∀ line ∈ completed left (runCommands commands writes), line ∈ given) ↔
      Apart given left commands writes := by
  induction commands generalizing left writes with
  | nil => simp [runCommands, completed, Apart]
  | cons command commands ih =>
    obtain ⟨hcommand, hcommands⟩ := List.forall_mem_cons.mp hgiven
    obtain ⟨hlf, hlfs⟩ := List.forall_mem_cons.mp hsingle
    have hbytes := sendLoop_bytes (command ++ "\r\n".toList) writes
    have hcut : '\n' ∉ (command ++ "\r\n".toList).dropLast := by
      have hback : (command ++ "\r\n".toList).dropLast = command ++ ['\r'] :=
        List.dropLast_append_of_ne_nil (List.cons_ne_nil _ _)
      rw [hback]
      exact List.not_mem_append hlf (by decide)
    rw [runCommands, Apart]
    unfold serialSend
    generalize sendLoop (command ++ "\r\n".toList) writes = sent at hbytes ⊢
    obtain ⟨bytes, how⟩ := sent
    cases how with
    | whole rest =>
      dsimp only at hbytes ⊢
      have hline : completed left (bytes ++ runCommands commands rest) =
          (left ++ command) :: completed [] (runCommands commands rest) := by
        rw [hbytes, List.append_assoc, completed_skip hlf]
        exact completed_crlf _ _
      have hgiven' : left ++ command ∈ given ↔ left = [] ∨ left ++ command ∈ given := by
        constructor
        · exact Or.inr
        · rintro (rfl | h)
          · exact hcommand
          · exact h
      rw [hline, List.forall_mem_cons, ih hcommands hlfs]
      exact and_congr_left' hgiven'
    | failed rest =>
      dsimp only at hbytes ⊢
      rw [completed_skip fun h => hcut (hbytes.subset h), ih hcommands hlfs]
    | waiting =>
      dsimp only at hbytes ⊢
      have hnone := completed_skip (fun h => hcut (hbytes.subset h)) left []
      rw [List.append_nil] at hnone
      rw [hnone]
      simp [completed]

/-- Every complete line that the device receives is one of the commands exactly when no
command goes out behind the rest of a failed one. -/
theorem device_lines_iff (commands : List Str) (hsingle : ∀ c ∈ commands, '\n' ∉ c)
    (writes : List Write) :
    (∀ line ∈ completed [] (commandPhase commands writes), line ∈ commands) ↔
      Apart commands [] (commands.take maxCommands) writes :=
  completed_runCommands_iff (fun _ hc => List.mem_of_mem_take hc)
    (fun c hc => hsingle c (List.mem_of_mem_take hc)) [] writes

def twoCommands : List Str := ["erase log".toList, "startup-config".toList]

theorem whole_commands_received :
    (completed [] (commandPhase twoCommands [.wrote 11, .wrote 16])).all (· ∈ twoCommands) = true := by
  have hlines := (device_lines_iff twoCommands (by decide) [.wrote 11, .wrote 16]).mpr
    ⟨Or.inl rfl, Or.inl rfl, trivial⟩
  exact List.all_eq_true.mpr fun line hline => decide_eq_true (hlines line hline)

/-- The port fills up behind the first word. -/
theorem cut_command_joins_next :
    ¬ ∀ line ∈ completed [] (commandPhase twoCommands [.wrote 6, .failed, .wrote 16]),
      line ∈ twoCommands := by
  decide

end Dobby.Serial
