import Dobby.Model.Faults
import Dobby.Proofs.MemoryRoundTrip
import Dobby.Proofs.SchedulerJobs
import Mathlib.Data.List.TakeDrop

namespace Dobby

theorem Faults.arrived_prefix (f : Faults) (text : Str) : f.arrived text <+: text :=
  List.take_prefix _ text

theorem Faults.arrived_eq_iff {f : Faults} {text : Str} (h : text ≠ []) :
    f.arrived text = text ↔ f.lost = 0 := by
  have hlen := List.length_pos_iff.mpr h
  rw [Faults.arrived, List.take_eq_self_iff]
  omega

/-- A call that writes nothing leaves nothing when it is cut off. -/
theorem crashed_nil {α : Type} (crash : Option Nat) (r : α) : (crashed crash (r, [])).2 = [] := by
  cases crash with
  | none => rfl
  | some n => exact List.take_nil

namespace MdMemory
open CString Lines

theorem memoryStoreWith_refused (f : Faults) (fs : Fs) (mem : Memory) (category : Option Str)
    {key : Str} {value : Option Str} (h : key = [] ∨ value = none) :
    memoryStoreWith f fs mem category key value =
      (.generic "key and value are required".toList, []) := by
  rcases h with rfl | rfl
  · rfl
  · cases key <;> rfl

/-- What is read from a file of these bytes. -/
def asRead (bytes : Str) : Str :=
  if bytes.length = 0 ∨ maxFileSize < bytes.length then [] else cstr bytes

theorem readMemoryFile_of_some {fs : Fs} {mem : Memory} (h : fs mem.path = some bytes) :
    readMemoryFile fs mem = asRead bytes := by
  rw [readMemoryFile, h]
  rfl

theorem readMemoryFile_congr {fs fs' : Fs} {mem : Memory} (h : fs' mem.path = fs mem.path) :
    readMemoryFile fs' mem = readMemoryFile fs mem := by
  rw [readMemoryFile, readMemoryFile, h]

theorem asRead_eq_iff {bytes text : Str} (hnul : '\x00' ∉ bytes) (htext : text ≠ []) :
    asRead bytes = text ↔ bytes = text ∧ text.length ≤ maxFileSize := by
  unfold asRead
  split
  · rename_i hempty
    refine ⟨fun h => absurd h.symm htext, ?_⟩
    rintro ⟨rfl, hlen⟩
    have hpos := List.length_pos_iff.mpr htext
    omega
  · rename_i hfull
    rw [cstr_eq_self hnul]
    refine ⟨?_, And.left⟩
    rintro rfl
    exact ⟨rfl, by omega⟩

/-- The text that a call makes of a file that reads as this content. -/
def newText (category : Option Str) (key : Str) (value : Option Str) (content : Str) : Str :=
  cstr (storeText (canonicaliseSection category) key (bulletFor key (value.getD [])) content)

theorem cstr_ne_nil {c : Char} (hc : c ≠ '\x00') (text : Str) : cstr (c :: text) ≠ [] := by
  rw [cstr, List.takeWhile_cons_of_pos (by simpa using hc)]
  exact List.cons_ne_nil _ _

/-- A new text begins with a piece of the old one or with the new fact. -/
theorem newText_ne_nil (category : Option Str) (key : Str) (value : Option Str) {content : Str}
    (hnul : '\x00' ∉ content) : newText category key value content ≠ [] := by
  rw [newText, storeText_eq]
  cases content with
  | nil => exact cstr_ne_nil (by decide) _
  | cons c cs =>
    have hc : c ≠ '\x00' := fun h => hnul (h ▸ List.mem_cons_self)
    obtain ⟨l, ls, hls⟩ : ∃ l ls, lines (c :: cs) = (c :: l) :: ls := by
      by_cases hnl : c = '\n'
      · exact ⟨[], lines cs, by rw [lines, if_pos hnl, hnl]⟩
      · exact lines_head hnl cs
    rw [hls, emitAll, emit]
    have hends : endsSection ⟨false, false, false⟩ (lineBuf (c :: l)) = false := by
      simp [endsSection]
    rw [hends, if_neg Bool.false_ne_true, List.nil_append]
    split
    · exact cstr_ne_nil (c := '-') (by decide) _
    · rw [copyLine]
      split
      · exact cstr_ne_nil hc _
      · exact cstr_ne_nil hc _

/-- The rename is reached and works. -/
structure Renamed (f : Faults) (crash : Option Nat) : Prop where
  opens : f.opens = true
  renames : f.renames = true
  late : ∀ n, crash = some n → 3 ≤ n

theorem write_reaches {f : Faults} {crash : Option Nat} (h : Renamed f crash) (fs : Fs)
    (mem : Memory) (content : Str) :
    runWrites fs (crashed crash (writeMemoryFile f mem content)).2 mem.path =
      some (f.arrived (cstr content)) := by
  have hcall : writeMemoryFile f mem content =
      (.ok, replace (tmpPath mem) mem.path (f.arrived (cstr content))) := by
    simp only [writeMemoryFile, h.opens, h.renames, if_true]
  have hcut := replace_cut (tmpPath_ne mem) fs (f.arrived (cstr content))
  rw [hcall]
  cases crash with
  | none => exact hcut 3
  | some n => exact (hcut n).trans (if_neg (Nat.not_lt.mpr (h.late n rfl)))

theorem write_leaves {f : Faults} {crash : Option Nat} (h : ¬ Renamed f crash) (fs : Fs)
    (mem : Memory) (content : Str) :
    runWrites fs (crashed crash (writeMemoryFile f mem content)).2 mem.path = fs mem.path := by
  by_cases hinplace : f.opens = true ∧ f.renames = true
  · have hcall : writeMemoryFile f mem content =
        (.ok, replace (tmpPath mem) mem.path (f.arrived (cstr content))) := by
      simp only [writeMemoryFile, hinplace.1, hinplace.2, if_true]
    cases crash with
    | none => exact absurd ⟨hinplace.1, hinplace.2, fun _ hn => by cases hn⟩ h
    | some n =>
      have hn : n < 3 := by
        by_contra hlate
        refine h ⟨hinplace.1, hinplace.2, fun k hk => ?_⟩
        rw [← Option.some.inj hk]
        omega
      rw [hcall]
      exact (replace_cut (tmpPath_ne mem) fs _ n).trans (if_pos hn)
  · apply runWrites_of_not_mem
    intro w hw
    have hmem : w ∈ (writeMemoryFile f mem content).2 := by
      cases crash with
      | none => exact hw
      | some n => exact List.mem_of_mem_take hw
    rw [write_aside hinplace w hmem]
    exact mt List.mem_singleton.mp (tmpPath_ne mem)

theorem write_ok {f : Faults} {crash : Option Nat} {mem : Memory} {content : Str}
    (h : (crashed crash (writeMemoryFile f mem content)).1 = some .ok) :
    crash = none ∧ Renamed f crash := by
  cases crash with
  | some n => cases h
  | none =>
    have hok : (writeMemoryFile f mem content).1 = .ok := Option.some.inj h
    unfold writeMemoryFile at hok
    cases hopens : f.opens <;> cases hrenames : f.renames
    all_goals simp only [hopens, hrenames, if_true, Bool.false_eq_true, if_false] at hok
    · cases hok
    · cases hok
    · cases hok
    · exact ⟨rfl, hopens, hrenames, fun _ hn => by cases hn⟩

theorem write_ok_iff {f : Faults} {crash : Option Nat} (h : Renamed f crash) (mem : Memory)
    (content : Str) :
    (crashed crash (writeMemoryFile f mem content)).1 = some .ok ↔ crash = none := by
  refine ⟨fun hok => (write_ok hok).1, ?_⟩
  rintro rfl
  simp only [crashed, writeMemoryFile, h.opens, h.renames, if_true]

section Store

variable (f : Faults) (crash : Option Nat) (fs : Fs) (mem : Memory) (category : Option Str)
  (key : Str) (value : Option Str)

/-- A start finds the old text or the whole new one, and the new one after success. -/
def StoreSurvives : Prop :=
  let out := crashed crash (memoryStoreWith f fs mem category key value)
  let before := readMemoryFile fs mem
  let after := newText category key value before
  let found := readMemoryFile (runWrites fs out.2) mem
  (found = before ∨ found = after) ∧ (out.1 = some .ok → found = after)

/-- All of the new text comes to the temporary file. A call that could not read the old
text makes its own from nothing. -/
def AllWritten : Prop :=
  if f.readable = true ∨ readMemoryFile fs mem = [] then f.lost = 0
  else f.arrived (newText category key value []) =
    newText category key value (readMemoryFile fs mem)

/-- The call writes nothing over the file, or all of a text that can be read back, or it
crashes and what it has put in place reads as before. -/
def StoreHarmless : Prop :=
  key = [] ∨ value = none ∨ ¬ Renamed f crash ∨
    (AllWritten f fs mem category key value ∧
      (newText category key value (readMemoryFile fs mem)).length ≤ maxFileSize) ∨
    (crash ≠ none ∧
      asRead (f.arrived (newText category key value (readMemoryFileWith f fs mem))) =
        readMemoryFile fs mem)

variable {f crash fs mem category key value}

theorem allWritten_iff :
    AllWritten f fs mem category key value ↔
      f.arrived (newText category key value (readMemoryFileWith f fs mem)) =
        newText category key value (readMemoryFile fs mem) := by
  unfold AllWritten
  split
  · rename_i h
    have hread : readMemoryFileWith f fs mem = readMemoryFile fs mem := by
      unfold readMemoryFileWith
      split
      · rfl
      · rename_i hunread
        exact (h.resolve_left hunread).symm
    rw [hread]
    exact (Faults.arrived_eq_iff
      (newText_ne_nil category key value (not_mem_readMemoryFile fs mem))).symm
  · rename_i h
    have hread : readMemoryFileWith f fs mem = [] := if_neg (fun hr => h (Or.inl hr))
    rw [hread]

theorem store_survives_iff :
    StoreSurvives f crash fs mem category key value ↔
      StoreHarmless f crash fs mem category key value := by
  by_cases hrefused : key = [] ∨ value = none
  · refine iff_of_true ?_ (hrefused.imp_right Or.inl)
    have hcall := memoryStoreWith_refused f fs mem category hrefused
    unfold StoreSurvives
    rw [hcall]
    constructor
    · rw [crashed_nil]
      exact Or.inl rfl
    · intro hok
      cases crash <;> cases hok
  obtain ⟨hkey, hvalue⟩ := not_or.mp hrefused
  obtain ⟨v, rfl⟩ := Option.ne_none_iff_exists'.mp hvalue
  unfold StoreSurvives StoreHarmless
  rw [memoryStoreWith_some f fs mem category hkey]
  by_cases hr : Renamed f crash
  · have hfound := readMemoryFile_of_some (write_reaches hr fs mem
      (storeText (canonicaliseSection category) key (bulletFor key v) (readMemoryFileWith f fs mem)))
    have hnul : '\x00' ∉ f.arrived (newText category key (some v) (readMemoryFileWith f fs mem)) :=
      fun h => not_mem_cstr _ ((f.arrived_prefix _).subset h)
    have hafter := asRead_eq_iff hnul
      (newText_ne_nil category key (some v) (not_mem_readMemoryFile fs mem))
    rw [← allWritten_iff] at hafter
    have hok := write_ok_iff hr mem
      (storeText (canonicaliseSection category) key (bulletFor key v) (readMemoryFileWith f fs mem))
    rw [← hafter]
    simp only [hfound, hok]
    constructor
    · rintro ⟨hfound, hreported⟩
      refine Or.inr (Or.inr (Or.inr ?_))
      by_cases hnew : asRead (f.arrived (newText category key (some v)
          (readMemoryFileWith f fs mem))) = newText category key (some v) (readMemoryFile fs mem)
      · exact Or.inl hnew
      · exact Or.inr ⟨fun hcrash => hnew (hreported hcrash), hfound.resolve_right hnew⟩
    · rintro (hkey' | hvalue' | hr' | hnew | ⟨hcrash, hold⟩)
      · exact absurd hkey' hkey
      · exact absurd hvalue' hvalue
      · exact absurd hr hr'
      · exact ⟨Or.inr hnew, fun _ => hnew⟩
      · exact ⟨Or.inl hold, fun hnone => absurd hnone hcrash⟩
  · refine iff_of_true ⟨Or.inl ?_, fun h => absurd (write_ok h).2 hr⟩ (Or.inr (Or.inr (Or.inl hr)))
    exact readMemoryFile_congr (write_leaves hr fs mem _)

end Store

end MdMemory
namespace Schedule
open CString

theorem saveJobsWith_none (cj : Codec) (fs : Fs) (sched : Scheduler) :
    runWrites fs (saveJobsWith cj .none sched) = saveJobs cj fs sched := by
  rw [saveJobsWith, saveJobs]
  split
  · rfl
  · change runWrites fs (overwrite _ (Faults.none.arrived _)) = _
    rw [Faults.arrived_none, run_overwrite]

theorem addSaves_cases (cj : Codec) (fs : Fs) (sched : Scheduler) (now : Int) (args : Json) :
    (addSaves sched now args = none ∧ (toolScheduleAdd cj fs sched now args).2.1 = fs) ∨
    ∃ table, addSaves sched now args = some table ∧ table.jobsPath = sched.jobsPath ∧
      (toolScheduleAdd cj fs sched now args).2 = (saveJobs cj fs table, table) := by
  rw [addSaves, toolScheduleAdd]
  cases addedTask sched now args with
  | error reply => exact Or.inl ⟨rfl, rfl⟩
  | ok t =>
    by_cases h : sched.tasks.length < maxTasks
    · right
      simp only [dif_pos h]
      exact ⟨_, rfl, rfl, rfl⟩
    · left
      simp only [dif_neg h]
      exact ⟨trivial, trivial⟩

theorem controlSaves_cases (cj : Codec) (fs : Fs) (sched : Scheduler) (args : Json) :
    (controlSaves sched args = none ∧ (toolScheduleControl cj fs sched args).2.1 = fs) ∨
    ∃ table, controlSaves sched args = some table ∧ table.jobsPath = sched.jobsPath ∧
      (toolScheduleControl cj fs sched args).2 = (saveJobs cj fs table, table) := by
  rw [controlSaves]
  have hmade : toolScheduleControl cj fs sched args =
    ((toolScheduleControl cj fs sched args).1, (toolScheduleControl cj fs sched args).2.1,
      (toolScheduleControl cj fs sched args).2.2) := rfl
  rcases control_cases hmade with ⟨hnone, hfs, -⟩ | ⟨i, action, hsome, hfs, hsched⟩
  · left
    rw [hnone]
    exact ⟨rfl, hfs⟩
  · right
    rw [hsome]
    exact ⟨_, rfl, rfl, Prod.ext hfs hsched⟩

theorem scheduleAddWith_none (cj : Codec) (fs : Fs) (sched : Scheduler) (now : Int) (args : Json) :
    runWrites fs (scheduleAddWith cj .none sched now args) =
      (toolScheduleAdd cj fs sched now args).2.1 := by
  rw [scheduleAddWith]
  rcases addSaves_cases cj fs sched now args with ⟨hnone, hfs⟩ | ⟨table, hsome, -, hmade⟩
  · rw [hnone, hfs]
    rfl
  · rw [hsome, hmade]
    exact saveJobsWith_none cj fs table

theorem scheduleControlWith_none (cj : Codec) (fs : Fs) (sched : Scheduler) (args : Json) :
    runWrites fs (scheduleControlWith cj .none sched args) =
      (toolScheduleControl cj fs sched args).2.1 := by
  rw [scheduleControlWith]
  rcases controlSaves_cases cj fs sched args with ⟨hnone, hfs⟩ | ⟨table, hsome, -, hmade⟩
  · rw [hnone, hfs]
    rfl
  · rw [hsome, hmade]
    exact saveJobsWith_none cj fs table

/-- The printed text is read back, and no text that stops short of its end is a document. -/
structure Codec.Exact (cj : Codec) (tree : Json) : Prop where
  parsed : cj.parse (cstr (cj.print tree)) = some tree
  empty : cj.parse [] = none
  cut : ∀ text, text <+: cstr (cj.print tree) → text ≠ cstr (cj.print tree) → cj.parse text = none

/-- The table of a process that starts on this disk. -/
def startJobs (cj : Codec) (fs : Fs) (path : Str) (now : Int) : Scheduler :=
  loadJobs cj fs (emptyTable path) now

theorem startJobs_congr {cj : Codec} {fs fs' : Fs} {path : Str} (h : fs' path = fs path) (now : Int) :
    startJobs cj fs' path now = startJobs cj fs path now := by
  have hempty : (emptyTable path).jobsPath = path := rfl
  rw [startJobs, startJobs, loadJobs, loadJobs, hempty, h]

theorem startJobs_unparsed {cj : Codec} {fs : Fs} {path bytes : Str} (h : fs path = some bytes)
    (hparse : cj.parse (cstr bytes) = none) (now : Int) :
    startJobs cj fs path now = emptyTable path := by
  have hempty : (emptyTable path).jobsPath = path := rfl
  rw [startJobs, loadJobs, hempty]
  split
  · rfl
  · simp only [h, hparse]

theorem loadItem_length (now : Int) (sched : Scheduler) (item : Json) :
    sched.tasks.length ≤ (loadItem now sched item).tasks.length := by
  unfold loadItem
  split
  · split
    · exact Nat.le_refl _
    · rw [List.length_append]
      exact Nat.le_add_right _ _
  · exact Nat.le_refl _

theorem foldl_loadItem_length (now : Int) (items : List Json) (sched : Scheduler) :
    sched.tasks.length ≤ (items.foldl (loadItem now) sched).tasks.length := by
  induction items generalizing sched with
  | nil => exact Nat.le_refl _
  | cons item items ih => exact (loadItem_length now sched item).trans (ih _)

/-- A saved table is loaded as an empty one only when it has no active task. -/
theorem startJobs_saved_iff {cj : Codec} {table : Scheduler} (hcj : cj.Exact (jobsTree table))
    (hpath : table.jobsPath ≠ []) (fs : Fs) (now : Int) :
    startJobs cj (saveJobs cj fs table) table.jobsPath now = emptyTable table.jobsPath ↔
      activeTasks table = [] := by
  have hfile : saveJobs cj fs table table.jobsPath = some (cstr (cj.print (jobsTree table))) := by
    rw [saveJobs, if_neg hpath, Fs.write_self]
  have hload : startJobs cj (saveJobs cj fs table) table.jobsPath now =
      ((activeTasks table).map jobItem).foldl (loadItem now) (emptyTable table.jobsPath) := by
    have hempty : (emptyTable table.jobsPath).jobsPath = table.jobsPath := rfl
    rw [startJobs, loadJobs, hempty, if_neg hpath]
    simp only [hfile, cstr_cstr, hcj.parsed]
    rfl
  rw [hload]
  cases hactive : activeTasks table with
  | nil => exact iff_of_true rfl rfl
  | cons t ts =>
    refine iff_of_false (fun h => ?_) (List.cons_ne_nil t ts)
    have hlen := foldl_loadItem_length now (ts.map jobItem)
      (loadItem now (emptyTable table.jobsPath) (jobItem t))
    have hfirst : (loadItem now (emptyTable table.jobsPath) (jobItem t)).tasks.length = 1 := rfl
    rw [List.map_cons, List.foldl_cons] at h
    rw [h, hfirst] at hlen
    exact absurd hlen (Nat.not_succ_le_zero 0)

section Save

variable (cj : Codec) (f : Faults) (crash : Option Nat) (fs : Fs) (later : Int)

/-- A start finds the table of before the call or the one of the disk after it. -/
def JobsSurvive (path : Str) (ws : List Write) (done : Fs) : Prop :=
  let found := startJobs cj (runWrites fs (crashed crash ((), ws)).2) path later
  found = startJobs cj fs path later ∨ found = startJobs cj done path later

/-- The file is not opened, or all of it is written, or an empty table is right anyway. -/
def SaveHarmless (table : Scheduler) : Prop :=
  table.jobsPath = [] ∨ f.opens = false ∨ crash = some 0 ∨ (f.lost = 0 ∧ crash ≠ some 1) ∨
    startJobs cj fs table.jobsPath later = emptyTable table.jobsPath ∨ activeTasks table = []

variable {cj f crash fs later} {table : Scheduler}

theorem saveJobsWith_opened (hpath : table.jobsPath ≠ []) (hopens : f.opens = true) :
    saveJobsWith cj f table =
      overwrite table.jobsPath (f.arrived (cstr (cj.print (jobsTree table)))) := by
  rw [saveJobsWith, if_neg hpath, if_pos hopens]

theorem save_complete (hpath : table.jobsPath ≠ [])
    (hopens : f.opens = true) (hcrash : crash ≠ some 0) (hall : f.lost = 0 ∧ crash ≠ some 1) :
    runWrites fs (crashed crash ((), saveJobsWith cj f table)).2 table.jobsPath =
      saveJobs cj fs table table.jobsPath := by
  have htext : f.arrived (cstr (cj.print (jobsTree table))) = cstr (cj.print (jobsTree table)) := by
    rw [Faults.arrived, hall.1]
    exact List.take_length
  have hcut := overwrite_cut fs table.jobsPath (cstr (cj.print (jobsTree table)))
  rw [saveJobsWith_opened hpath hopens, htext, saveJobs, if_neg hpath, Fs.write_self]
  cases crash with
  | none => exact hcut 2
  | some n =>
    have h0 : n ≠ 0 := fun h => hcrash (congrArg some h)
    have h1 : n ≠ 1 := fun h => hall.2 (congrArg some h)
    refine (hcut n).trans ?_
    rw [if_neg h0, if_neg h1]

/-- A save that is cut leaves a text that is no document. -/
theorem save_torn (hcj : cj.Exact (jobsTree table)) (hpath : table.jobsPath ≠ [])
    (hopens : f.opens = true) (hcrash : crash ≠ some 0) (hcut : ¬ (f.lost = 0 ∧ crash ≠ some 1)) :
    startJobs cj (runWrites fs (crashed crash ((), saveJobsWith cj f table)).2) table.jobsPath
      later = emptyTable table.jobsPath := by
  have htext : cstr (cj.print (jobsTree table)) ≠ [] := by
    intro h
    have hparsed := hcj.parsed
    rw [h, hcj.empty] at hparsed
    cases hparsed
  have harrived := Faults.arrived_eq_iff (f := f) htext
  have hwrites := overwrite_cut fs table.jobsPath
    (f.arrived (cstr (cj.print (jobsTree table))))
  obtain ⟨bytes, hbytes, hpre, hshort⟩ : ∃ bytes,
      runWrites fs (crashed crash ((), saveJobsWith cj f table)).2 table.jobsPath = some bytes ∧
        bytes <+: cstr (cj.print (jobsTree table)) ∧ bytes ≠ cstr (cj.print (jobsTree table)) := by
    rw [saveJobsWith_opened hpath hopens]
    by_cases h1 : crash = some 1
    · rw [h1]
      exact ⟨[], hwrites 1, List.nil_prefix, htext.symm⟩
    · have hlost : f.lost ≠ 0 := fun h => hcut ⟨h, h1⟩
      refine ⟨_, ?_, f.arrived_prefix _, mt harrived.mp hlost⟩
      cases crash with
      | none => exact hwrites 2
      | some n =>
        have hn0 : n ≠ 0 := fun h => hcrash (congrArg some h)
        have hn1 : n ≠ 1 := fun h => h1 (congrArg some h)
        refine (hwrites n).trans ?_
        rw [if_neg hn0, if_neg hn1]
  have hnul : '\x00' ∉ bytes := fun h => not_mem_cstr _ (hpre.subset h)
  apply startJobs_unparsed hbytes
  rw [cstr_eq_self hnul]
  exact hcj.cut bytes hpre hshort

theorem save_survives_iff (hcj : cj.Exact (jobsTree table)) :
    JobsSurvive cj crash fs later table.jobsPath (saveJobsWith cj f table) (saveJobs cj fs table) ↔
      SaveHarmless cj f crash fs later table := by
  unfold JobsSurvive SaveHarmless
  by_cases hpath : table.jobsPath = []
  · refine iff_of_true (Or.inl ?_) (Or.inl hpath)
    rw [hpath]
    rfl
  by_cases hopens : f.opens = true
  · by_cases hcrash : crash = some 0
    · refine iff_of_true (Or.inl ?_) (Or.inr (Or.inr (Or.inl hcrash)))
      rw [hcrash]
      rfl
    by_cases hall : f.lost = 0 ∧ crash ≠ some 1
    · refine iff_of_true (Or.inr ?_) (Or.inr (Or.inr (Or.inr (Or.inl hall))))
      exact startJobs_congr (save_complete hpath hopens hcrash hall) later
    · simp only [save_torn hcj hpath hopens hcrash hall]
      rw [eq_comm, eq_comm (b := startJobs cj (saveJobs cj fs table) table.jobsPath later),
        startJobs_saved_iff hcj hpath]
      simp [hpath, hopens, hcrash, hall]
  · have hclosed : f.opens = false := Bool.eq_false_of_not_eq_true hopens
    have hnone : saveJobsWith cj f table = [] := by
      rw [saveJobsWith, if_neg hpath, if_neg hopens]
    refine iff_of_true (Or.inl ?_) (Or.inr (Or.inl hclosed))
    rw [hnone, crashed_nil]
    rfl

end Save

end Schedule
open CString MdMemory Schedule

/-- A call that changes a persistent store. -/
inductive StoreCall where
  | memoryStore (mem : Memory) (category : Option Str) (key : Str) (value : Option Str)
  | scheduleAdd (sched : Scheduler) (now : Int) (args : Json)
  | scheduleControl (sched : Scheduler) (args : Json)

namespace StoreCall

/-- The table that a call saves. -/
def saves : StoreCall → Option Scheduler
  | memoryStore .. => none
  | scheduleAdd sched now args => addSaves sched now args
  | scheduleControl sched args => controlSaves sched args

variable (cj : Codec) (f : Faults) (crash : Option Nat) (fs : Fs) (later : Int)

def Survives : StoreCall → Prop
  | memoryStore mem category key value => StoreSurvives f crash fs mem category key value
  | scheduleAdd sched now args =>
    JobsSurvive cj crash fs later sched.jobsPath (scheduleAddWith cj f sched now args)
      (toolScheduleAdd cj fs sched now args).2.1
  | scheduleControl sched args =>
    JobsSurvive cj crash fs later sched.jobsPath (scheduleControlWith cj f sched args)
      (toolScheduleControl cj fs sched args).2.1

def Harmless : StoreCall → Prop
  | memoryStore mem category key value => StoreHarmless f crash fs mem category key value
  | scheduleAdd sched now args =>
    ∀ table, addSaves sched now args = some table → SaveHarmless cj f crash fs later table
  | scheduleControl sched args =>
    ∀ table, controlSaves sched args = some table → SaveHarmless cj f crash fs later table

end StoreCall

section Every

variable {cj : Codec} {f : Faults} {crash : Option Nat} {fs : Fs} {later : Int}

/-- What a scheduler call leaves depends on the table that it saves, if it saves one. -/
theorem jobs_survive_iff {path : Str} {saves : Option Scheduler} {done : Fs}
    (hcj : ∀ table, saves = some table → cj.Exact (jobsTree table))
    (hcase : (saves = none ∧ done = fs) ∨
      ∃ table, saves = some table ∧ table.jobsPath = path ∧ done = saveJobs cj fs table) :
    JobsSurvive cj crash fs later path ((saves.map (saveJobsWith cj f)).getD []) done ↔
      ∀ table, saves = some table → SaveHarmless cj f crash fs later table := by
  rcases hcase with ⟨rfl, rfl⟩ | ⟨table, rfl, rfl, rfl⟩
  · refine iff_of_true (Or.inl ?_) (fun _ h => by cases h)
    rw [Option.map_none, Option.getD_none, crashed_nil]
    rfl
  · refine (save_survives_iff (hcj table rfl)).trans ⟨?_, fun h => h table rfl⟩
    intro h u hu
    rw [← Option.some.inj hu]
    exact h

/-- A store survives faults and crashes exactly when none of them cuts the text that
comes to stand under its name. -/
theorem stores_survive_iff (call : StoreCall)
    (hcj : ∀ table, call.saves = some table → cj.Exact (jobsTree table)) :
    call.Survives cj f crash fs later ↔ call.Harmless cj f crash fs later := by
  cases call with
  | memoryStore mem category key value => exact store_survives_iff
  | scheduleAdd sched now args =>
    refine jobs_survive_iff hcj ?_
    refine (addSaves_cases cj fs sched now args).imp_right ?_
    rintro ⟨table, hsome, hpath, hmade⟩
    exact ⟨table, hsome, hpath, congrArg Prod.fst hmade⟩
  | scheduleControl sched args =>
    refine jobs_survive_iff hcj ?_
    refine (controlSaves_cases cj fs sched args).imp_right ?_
    rintro ⟨table, hsome, hpath, hmade⟩
    exact ⟨table, hsome, hpath, congrArg Prod.fst hmade⟩

/-- It knows one document and its text. -/
def oneJobCodec : Codec :=
  ⟨fun _ => sampleJobs,
    fun text => if text = sampleJobs then some (.array [jobItem sampleTask]) else none⟩

theorem oneJobCodec_unknown {text : Str} (h : text ≠ sampleJobs) :
    oneJobCodec.parse text = none := by
  simp [oneJobCodec, h]

theorem oneJobCodec_exact : oneJobCodec.Exact (.array [jobItem sampleTask]) := by
  have hnul : '\x00' ∉ sampleJobs := by decide +kernel
  have htext : cstr (oneJobCodec.print (.array [jobItem sampleTask])) = sampleJobs :=
    cstr_eq_self hnul
  refine ⟨?_, oneJobCodec_unknown (by decide), ?_⟩
  · rw [htext]
    simp [oneJobCodec]
  · intro text _ hcut
    rw [htext] at hcut
    exact oneJobCodec_unknown hcut

/-- A short write that never comes into place, a rename that fails, and a save that is
complete when the process dies. -/
theorem stores_survive_faults :
    (StoreCall.memoryStore sampleMemory (some "Preferences".toList) "tz".toList
      (some "UTC".toList)).Survives oneJobCodec ⟨true, true, 1000, true⟩ (some 2)
        (sampleFs "## Preferences\n\n- name: Ada\n".toList) 0 ∧
    (StoreCall.memoryStore sampleMemory (some "Preferences".toList) "tz".toList
      (some "UTC".toList)).Survives oneJobCodec ⟨true, true, 0, false⟩ none
        (sampleFs "## Preferences\n\n- name: Ada\n".toList) 0 ∧
    (StoreCall.scheduleAdd (emptyTable "jobs.json".toList) 0 sampleAdd).Survives oneJobCodec
      .none (some 2) (fun _ => none) 0 := by
  have hunsaved {call : StoreCall} (hnone : call.saves = none) : ∀ table, call.saves = some table →
      oneJobCodec.Exact (jobsTree table) := by
    intro table hsome
    rw [hnone] at hsome
    cases hsome
  refine ⟨(stores_survive_iff _ (hunsaved rfl)).mpr ?_, (stores_survive_iff _ (hunsaved rfl)).mpr ?_,
    (stores_survive_iff _ ?_).mpr ?_⟩
  · refine .inr (.inr (.inl fun hrenamed => ?_))
    exact absurd (hrenamed.late 2 rfl) (by decide)
  · refine .inr (.inr (.inl fun hrenamed => ?_))
    exact absurd hrenamed.renames (by decide)
  · intro table h
    cases h
    exact oneJobCodec_exact
  · intro table _
    exact .inr (.inr (.inr (.inl ⟨rfl, by decide⟩)))

/-- A full disk: the text is lost, the empty file takes the place of the old one, and
the call reports success. -/
theorem full_disk_empties_memory :
    ¬ (StoreCall.memoryStore sampleMemory (some "Preferences".toList) "tz".toList
      (some "UTC".toList)).Survives oneJobCodec ⟨true, true, 1000, true⟩ none
        (sampleFs "## Preferences\n\n- name: Ada\n".toList) 0 := by
  intro h
  have hlost : readMemoryFile (runWrites (sampleFs "## Preferences\n\n- name: Ada\n".toList)
      (memoryStoreWith ⟨true, true, 1000, true⟩ (sampleFs "## Preferences\n\n- name: Ada\n".toList)
        sampleMemory (some "Preferences".toList) "tz".toList (some "UTC".toList)).2) sampleMemory =
          [] := by
    decide
  have hafter := h.2 rfl
  rw [crashed, hlost] at hafter
  exact newText_ne_nil _ _ _ (not_mem_readMemoryFile _ sampleMemory) hafter.symm

end Every
end Dobby
