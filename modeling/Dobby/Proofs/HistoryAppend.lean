import Dobby.Base.Runs
import Dobby.Model.History
import Dobby.Proofs.MemoryFrame

namespace Dobby.MdMemory
open CString Lines

/-- A store changes no file but `MEMORY.md` and its temporary copy. -/
theorem memoryStoreWith_of_ne {mem : Memory} {p : Str} (hpath : p ≠ mem.path)
    (htmp : p ≠ tmpPath mem) (f : Faults) (fs : Fs) (category : Option Str) (key : Str)
    (value : Option Str) : runWrites fs (memoryStoreWith f fs mem category key value).2 p = fs p := by
  cases key with
  | nil => rfl
  | cons c cs =>
    cases value with
    | none => rfl
    | some value =>
      apply runWrites_of_not_mem
      intro w hw hp
      rcases writeMemoryFile_touches w hw p hp with h | h
      · exact hpath h
      · exact htmp h

theorem legacyPath_length (baseDir name : Str) : (legacyPath baseDir name).length < 512 :=
  snprintf_lt (by decide) _

section Migration

variable {mem : Memory} {p : Str} (hpath : p ≠ mem.path) (htmp : p ≠ tmpPath mem)

include hpath htmp in
theorem migrateEntry_of_ne (fs : Fs) {name : Str} (o : Outcome)
    (hlegacy : legacyPath mem.baseDir name ≠ p) : migrateEntry mem fs name o p = fs p := by
  have hwrites (text : Str) : runWrites fs (if text.length = 0 then []
      else (memoryStoreWith o.store fs mem (some "Important Notes".toList) name (some text)).2) p =
        fs p := by
    split
    · rfl
    · exact memoryStoreWith_of_ne hpath htmp ..
  rw [migrateEntry]
  split
  · rfl
  · cases fs (legacyPath mem.baseDir name) with
    | none => rfl
    | some bytes =>
      cases o.opened with
      | false => rfl
      | true =>
        cases o.unlinked with
        | true => exact (Fs.unlink_of_ne (Ne.symm hlegacy)).trans (hwrites _)
        | false => exact hwrites _

include hpath htmp in
/-- A file that is missing stays missing. -/
theorem migrateEntry_missing {fs : Fs} (h : fs p = none) (name : Str) (o : Outcome) :
    migrateEntry mem fs name o p = none := by
  by_cases hlegacy : legacyPath mem.baseDir name = p
  · rw [migrateEntry]
    split
    · exact h
    · rw [hlegacy, h]
      exact h
  · rw [migrateEntry_of_ne hpath htmp fs o hlegacy, h]

/-- A legacy file is gone once its entry is done. -/
theorem migrateEntry_self (fs : Fs) {name : Str} (hext : strEndsWith name ".md".toList = true)
    (hname : name ≠ memoryFile) :
    migrateEntry mem fs name .works (legacyPath mem.baseDir name) = none := by
  have hskip : (!strEndsWith name ".md".toList || name == memoryFile) = false := by
    rw [hext, beq_false_of_ne hname]
    rfl
  rw [migrateEntry, hskip, if_neg Bool.false_ne_true]
  cases h : fs (legacyPath mem.baseDir name) with
  | none => exact h
  | some bytes => exact Function.update_self ..

include hpath htmp in
theorem migrateLegacyFiles_of_ne (fs : Fs) {entries : List (Str × Outcome)}
    (hlegacy : ∀ name, legacyPath mem.baseDir name ≠ p) :
    migrateLegacyFiles mem fs entries p = fs p := by
  induction entries generalizing fs with
  | nil => rfl
  | cons e entries ih =>
    rw [migrateLegacyFiles, List.foldl_cons]
    exact (ih _).trans (migrateEntry_of_ne hpath htmp fs e.2 (hlegacy e.1))

include hpath htmp in
theorem migrateLegacyFiles_missing {fs : Fs} (h : fs p = none) (entries : List (Str × Outcome)) :
    migrateLegacyFiles mem fs entries p = none := by
  induction entries generalizing fs with
  | nil => exact h
  | cons e entries ih => exact ih (migrateEntry_missing hpath htmp h e.1 e.2)

include hpath htmp in
/-- The migration removes each legacy file that the directory lists. -/
theorem migrateLegacyFiles_self (fs : Fs) {name : Str} {entries : List (Str × Outcome)}
    (hp : legacyPath mem.baseDir name = p) (hext : strEndsWith name ".md".toList = true)
    (hname : name ≠ memoryFile) (hmem : (name, .works) ∈ entries) :
    migrateLegacyFiles mem fs entries p = none := by
  induction entries generalizing fs with
  | nil => exact absurd hmem List.not_mem_nil
  | cons entry entries ih =>
    rw [migrateLegacyFiles, List.foldl_cons]
    rcases List.mem_cons.mp hmem with rfl | hmem
    · apply migrateLegacyFiles_missing hpath htmp
      rw [← hp]
      exact migrateEntry_self fs hext hname
    · exact ih _ hmem

end Migration
end Dobby.MdMemory

namespace Dobby.History
open CString MdMemory Runs

section Paths

variable (ws : Workspace)

theorem histPath_eq : histPath ws = memDir ws ++ '/' :: "HISTORY.md".toList := by
  have h := ws.fits
  have hdir : memDir ws = ws.path ++ "/memory".toList := by
    apply snprintf_fits
    rw [List.length_append]
    exact Nat.lt_of_lt_of_le (Nat.add_lt_add_right h _) (by decide)
  have hfile : histPath ws = ws.path ++ "/memory/HISTORY.md".toList := by
    apply snprintf_fits
    rw [List.length_append]
    exact Nat.lt_of_lt_of_le (Nat.add_lt_add_right h _) (by decide)
  rw [hdir, hfile, List.append_assoc]
  rfl

theorem histPath_length : (histPath ws).length = (memDir ws).length + 11 := by
  rw [histPath_eq, List.length_append]
  rfl

def memoryOf : Memory := (memoryCreate (fun _ => none) (memDir ws) []).1

theorem histPath_ne_path : histPath ws ≠ (memoryOf ws).path := by
  intro h
  have hlen := congrArg List.length h
  have hle : (memoryOf ws).path.length ≤ (memDir ws).length + 10 := by
    change (snprintf 512 (memDir ws ++ '/' :: memoryFile)).length ≤ _
    rw [snprintf, List.length_take, List.length_append]
    exact Nat.min_le_right _ _
  rw [histPath_length] at hlen
  omega

theorem histPath_ne_tmp : histPath ws ≠ tmpPath (memoryOf ws) := by
  intro h
  have hlast := congrArg List.getLast? h
  rw [histPath_eq, tmpPath_eq, List.getLast?_append, List.getLast?_append] at hlast
  change some 'd' = some 'p' at hlast
  exact absurd hlast (by decide)

/-- The migration takes `HISTORY.md` for a legacy file unless its path is too long
for the buffer. -/
theorem migrated_file (fs : Fs) {entries : List Str} (hlists : Lists fs (memDir ws) entries) :
    (memoryCreate fs (memDir ws) entries).2 (histPath ws) =
      if (histPath ws).length < 512 then none else fs (histPath ws) := by
  have hpath := histPath_ne_path ws
  have htmp := histPath_ne_tmp ws
  have hstart : startMemory .none fs (memDir ws) (histPath ws) = fs (histPath ws) := by
    rw [startMemory]
    split
    · rfl
    · apply runWrites_of_not_mem
      have htouches : ∀ w ∈ createInitialMemory .none (memoryOf ws), w.touches = [(memoryOf ws).path] := by
        simp [createInitialMemory, Faults.none, overwrite, Write.touches]
      intro w hw
      rw [htouches w hw, List.mem_singleton]
      exact hpath
  change migrateLegacyFiles (memoryOf ws) (startMemory .none fs (memDir ws)) _ (histPath ws) = _
  by_cases hlen : (histPath ws).length < 512
  · rw [if_pos hlen]
    cases hfile : fs (histPath ws) with
    | none => exact migrateLegacyFiles_missing hpath htmp (hstart.trans hfile) _
    | some bytes =>
      have hp : legacyPath (memDir ws) "HISTORY.md".toList = histPath ws := by
        rw [legacyPath, ← histPath_eq, snprintf_fits hlen]
      apply migrateLegacyFiles_self hpath htmp _ hp (by decide) (by decide)
      apply List.mem_map_of_mem
      apply hlists _ (by decide)
      rw [← histPath_eq, hfile]
      rfl
  · rw [if_neg hlen, migrateLegacyFiles_of_ne hpath htmp, hstart]
    intro name h
    have hshort := legacyPath_length (memoryOf ws).baseDir name
    rw [h] at hshort
    exact hlen hshort

end Paths

variable {ws : Workspace}

/-- The step finds an empty history, or its path does not fit the migration's buffer. -/
def Kept (ws : Workspace) (s : System) : Event → Prop
  | .migrated _ => s.content ws = [] ∨ 512 ≤ (histPath ws).length
  | _ => True

def System.Extends (ws : Workspace) (s t : System) : Prop := s.content ws <+: t.content ws

def System.Handled (ws : Workspace) (s : System) : Prop :=
  ∀ h ∈ s.history, h.path = histPath ws

theorem historyLog_path (h : History) (fs : Fs) (category : Int) (title details : Option Str)
    (date ts : Str) : (historyLog h fs category title details date ts).1.path = h.path := by
  cases title <;> rfl

theorem handled_step {s t : System} {e : Event} (h : s.Handled ws) (hs : Step ws s e t) :
    t.Handled ws := by
  cases hs with
  | created =>
    rintro h' ⟨rfl⟩
    rfl
  | logged handle =>
    rintro h' ⟨rfl⟩
    rw [historyLog_path]
    exact h _ handle
  | migrated => exact h

theorem step_unique {s t u : System} {e : Event} (h₁ : Step ws s e t) (h₂ : Step ws s e u) :
    t = u := by
  cases h₁ with
  | created =>
    cases h₂
    rfl
  | logged handle =>
    cases h₂ with
    | logged handle' =>
      rw [handle] at handle'
      cases handle'
      rfl
  | migrated =>
    cases h₂
    rfl

theorem ensureFile_extends (fs : Fs) (path : Str) :
    (fs path).getD [] <+: (ensureFile fs path path).getD [] := by
  rw [ensureFile]
  cases h : fs path with
  | none => exact List.nil_prefix
  | some bytes => simp only [Option.isSome_some, if_true, h, List.prefix_refl]

theorem historyLog_extends (h : History) (fs : Fs) (category : Int) (title details : Option Str)
    (date ts : Str) : (fs h.path).getD [] <+:
      ((historyLog h fs category title details date ts).2 h.path).getD [] := by
  cases title with
  | none => exact List.prefix_refl _
  | some title =>
    change _ <+: (fs.append h.path _ h.path).getD []
    rw [Fs.append, Fs.write_self]
    exact List.prefix_append _ _

/-- A step extends the history exactly if it is kept. -/
theorem extends_step_iff {s t : System} {e : Event} (hh : s.Handled ws) (hs : Step ws s e t) :
    s.Extends ws t ↔ Kept ws s e := by
  cases hs with
  | created => exact iff_of_true (ensureFile_extends s.fs (histPath ws)) trivial
  | logged handle =>
    refine iff_of_true ?_ trivial
    rw [System.Extends, System.content, System.content, ← hh _ handle]
    exact historyLog_extends ..
  | migrated boot lists =>
    change s.content ws <+: ((memoryCreate s.fs (memDir ws) _).2 (histPath ws)).getD [] ↔ _
    rw [migrated_file ws s.fs lists]
    by_cases hlen : (histPath ws).length < 512
    · rw [if_pos hlen]
      refine List.prefix_nil.trans ⟨Or.inl, ?_⟩
      intro h
      rcases h with h | h
      · exact h
      · exact absurd hlen (Nat.not_lt.mpr h)
    · rw [if_neg hlen]
      exact iff_of_true (List.prefix_refl _) (Or.inr (Nat.not_lt.mp hlen))

/-- The history of a run is append-only exactly if each migration on the way finds it
empty or under too long a path. -/
theorem history_append_only_iff {fs : Fs} {es : List Event} {s : System}
    (h : Run (Step ws) (.cold fs) es s) :
    Along (Step ws) (System.Extends ws) (.cold fs) es ↔
      Run (Guarded (Step ws) (Kept ws)) (.cold fs) es s := by
  have hdet : ∀ s e t u, Step ws s e t → Step ws s e u → t = u := fun _ _ _ _ => step_unique
  have htrans : ∀ s t u, System.Extends ws s t → System.Extends ws t u → System.Extends ws s u :=
    fun _ _ _ => List.IsPrefix.trans
  have hinv : ∀ s e t, System.Handled ws s → Step ws s e t → System.Handled ws t :=
    fun _ _ _ => handled_step
  have hstep : ∀ s e t, System.Handled ws s → Step ws s e t →
      (System.Extends ws s t ↔ Kept ws s e) := fun _ _ _ => extends_step_iff
  exact along_iff hdet (fun _ => List.prefix_refl _) htrans hinv hstep (fun _ h => by cases h) h

section Boots
variable (ws : Workspace)

/-- `boot` up to its first entry, in a fresh workspace. -/
def opened : History × Fs := historyCreate (fun _ => none) (some (histPath ws))

def begun : History × Fs :=
  historyLog (opened ws).1 (opened ws).2 0 (some "Agent Starting".toList) (some "version: 1".toList)
    "2025-06-01".toList "12:00:00".toList

def beginning : List Event :=
  [.created, .logged 0 (some "Agent Starting".toList) (some "version: 1".toList)
    "2025-06-01".toList "12:00:00".toList]

def begunSystem : System := ⟨(begun ws).2, some (begun ws).1, true⟩

theorem opened_file : (opened ws).2 = Fs.write (fun _ => none) (histPath ws) header := rfl

theorem begun_run {step : System → Event → System → Prop}
    (hcreated : step (.cold fun _ => none) .created ⟨(opened ws).2, some (opened ws).1, true⟩)
    (hlogged : step ⟨(opened ws).2, some (opened ws).1, true⟩ (.logged 0
      (some "Agent Starting".toList) (some "version: 1".toList) "2025-06-01".toList "12:00:00".toList)
      (begunSystem ws)) :
    Run step (.cold fun _ => none) beginning (begunSystem ws) :=
  .cons hcreated (.single hlogged)

theorem begun_lists : Lists (begun ws).2 (memDir ws) ["HISTORY.md".toList] := by
  intro name _ hfile
  by_contra hname
  have hne : memDir ws ++ '/' :: name ≠ histPath ws := by
    rw [histPath_eq]
    intro h
    have hcons := List.append_cancel_left h
    exact hname (List.mem_singleton.mpr (List.cons.inj hcons).2)
  have hnone : (begun ws).2 (memDir ws ++ '/' :: name) = none :=
    (Fs.write_of_ne hne _).trans (by rw [opened_file, Fs.write_of_ne hne])
  rw [hnone] at hfile
  cases hfile

end Boots

/-- A workspace so far down that the path of its history does not fit the buffer. -/
def deep : Workspace := 
  ⟨List.replicate 500 'w', List.length_replicate.trans_lt (by decide)⟩

theorem history_append_only_deep : Along (Step deep) (System.Extends deep) (.cold fun _ => none)
    (beginning ++ [.migrated ["HISTORY.md".toList], .logged 0 (some "t".toList) none
      "2025-06-01".toList "12:00:01".toList]) := by
  have hlong : 512 ≤ (histPath deep).length := by decide +kernel
  have hmigrated : Step deep (begunSystem deep) (.migrated ["HISTORY.md".toList]) _ :=
    .migrated rfl (begun_lists deep)
  have hbegun : Run (Step deep) (.cold fun _ => none) beginning (begunSystem deep) :=
    begun_run deep .created (.logged rfl)
  have hkept : Run (Guarded (Step deep) (Kept deep)) (.cold fun _ => none) beginning
      (begunSystem deep) :=
    begun_run deep ⟨trivial, .created⟩ ⟨trivial, .logged rfl⟩
  exact (history_append_only_iff (hbegun.append (.cons hmigrated (.single (.logged rfl))))).mpr
    (hkept.append (.cons ⟨.inr hlong, hmigrated⟩ (.single ⟨trivial, .logged rfl⟩)))

def home : Workspace := ⟨"w".toList, by decide⟩

theorem header_ne : header ≠ [] := by
  have hends : ∃ front : String, header = front.toList ++ "---\n\n".toList :=
    ⟨_, String.toList_append⟩
  obtain ⟨front, hfront⟩ := hends
  rw [hfront]
  exact List.append_ne_nil_of_right_ne_nil _ (by decide)

/-- The first start of the agent loses what it has just logged. -/
theorem startup_unlinks_history :
    ∃ s, Run (Step home) (.cold fun _ => none) (beginning ++ [.migrated ["HISTORY.md".toList]]) s ∧
      ¬ Along (Step home) (System.Extends home) (.cold fun _ => none)
        (beginning ++ [.migrated ["HISTORY.md".toList]]) := by
  have hbegun : Run (Step home) (.cold fun _ => none) beginning (begunSystem home) :=
    begun_run home .created (.logged rfl)
  have hmigrated : Step home (begunSystem home) (.migrated ["HISTORY.md".toList]) _ :=
    .migrated rfl (begun_lists home)
  refine ⟨_, .snoc hbegun hmigrated, ?_⟩
  intro halong
  have hext := halong beginning [.migrated ["HISTORY.md".toList]] [] _ _
    (List.append_nil _).symm hbegun (.single hmigrated)
  have hhandled : System.Handled home (begunSystem home) := by
    intro h hh
    rw [← Option.some.inj hh]
    rfl
  rcases (extends_step_iff hhandled hmigrated).mp hext with hempty | hlong
  · have hlog : ((opened home).2 (histPath home)).getD [] <+:
        ((begun home).2 (histPath home)).getD [] :=
      historyLog_extends (opened home).1 (opened home).2 ..
    rw [opened_file, Fs.write_self, Option.getD_some] at hlog
    change ((begun home).2 (histPath home)).getD [] = [] at hempty
    rw [hempty] at hlog
    exact absurd (List.prefix_nil.mp hlog) header_ne
  · exact absurd hlong (by decide)

end Dobby.History
