import Dobby.Base.Runs
import Dobby.Base.Search
import Dobby.Base.Trim
import Dobby.Model.MemoryTools
import Dobby.Proofs.CjsonRoundTrip
import Dobby.Proofs.MemoryRoundTrip
import Dobby.Proofs.Migration

namespace Dobby.MdMemory
open CString Lines Runs
open Cjson (Doubles cJSONParse)

/-- A line that fits the line buffer, and a heading that store and recall read alike. -/
structure Sound (line : Str) : Prop where
  ended : Terminated line
  short : line.length < 2048
  headed : isHeading (lineBuf line) = true →
    storeHeading (lineBuf line) = recallHeading (lineBuf line)

def Tidy (content : Str) : Prop := ∀ line ∈ lines content, Sound line

/-- A fact that one line of the file takes, and that a recall tells from all others. -/
structure Fitting (key value : Str) : Prop where
  key_clean : Clean key
  colon : ':' ∉ key
  key_fits : key.length < 512
  value_clean : Clean value
  line_fits : key.length + value.length ≤ 2042

/-- What a recall has of a value: its buffer takes 511 bytes with the blank before it. -/
def clip (value : Str) : Str := strTrim (value.take 510)

theorem bulletValue_clip {key value : Str} (h : Fitting key value) :
    bulletValue (lineBuf (bulletFor key value ++ ['\n'])) = clip value := by
  have hkey := h.key_fits
  have hline := h.line_fits
  rw [lineBuf_bulletFor hkey, bulletValue_colon h.colon, List.take_succ_cons,
    strTrim_cons (by decide), List.take_take, Nat.min_eq_left (by omega),
    List.take_of_length_le (by omega : value.length ≤ 2043 - key.length), clip]
  by_cases hfull : 510 ≤ value.length
  · rw [List.take_append_of_le_length hfull]
  · rw [List.take_of_length_le (by rw [List.length_append, List.length_singleton]; omega),
      strTrim_space value (by decide), List.take_of_length_le (by omega)]

theorem length_bulletFor {key value : Str} (h : Fitting key value) :
    (bulletFor key value).length = key.length + value.length + 4 := by
  have hline := h.line_fits
  have htake : (value.take (2043 - key.length)).length = value.length := by
    rw [List.length_take]
    omega
  rw [bulletFor_eq h.key_fits]
  simp only [List.length_cons, List.length_append, htake]
  omega

theorem newLine_terminated {key value : Str} (h : Fitting key value) :
    Terminated (bulletFor key value ++ ['\n']) :=
  ⟨_, rfl, bulletFor_line h.key_clean h.value_clean⟩

theorem newLine_not_heading {key value : Str} (h : Fitting key value) :
    isHeading (lineBuf (bulletFor key value ++ ['\n'])) = false := by
  rw [lineBuf_bulletFor h.key_fits]
  rfl

theorem newLine_sound {key value : Str} (h : Fitting key value) :
    Sound (bulletFor key value ++ ['\n']) := by
  have hline := h.line_fits
  refine ⟨newLine_terminated h, ?_, fun hh => ?_⟩
  · rw [List.length_append, length_bulletFor h, List.length_singleton]
    omega
  · rw [newLine_not_heading h] at hh
    cases hh

theorem newLine_plain {key value : Str} (h : Fitting key value) :
    Plain key (bulletFor key value ++ ['\n']) := by
  refine ⟨newLine_not_heading h, fun _ => .inr ?_⟩
  rw [lineBuf_bulletFor h.key_fits, bulletKey_colon h.colon, if_pos h.key_fits, h.key_clean.trim]

theorem sectionLine_sound :
    ∀ sec ∈ canonicalSections, Sound ("## ".toList ++ sec ++ ['\n']) := by
  intro sec hsec
  obtain ⟨hlen, hnl, -, -⟩ := canonical_shape sec hsec
  have hheads : ∀ s ∈ canonicalSections, storeHeading (lineBuf ("## ".toList ++ s ++ ['\n'])) =
      recallHeading (lineBuf ("## ".toList ++ s ++ ['\n'])) := by
    decide +kernel
  refine ⟨⟨"## ".toList ++ sec, rfl, ?_⟩, ?_, fun _ => hheads sec hsec⟩
  · simp [hnl]
  · simp only [List.length_append, List.length_singleton]
    have hhash : "## ".toList.length = 3 := rfl
    omega

theorem blank_sound : Sound ['\n'] :=
  ⟨⟨[], rfl, List.not_mem_nil⟩, by decide, fun h => absurd h (by decide)⟩

/-- What is put behind the last line. -/
def tailLines (sec : Str) (new : List Str) (c : Cursor) : List Str :=
  if c.keyWritten then []
  else if c.sectionFound then new
  else ['\n'] :: ("## ".toList ++ sec ++ ['\n']) :: ['\n'] :: new

/-- The lines that a store writes, where the new bullet makes up these lines. -/
def emitLines (sec key : Str) (new : List Str) : Cursor → List Str → List Str
  | c, [] => tailLines sec new c
  | c, line :: rest =>
    (if endsSection c (lineBuf line) then new else []) ++
      ((if isOld key ((advance sec key c line).inTarget, line) then new else [line]) ++
        emitLines sec key new (advance sec key c line) rest)

section Lines

variable {sec key bullet content : Str} {new : List Str}

theorem emitAll_lines (hnew : new.flatten = bullet ++ ['\n']) {ls : List Str}
    (hls : ∀ line ∈ ls, Sound line) (c : Cursor) :
    emitAll sec key bullet c ls = (emitLines sec key new c ls).flatten := by
  induction ls generalizing c with
  | nil =>
    rw [emitAll, emitLines, storeTail, tailLines]
    split
    · rfl
    split <;> simp [hnew]
  | cons line rest ih =>
    rw [emitAll, emitLines, emit, replaces_eq, copyLine, if_pos (hls line List.mem_cons_self).short,
      ih (fun l hl => hls l (List.mem_cons_of_mem line hl))]
    split <;> split <;> simp [hnew]

theorem emitLines_sound (hsec : sec ∈ canonicalSections) (hnew : ∀ line ∈ new, Sound line)
    {ls : List Str} (hls : ∀ line ∈ ls, Sound line) (c : Cursor) :
    ∀ line ∈ emitLines sec key new c ls, Sound line := by
  induction ls generalizing c with
  | nil =>
    have hsection := sectionLine_sound sec hsec
    rw [emitLines, tailLines]
    split
    · exact fun _ hl => absurd hl List.not_mem_nil
    split
    · exact hnew
    · simp only [List.forall_mem_cons]
      exact ⟨blank_sound, hsection, blank_sound, hnew⟩
  | cons line rest ih =>
    intro l hl
    rw [emitLines, List.mem_append, List.mem_append] at hl
    rcases hl with hl | hl | hl
    · split at hl
      · exact hnew l hl
      · exact absurd hl List.not_mem_nil
    · split at hl
      · exact hnew l hl
      · rw [List.mem_singleton.mp hl]
        exact hls line List.mem_cons_self
    · exact ih (fun l hl => hls l (List.mem_cons_of_mem line hl)) _ l hl

/-- The lines of the file after a store into a file in order. -/
theorem lines_storeText (hsec : sec ∈ canonicalSections) (hnew : new.flatten = bullet ++ ['\n'])
    (hsound : ∀ line ∈ new, Sound line) (htidy : Tidy content) :
    lines (storeText sec key bullet content) = emitLines sec key new start (lines content) := by
  have hall : ∀ line ∈ emitLines sec key new start (lines content), Sound line :=
    emitLines_sound hsec hsound htidy start
  have hjoin := lines_join (fun l hl => (hall l hl).ended) []
  rw [List.append_nil] at hjoin
  rw [storeText_eq, emitAll_lines hnew htidy]
  exact hjoin.trans (List.append_nil _)

/-- A store keeps the file in order. -/
theorem storeText_tidy (hsec : sec ∈ canonicalSections) (hnew : new.flatten = bullet ++ ['\n'])
    (hsound : ∀ line ∈ new, Sound line) (htidy : Tidy content) :
    Tidy (storeText sec key bullet content) := by
  rw [Tidy, lines_storeText hsec hnew hsound htidy]
  exact emitLines_sound hsec hsound htidy start

theorem newLine_flatten (bullet : Str) : [bullet ++ ['\n']].flatten = bullet ++ ['\n'] := by
  simp

/-- No line of these opens the section for a recall. -/
def Foreign (s' : Str) (ls : List Str) : Prop :=
  ∀ line ∈ ls, isHeading (lineBuf line) = true → recallHeading (lineBuf line) ≠ s'

theorem recall_foreign {s' : Str} (h : Foreign s' new) (k' : Str) (rest : List Str) :
    recallFrom s' k' false (new ++ rest) = recallFrom s' k' false rest := by
  induction new with
  | nil => rfl
  | cons line new ih =>
    have hflag : recallFlag s' false line = false := by
      rw [recallFlag]
      split
      · rename_i hh
        exact beq_false_of_ne (h line List.mem_cons_self hh)
      · rfl
    rw [List.cons_append, recallFrom_cons, answers, Bool.false_and, Bool.false_and,
      if_neg Bool.false_ne_true, hflag]
    exact ih fun l hl => h l (List.mem_cons_of_mem line hl)

/-- A recall from another section does not see what a store writes. -/
theorem recall_elsewhere {s' : Str} (hsec : sec ∈ canonicalSections)
    (hs' : s' ∈ canonicalSections) (hne : s' ≠ sec) (hnew : Foreign s' new) (k' : Str)
    {ls : List Str} {c : Cursor} (hc : c.Sound) {r : Bool} (ht : Tracks sec s' c r) :
    recallFrom s' k' r (emitLines sec key new c ls) = recallFrom s' k' r ls := by
  have haway {c : Cursor} {r : Bool} (ht : Tracks sec s' c r) (hin : c.inTarget = true) :
      r = false := Bool.eq_false_of_not_eq_true fun hr => hne (ht hin hr)
  have hnone : recallFrom s' k' false new = none := by
    simpa [recallFrom] using recall_foreign hnew k' []
  induction ls generalizing c r with
  | nil =>
    rw [emitLines, tailLines]
    split
    · rfl
    split
    · rename_i hopen hfound
      rw [haway ht (hc.open_ hfound (Bool.eq_false_of_not_eq_true hopen)), hnone]
      rfl
    · obtain ⟨hhead, hrecall⟩ := canonical_heading sec hsec
      have hflag : recallFlag s' r ("## ".toList ++ sec ++ ['\n']) = false := by
        rw [recallFlag, if_pos hhead, hrecall]
        exact beq_false_of_ne (Ne.symm hne)
      rw [recallFrom_blank, recallFrom_cons, answers, not_isBullet_of_isHeading hhead,
        Bool.and_false, Bool.false_and, if_neg Bool.false_ne_true, hflag, recallFrom_blank, hnone]
      rfl
  | cons line rest ih =>
    have htracks : Tracks sec s' (advance sec key c line) (recallFlag s' r line) :=
      tracks_advance hsec hs' ht line
    have hrest := ih (advance_sound hc line) htracks
    have hbefore (more : List Str) : recallFrom s' k' r
        ((if endsSection c (lineBuf line) then new else []) ++ more) = recallFrom s' k' r more := by
      split
      · rename_i hends
        simp only [endsSection, Bool.and_eq_true] at hends
        rw [haway ht hends.1.2]
        exact recall_foreign hnew k' more
      · rfl
    rw [emitLines, hbefore]
    split
    · rename_i hold
      have hin := (Bool.and_eq_true_iff.mp hold).1
      have hflag := haway htracks hin
      have hbullet : isHeading (lineBuf line) = false := by
        by_contra hh
        have hfact := (Bool.and_eq_true_iff.mp hold).2
        rw [isFact, not_isBullet_of_isHeading (Bool.eq_true_of_not_eq_false hh)] at hfact
        cases hfact
      have hr : r = false := by
        rwa [recallFlag, hbullet, if_neg Bool.false_ne_true] at hflag
      rw [hflag] at hrest
      rw [hr, recall_foreign hnew, hrest, recallFrom_cons, answers, Bool.false_and,
        Bool.false_and, if_neg Bool.false_ne_true, recallFlag, hbullet]
      rfl
    · rw [List.singleton_append, recallFrom_cons, recallFrom_cons, hrest]

end Lines

theorem old_of_answers {key line : Str} {r : Bool} (h : answers key r line = true) :
    isOld key (r, line) = true := by
  simp only [answers, Bool.and_eq_true, beq_iff_eq] at h
  obtain ⟨⟨hr, hb⟩, hk⟩ := h
  rw [isOld, isFact, hr, hb, hk, Option.getD_some, beq_self_eq_true]
  rfl

/-- In a file in order, recall is in the section where store is, and comes upon the new line. -/
theorem spotFrom_tidy {sec key : Str} {ls : List Str} (hls : ∀ line ∈ ls, Sound line) {c : Cursor}
    (hc : c.Sound) (hopen : c.keyWritten = false) :
    spotFrom sec key c c.inTarget ls = some .new := by
  induction ls generalizing c with
  | nil =>
    rw [spotFrom, hopen, if_neg Bool.false_ne_true, if_neg]
    intro h
    simp only [Bool.and_eq_true, Bool.not_eq_true'] at h
    exact absurd ((hc.open_ h.1 hopen).symm.trans h.2) (by decide)
  | cons line rest ih =>
    have hline := hls line List.mem_cons_self
    have hrec := ih (fun l hl => hls l (List.mem_cons_of_mem line hl))
      (@advance_sound sec key c hc line)
    have hnl : '\n' ∈ line := by
      obtain ⟨body, rfl, -⟩ := hline.ended
      simp
    rw [spotFrom]
    cases hh : isHeading (lineBuf line) with
    | true =>
      rw [advance_heading sec key c hh] at hrec ⊢
      cases hin : c.inTarget with
      | true => simp [endsSection, hh, hin, hopen]
      | false =>
        have hold : isOld key (isTarget sec line, line) = false := by
          rw [isOld, isFact, not_isBullet_of_isHeading hh, Bool.false_and, Bool.and_false]
        have hflag : recallFlag sec false line = isTarget sec line := by
          rw [recallFlag, if_pos hh, isTarget, hh, hline.headed hh, Bool.true_and]
        have hlen := hline.short
        simp [hold, answers, hflag, hnl, hlen, hin, hopen] at hrec ⊢
        exact hrec
    | false =>
      have hflag : recallFlag sec c.inTarget line = c.inTarget := by
        rw [recallFlag, hh, if_neg Bool.false_ne_true]
      have hend : endsSection c (lineBuf line) = false := by
        rw [endsSection, hh, Bool.false_and, Bool.false_and]
      rw [advance_body sec key c hh] at hrec ⊢
      cases hold : isOld key (c.inTarget, line) with
      | true =>
        have hin : c.inTarget = true := (Bool.and_eq_true_iff.mp hold).1
        simp [hin, hend]
      | false =>
        have hno : answers key c.inTarget line = false := by
          by_contra hans
          rw [Bool.not_eq_false] at hans
          exact absurd ((old_of_answers hans).symm.trans hold) (by decide)
        have hadv : (c.inTarget && isFact key line) = false := hold
        have hlen := hline.short
        rw [hadv, Bool.or_false] at hrec ⊢
        simpa [hend, hold, hno, hflag, hnl, hlen] using hrec hopen

variable {sec key value content : Str}

theorem not_mem_lines (hnul : '\x00' ∉ content) : ∀ line ∈ lines content, '\x00' ∉ line := by
  intro line hline hmem
  apply hnul
  rw [← lines_flatten content]
  exact List.mem_flatten.mpr ⟨line, hline, hmem⟩

theorem recall_stored (hsec : sec ∈ canonicalSections) (h : Fitting key value) (hne : key ≠ [])
    (htidy : Tidy content) (hnul : '\x00' ∉ content) :
    recallFrom sec key false
        (lines (cstr (storeText sec key (bulletFor key value) content))) = some (clip value) := by
  have hspot : spotFrom sec key start false (lines content) = some .new :=
    spotFrom_tidy htidy fresh_sound rfl
  have hread := recall_written hsec h.key_clean h.colon hne h.key_fits h.value_clean
    (lines_lined content) (not_mem_lines hnul) (c := start) fresh_sound false
  rw [hspot, Option.map_some, Spot.value, bulletValue_clip h] at hread
  rw [storeText_eq]
  exact hread

theorem placed_short {sec : Str} {ls : List Str} (hls : ∀ line ∈ ls, Sound line) (r : Bool) :
    ∀ p ∈ placed sec r ls, p.2.length < 2048 := by
  induction ls generalizing r with
  | nil => exact fun p hp => absurd hp List.not_mem_nil
  | cons line rest ih =>
    intro p hp
    rcases List.mem_cons.mp hp with rfl | hp
    · exact (hls line List.mem_cons_self).short
    · exact ih (fun l hl => hls l (List.mem_cons_of_mem line hl)) _ p hp

theorem newLine_lines (h : Fitting key value) :
    lines (bulletFor key value ++ ['\n']) = [bulletFor key value ++ ['\n']] := by
  have hlines := lines_terminated (newLine_terminated h) []
  rwa [List.append_nil] at hlines

theorem recall_other (hsec : sec ∈ canonicalSections) (h : Fitting key value) (hne : key ≠ [])
    (htidy : Tidy content) {s' k' : Str} (hs' : s' ∈ canonicalSections)
    (hother : (s', k') ≠ (sec, key)) :
    recallFrom s' k' false (lines (storeText sec key (bulletFor key value) content)) =
      recallFrom s' k' false (lines content) := by
  have hplain : ∀ line ∈ lines (bulletFor key value ++ ['\n']), Plain key line := by
    rw [newLine_lines h]
    exact List.forall_mem_singleton.mpr (newLine_plain h)
  rw [storeText_eq]
  refine recall_emitAll hsec hs' hother hne hplain (bulletFor_head key value) (lines_lined _)
    fresh_sound (fun h => by cases h) (fun p hp _ => placed_short htidy false p hp) ?_
  intro line hline _ hnl
  obtain ⟨body, rfl, -⟩ := (htidy line (List.mem_of_mem_getLast? hline)).ended
  exact absurd (List.mem_append_right body (List.mem_singleton_self _)) hnl

/-- What is remembered, by section and key. -/
abbrev Facts := Str × Str → Option Str

/-- A file in order that holds just these facts. -/
structure Holds (facts : Facts) (content : Str) : Prop where
  tidy : Tidy content
  recalls : ∀ sec ∈ canonicalSections, ∀ key,
    recallFrom sec key false (lines content) = facts (sec, key)

theorem Holds.store {facts : Facts} (hholds : Holds facts content) (hnul : '\x00' ∉ content)
    (hsec : sec ∈ canonicalSections) (h : Fitting key value) (hne : key ≠ []) :
    Holds (Function.update facts (sec, key) (some (clip value)))
      (cstr (storeText sec key (bulletFor key value) content)) := by
  obtain ⟨htidy, hrecalls⟩ := hholds
  have hclean : '\x00' ∉ storeText sec key (bulletFor key value) content := by
    obtain ⟨-, -, hsecnul, -⟩ := canonical_shape sec hsec
    rw [storeText_eq]
    exact not_mem_emitAll hsecnul (not_mem_bulletFor h.key_clean.string h.value_clean.string)
      (not_mem_lines hnul) (fun p hp _ => placed_short htidy false p hp)
  have hrecall := recall_stored hsec h hne htidy hnul
  rw [cstr_eq_self hclean] at hrecall ⊢
  have hsound := List.forall_mem_singleton.mpr (newLine_sound h)
  refine ⟨storeText_tidy hsec (newLine_flatten _) hsound htidy, fun s' hs' k' => ?_⟩
  by_cases hsame : (s', k') = (sec, key)
  · obtain ⟨rfl, rfl⟩ := Prod.mk.inj hsame
    rw [Function.update_self, hrecall]
  · rw [Function.update_of_ne hsame, recall_other hsec h hne htidy hs' hsame, hrecalls s' hs' k']

/-- The facts of a file. -/
def factsOf (content : Str) : Facts := fun p => recallFrom p.1 p.2 false (lines content)

/-- The fact that the arguments of a store state: section and key, and the value. -/
def stated (args : Json) : Option ((Str × Str) × Str) :=
  match args.field "key".toList, args.field "value".toList with
  | some (c :: cs), some value => some ((canonicaliseSection (sectionOf args), c :: cs), value)
  | _, _ => none

/-- The directory has a file to migrate. -/
def Legacies (entries : List (Str × Outcome)) : Prop :=
  ∃ e ∈ entries, strEndsWith e.1 ".md".toList = true ∧ e.1 ≠ memoryFile

/-- What a call does to the facts. Other files than `MEMORY.md` go into the notes at a start,
where they may cover some; the other sections stay. -/
inductive Teaches : Facts → Call → Facts → Prop where
  | stored (fact : stated args = some (p, told)) (opens : f.opens = true)
      (renames : f.renames = true) :
      Teaches facts (.store args f) (Function.update facts p (some (clip told)))
  | refused (none : stated args = none) : Teaches facts (.store args f) facts
  | failed (fault : ¬ (f.opens = true ∧ f.renames = true)) : Teaches facts (.store args f) facts
  | recalls : Teaches facts (.recalls args) facts
  | search : Teaches facts (.search args) facts
  | started (none : ¬ Legacies entries) : Teaches facts (.start created entries) facts
  | migrated (some : Legacies entries) (others : ∀ p, p.1 ≠ notes → facts' p = facts p) :
      Teaches facts (.start created entries) facts'
  | others : Teaches facts (.others files) facts

/-- A file that is replaced was read, and all its bytes arrive. -/
def Whole (f : Faults) : Prop := f.opens = true → f.renames = true → f.readable = true ∧ f.lost = 0

/-- The lines that a migrated file makes up. -/
def notesLines (name text : Str) : List Str := lines (bulletFor name text ++ ['\n'])

/-- A file that is migrated makes up sound lines and opens no section of the memory, and the
memory fits its cap with it. -/
def Migratable (mem : Memory) (fs : Fs) (name : Str) (o : Outcome) : Prop :=
  ∀ got, Takes mem fs name o got → legacyPath mem.baseDir name ≠ mem.path ∧
    (readByLines got ≠ [] → '\x00' ∉ name ∧ Whole o.store ∧
      (∀ line ∈ notesLines name (readByLines got), Sound line ∧
        (isHeading (lineBuf line) = true → recallHeading (lineBuf line) ∉ canonicalSections)) ∧
      (storeText notes name (bulletFor name (readByLines got))
        (readMemoryFile fs mem)).length ≤ maxFileSize)

/-- A fact that is stored fits, and so does the file with it. What is replaced was read and
arrives whole. At a start each file can be migrated in its turn. -/
def Proper (mem : Memory) (fs : Fs) : Call → Prop
  | .store args f => Whole f ∧ ∀ p value, stated args = some (p, value) → Fitting p.2 value ∧
      (storeText p.1 p.2 (bulletFor p.2 value) (readMemoryFile fs mem)).length ≤ maxFileSize
  | .start created entries =>
    (fs mem.path = none → created.opens = true → created.lost = 0) ∧
      ∀ done name o rest, entries = done ++ (name, o) :: rest →
        Migratable mem (memoryCreateWith created fs mem.baseDir done).2 name o
  | .recalls _ | .search _ | .others _ => True

section Calls

variable (doubles : Doubles) (strerror baseDir : Str)

def Step (fs : Fs) (c : Call) (fs' : Fs) : Prop := fs' = after doubles strerror baseDir fs c

theorem migrate_none {mem : Memory} {entries : List (Str × Outcome)} (fs : Fs)
    (h : ¬ Legacies entries) : migrateLegacyFiles mem fs entries = fs := by
  induction entries with
  | nil => rfl
  | cons e rest ih =>
    have hskip : (!strEndsWith e.1 ".md".toList || e.1 == memoryFile) = true := by
      by_contra hlegacy
      exact h ⟨e, List.mem_cons_self, by simpa using hlegacy⟩
    rw [migrateLegacyFiles, List.foldl_cons, migrateEntry, if_pos hskip]
    apply ih
    intro hlater
    obtain ⟨e', he', hlegacy⟩ := hlater
    exact h ⟨e', List.mem_cons_of_mem e he', hlegacy⟩

theorem recall_no_bullets {ls : List Str} (h : ∀ line ∈ ls, isBullet (lineBuf line) = false)
    (sec key : Str) (r : Bool) : recallFrom sec key r ls = none := by
  induction ls generalizing r with
  | nil => rfl
  | cons line rest ih =>
    rw [recallFrom_cons, answers, h line List.mem_cons_self, Bool.and_false, Bool.false_and,
      if_neg Bool.false_ne_true]
    exact ih (fun l hl => h l (List.mem_cons_of_mem line hl)) _

/-- The first file has headings only, and fits. -/
theorem initialMemory_shape : (initialMemory.length ≤ maxFileSize ∧ '\x00' ∉ initialMemory) ∧
    ∀ line ∈ lines initialMemory, line.getLast? = some '\n' ∧ '\n' ∉ line.dropLast ∧
      line.length < 2048 ∧ isBullet (lineBuf line) = false ∧ (isHeading (lineBuf line) = true →
        storeHeading (lineBuf line) = recallHeading (lineBuf line)) := by
  decide +kernel

theorem read_initial {fs : Fs} {mem : Memory} (h : fs mem.path = some initialMemory) :
    readMemoryFile fs mem = initialMemory := by
  obtain ⟨⟨hlen, hnul⟩, -⟩ := initialMemory_shape
  exact readMemoryFile_written h hnul hlen

theorem holds_initial {facts : Facts} (h : Holds facts []) : Holds facts initialMemory := by
  obtain ⟨-, hshape⟩ := initialMemory_shape
  refine ⟨fun line hline => ?_, fun sec hsec key => ?_⟩
  · obtain ⟨hlast, hbody, hlen, -, hhead⟩ := hshape line hline
    exact ⟨⟨line.dropLast, (List.dropLast_append_getLast? _ hlast).symm, hbody⟩, hlen, hhead⟩
  · rw [recall_no_bullets fun line hline => (hshape line hline).2.2.2.1]
    exact h.recalls sec hsec key

/-- A start leaves the file alone or makes a first one. -/
theorem Holds.begin {facts : Facts} {fs : Fs} {created : Faults}
    (h : Holds facts (readMemoryFile fs (memoryAt baseDir)))
    (hcreated : fs (memoryAt baseDir).path = none → created.opens = true → created.lost = 0) :
    Holds facts (readMemoryFile (startMemory created fs baseDir) (memoryAt baseDir)) := by
  rw [startMemory]
  split
  · exact h
  · rename_i hmissing
    have hnone : fs (memoryAt baseDir).path = none := Option.not_isSome_iff_eq_none.mp hmissing
    rw [createInitialMemory]
    split
    · rename_i hopens
      have hfile : runWrites fs (overwrite (memoryAt baseDir).path (created.arrived initialMemory))
          (memoryAt baseDir).path = some initialMemory := by
        rw [run_overwrite, Faults.arrived_whole (hcreated hnone hopens)]
        exact Fs.write_self ..
      rw [readMemoryFile, hnone] at h
      rw [read_initial hfile]
      exact holds_initial h
    · exact h

theorem read_of_path {fs fs' : Fs} {mem : Memory} (h : fs' mem.path = fs mem.path) :
    readMemoryFile fs' mem = readMemoryFile fs mem := by
  rw [readMemoryFile, readMemoryFile, h]

theorem read_whole {f : Faults} (h : Whole f) (hopens : f.opens = true) (hrenames : f.renames = true)
    (fs : Fs) (mem : Memory) : readMemoryFileWith f fs mem = readMemoryFile fs mem := by
  rw [readMemoryFileWith, if_pos (h hopens hrenames).1]

theorem cstr_length (s : Str) : (cstr s).length ≤ s.length := (List.takeWhile_prefix _).length_le

theorem stated_key {args : Json} {p : Str × Str} {value : Str}
    (h : stated args = some (p, value)) : p.1 ∈ canonicalSections ∧ p.2 ≠ [] := by
  rw [stated] at h
  split at h
  · cases h
    exact ⟨canonicalise_mem _, List.cons_ne_nil _ _⟩
  · cases h

theorem toolMemoryStore_files (f : Faults) (fs : Fs) (mem : Memory) (args : Json) :
    (toolMemoryStore doubles strerror f fs mem args).2 =
      match stated args with
      | some (p, value) => runWrites fs (writeMemoryFile f mem
          (storeText p.1 p.2 (bulletFor p.2 value) (readMemoryFileWith f fs mem))).2
      | none => fs := by
  have hfiles : (toolMemoryStore doubles strerror f fs mem args).2 =
      runWrites fs (memoryStoreWith f fs mem (sectionOf args)
        ((args.field "key".toList).getD []) (args.field "value".toList)).2 := by
    rw [toolMemoryStore]
    dsimp only
    split <;> rfl
  rw [hfiles, stated]
  cases args.field "key".toList with
  | none => rfl
  | some key =>
    cases key with
    | nil => rfl
    | cons c cs => cases args.field "value".toList <;> rfl

/-- What a store makes of the file. -/
theorem Holds.call_store {facts : Facts} {fs : Fs} {args : Json} {f : Faults}
    (h : Holds facts (readMemoryFile fs (memoryAt baseDir)))
    (hproper : Proper (memoryAt baseDir) fs (.store args f)) :
    ∃ facts', Teaches facts (.store args f) facts' ∧ Holds facts'
      (readMemoryFile (after doubles strerror baseDir fs (.store args f)) (memoryAt baseDir)) := by
  obtain ⟨hwhole, hfact⟩ := hproper
  rw [after, toolMemoryStore_files]
  cases hstated : stated args with
  | none => exact ⟨facts, .refused hstated, h⟩
  | some fact =>
    obtain ⟨p, value⟩ := fact
    obtain ⟨hfits, hroom⟩ := hfact p value hstated
    obtain ⟨hsec, hkey⟩ := stated_key hstated
    have hpath := write_path f fs (memoryAt baseDir)
      (storeText p.1 p.2 (bulletFor p.2 value) (readMemoryFileWith f fs (memoryAt baseDir)))
    by_cases hin : f.opens = true ∧ f.renames = true
    · rw [if_pos hin, read_whole hwhole hin.1 hin.2,
        Faults.arrived_whole (hwhole hin.1 hin.2).2] at hpath
      refine ⟨_, .stored hstated hin.1 hin.2, ?_⟩
      have hstored := h.store (not_mem_readMemoryFile _ _) hsec hfits hkey
      dsimp only
      rw [read_whole hwhole hin.1 hin.2, readMemoryFile_replaced hpath,
        if_pos ((cstr_length _).trans hroom)]
      exact hstored
    · rw [if_neg hin] at hpath
      exact ⟨facts, .failed hin, (congrArg _ (read_of_path hpath)).mpr h⟩

/-- A file that is migrated leaves the facts of the other sections alone. -/
theorem Holds.migrate {facts : Facts} {content name text : Str} (h : Holds facts content)
    (hcontent : '\x00' ∉ content) (hname : '\x00' ∉ name) (htext : '\x00' ∉ text)
    (hnew : ∀ line ∈ notesLines name text, Sound line ∧
      (isHeading (lineBuf line) = true → recallHeading (lineBuf line) ∉ canonicalSections)) :
    ∃ facts', (∀ p, p.1 ≠ notes → facts' p = facts p) ∧
      Holds facts' (cstr (storeText notes name (bulletFor name text) content)) := by
  have hsec : notes ∈ canonicalSections := by decide
  have hflat : (notesLines name text).flatten = bulletFor name text ++ ['\n'] := lines_flatten _
  have hsound : ∀ line ∈ notesLines name text, Sound line := fun line hline => (hnew line hline).1
  have hclean : '\x00' ∉ storeText notes name (bulletFor name text) content := by
    rw [storeText_eq]
    exact not_mem_emitAll (by decide) (not_mem_bulletFor hname htext) (not_mem_lines hcontent)
      (fun p hp _ => placed_short h.tidy false p hp)
  rw [cstr_eq_self hclean]
  refine ⟨fun p => if p.1 = notes
    then factsOf (storeText notes name (bulletFor name text) content) p else facts p,
    fun p hp => if_neg hp, storeText_tidy hsec hflat hsound h.tidy, fun s' hs' k' => ?_⟩
  by_cases hsame : s' = notes
  · exact (if_pos hsame).symm
  · have hforeign : Foreign s' (notesLines name text) :=
      fun line hline hh heq => (hnew line hline).2 hh (heq ▸ hs')
    rw [lines_storeText hsec hflat hsound h.tidy,
      recall_elsewhere (c := start) hsec hs' hsame hforeign k' fresh_sound (fun h => by cases h),
      h.recalls s' hs' k']
    exact (if_neg hsame).symm

/-- What one entry of the directory makes of the file. -/
theorem Holds.entry {facts : Facts} {fs : Fs} {mem : Memory} {name : Str} {o : Outcome}
    (h : Holds facts (readMemoryFile fs mem)) (hok : Migratable mem fs name o) :
    ∃ facts', (∀ p, p.1 ≠ notes → facts' p = facts p) ∧
      Holds facts' (readMemoryFile (migrateEntry mem fs name o) mem) := by
  have hsame {fs' : Fs} (hpath : fs' mem.path = fs mem.path) : ∃ facts' : Facts,
      (∀ p, p.1 ≠ notes → facts' p = facts p) ∧ Holds facts' (readMemoryFile fs' mem) :=
    ⟨facts, fun _ _ => rfl, (congrArg _ (read_of_path hpath)).mpr h⟩
  by_cases htakes : ∃ got, Takes mem fs name o got
  · obtain ⟨got, htakes⟩ := htakes
    obtain ⟨hlegacy, hstore⟩ := hok got htakes
    have hentry : migrateEntry mem fs name o mem.path = stored mem fs name o got mem.path := by
      rw [migrateEntry_takes htakes]
      split
      · exact Fs.unlink_of_ne (Ne.symm hlegacy)
      · rfl
    by_cases htext : readByLines got = []
    · rw [stored_empty htext] at hentry
      exact hsame hentry
    · obtain ⟨hname, hwhole, hnew, hroom⟩ := hstore htext
      rw [stored_path htakes.name_ne htext] at hentry
      by_cases hin : o.store.opens = true ∧ o.store.renames = true
      · rw [if_pos hin, read_whole hwhole hin.1 hin.2,
          Faults.arrived_whole (hwhole hin.1 hin.2).2] at hentry
        rw [readMemoryFile_replaced hentry, if_pos ((cstr_length _).trans hroom)]
        exact h.migrate (not_mem_readMemoryFile _ _) hname (readByLines_not_mem got) hnew
      · rw [if_neg hin] at hentry
        exact hsame hentry
  · have hskip : migrateEntry mem fs name o = fs :=
      migrateEntry_skips fun got hgot => htakes ⟨got, hgot⟩
    exact hsame (congrFun hskip mem.path)

/-- What a start makes of the file. -/
theorem Holds.call_start {facts : Facts} {fs : Fs} {created : Faults}
    {entries : List (Str × Outcome)} (h : Holds facts (readMemoryFile fs (memoryAt baseDir)))
    (hproper : Proper (memoryAt baseDir) fs (.start created entries)) :
    ∃ facts', Teaches facts (.start created entries) facts' ∧ Holds facts'
      (readMemoryFile (memoryCreateWith created fs baseDir entries).2 (memoryAt baseDir)) := by
  obtain ⟨hcreated, hentries⟩ := hproper
  have hbegin := Holds.begin baseDir h hcreated
  by_cases hlegacies : Legacies entries
  · have hall : ∀ done rest, entries = done ++ rest → ∃ facts',
        (∀ p, p.1 ≠ notes → facts' p = facts p) ∧ Holds facts'
          (readMemoryFile (memoryCreateWith created fs baseDir done).2 (memoryAt baseDir)) := by
      intro done
      induction done using List.reverseRecOn with
      | nil => exact fun _ _ => ⟨facts, fun _ _ => rfl, hbegin⟩
      | append_singleton done e ih =>
        intro rest heq
        rw [List.append_assoc, List.singleton_append] at heq
        obtain ⟨before, hbefore, hholds⟩ := ih _ heq
        obtain ⟨facts', hothers, hafter⟩ := hholds.entry (hentries done e.1 e.2 rest heq)
        refine ⟨facts', fun p hp => (hothers p hp).trans (hbefore p hp), ?_⟩
        simpa [memoryCreateWith, migrateLegacyFiles] using hafter
    obtain ⟨facts', hothers, hholds⟩ := hall entries [] (List.append_nil _).symm
    exact ⟨facts', .migrated hlegacies hothers, hholds⟩
  · refine ⟨facts, .started hlegacies, ?_⟩
    change Holds facts (readMemoryFile (migrateLegacyFiles _ (startMemory created fs baseDir) entries) _)
    rw [migrate_none _ hlegacies]
    exact hbegin

/-- A run of calls makes of the file what it teaches. -/
theorem holds_run {facts : Facts} {fs fs' : Fs} {log : List Call}
    (hstart : Holds facts (readMemoryFile fs (memoryAt baseDir)))
    (hrun : Run (Guarded (Step doubles strerror baseDir) (Proper (memoryAt baseDir))) fs log fs') :
    ∃ facts', Run Teaches facts log facts' ∧
      Holds facts' (readMemoryFile fs' (memoryAt baseDir)) := by
  apply hrun.invariant_log (P := fun log fs => ∃ facts', Run Teaches facts log facts' ∧
    Holds facts' (readMemoryFile fs (memoryAt baseDir))) ⟨facts, .nil, hstart⟩
  intro es fs c fs' ⟨before, hbefore, h⟩ ⟨hproper, hstep⟩
  subst hstep
  cases c with
  | store args f =>
    obtain ⟨facts', hteach, hholds⟩ := Holds.call_store doubles strerror baseDir h hproper
    exact ⟨facts', hbefore.snoc hteach, hholds⟩
  | recalls args => exact ⟨before, hbefore.snoc .recalls, h⟩
  | search args => exact ⟨before, hbefore.snoc .search, h⟩
  | start created entries =>
    obtain ⟨facts', hteach, hholds⟩ := Holds.call_start baseDir h hproper
    exact ⟨facts', hbefore.snoc hteach, hholds⟩
  | others files =>
    have hsame : after doubles strerror baseDir fs (.others files) (memoryAt baseDir).path =
        fs (memoryAt baseDir).path := if_pos rfl
    exact ⟨before, hbefore.snoc .others, (congrArg _ (read_of_path hsame)).mpr h⟩

end Calls

/-- The line that a recall takes the value from. -/
theorem recall_line {sec key value : Str} {r : Bool} {ls : List Str}
    (h : recallFrom sec key r ls = some value) :
    ∃ line ∈ ls, isBullet (lineBuf line) = true ∧ bulletKey (lineBuf line) = some key ∧
      bulletValue (lineBuf line) = value := by
  induction ls generalizing r with
  | nil => cases h
  | cons line rest ih =>
    rw [recallFrom_cons] at h
    split at h
    · rename_i hans
      simp only [answers, Bool.and_eq_true, beq_iff_eq] at hans
      exact ⟨line, List.mem_cons_self, hans.1.2, hans.2, Option.some.inj h⟩
    · obtain ⟨l, hl, hspec⟩ := ih h
      exact ⟨l, List.mem_cons_of_mem line hl, hspec⟩

theorem bulletValue_within (linebuf : Str) : bulletValue linebuf <:+: linebuf := by
  have hdrop : (((linebuf.drop 2).dropWhile (fun c => c ≠ ':')).drop 1) <:+ linebuf :=
    ((List.drop_suffix _ _).trans (List.dropWhile_suffix _)).trans (List.drop_suffix _ _)
  have htrim : ∀ s : Str, strTrim s <:+: s := fun s =>
    (List.rdropWhile_prefix isSpace _).isInfix.trans (List.dropWhile_suffix isSpace).isInfix
  exact (htrim _).trans ((List.take_prefix _ _).isInfix.trans hdrop.isInfix)

theorem strcasestr_infix {s t query : Str} (h : strcasestr s query = true) (hst : s <:+: t) :
    strcasestr t query = true := by
  rw [strcasestr, strstr_isSome_iff] at h ⊢
  exact h.trans (hst.map toLower)

/-- The header of a search with matches. -/
def searchHeader (query : Str) : Str := "Results for \"".toList ++ query ++ "\":\n\n".toList

theorem not_mem_searchHeader {query : Str} (h : '\x00' ∉ query) : '\x00' ∉ searchHeader query := by
  have hfront : '\x00' ∉ "Results for \"".toList := by decide
  have hback : '\x00' ∉ "\":\n\n".toList := by decide
  intro hmem
  rcases List.mem_append.mp hmem with hmem | hmem
  · exact (List.mem_append.mp hmem).elim hfront h
  · exact hback hmem

/-- The lines that a search lists. -/
def listed (ls : List Str) : Str := ls.flatMap ("  ".toList ++ ·)

def matching (query : Str) (ls : List Str) : List Str :=
  ls.filter fun line => strcasestr (lineBuf line) query

theorem searchLine_eq (query : Str) (st : Str × Nat) {line : Str} (hlen : line.length < 2048) :
    searchLine query st line =
      if strcasestr (lineBuf line) query then
        (st.1 ++ (if st.2 = 0 then searchHeader query else []) ++ "  ".toList ++ line, st.2 + 1)
      else st := by
  have hcopy : copyLine line = line := by rw [copyLine, if_pos hlen]
  rw [searchLine, hcopy]
  rfl

theorem search_fold (query : Str) {ls : List Str} (hls : ∀ line ∈ ls, line.length < 2048)
    (text : Str) (n : Nat) :
    ls.foldl (searchLine query) (text, n) =
      (text ++ (if n = 0 ∧ matching query ls ≠ [] then searchHeader query else []) ++
        listed (matching query ls), n + (matching query ls).length) := by
  induction ls generalizing text n with
  | nil => simp [matching, listed]
  | cons line rest ih =>
    have hrec := ih (fun l hl => hls l (List.mem_cons_of_mem line hl))
    rw [List.foldl_cons, searchLine_eq query _ (hls line List.mem_cons_self), matching,
      List.filter_cons]
    by_cases hmatch : strcasestr (lineBuf line) query = true
    · rw [if_pos hmatch, if_pos hmatch, hrec, ← matching]
      by_cases hn : n = 0
      · simp [hn, listed, Nat.add_comm]
      · simp [hn, listed, Nat.add_assoc, Nat.add_comm 1]
    · rw [if_neg hmatch, if_neg hmatch, hrec, ← matching]

/-- What a search replies, where the lines fit the buffer. -/
theorem memorySearch_eq {fs : Fs} {mem : Memory} {query : Str} (hquery : '\x00' ∉ query)
    (hshort : ∀ line ∈ lines (readMemoryFile fs mem), line.length < 2048)
    (hsome : matching query (lines (readMemoryFile fs mem)) ≠ []) :
    memorySearch fs mem query =
      searchHeader query ++ listed (matching query (lines (readMemoryFile fs mem))) := by
  have hnul : ∀ line ∈ matching query (lines (readMemoryFile fs mem)), '\x00' ∉ line :=
    fun line hline => not_mem_line (List.mem_of_mem_filter hline)
  rw [memorySearch, search_fold query hshort]
  generalize matching query (lines (readMemoryFile fs mem)) = found at hsome hnul ⊢
  have hlen : 0 + found.length ≠ 0 := by
    rw [Nat.zero_add]
    exact fun h => hsome (List.eq_nil_of_length_eq_zero h)
  have hclean : '\x00' ∉ searchHeader query ++ listed found := by
    intro hmem
    rcases List.mem_append.mp hmem with hmem | hmem
    · exact not_mem_searchHeader hquery hmem
    · obtain ⟨line, hline, hc⟩ := List.mem_flatMap.mp hmem
      simp [hnul line hline] at hc
  rw [if_neg hlen, if_pos ⟨rfl, hsome⟩, List.nil_append, cstr_eq_self hclean]

theorem recalled_clean {fs : Fs} {mem : Memory} {category : Option Str} {key value : Str}
    (h : memoryRecall fs mem category key = some value) : '\x00' ∉ value := by
  obtain ⟨line, hline, -, -, rfl⟩ := recall_line h
  intro hmem
  exact not_mem_line hline (List.mem_of_mem_take ((bulletValue_within _).subset hmem))

theorem recallTree_plain {found : Option Str} (h : ∀ value ∈ found, '\x00' ∉ value) :
    Cjson.Plain (recallTree found) := by
  cases found with
  | none =>
    exact .object (List.forall_mem_singleton.mpr (by decide))
      (List.forall_mem_singleton.mpr (.string (by decide)))
  | some value =>
    have hname : '\x00' ∉ "value".toList := by decide
    exact .object (List.forall_mem_singleton.mpr hname)
      (List.forall_mem_singleton.mpr (.string (h value rfl)))

/-- The reply to a recall is read as what was recalled. -/
theorem reply_parses (doubles : Doubles) {found : Option Str}
    (h : ∀ value ∈ found, '\x00' ∉ value) :
    cJSONParse (Cjson.cJSONPrintUnformatted doubles (recallTree found)) = some (recallTree found) := by
  have hnested : JsonText.Nested Cjson.nestingLimit (recallTree found) := by
    cases found <;> exact List.forall_mem_singleton.mpr trivial
  have hparse := Cjson.print_parse doubles false hnested
  rwa [Cjson.normal_plain doubles (recallTree_plain h)] at hparse

section Replies

variable {doubles : Doubles} {strerror baseDir : Str} {fs fs' : Fs} {log : List Call}

/-- A fact of another section than the notes stays until another is stored in its place. -/
theorem Teaches.keeps {facts facts' : Facts} {c : Call} {p : Str × Str}
    (h : Teaches facts c facts') (hp : p.1 ≠ notes)
    (hc : ∀ args f told, c = .store args f → stated args ≠ some (p, told)) : facts' p = facts p := by
  cases h with
  | @stored _ q told _ _ fact opens renames =>
    have hne : p ≠ q := by
      rintro rfl
      exact hc _ _ told rfl fact
    exact Function.update_of_ne hne _ _
  | migrated some others => exact others p hp
  | _ => rfl

/-- What was stored last is remembered. -/
theorem learned_last {facts facts' : Facts} {before later : List Call} {args : Json} {f : Faults}
    {p : Str × Str} {told : Str} (hrun : Run Teaches facts (before ++ .store args f :: later) facts')
    (hstated : stated args = some (p, told)) (hopens : f.opens = true) (hrenames : f.renames = true)
    (hp : p.1 ≠ notes)
    (hlater : ∀ c ∈ later, ∀ args f told, c = .store args f → stated args ≠ some (p, told)) :
    facts' p = some (clip told) := by
  obtain ⟨s, -, hrest⟩ := hrun.split
  obtain ⟨t, hstore, hafter⟩ := hrest.uncons
  have ht : t p = some (clip told) := by
    cases hstore with
    | stored fact opens renames =>
      rw [hstated] at fact
      cases fact
      exact Function.update_self ..
    | refused none =>
      rw [hstated] at none
      cases none
    | failed fault => exact absurd ⟨hopens, hrenames⟩ fault
  clear hrun hrest
  induction hafter with
  | nil => exact ht
  | snoc run last ih =>
    have hsame := last.keeps hp (hlater _ (by simp))
    exact hsame.trans (ih fun c hc => hlater c (List.mem_append_left _ hc))

theorem facts_after_run (hstart : Tidy (readMemoryFile fs (memoryAt baseDir)))
    (hrun : Run (Guarded (Step doubles strerror baseDir) (Proper (memoryAt baseDir))) fs log fs') :
    ∃ facts, Run Teaches (factsOf (readMemoryFile fs (memoryAt baseDir))) log facts ∧
      Holds facts (readMemoryFile fs' (memoryAt baseDir)) :=
  holds_run doubles strerror baseDir ⟨hstart, fun _ _ _ => rfl⟩ hrun

/-- After any run of proper calls, the replies to recalls read as the values that were last
stored under their section and key, or as an error where there is none. -/
theorem recall_after_run (hstart : Tidy (readMemoryFile fs (memoryAt baseDir)))
    (hrun : Run (Guarded (Step doubles strerror baseDir) (Proper (memoryAt baseDir))) fs log fs') :
    ∃ facts, Run Teaches (factsOf (readMemoryFile fs (memoryAt baseDir))) log facts ∧
      ∀ args key, args.field "key".toList = some key → ∃ reply,
        toolMemoryRecall doubles fs' (memoryAt baseDir) args = some reply ∧
        cJSONParse reply =
          some (recallTree (facts (canonicaliseSection (sectionOf args), key))) := by
  obtain ⟨facts, hteach, hholds⟩ := facts_after_run hstart hrun
  refine ⟨facts, hteach, fun args key hkey => ?_⟩
  have hrecall : memoryRecall fs' (memoryAt baseDir) (sectionOf args) key = _ :=
    hholds.recalls _ (canonicalise_mem (sectionOf args)) key
  refine ⟨_, by rw [toolMemoryRecall, hkey, Option.map_some], ?_⟩
  rw [reply_parses doubles fun told htold => recalled_clean htold, hrecall]

/-- After any run of proper calls, a search for a part of a value that is recalled lists the
line that the recall takes it from. -/
theorem search_after_run (hstart : Tidy (readMemoryFile fs (memoryAt baseDir)))
    (hrun : Run (Guarded (Step doubles strerror baseDir) (Proper (memoryAt baseDir))) fs log fs')
    {category : Option Str} {key value : Str}
    (hrecall : memoryRecall fs' (memoryAt baseDir) category key = some value)
    {args : Json} {query : Str} (hquery : args.field "query".toList = some query)
    (hne : query ≠ []) (hnul : '\x00' ∉ query) (hpart : strcasestr value query = true) :
    ∃ line, bulletKey line = some key ∧ bulletValue line = value ∧
      "  ".toList ++ line <:+: toolMemorySearch fs' (memoryAt baseDir) args := by
  obtain ⟨facts, -, hholds⟩ := facts_after_run hstart hrun
  obtain ⟨line, hline, -, hkey, hvalue⟩ := recall_line hrecall
  have hbuf : lineBuf line = line :=
    List.take_of_length_le (Nat.le_of_lt_succ (hholds.tidy line hline).short)
  have hfound : line ∈ matching query (lines (readMemoryFile fs' (memoryAt baseDir))) := by
    refine List.mem_filter.mpr ⟨hline, ?_⟩
    exact strcasestr_infix (hvalue ▸ hpart) (bulletValue_within _)
  have hreply : toolMemorySearch fs' (memoryAt baseDir) args =
      memorySearch fs' (memoryAt baseDir) query := by
    obtain ⟨c, cs, rfl⟩ := List.exists_cons_of_ne_nil hne
    rw [toolMemorySearch, hquery]
  rw [hbuf] at hkey hvalue
  refine ⟨line, hkey, hvalue, ?_⟩
  rw [hreply, memorySearch_eq hnul (fun l hl => (hholds.tidy l hl).short) (List.ne_nil_of_mem hfound)]
  have hlisted : "  ".toList ++ line <:+:
      listed (matching query (lines (readMemoryFile fs' (memoryAt baseDir)))) :=
    List.infix_of_mem_flatten (List.mem_map_of_mem hfound)
  exact hlisted.trans (List.suffix_append _ _).isInfix

end Replies

def sampleFact : Json :=
  .object [("section".toList, .string "pref".toList), ("key".toList, .string "b".toList),
    ("value".toList, .string "2".toList), ("query".toList, .string "2".toList)]

def otherFact : Json :=
  .object [("section".toList, .string "user".toList), ("key".toList, .string "name".toList),
    ("value".toList, .string "Ada".toList)]

def historyText : Str :=
  "# History\n\n".toList ++ "## 2026-09-01\n\n".toList ++
    "### [System Event] Agent Starting\n".toList ++ "- Time: 9:00\n\n".toList

/-- The files when a process has logged its start and not made its memory yet. -/
def loggedFiles : Fs := fun p => if p = "m/HISTORY.md".toList then some historyText else none

def bootEntries : List (Str × Outcome) :=
  [("MEMORY.md".toList, .works), ("HISTORY.md".toList, .works)]

/-- Two starts, with two stores between them. -/
def sampleCalls : List Call :=
  [.others loggedFiles, .start .none bootEntries, .store sampleFact .none, .store otherFact .none,
    .others loggedFiles, .start .none bootEntries]

def sampleAfter (n : Nat) : Fs :=
  (sampleCalls.take n).foldl (after Cjson.noDoubles [] "m".toList) fun _ => none

theorem sampleFact_stated :
    stated sampleFact = some (("Preferences".toList, "b".toList), "2".toList) := by
  decide

theorem otherFact_stated :
    stated otherFact = some (("User Information".toList, "name".toList), "Ada".toList) := by
  decide

theorem sampleFact_fitting : Fitting "b".toList "2".toList :=
  ⟨⟨by decide, by decide, by decide, by decide⟩, by decide, by decide,
    ⟨by decide, by decide, by decide, by decide⟩, by decide⟩

theorem otherFact_fitting : Fitting "name".toList "Ada".toList :=
  ⟨⟨by decide, by decide, by decide, by decide⟩, by decide, by decide,
    ⟨by decide, by decide, by decide, by decide⟩, by decide⟩

theorem history_shape : ∀ line ∈ notesLines "HISTORY.md".toList (readByLines historyText),
    (line.getLast? = some '\n' ∧ '\n' ∉ line.dropLast ∧ line.length < 2048) ∧
      (isHeading (lineBuf line) = true → storeHeading (lineBuf line) = recallHeading (lineBuf line) ∧
        recallHeading (lineBuf line) ∉ canonicalSections) := by
  decide +kernel

/-- A start that finds the log of its own process. -/
theorem boot_proper {fs : Fs} (hfile : fs "m/HISTORY.md".toList = some historyText)
    (hroom : (storeText notes "HISTORY.md".toList
        (bulletFor "HISTORY.md".toList (readByLines historyText))
        (readMemoryFile (startMemory .none fs "m".toList) (memoryAt "m".toList))).length ≤
      maxFileSize) :
    Proper (memoryAt "m".toList) fs (.start .none bootEntries) := by
  refine ⟨fun _ _ => rfl, fun done name o rest heq got htakes => ?_⟩
  match done with
  | [] =>
    cases heq
    exact absurd rfl htakes.2.1
  | [e] =>
    cases heq
    have hstart : (memoryCreateWith .none fs "m".toList [("MEMORY.md".toList, .works)]).2 =
        startMemory .none fs "m".toList := by
      change migrateEntry (memoryAt "m".toList) (startMemory .none fs "m".toList)
        "MEMORY.md".toList .works = _
      rw [migrateEntry]
      exact if_pos (by decide)
    have hsame : startMemory .none fs "m".toList "m/HISTORY.md".toList = some historyText := by
      rw [startMemory]
      split
      · exact hfile
      · have hopens : Faults.none.opens = true := rfl
        rw [createInitialMemory, if_pos hopens, run_overwrite]
        exact (Fs.write_of_ne (by decide) _).trans hfile
    obtain ⟨-, -, -, hgot⟩ := htakes
    change (memoryCreateWith .none fs "m".toList [("MEMORY.md".toList, .works)]).2
      "m/HISTORY.md".toList = some got at hgot
    rw [hstart, hsame] at hgot
    cases hgot
    refine ⟨by decide, fun _ => ⟨by decide, fun _ _ => ⟨rfl, rfl⟩, fun line hline => ?_, ?_⟩⟩
    · obtain ⟨⟨hlast, hbody, hlen⟩, hhead⟩ := history_shape line hline
      have hended : Terminated line :=
        ⟨line.dropLast, (List.dropLast_append_getLast? _ hlast).symm, hbody⟩
      exact ⟨⟨hended, hlen, fun hh => (hhead hh).1⟩, fun hh => (hhead hh).2⟩
    · change (storeText _ _ _ (readMemoryFile
        (memoryCreateWith .none fs "m".toList [("MEMORY.md".toList, .works)]).2 _)).length ≤ _
      rw [hstart]
      exact hroom
  | [_, _] => cases heq
  | _ :: _ :: _ :: _ => cases heq

theorem store_proper {fs : Fs} {args : Json} {sec key told : Str}
    (hstated : stated args = some ((sec, key), told)) (hfits : Fitting key told)
    (hroom : (storeText sec key (bulletFor key told)
      (readMemoryFile fs (memoryAt "m".toList))).length ≤ maxFileSize) :
    Proper (memoryAt "m".toList) fs (.store args .none) := by
  refine ⟨fun _ _ => ⟨rfl, rfl⟩, fun p told' h => ?_⟩
  rw [hstated] at h
  cases h
  exact ⟨hfits, hroom⟩

/-- The first start on an empty directory, two stores and another start. -/
theorem sample_run :
    Run (Guarded (Step Cjson.noDoubles [] "m".toList) (Proper (memoryAt "m".toList)))
      (fun _ => none) sampleCalls (sampleAfter 6) := by
  have hboot : Proper (memoryAt "m".toList) (sampleAfter 1) (.start .none bootEntries) :=
    boot_proper rfl (by decide +kernel)
  have hfirst : Proper (memoryAt "m".toList) (sampleAfter 2) (.store sampleFact .none) :=
    store_proper sampleFact_stated sampleFact_fitting (by decide +kernel)
  have hsecond : Proper (memoryAt "m".toList) (sampleAfter 3) (.store otherFact .none) :=
    store_proper otherFact_stated otherFact_fitting (by decide +kernel)
  have hagain : Proper (memoryAt "m".toList) (sampleAfter 5) (.start .none bootEntries) :=
    boot_proper rfl (by decide +kernel)
  have hboth : Run (Guarded (Step Cjson.noDoubles [] "m".toList) (Proper (memoryAt "m".toList)))
      (sampleAfter 2) [.store sampleFact .none, .store otherFact .none] (sampleAfter 4) :=
    .cons ⟨hfirst, rfl⟩ (.single ⟨hsecond, rfl⟩)
  have hrest : Run (Guarded (Step Cjson.noDoubles [] "m".toList) (Proper (memoryAt "m".toList)))
      (sampleAfter 4) [.others loggedFiles, .start .none bootEntries] (sampleAfter 6) :=
    .cons (t := sampleAfter 5) ⟨trivial, rfl⟩ (.single ⟨hagain, rfl⟩)
  exact .cons (t := sampleAfter 1) ⟨trivial, rfl⟩ (.cons ⟨hboot, rfl⟩ (hboth.append hrest))

theorem empty_tidy : Tidy (readMemoryFile (fun _ => none) (memoryAt "m".toList)) :=
  fun _ h => absurd h List.not_mem_nil

theorem recall_after_restart : ∃ reply,
    toolMemoryRecall Cjson.noDoubles (sampleAfter 6) (memoryAt "m".toList) sampleFact = some reply ∧
    cJSONParse reply = some (.object [("value".toList, .string "2".toList)]) := by
  have hkey : sampleFact.field "key".toList = some "b".toList := by decide
  have hsec : canonicaliseSection (sectionOf sampleFact) = "Preferences".toList := by decide
  obtain ⟨facts, hteach, hreplies⟩ := recall_after_run empty_tidy sample_run
  obtain ⟨reply, hreply, hparse⟩ := hreplies sampleFact _ hkey
  have hlater : ∀ c ∈ [Call.store otherFact .none, .others loggedFiles, .start .none bootEntries],
      ∀ args f told, c = .store args f →
        stated args ≠ some (("Preferences".toList, "b".toList), told) := by
    intro c hc args f told heq
    simp only [List.mem_cons, List.not_mem_nil, or_false] at hc
    rcases hc with rfl | rfl | rfl <;> cases heq
    intro h
    rw [otherFact_stated] at h
    have hplace : ("User Information".toList, "name".toList) = ("Preferences".toList, "b".toList) :=
      congrArg Prod.fst (Option.some.inj h)
    exact absurd hplace (by decide)
  change Run Teaches _ ([.others loggedFiles, .start .none bootEntries] ++
    .store sampleFact .none :: [.store otherFact .none, .others loggedFiles, .start .none bootEntries])
    facts at hteach
  have hfact := learned_last hteach
    sampleFact_stated rfl rfl (by decide) hlater
  rw [hsec, hfact] at hparse
  exact ⟨reply, hreply, hparse⟩

theorem search_after_restart : ∃ line, bulletKey line = some "b".toList ∧
    bulletValue line = "2".toList ∧
    "  ".toList ++ line <:+: toolMemorySearch (sampleAfter 6) (memoryAt "m".toList) sampleFact :=
  have hquery : sampleFact.field "query".toList = some "2".toList := by decide
  have hrecall : memoryRecall (sampleAfter 6) (memoryAt "m".toList) (some "pref".toList)
      "b".toList = some "2".toList := by decide +kernel
  search_after_run empty_tidy sample_run hrecall hquery (by decide) (by decide) (by decide)

end Dobby.MdMemory
