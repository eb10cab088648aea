import Dobby.Base.Search
import Dobby.Proofs.HistoryAppend
import Dobby.Proofs.MemoryRoundTrip

namespace Dobby.MdMemory
open CString Lines

/-- The section that the content of a migrated file goes to. -/
def notes : Str := "Important Notes".toList

/-- Whether the nearest heading above is that of the notes. -/
def inNotes (before : List Str) : Bool :=
  before.foldl (fun here line => if isHeading (lineBuf line) then isTarget notes line else here) false

/-- The line is an old bullet of the key, and the new one is written over it. -/
def Replaced (key : Str) (before : List Str) (line : Str) : Prop :=
  inNotes before = true ∧ isFact key line = true

/-- A line of the notes, or the heading behind them, where a bullet of the key can go. -/
def Place (key : Str) (before : List Str) (line : Str) : Prop :=
  inNotes before = true ∧ (isHeading (lineBuf line) = true ∨ isFact key line = true)

/-- The line is the heading that the new bullet is put in front of. -/
def Follows (key : Str) (before : List Str) (line : Str) : Prop :=
  inNotes before = true ∧ isHeading (lineBuf line) = true ∧
    ∀ b l b', before = b ++ l :: b' → ¬ Place key b l

/-- No line is too long to be copied. -/
def Copied (key : Str) (ls : List Str) : Prop :=
  ∀ b l b', ls = b ++ l :: b' → Replaced key b l ∨ l.length < 2048

/-- Some lines that have these bytes in them stay as they are, one behind the other. -/
def Spared (key : Str) (ls : List Str) (bytes : Str) : Prop :=
  ∃ before line others after, ls = before ++ line :: (others ++ after) ∧
    bytes <:+: (line :: others).flatten ∧ Copied key (before ++ line :: others) ∧
    ¬ Replaced key before line ∧
    ∀ b l b', others = b ++ l :: b' →
      ¬ Replaced key (before ++ line :: b) l ∧ ¬ Follows key (before ++ line :: b) l

/-- The new bullet has a place, or the end of the file, that the lines ahead of it let it come to. -/
def Reached (key : Str) (ls : List Str) : Prop :=
  ∃ before after, ls = before ++ after ∧ Copied key before ∧ ∀ line ∈ after.head?, Place key before line

/-- The content of the file fits the buffer of the bullet. -/
def Fits (name bytes : Str) : Prop := '\x00' ∉ bytes ∧ name.length + bytes.length + 4 < 2048

/-- The files to migrate, by path. -/
def Legacy (baseDir p : Str) : Prop :=
  ∃ name, strEndsWith name ".md".toList = true ∧ name ≠ memoryFile ∧ p = baseDir ++ '/' :: name

/-- The entry is migrated, and these are the bytes of its file. -/
def Takes (mem : Memory) (fs : Fs) (name : Str) (o : Outcome) (got : Str) : Prop :=
  strEndsWith name ".md".toList = true ∧ name ≠ memoryFile ∧ o.opened = true ∧
    fs (legacyPath mem.baseDir name) = some got

theorem Takes.name_ne {mem : Memory} {fs : Fs} {name : Str} {o : Outcome} {got : Str}
    (h : Takes mem fs name o got) : name ≠ [] := by
  rintro rfl
  exact absurd h.1 (by decide)

/-- An entry of the directory, and how the file operations on it turn out. -/
structure Entry where
  name : Str
  isName : '\x00' ∉ name
  outcome : Outcome

/-- `memory_create` over these entries. -/
def createdWith (created : Faults) (fs : Fs) (baseDir : Str) (entries : List Entry) : Fs :=
  (memoryCreateWith created fs baseDir (entries.map fun e => (e.name, e.outcome))).2

/-- Every file that was to be migrated is still there, or its content is in `MEMORY.md`. -/
def Preserved (mem : Memory) (first fs : Fs) : Prop :=
  ∀ p bytes, Legacy mem.baseDir p → first p = some bytes →
    fs p = some bytes ∨ bytes <:+: (fs mem.path).getD []

/-- The entry's file is unlinked. -/
def Drops (mem : Memory) (e : Entry) (p : Str) : Prop :=
  e.outcome.unlinked = true ∧ legacyPath mem.baseDir e.name = p

/-- The entry is stored: the file is replaced. -/
def Stores (e : Entry) (got : Str) : Prop :=
  e.outcome.store.opens = true ∧ e.outcome.store.renames = true ∧ readByLines got ≠ []

/-- For each content whose file is gone or goes with this entry: a store brings all its
bytes to the disk and leaves the content alone or takes it whole, and no file goes without a
store whose content is not in `MEMORY.md`. -/
def Safe (mem : Memory) (first fs : Fs) (e : Entry) : Prop :=
  let ls := lines (readMemoryFileWith e.outcome.store fs mem)
  ∀ got p bytes, Takes mem fs e.name e.outcome got → Legacy mem.baseDir p → first p = some bytes → bytes ≠ [] →
    (fs p ≠ some bytes ∨ Drops mem e p) → ¬ Drops mem e mem.path ∧
      (Stores e got → e.outcome.store.lost = 0 ∧
        (Spared e.name ls bytes ∨ got = bytes ∧ Fits e.name bytes ∧ Reached e.name ls)) ∧
      (¬ Stores e got → Drops mem e p → bytes <:+: (fs mem.path).getD [])

section Cursor
variable {key bullet : Str}

def cursorAt (key : Str) (before : List Str) : Cursor := before.foldl (advance notes key) start

theorem cursorAt_concat (key : Str) (before : List Str) (line : Str) :
    cursorAt key (before ++ [line]) = advance notes key (cursorAt key before) line :=
  List.foldl_concat ..

theorem cursorAt_inTarget (key : Str) (before : List Str) :
    (cursorAt key before).inTarget = inNotes before := by
  induction before using List.reverseRecOn with
  | nil => rfl
  | append_singleton before line ih =>
    rw [cursorAt_concat, advance_inTarget, ih]
    unfold inNotes
    rw [List.foldl_concat]

theorem advance_written (key : Str) (c : Cursor) (line : Str) : (advance notes key c line).keyWritten =
    (c.keyWritten || c.inTarget && (isHeading (lineBuf line) || isFact key line)) := by
  cases hh : isHeading (lineBuf line) with
  | true => rw [advance_heading notes key c hh, Bool.true_or, Bool.and_true]
  | false => rw [advance_body notes key c hh, Bool.false_or]

/-- The key is written once the loop has come by a place. -/
theorem cursorAt_written (key : Str) (before : List Str) : (cursorAt key before).keyWritten = true ↔
    ∃ b l b', before = b ++ l :: b' ∧ Place key b l := by
  induction before using List.reverseRecOn with
  | nil =>
    refine iff_of_false Bool.false_ne_true ?_
    intro h
    obtain ⟨b, l, b', heq, -⟩ := h
    simp at heq
  | append_singleton before line ih =>
    rw [cursorAt_concat, advance_written, cursorAt_inTarget, Bool.or_eq_true, ih, Bool.and_eq_true,
      Bool.or_eq_true]
    constructor
    · intro h
      rcases h with h | h
      · obtain ⟨b, l, b', rfl, hplace⟩ := h
        exact ⟨b, l, b' ++ [line], by simp, hplace⟩
      · exact ⟨before, line, [], rfl, h⟩
    · intro h
      obtain ⟨b, l, b', heq, hplace⟩ := h
      rcases List.eq_nil_or_concat b' with rfl | ⟨b'', x, rfl⟩
      · obtain ⟨rfl, hline⟩ := List.append_inj' heq rfl
        obtain rfl : line = l := by simpa using hline
        exact .inr hplace
      · rw [List.concat_eq_append, ← List.cons_append, ← List.append_assoc] at heq
        obtain ⟨rfl, -⟩ := List.append_inj' heq rfl
        exact .inl ⟨b, l, b'', rfl, hplace⟩

theorem ends_iff (key : Str) (before : List Str) (line : Str) :
    endsSection (cursorAt key before) (lineBuf line) = true ↔ Follows key before line := by
  have hwritten : (cursorAt key before).keyWritten = false ↔
      ∀ b l b', before = b ++ l :: b' → ¬ Place key b l := by
    rw [← Bool.not_eq_true, cursorAt_written]
    exact ⟨fun h b l b' heq hplace => h ⟨b, l, b', heq, hplace⟩,
      fun h ⟨b, l, b', heq, hplace⟩ => h b l b' heq hplace⟩
  rw [endsSection, cursorAt_inTarget, Bool.and_eq_true, Bool.and_eq_true, Bool.not_eq_true', hwritten,
    Follows, and_assoc]
  tauto

theorem replaces_iff (key : Str) (before : List Str) (line : Str) :
    replaces key (atHeading notes (cursorAt key before) (lineBuf line)) (lineBuf line) = true ↔
      Replaced key before line := by
  rw [replaces_eq, isOld, advance_inTarget, Bool.and_eq_true, Replaced, cursorAt_inTarget]
  split
  · rename_i hh
    have hno : isFact key line = false := by
      rw [isFact, not_isBullet_of_isHeading hh, Bool.false_and]
    simp only [hno, Bool.false_eq_true, and_false]
  · rfl

/-- The new text of some lines. -/
def front (key bullet : Str) : List Str → List Str → Str
  | _, [] => []
  | before, line :: rest =>
    emit notes key bullet (cursorAt key before) line ++ front key bullet (before ++ [line]) rest

theorem front_append (key bullet : Str) (before xs ys : List Str) :
    front key bullet before (xs ++ ys) =
      front key bullet before xs ++ front key bullet (before ++ xs) ys := by
  induction xs generalizing before with
  | nil => rw [List.nil_append, List.append_nil, front, List.nil_append]
  | cons x xs ih =>
    rw [List.cons_append, front, front, ih, List.append_assoc, List.append_assoc, List.singleton_append]

theorem emitAll_front (key bullet : Str) (before ls rest : List Str) :
    emitAll notes key bullet (cursorAt key before) (ls ++ rest) =
      front key bullet before ls ++ emitAll notes key bullet (cursorAt key (before ++ ls)) rest := by
  induction ls generalizing before with
  | nil => rw [List.append_nil, List.nil_append, front, List.nil_append]
  | cons line ls ih =>
    rw [List.cons_append, emitAll, ← cursorAt_concat, ih, front, List.append_assoc, List.append_assoc]
    rfl

/-- At the first place the bullet comes first. -/
theorem emit_place {before : List Str} {line : Str} (hplace : Place key before line)
    (hfirst : (cursorAt key before).keyWritten = false) :
    bullet <+: emit notes key bullet (cursorAt key before) line := by
  rw [emit]
  obtain ⟨hin, hhead | hfact⟩ := hplace
  · have hends : endsSection (cursorAt key before) (lineBuf line) = true := by
      rw [endsSection, hhead, cursorAt_inTarget, hin, hfirst]
      rfl
    rw [if_pos hends, List.append_assoc]
    exact List.prefix_append _ _
  · rw [if_pos ((replaces_iff key before line).mpr ⟨hin, hfact⟩)]
    split
    · rw [List.append_assoc]
      exact List.prefix_append _ _
    · exact List.prefix_append _ _

theorem emit_copied {before : List Str} {line : Str} (h : ¬ Replaced key before line) :
    emit notes key bullet (cursorAt key before) line =
      (if endsSection (cursorAt key before) (lineBuf line) then bullet ++ ['\n'] else []) ++ copyLine line := by
  rw [emit, if_neg (mt (replaces_iff key before line).mp h)]

theorem not_mem_emit (hbullet : '\x00' ∉ bullet) {before : List Str} {line : Str} (hline : '\x00' ∉ line)
    (h : Replaced key before line ∨ line.length < 2048) :
    '\x00' ∉ emit notes key bullet (cursorAt key before) line := by
  have hnew : '\x00' ∉ bullet ++ ['\n'] := by simp [hbullet]
  rw [emit, List.mem_append, not_or]
  constructor
  · split
    · exact hnew
    · exact List.not_mem_nil
  · split
    · exact hnew
    · rename_i hkeep
      have hshort := h.resolve_left (mt (replaces_iff key before line).mpr hkeep)
      rw [copyLine, if_pos hshort]
      exact hline

theorem not_mem_front (hbullet : '\x00' ∉ bullet) {before ls : List Str} (hls : ∀ line ∈ ls, '\x00' ∉ line)
    (h : ∀ b l b', ls = b ++ l :: b' → Replaced key (before ++ b) l ∨ l.length < 2048) :
    '\x00' ∉ front key bullet before ls := by
  induction ls generalizing before with
  | nil => exact List.not_mem_nil
  | cons line ls ih =>
    have hfirst := h [] line ls rfl
    rw [List.append_nil] at hfirst
    rw [front, List.mem_append, not_or]
    refine ⟨not_mem_emit hbullet (hls line List.mem_cons_self) hfirst,
      ih (fun l hl => hls l (List.mem_cons_of_mem line hl)) ?_⟩
    intro b l b' heq
    have hline := h (line :: b) l b' (by rw [heq, List.cons_append])
    rwa [List.append_cons] at hline

/-- Lines that stay as they are. -/
theorem front_spared {before ls : List Str} (hshort : ∀ line ∈ ls, line.length < 2048)
    (h : ∀ b l b', ls = b ++ l :: b' → ¬ Replaced key (before ++ b) l ∧ ¬ Follows key (before ++ b) l) :
    front key bullet before ls = ls.flatten := by
  induction ls generalizing before with
  | nil => rfl
  | cons line ls ih =>
    obtain ⟨hkeep, hinside⟩ := h [] line ls rfl
    rw [List.append_nil] at hkeep hinside
    have hrest : front key bullet (before ++ [line]) ls = ls.flatten := by
      apply ih (fun l hl => hshort l (List.mem_cons_of_mem line hl))
      intro b l b' heq
      have hline := h (line :: b) l b' (by rw [heq, List.cons_append])
      rwa [List.append_cons] at hline
    rw [front, hrest, emit_copied hkeep, if_neg (mt (ends_iff key before line).mp hinside), List.nil_append,
      copyLine, if_pos (hshort line List.mem_cons_self), List.flatten_cons]

/-- Lines that a store leaves alone are in the new text. -/
theorem spared_written (hbullet : '\x00' ∉ bullet) {ls : List Str} (hls : ∀ line ∈ ls, '\x00' ∉ line)
    {bytes : Str} (h : Spared key ls bytes) : bytes <:+: cstr (emitAll notes key bullet start ls) := by
  obtain ⟨before, line, others, after, rfl, hin, hcopied, hkeep, hothers⟩ := h
  have hshort : ∀ l ∈ others, l.length < 2048 := by
    intro l hl
    obtain ⟨b, b', rfl⟩ := List.append_of_mem hl
    have hline := hcopied (before ++ line :: b) l b' (by simp)
    exact hline.resolve_left (hothers b l b' rfl).1
  have hfirst : line.length < 2048 := (hcopied before line others rfl).resolve_left hkeep
  have hfront : '\x00' ∉ front key bullet [] (before ++ line :: others) := by
    apply not_mem_front hbullet
    · intro l hl
      apply hls
      rw [← List.cons_append, ← List.append_assoc]
      exact List.mem_append_left _ hl
    · intro b l b' heq
      exact hcopied b l b' heq
  have hkept : front key bullet before (line :: others) =
      (if endsSection (cursorAt key before) (lineBuf line) then bullet ++ ['\n'] else []) ++
        (line :: others).flatten := by
    have hrest : front key bullet (before ++ [line]) others = others.flatten := by
      apply front_spared hshort
      intro b l b' heq
      rw [List.append_assoc, List.singleton_append]
      exact hothers b l b' heq
    rw [front, hrest, emit_copied hkeep, copyLine, if_pos hfirst, List.flatten_cons, List.append_assoc]
  have htext := emitAll_front key bullet [] (before ++ line :: others) after
  rw [List.append_assoc, List.cons_append] at htext
  change emitAll notes key bullet start _ = _ at htext
  rw [htext, cstr_append hfront, front_append, List.nil_append, hkept]
  refine List.IsInfix.trans hin (List.IsInfix.trans ?_ (List.prefix_append _ _).isInfix)
  exact (List.suffix_append _ _).isInfix.trans (List.suffix_append _ _).isInfix

theorem written_front {before : List Str} (h : (cursorAt key before).keyWritten = true) :
    bullet <:+: front key bullet [] before := by
  induction before using List.reverseRecOn with
  | nil => cases h
  | append_singleton before line ih =>
    rw [front_append, List.nil_append, front, front, List.append_nil]
    cases hw : (cursorAt key before).keyWritten with
    | true => exact (ih hw).trans (List.prefix_append _ _).isInfix
    | false =>
      rw [cursorAt_concat, advance_written, hw, Bool.false_or, Bool.and_eq_true, Bool.or_eq_true,
        cursorAt_inTarget] at h
      exact (emit_place h hw).isInfix.trans (List.suffix_append _ _).isInfix

/-- The bullet gets into the new text if the lines ahead of its place do. -/
theorem reached_written (hbullet : '\x00' ∉ bullet) {ls : List Str} (hls : ∀ line ∈ ls, '\x00' ∉ line)
    (h : Reached key ls) : bullet <:+: cstr (emitAll notes key bullet start ls) := by
  obtain ⟨before, after, rfl, hcopied, hafter⟩ := h
  have hfront : '\x00' ∉ front key bullet [] before :=
    not_mem_front hbullet (fun l hl => hls l (List.mem_append_left _ hl)) hcopied
  have htext := emitAll_front key bullet [] before after
  change emitAll notes key bullet start _ = _ at htext
  rw [htext, cstr_append hfront]
  cases hw : (cursorAt key before).keyWritten with
  | true => exact (written_front hw).trans (List.prefix_append _ _).isInfix
  | false =>
    obtain ⟨pre, hpre, hlast⟩ : ∃ pre, '\x00' ∉ pre ∧
        pre ++ bullet <+: emitAll notes key bullet (cursorAt key before) after := by
      cases after with
      | nil =>
        rw [emitAll, storeTail, hw, if_neg Bool.false_ne_true]
        split
        · exact ⟨[], List.not_mem_nil, List.prefix_append _ _⟩
        · refine ⟨'\n' :: "## ".toList ++ notes ++ ['\n', '\n'], by decide, ?_⟩
          exact List.prefix_append _ _
      | cons line rest =>
        refine ⟨[], List.not_mem_nil, ?_⟩
        rw [emitAll]
        exact (emit_place (hafter line rfl) hw).trans (List.prefix_append _ _)
    obtain ⟨rest, hrest⟩ := hlast
    have hnew : '\x00' ∉ pre ++ bullet := by
      rw [List.mem_append, not_or]
      exact ⟨hpre, hbullet⟩
    rw [List.nil_append, ← hrest, cstr_append hnew]
    refine List.IsInfix.trans ?_ (List.suffix_append _ _).isInfix
    exact (List.suffix_append _ _).isInfix.trans (List.prefix_append _ _).isInfix

end Cursor

theorem readByLines_not_mem (got : Str) : '\x00' ∉ readByLines got := by
  intro h
  obtain ⟨piece, -, hmem⟩ := List.mem_flatMap.mp h
  exact not_mem_cstr piece hmem

theorem readByLines_self {bytes : Str} (h : '\x00' ∉ bytes) : readByLines bytes = bytes := by
  have hflat : (fgetsAll 1024 bytes).flatten = bytes := fgetsFrom_flatten 1024 [] bytes
  have hpieces : ∀ piece ∈ fgetsAll 1024 bytes, cstr piece = piece := by
    intro piece hpiece
    apply cstr_eq_self
    intro hmem
    apply h
    rw [← hflat]
    exact List.mem_flatten_of_mem hpiece hmem
  rw [readByLines, List.flatMap_def, List.map_congr_left hpieces, List.map_id', hflat]

theorem bulletFor_fits {name bytes : Str} (h : Fits name bytes) : bytes <:+: bulletFor name bytes := by
  have hlen : ("- ".toList ++ name ++ ": ".toList ++ bytes).length < 2048 := by
    have hdash : "- ".toList.length = 2 := rfl
    have hcolon : ": ".toList.length = 2 := rfl
    have hfits := h.2
    simp only [List.length_append, hdash, hcolon]
    omega
  rw [bulletFor, snprintf_fits hlen]
  exact (List.suffix_append _ _).isInfix

section Files
variable {baseDir p : Str}

theorem legacy_ne_path (h : Legacy baseDir p) : p ≠ (memoryAt baseDir).path := by
  obtain ⟨name, hext, hne, rfl⟩ := h
  intro heq
  have hcut : baseDir ++ '/' :: name <+: baseDir ++ '/' :: memoryFile := by
    rw [heq]
    exact List.take_prefix _ _
  have hname : name <+: memoryFile := by
    obtain ⟨rest, hrest⟩ := hcut
    rw [List.append_assoc, List.cons_append] at hrest
    exact ⟨rest, (List.cons.inj (List.append_cancel_left hrest)).2⟩
  have hparts : ∀ n < 9, strEndsWith (memoryFile.take n) ".md".toList = false := by decide
  have hlen : name.length < 9 := by
    refine lt_of_le_of_ne hname.length_le ?_
    exact fun hl => hne (hname.eq_of_length hl)
  have hshort := hparts name.length hlen
  rw [← List.prefix_iff_eq_take.mp hname, hext] at hshort
  cases hshort

theorem legacy_ne_tmp (h : Legacy baseDir p) : p ≠ tmpPath (memoryAt baseDir) := by
  obtain ⟨name, hext, -, rfl⟩ := h
  obtain ⟨front, rfl⟩ := List.isSuffixOf_iff_suffix.mp hext
  intro heq
  have hlast := congrArg List.getLast? heq
  rw [tmpPath_eq, ← List.cons_append, ← List.append_assoc] at hlast
  simp only [List.getLast?_append] at hlast
  change some 'd' = some 'p' at hlast
  exact absurd hlast (by decide)

end Files

section Entries
variable {mem : Memory} {fs : Fs} {name : Str} {o : Outcome} {got : Str}

/-- The files once the content of an entry is stored. -/
def stored (mem : Memory) (fs : Fs) (name : Str) (o : Outcome) (got : Str) : Fs :=
  runWrites fs (if (readByLines got).length = 0 then []
    else (memoryStoreWith o.store fs mem (some "Important Notes".toList) name
      (some (readByLines got))).2)

theorem migrateEntry_takes (h : Takes mem fs name o got) : migrateEntry mem fs name o =
    if o.unlinked then (stored mem fs name o got).unlink (legacyPath mem.baseDir name)
    else stored mem fs name o got := by
  obtain ⟨hext, hne, hopened, hfile⟩ := h
  rw [migrateEntry, hext, beq_false_of_ne hne, hfile, hopened]
  rfl

theorem migrateEntry_skips (h : ∀ got, ¬ Takes mem fs name o got) :
    migrateEntry mem fs name o = fs := by
  unfold migrateEntry
  split
  · rfl
  · rename_i hname
    split
    · rename_i got hfile hopened
      have hname' : strEndsWith name ".md".toList = true ∧ name ≠ memoryFile := by
        simpa using hname
      exact absurd ⟨hname'.1, hname'.2, hopened, hfile⟩ (h got)
    · rfl

/-- What a store leaves in the file. -/
theorem stored_path (hname : name ≠ []) (htext : readByLines got ≠ []) :
    stored mem fs name o got mem.path = if o.store.opens = true ∧ o.store.renames = true
      then some (o.store.arrived (cstr (storeText notes name (bulletFor name (readByLines got))
        (readMemoryFileWith o.store fs mem))))
      else fs mem.path := by
  have hlen : ¬ (readByLines got).length = 0 := mt List.eq_nil_of_length_eq_zero htext
  have hsec : canonicaliseSection (some "Important Notes".toList) = notes :=
    canonicalise_self _ (by decide)
  rw [stored, if_neg hlen, memoryStoreWith_some _ _ _ _ hname, hsec]
  exact write_path ..

theorem stored_empty (htext : readByLines got = []) : stored mem fs name o got = fs := by
  rw [stored, htext]
  rfl

theorem stored_of_ne {p : Str} (hpath : p ≠ mem.path) (htmp : p ≠ tmpPath mem) :
    stored mem fs name o got p = fs p := by
  rw [stored]
  split
  · rfl
  · exact memoryStoreWith_of_ne hpath htmp ..

theorem stored_unchanged {e : Entry} (hname : e.name ≠ []) (h : ¬ Stores e got) :
    stored mem fs e.name e.outcome got mem.path = fs mem.path := by
  by_cases htext : readByLines got = []
  · rw [stored_empty htext]
  · rw [stored_path hname htext]
    exact if_neg fun hin => h ⟨hin.1, hin.2, htext⟩

end Entries

section Boot
variable {baseDir : Str} {first fs : Fs} {e : Entry}

theorem stored_holds {mem : Memory} {got bytes : Str}
    (htakes : Takes mem fs e.name e.outcome got) (hstores : Stores e got)
    (hwhole : e.outcome.store.lost = 0)
    (h : Spared e.name (lines (readMemoryFileWith e.outcome.store fs mem)) bytes ∨
      got = bytes ∧ Fits e.name bytes ∧
        Reached e.name (lines (readMemoryFileWith e.outcome.store fs mem))) :
    bytes <:+: (stored mem fs e.name e.outcome got mem.path).getD [] := by
  obtain ⟨hopens, hrenames, htext⟩ := hstores
  have hnul : '\x00' ∉ bulletFor e.name (readByLines got) :=
    not_mem_bulletFor e.isName (readByLines_not_mem got)
  have hlines : ∀ line ∈ lines (readMemoryFileWith e.outcome.store fs mem), '\x00' ∉ line := by
    rw [readMemoryFileWith]
    split
    · exact fun _ => not_mem_line
    · exact fun _ hline => absurd hline List.not_mem_nil
  rw [stored_path htakes.name_ne htext, if_pos ⟨hopens, hrenames⟩, Option.getD_some,
    Faults.arrived_whole hwhole, storeText_eq]
  rcases h with h | ⟨rfl, hfits, hreached⟩
  · exact spared_written hnul hlines h
  · rw [readByLines_self hfits.1] at hnul ⊢
    exact (bulletFor_fits hfits).trans (reached_written hnul hlines hreached)

theorem migrateEntry_preserves (h : Preserved (memoryAt baseDir) first fs)
    (hsafe : Safe (memoryAt baseDir) first fs e) :
    Preserved (memoryAt baseDir) first
      (migrateEntry (memoryAt baseDir) fs e.name e.outcome) := by
  intro p bytes hp hfirst
  have hpath : p ≠ (memoryAt baseDir).path := legacy_ne_path hp
  have htmp : p ≠ tmpPath (memoryAt baseDir) := legacy_ne_tmp hp
  by_cases htakes : ∃ got, Takes (memoryAt baseDir) fs e.name e.outcome got
  · obtain ⟨got, htakes⟩ := htakes
    have hother {q : Str} (hq : ¬ Drops (memoryAt baseDir) e q) :
        migrateEntry (memoryAt baseDir) fs e.name e.outcome q =
          stored (memoryAt baseDir) fs e.name e.outcome got q := by
      rw [migrateEntry_takes htakes]
      split
      · rename_i hun
        exact Fs.unlink_of_ne (fun heq => hq ⟨hun, heq.symm⟩)
      · rfl
    by_cases hrisk : fs p ≠ some bytes ∨ Drops (memoryAt baseDir) e p
    · right
      by_cases hempty : bytes = []
      · rw [hempty]
        exact List.nil_infix
      obtain ⟨hmem, hstore, hnone⟩ := hsafe got p bytes htakes hp hfirst hempty hrisk
      rw [hother hmem]
      by_cases hstores : Stores e got
      · exact stored_holds htakes hstores (hstore hstores).1 (hstore hstores).2
      · rw [stored_unchanged htakes.name_ne hstores]
        by_cases hdrops : Drops (memoryAt baseDir) e p
        · exact hnone hstores hdrops
        · exact (h p bytes hp hfirst).resolve_left (hrisk.resolve_right hdrops)
    · left
      rw [not_or, not_not] at hrisk
      rw [hother hrisk.2, stored_of_ne hpath htmp, hrisk.1]
  · rw [migrateEntry_skips (fun got h => htakes ⟨got, h⟩)]
    exact h p bytes hp hfirst

theorem start_preserves (created : Faults) :
    Preserved (memoryAt baseDir) first (startMemory created first baseDir) := by
  intro p bytes hp hfirst
  left
  rw [startMemory]
  split
  · exact hfirst
  · rw [createInitialMemory]
    split
    · rw [run_overwrite]
      exact (Fs.write_of_ne (legacy_ne_path hp) _).trans hfirst
    · exact hfirst

/-- A migration whose entries are all safe loses no content, whatever its file operations do. -/
theorem migration_preserves (created : Faults) (first : Fs) (baseDir : Str) (entries : List Entry)
    (hsafe : ∀ done e rest, entries = done ++ e :: rest →
      Safe (memoryAt baseDir) first (createdWith created first baseDir done) e) :
    Preserved (memoryAt baseDir) first (createdWith created first baseDir entries) := by
  induction entries using List.reverseRecOn with
  | nil => exact start_preserves created
  | append_singleton done e ih =>
    have hdone := ih (fun before f rest heq => hsafe before f (rest ++ [e]) (by simp [heq]))
    have hlast : createdWith created first baseDir (done ++ [e]) =
        migrateEntry (memoryAt baseDir) (createdWith created first baseDir done) e.name e.outcome := by
      simp [createdWith, memoryCreateWith, migrateLegacyFiles]
    rw [hlast]
    exact migrateEntry_preserves hdone (hsafe done e [] rfl)

end Boot

/-- A memory with the section of the notes, and two files to migrate. -/
def legacyDisk (a b : Str) : Fs := fun p =>
  if p = "m/MEMORY.md".toList then some "## Important Notes\n".toList
  else if p = "m/a.md".toList then some a
  else if p = "m/b.md".toList then some b
  else none

def entryA (store : Faults) : Entry := ⟨"a.md".toList, by decide, true, store, true⟩

def entryB (store : Faults) : Entry := ⟨"b.md".toList, by decide, true, store, true⟩

theorem tea_preserved : Preserved (memoryAt "m".toList) (legacyDisk "tea".toList [])
    (createdWith .none (legacyDisk "tea".toList []) "m".toList [entryA .none]) := by
  apply migration_preserves
  intro done e rest heq
  obtain ⟨rfl, rfl, rfl⟩ : done = [] ∧ e = entryA .none ∧ rest = [] := by
    cases done with
    | nil => simpa [eq_comm] using heq
    | cons x xs => simp at heq
  intro got p bytes htakes hp hfirst hne hrisk
  have hgot : got = "tea".toList := (Option.some.inj htakes.2.2.2).symm
  have hbytes : bytes = "tea".toList := by
    have hpath := legacy_ne_path hp
    change p ≠ "m/MEMORY.md".toList at hpath
    rw [legacyDisk, if_neg hpath] at hfirst
    split at hfirst
    · exact (Option.some.inj hfirst).symm
    · split at hfirst
      · exact absurd (Option.some.inj hfirst).symm hne
      · cases hfirst
  subst hgot hbytes
  refine ⟨?_, ?_, ?_⟩
  · intro hdrops
    exact absurd hdrops.2 (by decide)
  · intro _
    refine ⟨rfl, .inr ⟨rfl, ⟨by decide, by decide⟩, _, [], (List.append_nil _).symm, ?_, ?_⟩⟩
    · intro b l b' hsplit
      right
      have hshort : ∀ l ∈ lines "## Important Notes\n".toList, l.length < 2048 := by decide
      apply hshort l
      change lines "## Important Notes\n".toList = b ++ l :: b' at hsplit
      rw [hsplit]
      exact List.mem_append_right _ List.mem_cons_self
    · intro line hline
      cases hline
  · intro hnone
    exact absurd ⟨rfl, rfl, by decide⟩ hnone

theorem legacy_a : Legacy "m".toList "m/a.md".toList := ⟨"a.md".toList, by decide, by decide, rfl⟩

/-- A content is lost with a store that fails or whose bytes do not arrive, and torn where
the next bullet goes in front of a heading of it. -/
theorem content_lost :
    ¬ Preserved (memoryAt "m".toList) (legacyDisk "tea".toList [])
      (createdWith .none (legacyDisk "tea".toList []) "m".toList
        [entryA { Faults.none with renames := false }]) ∧
    ¬ Preserved (memoryAt "m".toList) (legacyDisk "tea".toList [])
      (createdWith .none (legacyDisk "tea".toList []) "m".toList
        [entryA { Faults.none with lost := 1000 }]) ∧
    ¬ Preserved (memoryAt "m".toList) (legacyDisk "x\n## 4\n".toList "y".toList)
      (createdWith .none (legacyDisk "x\n## 4\n".toList "y".toList) "m".toList
        [entryA .none, entryB .none]) := by
  refine ⟨fun h => ?_, fun h => ?_, fun h => ?_⟩
  all_goals
    rcases h _ _ legacy_a rfl with hstill | hin
    · revert hstill
      decide +kernel
    · exact strstr_none_iff.mp (by decide +kernel) hin

end Dobby.MdMemory
