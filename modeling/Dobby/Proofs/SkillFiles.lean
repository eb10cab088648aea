import Dobby.Model.Skills
import Mathlib.Data.List.Basic
import Mathlib.Data.List.Induction

namespace Dobby.Skills
open CString Lines

/-- The text of a line, without its newline and a carriage return before it. -/
def lineText (line : Str) : Str := dropEnd '\r' (dropEnd '\n' line)

def textLines (text : Str) : List Str := (lines text).map lineText

/-- The key and the value of a line, which a colon separates. -/
def entryOf (line : Str) : Option (Str × Str) :=
  if ':' ∈ line then
    some (strTrim (line.takeWhile (· ≠ ':')), strTrim ((line.dropWhile (· ≠ ':')).drop 1))
  else none

/-- The value of the last line with a key. -/
def valueOf (key : String) (ls : List Str) : Option Str :=
  (ls.filterMap entryOf).reverse.lookup key.toList

/-- What the lines of a front matter set: each field has its key, and a default where no
line has that key. -/
def settings (slug : Str) (ls : List Str) : Metadata where
  name := snprintf 256 ((valueOf "name" ls).getD slug)
  description := snprintf 256 ((valueOf "description" ls).getD "A custom skill".toList)
  always := (valueOf "always" ls).any truthy
  requiresBins := ((valueOf "requires_bins" ls).map (splitWords · maxRequires)).getD []
  requiresEnv := ((valueOf "requires_env" ls).map (splitWords · maxRequires)).getD []

def joined (ls : List Str) : Str := ls.flatMap (· ++ ['\n'])

/-- A first line and a later one that are markers hold the front matter between them;
without these the whole file is content. -/
def separated (slug text : Str) : Metadata × Str :=
  match textLines text with
  | [] => (defaults slug, text)
  | first :: rest =>
    if first = marker ∧ marker ∈ rest then
      (settings slug (rest.takeWhile (· ≠ marker)), joined (rest.dropWhile (· ≠ marker)).tail)
    else (defaults slug, text)

/-- The file starts with a front matter, or it has at most one marker and nothing is set
behind that. -/
def Separable (slug text : Str) : Prop :=
  ((textLines text).head? = some marker ∧ marker ∈ (textLines text).tail) ∨
    ((textLines text).count marker < 2 ∧
      settings slug ((textLines text).dropWhile (· ≠ marker)).tail = defaults slug)

theorem valueOf_skip {line : Str} (h : entryOf line = none) (key : String) (ls : List Str) :
    valueOf key (ls ++ [line]) = valueOf key ls := by
  rw [valueOf, List.filterMap_append, List.filterMap_cons_none h, List.filterMap_nil, List.append_nil]
  rfl

theorem valueOf_snoc {line k v : Str} (h : entryOf line = some (k, v)) (key : String) (ls : List Str) :
    valueOf key (ls ++ [line]) = if k = key.toList then some v else valueOf key ls := by
  rw [valueOf, List.filterMap_append, List.filterMap_cons_some h, List.filterMap_nil,
    List.reverse_append, List.reverse_singleton, List.singleton_append, List.lookup_cons]
  by_cases hk : k = key.toList
  · rw [if_pos hk, beq_iff_eq.mpr hk.symm]
  · rw [if_neg hk, beq_eq_false_iff_ne.mpr (Ne.symm hk)]
    rfl

/-- A line replaces the value of its key. -/
theorem settings_snoc (slug : Str) (ls : List Str) (line : Str) :
    settings slug (ls ++ [line]) = setLine (settings slug ls) line := by
  by_cases hcolon : ':' ∈ line
  · have hentry : entryOf line = some (strTrim (line.takeWhile (· ≠ ':')),
        strTrim ((line.dropWhile (· ≠ ':')).drop 1)) := if_pos hcolon
    rw [setLine, if_pos hcolon]
    simp only [settings, valueOf_snoc hentry]
    generalize strTrim (line.takeWhile (· ≠ ':')) = key
    split_ifs <;> simp_all
  · have hentry : entryOf line = none := if_neg hcolon
    rw [setLine, if_neg hcolon]
    simp only [settings, valueOf_skip hentry]

theorem foldl_setLine (slug : Str) (ls : List Str) :
    ls.foldl setLine (defaults slug) = settings slug ls := by
  induction ls using List.reverseRecOn with
  | nil => rfl
  | append_singleton ls line ih => rw [List.foldl_append, List.foldl_cons, List.foldl_nil, ih, settings_snoc]

theorem readText_before {ls : List Str} (h : marker ∉ ls) (md : Metadata) (body : Str) :
    ls.foldl readText ⟨md, 0, false, body⟩ = ⟨md, 0, false, body⟩ := by
  induction ls with
  | nil => rfl
  | cons l ls ih =>
    obtain ⟨hl, hls⟩ := List.ne_and_not_mem_of_not_mem_cons h
    rw [List.foldl_cons, readText, if_neg (Ne.symm hl)]
    simpa [Ne.symm hl] using ih hls

theorem readText_front {ls : List Str} (h : marker ∉ ls) (md : Metadata) (n : Nat) (body : Str) :
    ls.foldl readText ⟨md, n, true, body⟩ = ⟨ls.foldl setLine md, n, true, body⟩ := by
  induction ls generalizing md with
  | nil => rfl
  | cons l ls ih =>
    obtain ⟨hl, hls⟩ := List.ne_and_not_mem_of_not_mem_cons h
    rw [List.foldl_cons, readText, if_neg (Ne.symm hl)]
    simpa [Ne.symm hl] using ih hls (setLine md l)

theorem readText_body (ls : List Str) (md : Metadata) {n : Nat} (hn : 2 ≤ n) (body : Str) :
    ls.foldl readText ⟨md, n, false, body⟩ =
      ⟨md, n + ls.count marker, false, body ++ joined ls⟩ := by
  induction ls generalizing n body with
  | nil => simp [joined]
  | cons l ls ih =>
    rw [List.foldl_cons, readText]
    by_cases hl : l = marker
    · have hone : n + 1 ≠ 1 := by omega
      have htwo : n + 1 ≠ 2 := by omega
      have hmore : 2 ≤ n + 1 := by omega
      simp only [hl, if_true, hone, htwo, hmore, and_false, if_false, Bool.false_eq_true]
      rw [ih hmore, List.count_cons_self, joined, joined, List.flatMap_cons, List.append_assoc]
      simp only [Nat.add_assoc, Nat.add_comm 1]
    · simp only [hl, if_false, hn, false_and, Bool.false_eq_true, if_true]
      rw [ih hn, List.count_cons_of_ne hl, joined, joined, List.flatMap_cons, List.append_assoc]

/-- The three kinds of files: no marker, one, and more. -/
theorem markers_cases (ls : List Str) : marker ∉ ls ∨
    (∃ a b, ls = a ++ marker :: b ∧ marker ∉ a ∧ marker ∉ b) ∨
    ∃ a b c, ls = a ++ marker :: (b ++ marker :: c) ∧ marker ∉ a ∧ marker ∉ b := by
  by_cases h : marker ∈ ls
  · obtain ⟨a, b, rfl, ha⟩ := List.eq_append_cons_of_mem h
    by_cases hb : marker ∈ b
    · obtain ⟨b, c, rfl, hnot⟩ := List.eq_append_cons_of_mem hb
      exact .inr (.inr ⟨a, b, c, rfl, ha, hnot⟩)
    · exact .inr (.inl ⟨a, b, rfl, ha, hb⟩)
  · exact .inl h

theorem dropEnd_succ (c : Char) (s : Str) : s.length ≤ (dropEnd c s).length + 1 := by
  unfold dropEnd
  split
  · rw [List.length_dropLast]
    omega
  · omega

theorem dropEnd_length (c : Char) (s : Str) : (dropEnd c s).length ≤ s.length := by
  unfold dropEnd
  split
  · rw [List.length_dropLast]
    omega
  · exact Nat.le_refl _

/-- The lines behind a front matter are no more than the text and a newline. -/
theorem joined_length {ls : List Str} (h : Lined ls) :
    (joined (ls.map lineText)).length ≤ ls.flatten.length + 1 := by
  induction h with
  | nil => exact Nat.zero_le _
  | last body nonempty unended =>
    have htext : (lineText body).length ≤ body.length := (dropEnd_length _ _).trans (dropEnd_length _ _)
    simpa [joined] using htext
  | cons line ls ended rest ih =>
    have htext : (lineText line).length + 1 ≤ line.length := by
      obtain ⟨body, rfl, -⟩ := ended
      have hend : dropEnd '\n' (body ++ ['\n']) = body := by simp [dropEnd]
      rw [lineText, hend, List.length_append, List.length_singleton]
      exact Nat.succ_le_succ (dropEnd_length _ _)
    simp only [joined, List.map_cons, List.flatMap_cons, List.flatten_cons, List.length_append,
      List.length_singleton] at ih ⊢
    omega

theorem textLines_length (text : Str) : (joined (textLines text)).length ≤ text.length + 1 := by
  have h := joined_length (lines_lined text)
  rw [lines_flatten] at h
  exact h

theorem lines_clean {text line : Str} (hnull : '\x00' ∉ text) (h : line ∈ lines text) : cstr line = line := by
  apply cstr_eq_self
  intro hmem
  apply hnull
  rw [← lines_flatten text]
  exact List.mem_flatten.mpr ⟨line, h, hmem⟩

theorem lines_cstr {text : Str} (hnull : '\x00' ∉ text) : (lines text).flatMap cstr = text := by
  have hsame : (lines text).map cstr = (lines text).map id :=
    List.map_congr_left (fun line hline => lines_clean hnull hline)
  rw [List.flatMap_def, hsame, List.map_id, lines_flatten]

/-- The loop sees the texts of the lines. -/
theorem readLine_lines {text : Str} (hnull : '\x00' ∉ text) (p : Parser) :
    (lines text).foldl readLine p = (textLines text).foldl readText p := by
  rw [textLines, List.foldl_map]
  apply List.foldl_ext
  intro q line hline
  rw [readLine, chomp, lines_clean hnull hline]
  rfl

theorem separated_plain {slug text : Str} (h : ¬ ((textLines text).head? = some marker ∧
    marker ∈ (textLines text).tail)) : separated slug text = (defaults slug, text) := by
  unfold separated
  split
  · rfl
  · rename_i first rest hlines
    rw [hlines, List.head?_cons, List.tail_cons, Option.some_inj] at h
    rw [if_neg h]

theorem separated_front {slug text : Str} {b c : List Str} (hb : marker ∉ b)
    (h : textLines text = marker :: (b ++ marker :: c)) :
    separated slug text = (settings slug b, joined c) := by
  unfold separated
  rw [h]
  dsimp only
  have hkeep : ∀ l ∈ b, (decide (l ≠ marker)) = true := fun l hl => by
    simpa using ne_of_mem_of_not_mem hl hb
  rw [if_pos ⟨rfl, by simp⟩, List.takeWhile_append_of_pos hkeep, List.takeWhile_cons_of_neg (by simp),
    List.append_nil, List.dropWhile_append_of_pos hkeep, List.dropWhile_cons_of_neg (by simp)]
  rfl

theorem front_iff {a b : List Str} (ha : marker ∉ a) :
    ((a ++ marker :: b).head? = some marker ∧ marker ∈ (a ++ marker :: b).tail) ↔ a = [] ∧ marker ∈ b := by
  cases a with
  | nil => simp
  | cons l ls =>
    have hl := (List.ne_and_not_mem_of_not_mem_cons ha).1
    simp [Ne.symm hl]

theorem behind_first {a : List Str} (ha : marker ∉ a) (b : List Str) :
    ((a ++ marker :: b).dropWhile (· ≠ marker)).tail = b := by
  rw [List.dropWhile_append_of_pos (fun l hl => by simpa using ne_of_mem_of_not_mem hl ha),
    List.dropWhile_cons_of_neg (by simp)]
  rfl

/-- What the loop leaves of a file with at least one marker. -/
theorem readText_first {a : List Str} (ha : marker ∉ a) (b : List Str) (md : Metadata) :
    (a ++ marker :: b).foldl readText ⟨md, 0, false, []⟩ = b.foldl readText ⟨md, 1, true, []⟩ := by
  rw [List.foldl_append, readText_before ha, List.foldl_cons]
  rfl

theorem readText_second {b : List Str} (hb : marker ∉ b) (c : List Str) (md : Metadata) :
    (b ++ marker :: c).foldl readText ⟨md, 1, true, []⟩ =
      ⟨b.foldl setLine md, 2 + c.count marker, false, joined c⟩ := by
  rw [List.foldl_append, readText_front hb, List.foldl_cons]
  exact readText_body c _ (Nat.le_refl 2) []

/-- A skill file is separated as it should be if and only if it is separable. -/
theorem skill_file_iff (system : Str → Bool) (getenv : Str → Option Str) (fs : Fs) (path : Str) {text : Str}
    (hfile : fs path = some text) (hnull : '\x00' ∉ text)
    (hshort : ∀ line ∈ lines text, (dropEnd '\n' line).length ≤ 1022) (sk : Skill) :
    ∃ sk', parseSkillFile system getenv fs path sk = some sk' ∧
      ((sk'.toMetadata, sk'.content) = separated sk.slug text ↔ Separable sk.slug text) := by
  refine ⟨_, by rw [parseSkillFile, hfile, Option.map_some], ?_⟩
  dsimp only
  have hlines : fgetsAll 1024 text = lines text := by
    apply fgetsAll_lines
    intro line hline
    have htext := hshort line hline
    have hlength := dropEnd_succ '\n' line
    omega
  rw [hlines, readLine_lines hnull, lines_cstr hnull]
  rcases markers_cases (textLines text) with hnone | ⟨a, b, hone, ha, hb⟩ | ⟨a, b, c, htwo, ha, hb⟩
  · have hplain : ¬ ((textLines text).head? = some marker ∧ marker ∈ (textLines text).tail) :=
      fun h => hnone (List.mem_of_mem_tail h.2)
    have hall : (textLines text).dropWhile (· ≠ marker) = [] :=
      List.dropWhile_eq_nil_iff.mpr (fun l hl => by simpa using ne_of_mem_of_not_mem hl hnone)
    rw [readText_before hnone, separated_plain hplain]
    refine iff_of_true rfl (.inr ⟨?_, ?_⟩)
    · rw [List.count_eq_zero.mpr hnone]
      decide
    · rw [hall]
      rfl
  · have hfront : ¬ ((textLines text).head? = some marker ∧ marker ∈ (textLines text).tail) := by
      rw [hone, front_iff ha]
      exact fun h => hb h.2
    have hcount : (textLines text).count marker < 2 := by
      rw [hone, List.count_append, List.count_cons_self, List.count_eq_zero.mpr ha,
        List.count_eq_zero.mpr hb]
      decide
    have hbehind : ((textLines text).dropWhile (· ≠ marker)).tail = b := by rw [hone, behind_first ha]
    rw [separated_plain hfront, Separable, hbehind, hone, readText_first ha, readText_front hb, ← hone]
    rw [foldl_setLine]
    simp only [hfront, hcount, false_or, true_and, Nat.one_lt_ofNat, if_true, Prod.mk.injEq, and_true]
  · have hfold : (textLines text).foldl readText ⟨defaults sk.slug, 0, false, []⟩ =
        ⟨settings sk.slug b, 2 + c.count marker, false, joined c⟩ := by
      rw [htwo, readText_first ha, readText_second hb, foldl_setLine]
    have hdashes : ¬ 2 + c.count marker < 2 := by omega
    rw [hfold]
    dsimp only
    rw [if_neg hdashes]
    by_cases hempty : a = []
    · have hlines : textLines text = marker :: (b ++ marker :: c) := by rw [htwo, hempty, List.nil_append]
      have hfront : (textLines text).head? = some marker ∧ marker ∈ (textLines text).tail := by
        rw [htwo, front_iff ha]
        exact ⟨hempty, List.mem_append_right _ List.mem_cons_self⟩
      rw [separated_front hb hlines]
      exact iff_of_true rfl (.inl hfront)
    · have hfront : ¬ ((textLines text).head? = some marker ∧ marker ∈ (textLines text).tail) := by
        rw [htwo, front_iff ha]
        exact fun h => hempty h.1
      have hcount : ¬ (textLines text).count marker < 2 := by
        rw [htwo, List.count_append, List.count_cons_self, List.count_append, List.count_cons_self]
        omega
      have hlength : joined c ≠ text := by
        intro heq
        have htotal := textLines_length text
        rw [htwo] at htotal
        simp only [joined, List.flatMap_append, List.flatMap_cons, List.length_append] at htotal heq
        rw [heq] at htotal
        have hmarker : marker.length = 3 := rfl
        omega
      rw [separated_plain hfront]
      refine iff_of_false ?_ ?_
      · exact fun heq => hlength (congrArg Prod.snd heq)
      · exact fun h => h.elim hfront (fun h => hcount h.1)

def blankSkill : Skill := ⟨⟨[], [], false, [], []⟩, [], "s".toList, false, []⟩

def fileOf (text : String) : Fs := fun _ => some text.toList

def goodFile : String := "---\nname: Serial\n---\nOne.\n---\nTwo.\n"

theorem good_file_separated :
    ∃ sk, parseSkillFile (fun _ => true) (fun _ => none) (fileOf goodFile) [] blankSkill = some sk ∧
      (sk.toMetadata, sk.content) = separated "s".toList goodFile.toList := by
  have hshort : ∀ line ∈ lines goodFile.toList, (dropEnd '\n' line).length ≤ 1022 := by decide
  obtain ⟨sk, hparse, hiff⟩ := skill_file_iff (fun _ => true) (fun _ => none)
    (fileOf goodFile) [] rfl (by decide) hshort blankSkill
  exact ⟨sk, hparse, hiff.mpr (.inl (by decide))⟩

/-- Two rules in a file without front matter are taken for one, and a single marker sets
metadata of a file that is all content. -/
theorem rules_taken_for_front :
    ((parseSkillFile (fun _ => true) (fun _ => none) (fileOf "# A\n---\nb\n---\nc\n") [] blankSkill).map
        (fun sk => (sk.toMetadata, sk.content)) = some (defaults "s".toList, "c\n".toList) ∧
      separated "s".toList "# A\n---\nb\n---\nc\n".toList =
        (defaults "s".toList, "# A\n---\nb\n---\nc\n".toList)) ∧
    ((parseSkillFile (fun _ => true) (fun _ => none) (fileOf "---\nname: x\n") [] blankSkill).map
        (fun sk => (sk.name, sk.content)) = some ("x".toList, "---\nname: x\n".toList) ∧
      separated "s".toList "---\nname: x\n".toList = (defaults "s".toList, "---\nname: x\n".toList)) := by
  decide

end Dobby.Skills
