import Dobby.Base.Search
import Dobby.Proofs.AllowlistLoad

namespace Dobby.Allowlist
open CString Lines

def header : Str := "[email]".toList

/-- Where the old section starts in a file: the lines ahead, what stays of the line itself
with a newline of its own, the line, and the lines behind it. -/
structure Place where
  before : List Str
  stays : Str
  line : Str
  behind : List Str
  deriving DecidableEq

def Place.push (line : Str) (p : Place) : Place := { p with before := line :: p.before }

/-- The first line that starts with the header. -/
def startingWith : List Str → Option Place
  | [] => none
  | line :: rest =>
    if header.isPrefixOf line then some ⟨[], [], line, rest⟩
    else (startingWith rest).map (.push line)

/-- The first line that has the header anywhere. -/
def having : List Str → Option Place
  | [] => none
  | line :: rest =>
    match strstr header line with
    | some found => some ⟨[], line.take (line.length - found.length) ++ ['\n'], line, rest⟩
    | none => (having rest).map (.push line)

/-- A line that starts with the header, the first line of the file aside, goes ahead of
all others that have it. -/
def place : List Str → Option Place
  | [] => none
  | first :: rest => ((startingWith rest).map (.push first)).or (having (first :: rest))

/-- The lines that go with the line of the header, and the lines behind these. A line that
starts with a bracket ends the section, unless it follows a comment and so is not looked at. -/
def sectionEnd (unseen : Bool) : List Str → List Str × List Str
  | [] => ([], [])
  | line :: rest =>
    if line.head? = some '[' ∧ unseen = false then ([], line :: rest)
    else
      let (gone, kept) := sectionEnd (line.head? = some '#' ∧ unseen = false) rest
      (line :: gone, kept)

theorem sectionEnd_append (unseen : Bool) (ls : List Str) :
    (sectionEnd unseen ls).1 ++ (sectionEnd unseen ls).2 = ls := by
  induction ls generalizing unseen with
  | nil => rfl
  | cons line rest ih =>
    rw [sectionEnd]
    split
    · rfl
    · exact congrArg (line :: ·) (ih _)

/-- The scan for the next section, from within a line that may be a comment. -/
theorem nextSection_lines (inComment : Bool) (s : Str) :
    (nextSection inComment s).getD [] = (sectionEnd inComment ((lines s).drop 1)).2.flatten := by
  have hunseen : ∀ ls : List Str, (sectionEnd true ls).2 = (sectionEnd false (ls.drop 1)).2 := by
    intro ls
    cases ls with
    | nil => rfl
    | cons l rest => simp [sectionEnd]
  induction s generalizing inComment with
  | nil => rfl
  | cons c cs ih =>
    by_cases hc : c = '\n'
    · subst hc
      rw [lines, if_pos rfl, List.drop_succ_cons, List.drop_zero]
      cases inComment with
      | true => exact (ih false).trans (congrArg List.flatten (hunseen (lines cs)).symm)
      | false =>
        cases cs with
        | nil => rfl
        | cons d ds =>
          obtain ⟨l, ls, hlines⟩ : ∃ l ls, lines (d :: ds) = (d :: l) :: ls := by
            rw [lines]
            split
            · rename_i hd
              exact ⟨[], _, by rw [hd]⟩
            · cases lines ds with
              | nil => exact ⟨_, _, rfl⟩
              | cons l ls => exact ⟨_, _, rfl⟩
          have hflat := lines_flatten (d :: ds)
          rw [hlines] at ih hflat ⊢
          by_cases hopen : d = '['
          · subst hopen
            simpa [nextSection, sectionEnd] using hflat.symm
          · by_cases hhash : d = '#'
            · subst hhash
              simpa [nextSection, sectionEnd] using ih true
            · have hgo : nextSection false ('\n' :: d :: ds) = nextSection false (d :: ds) := by
                rw [nextSection.eq_def]
                simp [hopen, hhash]
              simpa [hgo, sectionEnd, hopen, hhash] using ih false
    · rw [nextSection.eq_def]
      dsimp only
      rw [if_neg hc, ih, lines_cons_drop hc]

theorem startingWith_split {ls : List Str} {p : Place} (h : startingWith ls = some p) :
    ls = p.before ++ p.line :: p.behind ∧ header <+: p.line ∧ p.stays = [] := by
  induction ls generalizing p with
  | nil => cases h
  | cons line rest ih =>
    rw [startingWith] at h
    split at h
    · rename_i hline
      cases h
      exact ⟨rfl, List.isPrefixOf_iff_prefix.mp hline, rfl⟩
    · obtain ⟨q, hq, rfl⟩ := Option.map_eq_some_iff.mp h
      obtain ⟨hrest, hstarts, hstays⟩ := ih hq
      exact ⟨congrArg (line :: ·) hrest, hstarts, hstays⟩

theorem having_split {ls : List Str} {p : Place} (h : having ls = some p) :
    ls = p.before ++ p.line :: p.behind ∧
      ∃ q found, p.line = q ++ found ∧ header <+: found ∧ p.stays = q ++ ['\n'] := by
  induction ls generalizing p with
  | nil => cases h
  | cons line rest ih =>
    rw [having] at h
    split at h
    · rename_i found hfound
      cases h
      obtain ⟨q, hq⟩ := strstr_suffix hfound
      refine ⟨rfl, q, found, hq.symm, strstr_starts hfound, ?_⟩
      rw [← hq, List.length_append, Nat.add_sub_cancel, List.take_left]
    · obtain ⟨q, hq, rfl⟩ := Option.map_eq_some_iff.mp h
      obtain ⟨hrest, hparts⟩ := ih hq
      exact ⟨congrArg (line :: ·) hrest, hparts⟩

theorem header_newline : '\n' ∉ header := by decide

/-- A header at the start of a line behind the first. -/
theorem strstr_line_start (s : Str) : strstr ('\n' :: header) s =
    (startingWith ((lines s).drop 1)).map fun p => '\n' :: (p.line :: p.behind).flatten := by
  induction s with
  | nil => rfl
  | cons c cs ih =>
    by_cases hc : c = '\n'
    · subst hc
      rw [lines, if_pos rfl, List.drop_succ_cons, List.drop_zero]
      have hflat := lines_flatten cs
      by_cases hstart : header <+: cs
      · rw [strstr_cons_pos (List.cons_prefix_cons.mpr ⟨rfl, hstart⟩)]
        rw [prefix_lines_head header_newline] at hstart
        cases hlines : lines cs with
        | nil =>
          rw [hlines] at hstart
          exact absurd hstart (by decide)
        | cons l ls =>
          rw [hlines] at hstart hflat
          change header <+: l at hstart
          rw [startingWith, if_pos (List.isPrefixOf_iff_prefix.mpr hstart), Option.map_some, hflat]
      · have hnot : ¬ '\n' :: header <+: '\n' :: cs := fun h => hstart (List.cons_prefix_cons.mp h).2
        rw [strstr_cons_neg hnot, ih]
        rw [prefix_lines_head header_newline] at hstart
        cases hlines : lines cs with
        | nil => rfl
        | cons l ls =>
          rw [hlines] at hstart
          change ¬ header <+: l at hstart
          rw [List.drop_succ_cons, List.drop_zero, startingWith, if_neg (mt List.isPrefixOf_iff_prefix.mp hstart), Option.map_map]
          rfl
    · have hnot : ¬ '\n' :: header <+: c :: cs := fun h => hc (List.cons_prefix_cons.mp h).1.symm
      rw [strstr_cons_neg hnot, ih, lines_cons_drop hc]

/-- The header anywhere in a line. -/
theorem strstr_in_line {ls : List Str} (h : Lined ls) : strstr header ls.flatten =
    (having ls).map fun p => p.line.drop (p.stays.length - 1) ++ p.behind.flatten := by
  induction ls with
  | nil => rfl
  | cons line rest ih =>
    rw [List.flatten_cons, having]
    cases hfound : strstr header line with
    | some found =>
      obtain ⟨q, rfl⟩ := strstr_suffix hfound
      rw [strstr_grow hfound]
      simp
    | none =>
      have hbehind : strstr header (line ++ rest.flatten) = strstr header rest.flatten := by
        rcases h.line with (rfl | ⟨body, rfl⟩) | rfl
        · rfl
        · rw [List.append_assoc]
          refine strstr_behind (by decide) header_newline ?_ rest.flatten
          intro hbody
          exact strstr_none_iff.mp hfound (hbody.trans (List.prefix_append _ _).isInfix)
        · rw [List.flatten_nil, List.append_nil, hfound]
          rfl
      rw [hbehind, ih h.tail, Option.map_map]
      rfl

theorem take_of_end {front start s : Str} (h : s = front ++ start) :
    s.take (s.length - start.length) = front := by
  rw [h, List.length_append, Nat.add_sub_cancel, List.take_left]

/-- What is put between the lines that stay, by the line of the header. -/
theorem saveText_start {content start sec : Str} (hstart : emailStart content = some start)
    {p : Place} (hfront : content.take (content.length - start.length) ++ ['\n'] =
      p.before.flatten ++ p.stays) (hlines : (lines (start.drop 1)).drop 1 = p.behind) :
    saveText (some content) sec =
      p.before.flatten ++ (p.stays ++ (sec ++ (sectionEnd false p.behind).2.flatten)) := by
  rw [saveText, hstart]
  dsimp only
  rw [nextSection_lines, hlines, ← List.append_assoc p.before.flatten, ← hfront]
  simp

/-- The new text, by the lines of the old one. -/
theorem saveText_lines (content sec : Str) : saveText (some content) sec =
    match place (lines content) with
    | none => content ++ (if sec = [] then [] else '\n' :: sec)
    | some p =>
      p.before.flatten ++ (p.stays ++ (sec ++ (sectionEnd false p.behind).2.flatten)) := by
  have hflat := lines_flatten content
  have hlined := lines_lined content
  have hstart := strstr_line_start content
  have hin := strstr_in_line hlined
  rw [hflat] at hin
  have hneedle : "\n[email]".toList = '\n' :: header := by decide
  have hemail : emailStart content = (strstr ('\n' :: header) content).or (strstr header content) := by
    rw [emailStart, hneedle]
    cases strstr ('\n' :: header) content <;> rfl
  cases hlines : lines content with
  | nil =>
    rw [hlines] at hflat
    rw [← hflat]
    rfl
  | cons first rest =>
    rw [hlines] at hflat hlined hstart hin
    rw [List.drop_succ_cons, List.drop_zero] at hstart
    rw [hstart, hin] at hemail
    rw [place]
    cases hplace : startingWith rest with
    | some q =>
      obtain ⟨hrest, hhead, hstays⟩ := startingWith_split hplace
      rw [hplace] at hstart hemail
      obtain ⟨front, hfront⟩ := strstr_suffix hstart
      have hbehind : Lined (q.line :: q.behind) := by
        rw [hrest] at hlined
        exact hlined.tail.behind
      refine saveText_start (p := q.push first) hemail ?_ ?_
      · rw [take_of_end hfront.symm]
        have hparts : (front ++ ['\n']) ++ (q.line :: q.behind).flatten =
            (first :: q.before).flatten ++ (q.line :: q.behind).flatten := by
          have hall : content = (first :: q.before).flatten ++ (q.line :: q.behind).flatten := by
            rw [← hflat, hrest]
            simp
          rw [List.append_assoc, ← hall]
          exact hfront
        rw [List.append_cancel_right hparts]
        simp [Place.push, hstays]
      · rw [List.drop_succ_cons, List.drop_zero, hbehind.lines_eq]
        rfl
    | none =>
      rw [hplace] at hemail
      cases hhaving : having (first :: rest) with
      | none =>
        rw [hhaving] at hemail
        rw [saveText, hemail]
        rfl
      | some p =>
        obtain ⟨hsplit, q, found, hline, hhead, hstays⟩ := having_split hhaving
        obtain ⟨tail, rfl⟩ := hhead
        have hdrop : p.line.drop (p.stays.length - 1) = header ++ tail := by
          rw [hline, hstays, List.length_append, List.length_singleton, Nat.add_sub_cancel, List.drop_left]
        rw [hhaving, Option.map_none, Option.none_or, Option.map_some, hdrop] at hemail
        rw [hsplit, hline] at hlined
        obtain ⟨-, hfound⟩ := hlined.behind.cut (List.append_ne_nil_of_left_ne_nil (by decide) tail)
        refine saveText_start (p := p) hemail ?_ ?_
        · have hfront : content = (p.before.flatten ++ q) ++ (header ++ tail ++ p.behind.flatten) := by
            rw [← hflat, hsplit, hline]
            simp
          rw [take_of_end hfront, hstays, List.append_assoc]
        · have hchars : header = ['['] ++ "email]".toList := by decide
          rw [hchars, List.append_assoc] at hfound
          have hrest := (hfound.cut (List.append_ne_nil_of_left_ne_nil (by decide) tail)).2.lines_eq
          have hbehind : (header ++ tail ++ p.behind.flatten).drop 1 =
              (("email]".toList ++ tail) :: p.behind).flatten := by
            rw [hchars]
            simp
          rw [hbehind, hrest]
          rfl

/-- The pieces that the loader reads of some lines. -/
def pieces (ls : List Str) : List Str := ls.flatMap (fgetsAll 1024)

/-- No null byte in the file, room for all its rules, and no piece of the new section that
reads as the header of another one. -/
structure Ordinary (bytes sec : Str) : Prop where
  clean : '\x00' ∉ bytes
  room : (loader.reads .command (fgetsAll 1024 bytes)).length ≤ maxRules
  headed : ∀ piece ∈ fgetsAll 1024 sec, opensOther piece = false

namespace Place

variable (p : Place) (sec : Str)

/-- The section in which the line of the header stands. -/
def here : AclType := loader.state .command (pieces p.before)

/-- The line of the header and the lines that go with it. -/
def gone : List Str := p.line :: (sectionEnd false p.behind).1

def kept : List Str := (sectionEnd false p.behind).2

def removed (u : AclType) : List Str := rulesOf u (loader.reads p.here (pieces p.gone))

def left (u : AclType) : List Str := rulesOf u (loader.reads p.here (fgetsAll 1024 p.stays))

/-- The values behind the old section, up to the next header that the loader knows. -/
def orphans : List Str := unheaded (pieces p.kept)

/-- The section in which these are read. -/
def was : AclType := loader.state p.here (pieces p.gone)

/-- The section in which they are read in the new file. -/
def becomes : AclType :=
  if sec = [] then loader.state p.here (fgetsAll 1024 p.stays) else .email

/-- The lines that go hold no rule of another type but those that stay with the start of
the first, and the values behind them are read in the same section. -/
def Undisturbed : Prop :=
  (∀ u, u ≠ .email → p.removed u = p.left u) ∧ (p.orphans = [] ∨ p.was = p.becomes sec)

/-- The values behind were email rules, and in their new section they make up for the rules
that go. -/
def MadeUp : Prop :=
  p.was = .email ∧ ∀ u, u ≠ .email →
    p.removed u = p.left u ++ if p.becomes sec = u then p.orphans else []

end Place

/-- What the lists have room for reads the same of either text behind the first. -/
def SameBehind (front old new : Str) : Prop :=
  ∀ u, u ≠ .email →
    let type := loader.state .command (fgetsAll 1024 front)
    let room := maxRules - (rulesOf u (loader.reads .command (fgetsAll 1024 front))).length
    (rulesOf u (loader.reads type (fgetsAll 1024 new))).take room =
      (rulesOf u (loader.reads type (fgetsAll 1024 old))).take room

/-- The lines ahead that stay whole, the text behind them, and the text put in its place. -/
def parted (bytes sec : Str) : Str × Str × Str :=
  let content := cstr bytes
  let lost := bytes.drop content.length
  if bytes = [] then ([], [], initialComment ++ sec)
  else match place (lines content) with
    | none =>
      let last := lastLine content
      (last.1, last.2 ++ lost, last.2 ++ (if sec = [] then [] else '\n' :: sec))
    | some p =>
      (p.before.flatten, (p.line :: p.behind).flatten ++ lost, p.stays ++ (sec ++ p.kept.flatten))

/-- When a save leaves the rules of the other types as they are. -/
def KeepsRules (bytes sec : Str) : Prop :=
  (Ordinary bytes sec → ∀ p, place (lines bytes) = some p → p.Undisturbed sec ∨ p.MadeUp sec) ∧
    (¬ Ordinary bytes sec →
      SameBehind (parted bytes sec).1 (parted bytes sec).2.1 (parted bytes sec).2.2)

theorem place_split {ls : List Str} {p : Place} (h : place ls = some p) :
    ls = p.before ++ p.line :: p.behind ∧ p.line ≠ [] ∧
      (p.stays = [] ∨ ∃ q found, p.line = q ++ found ∧ found ≠ [] ∧ p.stays = q ++ ['\n']) := by
  have hne : ∀ s : Str, header <+: s → s ≠ [] := by
    rintro s hs rfl
    exact absurd (List.prefix_nil.mp hs) (by decide)
  cases ls with
  | nil => cases h
  | cons first rest =>
    rw [place] at h
    cases hplace : startingWith rest with
    | some q =>
      rw [hplace] at h
      obtain rfl : q.push first = p := Option.some.inj h
      obtain ⟨hrest, hhead, hstays⟩ := startingWith_split hplace
      exact ⟨congrArg (first :: ·) hrest, hne _ hhead, .inl hstays⟩
    | none =>
      rw [hplace] at h
      obtain ⟨hsplit, q, found, hline, hhead, hstays⟩ := having_split (p := p) h
      have hfound := hne _ hhead
      refine ⟨hsplit, ?_, .inr ⟨q, found, hline, hfound, hstays⟩⟩
      rw [hline]
      exact List.append_ne_nil_of_right_ne_nil q hfound

/-- The parts are those of the old file and of the new one. -/
theorem parted_eq (bytes sec : Str) :
    bytes = (parted bytes sec).1 ++ (parted bytes sec).2.1 ∧
      saveText (if bytes = [] then none else some (cstr bytes)) sec =
        (parted bytes sec).1 ++ (parted bytes sec).2.2 ∧
      Whole (parted bytes sec).1 := by
  have hbytes := cstr_append_drop bytes
  simp only [parted]
  split
  · rename_i hempty
    exact ⟨hempty, rfl, .inl rfl⟩
  · rw [saveText_lines]
    cases hplace : place (lines (cstr bytes)) with
    | none =>
      refine ⟨?_, ?_, lastLine_whole _⟩
      · rw [← List.append_assoc, lastLine_append]
        exact hbytes.symm
      · rw [← List.append_assoc, lastLine_append]
    | some p =>
      obtain ⟨hsplit, -, -⟩ := place_split hplace
      have hlined := lines_lined (cstr bytes)
      have hflat := lines_flatten (cstr bytes)
      rw [hsplit] at hlined hflat
      refine ⟨?_, rfl, hlined.whole (List.cons_ne_nil _ _)⟩
      rw [← List.append_assoc, ← List.flatten_append, hflat]
      exact hbytes.symm

theorem emailSection_shape (al : Allowlist) :
    emailSection al = [] ∨ ∃ t, emailSection al = (header ++ ['\n']) ++ (t ++ ['\n']) := by
  rw [emailSection]
  split
  · exact .inl rfl
  · have hstart : "[email]\nallow = ".toList = (header ++ ['\n']) ++ "allow = ".toList := by decide
    rw [hstart]
    refine .inr ⟨"allow = ".toList ++ ", ".toList.intercalate (al .email).rules, ?_⟩
    rw [List.append_assoc, List.append_assoc, List.append_assoc, List.append_assoc, List.append_assoc]

theorem emailSection_whole (al : Allowlist) : Whole (emailSection al) := by
  rcases emailSection_shape al with h | ⟨t, h⟩
  · exact .inl h
  · rw [h, ← List.append_assoc]
    exact .inr ⟨_, rfl⟩

/-- What the loader makes of a new section with no header of another one. -/
theorem reads_section {al : Allowlist}
    (h : ∀ piece ∈ fgetsAll 1024 (emailSection al), opensOther piece = false)
    {u : AclType} (hu : u ≠ .email) (type : AclType) :
    rulesOf u (loader.reads type (fgetsAll 1024 (emailSection al))) = [] ∧
      loader.state type (fgetsAll 1024 (emailSection al)) =
        if emailSection al = [] then type else .email := by
  rcases emailSection_shape al with hnil | ⟨t, ht⟩
  · rw [hnil, if_pos rfl]
    exact ⟨rfl, rfl⟩
  · have hne : emailSection al ≠ [] := by
      rw [ht]
      exact List.append_ne_nil_of_left_ne_nil (by decide) _
    have hcut : fgetsAll 1024 (emailSection al) =
        (header ++ ['\n']) :: fgetsAll 1024 (t ++ ['\n']) := by
      rw [ht, fgetsAll_append 1024 (.inl (.inr ⟨header, rfl⟩))]
      rfl
    rw [if_neg hne]
    rw [hcut] at h ⊢
    have hstep : loader.step type (header ++ ['\n']) = (.email, []) := rfl
    rw [Reader.reads, Reader.state, hstep]
    exact reads_email (fun l hl => h l (List.mem_cons_of_mem _ hl)) hu

namespace Place

variable {p : Place}

/-- What stays of the line of the header has no more rules than what goes. -/
theorem left_length {ls : List Str} (hp : place ls = some p) (hlined : Lined ls)
    (hnull : '\x00' ∉ ls.flatten) (u : AclType) : (p.left u).length ≤ (p.removed u).length := by
  obtain ⟨hsplit, -, hstays⟩ := place_split hp
  rcases hstays with hnil | ⟨q, found, hline, hfound, hstays⟩
  · rw [left, hnil]
    exact Nat.zero_le _
  · rw [hsplit, hline] at hlined
    obtain ⟨hq, -⟩ := hlined.behind.cut hfound
    have hclean : '\x00' ∉ q ++ found := by
      rw [hsplit, hline] at hnull
      intro h
      apply hnull
      simp only [List.flatten_append, List.flatten_cons]
      exact List.mem_append_right _ (List.mem_append_left _ h)
    have hcut := rules_cut hq hfound hclean u p.here
    rw [left, removed, hstays, gone, pieces, List.flatMap_cons, Reader.reads_append, rulesOf_append,
      List.length_append, hline]
    exact hcut.trans (Nat.le_add_right _ _)

/-- The rules of the old file. -/
theorem rules_old (hlined : Lined (p.before ++ p.line :: p.behind)) (u : AclType) :
    rulesOf u (loader.reads .command (fgetsAll 1024 (p.before ++ p.line :: p.behind).flatten)) =
      rulesOf u (loader.reads .command (pieces p.before)) ++ (p.removed u ++
        ((if p.was = u then p.orphans else []) ++ rulesLater u (pieces p.kept))) := by
  have hgone : p.line :: p.behind = p.gone ++ p.kept := by
    rw [gone, kept, List.cons_append, sectionEnd_append]
  rw [hlined.fgetsAll, hgone, List.flatMap_append, List.flatMap_append, Reader.reads_append,
    Reader.reads_append, rulesOf_append, rulesOf_append]
  change _ ++ (p.removed u ++ rulesOf u (loader.reads p.was (pieces p.kept))) = _
  rw [rules_entered u p.was]
  rfl

/-- The rules of the new one. -/
theorem rules_new {al : Allowlist} {ls : List Str} (hp : place ls = some p) (hlined : Lined ls)
    (h : ∀ piece ∈ fgetsAll 1024 (emailSection al), opensOther piece = false) {u : AclType} (hu : u ≠ .email) :
    rulesOf u (loader.reads .command (fgetsAll 1024
        (p.before.flatten ++ (p.stays ++ (emailSection al ++ p.kept.flatten))))) =
      rulesOf u (loader.reads .command (pieces p.before)) ++ (p.left u ++
        ((if p.becomes (emailSection al) = u then p.orphans else []) ++
          rulesLater u (pieces p.kept))) := by
  obtain ⟨hsplit, -, hstays⟩ := place_split hp
  rw [hsplit] at hlined
  have hbefore : Whole p.before.flatten := hlined.whole (List.cons_ne_nil _ _)
  have hwhole : Whole p.stays := by
    rcases hstays with hnil | ⟨q, -, -, -, hstays⟩
    · exact .inl hnil
    · exact .inr ⟨q, hstays⟩
  have hkept : Lined p.kept := by
    have hbehind := hlined.behind.tail
    rw [← sectionEnd_append false p.behind] at hbehind
    exact hbehind.behind
  obtain ⟨hnone, hstate⟩ := reads_section h hu (loader.state p.here (fgetsAll 1024 p.stays))
  rw [fgetsAll_append 1024 (.inl hbefore), fgetsAll_append 1024 (.inl hwhole),
    fgetsAll_append 1024 (.inl (emailSection_whole al)), hkept.fgetsAll, hlined.front.fgetsAll]
  simp only [Reader.reads_append, rulesOf_append]
  change rulesOf u (loader.reads .command (pieces p.before)) ++ (p.left u ++
    (rulesOf u (loader.reads (loader.state p.here (fgetsAll 1024 p.stays)) _) ++
      rulesOf u (loader.reads (loader.state (loader.state p.here (fgetsAll 1024 p.stays)) _)
        (pieces p.kept)))) = _
  rw [hnone, hstate, List.nil_append]
  change _ ++ (_ ++ rulesOf u (loader.reads (p.becomes (emailSection al)) _)) = _
  rw [rules_entered u (p.becomes (emailSection al))]
  rfl

/-- The rules that the old file has room for, the new one has. -/
theorem rules_room {ls : List Str} (hp : place ls = some p) (hlined : Lined ls)
    (hnull : '\x00' ∉ ls.flatten)
    (hroom : (loader.reads .command (fgetsAll 1024 ls.flatten)).length ≤ maxRules)
    (u : AclType) (b : Bool) :
    (rulesOf u (loader.reads .command (pieces p.before)) ++ (p.left u ++
      ((if b then p.orphans else []) ++ rulesLater u (pieces p.kept)))).length ≤ maxRules := by
  have hleft := left_length hp hlined hnull u
  obtain ⟨hsplit, -, -⟩ := place_split hp
  have hgone : p.line :: p.behind = p.gone ++ p.kept := by
    rw [gone, kept, List.cons_append, sectionEnd_append]
  have hkept : (loader.reads p.was (pieces p.kept)).length = p.orphans.length +
      (loader.reads .command ((pieces p.kept).dropWhile fun l => !opensSection l)).length := by
    rw [Reader.reads_reset resets_of_opensSection p.was .command, reads_unheaded, List.length_append,
      List.length_map]
    rfl
  rw [hlined.fgetsAll, hsplit, hgone, List.flatMap_append, List.flatMap_append, Reader.reads_append,
    Reader.reads_append, List.length_append, List.length_append] at hroom
  change (loader.reads .command (pieces p.before)).length +
    ((loader.reads p.here (pieces p.gone)).length + (loader.reads p.was (pieces p.kept)).length) ≤ _
    at hroom
  have hbefore := rulesOf_length u (loader.reads .command (pieces p.before))
  have hremoved : (p.removed u).length ≤ _ := rulesOf_length u (loader.reads p.here (pieces p.gone))
  have hlater : (rulesLater u (pieces p.kept)).length ≤ _ := rulesOf_length u _
  simp only [List.length_append]
  cases b with
  | true =>
    rw [if_pos rfl]
    omega
  | false =>
    rw [if_neg Bool.false_ne_true, List.length_nil]
    omega

/-- Where no rule is out of place. -/
theorem keeps_iff (sec : Str) (hleft : ∀ u, (p.left u).length ≤ (p.removed u).length) :
    (∀ u, u ≠ .email → p.left u ++ (if p.becomes sec = u then p.orphans else []) =
      p.removed u ++ (if p.was = u then p.orphans else [])) ↔ p.Undisturbed sec ∨ p.MadeUp sec := by
  constructor
  · intro h
    by_cases hsame : p.orphans = [] ∨ p.was = p.becomes sec
    · refine .inl ⟨fun u hu => ?_, hsame⟩
      have heq := h u hu
      rcases hsame with hnil | hsame
      · simpa [hnil] using heq.symm
      · rw [hsame] at heq
        exact (List.append_cancel_right heq).symm
    · rw [not_or] at hsame
      by_cases hemail : p.was = .email
      · refine .inr ⟨hemail, fun u hu => ?_⟩
        have heq := h u hu
        rw [hemail, if_neg (Ne.symm hu), List.append_nil] at heq
        exact heq.symm
      · have heq := congrArg List.length (h p.was hemail)
        have hpos := List.length_pos_iff.mpr hsame.1
        rw [if_neg (Ne.symm hsame.2), if_pos rfl, List.append_nil, List.length_append] at heq
        have hle := hleft p.was
        omega
  · rintro (⟨hrules, hsame⟩ | ⟨hemail, hrules⟩) u hu
    · rw [hrules u hu]
      rcases hsame with hnil | hsame
      · simp [hnil]
      · rw [hsame]
    · rw [hrules u hu, hemail, if_neg (Ne.symm hu), List.append_nil]

end Place

/-- Without a line of the header the text only gets longer, by a section of its own. -/
theorem rules_appended {bytes : Str} {al : Allowlist} (hnull : '\x00' ∉ bytes)
    (h : ∀ piece ∈ fgetsAll 1024 (emailSection al), opensOther piece = false) {u : AclType} (hu : u ≠ .email) :
    rulesOf u (loader.reads .command (fgetsAll 1024
        (bytes ++ (if emailSection al = [] then [] else '\n' :: emailSection al)))) =
      rulesOf u (loader.reads .command (fgetsAll 1024 bytes)) := by
  split
  · rw [List.append_nil]
  · obtain ⟨ls, rest, rfl, hls, hrest⟩ := lines_cases bytes
    have hwhole : Whole ls.flatten := by
      rcases List.eq_nil_or_concat ls with rfl | ⟨front, l, rfl⟩
      · exact .inl rfl
      · obtain ⟨body, rfl, -⟩ := hls l (by simp)
        exact .inr ⟨front.flatten ++ body, by simp⟩
    have hclean : '\x00' ∉ rest := fun hc => hnull (List.mem_append_right _ hc)
    have hended : Whole (rest ++ ['\n']) := .inr ⟨rest, rfl⟩
    have htext : ls.flatten ++ rest ++ '\n' :: emailSection al =
        ls.flatten ++ ((rest ++ ['\n']) ++ emailSection al) := by
      simp
    rw [htext, fgetsAll_append 1024 (.inl hwhole), fgetsAll_append 1024 (.inl hended),
      fgetsAll_append 1024 (.inl hwhole), Reader.reads_append, Reader.reads_append, Reader.reads_append,
      reads_ended hrest hclean, rulesOf_append, rulesOf_append, rulesOf_append, (reads_section h hu _).1,
      List.append_nil]

theorem readContent_eq {fs : Fs} {path bytes : Str} (h : fs path = some bytes) :
    readContent fs path = if bytes = [] then none else some (cstr bytes) := by
  rw [readContent, h]
  cases bytes with
  | nil => rfl
  | cons c cs => rw [if_neg (List.cons_ne_nil c cs)]

/-- A successful save writes the text with the new section. -/
theorem allowlistSaveEmail_ok {writable : Bool} {fs fs' : Fs} {al : Allowlist} {path bytes : Str}
    (hfile : fs path = some bytes)
    (hok : allowlistSaveEmail writable fs (some al) (some path) = some (.ok, fs')) :
    fs' path = some (saveText (if bytes = [] then none else some (cstr bytes)) (emailSection al)) := by
  rw [allowlistSaveEmail, readContent_eq hfile] at hok
  split at hok
  · cases writable with
    | true =>
      cases hok
      exact Fs.write_self ..
    | false => cases hok
  · cases hok

/-- An ordinary file without a line of the header. -/
theorem keeps_without_place {bytes : Str} {al : Allowlist} (hord : Ordinary bytes (emailSection al))
    (hplace : place (lines bytes) = none) {u : AclType} (hu : u ≠ .email) :
    rulesOf u (loader.reads .command (fgetsAll 1024
        (saveText (if bytes = [] then none else some (cstr bytes)) (emailSection al)))) =
      rulesOf u (loader.reads .command (fgetsAll 1024 bytes)) := by
  by_cases hempty : bytes = []
  · have hcomment : Whole initialComment := .inr ⟨"# Dobby Security Allowlists\n".toList, rfl⟩
    have hnone : loader.reads .command (fgetsAll 1024 initialComment) = [] := by decide +kernel
    rw [if_pos hempty, saveText, fgetsAll_append 1024 (.inl hcomment), Reader.reads_append,
      rulesOf_append, hnone, (reads_section hord.headed hu _).1, hempty]
    rfl
  · rw [if_neg hempty, cstr_eq_self hord.clean, saveText_lines, hplace]
    exact rules_appended hord.clean hord.headed hu

/-- A save leaves what the loader reads for the other three types exactly where the lines
around the header of the old section say so. -/
theorem save_email_keeps_rules_iff {writable : Bool} {fs fs' : Fs} {al : Allowlist}
    {path bytes : Str} (hfile : fs path = some bytes)
    (hok : allowlistSaveEmail writable fs (some al) (some path) = some (.ok, fs')) :
    (∀ u, u ≠ .email → (allowlistLoad fs' allowlistCreate path).2 u =
      (allowlistLoad fs allowlistCreate path).2 u) ↔
    KeepsRules bytes (emailSection al) := by
  rw [allowlistLoad_rules hfile, allowlistLoad_rules (allowlistSaveEmail_ok hfile hok)]
  simp only [listOf_eq_iff]
  by_cases hord : Ordinary bytes (emailSection al)
  · rw [KeepsRules, and_iff_left (fun h => absurd hord h)]
    cases hplace : place (lines bytes) with
    | none =>
      refine iff_of_true (fun u hu => ?_) (fun _ p hp => ?_)
      · rw [keeps_without_place hord hplace hu]
      · cases hp
    | some p =>
      have hlined := lines_lined bytes
      have hflat := lines_flatten bytes
      have hnull := hord.clean
      have hroom := hord.room
      rw [← hflat] at hnull hroom
      have hne : bytes ≠ [] := by
        rintro rfl
        cases hplace
      have hleft := Place.left_length hplace hlined hnull
      have htotal := Place.rules_room hplace hlined hnull hroom
      have hkeeps := p.keeps_iff (emailSection al) hleft
      refine Iff.trans ?_ (hkeeps.trans ⟨fun h _ q hq => Option.some.inj hq ▸ h, fun h => h hord p rfl⟩)
      refine forall₂_congr fun u hu => ?_
      have hnew := Place.rules_new hplace hlined hord.headed hu
      have hold := Place.rules_old (p := p) ((place_split hplace).1 ▸ hlined) u
      rw [← (place_split hplace).1, hflat] at hold
      have hfits := (rulesOf_length u _).trans hroom
      rw [hflat, hold] at hfits
      have hfits' := htotal u (decide (p.becomes (emailSection al) = u))
      simp only [decide_eq_true_eq] at hfits'
      rw [if_neg hne, cstr_eq_self hord.clean, saveText_lines, hplace]
      change (rulesOf u (loader.reads .command (fgetsAll 1024
        (p.before.flatten ++ (p.stays ++ (emailSection al ++ p.kept.flatten)))))).take maxRules = _ ↔ _
      rw [hnew, hold, List.take_of_length_le hfits, List.take_of_length_le hfits',
        List.append_right_inj, ← List.append_assoc, ← List.append_assoc, List.append_left_inj]
  · rw [KeepsRules, and_iff_right (fun h => absurd h hord), imp_iff_right hord]
    obtain ⟨hbytes, htext, hwhole⟩ := parted_eq bytes (emailSection al)
    refine forall₂_congr fun u _ => ?_
    rw [htext]
    have hold : fgetsAll 1024 bytes = _ :=
      (congrArg (fgetsAll 1024) hbytes).trans (fgetsAll_append 1024 (.inl hwhole))
    rw [hold, fgetsAll_append 1024 (.inl hwhole), Reader.reads_append, Reader.reads_append,
      rulesOf_append, rulesOf_append, take_behind_iff]

def confPath : Str := "allowlist.conf".toList

def confFs (content : Str) : Fs := fun p => if p = confPath then some content else none

/-- An allowlist with one sender. -/
def oneSender : Allowlist := (allowlistAdd allowlistCreate .email "x".toList).2

theorem save_email_keeps_rules_between :
    let content := "[commands]\nallow = ls\n[email]\nallow = y\n[paths]\nallow = /tmp\n".toList
    let saved := saveText (some content) (emailSection oneSender)
    ∀ u, u ≠ .email → (allowlistLoad (Fs.write (confFs content) confPath saved) allowlistCreate
      confPath).2 u = (allowlistLoad (confFs content) allowlistCreate confPath).2 u := by
  intro content saved
  have hok : allowlistSaveEmail true (confFs content) (some oneSender) (some confPath) =
      some (.ok, Fs.write (confFs content) confPath saved) := rfl
  have hfile : confFs content confPath = some content := rfl
  have hord : Ordinary content (emailSection oneSender) :=
    ⟨by decide, by decide +kernel, by decide +kernel⟩
  apply (save_email_keeps_rules_iff hfile hok).mpr
  refine ⟨fun _ p hp => ?_, fun h => absurd hord h⟩
  have hplace : place (lines content) = some
      ⟨["[commands]\n".toList, "allow = ls\n".toList], [], "[email]\n".toList,
        ["allow = y\n".toList, "[paths]\n".toList, "allow = /tmp\n".toList]⟩ := by
    decide +kernel
  obtain rfl := Option.some.inj (hp.symm.trans hplace)
  refine .inl ⟨fun u hu => ?_, .inl (by decide +kernel)⟩
  cases u with
  | command => decide +kernel
  | path => decide +kernel
  | endpoint => decide +kernel
  | email => exact absurd rfl hu

/-- The line after a comment in the section is not looked at, so the section that it
opens goes with the old one. -/
theorem comment_hides_section :
    let content := "[email]\nallow = x\n# c\n[paths]\nallow = /tmp\n".toList
    ∃ fs', allowlistSaveEmail true (confFs content) (some oneSender) (some confPath) =
        some (.ok, fs') ∧
      ((allowlistLoad (confFs content) allowlistCreate confPath).2 .path).enabled = true ∧
      ((allowlistLoad fs' allowlistCreate confPath).2 .path).enabled = false := by
  refine ⟨_, rfl, ?_, ?_⟩ <;> decide +kernel

end Dobby.Allowlist
