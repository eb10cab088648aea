import Dobby.Base.Runs
import Dobby.Model.History
import Mathlib.Data.List.Chain

namespace Dobby.History
open CString Lines Runs

/-- What `strftime` leaves in the buffer of sixteen bytes. -/
structure IsDate (d : Str) : Prop where
  nonempty : d ≠ []
  fits : d.length ≤ 15
  single : '\n' ∉ d

def headingOf (line : Str) : Option Str :=
  if "## ".toList.isPrefixOf line then some ((line.drop 3).takeWhile (· ≠ '\n')) else none

/-- The dates of the headings of a text. -/
def headings (text : Str) : List Str := (lines text).filterMap headingOf

/-- The text of an entry behind its heading. -/
def entryBody (category : Int) (title details ts : Str) : Str :=
  "### [".toList ++ catName category ++ "] ".toList ++ title ++ ['\n'] ++
    "- Time: ".toList ++ ts ++ ['\n'] ++ (lines details).flatMap detailBullet ++ ['\n']

/-- The end of a file: the lines of its last 4096 bytes, cut at 255 bytes. -/
def ending (bytes : Str) : List Str := fgetsAll 256 (bytes.drop (bytes.length - 4096))

def looksDated (piece : Str) : Bool := "## 20".toList.isPrefixOf (cstr piece)

/-- The last piece of the end of the file that looks like a heading shows this date. -/
def Seen (bytes d : Str) : Prop :=
  ∃ piece, ((ending bytes).filter looksDated).getLast? = some piece ∧ ((cstr piece).drop 3).take 10 = d

/-- A file of the file system, the handle on it, and whether nothing has been logged since it
was opened. -/
structure Journal where
  fs : Fs
  handle : Option History
  fresh : Bool

inductive Call where
  | create
  | log (category : Int) (title details : Option Str) (date ts : Str)
  | destroy

inductive Use (path : Str) : Journal → Call → Journal → Prop
  | create : Use path s .create
      ⟨(historyCreate s.fs (some path)).2, some (historyCreate s.fs (some path)).1, true⟩
  /-- Titles and time stamps have one line. -/
  | log (h : History) (category : Int) (title details : Option Str) (date ts : Str)
      (handle : s.handle = some h) (single : ∀ t ∈ title, '\n' ∉ t) (dated : IsDate date)
      (stamp : '\n' ∉ ts) : Use path s (.log category title details date ts)
        ⟨(historyLog h s.fs category title details date ts).2,
          some (historyLog h s.fs category title details date ts).1, s.fresh && title.isNone⟩
  | destroy : Use path s .destroy { s with handle := none }

def Journal.text (path : Str) (s : Journal) : Str := (s.fs path).getD []

/-- An entry stands behind a heading of its date as the nearest one, and no two headings in
a row have the same date. -/
def Grouped (path : Str) (t : Journal) : Call → Prop
  | .log category (some title) details date ts =>
    (∃ pre, t.text path = pre ++ entryBody category title (details.getD []) ts ∧
      (headings pre).getLast? = some date) ∧ (headings (t.text path)).IsChain (· ≠ ·)
  | _ => (headings (t.text path)).IsChain (· ≠ ·)

/-- The first entry since the opening finds its date at the end of the file exactly if it is
that of the last heading. -/
def Found (path : Str) (s : Journal) : Call → Prop
  | .log _ (some _) _ date _ =>
    s.fresh = true → (Seen (s.text path) date ↔ (headings (s.text path)).getLast? = some date)
  | _ => True

theorem detect_iff {d : Str} (hd : d ≠ []) (bytes : Str) :
    detectLastDate bytes = d ↔ Seen bytes d := by
  rw [detectLastDate, Seen]
  change (ending bytes).foldl dateOfLine [] = d ↔ _
  induction ending bytes using List.reverseRecOn with
  | nil => simp [Ne.symm hd]
  | append_singleton pieces p ih =>
    rw [List.foldl_concat, dateOfLine, List.filter_append]
    by_cases hp : looksDated p = true
    · have hlast : [p].filter looksDated = [p] := List.filter_cons_of_pos hp
      rw [hlast, List.getLast?_concat]
      rw [looksDated] at hp
      rw [if_pos hp]
      simp
    · have hlast : [p].filter looksDated = [] := List.filter_cons_of_neg hp
      rw [hlast, List.append_nil, ← ih]
      rw [looksDated] at hp
      rw [if_neg hp]

theorem not_seen {bytes d : Str} {c : Char} (hc : c ∈ "## 20".toList)
    (h : c ∉ bytes.drop (bytes.length - 4096)) : ¬ Seen bytes d := by
  intro hseen
  obtain ⟨piece, hlast, -⟩ := hseen
  obtain ⟨hpiece, hdated⟩ := List.mem_filter.mp (List.mem_of_getLast? hlast)
  have hfront : "## 20".toList <+: cstr piece := List.isPrefixOf_iff_prefix.mp hdated
  have hmem : c ∈ piece := (List.takeWhile_prefix _).subset (hfront.subset hc)
  have hflat (rest : Str) : (fgetsAll 256 rest).flatten = rest := fgetsFrom_flatten 256 [] rest
  apply h
  rw [← hflat (bytes.drop _)]
  exact List.mem_flatten_of_mem hpiece hmem

theorem whole_append {a b : Str} (ha : Whole a) (hb : Whole b) : Whole (a ++ b) := by
  rcases hb with rfl | ⟨t, rfl⟩
  · rw [List.append_nil]
    exact ha
  · exact .inr ⟨a ++ t, (List.append_assoc _ _ _).symm⟩

theorem headings_append {a : Str} (h : Whole a) (b : Str) :
    headings (a ++ b) = headings a ++ headings b := by
  rcases h with rfl | ⟨t, rfl⟩
  · rfl
  · rw [headings, List.append_assoc, List.singleton_append, lines_cut, List.filterMap_append]
    rfl

theorem headings_line {line : Str} (h : Terminated line) (hnone : headingOf line = none) (rest : Str) :
    headings (line ++ rest) = headings rest := by
  rw [headings, lines_terminated h, List.filterMap_cons_none hnone]
  rfl

theorem headingOf_first {c : Char} (hc : c ≠ '#') (rest : Str) : headingOf (c :: rest) = none := by
  have hprefixed : "## ".toList.isPrefixOf (c :: rest) = false := by
    change List.isPrefixOf ('#' :: "# ".toList) (c :: rest) = false
    rw [List.isPrefixOf_cons_cons, beq_false_of_ne (Ne.symm hc)]
    rfl
  rw [headingOf, hprefixed]
  rfl

theorem headingOf_third {c : Char} (hc : c ≠ ' ') (rest : Str) :
    headingOf ('#' :: '#' :: c :: rest) = none := by
  have hprefixed : "## ".toList.isPrefixOf ('#' :: '#' :: c :: rest) = false := by
    change List.isPrefixOf ('#' :: '#' :: [' ']) ('#' :: '#' :: c :: rest) = false
    rw [List.isPrefixOf_cons_cons, List.isPrefixOf_cons_cons, List.isPrefixOf_cons_cons,
      beq_false_of_ne (Ne.symm hc)]
    rfl
  rw [headingOf, hprefixed]
  rfl

theorem headings_bullet (line rest : Str) : headings (detailBullet line ++ rest) = headings rest := by
  unfold detailBullet
  dsimp only
  split
  · rfl
  · rename_i c cs hbody
    have hclean : '\n' ∉ c :: cs := by
      rw [← hbody]
      intro hmem
      simpa using List.mem_takeWhile_imp hmem
    rw [hbody]
    split
    · rename_i hc
      apply headings_line ⟨c :: cs, rfl, hclean⟩
      rcases hc with rfl | rfl
      · exact headingOf_first (by decide) _
      · exact headingOf_first (by decide) _
    · have hline : Terminated ("- ".toList ++ (c :: cs) ++ ['\n']) := by
        refine ⟨_, rfl, ?_⟩
        rw [List.mem_append, not_or]
        exact ⟨by decide, hclean⟩
      exact headings_line hline (headingOf_first (by decide) _) rest

theorem headings_bullets (ls : List Str) (rest : Str) :
    headings (ls.flatMap detailBullet ++ rest) = headings rest := by
  induction ls with
  | nil => rfl
  | cons l ls ih => rw [List.flatMap_cons, List.append_assoc, headings_bullet, ih]

theorem catName_single (category : Int) : '\n' ∉ catName category := by
  have hnames : ∀ name ∈ categoryNames, '\n' ∉ name := by decide
  have hdefault : '\n' ∉ "Event".toList := by decide
  unfold catName
  split
  · rw [List.getD_eq_getElem?_getD]
    cases hname : categoryNames[category.toNat]? with
    | none => exact hdefault
    | some name => exact hnames name (List.mem_of_getElem? hname)
  · exact hdefault

theorem headings_body {title ts : Str} (htitle : '\n' ∉ title) (hts : '\n' ∉ ts) (category : Int)
    (details : Str) :
    headings (entryBody category title details ts) = [] := by
  have htop : Terminated ("### [".toList ++ catName category ++ "] ".toList ++ title ++ ['\n']) := by
    refine ⟨_, rfl, ?_⟩
    simp only [List.mem_append, not_or]
    exact ⟨⟨⟨by decide, catName_single category⟩, by decide⟩, htitle⟩
  have htime : Terminated ("- Time: ".toList ++ ts ++ ['\n']) := by
    refine ⟨_, rfl, ?_⟩
    simp only [List.mem_append, not_or]
    exact ⟨by decide, hts⟩
  have hbody : entryBody category title details ts =
      ("### [".toList ++ catName category ++ "] ".toList ++ title ++ ['\n']) ++
        (("- Time: ".toList ++ ts ++ ['\n']) ++ ((lines details).flatMap detailBullet ++ ['\n'])) := by
    have hgroup (a b c d e f g h : Str) :
        a ++ b ++ c ++ d ++ e ++ f ++ g ++ e ++ h ++ e =
          (a ++ b ++ c ++ d ++ e) ++ ((f ++ g ++ e) ++ (h ++ e)) := by
      simp only [List.append_assoc]
    exact hgroup ..
  have hfirst : headingOf ("### [".toList ++ catName category ++ "] ".toList ++ title ++ ['\n']) = none :=
    headingOf_third (by decide) _
  have hsecond : headingOf ("- Time: ".toList ++ ts ++ ['\n']) = none := headingOf_first (by decide) _
  rw [hbody, headings_line htop hfirst, headings_line htime hsecond, headings_bullets]
  rfl

theorem headingOf_date {date : Str} (h : '\n' ∉ date) :
    headingOf ("## ".toList ++ (date ++ ['\n'])) = some date := by
  have hprefixed : "## ".toList.isPrefixOf ("## ".toList ++ (date ++ ['\n'])) = true :=
    List.isPrefixOf_iff_prefix.mpr (List.prefix_append _ _)
  have hdrop : ("## ".toList ++ (date ++ ['\n'])).drop 3 = date ++ ['\n'] := rfl
  have htake : (date ++ ['\n']).takeWhile (· ≠ '\n') = date := by
    rw [List.takeWhile_append_of_pos (fun c hc => by simpa using ne_of_mem_of_not_mem hc h)]
    simp
  rw [headingOf, if_pos hprefixed, hdrop, htake]

def headingText (date : Str) : Str := "\n## ".toList ++ date ++ "\n\n".toList

theorem headings_heading {date : Str} (h : '\n' ∉ date) : headings (headingText date) = [date] := by
  have hgroup (a b : Str) (c d : Char) : (c :: a) ++ b ++ [d, d] = [c] ++ ((a ++ (b ++ [d])) ++ [d]) := by
    simp
  have hparts : headingText date = ['\n'] ++ (("## ".toList ++ (date ++ ['\n'])) ++ ['\n']) :=
    hgroup "## ".toList date '\n' '\n'
  have hempty : Terminated ['\n'] := ⟨[], rfl, List.not_mem_nil⟩
  have hline : Terminated ("## ".toList ++ (date ++ ['\n'])) := by
    refine ⟨"## ".toList ++ date, (List.append_assoc _ _ _).symm, ?_⟩
    rw [List.mem_append, not_or]
    exact ⟨by decide, h⟩
  rw [hparts, headings_line hempty (headingOf_first (by decide) _), headings, lines_terminated hline,
    List.filterMap_cons_some (headingOf_date h)]
  rfl

theorem headingText_whole (date : Str) : Whole (headingText date) := by
  have hgroup (a b : Str) (c : Char) : a ++ b ++ [c, c] = a ++ b ++ [c] ++ [c] := by
    simp
  exact .inr ⟨_, hgroup "\n## ".toList date '\n'⟩

theorem entryBody_whole (category : Int) (title details ts : Str) :
    Whole (entryBody category title details ts) := .inr ⟨_, rfl⟩

theorem entryText_eq (lastDate : Str) (category : Int) (title details date ts : Str) :
    entryText lastDate category title details date ts =
      (if date = lastDate then [] else headingText date) ++ entryBody category title details ts := by
  have hgroup (x a b c d e f g h : Str) :
      x ++ a ++ b ++ c ++ d ++ e ++ f ++ g ++ e ++ h ++ e =
        x ++ (a ++ b ++ c ++ d ++ e ++ f ++ g ++ e ++ h ++ e) := by
    simp only [List.append_assoc]
  exact hgroup ..

/-- The file is made of whole lines with grouped dates. A handle that has logged knows the
date of the last heading, and a fresh one what it found in the file. -/
structure Tidy (file : Str) (s : Journal) : Prop where
  whole : Whole (s.text file)
  chain : (headings (s.text file)).IsChain (· ≠ ·)
  path : ∀ h ∈ s.handle, h.path = file
  known : ∀ h ∈ s.handle, s.fresh = false → (headings (s.text file)).getLast? = some h.lastDate
  found : ∀ h ∈ s.handle, s.fresh = true → h.lastDate = detectLastDate (s.text file)

theorem header_split : header = "\n\n".toList ++ "# History\n\n".toList ++
    "Chronological, append-only log of significant agent events.\n\n".toList ++
    "Purpose: auditability, debugging, execution traceability.\n\n".toList ++
    "**This file must never be rewritten or reordered.**\n\n".toList ++ "---\n\n".toList := by
  have hsplit (a b c d e f : String) : (a ++ b ++ c ++ d ++ e ++ f).toList =
      a.toList ++ b.toList ++ c.toList ++ d.toList ++ e.toList ++ f.toList := by
    simp only [String.toList_append]
  exact hsplit ..

theorem header_clean : headings header = [] ∧ header.all (· ≠ '2') = true := by
  rw [header_split]
  decide +kernel

theorem header_whole : Whole header := by
  have hends : "---\n\n".toList = "---\n".toList ++ ['\n'] := rfl
  rw [header_split, hends, ← List.append_assoc]
  exact .inr ⟨_, rfl⟩

theorem header_plain : '2' ∉ header := by
  intro hmem
  have htwo := List.all_eq_true.mp header_clean.2 '2' hmem
  simp at htwo

/-- Opening makes the header of a new file and changes no other. -/
theorem create_text (path : Str) (s : Journal) :
    ((historyCreate s.fs (some path)).2 path).getD [] =
      if (s.fs path).isSome then s.text path else header := by
  change (ensureFile s.fs path path).getD [] = _
  unfold ensureFile
  split
  · rfl
  · rw [Fs.write_self]
    exact Option.getD_some

theorem create_lastDate (path : Str) (s : Journal) : (historyCreate s.fs (some path)).1.lastDate =
    detectLastDate (((historyCreate s.fs (some path)).2 path).getD []) := by
  unfold historyCreate
  dsimp only [Option.getD_some]

theorem log_text {path : Str} (s : Journal) {h : History} (hpath : h.path = path) (category : Int)
    (title : Str) (details : Option Str) (date ts : Str) :
    (((historyLog h s.fs category (some title) details date ts).2) path).getD [] =
      s.text path ++ ((if date = h.lastDate then [] else headingText date) ++
        entryBody category title (details.getD []) ts) := by
  change ((s.fs.append h.path
    (entryText h.lastDate category title (details.getD []) date ts)) path).getD [] = _
  rw [hpath, Fs.append, Fs.write_self, entryText_eq]
  rfl

/-- An entry is grouped exactly if the handle's date and the last heading agree on its
date. -/
theorem grouped_iff {text : Str} (hwhole : Whole text) (hchain : (headings text).IsChain (· ≠ ·))
    {date title ts : Str} (hdate : '\n' ∉ date) (htitle : '\n' ∉ title) (hts : '\n' ∉ ts) (lastDate : Str)
    (category : Int) (details : Str) {t : Str}
    (ht : t = text ++ ((if date = lastDate then [] else headingText date) ++
      entryBody category title details ts)) :
    ((∃ pre, t = pre ++ entryBody category title details ts ∧ (headings pre).getLast? = some date) ∧
      (headings t).IsChain (· ≠ ·)) ↔ (date = lastDate ↔ (headings text).getLast? = some date) := by
  have hpre : (∃ pre, t = pre ++ entryBody category title details ts ∧ (headings pre).getLast? = some date) ↔
      (headings (text ++ if date = lastDate then [] else headingText date)).getLast? = some date := by
    rw [ht, ← List.append_assoc]
    constructor
    · intro h
      obtain ⟨pre, heq, hlast⟩ := h
      rw [List.append_cancel_right heq]
      exact hlast
    · exact fun h => ⟨_, rfl, h⟩
  have hfront : Whole (if date = lastDate then [] else headingText date) := by
    split
    · exact .inl rfl
    · exact headingText_whole date
  rw [hpre, ht, headings_append hwhole, headings_append hwhole, headings_append hfront,
    headings_body htitle hts, List.append_nil]
  by_cases hsame : date = lastDate
  · have hnone : headings [] = [] := rfl
    rw [if_pos hsame, hnone, List.append_nil]
    simp only [hsame, hchain, and_true, true_iff]
  · rw [if_neg hsame, headings_heading hdate, List.getLast?_concat]
    simp only [hsame, true_and, false_iff]
    rw [List.isChain_append]
    constructor
    · intro h hlast
      exact h.2.2 date hlast date rfl rfl
    · intro hne
      refine ⟨hchain, List.isChain_singleton date, ?_⟩
      intro x hx y hy heq
      obtain rfl : date = y := Option.mem_some_iff.mp hy
      exact hne (heq ▸ hx)

section Steps
variable {path : Str} {s t : Journal} {c : Call} (h : Tidy path s)
include h

/-- A step is grouped exactly if it finds what it should. -/
theorem grouped_step_iff (hs : Use path s c t) : Grouped path t c ↔ Found path s c := by
  cases hs with
  | create =>
    refine iff_of_true ?_ trivial
    change (headings (((historyCreate s.fs (some path)).2 path).getD [])).IsChain (· ≠ ·)
    rw [create_text]
    split
    · exact h.chain
    · rw [header_clean.1]
      exact .nil
  | log handle category title details date ts hhandle single dated stamp =>
    cases title with
    | none => exact iff_of_true h.chain trivial
    | some title =>
      have htext := log_text s (h.path handle hhandle) category title details date ts
      refine (grouped_iff h.whole h.chain dated.single (single title rfl) stamp handle.lastDate category
        (details.getD []) htext).trans ?_
      unfold Found
      cases hfresh : s.fresh with
      | true =>
        have hfound := h.found handle hhandle hfresh
        rw [hfound, eq_comm, detect_iff dated.nonempty]
        simp only [true_implies]
      | false =>
        have hknown := h.known handle hhandle hfresh
        refine iff_of_true ?_ (fun h => by cases h)
        rw [hknown, Option.some_inj, eq_comm]
  | destroy => exact iff_of_true h.chain trivial

theorem tidy_step (hs : Use path s c t) (hgrouped : Grouped path t c) : Tidy path t := by
  cases hs with
  | create =>
    refine ⟨?_, hgrouped, ?_, ?_, ?_⟩
    · unfold Journal.text
      rw [create_text]
      split
      · exact h.whole
      · exact header_whole
    · intro handle hhandle
      cases hhandle
      rfl
    · intro handle hhandle hfresh
      cases hfresh
    · intro handle hhandle _
      cases hhandle
      exact create_lastDate path s
  | log handle category title details date ts hhandle single dated stamp =>
    cases title with
    | none =>
      refine ⟨h.whole, h.chain, ?_, ?_, ?_⟩
      · intro g hg
        cases hg
        exact h.path handle hhandle
      · intro g hg hfresh
        cases hg
        exact h.known handle hhandle (by simpa using hfresh)
      · intro g hg hfresh
        cases hg
        exact h.found handle hhandle (by simpa using hfresh)
    | some title =>
      have htext := log_text s (h.path handle hhandle) category title details date ts
      have hfront : Whole (if date = handle.lastDate then [] else headingText date) := by
        split
        · exact .inl rfl
        · exact headingText_whole date
      have hbody := entryBody_whole category title (details.getD []) ts
      have hdate : (historyLog handle s.fs category (some title) details date ts).1.lastDate = date := by
        change (if date = handle.lastDate then handle.lastDate else date.take 15) = date
        split
        · rename_i hsame
          exact hsame.symm
        · exact List.take_of_length_le dated.fits
      obtain ⟨⟨pre, hpre, hlast⟩, hchain⟩ := hgrouped
      have hsplit : pre = s.text path ++ if date = handle.lastDate then [] else headingText date := by
        apply List.append_cancel_right
        rw [← hpre, List.append_assoc]
        exact htext
      have hwhole : Whole pre := by
        rw [hsplit]
        exact whole_append h.whole hfront
      refine ⟨?_, hchain, ?_, ?_, ?_⟩
      · rw [hpre]
        exact whole_append hwhole hbody
      · intro g hg
        cases hg
        exact h.path handle hhandle
      · intro g hg _
        cases hg
        rw [hpre, headings_append hwhole, headings_body (single title rfl) stamp, List.append_nil, hlast,
          hdate]
      · intro g hg hfresh
        simp at hfresh
  | destroy =>
    refine ⟨h.whole, h.chain, ?_, ?_, ?_⟩
    all_goals
      intro handle hhandle
      cases hhandle

end Steps

/-- Every step of the uses of a new file is grouped if and only if every first entry behind
an opening finds what it should. -/
theorem history_grouped_iff {path : Str} {fs : Fs} (hnew : fs path = none) (calls : List Call)
    (t : Journal) :
    Run (fun s c t => Use path s c t ∧ Grouped path t c) ⟨fs, none, false⟩ calls t ↔
      Run (Guarded (Use path) (Found path)) ⟨fs, none, false⟩ calls t := by
  have htext : Journal.text path ⟨fs, none, false⟩ = [] := by
    change (fs path).getD [] = []
    rw [hnew]
    rfl
  have hstart : Tidy path ⟨fs, none, false⟩ := by
    refine ⟨?_, ?_, ?_, ?_, ?_⟩
    · exact .inl htext
    · rw [htext]
      exact .nil
    all_goals
      intro handle hhandle
      cases hhandle
  exact Run.kept_iff hstart (fun s c t h hs hgrouped => tidy_step h hs hgrouped)
    (fun s c t h hs => grouped_step_iff h hs)

def noFile : Journal := ⟨fun _ => none, none, false⟩

def newFile : Journal :=
  ⟨(historyCreate noFile.fs (some "h".toList)).2,
    some (historyCreate noFile.fs (some "h".toList)).1, true⟩

theorem newFile_text : ((historyCreate noFile.fs (some "h".toList)).2 "h".toList).getD [] = header :=
  (create_text "h".toList noFile).trans (if_neg (by decide))

theorem header_unseen (date : Str) : ¬ Seen header date :=
  not_seen (c := '2') (by decide) (fun h => header_plain (List.mem_of_mem_drop h))

def june : Str := "2025-06-01".toList

theorem june_date : IsDate june := ⟨by decide, by decide, by decide⟩

/-- An entry, the file closed and opened again, and another entry on the same day. -/
def reopened (details : Option Str) (date : Str) : List Call :=
  [.create, .log 0 (some "t".toList) details date "10:00:00".toList, .destroy, .create,
    .log 0 (some "u".toList) none date "13:00:00".toList]

def afterFirst (details : Option Str) (date : Str) : Fs :=
  (historyLog (historyCreate noFile.fs (some "h".toList)).1 newFile.fs 0 (some "t".toList) details date
    "10:00:00".toList).2

def firstText (details : Option Str) (date : Str) : Str :=
  header ++ (headingText date ++ entryBody 0 "t".toList (details.getD []) "10:00:00".toList)

/-- The first entry behind an opening whose date is not found writes a heading. -/
theorem unseen_text {path : Str} {s : Journal} {date : Str} (hdate : date ≠ []) {text : Str}
    (htext : ((historyCreate s.fs (some path)).2 path).getD [] = text) (hlost : ¬ Seen text date)
    (category : Int) (title : Str) (details : Option Str) (ts : Str) :
    (((historyLog (historyCreate s.fs (some path)).1 (historyCreate s.fs (some path)).2 category
      (some title) details date ts).2) path).getD [] =
        text ++ (headingText date ++ entryBody category title (details.getD []) ts) := by
  have hlast : date ≠ (historyCreate s.fs (some path)).1.lastDate := by
    rw [create_lastDate, htext]
    exact fun h => hlost ((detect_iff hdate text).mp h.symm)
  have hpath : (historyCreate s.fs (some path)).1.path = path := rfl
  have hlog := log_text ⟨(historyCreate s.fs (some path)).2, none, false⟩ hpath category title details
    date ts
  rw [if_neg hlast, Journal.text, htext] at hlog
  exact hlog

theorem firstText_headings {date : Str} {details : Option Str} (h : IsDate date) :
    headings (firstText details date) = [date] := by
  rw [firstText, headings_append header_whole, header_clean.1,
    headings_append (headingText_whole date), headings_heading h.single,
    headings_body (by decide) (by decide)]
  rfl

/-- An entry whose date is not found again gets a second heading. -/
theorem reopened_headings {date : Str} {details : Option Str} (h : IsDate date)
    (hlost : ¬ Seen (firstText details date) date) :
    ∃ t, Run (Use "h".toList) noFile (reopened details date) t ∧
      headings (t.text "h".toList) = [date, date] := by
  have hfirst : ∀ t ∈ some "t".toList, '\n' ∉ t := by decide
  have hsecond : ∀ t ∈ some "u".toList, '\n' ∉ t := by decide
  have htext : (afterFirst details date "h".toList).getD [] = firstText details date :=
    unseen_text (s := noFile) h.nonempty newFile_text (header_unseen date) 0 "t".toList details
      "10:00:00".toList
  have hagain : ((historyCreate (afterFirst details date) (some "h".toList)).2 "h".toList).getD [] =
      firstText details date := by
    rw [create_text "h".toList ⟨afterFirst details date, none, false⟩]
    exact htext
  have hlast := unseen_text (s := ⟨afterFirst details date, none, false⟩) h.nonempty hagain hlost 0
    "u".toList none "13:00:00".toList
  refine ⟨_, .cons .create (.cons (.log _ _ _ _ _ _ rfl hfirst h (by decide)) (.cons .destroy
    (.cons .create (.single (.log _ _ _ _ _ _ rfl hsecond h (by decide)))))), ?_⟩
  refine (congrArg headings hlast).trans ?_
  have hwhole : Whole (firstText details date) := whole_append header_whole
    (whole_append (headingText_whole date) (entryBody_whole _ _ _ _))
  rw [headings_append hwhole, headings_append (headingText_whole date), headings_heading h.single,
    headings_body (by decide) (by decide), firstText_headings h]
  rfl

/-- The second entry of the day finds the heading of the first in the file opened again. -/
theorem reopened_grouped : ∃ t,
    Run (fun s c t => Use "h".toList s c t ∧ Grouped "h".toList t c) noFile (reopened none june) t := by
  have hfirst : ∀ t ∈ some "t".toList, '\n' ∉ t := by decide
  have hsecond : ∀ t ∈ some "u".toList, '\n' ∉ t := by decide
  have hempty : Found "h".toList newFile (.log 0 (some "t".toList) none june "10:00:00".toList) := by
    intro _
    have htext : newFile.text "h".toList = header := newFile_text
    rw [htext, header_clean.1]
    exact iff_of_false (header_unseen june) (by decide)
  have htext : (afterFirst none june "h".toList).getD [] = firstText none june :=
    unseen_text (s := noFile) june_date.nonempty newFile_text (header_unseen june) 0 "t".toList none
      "10:00:00".toList
  have hagain : ((historyCreate (afterFirst none june) (some "h".toList)).2 "h".toList).getD [] =
      firstText none june := by
    rw [create_text "h".toList ⟨afterFirst none june, none, false⟩]
    exact htext
  have hseen : Seen (firstText none june) june :=
    (detect_iff june_date.nonempty _).mp (by decide +kernel)
  have hfound : Found "h".toList
      ⟨(historyCreate (afterFirst none june) (some "h".toList)).2,
        some (historyCreate (afterFirst none june) (some "h".toList)).1, true⟩
      (.log 0 (some "u".toList) none june "13:00:00".toList) := by
    intro _
    change Seen (((historyCreate (afterFirst none june) (some "h".toList)).2 "h".toList).getD []) june ↔
      (headings (((historyCreate (afterFirst none june) (some "h".toList)).2 "h".toList).getD [])).getLast? = _
    rw [hagain, firstText_headings june_date]
    exact iff_of_true hseen rfl
  have hrun : ∃ t, Run (Guarded (Use "h".toList) (Found "h".toList)) noFile (reopened none june) t :=
    ⟨_, .cons ⟨trivial, .create⟩ (.cons ⟨hempty, .log _ _ _ _ _ _ rfl hfirst june_date (by decide)⟩
      (.cons ⟨trivial, .destroy⟩ (.cons ⟨trivial, .create⟩
        (.single ⟨hfound, .log _ _ _ _ _ _ rfl hsecond june_date (by decide)⟩))))⟩
  obtain ⟨t, ht⟩ := hrun
  exact ⟨t, (history_grouped_iff rfl _ t).mpr ht⟩

theorem bullet_replicate (n : Nat) : (lines (List.replicate (n + 1) 'x')).flatMap detailBullet =
    "- ".toList ++ (List.replicate (n + 1) 'x' ++ ['\n']) := by
  have hx : ∀ c ∈ List.replicate (n + 1) 'x', c ≠ '\n' := by
    intro c hc
    rw [List.eq_of_mem_replicate hc]
    decide
  have hone : lines (List.replicate (n + 1) 'x') = [List.replicate (n + 1) 'x'] :=
    lines_last _ (by simp) (fun h => hx _ h rfl)
  have hbody : (List.replicate (n + 1) 'x').takeWhile (fun c => c ≠ '\n') = List.replicate (n + 1) 'x' :=
    List.takeWhile_eq_self_iff.mpr (fun c hc => decide_eq_true (hx c hc))
  rw [hone, List.flatMap_cons, List.flatMap_nil, List.append_nil, detailBullet, hbody, List.replicate_succ,
    ← List.append_assoc]
  rfl

def longDetails (n : Nat) : Str := List.replicate (n + 1) 'x'

/-- A detail that fills the last 4096 bytes leaves no heading among them. -/
theorem firstText_long {n : Nat} (h : 4096 ≤ n + 1) (date : Str) :
    '#' ∉ (firstText (some (longDetails n)) date).drop
      ((firstText (some (longDetails n)) date).length - 4096) := by
  have hgroup (a b c d e f : Str) :
      a ++ (b ++ (c ++ (d ++ (e ++ f)) ++ f)) = (a ++ b ++ c ++ d) ++ (e ++ (f ++ f)) := by
    simp only [List.append_assoc]
  obtain ⟨pre, hpre⟩ : ∃ pre, firstText (some (longDetails n)) date =
      pre ++ (longDetails n ++ (['\n'] ++ ['\n'])) := by
    have hbullets : (lines (longDetails n)).flatMap detailBullet =
        "- ".toList ++ (longDetails n ++ ['\n']) := bullet_replicate n
    obtain ⟨front, hfront⟩ : ∃ front, ∀ details, entryBody 0 "t".toList details "10:00:00".toList =
        front ++ (lines details).flatMap detailBullet ++ ['\n'] := ⟨_, fun _ => rfl⟩
    refine ⟨header ++ headingText date ++ front ++ "- ".toList, ?_⟩
    rw [firstText, Option.getD_some, hfront, hbullets]
    exact hgroup ..
  have hbehind : pre.length ≤ (pre ++ (longDetails n ++ (['\n'] ++ ['\n']))).length - 4096 := by
    simp only [longDetails, List.length_append, List.length_replicate]
    omega
  rw [hpre, List.drop_append, List.drop_eq_nil_of_le hbehind, List.nil_append]
  intro hmem
  have hend := List.mem_of_mem_drop hmem
  simp [longDetails] at hend

/-- Behind a long entry, and on any day before the year 2000, the date is not found again
and its heading is written twice. -/
theorem heading_twice :
    (∃ t, Run (Use "h".toList) noFile (reopened (some (longDetails 4095)) june) t ∧
      headings (t.text "h".toList) = [june, june]) ∧
    ∃ t, Run (Use "h".toList) noFile (reopened none "1970-01-01".toList) t ∧
      headings (t.text "h".toList) = ["1970-01-01".toList, "1970-01-01".toList] := by
  have hepoch : IsDate "1970-01-01".toList := ⟨by decide, by decide, by decide⟩
  refine ⟨reopened_headings june_date (not_seen (c := '#') (by decide) ?_),
    reopened_headings hepoch (not_seen (c := '2') (by decide) ?_)⟩
  · exact firstText_long (Nat.le_refl 4096) june
  · intro hmem
    rcases List.mem_append.mp (List.mem_of_mem_drop hmem) with h | h
    · exact header_plain h
    · have hentry : (headingText "1970-01-01".toList ++
          entryBody 0 "t".toList [] "10:00:00".toList).all (· ≠ '2') = true := by decide +kernel
      have htwo := List.all_eq_true.mp hentry '2' h
      simp at htwo

end Dobby.History
