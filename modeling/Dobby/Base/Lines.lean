import Dobby.Base.CString

namespace Dobby.Lines

/-- The lines of a text, each with its newline. Only the last may lack one. -/
def lines : Str → List Str
  | [] => []
  | c :: cs =>
    if c = '\n' then ['\n'] :: lines cs
    else match lines cs with
      | [] => [[c]]
      | l :: ls => (c :: l) :: ls

def Terminated (line : Str) : Prop := ∃ body, line = body ++ ['\n'] ∧ '\n' ∉ body

theorem lines_flatten (s : Str) : (lines s).flatten = s := by
  induction s with
  | nil => rfl
  | cons c cs ih =>
    rw [lines]
    split
    · rename_i h
      simp [h, ih]
    · cases hl : lines cs with
      | nil =>
        rw [hl] at ih
        simp [← ih]
      | cons l ls =>
        rw [hl] at ih
        simp [← ih]

theorem lines_body (body rest : Str) (h : '\n' ∉ body) :
    lines (body ++ '\n' :: rest) = (body ++ ['\n']) :: lines rest := by
  induction body with
  | nil => simp [lines]
  | cons c cs ih =>
    obtain ⟨hc, hcs⟩ := List.ne_and_not_mem_of_not_mem_cons h
    rw [List.cons_append, lines, if_neg (Ne.symm hc), ih hcs]
    rfl

theorem lines_head {c : Char} (hc : c ≠ '\n') (s : Str) :
    ∃ (l : Str) (ls : List Str), lines (c :: s) = (c :: l) :: ls := by
  rw [lines, if_neg hc]
  cases lines s with
  | nil => exact ⟨[], [], rfl⟩
  | cons l ls => exact ⟨l, ls, rfl⟩

theorem lines_cons_drop {c : Char} (hc : c ≠ '\n') (s : Str) (n : Nat) :
    (lines (c :: s)).drop (n + 1) = (lines s).drop (n + 1) := by
  rw [lines, if_neg hc]
  cases lines s with
  | nil => simp
  | cons l ls => rfl

/-- A text without a newline starts a text if it starts its first line. -/
theorem prefix_lines_head {w : Str} (hw : '\n' ∉ w) (s : Str) :
    w <+: s ↔ w <+: (lines s).headD [] := by
  induction w generalizing s with
  | nil => simp
  | cons d ds ih =>
    obtain ⟨hd, hds⟩ := List.ne_and_not_mem_of_not_mem_cons hw
    cases s with
    | nil => rfl
    | cons c cs =>
      by_cases hc : c = '\n'
      · subst hc
        rw [lines, if_pos rfl, List.headD_cons, List.cons_prefix_cons, List.cons_prefix_cons]
        exact iff_of_false (fun h => hd h.1.symm) (fun h => hd h.1.symm)
      · have hhead : (lines (c :: cs)).headD [] = c :: (lines cs).headD [] := by
          rw [lines, if_neg hc]
          cases lines cs with
          | nil => rfl
          | cons l ls => rfl
        rw [hhead, List.cons_prefix_cons, List.cons_prefix_cons, ih hds]

theorem lines_last (body : Str) (hne : body ≠ []) (h : '\n' ∉ body) : lines body = [body] := by
  induction body with
  | nil => exact absurd rfl hne
  | cons c cs ih =>
    obtain ⟨hc, hcs⟩ := List.ne_and_not_mem_of_not_mem_cons h
    rw [lines, if_neg (Ne.symm hc)]
    cases cs with
    | nil => rfl
    | cons d ds =>
      rw [ih (List.cons_ne_nil d ds) hcs]

theorem lines_terminated {line : Str} (h : Terminated line) (rest : Str) :
    lines (line ++ rest) = line :: lines rest := by
  obtain ⟨body, rfl, hbody⟩ := h
  rw [List.append_assoc]
  exact lines_body body rest hbody

/-- Terminated lines that are put together are the lines of the text. -/
theorem lines_join {ls : List Str} (h : ∀ l ∈ ls, Terminated l) (rest : Str) :
    lines (ls.flatten ++ rest) = ls ++ lines rest := by
  induction ls with
  | nil => rfl
  | cons l ls ih =>
    rw [List.flatten_cons, List.append_assoc, lines_terminated (h l List.mem_cons_self),
      ih (fun m hm => h m (List.mem_cons_of_mem l hm))]
    rfl

/-- A text is some terminated lines and perhaps a rest without a newline. -/
theorem lines_cases (s : Str) :
    ∃ (ls : List Str) (rest : Str),
      s = ls.flatten ++ rest ∧ (∀ l ∈ ls, Terminated l) ∧ '\n' ∉ rest := by
  induction s with
  | nil => exact ⟨[], [], rfl, fun _ h => absurd h List.not_mem_nil, List.not_mem_nil⟩
  | cons c cs ih =>
    obtain ⟨ls, rest, rfl, hls, hrest⟩ := ih
    by_cases hc : c = '\n'
    · subst hc
      refine ⟨['\n'] :: ls, rest, rfl, ?_, hrest⟩
      intro l hl
      rcases List.mem_cons.mp hl with rfl | hl
      · exact ⟨[], rfl, List.not_mem_nil⟩
      · exact hls l hl
    · cases ls with
      | nil => exact ⟨[], c :: rest, rfl, hls, List.not_mem_cons_of_ne_of_not_mem (Ne.symm hc) hrest⟩
      | cons l ls =>
        obtain ⟨body, rfl, hbody⟩ := hls l List.mem_cons_self
        refine ⟨(c :: body ++ ['\n']) :: ls, rest, by simp, ?_, hrest⟩
        intro m hm
        rcases List.mem_cons.mp hm with rfl | hm
        · exact ⟨c :: body, rfl, List.not_mem_cons_of_ne_of_not_mem (Ne.symm hc) hbody⟩
        · exact hls m (List.mem_cons_of_mem _ hm)

/-- The lines of a text that starts with some whole lines. -/
theorem lines_cut (s rest : Str) :
    lines (s ++ '\n' :: rest) = lines (s ++ ['\n']) ++ lines rest := by
  obtain ⟨ls, last, rfl, hls, hlast⟩ := lines_cases s
  rw [List.append_assoc, List.append_assoc, lines_join hls, lines_join hls, lines_body _ _ hlast,
    lines_body _ _ hlast, List.append_assoc]
  rfl

/-- A text before a text that goes on in its last line. -/
theorem lines_glue {last l s : Str} {ls : List Str} (hlast : '\n' ∉ last)
    (h : lines s = l :: ls) : lines (last ++ s) = (last ++ l) :: ls := by
  induction last with
  | nil => exact h
  | cons c cs ih =>
    obtain ⟨hc, hcs⟩ := List.ne_and_not_mem_of_not_mem_cons hlast
    rw [List.cons_append, lines, if_neg (Ne.symm hc), ih hcs]
    rfl

/-- What the lines of a text look like. -/
inductive Lined : List Str → Prop where
  | nil : Lined []
  | last (body : Str) (nonempty : body ≠ []) (unended : '\n' ∉ body) : Lined [body]
  | cons (line : Str) (ls : List Str) (ended : Terminated line) (rest : Lined ls) :
    Lined (line :: ls)

theorem lines_lined (s : Str) : Lined (lines s) := by
  obtain ⟨ls, rest, rfl, hls, hrest⟩ := lines_cases s
  rw [lines_join hls]
  induction ls with
  | nil =>
    by_cases hne : rest = []
    · rw [hne]
      exact .nil
    · rw [lines_last rest hne hrest]
      exact .last rest hne hrest
  | cons l ls ih =>
    exact .cons l _ (hls l List.mem_cons_self) (ih (fun m hm => hls m (List.mem_cons_of_mem l hm)))

/-- A newline stands at most at the end of a line. -/
theorem lines_dropLast {s line : Str} (h : line ∈ lines s) : '\n' ∉ line.dropLast := by
  have hlined := lines_lined s
  generalize lines s = ls at h hlined
  induction hlined with
  | nil => exact absurd h List.not_mem_nil
  | last body nonempty unended =>
    rw [List.mem_singleton.mp h]
    exact fun hmem => unended (List.dropLast_subset body hmem)
  | cons l ls ended rest ih =>
    rcases List.mem_cons.mp h with rfl | h
    · obtain ⟨body, rfl, hbody⟩ := ended
      rwa [List.dropLast_concat]
    · exact ih h

/-- The rest of a text as `fgets` with a buffer of this size reads it, part of a
read done. -/
def fgetsFrom (size : Nat) : Str → Str → List Str
  | [], [] => []
  | got, [] => [got]
  | got, c :: cs =>
    if c = '\n' ∨ size ≤ got.length + 2 then (got ++ [c]) :: fgetsFrom size [] cs
    else fgetsFrom size (got ++ [c]) cs

/-- The strings that `fgets` with a buffer of this size reads one after the other. -/
def fgetsAll (size : Nat) (s : Str) : List Str := fgetsFrom size [] s

/-- A text that is made of whole lines. -/
def Whole (s : Str) : Prop := s = [] ∨ ∃ t, s = t ++ ['\n']

theorem fgetsFrom_line {size : Nat} {body : Str} (hbody : '\n' ∉ body) (got : Str)
    (hlen : got.length + body.length + 1 < size) :
    fgetsFrom size got (body ++ ['\n']) = [got ++ body ++ ['\n']] := by
  induction body generalizing got with
  | nil =>
    rw [List.nil_append, fgetsFrom, if_pos (.inl rfl), List.append_nil]
    rfl
  | cons c cs ih =>
    obtain ⟨hc, hcs⟩ := List.ne_and_not_mem_of_not_mem_cons hbody
    rw [List.length_cons] at hlen
    have hstop : ¬(c = '\n' ∨ size ≤ got.length + 2) := by
      rintro (h | h)
      · exact hc h.symm
      · omega
    rw [List.cons_append, fgetsFrom, if_neg hstop, ih hcs, List.append_assoc got]
    · rfl
    · rw [List.length_append, List.length_singleton]
      omega

/-- A line that fits the buffer is read in one piece. -/
theorem fgetsFrom_flatten (size : Nat) (got s : Str) : (fgetsFrom size got s).flatten = got ++ s := by
  induction s generalizing got with
  | nil =>
    cases got with
    | nil => rfl
    | cons c cs =>
      rw [fgetsFrom]
      · simp
      · simp
  | cons c cs ih =>
    rw [fgetsFrom]
    split
    · rw [List.flatten_cons, ih]
      simp
    · rw [ih]
      simp

theorem fgetsAll_line {size : Nat} {body : Str} (hbody : '\n' ∉ body) (hlen : body.length + 1 < size) :
    fgetsAll size (body ++ ['\n']) = [body ++ ['\n']] :=
  fgetsFrom_line hbody [] (by simpa using hlen)

theorem fgetsFrom_cut (size : Nat) (got s rest : Str) :
    fgetsFrom size got (s ++ '\n' :: rest) =
      fgetsFrom size got (s ++ ['\n']) ++ fgetsFrom size [] rest := by
  induction s generalizing got with
  | nil => cases got <;> simp [fgetsFrom]
  | cons c cs ih =>
    rw [List.cons_append, List.cons_append, fgetsFrom, fgetsFrom]
    split
    · rw [ih, List.cons_append]
    · exact ih _

theorem fgetsAll_append (size : Nat) {s rest : Str} (h : Whole s ∨ rest = []) :
    fgetsAll size (s ++ rest) = fgetsAll size s ++ fgetsAll size rest := by
  rcases h with (rfl | ⟨t, rfl⟩) | rfl
  · rfl
  · rw [List.append_assoc]
    exact fgetsFrom_cut size [] t rest
  · rw [List.append_nil]
    exact (List.append_nil _).symm

theorem fgetsFrom_last {size : Nat} {body : Str} (hbody : '\n' ∉ body) (got : Str)
    (hne : got ++ body ≠ []) (hlen : got.length + body.length < size) :
    fgetsFrom size got body = [got ++ body] := by
  induction body generalizing got with
  | nil =>
    rw [List.append_nil] at hne ⊢
    cases got with
    | nil => exact absurd rfl hne
    | cons d ds => rfl
  | cons c cs ih =>
    obtain ⟨hc, hcs⟩ := List.ne_and_not_mem_of_not_mem_cons hbody
    rw [List.length_cons] at hlen
    by_cases hlast : size ≤ got.length + 2
    · have hnil : cs = [] := List.eq_nil_of_length_eq_zero (by omega)
      rw [hnil, fgetsFrom, if_pos (.inr hlast), fgetsFrom]
    · have hstop : ¬(c = '\n' ∨ size ≤ got.length + 2) := by
        rintro (h | h)
        · exact hc h.symm
        · exact hlast h
      rw [fgetsFrom, if_neg hstop, ih hcs]
      · rw [List.append_assoc]
        rfl
      · simp
      · rw [List.length_append, List.length_singleton]
        omega

/-- Lines that fit the buffer are read one by one. -/
theorem fgetsAll_lines {size : Nat} {s : Str} (h : ∀ line ∈ lines s, line.length < size) :
    fgetsAll size s = lines s := by
  obtain ⟨ls, rest, rfl, hls, hrest⟩ := lines_cases s
  rw [lines_join hls] at h ⊢
  induction ls with
  | nil =>
    by_cases hne : rest = []
    · rw [hne]
      rfl
    · rw [lines_last rest hne hrest] at h ⊢
      have hlen := h rest (List.mem_append_right _ (List.mem_singleton_self rest))
      exact fgetsFrom_last hrest [] hne (by simpa using hlen)
  | cons l ls ih =>
    obtain ⟨body, hl, hbody⟩ := hls l List.mem_cons_self
    have hlen : l.length < size := h l List.mem_cons_self
    have hwhole : Whole l := .inr ⟨body, hl⟩
    rw [List.flatten_cons, List.append_assoc, fgetsAll_append size (.inl hwhole),
      ih (fun m hm => h m (List.mem_cons_of_mem l hm)) (fun m hm => hls m (List.mem_cons_of_mem l hm)), hl,
      fgetsAll_line hbody (by simpa [hl] using hlen)]
    rfl

/-- The whole lines of a text and what follows the last newline. -/
def lastLine (s : Str) : Str × Str :=
  ((s.reverse.dropWhile (fun c => c ≠ '\n')).reverse,
    (s.reverse.takeWhile (fun c => c ≠ '\n')).reverse)

theorem lastLine_append (s : Str) : (lastLine s).1 ++ (lastLine s).2 = s := by
  rw [lastLine, ← List.reverse_append, List.takeWhile_append_dropWhile, List.reverse_reverse]

theorem lastLine_whole (s : Str) : Whole (lastLine s).1 := by
  rw [lastLine]
  cases h : s.reverse.dropWhile (fun c => c ≠ '\n') with
  | nil => exact Or.inl rfl
  | cons c cs =>
    have hc := List.head_dropWhile_not (fun c => decide (c ≠ '\n'))
      (by rw [h]; exact List.cons_ne_nil c cs)
    simp only [h, List.head_cons, decide_eq_false_iff_not, not_not] at hc
    exact Or.inr ⟨cs.reverse, by rw [hc, List.reverse_cons]⟩

theorem Lined.lines_eq {ls : List Str} (h : Lined ls) : lines ls.flatten = ls := by
  induction h with
  | nil => rfl
  | last body nonempty unended => simpa using lines_last body nonempty unended
  | cons line ls ended rest ih => rw [List.flatten_cons, lines_terminated ended, ih]

theorem Lined.line {line : Str} {ls : List Str} (h : Lined (line :: ls)) : Whole line ∨ ls = [] := by
  cases h with
  | last => exact .inr rfl
  | cons _ _ ended => exact .inl (.inr (ended.imp fun _ hb => hb.1))

theorem Lined.tail {line : Str} {ls : List Str} (h : Lined (line :: ls)) : Lined ls := by
  cases h with
  | last => exact .nil
  | cons _ _ _ rest => exact rest

theorem Lined.behind {before behind : List Str} (h : Lined (before ++ behind)) : Lined behind := by
  induction before with
  | nil => exact h
  | cons l ls ih => exact ih h.tail

theorem Lined.front {before behind : List Str} (h : Lined (before ++ behind)) : Lined before := by
  induction before with
  | nil => exact .nil
  | cons l ls ih =>
    rw [List.cons_append] at h
    generalize hrest : ls ++ behind = rest at h
    cases h with
    | last body nonempty unended =>
      rw [(List.append_eq_nil_iff.mp hrest).1]
      exact .last l nonempty unended
    | cons line rest ended lined =>
      subst hrest
      exact .cons l ls ended (ih lined)

theorem Whole.append {s t : Str} (hs : Whole s) (ht : Whole t) : Whole (s ++ t) := by
  rcases ht with rfl | ⟨u, rfl⟩
  · rwa [List.append_nil]
  · exact .inr ⟨s ++ u, (List.append_assoc ..).symm⟩

theorem Lined.whole {before behind : List Str} (h : Lined (before ++ behind)) (hne : behind ≠ []) :
    Whole before.flatten := by
  induction before with
  | nil => exact .inl rfl
  | cons l ls ih =>
    rcases h.line with hl | hnil
    · exact hl.append (ih h.tail)
    · exact absurd (List.append_eq_nil_iff.mp hnil).2 hne

/-- The rest of a line with the lines behind it. -/
theorem Lined.cut {q t : Str} {ls : List Str} (h : Lined ((q ++ t) :: ls)) (ht : t ≠ []) :
    '\n' ∉ q ∧ Lined (t :: ls) := by
  generalize hline : q ++ t = line at h
  cases h with
  | last body nonempty unended =>
    subst hline
    simp only [List.mem_append, not_or] at unended
    exact ⟨unended.1, .last t ht unended.2⟩
  | cons line rest ended lined =>
    obtain ⟨body, rfl, hbody⟩ := ended
    rcases List.eq_nil_or_concat t with rfl | ⟨t', c, rfl⟩
    · exact absurd rfl ht
    · rw [List.concat_eq_append, ← List.append_assoc] at hline
      obtain ⟨rfl, hc⟩ := List.append_inj' hline rfl
      simp only [List.mem_append, not_or] at hbody
      cases hc
      exact ⟨hbody.1, .cons _ _ ⟨t', List.concat_eq_append, hbody.2⟩ lined⟩

theorem Lined.fgetsAll {ls : List Str} (h : Lined ls) (size : Nat) :
    fgetsAll size ls.flatten = ls.flatMap (fgetsAll size) := by
  induction h with
  | nil => rfl
  | last body nonempty unended => simp
  | cons line ls ended rest ih =>
    have hwhole : Whole line := .inr (ended.imp fun _ hb => hb.1)
    rw [List.flatten_cons, fgetsAll_append size (.inl hwhole), ih, List.flatMap_cons]

/-- A text that does not end a line is read in the same pieces whatever follows, up to a piece begun. -/
theorem fgetsFrom_unended {size : Nat} (hsize : 1 < size) {s : Str} (hs : '\n' ∉ s) (got : Str)
    (hgot : got.length + 1 < size) : ∃ pieces last, last.length + 1 < size ∧
      ∀ rest, fgetsFrom size got (s ++ rest) = pieces ++ fgetsFrom size last rest := by
  induction s generalizing got with
  | nil => exact ⟨[], got, hgot, fun _ => rfl⟩
  | cons c cs ih =>
    obtain ⟨hc, hcs⟩ := List.ne_and_not_mem_of_not_mem_cons hs
    by_cases hfull : size ≤ got.length + 2
    · obtain ⟨pieces, last, hlast, hread⟩ := ih hcs [] hsize
      refine ⟨(got ++ [c]) :: pieces, last, hlast, fun rest => ?_⟩
      rw [List.cons_append, fgetsFrom, if_pos (.inr hfull), hread, List.cons_append]
    · obtain ⟨pieces, last, hlast, hread⟩ := ih hcs (got ++ [c]) (by
        rw [List.length_append, List.length_singleton]
        omega)
      refine ⟨pieces, last, hlast, fun rest => ?_⟩
      have hgo : ¬(c = '\n' ∨ size ≤ got.length + 2) := by
        rintro (h | h)
        · exact hc h.symm
        · exact hfull h
      rw [List.cons_append, fgetsFrom, if_neg hgo, hread]

/-- The first piece starts with what was read of it. -/
theorem fgetsFrom_begun (size : Nat) {s : Str} (hs : s ≠ []) (got : Str) :
    ∃ more pieces, more <+: s ∧ more ≠ [] ∧ fgetsFrom size got s = (got ++ more) :: pieces := by
  induction s generalizing got with
  | nil => exact absurd rfl hs
  | cons c cs ih =>
    rw [fgetsFrom]
    split
    · exact ⟨[c], _, by simp, by simp, rfl⟩
    · by_cases hcs : cs = []
      · subst hcs
        refine ⟨[c], [], List.prefix_refl _, List.cons_ne_nil _ _, ?_⟩
        rw [fgetsFrom]
        simp
      · obtain ⟨more, pieces, hmore, -, hread⟩ := ih hcs (got ++ [c])
        refine ⟨c :: more, pieces, List.cons_prefix_cons.mpr ⟨rfl, hmore⟩, List.cons_ne_nil _ _, ?_⟩
        rw [hread, List.append_assoc]
        rfl

end Dobby.Lines
