import Dobby.Base.HeaderField
import Dobby.Model.Email

namespace Dobby.Email
open CString Lines Rfc5322

theorem toLower_colon {c : Char} : toLower c = ':' ↔ c = ':' := by
  constructor
  · intro h
    unfold toLower at h
    split at h
    · rename_i hc
      obtain ⟨hA, hZ⟩ := hc
      have hlow : 65 ≤ c.toNat := hA
      have hhigh : c.toNat ≤ 90 := hZ
      generalize c.toNat = n at h hlow hhigh
      interval_cases n <;> exact absurd h (by decide)
    · exact h
  · rintro rfl
    rfl

theorem startsWith_iff {p s : Str} :
    startsWith p s = true ↔ ∃ a b, s = a ++ b ∧ a.map toLower = p.map toLower := by
  rw [startsWith, List.isPrefixOf_iff_prefix]
  constructor
  · rintro ⟨t, ht⟩
    obtain ⟨a, b, hs, ha, -⟩ := List.map_eq_append_iff.mp ht.symm
    exact ⟨a, b, hs, ha⟩
  · rintro ⟨a, b, rfl, ha⟩
    rw [List.map_append, ha]
    exact List.prefix_append _ _

/-- The scanner's test of a line agrees with the text before the first colon. -/
theorem startsWith_field {name : Str} (hname : ':' ∉ name) (line : Str) :
    startsWith (name ++ [':']) line = isField name line := by
  rw [Bool.eq_iff_iff, startsWith_iff]
  constructor
  · rintro ⟨front, b, rfl, hfront⟩
    rw [List.map_append] at hfront
    obtain ⟨a, colon, rfl, ha, hcolon⟩ := List.map_eq_append_iff.mp hfront
    obtain ⟨c, hc, hlower⟩ : ∃ c, colon = [c] ∧ toLower c = ':' := by
      obtain ⟨c, hc⟩ := List.length_eq_one_iff.mp (by simpa using congrArg List.length hcolon)
      rw [hc] at hcolon
      exact ⟨c, hc, List.singleton_inj.mp hcolon⟩
    rw [toLower_colon] at hlower
    subst hc hlower
    have hfree : ':' ∉ a := by
      intro hmem
      have hmap : ':' ∈ name.map toLower := by
        rw [← ha]
        exact List.mem_map.mpr ⟨':', hmem, rfl⟩
      obtain ⟨d, hd, hdl⟩ := List.mem_map.mp hmap
      rw [toLower_colon.mp hdl] at hd
      exact hname hd
    rw [List.append_assoc, List.singleton_append, isField_colon hfree]
    simpa [strcaseEq] using ha
  · intro h
    by_cases hc : ':' ∈ line
    · obtain ⟨a, b, rfl, ha⟩ := List.eq_append_cons_of_mem hc
      rw [isField_colon ha] at h
      refine ⟨a ++ [':'], b, by simp, ?_⟩
      have hmap : a.map toLower = name.map toLower := by simpa [strcaseEq] using h
      rw [List.map_append, List.map_append, hmap]
    · rw [isField_eq_false hc] at h
      cases h

/-- The name's length leads behind the colon. -/
theorem drop_field {name line : Str} (h : isField name line = true) :
    line.drop (name.length + 1) = afterColon line := by
  by_cases hc : ':' ∈ line
  · obtain ⟨a, b, rfl, ha⟩ := List.eq_append_cons_of_mem hc
    rw [isField_colon ha] at h
    have hmap : a.map toLower = name.map toLower := by simpa [strcaseEq] using h
    have hlen : a.length = name.length := by simpa using congrArg List.length hmap
    rw [afterColon_colon ha, ← hlen, ← List.singleton_append, ← List.append_assoc]
    exact List.drop_left' (by simp)
  · rw [isField_eq_false hc] at h
    cases h

/-- The text behind the colon as the scanner strips it. -/
def stripped (v : Str) : Str :=
  trimEnd (fun c => c = '\r' || c = ' ') (v.dropWhile (fun c => c = ' ' || c = '\t'))

/-- The scanner sees the line break of a line, but it leaves nothing of it. -/
theorem headerValue_eq {name line : Str} (hname : ':' ∉ name) (hline : '\n' ∉ line.dropLast) :
    headerValue name line =
      if isField name line then some (stripped (afterColon (lineText line))) else none := by
  unfold headerValue
  rw [startsWith_field hname]
  split
  · rename_i hfield
    obtain ⟨brk, hbrk, heq⟩ := lineText_append line
    have hlf := lineText_lf hline
    have hcolon : ':' ∈ lineText line := by
      by_contra hno
      rw [← isField_lineText, isField_eq_false hno] at hfield
      cases hfield
    have hvalue : afterColon line = afterColon (lineText line) ++ brk := by
      conv_lhs => rw [heq]
      exact afterColon_append hcolon brk
    have hv : '\n' ∉ afterColon (lineText line) := by
      intro hmem
      apply hlf
      exact (List.dropWhile_suffix _).subset (List.mem_of_mem_drop hmem)
    rw [drop_field hfield, hvalue]
    generalize afterColon (lineText line) = v at hv ⊢
    have hfront : (v ++ brk).dropWhile (fun c => c = ' ' || c = '\t') =
        v.dropWhile (fun c => c = ' ' || c = '\t') ++ brk := by
      rw [List.dropWhile_append]
      split
      · rename_i hnil
        rw [List.isEmpty_iff.mp hnil, List.nil_append]
        simp only [List.mem_cons, List.not_mem_nil, or_false] at hbrk
        rcases hbrk with rfl | rfl | rfl <;> rfl
      · rfl
    have hw : ∀ c ∈ v.dropWhile (fun c => c = ' ' || c = '\t'), decide (c ≠ '\n') = true := by
      intro c hc
      simpa using ne_of_mem_of_not_mem ((List.dropWhile_suffix _).subset hc) hv
    have hback : ∀ c ∈ brk.takeWhile (fun c => c ≠ '\n'), (c = '\r' || c = ' ') = true := by
      simp only [List.mem_cons, List.not_mem_nil, or_false] at hbrk
      rcases hbrk with rfl | rfl | rfl <;> exact List.all_eq_true.mp (by decide)
    dsimp only
    rw [hfront, List.takeWhile_append_of_pos hw]
    exact congrArg some (rdropWhile_append_pos _ hback)
  · rfl

/-- Text that the scanner strips like any reader: blanks, a text that neither starts nor
ends with white space, carriage returns and spaces. -/
def Framed (v : Str) : Prop :=
  ∃ front text back, v = front ++ (text ++ back) ∧ (∀ c ∈ front, c = ' ' ∨ c = '\t') ∧
    (∀ c ∈ back, c = '\r' ∨ c = ' ') ∧ strTrim text = text

theorem stripped_cut (v : Str) :
    ∃ front back, v = front ++ (stripped v ++ back) ∧ (∀ c ∈ front, c = ' ' ∨ c = '\t') ∧
      ∀ c ∈ back, c = '\r' ∨ c = ' ' := by
  refine ⟨v.takeWhile (fun c => c = ' ' || c = '\t'),
    (v.dropWhile (fun c => c = ' ' || c = '\t')).rtakeWhile (fun c => c = '\r' || c = ' '), ?_, ?_, ?_⟩
  · have hback (w : Str) : trimEnd (fun c => c = '\r' || c = ' ') w ++
        w.rtakeWhile (fun c => c = '\r' || c = ' ') = w := List.rdropWhile_append_rtakeWhile
    rw [stripped, hback, List.takeWhile_append_dropWhile]
  · intro c hc
    simpa using List.mem_takeWhile_imp hc
  · intro c hc
    simpa using List.mem_rtakeWhile_imp hc

theorem stripped_spaces {v : Str} (h : Framed v) : stripped v = strTrim v := by
  obtain ⟨front, text, back, rfl, hfront, hback, htext⟩ := h
  have hfrontSpace : ∀ c ∈ front, isSpace c = true := by
    intro c hc
    rcases hfront c hc with rfl | rfl <;> decide
  have hbackSpace : ∀ c ∈ back, isSpace c = true := by
    intro c hc
    rcases hback c hc with rfl | rfl <;> decide
  rw [strTrim_space_append hfrontSpace, strTrim_append_space text hbackSpace, htext, stripped,
    List.dropWhile_append_of_pos (by simpa using hfront)]
  by_cases hne : text = []
  · rw [hne, List.nil_append]
    refine List.rdropWhile_eq_nil_iff.mpr fun c hc => ?_
    simpa using hback c ((List.dropWhile_suffix _).subset hc)
  · obtain ⟨hhead, hlast⟩ := strTrim_ends (s := text) (by rwa [htext])
    rw [htext] at hhead hlast
    have hend (z : Char) (hz : isSpace z = false) : z ≠ '\r' ∧ z ≠ ' ' ∧ z ≠ '\t' := by
      refine ⟨?_, ?_, ?_⟩ <;> rintro rfl <;> exact absurd hz (by decide)
    have hkept : text.rdropWhile (fun c => c = '\r' || c = ' ') = text := by
      refine List.rdropWhile_eq_self_iff.mpr fun hne' => ?_
      rw [List.getLastD_eq_getLast?, List.getLast?_eq_some_getLast hne', Option.getD_some] at hlast
      have hz := hend _ hlast
      simp [hz.1, hz.2.1]
    obtain ⟨c, cs, rfl⟩ := List.exists_cons_of_ne_nil hne
    have hc := hend c hhead
    rw [List.cons_append, List.dropWhile_cons_of_neg (by simp [hc]), ← List.cons_append]
    exact (rdropWhile_append_pos _ (by simpa using hback)).trans hkept

/-- The scanner's value is the trimmed one exactly if the folded lines add nothing and it
strips the white space around the text. -/
theorem stripped_eq_iff (v rest : Str) :
    stripped v = strTrim (v ++ rest) ↔ (∀ c ∈ rest, isSpace c = true) ∧ Framed v := by
  constructor
  · intro h
    have htrim : strTrim (stripped v) = stripped v := by
      rw [h]
      exact strTrim_idem _
    obtain ⟨front, back, hv, hfront, hback⟩ := stripped_cut v
    have hspace : ∀ c ∈ front, isSpace c = true := by
      intro c hc
      rcases hfront c hc with rfl | rfl <;> decide
    refine ⟨?_, front, stripped v, back, hv, hfront, hback, htrim⟩
    have hwhole : strTrim (stripped v ++ (back ++ rest)) = stripped v := by
      rw [← List.append_assoc, ← strTrim_space_append hspace, ← List.append_assoc, ← hv]
      exact h.symm
    have hall := (strTrim_append_eq_iff htrim _).mp hwhole
    exact fun c hc => hall c (List.mem_append_right _ hc)
  · rintro ⟨hrest, hframed⟩
    rw [strTrim_append_space v hrest, stripped_spaces hframed]

/-- What a message must look like for a field to be read right: no text stands on the
folded lines and the scanner strips all white space around the value, and where the header
lacks the field, no line of the body looks like it. -/
def HeaderPlain (msg name : Str) : Prop :=
  match fromField name (headerLines msg) with
  | [] => ∀ line ∈ lines msg, isField name line = false
  | l :: ls => (∀ c ∈ continuation ls, isSpace c = true) ∧ Framed (afterColon l)

/-- The first line of a field in the header is the first one in the message. -/
theorem findSome_headerValue {name : Str} (hname : ':' ∉ name) {raw : List Str}
    (hraw : ∀ line ∈ raw, '\n' ∉ line.dropLast) {l : Str} {ls : List Str}
    (h : fromField name ((raw.map lineText).takeWhile (fun l => l ≠ [])) = l :: ls) :
    raw.findSome? (headerValue name) = some (stripped (afterColon l)) := by
  induction raw with
  | nil => cases h
  | cons line raw ih =>
    have hline := headerValue_eq hname (hraw line List.mem_cons_self)
    rw [List.map_cons, List.takeWhile_cons] at h
    split at h
    · rw [fromField, List.dropWhile_cons, isField_lineText] at h
      cases hfield : isField name line with
      | true =>
        rw [hfield] at h hline
        cases h
        rw [List.findSome?_cons, hline]
        rfl
      | false =>
        rw [hfield] at h hline
        rw [List.findSome?_cons, hline]
        exact ih (fun m hm => hraw m (List.mem_cons_of_mem line hm)) h
    · cases h

/-- The scanner returns the value of the field in the header exactly when the header is plain. -/
theorem header_value_iff (msg : Str) (name : FieldName) :
    extractHeader msg name.text = headerField msg name.text ↔ HeaderPlain msg name.text := by
  have hraw : ∀ line ∈ lines msg, '\n' ∉ line.dropLast := fun line hline => lines_dropLast hline
  unfold extractHeader headerField HeaderPlain
  cases hfrom : fromField name.text (headerLines msg) with
  | nil =>
    dsimp only
    rw [List.findSome?_eq_none_iff]
    refine forall₂_congr fun line hline => ?_
    rw [headerValue_eq name.colon (hraw line hline)]
    cases isField name.text line <;> simp
  | cons l ls =>
    dsimp only
    rw [findSome_headerValue name.colon hraw hfrom, Option.some.injEq, stripped_eq_iff]

def subjectName : FieldName := ⟨"Subject".toList, by decide, by decide⟩

def foldedMail : Str :=
  "From: bob@example.com\r\nSubject: Invoice\r\n for March\r\n\r\nHello.\r\n".toList

theorem folded_subject_is_cut :
    extractHeader foldedMail subjectName.text ≠ headerField foldedMail subjectName.text := by
  decide +kernel

end Dobby.Email
