import Dobby.Proofs.CjsonStandard

namespace Dobby.Cjson
open CString JsonText

/-- The last character of a value is no terminator. -/
theorem denotes_last {n : Nat} {t : Str} {j : Json} (h : Denotes lexemes n t j) :
    ∃ l c, t = l ++ [c] ∧ c ≠ '\x00' := by
  have hscalar : Scalar lexemes t j → ∃ l c, t = l ++ [c] ∧ c ≠ '\x00' := by
    intro h
    cases h with
    | null => exact ⟨"nul".toList, 'l', rfl, by decide⟩
    | true_ => exact ⟨"tru".toList, 'e', rfl, by decide⟩
    | false_ => exact ⟨"fals".toList, 'e', rfl, by decide⟩
    | number hnumeral =>
      obtain ⟨c, cs, rfl, -⟩ := numeral_front hnumeral
      have hne : c :: cs ≠ [] := List.cons_ne_nil c cs
      refine ⟨_, _, (List.dropLast_append_getLast hne).symm, ?_⟩
      intro hnul
      have hlast := hnumeral.1 _ (List.getLast_mem hne)
      rw [hnul] at hlast
      exact absurd hlast (by decide)
    | string hquoted =>
      obtain ⟨l, rfl⟩ := quoted_ends hquoted
      exact ⟨_, '"', rfl, by decide⟩
  cases n with
  | zero => exact hscalar h
  | succ n =>
    rcases h with h | h
    · exact hscalar h
    · cases h with
      | array h =>
        obtain ⟨l, rfl⟩ := bracketed_last h
        exact ⟨l, ']', rfl, by decide⟩
      | object h =>
        obtain ⟨l, rfl⟩ := bracketed_last h
        exact ⟨l, '\x7d', rfl, by decide⟩

theorem skipUtf8Bom_ascii {c : Char} (hc : c < '\x80') (s : Str) :
    skipUtf8Bom (c :: s) = c :: s := by
  have hne : '\xEF' ≠ c := by
    rintro rfl
    exact absurd hc (by decide)
  have hpre : utf8Bom.isPrefixOf (c :: s) = false := by
    rw [utf8Bom, List.isPrefixOf_cons_cons, beq_false_of_ne hne, Bool.false_and]
  rw [skipUtf8Bom, if_neg (by simp [hpre])]

theorem skipUtf8Bom_split (s : Str) :
    ∃ bom, (bom = [] ∨ bom = utf8Bom) ∧ s = bom ++ skipUtf8Bom s := by
  unfold skipUtf8Bom
  split
  · rename_i h
    exact ⟨utf8Bom, .inr rfl, prefix_split h.2⟩
  · exact ⟨[], .inl rfl, rfl⟩

theorem blank_ascii {c : Char} (h : c ≤ ' ') : c < '\x80' :=
  Nat.lt_of_le_of_lt (show c.toNat ≤ 32 from h) (by decide : 32 < 128)

/-- A document is read as what it denotes, when the text after it does not continue
a number. -/
theorem cJSONParse_document {text d r : Str} {j : Json} (htext : cstr text = d ++ r)
    (hr : Stops numberChar r) (h : Document lexemes nestingLimit d j) : cJSONParse text = some j := by
  cases h with
  | @mk w t v _ hw ht hv =>
    have hreads := parseValue_reads nestingLimit
    obtain ⟨c, cs, rfl, hc⟩ := denotes_front ht
    have hbuffer : w ++ (c :: cs) ++ v ++ r ++ ['\x00'] = w ++ c :: (cs ++ (v ++ (r ++ ['\x00']))) := by
      simp
    have hbom : skipUtf8Bom (w ++ c :: (cs ++ (v ++ (r ++ ['\x00'])))) =
        w ++ c :: (cs ++ (v ++ (r ++ ['\x00']))) := by
      cases w with
      | nil => exact skipUtf8Bom_ascii hc.ascii _
      | cons d w => exact skipUtf8Bom_ascii (blank_ascii (hw d List.mem_cons_self)) _
    have hstops : Stops numberChar (v ++ (r ++ ['\x00'])) := by
      cases r with
      | nil => exact stops_blank hv (by decide) []
      | cons d r => exact stops_blank hv (hr d rfl) _
    have hvalue := hreads.complete ht hstops
    rw [List.cons_append] at hvalue
    rw [cJSONParse, cJSONParseWithLength, htext, hbuffer, hbom, skip_blank hw hc.blank, hvalue]
    rfl

/-- An array or an object is read whatever follows. -/
theorem cJSONParse_container {n : Nat} (hn : nestingLimit = n + 1) {text t r : Str} {j : Json}
    (htext : cstr text = t ++ r) (h : Container lexemes (Denotes lexemes n) t j) :
    cJSONParse text = some j := by
  have hvalue := parseValue_container (parseValue_reads n) h (r ++ ['\x00'])
  obtain ⟨c, cs, rfl, hc⟩ := denotes_front (n := n + 1) (.inr h)
  have hbuffer : c :: cs ++ r ++ ['\x00'] = c :: (cs ++ (r ++ ['\x00'])) := by simp
  have hskip : bufferSkipWhitespace (c :: (cs ++ (r ++ ['\x00']))) = c :: (cs ++ (r ++ ['\x00'])) :=
    skip_blank (w := []) blank_nil hc.blank _
  rw [List.cons_append] at hvalue
  rw [cJSONParse, cJSONParseWithLength, htext, hbuffer, skipUtf8Bom_ascii hc.ascii, hskip, hn, hvalue]
  rfl

/-- What is read is a document, after a byte order mark and before any text. -/
theorem cJSONParse_denotes {text : Str} {j : Json} (h : cJSONParse text = some j) :
    ∃ bom w t r, (bom = [] ∨ bom = utf8Bom) ∧ cstr text = bom ++ w ++ t ++ r ∧ Blank lexemes.space w ∧
      Denotes lexemes nestingLimit t j := by
  obtain ⟨⟨j', r⟩, hparse, rfl⟩ := Option.map_eq_some_iff.mp h
  obtain ⟨bom, hbom, hsplit⟩ := skipUtf8Bom_split (cstr text ++ ['\x00'])
  obtain ⟨w, hw, hskip⟩ := skip_split (skipUtf8Bom (cstr text ++ ['\x00']))
  obtain ⟨t, ht, hden⟩ := (parseValue_reads nestingLimit).sound hparse
  obtain ⟨l, c, rfl, hc⟩ := denotes_last hden
  rw [hskip, ht] at hsplit
  rcases List.eq_nil_or_concat r with rfl | ⟨r, d, rfl⟩
  · have hlast : cstr text ++ ['\x00'] = (bom ++ w ++ l) ++ [c] := by simpa using hsplit
    have hnul := (List.append_inj' hlast rfl).2
    exact absurd (List.cons.inj hnul).1.symm hc
  · have hrest : cstr text ++ ['\x00'] = (bom ++ w ++ (l ++ [c]) ++ r) ++ [d] := by simpa using hsplit
    exact ⟨bom, w, l ++ [c], r, hbom, (List.append_inj' hrest rfl).1, hw, hden⟩

/-- A text that starts with a document of the standard is read as what that denotes, and
what is read is denoted by the start of the text. -/
theorem parse_follows_grammar (text : Str) (j : Json) :
    (∀ d r, cstr text = d ++ r → Stops numberChar r → Document rfc nestingLimit d j →
      cJSONParse text = some j) ∧
    (cJSONParse text = some j → ∃ bom d r, (bom = [] ∨ bom = utf8Bom) ∧
      cstr text = bom ++ d ++ r ∧ Document lexemes nestingLimit d j) := by
  constructor
  · intro d r htext hr h
    exact cJSONParse_document htext hr (rfc_document h)
  · intro h
    obtain ⟨bom, w, t, r, hbom, htext, hw, hden⟩ := cJSONParse_denotes h
    refine ⟨bom, w ++ t ++ [], r, hbom, ?_, .mk hw hden (fun _ h => by cases h)⟩
    rw [htext]
    simp

theorem container_front {P : Str → Json → Prop} {t : Str} {j : Json} (h : Container lexemes P t j) :
    ∃ c cs, t = c :: cs ∧ (c = '[' ∨ c = '\x7b') := by
  cases h with
  | array h =>
    obtain ⟨cs, rfl⟩ := bracketed_front h
    exact ⟨'[', cs, rfl, .inl rfl⟩
  | object h =>
    obtain ⟨cs, rfl⟩ := bracketed_front h
    exact ⟨'\x7b', cs, rfl, .inr rfl⟩

/-- An array or an object is the only value that its text starts with. -/
theorem container_unique {n : Nat} {t t' r r' : Str} {j j' : Json}
    (h : Container lexemes (Denotes lexemes n) t j) (h' : Denotes lexemes (n + 1) t' j')
    (heq : t ++ r = t' ++ r') : j = j' ∧ r = r' := by
  have hreads := parseValue_reads n
  rcases h' with h' | h'
  · obtain ⟨c, cs, rfl, hc⟩ := container_front h
    obtain ⟨d, ds, rfl, -, hbracket, hbrace⟩ := scalar_front h'
    obtain ⟨rfl, -⟩ := List.cons.inj heq
    rcases hc with rfl | rfl
    · exact absurd rfl hbracket
    · exact absurd rfl hbrace
  · have hparse := parseValue_container hreads h r
    rw [heq, parseValue_container hreads h' r'] at hparse
    obtain ⟨hj, hr⟩ := Prod.mk.inj (Option.some.inj hparse)
    exact ⟨hj.symm, hr.symm⟩

/-- What is read of a text is the array or the object that the text shares its start with,
and all of it is read. -/
theorem container_read {n : Nat} (hn : nestingLimit ≤ n + 1) {t r text more : Str} {j j' : Json}
    (h : Container lexemes (Denotes lexemes n) t j) (heq : cstr text ++ more = t ++ r)
    (hparse : cJSONParse text = some j') : j = j' ∧ more <:+ r ∧ Nested nestingLimit j := by
  obtain ⟨bom, w, t', r', hbom, htext, hw, hden⟩ := cJSONParse_denotes hparse
  obtain ⟨d, ds, rfl, hd⟩ := container_front h
  have hne : bom = [] := by
    rcases hbom with rfl | rfl
    · rfl
    · rw [htext] at heq
      have hmark := (List.cons.inj heq).1
      rcases hd with rfl | rfl <;> exact absurd hmark (by decide)
  have hblank : w = [] := by
    cases w with
    | nil => rfl
    | cons b w =>
      rw [htext, hne] at heq
      have hmark : b = d := (List.cons.inj heq).1
      have hb := hw b List.mem_cons_self
      rw [hmark, lexemes_space] at hb
      rcases hd with rfl | rfl <;> exact absurd hb (by decide)
  have hsplit : (d :: ds) ++ r = t' ++ (r' ++ more) := by
    rw [← heq, htext, hne, hblank]
    simp
  obtain ⟨rfl, rfl⟩ := container_unique h (hden.lift hn) hsplit
  exact ⟨rfl, List.suffix_append _ _, denotes_nested hden⟩

/-- Strings that were read have no null byte. -/
theorem quoted_clean {t s : Str} (h : lexemes.quoted t s) : '\x00' ∉ s := by
  change parseString t = _ at h
  unfold parseString at h
  split at h
  · split at h
    · cases h
    · obtain ⟨bytes, hbytes, he⟩ := Option.map_eq_some_iff.mp h
      cases he
      exact not_mem_cstr bytes
  · cases h

theorem scalar_strings_clean {t s : Str} {j : Json} (h : Scalar lexemes t j)
    (hs : j.Within (.string s)) : '\x00' ∉ s := by
  rcases within_children hs with rfl | ⟨item, hitem, _⟩
  · cases h with
    | string hq => exact quoted_clean hq
  · cases h <;> cases hitem

theorem denotes_strings_clean {n : Nat} {t s : Str} {j : Json} (h : Denotes lexemes n t j)
    (hs : j.Within (.string s)) : '\x00' ∉ s := by
  induction n generalizing t j with
  | zero => exact scalar_strings_clean h hs
  | succ n ih =>
    rcases h with h | h
    · exact scalar_strings_clean h hs
    rcases within_children hs with rfl | ⟨item, hitem, hw⟩
    · cases h
    cases h with
    | array h =>
      exact bracketed_forall (Q := fun j => j.Within (.string s) → '\x00' ∉ s)
        (fun _ _ hx hw => ih hx hw) h item hitem hw
    | object h =>
      obtain ⟨m, hm, rfl⟩ := List.mem_map.mp hitem
      refine bracketed_forall (Q := fun m => m.2.Within (.string s) → '\x00' ∉ s)
        (fun _ x hx hw => ?_) h m hm hw
      cases hx with
      | mk hq hw' hv ht => exact ih ht hw

theorem parsed_strings_clean {text s : Str} {root : Json} (hparse : cJSONParse text = some root)
    (hs : root.Within (.string s)) : '\x00' ∉ s := by
  obtain ⟨bom, w, t, r, -, -, -, hden⟩ := cJSONParse_denotes hparse
  exact denotes_strings_clean hden hs

end Dobby.Cjson
