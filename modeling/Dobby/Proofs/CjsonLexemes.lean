import Mathlib.Data.List.Infix
import Dobby.Model.CjsonText

namespace Dobby.Cjson
open CString JsonText

/-- What `cJSON` takes for white space, for a number and for a string. -/
def lexemes : Lexemes where
  space c := c ≤ ' '
  numeral t := (∀ c ∈ t, numberChar c = true) ∧ strtod t = some (t, []) ∧
    ∃ c cs, t = c :: cs ∧ (c = '-' ∨ c.isDigit = true)
  quoted t s := parseString t = some (s, [])

@[simp] theorem lexemes_space {c : Char} : lexemes.space c ↔ c ≤ ' ' := Iff.rfl

theorem skip_split (s : Str) : ∃ w, Blank lexemes.space w ∧ s = w ++ bufferSkipWhitespace s := by
  unfold bufferSkipWhitespace
  split
  · rename_i h
    refine ⟨s.take (s.length - 1), ?_, (List.take_append_drop _ s).symm⟩
    intro c hc
    have hall := List.dropWhile_eq_nil_iff.mp h c (List.mem_of_mem_take hc)
    simpa using hall
  · refine ⟨s.takeWhile (· ≤ ' '), ?_, (List.takeWhile_append_dropWhile).symm⟩
    intro c hc
    simpa using List.mem_takeWhile_imp hc

theorem skip_blank {w : Str} (hw : Blank lexemes.space w) {c : Char} (hc : ' ' < c) (s : Str) :
    bufferSkipWhitespace (w ++ c :: s) = c :: s := by
  have hdrop : (w ++ c :: s).dropWhile (· ≤ ' ') = c :: s := by
    rw [List.dropWhile_append_of_pos (fun d hd => by simpa using hw d hd),
      List.dropWhile_cons_of_neg (by simpa using hc)]
  rw [bufferSkipWhitespace, hdrop, if_neg (List.cons_ne_nil c s)]

theorem skip_idem (s : Str) :
    bufferSkipWhitespace (bufferSkipWhitespace s) = bufferSkipWhitespace s := by
  by_cases h : s.dropWhile (· ≤ ' ') = []
  · have hs : bufferSkipWhitespace s = s.drop (s.length - 1) := by
      rw [bufferSkipWhitespace, if_pos h]
    have hall : (s.drop (s.length - 1)).dropWhile (· ≤ ' ') = [] := by
      rw [List.dropWhile_eq_nil_iff] at h ⊢
      exact fun c hc => h c (List.mem_of_mem_drop hc)
    have hlen : (s.drop (s.length - 1)).length - 1 = 0 := by
      rw [List.length_drop]
      omega
    rw [hs, bufferSkipWhitespace, if_pos hall, hlen, List.drop_zero]
  · obtain ⟨c, r, hc⟩ := List.exists_cons_of_ne_nil h
    have hhead := List.head_dropWhile_not (· ≤ ' ') h
    simp only [hc, List.head_cons, decide_eq_false_iff_not, Char.not_le] at hhead
    have hs : bufferSkipWhitespace s = c :: r := by
      rw [bufferSkipWhitespace, if_neg h, hc]
    rw [hs]
    exact skip_blank (w := []) (fun _ h => by cases h) hhead r

theorem scan_local {s l r : Str} (h : scanString s = some (l, r)) :
    s = l ++ '"' :: r ∧ ∀ r', scanString (l ++ '"' :: r') = some (l, r') := by
  fun_induction scanString s generalizing l with
  | case1 => cases h
  | case2 => cases h
  | case3 c s ih =>
    obtain ⟨⟨l', rest⟩, hs, he⟩ := Option.map_eq_some_iff.mp h
    cases he
    obtain ⟨rfl, hall⟩ := ih hs
    refine ⟨rfl, fun r' => ?_⟩
    rw [List.cons_append, List.cons_append, scanString, hall]
    rfl
  | case4 s hne hsome =>
    cases h
    exact ⟨rfl, fun r' => by simp [scanString]⟩
  | case5 c s hne hsome hc ih =>
    obtain ⟨⟨l', rest⟩, hs, he⟩ := Option.map_eq_some_iff.mp h
    cases he
    obtain ⟨rfl, hall⟩ := ih hs
    refine ⟨rfl, fun r' => ?_⟩
    have hslash : c ≠ '\\' := by
      rintro rfl
      obtain ⟨d, t, hd⟩ := List.exists_cons_of_ne_nil
        (List.append_ne_nil_of_right_ne_nil l' (List.cons_ne_nil '"' rest))
      exact hsome d t rfl hd
    rw [List.cons_append, scanString, if_neg hc, hall]
    · rfl
    · exact fun h _ => hslash h
    · exact fun _ _ h _ => hslash h

/-- A string is read the same whatever follows its closing quote. -/
theorem parseString_local {s v r : Str} (h : parseString s = some (v, r)) :
    ∃ l, s = '"' :: (l ++ '"' :: r) ∧ ∀ r', parseString ('"' :: (l ++ '"' :: r')) = some (v, r') := by
  unfold parseString at h
  split at h
  · rename_i s
    split at h
    · cases h
    · rename_i l r' hscan
      obtain ⟨bytes, hbytes, he⟩ := Option.map_eq_some_iff.mp h
      cases he
      obtain ⟨rfl, hall⟩ := scan_local hscan
      refine ⟨l, rfl, fun r' => ?_⟩
      simp only [parseString, hall r', hbytes, Option.map_some]
  · cases h

theorem parseString_sound {s v r : Str} (h : parseString s = some (v, r)) :
    ∃ t, s = t ++ r ∧ lexemes.quoted t v := by
  obtain ⟨l, rfl, hall⟩ := parseString_local h
  exact ⟨'"' :: l ++ ['"'], by simp, hall []⟩

theorem parseString_complete {t v : Str} (h : lexemes.quoted t v) (r : Str) :
    parseString (t ++ r) = some (v, r) := by
  obtain ⟨l, rfl, hall⟩ := parseString_local h
  rw [List.cons_append, List.append_assoc, List.singleton_append]
  exact hall r

theorem quoted_ends {t v : Str} (h : lexemes.quoted t v) : ∃ l, t = '"' :: l ++ ['"'] := by
  obtain ⟨l, rfl, -⟩ := parseString_local h
  exact ⟨l, rfl⟩

/-- The text does not go on with such a character. -/
def Stops (p : Char → Bool) (r : Str) : Prop := ∀ c ∈ r.head?, p c = false

theorem Stops.nil (p : Char → Bool) : Stops p [] := fun _ h => by cases h

theorem Stops.cons {p : Char → Bool} {c : Char} (h : p c = false) (r : Str) : Stops p (c :: r) := by
  intro d hd
  obtain rfl := Option.some.inj hd
  exact h

theorem run_split {p : Char → Bool} {w r : Str} (hw : ∀ c ∈ w, p c = true) (hr : Stops p r) :
    (w ++ r).takeWhile p = w ∧ (w ++ r).dropWhile p = r := by
  rw [List.takeWhile_append_of_pos hw, List.dropWhile_append_of_pos hw]
  cases r with
  | nil => exact ⟨List.append_nil w, rfl⟩
  | cons c r =>
    have hc : ¬ p c = true := by simp [hr c rfl]
    rw [List.takeWhile_cons_of_neg hc, List.dropWhile_cons_of_neg hc]
    exact ⟨List.append_nil w, rfl⟩

theorem run_all (p : Char → Bool) (s : Str) : ∀ c ∈ s.takeWhile p, p c = true :=
  fun _ hc => List.mem_takeWhile_imp hc

/-- A mantissa is one or two runs of digits. -/
inductive Mantissa : Str → Prop where
  | whole {w : Str} (hne : w ≠ []) (hw : ∀ c ∈ w, c.isDigit = true) : Mantissa w
  | pointed {w f : Str} (hne : ¬ (w = [] ∧ f = [])) (hw : ∀ c ∈ w, c.isDigit = true)
      (hf : ∀ c ∈ f, c.isDigit = true) : Mantissa (w ++ '.' :: f)

theorem takeMantissa_sound {s m r : Str} (h : takeMantissa s = some (m, r)) :
    s = m ++ r ∧ Mantissa m := by
  have hs : s.takeWhile Char.isDigit ++ s.dropWhile Char.isDigit = s :=
    List.takeWhile_append_dropWhile
  unfold takeMantissa at h
  dsimp only at h
  split at h
  · rename_i t hdrop
    split at h
    · cases h
    · rename_i hne
      cases h
      refine ⟨?_, .pointed hne (run_all _ s) (run_all _ t)⟩
      rw [List.append_assoc, List.cons_append, List.takeWhile_append_dropWhile, ← hdrop, hs]
  · split at h
    · cases h
    · rename_i hne
      cases h
      exact ⟨hs.symm, .whole hne (run_all _ s)⟩

theorem takeMantissa_complete {m : Str} (hm : Mantissa m) {r : Str}
    (hr : Stops (fun c => c.isDigit || c = '.') r) : takeMantissa (m ++ r) = some (m, r) := by
  have hdigit : Stops Char.isDigit r := by
    intro c hc
    exact (Bool.or_eq_false_iff.mp (hr c hc)).1
  cases hm with
  | whole hne hw =>
    obtain ⟨htake, hdrop⟩ := run_split hw hdigit
    unfold takeMantissa
    rw [htake, hdrop]
    split
    · simpa using hr '.' rfl
    · rw [if_neg hne]
  | @pointed w f hne hw hf =>
    obtain ⟨htake, hdrop⟩ := run_split (r := '.' :: (f ++ r)) hw (.cons (by decide) _)
    obtain ⟨htake', hdrop'⟩ := run_split hf hdigit
    rw [List.append_assoc, List.cons_append, takeMantissa, htake, hdrop]
    simp only [htake', hdrop', if_neg hne]

/-- What `strtod` takes for an exponent, when it is not nothing. -/
inductive Power : Str → Prop where
  | mk {e : Char} {sign d : Str} (he : e = 'e' ∨ e = 'E')
      (hsign : sign = [] ∨ sign = ['-'] ∨ sign = ['+']) (hne : d ≠ [])
      (hd : ∀ c ∈ d, c.isDigit = true) : Power (e :: sign ++ d)

theorem splitSign_sound (s : Str) :
    (splitSign s).1 ++ (splitSign s).2 = s ∧
      ((splitSign s).1 = [] ∨ (splitSign s).1 = ['-'] ∨ (splitSign s).1 = ['+']) := by
  fun_cases splitSign s with
  | case1 r => exact ⟨rfl, .inr (.inl rfl)⟩
  | case2 r => exact ⟨rfl, .inr (.inr rfl)⟩
  | case3 => exact ⟨rfl, .inl rfl⟩

theorem splitSign_complete {sign r : Str} (hsign : sign = [] ∨ sign = ['-'] ∨ sign = ['+'])
    (hr : Stops (fun c => c = '-' || c = '+') r) : splitSign (sign ++ r) = (sign, r) := by
  rcases hsign with rfl | rfl | rfl
  · rw [List.nil_append, splitSign.eq_def]
    split
    · simpa using hr '-' rfl
    · simpa using hr '+' rfl
    · rfl
  · rfl
  · rfl

theorem takeExponent_sound (s : Str) :
    (takeExponent s).1 ++ (takeExponent s).2 = s ∧
      ((takeExponent s).1 = [] ∨ Power (takeExponent s).1) := by
  fun_cases takeExponent s with
  | case1 c r signed digits h =>
    obtain ⟨hjoin, hsign⟩ := splitSign_sound r
    refine ⟨?_, .inr (.mk h.1 hsign h.2 (run_all _ _))⟩
    rw [List.cons_append, List.cons_append, List.append_assoc, List.takeWhile_append_dropWhile, hjoin]
  | case2 c r signed digits h => exact ⟨rfl, .inl rfl⟩
  | case3 => exact ⟨rfl, .inl rfl⟩

theorem takeExponent_complete {e : Str} (he : Power e) {r : Str} (hr : Stops Char.isDigit r) :
    takeExponent (e ++ r) = (e, r) := by
  cases he with
  | @mk c sign d hc hsign hne hd =>
    have hfront : Stops (fun c => c = '-' || c = '+') (d ++ r) := by
      obtain ⟨x, xs, rfl⟩ := List.exists_cons_of_ne_nil hne
      have hx := Json.digit_not_sign (hd x List.mem_cons_self)
      exact .cons (by simp [hx]) _
    obtain ⟨htake, hdrop⟩ := run_split hd hr
    rw [List.append_assoc, List.cons_append, takeExponent]
    simp only [splitSign_complete hsign hfront, htake, hdrop, hc, hne, ne_eq, not_false_eq_true,
      and_self, if_true]

/-- What `strtod` takes. -/
inductive Taken : Str → Prop where
  | mk {sign m e : Str} (hsign : sign = [] ∨ sign = ['-'] ∨ sign = ['+']) (hm : Mantissa m)
      (he : e = [] ∨ Power e) : Taken (sign ++ m ++ e)

theorem strtod_sound {s t r : Str} (h : strtod s = some (t, r)) : s = t ++ r ∧ Taken t := by
  obtain ⟨⟨m, u⟩, hm, he⟩ := Option.map_eq_some_iff.mp h
  cases he
  obtain ⟨hjoin, hsign⟩ := splitSign_sound s
  obtain ⟨hu, hmant⟩ := takeMantissa_sound hm
  obtain ⟨hsplit, hexp⟩ := takeExponent_sound u
  refine ⟨?_, .mk hsign hmant hexp⟩
  rw [List.append_assoc, List.append_assoc, hsplit, ← hu, hjoin]

theorem Mantissa.front {m : Str} (h : Mantissa m) :
    ∃ c cs, m = c :: cs ∧ (c = '.' ∨ c.isDigit = true) := by
  cases h with
  | whole hne hw =>
    obtain ⟨c, cs, rfl⟩ := List.exists_cons_of_ne_nil hne
    exact ⟨c, cs, rfl, .inr (hw c List.mem_cons_self)⟩
  | @pointed w f hne hw hf =>
    cases w with
    | nil => exact ⟨'.', f, rfl, .inl rfl⟩
    | cons c w => exact ⟨c, w ++ '.' :: f, rfl, .inr (hw c List.mem_cons_self)⟩

theorem strtod_complete {t : Str} (h : Taken t) {r : Str} (hr : Stops numberChar r) :
    strtod (t ++ r) = some (t, r) := by
  have hstop : ∀ p : Char → Bool, (∀ c, numberChar c = false → p c = false) → Stops p r :=
    fun p hp c hc => hp c (hr c hc)
  have hdigit : Stops Char.isDigit r := hstop _ (by simp +contextual [numberChar])
  cases h with
  | @mk sign m e hsign hm he =>
    have hfront : Stops (fun c => c = '-' || c = '+') (m ++ (e ++ r)) := by
      obtain ⟨c, cs, rfl, hc⟩ := hm.front
      refine .cons ?_ _
      rcases hc with rfl | hc
      · decide
      · simp [Json.digit_not_sign hc]
    have hexp : takeExponent (e ++ r) = (e, r) := by
      rcases he with rfl | he
      · cases r with
        | nil => rfl
        | cons c r =>
          have hc := hr c rfl
          simp only [numberChar, Bool.or_eq_false_iff, decide_eq_false_iff_not] at hc
          simp [takeExponent, hc]
      · exact takeExponent_complete he hdigit
    have hmant : takeMantissa (m ++ (e ++ r)) = some (m, e ++ r) := by
      refine takeMantissa_complete hm ?_
      rcases he with rfl | he
      · exact hstop _ (by simp +contextual [numberChar])
      · cases he with
        | mk hc _ _ _ =>
          rcases hc with rfl | rfl
          · exact .cons (by decide) _
          · exact .cons (by decide) _
    rw [strtod, List.append_assoc, List.append_assoc, splitSign_complete hsign hfront]
    simp only [hmant, Option.map_some, hexp]

theorem strtod_idem {s t r : Str} (h : strtod s = some (t, r)) : strtod t = some (t, []) := by
  have hcomplete := strtod_complete (strtod_sound h).2 (Stops.nil numberChar)
  rwa [List.append_nil] at hcomplete

theorem parseNumber_sound {c : Char} {s r : Str} {j : Json} (hc : c = '-' ∨ c.isDigit = true)
    (h : parseNumber (c :: s) = some (j, r)) :
    ∃ t, c :: s = t ++ r ∧ lexemes.numeral t ∧ j = .number t := by
  obtain ⟨⟨t, u⟩, hstrtod, he⟩ := Option.map_eq_some_iff.mp h
  cases he
  obtain ⟨hrun, htaken⟩ := strtod_sound hstrtod
  have hs : (c :: s).takeWhile numberChar ++ (c :: s).dropWhile numberChar = c :: s :=
    List.takeWhile_append_dropWhile
  have hjoin : c :: s = t ++ (u ++ (c :: s).dropWhile numberChar) := by
    rw [← List.append_assoc, ← hrun, hs]
  have hall : ∀ d ∈ t, numberChar d = true := by
    intro d hd
    refine run_all numberChar (c :: s) d ?_
    rw [hrun]
    exact List.mem_append_left u hd
  have hne : t ≠ [] := by
    rintro rfl
    have hnone := strtod_idem hstrtod
    simp [strtod, splitSign, takeMantissa] at hnone
  obtain ⟨d, ds, rfl⟩ := List.exists_cons_of_ne_nil hne
  obtain ⟨rfl, -⟩ := List.cons.inj hjoin
  exact ⟨c :: ds, hjoin, ⟨hall, strtod_idem hstrtod, c, ds, rfl, hc⟩, rfl⟩

theorem parseNumber_complete {t r : Str} (h : lexemes.numeral t) (hr : Stops numberChar r) :
    parseNumber (t ++ r) = some (.number t, r) := by
  obtain ⟨htake, hdrop⟩ := run_split h.1 hr
  rw [parseNumber, htake, hdrop, h.2.1]
  rfl

end Dobby.Cjson
