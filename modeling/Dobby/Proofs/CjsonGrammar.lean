import Dobby.Proofs.CjsonLexemes

namespace Dobby.Cjson
open CString JsonText

/-- How an item may start. -/
structure Starts (c : Char) : Prop where
  blank : ' ' < c
  ascii : c < '\x80'
  bracket : c ≠ ']'
  brace : c ≠ '\x7d'

/-- A parser of items agrees with the texts of items. -/
structure Reads {α : Type} (item : Str → Option (α × Str)) (P : Str → α → Prop) : Prop where
  sound : ∀ {s x r}, item s = some (x, r) → ∃ t, s = t ++ r ∧ P t x
  complete : ∀ {t x r}, P t x → Stops numberChar r → item (t ++ r) = some (x, r)
  front : ∀ {t x}, P t x → ∃ c cs, t = c :: cs ∧ Starts c

theorem blank_not_number {c : Char} (h : c ≤ ' ') : numberChar c = false := by
  by_contra hc
  simp only [Bool.not_eq_false, numberChar, Bool.or_eq_true, decide_eq_true_eq] at hc
  rcases hc with ((((hd | rfl) | rfl) | rfl) | rfl) | rfl
  · have hlow := (Char.isDigit_iff_toNat.mp hd).1
    have hhigh : c.toNat ≤ 32 := h
    have hzero : '0'.toNat = 48 := rfl
    omega
  all_goals exact absurd h (by decide)

theorem stops_blank {v : Str} (hv : Blank lexemes.space v) {d : Char} (hd : numberChar d = false) (r : Str) :
    Stops numberChar (v ++ d :: r) := by
  cases v with
  | nil => exact .cons hd r
  | cons c v => exact .cons (blank_not_number (hv c List.mem_cons_self)) _

section

variable {α : Type} {item : Str → Option (α × Str)} {P : Str → α → Prop} {opening closing : Char}

theorem parseItems_sound (hitem : Reads item P) {fuel : Nat} {s r : Str} {xs : List α}
    (h : parseItems item closing fuel s = some (xs, r)) :
    ∃ t, s = t ++ closing :: r ∧ Separated lexemes.space P t xs := by
  induction fuel generalizing s xs with
  | zero => cases h
  | succ fuel ih =>
    obtain ⟨w, hw, hs⟩ := skip_split s
    unfold parseItems at h
    split at h
    · cases h
    · rename_i x u hx
      obtain ⟨t, ht, hP⟩ := hitem.sound hx
      obtain ⟨v, hv, hu⟩ := skip_split u
      split at h
      · cases h
      · rename_i c u' hc
        rw [hs, ht, hu, hc]
        split at h
        · rename_i hcomma
          obtain ⟨⟨xs', r'⟩, hrest, he⟩ := Option.map_eq_some_iff.mp h
          cases he
          obtain ⟨t', rfl, hsep⟩ := ih hrest
          exact ⟨_, by simp [hcomma], .cons hw hP hv hsep⟩
        · split at h
          · rename_i hclosing
            cases h
            exact ⟨_, by simp [hclosing], .last hw hP hv⟩
          · cases h

theorem parseItems_complete (hitem : Reads item P) (hblank : ' ' < closing)
    (hcomma : closing ≠ ',') (hnumber : numberChar closing = false) {t : Str} {xs : List α}
    (h : Separated lexemes.space P t xs) {fuel : Nat} (hfuel : xs.length ≤ fuel) (r : Str) :
    parseItems item closing fuel (t ++ closing :: r) = some (xs, r) := by
  induction h generalizing fuel with
  | @last w t v x hw ht hv =>
    obtain ⟨c, cs, rfl, hc⟩ := hitem.front ht
    obtain ⟨fuel, rfl⟩ := Nat.exists_eq_add_of_lt hfuel
    have hskip : bufferSkipWhitespace (w ++ (c :: cs) ++ v ++ closing :: r) =
        c :: cs ++ (v ++ closing :: r) := by
      rw [List.append_assoc, List.append_assoc]
      exact skip_blank hw hc.blank _
    simp only [List.length_nil, Nat.zero_add, parseItems, hskip,
      hitem.complete ht (stops_blank hv hnumber r), skip_blank hv hblank, if_neg hcomma, if_true]
  | @cons w t v s x xs hw ht hv hs ih =>
    obtain ⟨c, cs, rfl, hc⟩ := hitem.front ht
    obtain ⟨fuel, rfl⟩ := Nat.exists_eq_add_of_lt hfuel
    have hskip : bufferSkipWhitespace (w ++ (c :: cs) ++ v ++ ',' :: s ++ closing :: r) =
        c :: cs ++ (v ++ ',' :: (s ++ closing :: r)) := by
      simp only [List.append_assoc, List.cons_append]
      exact skip_blank hw hc.blank _
    have hrest := ih (Nat.le_add_right xs.length fuel)
    simp only [parseItems, hskip, hitem.complete ht (stops_blank hv (d := ',') (by decide) _),
      skip_blank hv (c := ',') (by decide), if_true, hrest, Option.map_some]

/-- A list starts with something that is not blank and no bracket, and is as long as it
has items. -/
theorem Separated.front (hitem : Reads item P) {t : Str} {xs : List α} (h : Separated lexemes.space P t xs) :
    ∃ w c cs, t = w ++ c :: cs ∧ Blank lexemes.space w ∧ Starts c ∧ xs.length ≤ (c :: cs).length := by
  induction h with
  | last hw ht hv =>
    obtain ⟨c, cs, rfl, hc⟩ := hitem.front ht
    exact ⟨_, c, cs ++ _, List.append_assoc _ _ _, hw, hc, Nat.succ_le_succ (Nat.zero_le _)⟩
  | @cons w t v s x xs hw ht hv hs ih =>
    obtain ⟨c, cs, rfl, hc⟩ := hitem.front ht
    obtain ⟨w', d, ds, rfl, -, -, hlen⟩ := ih
    refine ⟨w, c, cs ++ v ++ ',' :: (w' ++ d :: ds), by simp, hw, hc, ?_⟩
    simp only [List.length_cons, List.length_append] at hlen ⊢
    omega

theorem parseItems_skip (fuel : Nat) (s : Str) :
    parseItems item closing fuel (bufferSkipWhitespace s) = parseItems item closing fuel s := by
  cases fuel with
  | zero => rfl
  | succ fuel => simp only [parseItems, skip_idem]

theorem parseBracketed_sound (hitem : Reads item P) {s r : Str} {xs : List α}
    (h : parseBracketed item closing opening s = some (xs, r)) :
    ∃ t, s = t ++ r ∧ Bracketed lexemes.space P opening closing t xs := by
  unfold parseBracketed at h
  split at h
  · cases h
  · rename_i c u
    split at h
    · cases h
    · rename_i hopening
      rw [Decidable.not_not] at hopening
      obtain ⟨w, hw, hu⟩ := skip_split u
      split at h
      · cases h
      · rename_i d s hd
        rw [hd] at hu
        split at h
        · rename_i hclosing
          cases h
          exact ⟨_, by simp [hu, hopening, hclosing], .empty hw⟩
        · rw [← hd, parseItems_skip] at h
          obtain ⟨t, rfl, hsep⟩ := parseItems_sound hitem h
          exact ⟨_, by simp [hopening], .items hsep⟩

theorem parseBracketed_complete (hitem : Reads item P) (hclosing : closing = ']' ∨ closing = '\x7d')
    {t : Str} {xs : List α} (h : Bracketed lexemes.space P opening closing t xs) (r : Str) :
    parseBracketed item closing opening (t ++ r) = some (xs, r) := by
  have hblank : ' ' < closing := by rcases hclosing with rfl | rfl <;> decide
  have hcomma : closing ≠ ',' := by rcases hclosing with rfl | rfl <;> decide
  have hnumber : numberChar closing = false := by rcases hclosing with rfl | rfl <;> decide
  cases h with
  | @empty w hw =>
    have hjoin : opening :: w ++ [closing] ++ r = opening :: (w ++ closing :: r) := by simp
    rw [hjoin, parseBracketed]
    simp only [ne_eq, not_true_eq_false, if_false, skip_blank hw hblank, if_true]
  | @items s _ hs =>
    obtain ⟨w, c, cs, rfl, hw, hc, hlen⟩ := Separated.front hitem hs
    have hjoin : opening :: (w ++ c :: cs) ++ [closing] ++ r =
        opening :: ((w ++ c :: cs) ++ closing :: r) := by simp
    have hskip : bufferSkipWhitespace ((w ++ c :: cs) ++ closing :: r) =
        c :: (cs ++ closing :: r) := by
      rw [List.append_assoc]
      exact skip_blank hw hc.blank _
    have hne : c ≠ closing := by
      rcases hclosing with rfl | rfl
      · exact hc.bracket
      · exact hc.brace
    rw [hjoin, parseBracketed]
    simp only [ne_eq, not_true_eq_false, if_false, hskip, if_neg hne]
    rw [← hskip, parseItems_skip]
    refine parseItems_complete hitem hblank hcomma hnumber hs ?_ r
    simp only [List.length_cons, List.length_append] at hlen ⊢
    omega

end

section

variable {value : Str → Option (Json × Str)} {P : Str → Json → Prop}

theorem parseMember_sound (hvalue : Reads value P) {s r : Str} {m : Str × Json}
    (h : parseMember value s = some (m, r)) : ∃ t, s = t ++ r ∧ Member lexemes P t m := by
  unfold parseMember at h
  split at h
  · cases h
  · rename_i key u hkey
    obtain ⟨q, rfl, hq⟩ := parseString_sound hkey
    obtain ⟨w, hw, hu⟩ := skip_split u
    split at h
    · cases h
    · rename_i c u' hc
      split at h
      · cases h
      · rename_i hcolon
        rw [Decidable.not_not] at hcolon
        obtain ⟨v, hv, hu'⟩ := skip_split u'
        obtain ⟨⟨j, r'⟩, hj, he⟩ := Option.map_eq_some_iff.mp h
        cases he
        obtain ⟨t, ht, hP⟩ := hvalue.sound hj
        refine ⟨_, ?_, .mk hq hw hv hP⟩
        rw [hu, hc, hcolon, hu', ht]
        simp

theorem parseMember_complete (hvalue : Reads value P) {t r : Str} {m : Str × Json}
    (h : Member lexemes P t m) (hr : Stops numberChar r) :
    parseMember value (t ++ r) = some (m, r) := by
  cases h with
  | @mk q w v t key j hq hw hv ht =>
    obtain ⟨c, cs, rfl, hc⟩ := hvalue.front ht
    have hjoin : q ++ w ++ ':' :: (v ++ c :: cs) ++ r = q ++ (w ++ ':' :: (v ++ c :: (cs ++ r))) := by
      simp
    rw [hjoin, parseMember, parseString_complete hq]
    simp only [skip_blank hw (c := ':') (by decide), ne_eq, not_true_eq_false, if_false,
      skip_blank hv hc.blank]
    rw [← List.cons_append, hvalue.complete ht hr]
    rfl

theorem starts_mark {c : Char} (h : ' ' < c ∧ c < '\x80' ∧ c ≠ ']' ∧ c ≠ '\x7d') : Starts c :=
  ⟨h.1, h.2.1, h.2.2.1, h.2.2.2⟩

theorem member_reads (hvalue : Reads value P) :
    Reads (parseMember value) (Member lexemes P) where
  sound := parseMember_sound hvalue
  complete := parseMember_complete hvalue
  front := by
    intro t m h
    cases h with
    | mk hq hw hv ht =>
      obtain ⟨l, rfl⟩ := quoted_ends hq
      exact ⟨'"', _, rfl, starts_mark (by decide)⟩

end

theorem numeral_front {t : Str} (h : lexemes.numeral t) :
    ∃ c cs, t = c :: cs ∧ (c = '-' ∨ c.isDigit = true) := h.2.2

/-- A number does not start like another value. -/
theorem numeral_start {c : Char} (h : c = '-' ∨ c.isDigit = true) :
    Starts c ∧ c ≠ 'n' ∧ c ≠ 'f' ∧ c ≠ 't' ∧ c ≠ '"' ∧ c ≠ '[' ∧ c ≠ '\x7b' := by
  rcases h with rfl | h
  · exact ⟨starts_mark (by decide), by decide⟩
  · have hrange := Char.isDigit_iff_toNat.mp h
    have hzero : '0'.toNat = 48 := rfl
    have hnine : '9'.toNat = 57 := rfl
    refine ⟨⟨?_, ?_, ?_, ?_⟩, ?_, ?_, ?_, ?_, ?_, ?_⟩
    · exact Nat.lt_of_lt_of_le (by decide : 32 < 48) hrange.1
    · exact Nat.lt_of_le_of_lt hrange.2 (by decide : 57 < 128)
    all_goals
      intro hc
      rw [hc] at h
      exact absurd h (by decide)

theorem scalar_front {t : Str} {j : Json} (h : Scalar lexemes t j) :
    ∃ c cs, t = c :: cs ∧ Starts c ∧ c ≠ '[' ∧ c ≠ '\x7b' := by
  cases h with
  | null => exact ⟨'n', _, rfl, starts_mark (by decide), by decide⟩
  | true_ => exact ⟨'t', _, rfl, starts_mark (by decide), by decide⟩
  | false_ => exact ⟨'f', _, rfl, starts_mark (by decide), by decide⟩
  | number h =>
    obtain ⟨c, cs, rfl, hc⟩ := numeral_front h
    have hstart := numeral_start hc
    exact ⟨c, cs, rfl, hstart.1, hstart.2.2.2.2.2⟩
  | string h =>
    obtain ⟨l, rfl⟩ := quoted_ends h
    exact ⟨'"', _, rfl, starts_mark (by decide), by decide⟩

theorem denotes_front {n : Nat} {t : Str} {j : Json} (h : Denotes lexemes n t j) :
    ∃ c cs, t = c :: cs ∧ Starts c := by
  have hscalar : Scalar lexemes t j → ∃ c cs, t = c :: cs ∧ Starts c := by
    intro h
    obtain ⟨c, cs, ht, hc, -⟩ := scalar_front h
    exact ⟨c, cs, ht, hc⟩
  cases n with
  | zero => exact hscalar h
  | succ n =>
    rcases h with h | h
    · exact hscalar h
    · cases h with
      | array h =>
        obtain ⟨cs, rfl⟩ := bracketed_front h
        exact ⟨'[', cs, rfl, starts_mark (by decide)⟩
      | object h =>
        obtain ⟨cs, rfl⟩ := bracketed_front h
        exact ⟨'\x7b', cs, rfl, starts_mark (by decide)⟩

section

variable {array object : Str → Option (Json × Str)} {C : Str → Json → Prop}

theorem prefix_split {p s : Str} (h : p.isPrefixOf s = true) : s = p ++ s.drop p.length :=
  (List.prefix_iff_eq_append.mp (List.isPrefixOf_iff_prefix.mp h)).symm

theorem literal_prefix {c d : Char} (h : c ≠ d) (p s : Str) : (d :: p).isPrefixOf (c :: s) = false := by
  rw [List.isPrefixOf_cons_cons, beq_false_of_ne (Ne.symm h), Bool.false_and]

/-- What is no literal is told apart by its first character. -/
theorem parseValueWith_cons {c : Char} (hn : c ≠ 'n') (hf : c ≠ 'f') (ht : c ≠ 't') (s : Str) :
    parseValueWith array object (c :: s) =
      if c = '"' then (parseString (c :: s)).map fun p => (.string p.1, p.2)
      else if c = '-' ∨ c.isDigit then parseNumber (c :: s)
      else if c = '[' then array (c :: s)
      else if c = '\x7b' then object (c :: s)
      else none := by
  have hnull : "null".toList.isPrefixOf (c :: s) = false := literal_prefix hn "ull".toList s
  have hfalse : "false".toList.isPrefixOf (c :: s) = false := literal_prefix hf "alse".toList s
  have htrue : "true".toList.isPrefixOf (c :: s) = false := literal_prefix ht "rue".toList s
  rw [parseValueWith, hnull, hfalse, htrue]
  rfl

theorem parseValueWith_sound
    (harray : ∀ {s j r}, array s = some (j, r) → ∃ t, s = t ++ r ∧ C t j)
    (hobject : ∀ {s j r}, object s = some (j, r) → ∃ t, s = t ++ r ∧ C t j)
    {s r : Str} {j : Json} (h : parseValueWith array object s = some (j, r)) :
    ∃ t, s = t ++ r ∧ (Scalar lexemes t j ∨ C t j) := by
  unfold parseValueWith at h
  split at h
  · rename_i hp
    cases h
    exact ⟨_, prefix_split hp, .inl .null⟩
  split at h
  · rename_i hp
    cases h
    exact ⟨_, prefix_split hp, .inl .false_⟩
  split at h
  · rename_i hp
    cases h
    exact ⟨_, prefix_split hp, .inl .true_⟩
  split at h
  · cases h
  · rename_i c s
    split at h
    · obtain ⟨⟨v, r'⟩, hv, he⟩ := Option.map_eq_some_iff.mp h
      cases he
      obtain ⟨t, ht, hq⟩ := parseString_sound hv
      exact ⟨t, ht, .inl (.string hq)⟩
    split at h
    · rename_i hc
      obtain ⟨t, ht, hnum, rfl⟩ := parseNumber_sound hc h
      exact ⟨t, ht, .inl (.number hnum)⟩
    split at h
    · obtain ⟨t, ht, hC⟩ := harray h
      exact ⟨t, ht, .inr hC⟩
    split at h
    · obtain ⟨t, ht, hC⟩ := hobject h
      exact ⟨t, ht, .inr hC⟩
    · cases h

theorem parseValueWith_scalar {t r : Str} {j : Json} (h : Scalar lexemes t j)
    (hr : Stops numberChar r) : parseValueWith array object (t ++ r) = some (j, r) := by
  cases h with
  | null => rfl
  | true_ => rfl
  | false_ => rfl
  | number h =>
    have hnumber := parseNumber_complete h hr
    obtain ⟨c, cs, rfl, hc⟩ := numeral_front h
    obtain ⟨-, hn, hf, ht, hquote, -⟩ := numeral_start hc
    rw [List.cons_append, parseValueWith_cons hn hf ht, if_neg hquote, if_pos hc]
    exact hnumber
  | string h =>
    have hstring := parseString_complete h r
    obtain ⟨l, rfl⟩ := quoted_ends h
    rw [List.cons_append, List.cons_append,
      parseValueWith_cons (by decide) (by decide) (by decide), if_pos rfl]
    simp only [List.cons_append] at hstring
    rw [hstring]
    rfl

end

/-- An array or an object ends at its last bracket, whatever follows. -/
theorem parseValue_container {n : Nat} (hvalue : Reads (parseValue n) (Denotes lexemes n)) {t : Str}
    {j : Json} (h : Container lexemes (Denotes lexemes n) t j) (r : Str) :
    parseValue (n + 1) (t ++ r) = some (j, r) := by
  cases h with
  | array h =>
    have hitems := parseBracketed_complete hvalue (.inl rfl) h r
    obtain ⟨cs, rfl⟩ := bracketed_front h
    rw [List.cons_append] at hitems ⊢
    rw [parseValue, parseValueWith_cons (by decide) (by decide) (by decide), parseArray, hitems]
    rfl
  | object h =>
    have hmembers := parseBracketed_complete (member_reads hvalue) (.inr rfl) h r
    obtain ⟨cs, rfl⟩ := bracketed_front h
    rw [List.cons_append] at hmembers ⊢
    rw [parseValue, parseValueWith_cons (by decide) (by decide) (by decide), parseObject, hmembers]
    rfl

/-- The parser of values and the texts of values agree, at every depth of nesting. -/
theorem parseValue_reads (n : Nat) : Reads (parseValue n) (Denotes lexemes n) := by
  induction n with
  | zero =>
    refine ⟨fun h => ?_, parseValueWith_scalar, denotes_front⟩
    obtain ⟨t, ht, hscalar | hnone⟩ :=
      parseValueWith_sound (C := fun _ _ => False) (fun h => by cases h) (fun h => by cases h) h
    · exact ⟨t, ht, hscalar⟩
    · exact absurd hnone id
  | succ n ih =>
    refine ⟨fun h => ?_, ?_, denotes_front⟩
    · refine parseValueWith_sound ?_ ?_ h
      · intro s j r h
        obtain ⟨⟨items, r'⟩, hitems, he⟩ := Option.map_eq_some_iff.mp h
        cases he
        obtain ⟨t, ht, hb⟩ := parseBracketed_sound ih hitems
        exact ⟨t, ht, .array hb⟩
      · intro s j r h
        obtain ⟨⟨members, r'⟩, hmembers, he⟩ := Option.map_eq_some_iff.mp h
        cases he
        obtain ⟨t, ht, hb⟩ := parseBracketed_sound (member_reads ih) hmembers
        exact ⟨t, ht, .object hb⟩
    · intro t j r h hr
      rcases h with h | h
      · exact parseValueWith_scalar h hr
      · exact parseValue_container ih h r

end Dobby.Cjson
