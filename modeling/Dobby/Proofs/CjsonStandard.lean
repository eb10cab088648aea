import Dobby.Proofs.CjsonGrammar

namespace Dobby.Cjson
open CString JsonText

theorem continuation_byte (n : Nat) : (n ||| 0x80) &&& 0xBF = n % 64 + 128 := by
  have hlow : ∀ m < 256, (m ||| 0x80) &&& 0xBF = m % 64 + 128 := by decide +kernel
  have hbyte : ((n ||| 0x80) &&& 0xBF) % 2 ^ 8 = (n % 2 ^ 8 ||| 0x80) &&& 0xBF := by
    rw [Nat.and_mod_two_pow, Nat.or_mod_two_pow]
  have hsmall : (n ||| 0x80) &&& 0xBF < 2 ^ 8 :=
    Nat.lt_of_le_of_lt Nat.and_le_right (by decide)
  have hlast : n % 2 ^ 8 < 256 := Nat.mod_lt n (by decide)
  rw [Nat.mod_eq_of_lt hsmall, hlow _ hlast] at hbyte
  rw [hbyte]
  omega

theorem byte_toNat {n : Nat} (h : n < 256) : (UInt8.ofNat n).toNat = n := by
  rw [UInt8.toNat_ofNat', Nat.mod_eq_of_lt h]

/-- A character is no surrogate. -/
theorem char_valid (c : Char) : c.toNat < 0xD800 ∨ 0xDFFF < c.toNat ∧ c.toNat < 0x110000 := c.valid

/-- The bytes that `utf16_literal_to_utf8` makes of a character are those of UTF-8. -/
theorem encodeUtf8_char (c : Char) : encodeUtf8 c.toNat = some (utf8 c) := by
  have hmax : c.toNat < 0x110000 := by
    have hvalid := char_valid c
    omega
  have htwo : ∀ k < 32, (k ||| 0xC0) &&& 0xFF = k + 0xC0 := by decide +kernel
  have hthree : ∀ k < 16, (k ||| 0xE0) &&& 0xFF = k + 0xE0 := by decide +kernel
  have hfour : ∀ k < 8, (k ||| 0xF0) &&& 0xFF = k + 0xF0 := by decide +kernel
  have hone : ∀ k < 128, k &&& 0x7F = k := by decide +kernel
  have hval : c.val.toNat = c.toNat := rfl
  have hshift : ∀ m : Nat, m >>> 6 = m / 64 := fun m => Nat.shiftRight_eq_div_pow m 6
  unfold encodeUtf8 utf8 String.utf8EncodeChar
  simp only [hval, utf8Tail, hshift, Nat.div_div_eq_div_mul, Nat.reduceMul, continuation_byte]
  generalize c.toNat = n at hmax ⊢
  by_cases h1 : n < 0x80
  · rw [if_pos h1, if_pos (by omega : n ≤ 0x7f), hone n h1, List.map_singleton,
      byte_toNat (by omega)]
  rw [if_neg h1, if_neg (by omega : ¬ n ≤ 0x7f)]
  by_cases h2 : n < 0x800
  · rw [if_pos h2, if_pos (by omega : n ≤ 0x7ff), htwo _ (by omega)]
    simp only [List.map_cons, List.map_nil, List.singleton_append,
      byte_toNat (by omega : n / 64 % 0x20 + 0xc0 < 256), byte_toNat (by omega : n % 0x40 + 0x80 < 256)]
    rw [Nat.mod_eq_of_lt (by omega : n / 64 < 0x20)]
  rw [if_neg h2, if_neg (by omega : ¬ n ≤ 0x7ff)]
  by_cases h3 : n < 0x10000
  · rw [if_pos h3, if_pos (by omega : n ≤ 0xffff), hthree _ (by omega)]
    simp only [List.map_cons, List.map_nil, List.cons_append, List.nil_append,
      byte_toNat (by omega : n / 4096 % 0x10 + 0xe0 < 256),
      byte_toNat (by omega : n / 64 % 0x40 + 0x80 < 256), byte_toNat (by omega : n % 0x40 + 0x80 < 256)]
    rw [Nat.mod_eq_of_lt (by omega : n / 4096 < 0x10)]
  rw [if_neg h3, if_neg (by omega : ¬ n ≤ 0xffff), if_pos (by omega), hfour _ (by omega)]
  simp only [List.map_cons, List.map_nil, List.cons_append, List.nil_append,
    byte_toNat (by omega : n / 262144 % 0x08 + 0xf0 < 256),
    byte_toNat (by omega : n / 4096 % 0x40 + 0x80 < 256),
    byte_toNat (by omega : n / 64 % 0x40 + 0x80 < 256), byte_toNat (by omega : n % 0x40 + 0x80 < 256)]
  rw [Nat.mod_eq_of_lt (by omega : n / 262144 < 0x08)]

theorem hexDigit_plain {c : Char} (h : (hexDigit c).isSome = true) : c ≠ '"' ∧ c ≠ '\\' := by
  constructor
  all_goals
    intro hc
    rw [hc] at h
    exact absurd h (by decide)

theorem scanString_plain {x : Str} (hx : ∀ c ∈ x, c ≠ '"' ∧ c ≠ '\\') (s : Str) :
    scanString (x ++ s) = (scanString s).map fun p => (x ++ p.1, p.2) := by
  induction x with
  | nil => cases h : scanString s <;> simp [h]
  | cons c x ih =>
    obtain ⟨hquote, hslash⟩ := hx c List.mem_cons_self
    rw [List.cons_append, scanString, if_neg hquote, ih fun d hd => hx d (List.mem_cons_of_mem c hd),
      Option.map_map]
    · rfl
    · exact fun h _ => hslash h
    · exact fun _ _ h _ => hslash h

theorem scanString_escape (e : Char) (s : Str) :
    scanString ('\\' :: e :: s) = (scanString s).map fun p => ('\\' :: e :: p.1, p.2) := by
  rw [scanString]

theorem scanString_unit {x : Str} {n : Nat} (hx : HexUnit x n) (s : Str) :
    scanString ('\\' :: 'u' :: x ++ s) =
      (scanString s).map fun p => ('\\' :: 'u' :: x ++ p.1, p.2) := by
  rw [List.cons_append, List.cons_append, scanString_escape,
    scanString_plain (fun d hd => hexDigit_plain (hx.digits d hd)), Option.map_map]
  rfl

theorem scanString_chars {t s : Str} (h : Chars t s) (r : Str) :
    scanString (t ++ '"' :: r) = some (t, r) := by
  induction h with
  | nil => simp [scanString]
  | @plain c t s hc hquote hslash ht ih =>
    have hplain := scanString_plain (x := [c]) (by simp [hquote, hslash]) (t ++ '"' :: r)
    rw [ih] at hplain
    exact hplain
  | @short e c t s he ht ih => rw [List.cons_append, List.cons_append, scanString_escape, ih]; rfl
  | @unit c x t s hc hx ht ih => rw [List.append_assoc, scanString_unit hx, ih]; rfl
  | @pair c x y t s hc hx hy ht ih =>
    have hjoin : '\\' :: 'u' :: x ++ '\\' :: 'u' :: y ++ t ++ '"' :: r =
        '\\' :: 'u' :: x ++ ('\\' :: 'u' :: y ++ (t ++ '"' :: r)) := by simp
    rw [hjoin, scanString_unit hx, scanString_unit hy, ih]
    simp

theorem parseHex4_unit {x : Str} {n : Nat} (hx : HexUnit x n) (s : Str) : parseHex4 (x ++ s) = n := by
  have htake : (x ++ s).take 4 = x := by rw [← hx.length, List.take_left]
  rw [parseHex4, htake, if_pos (List.all_eq_true.mpr hx.digits), hx.value]

theorem utf16_unit {c : Char} {x : Str} (hc : c.toNat < 0x10000) (hx : HexUnit x c.toNat) (s : Str) :
    utf16LiteralToUtf8 ('\\' :: 'u' :: x ++ s) = some (utf8 c, 6) := by
  have hlen := hx.length
  have hfirst : parseHex4 (('\\' :: 'u' :: x ++ s).drop 2) = c.toNat := parseHex4_unit hx s
  have hvalid := char_valid c
  rw [utf16LiteralToUtf8, if_neg (by simp [hlen])]
  simp only [hfirst]
  rw [if_neg (by omega), if_neg (by omega), encodeUtf8_char]
  rfl

theorem surrogates_join {n : Nat} (hlow : 0x10000 ≤ n) (hhigh : n < 0x110000) :
    0x10000 + ((((0xD800 + (n - 0x10000) / 0x400) &&& 0x3FF) <<< 10) |||
      ((0xDC00 + (n - 0x10000) % 0x400) &&& 0x3FF)) = n := by
  have hmask : ∀ k : Nat, k &&& 0x3FF = k % 0x400 := fun k => Nat.and_two_pow_sub_one_eq_mod k 10
  have hfirst : (0xD800 + (n - 0x10000) / 0x400) % 0x400 = (n - 0x10000) / 0x400 := by omega
  have hsecond : (0xDC00 + (n - 0x10000) % 0x400) % 0x400 = (n - 0x10000) % 0x400 := by omega
  have hsmall : (n - 0x10000) % 0x400 < 2 ^ 10 := Nat.mod_lt _ (by decide)
  rw [hmask, hmask, hfirst, hsecond, ← Nat.shiftLeft_add_eq_or_of_lt hsmall, Nat.shiftLeft_eq]
  omega

theorem utf16_pair {c : Char} {x y : Str} (hc : 0x10000 ≤ c.toNat)
    (hx : HexUnit x (0xD800 + (c.toNat - 0x10000) / 0x400))
    (hy : HexUnit y (0xDC00 + (c.toNat - 0x10000) % 0x400)) (s : Str) :
    utf16LiteralToUtf8 ('\\' :: 'u' :: x ++ '\\' :: 'u' :: y ++ s) = some (utf8 c, 12) := by
  have hlen := hx.length
  have hlen' := hy.length
  have hvalid := char_valid c
  have hjoin : '\\' :: 'u' :: x ++ '\\' :: 'u' :: y ++ s =
      '\\' :: 'u' :: (x ++ ('\\' :: 'u' :: (y ++ s))) := by simp
  have hfirst : parseHex4 (('\\' :: 'u' :: (x ++ ('\\' :: 'u' :: (y ++ s)))).drop 2) =
      0xD800 + (c.toNat - 0x10000) / 0x400 := parseHex4_unit hx _
  have hrest : ('\\' :: 'u' :: (x ++ ('\\' :: 'u' :: (y ++ s)))).drop 6 = '\\' :: 'u' :: (y ++ s) := by
    change (x ++ ('\\' :: 'u' :: (y ++ s))).drop 4 = _
    rw [← hlen, List.drop_left]
  have hsecond : parseHex4 (('\\' :: 'u' :: (x ++ ('\\' :: 'u' :: (y ++ s)))).drop 8) =
      0xDC00 + (c.toNat - 0x10000) % 0x400 := by
    rw [show (8 : Nat) = 6 + 2 from rfl, ← List.drop_drop, hrest]
    exact parseHex4_unit hy s
  rw [hjoin, utf16LiteralToUtf8, if_neg (by simp [hlen])]
  simp only [hfirst, hrest, hsecond]
  rw [if_neg (by omega), if_pos (by omega), if_neg (by simp [hlen']), if_neg (by simp),
    if_neg (by omega), surrogates_join hc (by omega), encodeUtf8_char]
  rfl

theorem unescape_skip (x s : Str) : unescape x.length (x ++ s) = unescape 0 s := by
  induction x with
  | nil => rfl
  | cons c x ih =>
    rw [List.length_cons, List.cons_append, unescape]
    exact ih

theorem unescape_utf16 {c : Char} {x s : Str} {n : Nat} (hn : n = x.length + 2)
    (h : utf16LiteralToUtf8 ('\\' :: 'u' :: (x ++ s)) = some (utf8 c, n)) :
    unescape 0 ('\\' :: 'u' :: (x ++ s)) = (unescape 0 s).map (utf8 c ++ ·) := by
  have hskip := unescape_skip ('u' :: x) s
  rw [unescape, if_neg (by decide), List.headD_cons, if_pos rfl, h]
  simp only [hn]
  rw [show x.length + 2 - 1 = ('u' :: x).length from rfl, ← List.cons_append, hskip]

theorem unescape_chars {t s : Str} (h : Chars t s) : unescape 0 t = some s := by
  induction h with
  | nil => rfl
  | @plain c t s hc hquote hslash ht ih => rw [unescape, if_pos hslash, ih]; rfl
  | @short e c t s he ht ih =>
    have hne : e ≠ 'u' := by
      intro hu
      rw [hu] at he
      cases he
    rw [unescape, if_neg (by decide), List.headD_cons, if_neg hne, he]
    change (unescape 0 t).map _ = _
    rw [ih]
    rfl
  | @unit c x t s hc hx ht ih =>
    rw [List.cons_append, List.cons_append, unescape_utf16 (by rw [hx.length]) (utf16_unit hc hx t), ih]
    rfl
  | @pair c x y t s hc hx hy ht ih =>
    have hutf := utf16_pair hc hx hy t
    have hjoin : '\\' :: 'u' :: x ++ '\\' :: 'u' :: y ++ t =
        '\\' :: 'u' :: ((x ++ '\\' :: 'u' :: y) ++ t) := by simp
    rw [hjoin] at hutf ⊢
    rw [unescape_utf16 _ hutf, ih]
    · rfl
    · simp [hx.length, hy.length]

theorem rfc_quoted {t s : Str} (h : rfc.quoted t s) : lexemes.quoted t s := by
  obtain ⟨bytes, ⟨hchars⟩, rfl⟩ := h
  change parseString ('"' :: (_ ++ ['"'])) = _
  simp only [parseString, scanString_chars hchars [], unescape_chars hchars, Option.map_some]

theorem digit_numberChar {c : Char} (h : c.isDigit = true) : numberChar c = true := by
  simp [numberChar, h]

theorem whole_digits {w : Str} (h : Whole w) : w ≠ [] ∧ ∀ c ∈ w, c.isDigit = true := by
  cases h with
  | zero => exact ⟨List.cons_ne_nil _ _, List.all_eq_true.mp (by decide)⟩
  | digits hc hne hs => exact ⟨List.cons_ne_nil _ _, List.forall_mem_cons.mpr ⟨hc, hs⟩⟩

theorem sign_chars {sign : Str} (h : sign = [] ∨ sign = ['-'] ∨ sign = ['+']) :
    ∀ c ∈ sign, numberChar c = true := by
  rcases h with rfl | rfl | rfl <;> exact List.all_eq_true.mp (by decide)

theorem exponent_power {e : Str} (h : Exponent e) :
    (e = [] ∨ Power e) ∧ ∀ c ∈ e, numberChar c = true := by
  cases h with
  | absent => exact ⟨.inl rfl, fun _ h => by cases h⟩
  | @present e sign s he hsign hs =>
    refine ⟨.inr (.mk he hsign hs.1 hs.2), ?_⟩
    have hletter : numberChar e = true := by rcases he with rfl | rfl <;> decide
    intro c hc
    simp only [List.cons_append, List.mem_cons, List.mem_append] at hc
    rcases hc with rfl | hc | hc
    · exact hletter
    · exact sign_chars hsign c hc
    · exact digit_numberChar (hs.2 c hc)

theorem rfc_mantissa {w f : Str} (hw : Whole w) (hf : Fraction f) :
    Mantissa (w ++ f) ∧ ∀ c ∈ w ++ f, numberChar c = true := by
  obtain ⟨hne, hdigits⟩ := whole_digits hw
  cases hf with
  | absent =>
    rw [List.append_nil]
    exact ⟨.whole hne hdigits, fun c hc => digit_numberChar (hdigits c hc)⟩
  | @present s hs =>
    refine ⟨.pointed (fun h => hne h.1) hdigits hs.2, ?_⟩
    intro c hc
    simp only [List.mem_append, List.mem_cons] at hc
    rcases hc with hc | rfl | hc
    · exact digit_numberChar (hdigits c hc)
    · decide
    · exact digit_numberChar (hs.2 c hc)

theorem rfc_numeral {t : Str} (h : rfc.numeral t) : lexemes.numeral t := by
  cases h with
  | @mk sign whole frac exp hsign hwhole hfrac hexp =>
    obtain ⟨hpower, hexpChars⟩ := exponent_power hexp
    obtain ⟨hmantissa, hmantissaChars⟩ := rfc_mantissa hwhole hfrac
    have hsign' : sign = [] ∨ sign = ['-'] ∨ sign = ['+'] := hsign.imp_right Or.inl
    have htaken := Taken.mk hsign' hmantissa hpower
    rw [← List.append_assoc] at htaken
    refine ⟨?_, ?_, ?_⟩
    · intro c hc
      rw [List.append_assoc, List.append_assoc, ← List.append_assoc whole] at hc
      rcases List.mem_append.mp hc with hc | hc
      · exact sign_chars hsign' c hc
      · rcases List.mem_append.mp hc with hc | hc
        · exact hmantissaChars c hc
        · exact hexpChars c hc
    · have hall := strtod_complete htaken (Stops.nil numberChar)
      rwa [List.append_nil] at hall
    · rcases hsign with rfl | rfl
      · obtain ⟨hne, hdigits⟩ := whole_digits hwhole
        obtain ⟨c, cs, rfl⟩ := List.exists_cons_of_ne_nil hne
        exact ⟨c, _, rfl, .inr (hdigits c List.mem_cons_self)⟩
      · exact ⟨'-', _, rfl, .inl rfl⟩

theorem rfc_space {c : Char} (h : rfc.space c) : lexemes.space c := by
  rw [lexemes_space]
  rcases h with rfl | rfl | rfl | rfl <;> decide

/-- The texts of the standard are texts that `cJSON` reads as the same values. -/
theorem rfc_denotes {n : Nat} {t : Str} {j : Json} (h : Denotes rfc n t j) :
    Denotes lexemes n t j :=
  h.mono (fun _ => rfc_space) (fun _ => rfc_numeral) (fun _ _ => rfc_quoted)

theorem rfc_document {n : Nat} {text : Str} {j : Json} (h : Document rfc n text j) :
    Document lexemes n text j := by
  cases h with
  | mk hw ht hv => exact .mk (hw.mono fun _ => rfc_space) (rfc_denotes ht) (hv.mono fun _ => rfc_space)

end Dobby.Cjson
