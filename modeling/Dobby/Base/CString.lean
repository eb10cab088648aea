import Mathlib.Data.List.TakeWhile
import Mathlib.Tactic.IntervalCases

namespace Dobby

/-- A C string: its bytes up to the terminator, one character a byte. -/
abbrev Str := List Char

namespace CString

/-- The tail of the string from the first occurrence on. -/
def strstr (needle : Str) : Str → Option Str
  | [] => if needle = [] then some [] else none
  | c :: cs => if needle.isPrefixOf (c :: cs) then some (c :: cs) else strstr needle cs

theorem strstr_append (needle rest : Str) : strstr needle (needle ++ rest) = some (needle ++ rest) := by
  cases h : needle ++ rest with
  | nil => simp [strstr, (List.append_eq_nil_iff.mp h).1]
  | cons c cs =>
    have hp : needle.isPrefixOf (c :: cs) = true := by
      rw [← h, List.isPrefixOf_iff_prefix]
      exact List.prefix_append needle rest
    simp [strstr, hp]

/-- The string that starts at these bytes, up to the first null byte. -/
def cstr (bytes : List Char) : Str := bytes.takeWhile (fun c => c ≠ '\x00')

theorem cstr_eq_self {s : Str} (h : '\x00' ∉ s) : cstr s = s := by
  apply List.takeWhile_eq_self_iff.mpr
  intro c hc
  simpa using ne_of_mem_of_not_mem hc h

theorem cstr_append_drop (bytes : List Char) :
    cstr bytes ++ bytes.drop (cstr bytes).length = bytes := by
  have h := List.prefix_iff_eq_append.mp (List.takeWhile_prefix (l := bytes) (fun c => c ≠ '\x00'))
  exact h

theorem not_mem_cstr (bytes : List Char) : '\x00' ∉ cstr bytes := by
  intro h
  simpa using List.mem_takeWhile_imp h

theorem cstr_append {s : Str} (h : '\x00' ∉ s) (t : Str) : cstr (s ++ t) = s ++ cstr t :=
  List.takeWhile_append_of_pos (fun c hc => by simpa using ne_of_mem_of_not_mem hc h)

/-- The terminator cuts a string. -/
theorem cstr_cut {s : Str} (h : '\x00' ∉ s) (t : Str) : cstr (s ++ '\x00' :: t) = s := by
  rw [cstr_append h]
  exact List.append_nil s

def toLower (c : Char) : Char := if 'A' ≤ c ∧ c ≤ 'Z' then Char.ofNat (c.toNat + 32) else c

def strcasestr (haystack needle : Str) : Bool :=
  (strstr (needle.map toLower) (haystack.map toLower)).isSome

/-- What `snprintf` leaves in a buffer of this size. -/
def snprintf (size : Nat) (text : Str) : Str := text.take (size - 1)

theorem snprintf_fits {size : Nat} {text : Str} (h : text.length < size) :
    snprintf size text = text := by
  rw [snprintf, List.take_of_length_le]
  omega

theorem snprintf_lt {size : Nat} (h : 0 < size) (text : Str) :
    (snprintf size text).length < size := by
  rw [snprintf, List.length_take]
  omega

/-- Whether `strcasecmp` finds no difference. -/
def strcaseEq (a b : Str) : Bool := a.map toLower == b.map toLower

def isSpace (c : Char) : Bool :=
  c = ' ' || c = '\t' || c = '\n' || c = '\x0b' || c = '\x0c' || c = '\r'

theorem strstr_suffix {needle s t : Str} (h : strstr needle s = some t) : t <:+ s := by
  induction s with
  | nil =>
    simp only [strstr] at h
    split at h
    · cases h
      exact List.suffix_refl _
    · cases h
  | cons c cs ih =>
    simp only [strstr] at h
    split at h
    · cases h
      exact List.suffix_refl _
    · exact (ih h).trans (List.suffix_cons c cs)

theorem strstr_length {needle s t : Str} (h : strstr needle s = some t) : t.length ≤ s.length :=
  (strstr_suffix h).length_le

theorem strstr_ne_nil {needle s t : Str} (hne : needle ≠ []) (h : strstr needle s = some t) :
    t ≠ [] := by
  induction s with
  | nil => simp [strstr, hne] at h
  | cons c cs ih =>
    simp only [strstr] at h
    split at h
    · cases h
      exact List.cons_ne_nil c cs
    · exact ih h

/-- `str_trim`. -/
def strTrim (s : Str) : Str :=
  ((s.dropWhile isSpace).reverse.dropWhile isSpace).reverse

/-- A prefix test ends at the first character that the prefix lacks. -/
theorem isPrefixOf_append {p : Str} {c : Char} (hc : c ∉ p) (s t : Str) :
    p.isPrefixOf (s ++ c :: t) = p.isPrefixOf s := by
  induction p generalizing s with
  | nil => simp
  | cons x xs ih =>
    obtain ⟨hx, hxs⟩ := List.ne_and_not_mem_of_not_mem_cons hc
    cases s with
    | nil =>
      rw [List.nil_append, List.isPrefixOf_cons_cons, beq_false_of_ne (Ne.symm hx)]
      rfl
    | cons y ys =>
      rw [List.cons_append, List.isPrefixOf_cons_cons, List.isPrefixOf_cons_cons, ih hxs]

/-- A space at the end is trimmed. -/
theorem strTrim_space (s : Str) {c : Char} (hc : isSpace c = true) :
    strTrim (s ++ [c]) = strTrim s := by
  rw [strTrim, strTrim, List.dropWhile_append]
  split
  · rename_i h
    rw [List.isEmpty_iff] at h
    rw [h, List.dropWhile_cons_of_pos hc]
    rfl
  · rw [List.reverse_append, List.reverse_singleton, List.singleton_append,
      List.dropWhile_cons_of_pos hc]

/-- A start with no space at its ends stays where it is. -/
theorem strTrim_prefix {s : Str} (hhead : isSpace (s.headD ' ') = false)
    (hlast : isSpace (s.getLastD ' ') = false) (t : Str) : s <+: strTrim (s ++ t) := by
  have hne : s ≠ [] := by
    rintro rfl
    exact absurd hhead (by decide)
  have hgot := List.getLast?_eq_some_getLast hne
  have hz : isSpace (s.getLast hne) = false := by
    rwa [List.getLastD_eq_getLast?, hgot] at hlast
  obtain ⟨a, m, rfl⟩ := List.exists_cons_of_ne_nil hne
  have ha : isSpace a = false := hhead
  obtain ⟨m', hm'⟩ := List.getLast?_eq_some_iff.mp hgot
  have hkeep : ((a :: m).reverse).dropWhile isSpace = (a :: m).reverse := by
    rw [hm', List.reverse_append, List.reverse_singleton, List.singleton_append,
      List.dropWhile_cons_of_neg (by simp [hz])]
  rw [strTrim, List.cons_append, List.dropWhile_cons_of_neg (by simp [ha]), ← List.cons_append,
    List.reverse_append, List.dropWhile_append]
  split
  · simp only [hkeep, List.reverse_reverse, List.prefix_refl]
  · rw [List.reverse_append, List.reverse_reverse]
    exact List.prefix_append _ _

/-- Trimming stops at a character that is no space. -/
theorem strTrim_keeps (s : Str) {c : Char} (hc : isSpace c = false) {k : Str}
    (hlast : isSpace (k.getLastD ' ') = false) :
    strTrim (s ++ c :: k) = s.dropWhile isSpace ++ c :: k := by
  have hfront : (s ++ c :: k).dropWhile isSpace = s.dropWhile isSpace ++ c :: k := by
    rw [List.dropWhile_append]
    split
    · rename_i h
      rw [List.isEmpty_iff.mp h, List.dropWhile_cons_of_neg (by simp [hc]), List.nil_append]
    · rfl
  rcases List.eq_nil_or_concat k with rfl | ⟨m, z, rfl⟩
  · exact absurd hlast (by decide)
  rw [List.concat_eq_append] at *
  have hz : isSpace z = false := by simpa using hlast
  have hback : (s.dropWhile isSpace ++ c :: (m ++ [z])).reverse =
      z :: (s.dropWhile isSpace ++ c :: m).reverse := by
    simp
  rw [strTrim, hfront, hback, List.dropWhile_cons_of_neg (by simp [hz]), ← hback,
    List.reverse_reverse]

theorem strTrim_length (s : Str) : (strTrim s).length ≤ s.length := by
  rw [strTrim, List.length_reverse]
  refine (List.dropWhile_suffix _).length_le.trans ?_
  rw [List.length_reverse]
  exact (List.dropWhile_suffix _).length_le

/-- A trimmed string that is not empty starts and ends with no space. -/
theorem strTrim_ends {s : Str} (hne : strTrim s ≠ []) :
    isSpace ((strTrim s).headD ' ') = false ∧ isSpace ((strTrim s).getLastD ' ') = false := by
  have hback : ((s.dropWhile isSpace).reverse.dropWhile isSpace) ≠ [] := by
    intro h
    exact hne (by rw [strTrim, h]; rfl)
  have hlast := List.head_dropWhile_not isSpace hback
  have hpre : strTrim s <+: s.dropWhile isSpace := by
    rw [strTrim, ← List.reverse_suffix, List.reverse_reverse]
    exact List.dropWhile_suffix isSpace
  constructor
  · obtain ⟨t, ht⟩ := hpre
    have hfront : s.dropWhile isSpace ≠ [] := by
      rw [← ht]
      exact fun h => hne (List.append_eq_nil_iff.mp h).1
    have hhead := List.head_dropWhile_not isSpace hfront
    obtain ⟨c, cs, hc⟩ := List.exists_cons_of_ne_nil hne
    simp only [← ht, hc, List.cons_append, List.head_cons] at hhead
    rw [hc]
    exact hhead
  · obtain ⟨c, cs, hc⟩ := List.exists_cons_of_ne_nil hback
    simp only [hc, List.head_cons] at hlast
    rw [strTrim, hc, List.reverse_cons, List.getLastD_concat]
    exact hlast

theorem strTrim_self {s : Str} (hhead : isSpace (s.headD ' ') = false)
    (hlast : isSpace (s.getLastD ' ') = false) : strTrim s = s := by
  have hp := strTrim_prefix hhead hlast []
  rw [List.append_nil] at hp
  exact (hp.eq_of_length_le (strTrim_length s)).symm

theorem strTrim_idem (s : Str) : strTrim (strTrim s) = strTrim s := by
  by_cases hne : strTrim s = []
  · rw [hne]
    rfl
  · obtain ⟨hhead, hlast⟩ := strTrim_ends hne
    exact strTrim_self hhead hlast

/-- A space in front is trimmed. -/
theorem strTrim_cons {c : Char} (hc : isSpace c = true) (s : Str) : strTrim (c :: s) = strTrim s := by
  rw [strTrim, strTrim, List.dropWhile_cons_of_pos hc]

/-- The value of a hexadecimal digit of either case. -/
def hexDigit (c : Char) : Option Nat :=
  if '0' ≤ c ∧ c ≤ '9' then some (c.toNat - 48)
  else if 'a' ≤ c ∧ c ≤ 'f' then some (c.toNat - 87)
  else if 'A' ≤ c ∧ c ≤ 'F' then some (c.toNat - 55)
  else none

def hexValue (s : Str) : Nat := s.foldl (fun n c => 16 * n + (hexDigit c).getD 0) 0

/-- `%llx` of `printf`. -/
def printHex (n : Nat) : Str := Nat.toDigits 16 n

/-- An optional sign, with whether it is a minus. -/
def takeSign : Str → Bool × Str
  | '-' :: r => (true, r)
  | '+' :: r => (false, r)
  | r => (false, r)

/-- An optional `0x`. -/
def dropRadix : Str → Str
  | '0' :: 'x' :: r => r
  | '0' :: 'X' :: r => r
  | r => r

/-- `%llx` of `sscanf`: spaces, a sign, an `0x` and the digits. A value past 64
bits saturates, a negative one wraps. -/
def scanHex (s : Str) : Option Nat :=
  let signed := takeSign (s.dropWhile isSpace)
  let digits := (dropRadix signed.2).takeWhile (fun c => (hexDigit c).isSome)
  if digits = [] then none
  else if 2 ^ 64 ≤ hexValue digits then some (2 ^ 64 - 1)
  else some (if signed.1 then (2 ^ 64 - hexValue digits) % 2 ^ 64 else hexValue digits)

theorem hexDigit_digitChar (d : Nat) (h : d < 16) : hexDigit d.digitChar = some d := by
  interval_cases d <;> decide

theorem hexValue_append (s : Str) (c : Char) :
    hexValue (s ++ [c]) = 16 * hexValue s + (hexDigit c).getD 0 := by
  simp [hexValue]

theorem hexValue_printHex (n : Nat) : hexValue (printHex n) = n := by
  induction n using Nat.strongRecOn with
  | _ n ih =>
    rw [printHex, Nat.toDigits_eq_if (by decide)]
    split
    · rename_i h
      simp [hexValue, hexDigit_digitChar n h]
    · have hd := ih (n / 16) (by omega)
      rw [printHex] at hd
      rw [hexValue_append, hd, hexDigit_digitChar _ (Nat.mod_lt n (by decide))]
      simp only [Option.getD_some]
      omega

theorem printHex_digits (n : Nat) : ∀ c ∈ printHex n, (hexDigit c).isSome = true := by
  induction n using Nat.strongRecOn with
  | _ n ih =>
    intro c hc
    rw [printHex, Nat.toDigits_eq_if (by decide)] at hc
    split at hc
    · rename_i h
      obtain rfl := List.mem_singleton.mp hc
      simp [hexDigit_digitChar n h]
    · rcases List.mem_append.mp hc with h | h
      · exact ih (n / 16) (by omega) c h
      · obtain rfl := List.mem_singleton.mp h
        simp [hexDigit_digitChar _ (Nat.mod_lt n (by decide : 0 < 16))]

theorem hexDigit_not_mark {c : Char} (h : (hexDigit c).isSome = true) :
    isSpace c = false ∧ c ≠ '-' ∧ c ≠ '+' := by
  refine ⟨?_, ?_, ?_⟩
  · by_contra hs
    simp only [Bool.not_eq_false, isSpace, Bool.or_eq_true, decide_eq_true_eq] at hs
    rcases hs with ((((rfl | rfl) | rfl) | rfl) | rfl) | rfl <;> exact absurd h (by decide)
  all_goals
    rintro rfl
    exact absurd h (by decide)

theorem takeSign_unsigned {c : Char} (cs : Str) (hm : c ≠ '-') (hp : c ≠ '+') :
    takeSign (c :: cs) = (false, c :: cs) := by
  unfold takeSign
  split
  · rename_i he
    exact absurd (List.cons.inj he).1 hm
  · rename_i he
    exact absurd (List.cons.inj he).1 hp
  · rfl

theorem dropRadix_digits {s : Str} (h : ∀ c ∈ s, (hexDigit c).isSome = true) :
    dropRadix s = s := by
  unfold dropRadix
  split
  · exact absurd (h 'x' (by simp)) (by decide)
  · exact absurd (h 'X' (by simp)) (by decide)
  · rfl

/-- What `%llx` prints `%llx` reads back. -/
theorem scanHex_printHex {n : Nat} (h : n < 2 ^ 64) : scanHex (printHex n) = some n := by
  have hall := printHex_digits n
  have hval := hexValue_printHex n
  have hne : printHex n ≠ [] := Nat.toDigits_ne_nil
  generalize printHex n = s at hall hval hne
  have htake : s.takeWhile (fun c => (hexDigit c).isSome) = s := by
    exact List.takeWhile_eq_self_iff.mpr hall
  have hsigned : takeSign (s.dropWhile isSpace) = (false, s) := by
    obtain ⟨c, cs, rfl⟩ := List.exists_cons_of_ne_nil hne
    obtain ⟨hspace, hminus, hplus⟩ := hexDigit_not_mark (hall c (by simp))
    rw [List.dropWhile_cons_of_neg (by simp [hspace]), takeSign_unsigned cs hminus hplus]
  unfold scanHex
  rw [hsigned]
  simp only
  rw [dropRadix_digits hall, htake, if_neg hne, if_neg (by omega), hval]
  rfl

/-- An address fits sixteen digits. -/
theorem length_printHex {n : Nat} (h : n < 2 ^ 64) : (printHex n).length ≤ 16 :=
  (Nat.length_toDigits_le_iff (by decide) (by decide)).mpr h

end CString
end Dobby
