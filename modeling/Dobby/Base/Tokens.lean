import Dobby.Base.CString

namespace Dobby.CString

/-- The tokens that `strtok` finds. -/
def strtok (delims s : Str) : List Str :=
  (s.splitOnP (fun c => c ∈ delims)).filter (fun t => t ≠ [])

def ulongMax : Nat := 2 ^ 64 - 1

/-- `strtoul` in base ten. A minus sign negates in the word. -/
def strtoul (s : Str) : Nat :=
  let signed := takeSign (s.dropWhile isSpace)
  let n := Nat.ofDigitChars 10 (signed.2.takeWhile Char.isDigit) 0
  if ulongMax < n then ulongMax
  else if signed.1 then (2 ^ 64 - n) % 2 ^ 64
  else n

def longMax : Int := 2 ^ 63 - 1
def longMin : Int := -2 ^ 63

/-- `strtol` in base ten. -/
def strtol (s : Str) : Int :=
  let signed := takeSign (s.dropWhile isSpace)
  let n : Int := Nat.ofDigitChars 10 (signed.2.takeWhile Char.isDigit) 0
  max longMin (min longMax (if signed.1 then -n else n))

/-- The tail from the first occurrence on, in any case. -/
def strcasestrTail (haystack needle : Str) : Option Str :=
  (strstr (needle.map toLower) (haystack.map toLower)).map
    (fun tail => haystack.drop (haystack.length - tail.length))

/-- Splitting at more delimiters splits the pieces further. -/
theorem splitOnP_or (p q : Char → Bool) (s : Str) :
    s.splitOnP (fun c => p c || q c) = (s.splitOnP p).flatMap (List.splitOnP q) := by
  induction s with
  | nil => simp
  | cons c cs ih =>
    obtain ⟨l, ls, hls⟩ := List.exists_cons_of_ne_nil (List.splitOnP_ne_nil p cs)
    rw [hls, List.flatMap_cons] at ih
    rw [List.splitOnP_cons_eq_if_modifyHead, List.splitOnP_cons_eq_if_modifyHead, ih, hls]
    cases hp : p c with
    | true => simp
    | false =>
      cases hq : q c with
      | true => simp [List.splitOnP_cons_eq_if_modifyHead, hq]
      | false =>
        obtain ⟨w, ws, hws⟩ := List.exists_cons_of_ne_nil (List.splitOnP_ne_nil q l)
        simp [List.splitOnP_cons_eq_if_modifyHead, hq, hws]

theorem strtok_congr {d e : Str} (h : ∀ c, c ∈ d ↔ c ∈ e) (s : Str) : strtok d s = strtok e s := by
  have hsame : (fun c => decide (c ∈ d)) = (fun c => decide (c ∈ e)) := by
    funext c
    exact decide_eq_decide.mpr (h c)
  rw [strtok, strtok, hsame]

/-- The tokens of the tokens, for delimiters that come in two kinds. -/
theorem strtok_append (d e s : Str) : strtok (d ++ e) s = (strtok d s).flatMap (strtok e) := by
  have hsplit : (fun c => decide (c ∈ d ++ e)) = (fun c => decide (c ∈ d) || decide (c ∈ e)) := by
    funext c
    simp
  have hnil : strtok e [] = [] := rfl
  rw [strtok, hsplit, splitOnP_or, List.filter_flatMap]
  unfold strtok
  induction s.splitOnP (fun c => decide (c ∈ d)) with
  | nil => rfl
  | cons t ts ih =>
    by_cases ht : t = []
    · subst ht
      rw [List.flatMap_cons, ih, List.filter_cons_of_neg (by simp)]
      exact congrArg (· ++ _) hnil
    · rw [List.flatMap_cons, ih, List.filter_cons_of_pos (by simpa using ht), List.flatMap_cons]

theorem strtok_dropWhile (d : Str) {p : Char → Bool} (hp : ∀ c, p c = true → c ∈ d) (s : Str) :
    strtok d (s.dropWhile p) = strtok d s := by
  induction s with
  | nil => rfl
  | cons c cs ih =>
    by_cases hc : p c = true
    · rw [List.dropWhile_cons_of_pos hc, ih, strtok, strtok, List.splitOnP_cons_eq_if_modifyHead,
        if_pos (decide_eq_true (hp c hc)), List.filter_cons_of_neg (by simp)]
    · rw [List.dropWhile_cons_of_neg hc]

/-- A token that lacks the characters in front is found behind them. -/
theorem mem_strtok_append {d w : Str} {front : Str} (hfront : ∀ c ∈ front, c ∉ w) {s : Str}
    (h : w ∈ strtok d (front ++ s)) : w ∈ strtok d s := by
  induction front with
  | nil => exact h
  | cons c cs ih =>
    apply ih (fun e he => hfront e (List.mem_cons_of_mem c he))
    obtain ⟨hw, hne⟩ := List.mem_filter.mp h
    refine List.mem_filter.mpr ⟨?_, hne⟩
    rw [List.cons_append, List.splitOnP_cons_eq_if_modifyHead] at hw
    split at hw
    · rcases List.mem_cons.mp hw with rfl | hw
      · simp at hne
      · exact hw
    · obtain ⟨l, ls, hls⟩ := List.exists_cons_of_ne_nil
        (List.splitOnP_ne_nil (fun c => decide (c ∈ d)) (cs ++ s))
      rw [hls, List.modifyHead_cons] at hw
      rcases List.mem_cons.mp hw with rfl | hw
      · exact absurd List.mem_cons_self (hfront c List.mem_cons_self)
      · rw [hls]
        exact List.mem_cons_of_mem l hw

/-- A number of digits only is read whole. -/
theorem strtoul_digits {w : Str} (hw : ∀ c ∈ w, c.isDigit = true) (hne : w ≠ [])
    (hn : Nat.ofDigitChars 10 w 0 ≤ ulongMax) : strtoul w = Nat.ofDigitChars 10 w 0 := by
  obtain ⟨c, cs, rfl⟩ := List.exists_cons_of_ne_nil hne
  have hc := hw c List.mem_cons_self
  have hspace : isSpace c = false := by
    cases hs : isSpace c with
    | false => rfl
    | true =>
      simp only [isSpace, Bool.or_eq_true, decide_eq_true_eq] at hs
      rcases hs with ((((rfl | rfl) | rfl) | rfl) | rfl) | rfl
      all_goals exact absurd hc (by decide)
  have hsign : takeSign (c :: cs) = (false, c :: cs) := by
    apply takeSign_unsigned
    all_goals
      rintro rfl
      exact absurd hc (by decide)
  have hall : (c :: cs).takeWhile Char.isDigit = c :: cs := List.takeWhile_eq_self_iff.mpr hw
  rw [strtoul, List.dropWhile_cons_of_neg (by simp [hspace]), hsign]
  simp only [hall, Bool.false_eq_true, if_false]
  exact if_neg (Nat.not_lt.mpr hn)

end Dobby.CString
