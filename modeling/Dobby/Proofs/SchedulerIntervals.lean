import Dobby.Proofs.SchedulerJobs

namespace Dobby.Schedule
open CString

def Blank (s : Str) : Prop := ∀ c ∈ s, isSpace c = true

/-- The text of a number: an optional sign and digits. -/
def Numeral (s : Str) (n : Int) : Prop :=
  ∃ digits, digits ≠ [] ∧ (∀ c ∈ digits, c.isDigit = true) ∧
    (((s = digits ∨ s = '+' :: digits) ∧ n = Nat.ofDigitChars 10 digits 0) ∨
      (s = '-' :: digits ∧ n = -(Nat.ofDigitChars 10 digits 0 : Int)))

/-- The words for the units and their lengths in seconds. -/
def unitWords : List (Str × Int) :=
  [("sec".toList, 1), ("secs".toList, 1), ("second".toList, 1), ("seconds".toList, 1),
    ("min".toList, 60), ("mins".toList, 60), ("minute".toList, 60), ("minutes".toList, 60),
    ("hour".toList, 3600), ("hours".toList, 3600), ("day".toList, 86400), ("days".toList, 86400)]

def NamesNumber (spec : Str) (n : Int) : Prop :=
  ∃ front num back, Blank front ∧ Numeral num n ∧ Blank back ∧ spec = front ++ (num ++ back)

def everyWord (every : Bool) : Str := if every then "every".toList else []

/-- A number and a unit of so many seconds, with or without `every` in front. -/
def NamesUnit (every : Bool) (spec : Str) (n k : Int) : Prop :=
  ∃ front num gap unit back, Blank front ∧ Numeral num n ∧ Blank gap ∧ (unit, k) ∈ unitWords ∧
    Blank back ∧ spec = everyWord every ++ (front ++ (num ++ (gap ++ (unit ++ back))))

/-- The text stands for so many seconds. -/
def Meant (spec : Str) (v : Int) : Prop :=
  NamesNumber spec v ∨ ∃ every n k, NamesUnit every spec n k ∧ v = n * k

/-- The time fits, and a unit other than the second comes with `every`. -/
def Exact (spec : Str) : Prop :=
  (∃ n, NamesNumber spec n ∧ 0 < n ∧ n ≤ Json.intMax) ∨
    ∃ every n k, NamesUnit every spec n k ∧ (every = false → k = 1) ∧ 0 < n ∧ n * k ≤ Json.intMax

/-- What `%d` makes of a number. -/
def cut (n : Int) : Int := (max (-2 ^ 63) (min (2 ^ 63 - 1) n)).bmod (2 ^ 32)

theorem cut_fits {n : Int} (hpos : 0 < n) (hmax : n ≤ Json.intMax) : cut n = n := by
  have hn : n ≤ 2147483647 := hmax
  have hclamp : max (-2 ^ 63) (min (2 ^ 63 - 1) n) = n := by omega
  rw [cut, hclamp]
  apply Int.bmod_eq_of_le <;> omega

theorem digit_plain {c : Char} (h : c.isDigit = true) :
    isSpace c = false ∧ c ≠ 'e' ∧ c ≠ '-' ∧ c ≠ '+' := by
  refine ⟨?_, ?_, ?_, ?_⟩
  · by_contra hs
    simp only [Bool.not_eq_false, isSpace, Bool.or_eq_true, decide_eq_true_eq] at hs
    rcases hs with ((((rfl | rfl) | rfl) | rfl) | rfl) | rfl <;> exact absurd h (by decide)
  all_goals
    rintro rfl
    exact absurd h (by decide)

/-- A number starts with a sign or a digit, and its sign is split from its digits. -/
theorem numeral_signed {num : Str} {n : Int} (h : Numeral num n) (rest : Str) :
    (∃ c cs, num = c :: cs ∧ isSpace c = false ∧ c ≠ 'e') ∧
    ∃ signed digits, takeSign (num ++ rest) = (signed, digits ++ rest) ∧ digits ≠ [] ∧
      (∀ c ∈ digits, c.isDigit = true) ∧
      n = if signed then -(Nat.ofDigitChars 10 digits 0 : Int) else Nat.ofDigitChars 10 digits 0 := by
  obtain ⟨digits, hne, hdigits, ⟨rfl | rfl, hn⟩ | ⟨rfl, hn⟩⟩ := h
  · obtain ⟨c, cs, rfl⟩ := List.exists_cons_of_ne_nil hne
    obtain ⟨hspace, he, hminus, hplus⟩ := digit_plain (hdigits c List.mem_cons_self)
    exact ⟨⟨c, cs, rfl, hspace, he⟩, false, c :: cs, takeSign_unsigned _ hminus hplus, hne, hdigits, hn⟩
  · exact ⟨⟨'+', digits, rfl, by decide, by decide⟩, false, digits, rfl, hne, hdigits, hn⟩
  · exact ⟨⟨'-', digits, rfl, by decide, by decide⟩, true, digits, rfl, hne, hdigits, hn⟩

theorem dropWhile_blank {front s : Str} (hfront : Blank front)
    (hs : ∀ c ∈ s.head?, isSpace c = false) : (front ++ s).dropWhile isSpace = s := by
  rw [List.dropWhile_append_of_pos hfront]
  cases s with
  | nil => rfl
  | cons c cs => exact List.dropWhile_cons_of_neg (by simp [hs c rfl])

theorem scanInt_numeral {front num rest : Str} {n : Int} (hfront : Blank front) (hnum : Numeral num n)
    (hrest : ∀ c ∈ rest.head?, c.isDigit = false) :
    scanInt (front ++ (num ++ rest)) = some (cut n, rest) := by
  obtain ⟨⟨c, cs, hc, hspace, -⟩, signed, digits, hsigned, hne, hdigits, rfl⟩ := numeral_signed hnum rest
  have hdrop : (front ++ (num ++ rest)).dropWhile isSpace = num ++ rest := by
    apply dropWhile_blank hfront
    intro d hd
    rw [hc] at hd
    cases hd
    exact hspace
  have htake : (digits ++ rest).takeWhile Char.isDigit = digits := by
    rw [List.takeWhile_append_of_pos hdigits]
    cases rest with
    | nil => simp
    | cons d ds => simp [List.takeWhile_cons_of_neg, hrest d rfl]
  have hafter : (digits ++ rest).dropWhile Char.isDigit = rest := by
    rw [List.dropWhile_append_of_pos hdigits]
    cases rest with
    | nil => rfl
    | cons d ds => exact List.dropWhile_cons_of_neg (by simp [hrest d rfl])
  rw [scanInt, hdrop, hsigned]
  dsimp only
  rw [htake, hafter, if_neg hne]
  rfl

/-- Text that starts with a number does not start with `every`. -/
theorem not_every {front num : Str} (rest : Str) {n : Int} (hfront : Blank front) (hnum : Numeral num n) :
    everySpec (front ++ (num ++ rest)) = none := by
  have hhead : ∃ c cs, front ++ (num ++ rest) = c :: cs ∧ c ≠ 'e' := by
    cases front with
    | nil =>
      obtain ⟨⟨c, cs, hc, -, he⟩, -⟩ := numeral_signed hnum rest
      exact ⟨c, cs ++ rest, by rw [hc]; rfl, he⟩
    | cons c cs =>
      refine ⟨c, cs ++ (num ++ rest), rfl, ?_⟩
      rintro rfl
      exact absurd (hfront 'e' List.mem_cons_self) (by decide)
  obtain ⟨c, cs, hc, he⟩ := hhead
  have hprefixed : "every".toList.isPrefixOf (c :: cs) = false := by
    change List.isPrefixOf ('e' :: "very".toList) (c :: cs) = false
    rw [List.isPrefixOf_cons_cons, beq_false_of_ne (Ne.symm he)]
    rfl
  unfold everySpec
  rw [hc, hprefixed]
  rfl

/-- Without `every` the number is taken and the rest is left. -/
theorem parse_number {front num rest : Str} {n : Int} (hfront : Blank front) (hnum : Numeral num n)
    (hrest : ∀ c ∈ rest.head?, c.isDigit = false) :
    parseInterval (front ++ (num ++ rest)) = if 0 < cut n then cut n else -1 := by
  rw [parseInterval, not_every _ hfront hnum, scanInt_numeral hfront hnum hrest]

theorem blank_head {s : Str} (h : Blank s) : ∀ c ∈ s.head?, c.isDigit = false := by
  intro c hc
  have hspace := h c (List.mem_of_mem_head? hc)
  by_contra hdigit
  rw [(digit_plain (by simpa using hdigit)).1] at hspace
  cases hspace

/-- What the code finds in a word for a unit. -/
structure IsUnit (unit : Str) (k : Int) : Prop where
  seconds : unitSeconds unit = some k
  positive : 0 < k
  solid : unit.all (fun c => !isSpace c && !c.isDigit) = true
  short : unit.length ≤ 31
  nonempty : unit ≠ []

theorem unit_word {unit : Str} {k : Int} (h : (unit, k) ∈ unitWords) : IsUnit unit k := by
  have hall : ∀ p ∈ unitWords, unitSeconds p.1 = some p.2 ∧ 0 < p.2 ∧
      p.1.all (fun c => !isSpace c && !c.isDigit) = true ∧ p.1.length ≤ 31 ∧ p.1 ≠ [] := by
    decide +kernel
  obtain ⟨h₁, h₂, h₃, h₄, h₅⟩ := hall (unit, k) h
  exact ⟨h₁, h₂, h₃, h₄, h₅⟩

section Words
variable {gap unit back : Str} {k : Int} (hgap : Blank gap) (hunit : IsUnit unit k) (hback : Blank back)
include hunit

theorem unit_solid : ∀ c ∈ unit, isSpace c = false ∧ c.isDigit = false := by
  intro c hc
  have hboth := List.all_eq_true.mp hunit.solid c hc
  rw [Bool.and_eq_true, Bool.not_eq_true', Bool.not_eq_true'] at hboth
  exact hboth

theorem unit_head : ∃ c cs, unit = c :: cs ∧ isSpace c = false ∧ c.isDigit = false := by
  obtain ⟨c, cs, hc⟩ := List.exists_cons_of_ne_nil hunit.nonempty
  exact ⟨c, cs, hc, unit_solid hunit c (by rw [hc]; exact List.mem_cons_self)⟩

include hgap

theorem gap_head (back : Str) : ∀ c ∈ (gap ++ (unit ++ back)).head?, c.isDigit = false := by
  cases gap with
  | nil =>
    obtain ⟨c, cs, rfl, -, hdigit⟩ := unit_head hunit
    intro d hd
    cases hd
    exact hdigit
  | cons c cs =>
    intro d hd
    cases hd
    exact blank_head hgap c rfl

include hback

/-- The word that `%31s` reads behind the number. -/
theorem scanned_unit :
    (((gap ++ (unit ++ back)).dropWhile isSpace).takeWhile (fun c => !isSpace c)).take 31 = unit := by
  obtain ⟨c, cs, hc, hspace, -⟩ := unit_head hunit
  have hdrop : (gap ++ (unit ++ back)).dropWhile isSpace = unit ++ back := by
    apply dropWhile_blank hgap
    intro d hd
    rw [hc] at hd
    cases hd
    exact hspace
  have htake : (unit ++ back).takeWhile (fun c => !isSpace c) = unit := by
    rw [List.takeWhile_append_of_pos (fun d hd => by simp [(unit_solid hunit d hd).1])]
    cases back with
    | nil => simp
    | cons d ds => simp [List.takeWhile_cons_of_neg, hback d List.mem_cons_self]
  rw [hdrop, htake, List.take_of_length_le hunit.short]

theorem parse_every {front num : Str} {n : Int} (hfront : Blank front) (hnum : Numeral num n) :
    parseInterval ("every".toList ++ (front ++ (num ++ (gap ++ (unit ++ back))))) =
      (cut n * k).bmod (2 ^ 32) := by
  have hstarts (s : Str) : "every".toList.isPrefixOf ("every".toList ++ s) = true :=
    List.isPrefixOf_iff_prefix.mpr (List.prefix_append _ _)
  have hdrop (s : Str) : ("every".toList ++ s).drop 5 = s := rfl
  have hspec : everySpec ("every".toList ++ (front ++ (num ++ (gap ++ (unit ++ back))))) =
      some ((cut n * k).bmod (2 ^ 32)) := by
    unfold everySpec
    rw [if_pos (hstarts _), hdrop, scanInt_numeral hfront hnum (gap_head hgap hunit back)]
    dsimp only
    rw [scanned_unit hgap hunit hback, hunit.seconds]
    rfl
  rw [parseInterval, hspec]

end Words

/-- The interval of an accepted call is what its text says exactly if the time fits and
no unit but the second goes without `every`. -/
theorem interval_meant_iff {sched : Scheduler} {now : Int} {args : Json} {t : Task}
    (hadd : addedTask sched now args = .ok t)
    (hspec : args.field "interval".toList = some spec) :
    Meant spec t.intervalSec ↔ Exact spec := by
  obtain ⟨hv, hpos⟩ : t.intervalSec = parseInterval spec ∧ 0 < parseInterval spec := by
    unfold addedTask at hadd
    split at hadd
    · rename_i interval _ _ hinterval
      rw [hinterval] at hspec
      obtain rfl := Option.some.inj hspec
      split at hadd
      · cases hadd
      · rename_i hpos
        cases hadd
        exact ⟨rfl, Int.not_le.mp hpos⟩
    · cases hadd
  have hmax := (fitsInt_parseInterval spec).2
  rw [hv]
  constructor
  · intro h
    rcases h with h | ⟨every, n, k, hunit, hnk⟩
    · exact .inl ⟨_, h, hpos, hmax⟩
    · have hk : 0 < k := by
        obtain ⟨_, _, _, unit, _, _, _, _, hmem, _⟩ := hunit
        exact (unit_word hmem).positive
      have hn : 0 < n := by
        by_contra hneg
        have := Int.mul_nonpos_of_nonpos_of_nonneg (Int.not_lt.mp hneg) (Int.le_of_lt hk)
        omega
      refine .inr ⟨every, n, k, hunit, ?_, hn, by omega⟩
      intro hevery
      subst hevery
      obtain ⟨front, num, gap, unit, back, hfront, hnum, hgap, hmem, hback, rfl⟩ := hunit
      have hle : n ≤ n * k := le_mul_of_one_le_right (Int.le_of_lt hn) hk
      have hfits : n ≤ Json.intMax := hle.trans (hnk.ge.trans hmax)
      have hparse := parse_number hfront hnum (gap_head hgap (unit_word hmem) back)
      change parseInterval (front ++ (num ++ (gap ++ (unit ++ back)))) = n * k at hnk
      rw [hparse, cut_fits hn hfits, if_pos hn] at hnk
      have hone : n * 1 = n * k := by
        rw [Int.mul_one]
        exact hnk
      exact (Int.eq_of_mul_eq_mul_left (Int.ne_of_gt hn) hone).symm
  · intro h
    rcases h with ⟨n, hnumber, hn, hfits⟩ | ⟨every, n, k, hunit, hevery, hn, hfits⟩
    · left
      obtain ⟨front, num, back, hfront, hnum, hback, rfl⟩ := hnumber
      rw [parse_number hfront hnum (blank_head hback), cut_fits hn hfits, if_pos hn]
      exact ⟨front, num, back, hfront, hnum, hback, rfl⟩
    · refine .inr ⟨every, n, k, hunit, ?_⟩
      obtain ⟨front, num, gap, unit, back, hfront, hnum, hgap, hmem, hback, rfl⟩ := hunit
      have hword := unit_word hmem
      have hle : n ≤ n * k := le_mul_of_one_le_right (Int.le_of_lt hn) hword.positive
      have hcut := cut_fits hn (hle.trans hfits)
      cases every with
      | true =>
        change parseInterval ("every".toList ++ (front ++ (num ++ (gap ++ (unit ++ back))))) = n * k
        rw [parse_every hgap hword hback hfront hnum, hcut]
        have hsmall : n * k ≤ 2147483647 := hfits
        apply Int.bmod_eq_of_le <;> omega
      | false =>
        obtain rfl := hevery rfl
        change parseInterval (front ++ (num ++ (gap ++ (unit ++ back)))) = n * 1
        rw [parse_number hfront hnum (gap_head hgap hword back), hcut, if_pos hn, Int.mul_one]

/-- What scanning finds in a text with a unit. -/
theorem NamesUnit.scanned (h : NamesUnit every spec n k) : everyWord every <+: spec ∧
    ∃ rest, scanInt (spec.drop (everyWord every).length) = some (cut n, rest) ∧
      (((rest.dropWhile isSpace).takeWhile (fun c => !isSpace c)).take 31, k) ∈ unitWords := by
  obtain ⟨front, num, gap, unit, back, hfront, hnum, hgap, hmem, hback, rfl⟩ := h
  have hword := unit_word hmem
  refine ⟨List.prefix_append _ _, gap ++ (unit ++ back), ?_, ?_⟩
  · rw [List.drop_left]
    exact scanInt_numeral hfront hnum (gap_head hgap hword back)
  · rw [scanned_unit hgap hword hback]
    exact hmem

def intervalCall (interval : Str) : Json :=
  .object [("name".toList, .string "n".toList), ("task".toList, .string "t".toList),
    ("interval".toList, .string interval)]

def everyTask (v : Int) : Task := ⟨1, "n".toList, .agentTurn, "t".toList, v, 0, false, true⟩

theorem ten_minutes_meant : Meant "every 10 minutes".toList 600 := by
  have hadd : addedTask (emptyTable []) 0 (intervalCall "every 10 minutes".toList) = .ok (everyTask 600) := rfl
  refine (interval_meant_iff hadd rfl).mpr (.inr ⟨true, 10, 60, ?_, fun h => Bool.noConfusion h,
    by decide, by decide⟩)
  have hblank : Blank [' '] := List.forall_mem_singleton.mpr rfl
  have hten : Numeral "10".toList 10 :=
    ⟨"10".toList, by decide, List.all_eq_true.mp (by decide), .inl ⟨.inl rfl, by decide⟩⟩
  exact ⟨[' '], "10".toList, [' '], "minutes".toList, [], hblank, hten, hblank, by decide,
    List.forall_mem_nil _, rfl⟩

/-- Five minutes without `every` become five seconds, and a hundred thousand days wrap
around to less than two years. -/
theorem minutes_ignored :
    (addedTask (emptyTable []) 0 (intervalCall "5 minutes".toList) = .ok (everyTask 5) ∧
      ¬ Meant "5 minutes".toList 5) ∧
    (addedTask (emptyTable []) 0 (intervalCall "every 100000 days".toList) = .ok (everyTask 50065408) ∧
      ¬ Meant "every 100000 days".toList 50065408) := by
  refine ⟨⟨rfl, ?_⟩, rfl, ?_⟩
  · intro h
    have hscan : scanInt "5 minutes".toList = some (5, " minutes".toList) := by decide
    rcases h with h | ⟨every, n, k, hunit, hnk⟩
    · obtain ⟨front, num, back, hfront, hnum, hback, heq⟩ := h
      rw [heq, scanInt_numeral hfront hnum (blank_head hback)] at hscan
      rw [(Prod.mk.inj (Option.some.inj hscan)).2] at hback
      exact absurd (hback 'm' (by decide)) (by decide)
    · obtain ⟨hstarts, rest, hrest, hmem⟩ := hunit.scanned
      cases every with
      | true => exact absurd hstarts (by decide)
      | false =>
        rw [show (everyWord false).length = 0 from rfl, List.drop_zero, hscan] at hrest
        obtain rfl := (Prod.mk.inj (Option.some.inj hrest)).2
        have hk : some k = some 60 := (unit_word hmem).seconds.symm.trans (by decide)
        obtain rfl := Option.some.inj hk
        omega
  · intro h
    have hscan : scanInt " 100000 days".toList = some (100000, " days".toList) := by decide
    have hevery : everySpec "every 100000 days".toList = some 50065408 := by decide
    rcases h with h | ⟨every, n, k, hunit, hnk⟩
    · obtain ⟨front, num, back, hfront, hnum, hback, heq⟩ := h
      rw [heq, not_every _ hfront hnum] at hevery
      cases hevery
    · obtain ⟨hstarts, rest, hrest, hmem⟩ := hunit.scanned
      cases every with
      | false =>
        obtain ⟨front, num, gap, unit, back, hfront, hnum, _, _, _, heq⟩ := hunit
        have hnone := not_every (gap ++ (unit ++ back)) hfront hnum
        have hsame : "every 100000 days".toList = front ++ (num ++ (gap ++ (unit ++ back))) := heq
        rw [← hsame, hevery] at hnone
        cases hnone
      | true =>
        have hdrop : "every 100000 days".toList.drop (everyWord true).length = " 100000 days".toList := rfl
        rw [hdrop, hscan] at hrest
        obtain rfl := (Prod.mk.inj (Option.some.inj hrest)).2
        have hk : some k = some 86400 := (unit_word hmem).seconds.symm.trans (by decide)
        obtain rfl := Option.some.inj hk
        omega

end Dobby.Schedule
