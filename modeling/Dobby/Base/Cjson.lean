import Dobby.Base.CString

namespace Dobby

/-- A parsed document. Members keep their order and may repeat a name; numbers
keep their text. -/
inductive Json where
  | null
  | bool (b : Bool)
  | number (text : Str)
  | string (s : Str)
  | array (items : List Json)
  | object (members : List (Str × Json))

namespace Json
open CString

/-- The items of an array or of an object, the child list of the C node. -/
def children : Json → List Json
  | array items => items
  | object members => members.map Prod.snd
  | _ => []

def sameName (a b : Str) : Bool := a.map toLower == b.map toLower

/-- `cJSON_GetObjectItem`: the first member of that name, in any case. -/
def getObjectItem (j : Json) (name : Str) : Option Json :=
  match j with
  | object members => (members.find? (fun m => sameName name m.1)).map Prod.snd
  | _ => none

def getStringValue : Json → Option Str
  | string s => some s
  | _ => none

def getArraySize (j : Json) : Nat := j.children.length

def isNumber : Json → Bool
  | number _ => true
  | _ => false

def isTrue : Json → Bool
  | bool b => b
  | _ => false

/-- The exponent of a number, from its letter on. -/
def exponent : Str → Int
  | [] => 0
  | _ :: r =>
    let signed := takeSign r
    let e : Int := Nat.ofDigitChars 10 (signed.2.takeWhile Char.isDigit) 0
    if signed.1 then -e else e

/-- The quotient rounded to the nearest number, a tie to the even one. -/
def roundEven (a b : Nat) : Nat :=
  if 2 * (a % b) < b ∨ 2 * (a % b) = b ∧ a / b % 2 = 0 then a / b else a / b + 1

/-- The integral part of the double nearest to the quotient, which has 53 bits. Quotients
from 2 ^ 53 on are only cut. -/
def truncDouble (a b : Nat) : Nat :=
  let whole := a / b
  let steps := 2 ^ (if whole = 0 then 53 else 52 - Nat.log2 whole)
  roundEven (a * steps) b / steps

/-- The double that `strtod` makes of a decimal number, cut to its integral part. -/
def truncNumber (text : Str) : Int :=
  let signed := takeSign text
  let whole := signed.2.takeWhile Char.isDigit
  let rest := signed.2.dropWhile Char.isDigit
  let pointed := rest.head? = some '.'
  let frac := if pointed then (rest.drop 1).takeWhile Char.isDigit else []
  let rest := if pointed then (rest.drop 1).dropWhile Char.isDigit else rest
  let e := exponent rest - frac.length
  let m := Nat.ofDigitChars 10 (whole ++ frac) 0
  let n : Nat := if 0 ≤ e then truncDouble (m * 10 ^ e.toNat) 1 else truncDouble m (10 ^ (-e).toNat)
  if signed.1 then -(n : Int) else n

def intMax : Int := 2147483647
def intMin : Int := -2147483648

/-- The `valueint` of a parsed node. -/
def valueInt : Json → Int
  | number text => max intMin (min intMax (truncNumber text))
  | bool true => 1
  | _ => 0

/-- The node that `cJSON_AddNumberToObject` makes of an integer, as it is printed. -/
def ofInt (n : Int) : Json :=
  number (if n < 0 then '-' :: Nat.toDigits 10 n.natAbs else Nat.toDigits 10 n.natAbs)

/-- The string under a name, the usual composition of the two getters. -/
def field (j : Json) (name : Str) : Option Str := (j.getObjectItem name).bind getStringValue

theorem getObjectItem_append (xs ys : List (Str × Json)) (name : Str) :
    (object (xs ++ ys)).getObjectItem name =
      ((object xs).getObjectItem name).or ((object ys).getObjectItem name) := by
  simp only [getObjectItem, List.find?_append]
  cases xs.find? (fun m => sameName name m.1) <;> rfl

theorem getObjectItem_cons_ne {name key : Str} (h : sameName name key = false) (j : Json)
    (ms : List (Str × Json)) :
    (object ((key, j) :: ms)).getObjectItem name = (object ms).getObjectItem name := by
  simp [getObjectItem, h]

theorem digit_not_sign {c : Char} (h : c.isDigit = true) : c ≠ '-' ∧ c ≠ '+' := by
  constructor <;> intro hc
  all_goals
    rw [hc] at h
    exact absurd h (by decide)

/-- An integer is cut to itself. -/
theorem truncDouble_one (n : Nat) : truncDouble n 1 = n := by
  have hround : ∀ a, roundEven a 1 = a := fun a => by simp [roundEven, Nat.mod_one]
  rw [truncDouble, hround]
  exact Nat.mul_div_cancel n (Nat.two_pow_pos _)

theorem truncNumber_digits {signed : Bool} {text : Str} {n : Nat}
    (h : takeSign text = (signed, Nat.toDigits 10 n)) :
    truncNumber text = if signed then -(n : Int) else n := by
  have hdigits : ∀ c ∈ Nat.toDigits 10 n, c.isDigit = true :=
    fun c hc => Nat.isDigit_of_mem_toDigits (by decide) (by decide) hc
  have htake : (Nat.toDigits 10 n).takeWhile Char.isDigit = Nat.toDigits 10 n :=
    List.takeWhile_eq_self_iff.mpr hdigits
  have hdrop : (Nat.toDigits 10 n).dropWhile Char.isDigit = [] :=
    List.dropWhile_eq_nil_iff.mpr hdigits
  simp [truncNumber, h, htake, hdrop, exponent, truncDouble_one, Nat.ofDigitChars_ten_toDigits]

/-- The sign and the digits of a printed integer. -/
theorem takeSign_printed (n : Int) :
    takeSign (if n < 0 then '-' :: Nat.toDigits 10 n.natAbs else Nat.toDigits 10 n.natAbs) =
      (decide (n < 0), Nat.toDigits 10 n.natAbs) := by
  by_cases hn : n < 0
  · rw [if_pos hn, decide_eq_true hn]
    rfl
  · rw [if_neg hn, decide_eq_false hn]
    obtain ⟨c, cs, hcs⟩ := List.exists_cons_of_ne_nil (Nat.toDigits_ne_nil (n := n.natAbs) (b := 10))
    have hc : c.isDigit = true := by
      apply Nat.isDigit_of_mem_toDigits (n := n.natAbs) (b := 10) (by decide) (by decide)
      rw [hcs]
      exact List.mem_cons_self
    rw [hcs]
    exact takeSign_unsigned cs (digit_not_sign hc).1 (digit_not_sign hc).2

theorem truncNumber_printed (n : Int) :
    truncNumber (if n < 0 then '-' :: Nat.toDigits 10 n.natAbs else Nat.toDigits 10 n.natAbs) = n := by
  rw [truncNumber_digits (takeSign_printed n)]
  by_cases hn : n < 0
  · simp only [hn, decide_true, if_true]
    omega
  · simp only [hn, decide_false, Bool.false_eq_true, if_false]
    omega

/-- An integer keeps its value on its way through a document. -/
theorem valueInt_ofInt {n : Int} (hmin : intMin ≤ n) (hmax : n ≤ intMax) :
    valueInt (ofInt n) = n := by
  rw [ofInt, valueInt, truncNumber_printed, min_eq_right hmax, max_eq_right hmin]

/-- The values in a tree, the root one of them. -/
inductive Within (root : Json) : Json → Prop
  | root : Within root root
  | child {j item : Json} (h : Within root j) (hitem : item ∈ j.children) : Within root item

theorem mem_children_of_getObjectItem {j item : Json} {name : Str}
    (h : j.getObjectItem name = some item) : item ∈ j.children := by
  cases j with
  | object members =>
    obtain ⟨m, hm, rfl⟩ := Option.map_eq_some_iff.mp h
    exact List.mem_map_of_mem (List.mem_of_find?_eq_some hm)
  | _ => cases h

theorem Within.getObjectItem {root j item : Json} {name : Str} (h : Within root j)
    (hitem : j.getObjectItem name = some item) : Within root item :=
  h.child (mem_children_of_getObjectItem hitem)

end Json
end Dobby
