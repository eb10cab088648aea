import Dobby.Base.CString

namespace Dobby.Glob
open CString

/-- What may stand in a bracket: a character up to case, a character as it is (a
collating symbol or an equivalence class), a range or a named class. -/
inductive Member where
  | one (c : Char)
  | itself (c : Char)
  | range (lo hi : Char)
  | named (name : Str)

inductive Part where
  | star
  | any
  | lit (c : Char)
  | bracket (negated : Bool) (members : List Member)

def classNamed (name : Str) : Option (Char → Bool) :=
  let upper (c : Char) := decide ('A' ≤ c ∧ c ≤ 'Z')
  let lower (c : Char) := decide ('a' ≤ c ∧ c ≤ 'z')
  let digit (c : Char) := decide ('0' ≤ c ∧ c ≤ '9')
  let graph (c : Char) := decide ('!' ≤ c ∧ c ≤ '~')
  if name = "alpha".toList then some fun c => upper c || lower c
  else if name = "digit".toList then some digit
  else if name = "alnum".toList then some fun c => upper c || lower c || digit c
  else if name = "upper".toList then some upper
  else if name = "lower".toList then some lower
  else if name = "space".toList then some isSpace
  else if name = "blank".toList then some fun c => c = ' ' || c = '\t'
  else if name = "punct".toList then
    some fun c => graph c && !(upper c || lower c || digit c)
  else if name = "graph".toList then some graph
  else if name = "print".toList then some fun c => graph c || c = ' '
  else if name = "cntrl".toList then some fun c => decide (c < ' ') || c = '\x7f'
  else if name = "xdigit".toList then some fun c => (hexDigit c).isSome
  else none

section
variable (fold : Char → Char)

/-- Whether one of the members takes the character, looked at one after the other. A
class that does not exist ends the comparison. A class is asked for the character as it
is, whatever the case folding. -/
def takenBy (c : Char) : List Member → Option Bool
  | [] => some false
  | .one d :: ms => if fold c = d then some true else takenBy c ms
  | .itself d :: ms => if c = d then some true else takenBy c ms
  | .range lo hi :: ms => if lo ≤ fold c ∧ fold c ≤ hi then some true else takenBy c ms
  | .named name :: ms =>
    match classNamed name with
    | none => none
    | some holds => if holds c then some true else takenBy c ms

/-- Whether the part takes this one character. -/
def Part.accepts (c : Char) : Part → Bool
  | star => false
  | any => true
  | lit d => fold c == d
  | bracket negated ms => (takenBy fold c ms).any (negated != ·)

/-- The name of a class behind its opening, and what follows its closing. -/
def className (s : Str) : Option (Str × Str) :=
  let name := s.takeWhile (fun c => 'a' ≤ c ∧ c < 'z')
  let behind := s.drop name.length
  if ":]".toList.isPrefixOf behind then some (name, behind.drop 2) else none

/-- A class, or a collating symbol that is not one character, which is none. -/
def word : Str → Option (Str × Str)
  | '[' :: ':' :: s => className s
  | '[' :: '.' :: _ :: '.' :: ']' :: _ => none
  | '[' :: '.' :: s => some ([], ((strstr ".]".toList s).getD []).drop 2)
  | _ => none

def symbol : Str → Option (Char × Str)
  | '[' :: '.' :: c :: '.' :: ']' :: r => some (c, r)
  | _ => none

def equivalent : Str → Option (Char × Str)
  | '[' :: '=' :: c :: '=' :: ']' :: r => some (c, r)
  | _ => none

/-- A character of a bracket and what follows it. -/
def bracketChar : Str → Option (Char × Str)
  | [] => none
  | ['\\'] => none
  | '\\' :: c :: r => some (fold c, r)
  | '[' :: '.' :: c :: '.' :: ']' :: r => some (c, r)
  | c :: r => some (fold c, r)

/-- The members up to the closing bracket, which is a member itself if it comes
first. There are none without a closing bracket. The number bounds the recursion. -/
def members : Nat → Bool → Str → Option (List Member × Str)
  | 0, _, _ => none
  | n + 1, first, s =>
    let followed (m : Member) (r : Str) :=
      (members n false r).map (fun more => (m :: more.1, more.2))
    if s.head? = some ']' ∧ first = false then some ([], s.drop 1)
    else match word s, equivalent s, bracketChar fold s with
      | some (name, r), _, _ => followed (.named name) r
      | none, some (c, r), _ => followed (.itself c) r
      | none, none, none => none
      | none, none, some (c, r) =>
        if r.head? = some '-' ∧ (r.drop 1).head? ≠ some ']' then
          match bracketChar fold (r.drop 1) with
          | none => none
          | some (d, r) => followed (.range c d) r
        else followed (if (symbol s).isSome then .itself c else .one c) r

/-- The part that an opening bracket starts, if it is closed again. -/
def bracketPart (r : Str) : Option (Part × Str) :=
  let negated := r.head? = some '!' ∨ r.head? = some '^'
  let body := if negated then r.drop 1 else r
  (members fold (body.length + 1) true body).map (fun m => (.bracket negated m.1, m.2))

/-- The parts of a pattern. A bracket that is not closed stands for itself, and a
backslash at the end for nothing at all. -/
def parts : Nat → Str → List Part
  | 0, _ => []
  | _ + 1, [] => []
  | n + 1, c :: r =>
    if c = '*' then .star :: parts n r
    else if c = '?' then .any :: parts n r
    else if c = '\\' then
      match r with
      | [] => [.bracket false []]
      | d :: r => .lit (fold d) :: parts n r
    else if c = '[' then
      match bracketPart fold r with
      | some (part, r) => part :: parts n r
      | none => .lit c :: parts n r
    else .lit (fold c) :: parts n r

def takes : List Part → Str → Bool
  | [], s => s.isEmpty
  | .star :: ps, s => s.tails.any (takes ps)
  | _ :: _, [] => false
  | p :: ps, c :: s => p.accepts fold c && takes ps s

/-- Whether the pattern takes the text, in the C locale. -/
def matched (pattern text : Str) : Bool := takes fold (parts fold pattern.length pattern) text

end

/-- `fnmatch` with flags 0, true where the C function returns 0. -/
def fnmatch (pattern text : Str) : Bool := matched id pattern text

/-- `fnmatch` with `FNM_CASEFOLD`. -/
def fnmatchFold (pattern text : Str) : Bool := matched toLower pattern text

/-- A pattern without special characters. -/
def Literal (pattern : Str) : Prop :=
  '*' ∉ pattern ∧ '?' ∉ pattern ∧ '[' ∉ pattern ∧ '\\' ∉ pattern

theorem parts_literal (fold : Char → Char) {n : Nat} {s : Str} (h : Literal s)
    (hn : s.length ≤ n) : parts fold n s = (s.map fold).map .lit := by
  induction s generalizing n with
  | nil => cases n <;> rfl
  | cons c r ih =>
    cases n with
    | zero => exact absurd hn (Nat.not_succ_le_zero _)
    | succ n =>
      simp only [Literal, List.mem_cons, not_or] at h
      obtain ⟨⟨hs, hsr⟩, ⟨hq, hqr⟩, ⟨hb, hbr⟩, ⟨he, her⟩⟩ := h
      have hrest := ih ⟨hsr, hqr, hbr, her⟩ (Nat.le_of_succ_le_succ hn)
      simp [parts, Ne.symm hs, Ne.symm hq, Ne.symm he, Ne.symm hb, hrest]

theorem takes_lits (fold : Char → Char) (p s : Str) :
    takes fold (p.map .lit) s = true ↔ s.map fold = p := by
  induction p generalizing s with
  | nil => cases s <;> simp [takes]
  | cons c p ih =>
    cases s with
    | nil => simp [takes]
    | cons d s => simp [takes, Part.accepts, ih]

theorem matched_literal (fold : Char → Char) {pattern : Str} (h : Literal pattern)
    (text : Str) : matched fold pattern text = true ↔ text.map fold = pattern.map fold := by
  rw [matched, parts_literal fold h (Nat.le_refl _)]
  exact takes_lits fold _ text

/-- A literal pattern takes its own text and no other. -/
theorem fnmatch_literal {pattern : Str} (h : Literal pattern) (text : Str) :
    fnmatch pattern text = true ↔ text = pattern := by
  simpa [fnmatch] using matched_literal id h text

end Dobby.Glob
