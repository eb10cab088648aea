import Dobby.Base.CString

namespace Dobby.Ansi

/-- Where a terminal is in its input: in text, behind an escape, in a control sequence, or
behind the choice of a character set. -/
inductive Mode where
  | text | escape | control | charset
  deriving DecidableEq

/-- The characters that end a control sequence. -/
def isFinal (c : Char) : Bool := 0x40 ≤ c.toNat && c.toNat ≤ 0x7e

def Mode.next : Mode → Char → Mode
  | .text, c => if c = '\x1b' then .escape else .text
  | .escape, c => if c = '[' then .control else if c = '(' ∨ c = ')' then .charset else .text
  | .control, c => if isFinal c then .text else .control
  | .charset, _ => .text

def Mode.shows (m : Mode) (c : Char) : Bool := m = .text && c ≠ '\x1b'

/-- The text that input leaves on a terminal in this mode. -/
def strip (m : Mode) : Str → Str
  | [] => []
  | c :: cs => if m.shows c then c :: strip (m.next c) cs else strip (m.next c) cs

def modeAfter (m : Mode) (s : Str) : Mode := s.foldl Mode.next m

@[simp] theorem strip_nil (m : Mode) : strip m [] = [] := rfl

theorem strip_append (m : Mode) (s t : Str) :
    strip m (s ++ t) = strip m s ++ strip (modeAfter m s) t := by
  induction s generalizing m with
  | nil => rfl
  | cons c cs ih =>
    rw [List.cons_append, strip, strip, ih]
    split <;> rfl

end Dobby.Ansi
