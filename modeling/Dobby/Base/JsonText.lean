import Dobby.Base.Cjson

namespace Dobby.JsonText
open CString

/-- White space is any run of blank characters. -/
def Blank (space : Char → Prop) (w : Str) : Prop := ∀ c ∈ w, space c

section

variable {α : Type} (space : Char → Prop) (item : Str → α → Prop)

/-- One or more items with commas between them. -/
inductive Separated : Str → List α → Prop where
  | last {w t v : Str} {x : α} (hw : Blank space w) (ht : item t x) (hv : Blank space v) :
      Separated (w ++ t ++ v) [x]
  | cons {w t v s : Str} {x : α} {xs : List α} (hw : Blank space w) (ht : item t x) (hv : Blank space v)
      (hs : Separated s xs) : Separated (w ++ t ++ v ++ ',' :: s) (x :: xs)

/-- Any number of items between two brackets. -/
inductive Bracketed (opening closing : Char) : Str → List α → Prop where
  | empty {w : Str} (hw : Blank space w) : Bracketed opening closing (opening :: w ++ [closing]) []
  | items {s : Str} {xs : List α} (hs : Separated space item s xs) :
      Bracketed opening closing (opening :: s ++ [closing]) xs

end

/-- What white space, the text of a number and the text of a string are. -/
structure Lexemes where
  space : Char → Prop
  numeral : Str → Prop
  quoted : Str → Str → Prop

inductive Scalar (lex : Lexemes) : Str → Json → Prop where
  | null : Scalar lex "null".toList .null
  | true_ : Scalar lex "true".toList (.bool true)
  | false_ : Scalar lex "false".toList (.bool false)
  | number {t : Str} (h : lex.numeral t) : Scalar lex t (.number t)
  | string {t s : Str} (h : lex.quoted t s) : Scalar lex t (.string s)

/-- A name and its value. -/
inductive Member (lex : Lexemes) (value : Str → Json → Prop) : Str → Str × Json → Prop where
  | mk {q w v t key : Str} {j : Json} (hq : lex.quoted q key) (hw : Blank lex.space w) (hv : Blank lex.space v)
      (ht : value t j) : Member lex value (q ++ w ++ ':' :: (v ++ t)) (key, j)

inductive Container (lex : Lexemes) (value : Str → Json → Prop) : Str → Json → Prop where
  | array {t : Str} {items : List Json} (h : Bracketed lex.space value '[' ']' t items) :
      Container lex value t (.array items)
  | object {t : Str} {members : List (Str × Json)}
      (h : Bracketed lex.space (Member lex value) '\x7b' '\x7d' t members) :
      Container lex value t (.object members)

/-- The texts of a value whose arrays and objects are nested up to some depth. -/
def Denotes (lex : Lexemes) : Nat → Str → Json → Prop
  | 0 => Scalar lex
  | n + 1 => fun t j => Scalar lex t j ∨ Container lex (Denotes lex n) t j

/-- Arrays and objects nested up to some depth. -/
def Nested : Nat → Json → Prop
  | 0, .array _ => False
  | 0, .object _ => False
  | n + 1, .array items => ∀ j ∈ items, Nested n j
  | n + 1, .object members => ∀ m ∈ members, Nested n m.2
  | _, _ => True

/-- A value with white space around it. -/
inductive Document (lex : Lexemes) (n : Nat) : Str → Json → Prop where
  | mk {w t v : Str} {j : Json} (hw : Blank lex.space w) (ht : Denotes lex n t j)
      (hv : Blank lex.space v) :
      Document lex n (w ++ t ++ v) j

section

variable {α : Type} {space space' : Char → Prop} {P Q : Str → α → Prop} {opening closing : Char}

theorem Blank.mono (hspace : ∀ c, space c → space' c) {w : Str} (h : Blank space w) :
    Blank space' w := fun c hc => hspace c (h c hc)

theorem Separated.mono (hspace : ∀ c, space c → space' c) (hPQ : ∀ t x, P t x → Q t x) {t : Str}
    {xs : List α} (h : Separated space P t xs) : Separated space' Q t xs := by
  induction h with
  | last hw ht hv => exact .last (hw.mono hspace) (hPQ _ _ ht) (hv.mono hspace)
  | cons hw ht hv _ ih => exact .cons (hw.mono hspace) (hPQ _ _ ht) (hv.mono hspace) ih

theorem Bracketed.mono (hspace : ∀ c, space c → space' c) (hPQ : ∀ t x, P t x → Q t x) {t : Str}
    {xs : List α} (h : Bracketed space P opening closing t xs) :
    Bracketed space' Q opening closing t xs := by
  cases h with
  | empty hw => exact .empty (hw.mono hspace)
  | items hs => exact .items (hs.mono hspace hPQ)

end

theorem Denotes.mono {lex lex' : Lexemes} (hspace : ∀ c, lex.space c → lex'.space c)
    (hnumeral : ∀ t, lex.numeral t → lex'.numeral t)
    (hquoted : ∀ t s, lex.quoted t s → lex'.quoted t s) {n : Nat} {t : Str} {j : Json}
    (h : Denotes lex n t j) : Denotes lex' n t j := by
  have hscalar : ∀ {t j}, Scalar lex t j → Scalar lex' t j := by
    intro t j h
    cases h with
    | null => exact .null
    | true_ => exact .true_
    | false_ => exact .false_
    | number h => exact .number (hnumeral _ h)
    | string h => exact .string (hquoted _ _ h)
  induction n generalizing t j with
  | zero => exact hscalar h
  | succ n ih =>
    rcases h with h | h
    · exact .inl (hscalar h)
    · cases h with
      | array h => exact .inr (.array (h.mono hspace fun _ _ => ih))
      | object h =>
        refine .inr (.object (h.mono hspace fun _ _ hm => ?_))
        cases hm with
        | mk hq hw hv ht => exact .mk (hquoted _ _ hq) (hw.mono hspace) (hv.mono hspace) (ih ht)

/-- More nesting may be allowed. -/
theorem Denotes.lift {lex : Lexemes} {n m : Nat} (hnm : n ≤ m) {t : Str} {j : Json}
    (h : Denotes lex n t j) : Denotes lex m t j := by
  induction n generalizing m t j with
  | zero =>
    cases m with
    | zero => exact h
    | succ m => exact .inl h
  | succ n ih =>
    obtain ⟨k, rfl⟩ := Nat.exists_eq_add_of_lt hnm
    rw [show n + k + 1 = (n + k) + 1 from rfl]
    rcases h with h | h
    · exact .inl h
    · cases h with
      | array h => exact .inr (.array (h.mono (fun _ => id) fun _ _ => ih (Nat.le_add_right n k)))
      | object h =>
        refine .inr (.object (h.mono (fun _ => id) fun _ _ hm => ?_))
        cases hm with
        | mk hq hw hv ht => exact .mk hq hw hv (ih (Nat.le_add_right n k) ht)

theorem bracketed_front {α : Type} {space : Char → Prop} {P : Str → α → Prop} {opening closing : Char}
    {t : Str} {xs : List α} (h : Bracketed space P opening closing t xs) : ∃ cs, t = opening :: cs := by
  cases h with
  | empty => exact ⟨_, rfl⟩
  | items => exact ⟨_, rfl⟩

theorem bracketed_last {α : Type} {space : Char → Prop} {P : Str → α → Prop} {opening closing : Char}
    {t : Str} {xs : List α} (h : Bracketed space P opening closing t xs) : ∃ l, t = l ++ [closing] := by
  cases h with
  | empty => exact ⟨_, rfl⟩
  | items => exact ⟨_, rfl⟩

theorem blank_append {space : Char → Prop} {v w : Str} (hv : Blank space v) (hw : Blank space w) :
    Blank space (v ++ w) := by
  intro c hc
  rcases List.mem_append.mp hc with hc | hc
  · exact hv c hc
  · exact hw c hc

theorem Separated.blank_left {α : Type} {space : Char → Prop} {P : Str → α → Prop} {v t : Str}
    {xs : List α} (hv : Blank space v) (h : Separated space P t xs) :
    Separated space P (v ++ t) xs := by
  cases h with
  | last hw ht hr =>
    rw [← List.append_assoc, ← List.append_assoc]
    exact .last (blank_append hv hw) ht hr
  | cons hw ht hr hs =>
    rw [← List.append_assoc, ← List.append_assoc, ← List.append_assoc]
    exact .cons (blank_append hv hw) ht hr hs

theorem Separated.blank_right {α : Type} {space : Char → Prop} {P : Str → α → Prop} {v t : Str}
    {xs : List α} (hv : Blank space v) (h : Separated space P t xs) :
    Separated space P (t ++ v) xs := by
  induction h with
  | last hw ht hr =>
    rw [List.append_assoc]
    exact .last hw ht (blank_append hr hv)
  | cons hw ht hr hs ih =>
    rw [List.append_assoc]
    exact .cons hw ht hr ih

theorem blank_nil {space : Char → Prop} : Blank space [] := fun _ h => by cases h

theorem Nested.mono {n m : Nat} (hnm : n ≤ m) {j : Json} (h : Nested n j) : Nested m j := by
  induction n generalizing m j with
  | zero => cases j <;> first | exact absurd h id | (cases m <;> trivial)
  | succ n ih =>
    obtain ⟨k, rfl⟩ := Nat.exists_eq_add_of_lt hnm
    rw [show n + k + 1 = (n + k) + 1 from rfl] at *
    cases j with
    | array items => exact fun j hj => ih (Nat.le_add_right n k) (h j hj)
    | object members => exact fun m hm => ih (Nat.le_add_right n k) (h m hm)
    | _ => trivial

theorem nested_children {n : Nat} {j item : Json} (h : Nested n j) (hitem : item ∈ j.children) :
    Nested n item := by
  cases n with
  | zero => cases j <;> first | exact absurd h id | cases hitem
  | succ n =>
    cases j with
    | array items => exact Nested.mono (Nat.le_succ n) (h item hitem)
    | object members =>
      obtain ⟨m, hm, rfl⟩ := List.mem_map.mp hitem
      exact Nested.mono (Nat.le_succ n) (h m hm)
    | _ => cases hitem

theorem nested_within {n : Nat} {root j : Json} (h : Nested n root) (hj : root.Within j) :
    Nested n j := by
  induction hj with
  | root => exact h
  | child _ hitem ih => exact nested_children ih hitem

theorem separated_forall {α : Type} {space : Char → Prop} {P : Str → α → Prop} {Q : α → Prop}
    (hPQ : ∀ t x, P t x → Q x) {t : Str} {xs : List α} (h : Separated space P t xs) :
    ∀ x ∈ xs, Q x := by
  induction h with
  | last hw ht hv => exact List.forall_mem_singleton.mpr (hPQ _ _ ht)
  | cons hw ht hv hs ih => exact List.forall_mem_cons.mpr ⟨hPQ _ _ ht, ih⟩

theorem bracketed_forall {α : Type} {space : Char → Prop} {P : Str → α → Prop} {Q : α → Prop}
    {opening closing : Char} (hPQ : ∀ t x, P t x → Q x) {t : Str} {xs : List α}
    (h : Bracketed space P opening closing t xs) :
    ∀ x ∈ xs, Q x := by
  cases h with
  | empty => exact fun _ h => by cases h
  | items hs => exact separated_forall hPQ hs

theorem scalar_nested {lex : Lexemes} {t : Str} {j : Json} (h : Scalar lex t j) (n : Nat) :
    Nested n j := by
  cases h <;> cases n <;> trivial

theorem denotes_nested {lex : Lexemes} {n : Nat} {t : Str} {j : Json} (h : Denotes lex n t j) :
    Nested n j := by
  induction n generalizing t j with
  | zero => exact scalar_nested h 0
  | succ n ih =>
    rcases h with h | h
    · exact scalar_nested h _
    · cases h with
      | array h => exact bracketed_forall (fun _ _ hx => ih hx) h
      | object h =>
        refine bracketed_forall (fun t x hx => ?_) h
        cases hx with
        | mk hq hw hv ht => exact ih ht

mutual

theorem exists_nested : ∀ j, ∃ n, Nested n j
  | .null => ⟨0, trivial⟩
  | .bool _ => ⟨0, trivial⟩
  | .number _ => ⟨0, trivial⟩
  | .string _ => ⟨0, trivial⟩
  | .array items =>
    have ⟨n, hn⟩ := exists_nested_items items
    ⟨n + 1, hn⟩
  | .object members =>
    have ⟨n, hn⟩ := exists_nested_members members
    ⟨n + 1, hn⟩

theorem exists_nested_items : ∀ items : List Json, ∃ n, ∀ j ∈ items, Nested n j
  | [] => ⟨0, fun _ h => by cases h⟩
  | j :: items =>
    have ⟨n, hn⟩ := exists_nested j
    have ⟨m, hm⟩ := exists_nested_items items
    ⟨max n m, List.forall_mem_cons.mpr ⟨Nested.mono (Nat.le_max_left n m) hn,
      fun i hi => Nested.mono (Nat.le_max_right n m) (hm i hi)⟩⟩

theorem exists_nested_members : ∀ members : List (Str × Json), ∃ n, ∀ m ∈ members, Nested n m.2
  | [] => ⟨0, fun _ h => by cases h⟩
  | (_, j) :: members =>
    have ⟨n, hn⟩ := exists_nested j
    have ⟨m, hm⟩ := exists_nested_members members
    ⟨max n m, List.forall_mem_cons.mpr ⟨Nested.mono (Nat.le_max_left n m) hn,
      fun i hi => Nested.mono (Nat.le_max_right n m) (hm i hi)⟩⟩

end

theorem container_of_nested {lex : Lexemes} {n : Nat} {t : Str} {j : Json} (h : ¬ Nested 0 j)
    (hden : Denotes lex n t j) : ∃ m, n = m + 1 ∧ Container lex (Denotes lex m) t j := by
  cases n with
  | zero => exact absurd (scalar_nested hden 0) h
  | succ m => exact ⟨m, rfl, hden.resolve_left fun hs => h (scalar_nested hs 0)⟩

theorem within_children {root j : Json} (h : root.Within j) :
    root = j ∨ ∃ item ∈ root.children, item.Within j := by
  induction h with
  | root => exact .inl rfl
  | child h hitem ih =>
    rcases ih with rfl | ⟨i, hi, hw⟩
    · exact .inr ⟨_, hitem, .root⟩
    · exact .inr ⟨i, hi, hw.child hitem⟩

def Digits (s : Str) : Prop := s ≠ [] ∧ ∀ c ∈ s, c.isDigit = true

inductive Whole : Str → Prop where
  | zero : Whole ['0']
  | digits {c : Char} {s : Str} (hc : c.isDigit = true) (hne : c ≠ '0')
      (hs : ∀ d ∈ s, d.isDigit = true) : Whole (c :: s)

inductive Fraction : Str → Prop where
  | absent : Fraction []
  | present {s : Str} (hs : Digits s) : Fraction ('.' :: s)

inductive Exponent : Str → Prop where
  | absent : Exponent []
  | present {e : Char} {sign s : Str} (he : e = 'e' ∨ e = 'E')
      (hsign : sign = [] ∨ sign = ['-'] ∨ sign = ['+']) (hs : Digits s) :
      Exponent (e :: sign ++ s)

inductive Numeral : Str → Prop where
  | mk {sign whole frac exp : Str} (hsign : sign = [] ∨ sign = ['-']) (hwhole : Whole whole)
      (hfrac : Fraction frac) (hexp : Exponent exp) : Numeral (sign ++ whole ++ frac ++ exp)

/-- The bytes of a character. -/
def utf8 (c : Char) : Str := (String.utf8EncodeChar c).map (fun b => Char.ofNat b.toNat)

/-- Four hexadecimal digits and their value. -/
structure HexUnit (x : Str) (n : Nat) : Prop where
  length : x.length = 4
  digits : ∀ d ∈ x, (hexDigit d).isSome = true
  value : hexValue x = n

/-- The letter after a backslash and the character that it stands for. -/
def shortEscape : Char → Option Char
  | 'b' => some '\x08'
  | 'f' => some '\x0c'
  | 'n' => some '\n'
  | 'r' => some '\r'
  | 't' => some '\t'
  | '"' => some '"'
  | '\\' => some '\\'
  | '/' => some '/'
  | _ => none

/-- The inside of a string and its bytes. -/
inductive Chars : Str → Str → Prop where
  | nil : Chars [] []
  | plain {c : Char} {t s : Str} (hc : ' ' ≤ c) (hquote : c ≠ '"') (hslash : c ≠ '\\')
      (ht : Chars t s) : Chars (c :: t) (c :: s)
  | short {e c : Char} {t s : Str} (he : shortEscape e = some c) (ht : Chars t s) :
      Chars ('\\' :: e :: t) (c :: s)
  | unit {c : Char} {x t s : Str} (hc : c.toNat < 0x10000) (hx : HexUnit x c.toNat)
      (ht : Chars t s) : Chars ('\\' :: 'u' :: x ++ t) (utf8 c ++ s)
  | pair {c : Char} {x y t s : Str} (hc : 0x10000 ≤ c.toNat)
      (hx : HexUnit x (0xD800 + (c.toNat - 0x10000) / 0x400))
      (hy : HexUnit y (0xDC00 + (c.toNat - 0x10000) % 0x400)) (ht : Chars t s) :
      Chars ('\\' :: 'u' :: x ++ '\\' :: 'u' :: y ++ t) (utf8 c ++ s)

inductive Quoted : Str → Str → Prop where
  | mk {t s : Str} (ht : Chars t s) : Quoted ('"' :: t ++ ['"']) s

/-- The lexemes of RFC 8259, on bytes. A string is known up to its first null byte. -/
def rfc : Lexemes where
  space c := c = ' ' ∨ c = '\t' ∨ c = '\n' ∨ c = '\r'
  numeral := Numeral
  quoted t s := ∃ bytes, Quoted t bytes ∧ s = cstr bytes

end Dobby.JsonText
