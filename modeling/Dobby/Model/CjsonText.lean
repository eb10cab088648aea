import Dobby.Base.JsonText

namespace Dobby.Cjson
open CString

/-- `CJSON_NESTING_LIMIT` -/
def nestingLimit : Nat := 1000

/-- `buffer_skip_whitespace`. A parse buffer is what is left of the text at its offset; at
its end this steps back to the last byte. -/
def bufferSkipWhitespace (s : Str) : Str :=
  if s.dropWhile (· ≤ ' ') = [] then s.drop (s.length - 1) else s.dropWhile (· ≤ ' ')

def utf8Bom : Str := ['\xEF', '\xBB', '\xBF']

/-- `skip_utf8_bom` -/
def skipUtf8Bom (s : Str) : Str :=
  if 4 < s.length ∧ utf8Bom.isPrefixOf s then s.drop 3 else s

/-- The characters that `parse_number` copies. -/
def numberChar (c : Char) : Bool :=
  c.isDigit || c = '+' || c = '-' || c = 'e' || c = 'E' || c = '.'

/-- The digits with a point among them that `strtod` takes, and the rest. -/
def takeMantissa (s : Str) : Option (Str × Str) :=
  let whole := s.takeWhile Char.isDigit
  match s.dropWhile Char.isDigit with
  | '.' :: r =>
    let frac := r.takeWhile Char.isDigit
    if whole = [] ∧ frac = [] then none
    else some (whole ++ '.' :: frac, r.dropWhile Char.isDigit)
  | r => if whole = [] then none else some (whole, r)

/-- A sign, if there is one, and the rest. -/
def splitSign : Str → Str × Str
  | '-' :: r => (['-'], r)
  | '+' :: r => (['+'], r)
  | r => ([], r)

/-- The exponent that `strtod` takes, if there is a whole one, and the rest. -/
def takeExponent (s : Str) : Str × Str :=
  match s with
  | c :: r =>
    let signed := splitSign r
    let digits := signed.2.takeWhile Char.isDigit
    if (c = 'e' ∨ c = 'E') ∧ digits ≠ [] then
      (c :: signed.1 ++ digits, signed.2.dropWhile Char.isDigit)
    else ([], s)
  | [] => ([], [])

/-- `strtod` on a text of these characters: what it takes for a number, and the rest. -/
def strtod (s : Str) : Option (Str × Str) :=
  let signed := splitSign s
  (takeMantissa signed.2).map fun m =>
    let e := takeExponent m.2
    (signed.1 ++ m.1 ++ e.1, e.2)

def parseNumber (s : Str) : Option (Json × Str) :=
  (strtod (s.takeWhile numberChar)).map fun p => (.number p.1, p.2 ++ s.dropWhile numberChar)

/-- `parse_hex4`. An invalid digit makes it zero. -/
def parseHex4 (s : Str) : Nat :=
  if (s.take 4).all (fun c => (hexDigit c).isSome) then hexValue (s.take 4) else 0

/-- The bytes of `utf16_literal_to_utf8` after the first of some number of shifts. -/
def utf8Tail (mark : Nat) : Nat → Nat → Str
  | 0, codepoint => [Char.ofNat ((codepoint ||| mark) &&& 0xFF)]
  | n + 1, codepoint =>
    utf8Tail mark n (codepoint >>> 6) ++ [Char.ofNat ((codepoint ||| 0x80) &&& 0xBF)]

def encodeUtf8 (codepoint : Nat) : Option Str :=
  if codepoint < 0x80 then some [Char.ofNat (codepoint &&& 0x7F)]
  else if codepoint < 0x800 then some (utf8Tail 0xC0 1 codepoint)
  else if codepoint < 0x10000 then some (utf8Tail 0xE0 2 codepoint)
  else if codepoint ≤ 0x10FFFF then some (utf8Tail 0xF0 3 codepoint)
  else none

/-- `utf16_literal_to_utf8`, from the backslash to the end of the literal: the bytes
and the length of the sequence. -/
def utf16LiteralToUtf8 (s : Str) : Option (Str × Nat) :=
  if s.length < 6 then none
  else
    let firstCode := parseHex4 (s.drop 2)
    if 0xDC00 ≤ firstCode ∧ firstCode ≤ 0xDFFF then none
    else if 0xD800 ≤ firstCode ∧ firstCode ≤ 0xDBFF then
      if (s.drop 6).length < 6 then none
      else if (s.drop 6).take 2 ≠ ['\\', 'u'] then none
      else
        let secondCode := parseHex4 (s.drop 8)
        if secondCode < 0xDC00 ∨ 0xDFFF < secondCode then none
        else
          (encodeUtf8 (0x10000 + (((firstCode &&& 0x3FF) <<< 10) ||| (secondCode &&& 0x3FF)))).map
            (·, 12)
    else (encodeUtf8 firstCode).map (·, 6)

/-- The literal up to its closing quote, and what follows that. -/
def scanString : Str → Option (Str × Str)
  | [] => none
  | '\\' :: [] => none
  | '\\' :: c :: r => (scanString r).map fun p => ('\\' :: c :: p.1, p.2)
  | c :: r => if c = '"' then some ([], r) else (scanString r).map fun p => (c :: p.1, p.2)

/-- The loop of `parse_string` through the literal, when it passes over this many
characters first. The closing quote follows the last one. -/
def unescape : Nat → Str → Option Str
  | _, [] => some []
  | k + 1, _ :: cs => unescape k cs
  | 0, c :: cs =>
    if c ≠ '\\' then (unescape 0 cs).map (c :: ·)
    else if cs.headD '"' = 'u' then
      match utf16LiteralToUtf8 (c :: cs) with
      | none => none
      | some (bytes, length) => (unescape (length - 1) cs).map (bytes ++ ·)
    else
      match JsonText.shortEscape (cs.headD '"') with
      | none => none
      | some e => (unescape 1 cs).map (e :: ·)

/-- `parse_string`. The value is a C string. -/
def parseString : Str → Option (Str × Str)
  | '"' :: s =>
    match scanString s with
    | none => none
    | some (literal, r) => (unescape 0 literal).map fun output => (cstr output, r)
  | _ => none

section

variable {α : Type} (item : Str → Option (α × Str)) (closing : Char)

/-- The loops of `parse_array` and `parse_object`, from the character before an item
on. Each turn takes some text, so its length is enough fuel. -/
def parseItems : Nat → Str → Option (List α × Str)
  | 0, _ => none
  | fuel + 1, s =>
    match item (bufferSkipWhitespace s) with
    | none => none
    | some (x, r) =>
      match bufferSkipWhitespace r with
      | [] => none
      | c :: r =>
        if c = ',' then (parseItems fuel r).map fun p => (x :: p.1, p.2)
        else if c = closing then some ([x], r)
        else none

/-- `parse_array` and `parse_object` but for their items. -/
def parseBracketed (opening : Char) (s : Str) : Option (List α × Str) :=
  match s with
  | [] => none
  | c :: r =>
    if c ≠ opening then none
    else
      match bufferSkipWhitespace r with
      | [] => none
      | d :: s => if d = closing then some ([], s) else parseItems item closing (s.length + 1) (d :: s)

end

def parseArray (value : Str → Option (Json × Str)) (s : Str) : Option (Json × Str) :=
  (parseBracketed value ']' '[' s).map fun p => (.array p.1, p.2)

/-- A name, a colon and a value, in the loop of `parse_object`. -/
def parseMember (value : Str → Option (Json × Str)) (s : Str) : Option ((Str × Json) × Str) :=
  match parseString s with
  | none => none
  | some (key, r) =>
    match bufferSkipWhitespace r with
    | [] => none
    | c :: r =>
      if c ≠ ':' then none
      else (value (bufferSkipWhitespace r)).map fun p => ((key, p.1), p.2)

def parseObject (value : Str → Option (Json × Str)) (s : Str) : Option (Json × Str) :=
  (parseBracketed (parseMember value) '\x7d' '\x7b' s).map fun p => (.object p.1, p.2)

/-- `parse_value` with the parsers of arrays and objects. -/
def parseValueWith (array object : Str → Option (Json × Str)) (s : Str) : Option (Json × Str) :=
  if "null".toList.isPrefixOf s then some (.null, s.drop 4)
  else if "false".toList.isPrefixOf s then some (.bool false, s.drop 5)
  else if "true".toList.isPrefixOf s then some (.bool true, s.drop 4)
  else
    match s with
    | [] => none
    | c :: _ =>
      if c = '"' then (parseString s).map fun p => (.string p.1, p.2)
      else if c = '-' ∨ c.isDigit then parseNumber s
      else if c = '[' then array s
      else if c = '\x7b' then object s
      else none

/-- `parse_value` where so many more arrays and objects can be nested. -/
def parseValue : Nat → Str → Option (Json × Str)
  | 0 => parseValueWith (fun _ => none) (fun _ => none)
  | levels + 1 => parseValueWith (parseArray (parseValue levels)) (parseObject (parseValue levels))

/-- `cJSON_ParseWithLength` -/
def cJSONParseWithLength (buffer : Str) : Option Json :=
  (parseValue nestingLimit (bufferSkipWhitespace (skipUtf8Bom buffer))).map Prod.fst

/-- `cJSON_Parse`. The terminator belongs to the buffer. -/
def cJSONParse (value : Str) : Option Json := cJSONParseWithLength (cstr value ++ ['\x00'])

/-- What `print_string_ptr` writes for a byte. -/
def escapeChar (c : Char) : Str :=
  if 31 < c.toNat ∧ c ≠ '"' ∧ c ≠ '\\' then [c]
  else if c = '\\' then ['\\', '\\']
  else if c = '"' then ['\\', '"']
  else if c = '\x08' then ['\\', 'b']
  else if c = '\x0c' then ['\\', 'f']
  else if c = '\n' then ['\\', 'n']
  else if c = '\r' then ['\\', 'r']
  else if c = '\t' then ['\\', 't']
  else '\\' :: 'u' :: List.leftpad 4 '0' (printHex c.toNat)

def printStringPtr (input : Str) : Str := '"' :: (cstr input).flatMap escapeChar ++ ['"']

/-- The value of a decimal number that is integral. -/
def integral (text : Str) : Option Int :=
  let signed := takeSign text
  let whole := signed.2.takeWhile Char.isDigit
  let rest := signed.2.dropWhile Char.isDigit
  let pointed := rest.head? = some '.'
  let frac := if pointed then (rest.drop 1).takeWhile Char.isDigit else []
  let rest := if pointed then (rest.drop 1).dropWhile Char.isDigit else rest
  let e := Json.exponent rest - frac.length
  let m := Nat.ofDigitChars 10 (whole ++ frac) 0
  if 0 ≤ e ∨ m % 10 ^ (-e).toNat = 0 then some (Json.truncNumber text) else none

/-- `%d` -/
def printInt (n : Int) : Str :=
  if n < 0 then '-' :: Nat.toDigits 10 n.natAbs else Nat.toDigits 10 n.natAbs

/-- What the C library prints with `%1.15g` or `%1.17g` for the double of a numeral, or
the `null` that stands for an infinite one. -/
structure Doubles where
  print : Str → Str
  printed : ∀ text, JsonText.Numeral (print text) ∨ print text = "null".toList

/-- `print_number` -/
def printNumber (doubles : Doubles) (text : Str) : Str :=
  match integral text with
  | none => doubles.print text
  | some n => if Json.intMin ≤ n ∧ n ≤ Json.intMax then printInt n else doubles.print text

def tabs (depth : Nat) : Str := List.replicate depth '\t'

section

variable (doubles : Doubles) (format : Bool)

mutual

/-- `print_value` at a depth of the buffer. -/
def printValue (depth : Nat) : Json → Str
  | .null => "null".toList
  | .bool false => "false".toList
  | .bool true => "true".toList
  | .number text => printNumber doubles text
  | .string s => printStringPtr s
  | .array items => '[' :: printItems (depth + 1) items ++ [']']
  | .object members =>
    '\x7b' :: (if format then ['\n'] else []) ++ printMembers (depth + 1) members ++
      (if format then tabs depth else []) ++ ['\x7d']

/-- The loop of `print_array`. -/
def printItems (depth : Nat) : List Json → Str
  | [] => []
  | j :: items =>
    printValue depth j ++
      (if items = [] then [] else if format then [',', ' '] else [',']) ++ printItems depth items

/-- The loop of `print_object`. -/
def printMembers (depth : Nat) : List (Str × Json) → Str
  | [] => []
  | (key, j) :: members =>
    (if format then tabs depth else []) ++ printStringPtr key ++
      (if format then [':', '\t'] else [':']) ++ printValue depth j ++
      (if members = [] then [] else [',']) ++ (if format then ['\n'] else []) ++
      printMembers depth members

end

end

def cJSONPrint (doubles : Doubles) (j : Json) : Str := printValue doubles true 0 j

def cJSONPrintUnformatted (doubles : Doubles) (j : Json) : Str :=
  printValue doubles false 0 j

end Dobby.Cjson
