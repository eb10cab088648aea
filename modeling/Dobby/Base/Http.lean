import Dobby.Base.Crlf

namespace Dobby.Http
open CString Crlf

/-- The text up to the first line end, and what follows that. -/
def takeLine : Str → Option (Str × Str)
  | '\r' :: '\n' :: rest => some ([], rest)
  | c :: rest => (takeLine rest).map fun p => (c :: p.1, p.2)
  | [] => none

/-- The lines up to the empty one, and what follows that. The text has no more lines than
bytes, so its length is enough fuel. -/
def takeHead : Nat → Str → Option (List Str × Str)
  | 0, _ => none
  | fuel + 1, s =>
    match takeLine s with
    | none => none
    | some ([], rest) => some ([], rest)
    | some (line, rest) => (takeHead fuel rest).map fun p => (line :: p.1, p.2)

structure Response where
  code : Nat
  reason : Str
  fields : List (Str × Str)
  body : Str
  deriving DecidableEq

/-- Three digits and the reason phrase behind the version. -/
def statusLine (line : Str) : Option (Nat × Str) :=
  if "HTTP/1.1 ".toList.isPrefixOf line then
    let digits := (line.drop 9).take 3
    if digits.length = 3 ∧ digits.all Char.isDigit ∧ (line.drop 12).head? = some ' ' then
      some (Nat.ofDigitChars 10 digits 0, line.drop 13)
    else none
  else none

/-- A name and the value behind a colon and a blank. -/
def headerField (line : Str) : Option (Str × Str) :=
  match line.dropWhile (· ≠ ':') with
  | ':' :: ' ' :: value => some (line.takeWhile (· ≠ ':'), value)
  | _ => none

def lengthName : Str := "Content-Length".toList

/-- The length that the fields give. There is one such field, of digits only. -/
def contentLength (fields : List (Str × Str)) : Option Nat :=
  match fields.filter fun f => strcaseEq f.1 lengthName with
  | [f] => if f.2 ≠ [] ∧ f.2.all Char.isDigit then some (Nat.ofDigitChars 10 f.2 0) else none
  | _ => none

/-- A response at the front of what a connection has brought, and the rest. -/
def readResponse (s : Str) : Option (Response × Str) :=
  match takeHead s.length s with
  | some (start :: lines, rest) =>
    match statusLine start, lines.mapM headerField with
    | some (code, reason), some fields =>
      (contentLength fields).bind fun n =>
        if n ≤ rest.length then some (⟨code, reason, fields, rest.take n⟩, rest.drop n) else none
    | _, _ => none
  | _ => none

/-- Text that a line can hold. -/
structure Inline (s : Str) : Prop where
  cr : '\r' ∉ s
  lf : '\n' ∉ s

/-- A name that is not empty and ends at its colon. -/
structure Named (name : Str) : Prop extends Inline name where
  nonempty : name ≠ []
  colon : ':' ∉ name

def Response.start (r : Response) : Str :=
  "HTTP/1.1 ".toList ++ Nat.toDigits 10 r.code ++ ' ' :: r.reason

def fieldLine (f : Str × Str) : Str := f.1 ++ ':' :: ' ' :: f.2

def Response.text (r : Response) : Str :=
  Crlf.text (r.start :: r.fields.map fieldLine) ++ crlf ++ r.body

/-- What a response has to be to be read as it is meant. -/
structure Response.Framed (r : Response) : Prop where
  code_low : 100 ≤ r.code
  code_high : r.code < 1000
  reason : Inline r.reason
  fields : ∀ f ∈ r.fields, Named f.1 ∧ Inline f.2
  framed : contentLength r.fields = some r.body.length

theorem takeLine_line {line : Str} (h : '\r' ∉ line) (rest : Str) :
    takeLine (line ++ (crlf ++ rest)) = some (line, rest) := by
  induction line with
  | nil => rfl
  | cons c cs ih =>
    obtain ⟨hc, hcs⟩ := List.ne_and_not_mem_of_not_mem_cons h
    rw [List.cons_append, takeLine, ih hcs]
    · rfl
    · intro t heq
      exact absurd heq.symm hc

theorem takeHead_text {ls : List Str} (h : ∀ line ∈ ls, Line line) (rest : Str) {fuel : Nat}
    (hfuel : ls.length < fuel) :
    takeHead fuel (Crlf.text ls ++ (crlf ++ rest)) = some (ls, rest) := by
  induction ls generalizing fuel with
  | nil =>
    obtain ⟨n, rfl⟩ := Nat.exists_eq_succ_of_ne_zero (Nat.ne_of_gt hfuel)
    rfl
  | cons line ls ih =>
    obtain ⟨n, rfl⟩ := Nat.exists_eq_succ_of_ne_zero (Nat.ne_of_gt (Nat.zero_lt_of_lt hfuel))
    have hline := h line List.mem_cons_self
    have hmore := ih (fun l hl => h l (List.mem_cons_of_mem _ hl)) (Nat.lt_of_succ_lt_succ hfuel)
    have htake : takeLine (Crlf.text (line :: ls) ++ (crlf ++ rest)) =
        some (line, Crlf.text ls ++ (crlf ++ rest)) := by
      rw [text_cons, List.append_assoc, List.append_assoc]
      exact takeLine_line hline.cr _
    obtain ⟨c, cs, rfl⟩ := List.exists_cons_of_ne_nil hline.nonempty
    rw [takeHead, htake]
    simp [hmore]

theorem length_three {n : Nat} (hlow : 100 ≤ n) (hhigh : n < 1000) :
    (Nat.toDigits 10 n).length = 3 := by
  have hle := (Nat.length_toDigits_le_iff (b := 10) (k := 3) (by decide) (by decide)).mpr hhigh
  have hgt := mt (Nat.length_toDigits_le_iff (b := 10) (k := 2) (n := n) (by decide) (by decide)).mp
    (by omega)
  omega

theorem digits_all (n : Nat) : (Nat.toDigits 10 n).all Char.isDigit = true :=
  List.all_eq_true.mpr fun _ hc => Nat.isDigit_of_mem_toDigits (by decide) (by decide) hc

theorem statusLine_start {r : Response} (hlow : 100 ≤ r.code) (hhigh : r.code < 1000) :
    statusLine r.start = some (r.code, r.reason) := by
  have hlen := length_three hlow hhigh
  have hstart : r.start = "HTTP/1.1 ".toList ++ (Nat.toDigits 10 r.code ++ ' ' :: r.reason) :=
    List.append_assoc _ _ _
  have hfront : "HTTP/1.1 ".toList.isPrefixOf r.start = true := by
    rw [hstart]
    exact List.isPrefixOf_iff_prefix.mpr (List.prefix_append _ _)
  have h9 : r.start.drop 9 = Nat.toDigits 10 r.code ++ ' ' :: r.reason := by
    rw [hstart]
    exact (List.drop_left : ("HTTP/1.1 ".toList ++ _).drop "HTTP/1.1 ".toList.length = _)
  have hdigits : (r.start.drop 9).take 3 = Nat.toDigits 10 r.code := by
    rw [h9, ← hlen, List.take_left]
  have h12 : r.start.drop 12 = ' ' :: r.reason := by
    rw [← List.drop_drop (i := 3) (j := 9), h9, ← hlen, List.drop_left]
  have h13 : r.start.drop 13 = r.reason := by
    rw [← List.drop_drop (i := 1) (j := 12), h12]
    rfl
  rw [statusLine, if_pos hfront]
  simp only [hdigits, h12, h13, hlen, digits_all, List.head?_cons, Nat.ofDigitChars_ten_toDigits,
    and_self, if_true]

theorem headerField_line {f : Str × Str} (h : ':' ∉ f.1) : headerField (fieldLine f) = some f := by
  have hname : ∀ c ∈ f.1, decide (c ≠ ':') = true :=
    fun c hc => by simpa using ne_of_mem_of_not_mem hc h
  rw [headerField, fieldLine, List.dropWhile_append_of_pos hname, List.takeWhile_append_of_pos hname]
  simp

theorem headerFields (fields : List (Str × Str)) (h : ∀ f ∈ fields, ':' ∉ f.1) :
    (fields.map fieldLine).mapM headerField = some fields := by
  induction fields with
  | nil => rfl
  | cons f fields ih =>
    rw [List.map_cons, List.mapM_cons, headerField_line (h f List.mem_cons_self),
      ih fun g hg => h g (List.mem_cons_of_mem f hg)]
    rfl

theorem start_avoids {r : Response} {c : Char} (hversion : c ∉ "HTTP/1.1 ".toList)
    (hdigit : c.isDigit = false) (hblank : c ≠ ' ') (hreason : c ∉ r.reason) : c ∉ r.start := by
  intro hmem
  rcases List.mem_append.mp hmem with hmem | hmem
  · rcases List.mem_append.mp hmem with hmem | hmem
    · exact hversion hmem
    · have hc := Nat.isDigit_of_mem_toDigits (b := 10) (by decide) (by decide) hmem
      exact absurd (hdigit.symm.trans hc) (by decide)
  · exact (List.mem_cons.mp hmem).elim hblank hreason

theorem Response.Framed.lines {r : Response} (h : r.Framed) :
    ∀ line ∈ r.start :: r.fields.map fieldLine, Line line := by
  intro line hline
  rcases List.mem_cons.mp hline with rfl | hline
  · exact ⟨List.append_ne_nil_of_right_ne_nil _ (List.cons_ne_nil _ _),
      start_avoids (by decide) (by decide) (by decide) h.reason.cr,
      start_avoids (by decide) (by decide) (by decide) h.reason.lf⟩
  · obtain ⟨f, hf, rfl⟩ := List.mem_map.mp hline
    obtain ⟨hname, hvalue⟩ := h.fields f hf
    refine ⟨fun hnil => hname.nonempty (List.append_eq_nil_iff.mp hnil).1, ?_, ?_⟩
    · simp [fieldLine, hname.cr, hvalue.cr]
    · simp [fieldLine, hname.lf, hvalue.lf]

theorem lines_le_text (ls : List Str) : ls.length ≤ (Crlf.text ls).length := by
  induction ls with
  | nil => exact Nat.le_refl 0
  | cons line ls ih =>
    have hcrlf : crlf.length = 2 := rfl
    rw [text_cons, List.length_cons, List.length_append, List.length_append, hcrlf]
    omega

/-- A response is read as it was sent, whatever follows it. -/
theorem readResponse_text {r : Response} (h : r.Framed) (more : Str) :
    readResponse (r.text ++ more) = some (r, more) := by
  have hlong : (r.start :: r.fields.map fieldLine).length < (r.text ++ more).length := by
    have hlines := lines_le_text (r.start :: r.fields.map fieldLine)
    have hcrlf : crlf.length = 2 := rfl
    rw [Response.text, List.length_append, List.length_append, List.length_append, hcrlf]
    omega
  have hhead := takeHead_text h.lines (r.body ++ more) hlong
  have htext : Crlf.text (r.start :: r.fields.map fieldLine) ++ (crlf ++ (r.body ++ more)) =
      r.text ++ more := by
    rw [Response.text]
    simp only [List.append_assoc]
  have hrest : r.body.length ≤ (r.body ++ more).length := (List.prefix_append _ _).length_le
  rw [htext] at hhead
  rw [readResponse, hhead]
  simp only [statusLine_start h.code_low h.code_high,
    headerFields r.fields fun f hf => (h.fields f hf).1.colon, h.framed, Option.bind_some]
  rw [if_pos hrest, List.take_left, List.drop_left]

end Dobby.Http
