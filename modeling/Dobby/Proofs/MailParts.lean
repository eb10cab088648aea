import Dobby.Proofs.MailHeaders

namespace Dobby.Email
open CString Lines Rfc5322

def contentType : FieldName := ⟨"Content-Type".toList, by decide, by decide⟩

structure Boundary where
  text : Str
  nonempty : text ≠ []
  short : text.length ≤ 253
  quote : '"' ∉ text
  unbroken : Unbroken text

def Boundary.delimiter (b : Boundary) : Str := '-' :: '-' :: b.text

inductive Subtype where
  | mixed | alternative | related

def Subtype.text : Subtype → Str
  | .mixed => "mixed".toList
  | .alternative => "alternative".toList
  | .related => "related".toList

def multipartLine (subtype : Subtype) (b : Boundary) : Str :=
  "Content-Type: multipart/".toList ++ (subtype.text ++
    ("; boundary=".toList ++ '"' :: (b.text ++ ['"'])))

/-- The header of a message whose only content type announces the boundary. -/
structure Multipart (b : Boundary) where
  subtype : Subtype
  header : List Str
  plain : ∀ line ∈ header, Crlf.Line line
  typed : header.filter (isField contentType.text) = [multipartLine subtype b]
  free : ¬ b.delimiter <:+: Crlf.text header

structure Part (b : Boundary) where
  header : List Str
  typeLine : Str
  body : Str
  plain : ∀ line ∈ header, Crlf.Line line
  typed : header.filter (isField contentType.text) = [typeLine]
  undashed : (Crlf.text header).head? ≠ some '-'
  freeHeader : ¬ b.delimiter <:+: Crlf.text header
  freeBody : ¬ b.delimiter <:+: body

/-- A text that ends in no CR, LF or space. -/
def Untrailed (s : Str) : Prop := ∀ c ∈ s.getLast?, c ≠ '\r' ∧ c ≠ '\n' ∧ c ≠ ' '

instance : DecidablePred Untrailed := fun s =>
  inferInstanceAs (Decidable (∀ c ∈ s.getLast?, c ≠ '\r' ∧ c ≠ '\n' ∧ c ≠ ' '))

/-- The longest start of a text that ends in no CR, LF or space. -/
def untrailed (s : Str) : Str := (s.inits.filter Untrailed).getLast?.getD []

section Message

variable {b : Boundary}

/-- What the content type starts with, behind blanks. -/
def Part.type (part : Part b) : Str := (afterColon part.typeLine).dropWhile isWsp

def Part.isPlain (part : Part b) : Bool := startsWith "text/plain".toList part.type

def Part.text (part : Part b) : Str :=
  Crlf.text part.header ++ (Crlf.crlf ++ (part.body ++ Crlf.crlf))

/-- The parts, each behind a line with the delimiter, and the closing delimiter. -/
def partsText (parts : List (Part b)) (epilogue : Str) : Str :=
  (parts.flatMap fun part => b.delimiter ++ (Crlf.crlf ++ part.text)) ++
    (b.delimiter ++ ('-' :: '-' :: epilogue))

def assembled (m : Multipart b) (parts : List (Part b)) (epilogue : Str) : Str :=
  Crlf.text m.header ++ (Crlf.crlf ++ partsText parts epilogue)

/-- The first text in plain text, without trailing blanks and at most 16384 bytes of it. -/
def plainBody (parts : List (Part b)) : Str :=
  match parts.find? Part.isPlain with
  | some part => (untrailed part.body).take 16384
  | none => "(no plain text body)".toList

theorem Part.text_append (part : Part b) (s : Str) : part.text ++ s =
    Crlf.text part.header ++ (Crlf.crlf ++ (part.body ++ (Crlf.crlf ++ s))) := by
  simp [Part.text]

theorem partsText_cons (part : Part b) (parts : List (Part b)) (epilogue : Str) :
    partsText (part :: parts) epilogue =
      b.delimiter ++ (Crlf.crlf ++ (part.text ++ partsText parts epilogue)) := by
  simp [partsText]

theorem partsText_starts (parts : List (Part b)) (epilogue : Str) :
    ∃ rest, partsText parts epilogue = b.delimiter ++ rest := by
  cases parts with
  | nil => exact ⟨_, rfl⟩
  | cons part parts => exact ⟨_, partsText_cons part parts epilogue⟩

/-- A delimiter does not reach over the end of a line. -/
theorem strstr_delimiter {front : Str} (h : ¬ b.delimiter <:+: front) (s : Str) :
    strstr b.delimiter (front ++ (Crlf.crlf ++ s)) = strstr b.delimiter s := by
  have hne : b.delimiter ≠ [] := List.cons_ne_nil _ _
  have hcr : '\r' ∉ b.delimiter := by
    simpa [Boundary.delimiter] using b.unbroken.1
  have hlf : '\n' ∉ b.delimiter := by
    simpa [Boundary.delimiter] using b.unbroken.2
  have hempty : ¬ b.delimiter <:+: [] := fun h => hne (List.infix_nil.mp h)
  exact (strstr_behind hne hcr h _).trans (strstr_behind hne hlf hempty s)

theorem strstr_part (part : Part b) (s : Str) :
    strstr b.delimiter (part.text ++ s) = strstr b.delimiter s := by
  rw [part.text_append, strstr_delimiter part.freeHeader, strstr_delimiter part.freeBody]

theorem strstr_parts (parts : List (Part b)) (epilogue : Str) :
    strstr b.delimiter (partsText parts epilogue) = some (partsText parts epilogue) := by
  obtain ⟨rest, hrest⟩ := partsText_starts parts epilogue
  rw [hrest]
  exact strstr_append _ _

theorem extractHeader_text {header : List Str} {line : Str} (name : FieldName)
    (hplain : ∀ l ∈ header, Crlf.Line l) (htyped : header.filter (isField name.text) = [line])
    (rest : Str) : extractHeader (Crlf.text header ++ (Crlf.crlf ++ rest)) name.text =
      some (stripped (afterColon line)) := by
  obtain ⟨more, hmore⟩ := fromField_of_filter htyped
  rw [← headerLines_text hplain rest] at hmore
  exact findSome_headerValue name.colon (fun l hl => lines_dropLast hl) hmore

/-- What is trimmed off the end cannot be part of a start that lacks it. -/
theorem startsWith_trimEnd {pre : Str} {q : Char → Bool}
    (hpre : ∀ c, q c = true → toLower c ∉ pre.map toLower) (s : Str) :
    startsWith pre (trimEnd q s) = startsWith pre s := by
  change startsWith pre (s.rdropWhile q) = startsWith pre s
  induction s using List.reverseRecOn with
  | nil => rfl
  | append_singleton s c ih =>
    by_cases hc : q c = true
    · rw [List.rdropWhile_concat_pos q s c hc, ih, startsWith, startsWith, List.map_append]
      exact (isPrefixOf_append (hpre c hc) _ []).symm
    · rw [List.rdropWhile_concat_neg q s c hc]

theorem startsWith_stripped (v : Str) : startsWith "text/plain".toList (stripped v) =
    startsWith "text/plain".toList (v.dropWhile isWsp) := by
  refine startsWith_trimEnd (fun c hc => ?_) _
  rw [Bool.or_eq_true, decide_eq_true_eq, decide_eq_true_eq] at hc
  rcases hc with rfl | rfl <;> decide

/-- The announced content type as the scanner returns it. -/
def multipartValue (subtype : Subtype) (b : Boundary) : Str :=
  "multipart/".toList ++ (subtype.text ++ ("; boundary=".toList ++ '"' :: (b.text ++ ['"'])))

theorem stripped_multipart (subtype : Subtype) (b : Boundary) :
    stripped (afterColon (multipartLine subtype b)) = multipartValue subtype b := by
  have hline : multipartLine subtype b =
      "Content-Type".toList ++ ':' :: (' ' :: multipartValue subtype b) := by
    have hstart : "Content-Type: multipart/".toList =
        "Content-Type".toList ++ ':' :: ' ' :: "multipart/".toList := by decide +kernel
    unfold multipartLine multipartValue
    rw [hstart]
    simp only [List.append_assoc, List.cons_append]
  have hends : multipartValue subtype b = ("multipart/".toList ++ (subtype.text ++
      ("; boundary=".toList ++ '"' :: b.text))) ++ ['"'] := by
    unfold multipartValue
    simp only [List.append_assoc, List.cons_append]
  have hfront : (' ' :: multipartValue subtype b).dropWhile (fun c => c = ' ' || c = '\t') =
      multipartValue subtype b := by
    have hm : "multipart/".toList = 'm' :: "ultipart/".toList := by decide +kernel
    unfold multipartValue
    rw [hm, List.cons_append, List.dropWhile_cons_of_pos (by decide),
      List.dropWhile_cons_of_neg (by decide)]
  have hcolon : ':' ∉ "Content-Type".toList := by decide
  rw [hline, afterColon_colon hcolon, stripped, hfront, hends]
  exact List.rdropWhile_concat_neg _ _ _ (by decide)

theorem strstr_multipart (subtype : Subtype) (b : Boundary) :
    (strstr "multipart".toList (multipartValue subtype b)).isSome = true := by
  have hstart : "multipart/".toList = "multipart".toList ++ ['/'] := by decide +kernel
  unfold multipartValue
  rw [hstart, List.append_assoc, strstr_append]
  rfl

theorem boundaryText_multipart (subtype : Subtype) (b : Boundary) :
    boundaryText (multipartValue subtype b) = b.text := by
  have hfound : strstr "boundary".toList ("multipart/".toList ++ (subtype.text ++
      "; boundary".toList)) = some "boundary".toList := by
    cases subtype <;> decide
  have hvalue : multipartValue subtype b = ("multipart/".toList ++ (subtype.text ++
      "; boundary".toList)) ++ ('=' :: '"' :: (b.text ++ ['"'])) := by
    have hstart : "; boundary=".toList = "; boundary".toList ++ ['='] := by decide +kernel
    unfold multipartValue
    rw [hstart]
    simp only [List.append_assoc, List.cons_append, List.nil_append]
  have hquoted : (b.text ++ ['"']).takeWhile (fun c => c ≠ '"') = b.text := by
    have hb : ∀ c ∈ b.text, decide (c ≠ '"') = true := by
      intro c hc
      simpa using ne_of_mem_of_not_mem hc b.quote
    rw [List.takeWhile_append_of_pos hb, List.takeWhile_cons_of_neg (by simp), List.append_nil]
  have hdrop : ("boundary".toList ++ '=' :: '"' :: (b.text ++ ['"'])).drop 8 =
      '=' :: '"' :: (b.text ++ ['"']) := List.drop_left' (by decide)
  have hskip : ('=' :: '"' :: (b.text ++ ['"'])).dropWhile (fun c => c = ' ' || c = '=') =
      '"' :: (b.text ++ ['"']) := rfl
  unfold boundaryText
  rw [hvalue, strstr_grow hfound]
  simp only [hdrop, hskip]
  rw [hquoted, List.take_of_length_le b.short]

theorem untrailed_append (s : Str) (c : Char) :
    untrailed (s ++ [c]) = if Untrailed (s ++ [c]) then s ++ [c] else untrailed s := by
  unfold untrailed
  rw [List.inits_append, List.filter_append]
  by_cases h : Untrailed (s ++ [c])
  · simp [h]
  · simp [h]

/-- What the scan for trailing blanks leaves is the longest start without them. -/
theorem trimEnd_untrailed (s : Str) :
    trimEnd (fun c => c = '\r' || c = '\n' || c = ' ') s = untrailed s := by
  change s.rdropWhile _ = _
  induction s using List.reverseRecOn with
  | nil => simp [untrailed, Untrailed]
  | append_singleton s c ih =>
    rw [untrailed_append]
    by_cases hc : c = '\r' ∨ c = '\n' ∨ c = ' '
    · have hends : ¬ Untrailed (s ++ [c]) := by
        simp [Untrailed]
        tauto
      rw [List.rdropWhile_concat_pos _ _ _ (by simpa [or_assoc] using hc), ih, if_neg hends]
    · have hends : Untrailed (s ++ [c]) := by
        simp [Untrailed]
        tauto
      rw [List.rdropWhile_concat_neg _ _ _ (by simpa [or_assoc] using hc), if_pos hends]

theorem bodyText_eq (s : Str) : bodyText s = (untrailed s).take 16384 :=
  congrArg (List.take 16384) (trimEnd_untrailed s)

theorem scanParts_found {text p q : Str} (h : strstr ('-' :: '-' :: text) p = some q) :
    scanParts text p =
      let part := skipBreak (q.drop (text.length + 2))
      if part.head? = some '-' then "(no plain text body)".toList
      else match afterBlank part with
        | none => scanParts text part
        | some body =>
          if (extractHeader part "Content-Type".toList).any (startsWith "text/plain".toList) then
            bodyText (beforeBoundary ('-' :: '-' :: text) body)
          else scanParts text part := by
  rw [scanParts]
  split
  · rename_i hnone
    rw [h] at hnone
    cases hnone
  · rename_i r hr
    rw [h] at hr
    cases hr
    rfl

theorem drop_delimiter (b : Boundary) (s : Str) : (b.delimiter ++ s).drop (b.text.length + 2) = s :=
  List.drop_left' rfl

section Part

variable (part : Part b) (s : Str)

theorem Part.header_ne_nil : part.header ≠ [] := by
  intro h
  have htyped := part.typed
  rw [h] at htyped
  cases htyped

/-- The blank line that is found is the one behind the header of the part. -/
theorem afterBlank_part : afterBlank (part.text ++ s) = some (part.body ++ (Crlf.crlf ++ s)) := by
  have hblank : "\r\n\r\n".toList = Crlf.blank := rfl
  unfold afterBlank
  rw [hblank, part.text_append, Crlf.strstr_text part.header_ne_nil part.plain]
  exact congrArg some (List.drop_left' rfl)

theorem head_part : (part.text ++ s).head? ≠ some '-' := by
  obtain ⟨line, more, hheader⟩ := List.exists_cons_of_ne_nil part.header_ne_nil
  have hline : line ≠ [] := (part.plain line (by simp [hheader])).nonempty
  have hne : Crlf.text part.header ≠ [] := by
    rw [hheader, Crlf.text_cons]
    exact fun h => hline (List.append_eq_nil_iff.mp h).1
  rw [part.text_append, List.head?_append_of_ne_nil _ hne]
  exact part.undashed

theorem type_part : (extractHeader (part.text ++ s) "Content-Type".toList).any
    (startsWith "text/plain".toList) = part.isPlain := by
  have htype := extractHeader_text contentType part.plain part.typed
    (part.body ++ (Crlf.crlf ++ s))
  rw [part.text_append]
  exact (congrArg (Option.any _) htype).trans (startsWith_stripped _)

/-- The body of a part ends at the next delimiter. -/
theorem bodyText_part {s : Str} (hs : strstr b.delimiter s = some s) :
    bodyText (beforeBoundary b.delimiter (part.body ++ (Crlf.crlf ++ s))) =
      (untrailed part.body).take 16384 := by
  have hbefore : beforeBoundary b.delimiter (part.body ++ (Crlf.crlf ++ s)) =
      part.body ++ Crlf.crlf := by
    unfold beforeBoundary
    rw [strstr_delimiter part.freeBody, hs]
    dsimp only
    rw [← List.append_assoc, List.length_append, Nat.add_sub_cancel, List.take_left']
    rfl
  have htrim : trimEnd (fun c => c = '\r' || c = '\n' || c = ' ') (part.body ++ Crlf.crlf) =
      trimEnd (fun c => c = '\r' || c = '\n' || c = ' ') part.body :=
    rdropWhile_append_pos _ (List.all_eq_true.mp (by decide))
  rw [← bodyText_eq]
  unfold bodyText
  rw [hbefore, htrim]

end Part

theorem scanParts_parts (parts : List (Part b)) (epilogue : Str) {p : Str}
    (hp : strstr b.delimiter p = some (partsText parts epilogue)) :
    scanParts b.text p = plainBody parts := by
  induction parts generalizing p with
  | nil =>
    rw [scanParts_found hp]
    have hclose : skipBreak ((partsText ([] : List (Part b)) epilogue).drop (b.text.length + 2)) =
        '-' :: '-' :: epilogue := by
      rw [partsText, List.flatMap_nil, List.nil_append, drop_delimiter]
      rfl
    dsimp only
    rw [hclose, if_pos (List.head?_cons ..)]
    rfl
  | cons part parts ih =>
    have hopen : skipBreak ((partsText (part :: parts) epilogue).drop (b.text.length + 2)) =
        part.text ++ partsText parts epilogue := by
      rw [partsText_cons, drop_delimiter]
      rfl
    have hrest := strstr_parts parts epilogue
    rw [scanParts_found hp]
    dsimp only
    rw [hopen, if_neg (head_part part _), afterBlank_part, type_part]
    dsimp only
    unfold plainBody
    rw [List.find?_cons]
    cases part.isPlain with
    | true => exact bodyText_part part hrest
    | false => exact ih ((strstr_part part _).trans hrest)

/-- The body that is found is that of the first part in plain text. -/
theorem extractBody_assembled (m : Multipart b) (parts : List (Part b)) (epilogue : Str) :
    extractBody (assembled m parts epilogue) = plainBody parts := by
  have htype : extractHeader (assembled m parts epilogue) "Content-Type".toList =
      some (multipartValue m.subtype b) := by
    have h := extractHeader_text contentType m.plain m.typed (partsText parts epilogue)
    rw [stripped_multipart] at h
    exact h
  have hfound : strstr b.delimiter (assembled m parts epilogue) =
      some (partsText parts epilogue) := by
    rw [assembled, strstr_delimiter m.free, strstr_parts]
  unfold extractBody
  rw [htype]
  dsimp only
  rw [boundaryText_multipart, if_pos ⟨strstr_multipart m.subtype b, b.nonempty⟩]
  exact scanParts_parts parts epilogue hfound

end Message

end Dobby.Email
