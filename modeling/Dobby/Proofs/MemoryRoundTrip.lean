import Dobby.Proofs.MemoryFrame

namespace Dobby.MdMemory
open CString Lines

/-- What a recall comes upon first: the new line, or an old one that stayed. -/
inductive Spot where
  | new
  | old (line : Str)
  deriving DecidableEq

/-- The walk over the old lines that tells it. The cursor says where the store puts
the new line, the flag whether a recall reads there. -/
def spotFrom (sec key : Str) : Cursor → Bool → List Str → Option Spot
  | c, r, [] =>
    if c.keyWritten then none else if c.sectionFound && !r then none else some .new
  | c, r, line :: rest =>
    let c' := advance sec key c line
    if r && endsSection c (lineBuf line) then some .new
    else if isOld key (c'.inTarget, line) then
      if r then some .new else spotFrom sec key c' r rest
    else if answers key r line then some (.old line)
    -- a long line ends the file, an unended one takes the new line into itself
    else if 2048 ≤ line.length ∨ ('\n' ∉ line ∧ c'.sectionFound = true) then none
    else spotFrom sec key c' (recallFlag sec r line) rest

/-- The size of the file that the store writes, from some line on. -/
def writtenSize (sec key bullet : Str) : Cursor → List Str → Nat
  | c, [] => (storeTail sec bullet c).length
  | c, line :: rest =>
    let c' := advance sec key c line
    (if endsSection c (lineBuf line) then bullet.length + 1 else 0) +
      if isOld key (c'.inTarget, line) then bullet.length + 1 + writtenSize sec key bullet c' rest
      else if 2048 ≤ line.length then 2047
      else line.length + writtenSize sec key bullet c' rest

/-- Whether what a recall comes upon has the value. -/
def shows (value : Str) : Option Spot → Prop
  | some .new => value.length ≤ 510
  | some (.old line) => bulletValue (lineBuf line) = value
  | none => False

instance (value : Str) : (spot : Option Spot) → Decidable (shows value spot)
  | some .new => inferInstanceAs (Decidable (_ ≤ _))
  | some (.old _) => inferInstanceAs (Decidable (_ = _))
  | none => inferInstanceAs (Decidable False)

def start : Cursor := ⟨false, false, false⟩

/-- What the value of the new line, the buffers and the old lines have to be. -/
structure Recallable (sec key value content : Str) : Prop where
  key_fits : key.length < 512
  file_fits : writtenSize sec key (bulletFor key value) start (lines content) ≤ maxFileSize
  spot : shows value (spotFrom sec key start false (lines content))

/-- The text without outer blanks on a single line. -/
structure Clean (text : Str) : Prop where
  line : '\n' ∉ text
  string : '\x00' ∉ text
  head : isSpace (text.headD ' ') = false
  last : isSpace (text.getLastD ' ') = false

theorem Clean.trim {text : Str} (h : Clean text) : strTrim text = text := strTrim_self h.head h.last

theorem bulletFor_line {key value : Str} (hkey : Clean key) (hvalue : Clean value) :
    '\n' ∉ bulletFor key value := by
  intro h
  have hmem := List.mem_of_mem_take h
  simp [hkey.line, hvalue.line] at hmem

theorem take_bullet {key : Str} (hk : key.length < 512) (v : Str) :
    List.take 2047 ('-' :: ' ' :: (key ++ ':' :: ' ' :: v)) =
      '-' :: ' ' :: (key ++ ':' :: ' ' :: v.take (2043 - key.length)) := by
  have hn : 2047 = key.length + (2043 - key.length + 2) + 2 := by omega
  rw [hn, List.take_succ_cons, List.take_succ_cons, List.take_length_add_append,
    List.take_succ_cons, List.take_succ_cons]

theorem bulletFor_eq {key : Str} (hk : key.length < 512) (value : Str) :
    bulletFor key value =
      '-' :: ' ' :: (key ++ ':' :: ' ' :: value.take (2043 - key.length)) := by
  rw [bulletFor, snprintf, ← take_bullet hk]
  simp

theorem lineBuf_bulletFor {key : Str} (hk : key.length < 512) (value : Str) :
    lineBuf (bulletFor key value ++ ['\n']) = '-' :: ' ' :: (key ++ ':' :: ' ' ::
      (value.take (2043 - key.length) ++ ['\n']).take (2043 - key.length)) := by
  have hmove : ∀ v : Str, '-' :: ' ' :: (key ++ ':' :: ' ' :: v) ++ ['\n'] =
      '-' :: ' ' :: (key ++ ':' :: ' ' :: (v ++ ['\n'])) := by
    intro v
    simp
  rw [bulletFor_eq hk, lineBuf, hmove, take_bullet hk]

/-- The new line reads as a bullet for its key. -/
theorem new_answers {key : Str} (hkey : Clean key) (hcolon : ':' ∉ key) (hk : key.length < 512)
    (value : Str) (r : Bool) : answers key r (bulletFor key value ++ ['\n']) = r := by
  rw [answers, lineBuf_bulletFor hk, bulletKey_colon hcolon, if_pos hk, hkey.trim, beq_self_eq_true,
    Bool.and_true]
  exact Bool.and_true r

/-- Behind the blank, 510 bytes of the value fit the buffer of a recall. -/
theorem bulletValue_new {key value : Str} (hcolon : ':' ∉ key) (hk : key.length < 512)
    (hvalue : Clean value) :
    bulletValue (lineBuf (bulletFor key value ++ ['\n'])) = value ↔ value.length ≤ 510 := by
  rw [lineBuf_bulletFor hk, bulletValue_colon hcolon, List.take_succ_cons, strTrim_cons (by decide),
    List.take_take, Nat.min_eq_left (by omega)]
  constructor
  · intro h
    rw [← h]
    refine (strTrim_length _).trans ?_
    rw [List.length_take]
    omega
  · intro hlen
    rw [List.take_of_length_le (by omega : value.length ≤ 2043 - key.length)]
    by_cases hfull : value.length = 510
    · rw [List.take_append_of_le_length (by omega), List.take_of_length_le (by omega), hvalue.trim]
    · rw [List.take_of_length_le (by rw [List.length_append, List.length_singleton]; omega),
        strTrim_space value (by decide), hvalue.trim]

/-- A key that does not fit the key buffer is never found. -/
theorem recallFrom_longKey (sec : Str) {key : Str} (hk : 512 ≤ key.length) (r : Bool)
    (ls : List Str) : recallFrom sec key r ls = none := by
  induction ls generalizing r with
  | nil => rfl
  | cons line rest ih =>
    rw [recallFrom_cons, ih, if_neg]
    intro hans
    simp only [answers, Bool.and_eq_true, beq_iff_eq, bulletKey] at hans
    have hsome := hans.2
    split at hsome
    · rw [Option.some.injEq] at hsome
      split at hsome
      · rename_i hlen
        have hle := strTrim_length (((lineBuf line).drop 2).takeWhile (fun c => c ≠ ':'))
        rw [hsome] at hle
        omega
      · rw [← hsome] at hk
        cases hk
    · cases hsome

/-- A key behind a text and the marker of the bullet is no key of its own. -/
theorem glued_key {key : Str} (hkey : Clean key) (t : Str) :
    strTrim (t ++ '-' :: ' ' :: key) ≠ key := by
  have hlast : isSpace ((' ' :: key).getLastD ' ') = false := by
    rw [List.getLastD_cons]
    exact hkey.last
  rw [strTrim_keeps t (by decide) hlast]
  intro h
  have hlen := congrArg List.length h
  simp only [List.length_append, List.length_cons] at hlen
  omega

/-- A line that goes on with the new line has another key than the new one. -/
theorem glued_bulletKey {key : Str} (hkey : Clean key) (hcolon : ':' ∉ key) (hne : key ≠ []) {t : Str}
    (ht : bulletKey ('-' :: ' ' :: t) ≠ some key) (n : Nat) (v : Str) :
    bulletKey ('-' :: ' ' :: (t ++ ('-' :: ' ' :: (key ++ ':' :: v)).take n)) ≠ some key := by
  by_cases hc : ':' ∈ t
  · obtain ⟨k, w, rfl, hk⟩ := List.eq_append_cons_of_mem hc
    rw [bulletKey_colon hk] at ht
    rw [List.append_assoc, List.cons_append, bulletKey_colon hk]
    exact ht
  have hfront : ':' ∉ '-' :: ' ' :: key := by simp [hcolon]
  have hsplit : '-' :: ' ' :: (key ++ ':' :: v) = ('-' :: ' ' :: key) ++ ':' :: v := rfl
  rw [hsplit, List.take_append]
  cases hm : n - ('-' :: ' ' :: key).length with
  | zero =>
    have hnone : ':' ∉ t ++ (('-' :: ' ' :: key).take n ++ (':' :: v).take 0) := by
      rw [List.take_zero, List.append_nil, List.mem_append]
      rintro (h | h)
      · exact hc h
      · exact hfront (List.mem_of_mem_take h)
    rw [bulletKey_none hnone]
    simp
  | succ m =>
    have hall : ':' ∉ t ++ '-' :: ' ' :: key := by
      rw [List.mem_append]
      rintro (h | h)
      · exact hc h
      · exact hfront h
    rw [List.take_of_length_le (by omega), List.take_succ_cons, ← List.append_assoc,
      bulletKey_colon hall]
    intro h
    rw [Option.some.injEq] at h
    split at h
    · exact glued_key hkey t h
    · exact hne h.symm

theorem glued_silent {sec key value : Str} (hkey : Clean key) (hcolon : ':' ∉ key)
    (hne : key ≠ []) (hk : key.length < 512) (hvalue : Clean value) {body : Str} (hbody : body ≠ [])
    (hnl : '\n' ∉ body) (hlen : body.length < 2048) (hold : isFact key body = false) (r : Bool) :
    recallFrom sec key r (lines (body ++ (bulletFor key value ++ ['\n']))) = none := by
  have hline : '\n' ∉ body ++ bulletFor key value := by
    simp [hnl, bulletFor_line hkey hvalue]
  rw [← List.append_assoc, ← List.append_nil (_ ++ ['\n']), List.append_assoc,
    List.singleton_append, lines_body _ _ hline, recallFrom_cons, if_neg]
  · rfl
  intro hans
  simp only [answers, Bool.and_eq_true, beq_iff_eq] at hans
  obtain ⟨⟨-, hbul⟩, hans⟩ := hans
  have hbuf : lineBuf body = body := List.take_of_length_le (by omega)
  have hglued : body ++ bulletFor key value ++ ['\n'] = body ++ '-' :: ' ' ::
      (key ++ ':' :: (' ' :: value.take (2043 - key.length) ++ ['\n'])) := by
    rw [bulletFor_eq hk]
    simp
  rw [hglued] at hans hbul
  obtain ⟨-, hsame, -⟩ := glued_shape (t := ' ' ::
    (key ++ ':' :: (' ' :: value.take (2043 - key.length) ++ ['\n']))) hbody hlen
  rw [hsame, hbuf] at hbul
  obtain ⟨t, rfl⟩ := isBullet_cases hbul
  have ht : bulletKey ('-' :: ' ' :: t) ≠ some key := by
    intro h
    rw [isFact, hbuf, hbul, h, Option.getD_some, beq_self_eq_true] at hold
    cases hold
  rw [lineBuf, List.take_append, List.take_of_length_le (by omega)] at hans
  exact glued_bulletKey hkey hcolon hne ht _ _ hans

def Spot.value (bullet : Str) : Spot → Str
  | .new => bulletValue (lineBuf (bullet ++ ['\n']))
  | .old line => bulletValue (lineBuf line)

section Walk

variable {sec key value : Str} (hsec : sec ∈ canonicalSections) (hkey : Clean key)
  (hcolon : ':' ∉ key) (hne : key ≠ []) (hk : key.length < 512) (hvalue : Clean value)

include hkey hcolon hk hvalue in
theorem recall_newLine (r : Bool) (rest : Str) :
    recallFrom sec key r (lines (bulletFor key value ++ ['\n'] ++ rest)) =
      if r then some (bulletValue (lineBuf (bulletFor key value ++ ['\n'])))
      else recallFrom sec key r (lines rest) := by
  have hflag : recallFlag sec r (bulletFor key value ++ ['\n']) = r := by
    rw [recallFlag, lineBuf_bulletFor hk]
    rfl
  rw [List.append_assoc, List.singleton_append, lines_body _ _ (bulletFor_line hkey hvalue),
    recallFrom_cons, new_answers hkey hcolon hk, hflag]

theorem cstr_bulletLine (hkey : Clean key) (hvalue : Clean value) (t : Str) :
    cstr (bulletFor key value ++ ['\n'] ++ t) = bulletFor key value ++ ['\n'] ++ cstr t := by
  apply cstr_append
  simp [not_mem_bulletFor hkey.string hvalue.string]

include hkey hcolon hk hvalue in
/-- What a turn of the store's loop puts ahead of the rest. -/
theorem recall_emit (c : Cursor) (r : Bool) (line rest : Str) :
    recallFrom sec key r (lines (cstr (emit sec key (bulletFor key value) c line ++ rest))) =
      if r && endsSection c (lineBuf line) then
        some (bulletValue (lineBuf (bulletFor key value ++ ['\n'])))
      else if isOld key ((advance sec key c line).inTarget, line) then
        if r then some (bulletValue (lineBuf (bulletFor key value ++ ['\n'])))
        else recallFrom sec key r (lines (cstr rest))
      else recallFrom sec key r (lines (cstr (copyLine line ++ rest))) := by
  have hrest : recallFrom sec key r (lines (cstr ((if
        isOld key ((advance sec key c line).inTarget, line) then bulletFor key value ++ ['\n']
        else copyLine line) ++ rest))) =
      if isOld key ((advance sec key c line).inTarget, line) then
        if r then some (bulletValue (lineBuf (bulletFor key value ++ ['\n'])))
        else recallFrom sec key r (lines (cstr rest))
      else recallFrom sec key r (lines (cstr (copyLine line ++ rest))) := by
    split
    · rw [cstr_bulletLine hkey hvalue, recall_newLine hkey hcolon hk hvalue]
    · rfl
  rw [emit, replaces_eq, List.append_assoc]
  cases endsSection c (lineBuf line) with
  | false =>
    rw [Bool.and_false, if_neg Bool.false_ne_true, if_neg Bool.false_ne_true, List.nil_append]
    exact hrest
  | true =>
    rw [if_pos rfl, cstr_bulletLine hkey hvalue, recall_newLine hkey hcolon hk hvalue,
      Bool.and_true, hrest]

/-- A long line ends the file that is written. -/
theorem recall_long {line : Str} (hlong : 2048 ≤ line.length)
    (hnl : '\n' ∉ line ∨ Terminated line) (hnul : '\x00' ∉ line) (r : Bool) (rest : Str) :
    recallFrom sec key r (lines (cstr (copyLine line ++ rest))) =
      if answers key r line then some (bulletValue (lineBuf line)) else none := by
  obtain ⟨n, hn⟩ : ∃ n, line.length - 2047 = n + 1 := ⟨line.length - 2048, by omega⟩
  have hcut : cstr (copyLine line ++ rest) = lineBuf line := by
    rw [copyLine, if_neg (by omega), hn, List.replicate_succ, List.append_assoc, List.cons_append]
    exact cstr_cut (fun h => hnul (List.mem_of_mem_take h)) _
  have hline : '\n' ∉ lineBuf line := by
    rcases hnl with hnl | ⟨body, rfl, hbody⟩
    · exact fun h => hnl (List.mem_of_mem_take h)
    · rw [List.length_append, List.length_singleton] at hlong
      rw [lineBuf, List.take_append_of_le_length (by omega)]
      exact fun h => hbody (List.mem_of_mem_take h)
  have hne : lineBuf line ≠ [] := by
    intro h
    have hlen := congrArg List.length h
    rw [lineBuf, List.length_take, List.length_nil] at hlen
    omega
  have hbuf : lineBuf (lineBuf line) = lineBuf line := by
    rw [lineBuf, lineBuf, List.take_take]
    rfl
  rw [hcut, lines_last _ hne hline, recallFrom_cons, answers, answers, hbuf]
  rfl

theorem cstr_newSection (hsec : sec ∈ canonicalSections) (hkey : Clean key) (hvalue : Clean value) :
    cstr ("## ".toList ++ sec ++ ['\n', '\n'] ++ bulletFor key value ++ ['\n']) =
      "## ".toList ++ sec ++ ['\n', '\n'] ++ bulletFor key value ++ ['\n'] := by
  obtain ⟨-, -, hnul, -⟩ := canonical_shape sec hsec
  apply cstr_eq_self
  simp [hnul, not_mem_bulletFor hkey.string hvalue.string]

include hsec hkey hcolon hk hvalue in
/-- A new section at the end is read whatever stands before it. -/
theorem recall_madeSection (r : Bool) :
    recallFrom sec key r
        (lines ("## ".toList ++ sec ++ ['\n', '\n'] ++ bulletFor key value ++ ['\n'])) =
      some (bulletValue (lineBuf (bulletFor key value ++ ['\n']))) := by
  rw [recallFrom_newSection hsec, recall_newLine hkey hcolon hk hvalue, beq_self_eq_true, if_pos rfl]

include hsec hkey hcolon hk hvalue in
theorem recall_tail (c : Cursor) (r : Bool) :
    recallFrom sec key r (lines (cstr (storeTail sec (bulletFor key value) c))) =
      (spotFrom sec key c r []).map (Spot.value (bulletFor key value)) := by
  rw [storeTail, spotFrom]
  cases c.keyWritten with
  | true => rfl
  | false =>
    cases c.sectionFound with
    | true =>
      simp only [Bool.false_eq_true, if_false, if_true, Bool.true_and]
      rw [← List.append_nil (bulletFor key value ++ _), cstr_bulletLine hkey hvalue,
        recall_newLine hkey hcolon hk hvalue]
      cases r <;> rfl
    | false =>
      simp only [Bool.false_eq_true, if_false, Bool.false_and]
      have hblank := lines_body []
        ("## ".toList ++ sec ++ ['\n', '\n'] ++ bulletFor key value ++ ['\n']) List.not_mem_nil
      have hcut := cstr_append (s := ['\n']) (by decide)
        ("## ".toList ++ sec ++ ['\n', '\n'] ++ bulletFor key value ++ ['\n'])
      rw [cstr_newSection hsec hkey hvalue] at hcut
      refine (congrArg (fun t => recallFrom sec key r (lines t)) hcut).trans ?_
      refine (congrArg _ hblank).trans ?_
      rw [List.nil_append, recallFrom_blank, recall_madeSection hsec hkey hcolon hk hvalue]
      rfl

include hsec hkey hcolon hne hk hvalue in
/-- An unended last line that stays, with what the store appends. -/
theorem recall_unended {c : Cursor} (hc : c.Sound) {body : Str} (hbody : body ≠ [])
    (hnl : '\n' ∉ body) (hnul : '\x00' ∉ body) (hlen : body.length < 2048)
    (hold : isOld key (c.inTarget, body) = false) (r : Bool) :
    recallFrom sec key r (lines (cstr (body ++ storeTail sec (bulletFor key value) c))) =
      if answers key r body then some (bulletValue (lineBuf body))
      else if c.sectionFound then none
      else (spotFrom sec key c (recallFlag sec r body) []).map
        (Spot.value (bulletFor key value)) := by
  rw [cstr_append hnul, storeTail, spotFrom]
  cases hw : c.keyWritten with
  | true =>
    rw [if_pos rfl, if_pos rfl]
    change recallFrom sec key r (lines (body ++ [])) = _
    rw [List.append_nil, lines_last body hbody hnl, recallFrom_cons, recallFrom, Option.map_none,
      ite_self]
  | false =>
    simp only [Bool.false_eq_true, if_false]
    cases hf : c.sectionFound with
    | true =>
      have hfact : isFact key body = false := by
        rwa [isOld, hc.open_ hf hw, Bool.true_and] at hold
      have hans : answers key r body = false := by
        rw [answers, Bool.and_assoc]
        cases hb : isBullet (lineBuf body) && bulletKey (lineBuf body) == some key with
        | false => exact Bool.and_false r
        | true =>
          simp only [Bool.and_eq_true, beq_iff_eq] at hb
          rw [isFact, hb.1, hb.2, Option.getD_some, beq_self_eq_true] at hfact
          cases hfact
      rw [if_pos rfl, hans, if_neg Bool.false_ne_true, if_pos rfl, ← List.append_nil (_ ++ ['\n']),
        cstr_bulletLine hkey hvalue]
      change recallFrom sec key r (lines (body ++ (bulletFor key value ++ ['\n'] ++ []))) = none
      rw [List.append_nil]
      exact glued_silent hkey hcolon hne hk hvalue hbody hnl hlen hfact r
    | false =>
      simp only [Bool.false_eq_true, if_false, Bool.false_and]
      have hcut := cstr_append (s := ['\n']) (by decide)
        ("## ".toList ++ sec ++ ['\n', '\n'] ++ bulletFor key value ++ ['\n'])
      rw [cstr_newSection hsec hkey hvalue] at hcut
      refine (congrArg (fun t => recallFrom sec key r (lines (body ++ t))) hcut).trans ?_
      refine (congrArg _ (lines_body body _ hnl)).trans ?_
      rw [recallFrom_ended hlen hnl, recallFrom_cons]
      split
      · rfl
      · exact recall_madeSection hsec hkey hcolon hk hvalue _

include hsec hkey hcolon hne hk hvalue in
/-- A recall of the written text finds what the walk over the old lines says. -/
theorem recall_written {ls : List Str} (hls : Lined ls) (hnul : ∀ line ∈ ls, '\x00' ∉ line)
    {c : Cursor} (hc : c.Sound) (r : Bool) :
    recallFrom sec key r (lines (cstr (emitAll sec key (bulletFor key value) c ls))) =
      (spotFrom sec key c r ls).map (Spot.value (bulletFor key value)) := by
  induction hls generalizing c r with
  | nil => exact recall_tail hsec hkey hcolon hk hvalue c r
  | last body hbody hnl =>
    have hc' : (advance sec key c body).Sound := advance_sound hc body
    have hnul' := hnul body List.mem_cons_self
    rw [emitAll, recall_emit hkey hcolon hk hvalue, spotFrom]
    by_cases hend : (r && endsSection c (lineBuf body)) = true
    · rw [if_pos hend, if_pos hend]
      rfl
    rw [if_neg hend, if_neg hend]
    cases hold : isOld key ((advance sec key c body).inTarget, body) with
    | true =>
      cases r with
      | true => rfl
      | false => exact recall_tail hsec hkey hcolon hk hvalue _ false
    | false =>
      simp only [Bool.false_eq_true, if_false]
      by_cases hlen : 2048 ≤ body.length
      · rw [recall_long hlen (.inl hnl) hnul', if_pos (Or.inl hlen)]
        cases answers key r body <;> rfl
      · rw [copyLine, if_pos (by omega), emitAll,
          recall_unended hsec hkey hcolon hne hk hvalue hc' hbody hnl hnul' (by omega) hold]
        cases answers key r body with
        | true => rfl
        | false =>
          cases (advance sec key c body).sectionFound <;> simp [hlen, hnl]
  | cons line ls hline hrest ih =>
    have hc' : (advance sec key c line).Sound := advance_sound hc line
    have hnul' := hnul line List.mem_cons_self
    have hrec := ih (fun l hl => hnul l (List.mem_cons_of_mem line hl)) hc'
    rw [emitAll, recall_emit hkey hcolon hk hvalue, spotFrom]
    by_cases hend : (r && endsSection c (lineBuf line)) = true
    · rw [if_pos hend, if_pos hend]
      rfl
    rw [if_neg hend, if_neg hend]
    cases hold : isOld key ((advance sec key c line).inTarget, line) with
    | true =>
      cases r with
      | true => rfl
      | false => exact hrec false
    | false =>
      simp only [Bool.false_eq_true, if_false]
      by_cases hlen : 2048 ≤ line.length
      · rw [recall_long hlen (.inr hline) hnul', if_pos (Or.inl hlen)]
        cases answers key r line <;> rfl
      · have hnl : '\n' ∈ line := by
          obtain ⟨body, rfl, -⟩ := hline
          simp
        rw [copyLine, if_pos (by omega), cstr_append hnul', lines_terminated hline,
          recallFrom_cons, hrec]
        cases answers key r line <;> simp [hlen, hnl, Spot.value]

end Walk

theorem not_mem_storeTail {sec bullet : Str} (hsec : '\x00' ∉ sec) (hbullet : '\x00' ∉ bullet)
    (c : Cursor) : '\x00' ∉ storeTail sec bullet c := by
  rw [storeTail]
  split
  · exact List.not_mem_nil
  split <;> simp [hsec, hbullet]

theorem length_copied {line : Str} (hnul : '\x00' ∉ line) (rest : Str) :
    (cstr (copyLine line ++ rest)).length =
      if 2048 ≤ line.length then 2047 else line.length + (cstr rest).length := by
  split
  · rename_i hlong
    obtain ⟨n, hn⟩ : ∃ n, line.length - 2047 = n + 1 := ⟨line.length - 2048, by omega⟩
    rw [copyLine, if_neg (by omega), hn, List.replicate_succ, List.append_assoc, List.cons_append,
      cstr_cut (fun h => hnul (List.mem_of_mem_take h)), List.length_take]
    omega
  · rename_i hshort
    rw [copyLine, if_pos (by omega), cstr_append hnul, List.length_append]

theorem length_written {sec bullet : Str} (key : Str) (hsec : '\x00' ∉ sec)
    (hbullet : '\x00' ∉ bullet) {ls : List Str} (hnul : ∀ line ∈ ls, '\x00' ∉ line) (c : Cursor) :
    (cstr (emitAll sec key bullet c ls)).length = writtenSize sec key bullet c ls := by
  have hline : '\x00' ∉ bullet ++ ['\n'] := by simp [hbullet]
  induction ls generalizing c with
  | nil => rw [emitAll, writtenSize, cstr_eq_self (not_mem_storeTail hsec hbullet c)]
  | cons line rest ih =>
    have hrest : (cstr ((if isOld key ((advance sec key c line).inTarget, line) then
          bullet ++ ['\n'] else copyLine line) ++
          emitAll sec key bullet (advance sec key c line) rest)).length =
        if isOld key ((advance sec key c line).inTarget, line) then
          bullet.length + 1 + writtenSize sec key bullet (advance sec key c line) rest
        else if 2048 ≤ line.length then 2047
        else line.length + writtenSize sec key bullet (advance sec key c line) rest := by
      rw [← ih (fun l hl => hnul l (List.mem_cons_of_mem line hl))]
      split
      · rw [cstr_append hline, List.length_append, List.length_append, List.length_singleton]
      · exact length_copied (hnul line List.mem_cons_self) _
    rw [emitAll, emit, replaces_eq, List.append_assoc, writtenSize, ← hrest]
    split
    · rw [cstr_append hline, List.length_append, List.length_append, List.length_singleton]
    · rw [List.nil_append, Nat.zero_add]

/-- A file that is too large reads as an empty one. -/
theorem readMemoryFile_replaced {fs : Fs} {mem : Memory} {text : Str}
    (hfile : fs mem.path = some (cstr text)) :
    readMemoryFile fs mem = if (cstr text).length ≤ maxFileSize then cstr text else [] := by
  split
  · rename_i hlen
    exact readMemoryFile_written hfile (not_mem_cstr text) hlen
  · rename_i hlen
    rw [readMemoryFile, hfile]
    exact if_pos (Or.inr (by omega))

/-- A successful store is recalled exactly when the key fits its buffer, the file
fits its cap, and what a recall comes upon first has the value. -/
theorem memory_store_recalls_iff {disk : Disk} {fs fs' : Fs} {mem : Memory}
    {category : Option Str} {key value : Str}
    (hok : memoryStore disk fs mem category key (some value) = (.ok, fs'))
    (hkey : Clean key) (hcolon : ':' ∉ key) (hvalue : Clean value) :
    memoryRecall fs' mem category key = some value ↔
      Recallable (canonicaliseSection category) key value (readMemoryFile fs mem) := by
  obtain ⟨hne, hfile⟩ := memoryStore_ok hok
  rw [memoryRecall]
  have hsec := canonicalise_mem category
  obtain ⟨-, -, hsecnul, -⟩ := canonical_shape _ hsec
  generalize canonicaliseSection category = sec at *
  have hnul : ∀ line ∈ lines (readMemoryFile fs mem), '\x00' ∉ line := fun _ => not_mem_line
  have hlen := length_written key hsecnul (not_mem_bulletFor hkey.string hvalue.string)
    hnul start
  rw [readMemoryFile_replaced hfile, storeText_eq]
  by_cases hk : key.length < 512
  · change (cstr (emitAll sec key (bulletFor key value) ⟨false, false, false⟩ _)).length = _ at hlen
    have hread := recall_written hsec hkey hcolon hne hk hvalue
      (lines_lined (readMemoryFile fs mem)) hnul (c := start) fresh_sound false
    rw [hlen]
    by_cases hfits : writtenSize sec key (bulletFor key value) start
        (lines (readMemoryFile fs mem)) ≤ maxFileSize
    · rw [if_pos hfits]
      refine (Eq.congr_left hread).trans ?_
      have hspot : Recallable sec key value (readMemoryFile fs mem) ↔
          shows value (spotFrom sec key start false (lines (readMemoryFile fs mem))) :=
        ⟨Recallable.spot, fun h => ⟨hk, hfits, h⟩⟩
      rw [hspot]
      cases spotFrom sec key start false (lines (readMemoryFile fs mem)) with
      | none => simp [shows]
      | some spot =>
        rw [Option.map_some, Option.some.injEq]
        cases spot with
        | new => exact bulletValue_new hcolon hk hvalue
        | old line => exact Iff.rfl
    · rw [if_neg hfits]
      exact ⟨(fun h => by cases h), fun h => absurd h.file_fits hfits⟩
  · rw [recallFrom_longKey sec (by omega)]
    exact ⟨(fun h => by cases h), fun h => absurd h.key_fits hk⟩

/-- A store into a section that has a heading behind it. -/
theorem memory_store_recalls_between :
    let content := "## Preferences\n\n## Important Notes\n".toList
    memoryRecall (sampleStore content "pref".toList).2 sampleMemory (some "pref".toList)
      "b".toList = some "2".toList := by
  intro content
  have hok : memoryStore .works (sampleFs content) sampleMemory (some "pref".toList) "b".toList
      (some "2".toList) = (.ok, (sampleStore content "pref".toList).2) := rfl
  exact (memory_store_recalls_iff hok ⟨by decide, by decide, by decide, by decide⟩ (by decide)
    ⟨by decide, by decide, by decide, by decide⟩).mpr
    ⟨by decide, by decide +kernel, by decide +kernel⟩

/-- The file that the program is shipped with. Its last line lacks a newline. -/
def templateMemory : Str :=
  ("# Long-term Memory\n\n" ++
    "This file stores important information that should persist across sessions.\n\n" ++
    "## User Information\n\n(Important facts about the user)\n\n" ++
    "## Preferences\n\n(User preferences learned over time)\n\n" ++
    "## Project Context\n\n(Information about ongoing projects)\n\n" ++
    "## Important Notes\n\n(Things to remember)\n\n---\n\n" ++
    "*This file is automatically updated by dobby when important information should be " ++
    "remembered.*").toList

theorem templateMemory_pieces : templateMemory = "# Long-term Memory\n\n".toList ++
    "This file stores important information that should persist across sessions.\n\n".toList ++
    "## User Information\n\n(Important facts about the user)\n\n".toList ++
    "## Preferences\n\n(User preferences learned over time)\n\n".toList ++
    "## Project Context\n\n(Information about ongoing projects)\n\n".toList ++
    "## Important Notes\n\n(Things to remember)\n\n---\n\n".toList ++
    "*This file is automatically updated by dobby when important information should be ".toList ++
    "remembered.*".toList := by
  iterate 7 rw [← String.toList_append]
  rfl

/-- The first note that is stored in it cannot be recalled. -/
theorem template_loses_note :
    (sampleStore templateMemory "Important Notes".toList).1 = .ok ∧
      memoryRecall (sampleStore templateMemory "Important Notes".toList).2 sampleMemory
        (some "Important Notes".toList) "b".toList = none := by
  rw [templateMemory_pieces]
  decide +kernel

end Dobby.MdMemory
