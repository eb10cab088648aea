import Dobby.Model.Memory

namespace Dobby.MdMemory
open CString Lines

/-- Whether the line is a heading that `memory_store` takes for the section. -/
def isTarget (sec line : Str) : Bool :=
  isHeading (lineBuf line) && storeHeading (lineBuf line) == sec

/-- Whether the line is a bullet that `memory_store` takes for the key. -/
def isFact (key line : Str) : Bool :=
  isBullet (lineBuf line) && (bulletKey (lineBuf line)).getD [] == key

/-- Each line with whether it is in the section. -/
def placed (sec : Str) : Bool → List Str → List (Bool × Str)
  | _, [] => []
  | inTarget, line :: rest =>
    let here := if isHeading (lineBuf line) then isTarget sec line else inTarget
    (here, line) :: placed sec here rest

/-- Whether the line is an old form of the fact. -/
def isOld (key : Str) (p : Bool × Str) : Bool := p.1 && isFact key p.2

/-- The lines from the section's first heading on. -/
def underFirst (sec : Str) : List Str → Option (List Str)
  | [] => none
  | line :: rest => if isTarget sec line then some rest else underFirst sec rest

/-- Whether the lines up to the next heading have the key. -/
def holdsKey (key : Str) (ls : List Str) : Bool :=
  (ls.takeWhile (fun l => !isHeading (lineBuf l))).any (isFact key)

/-- Whether the section is the last one of the file and lacks the key. -/
def endsWithout (sec key : Str) (ls : List Str) : Bool :=
  match underFirst sec ls with
  | none => false
  | some body => body.all (fun l => !isHeading (lineBuf l)) && !holdsKey key body

def kept (sec key : Str) (ls : List Str) : List Str :=
  ((placed sec false ls).filter (fun p => !isOld key p)).map Prod.snd

/-- The bytes that a store adds where no old form of the fact is in its place. -/
def added (sec key bullet : Str) (ls : List Str) : Nat :=
  match underFirst sec ls with
  | none => sec.length + bullet.length + 7
  | some body => if holdsKey key body then 0 else bullet.length + 1

def storedSize (sec key bullet : Str) (ls : List Str) : Nat :=
  (kept sec key ls).flatten.length +
    (placed sec false ls).countP (isOld key) * (bullet.length + 1) + added sec key bullet ls

/-- No heading, and no bullet that recalls under another key. -/
def Plain (key line : Str) : Prop :=
  isHeading (lineBuf line) = false ∧
    (isBullet (lineBuf line) = true →
      bulletKey (lineBuf line) = none ∨ bulletKey (lineBuf line) = some key)

instance (key line : Str) : Decidable (Plain key line) :=
  inferInstanceAs (Decidable (_ ∧ (_ → _)))

/-- What the lines, the buffers and the size cap of the file can take. -/
structure Storable (sec key bullet content : Str) : Prop where
  plain : ∀ line ∈ lines (bullet ++ ['\n']), Plain key line
  short : ∀ line ∈ kept sec key (lines content), line.length < 2048
  ended : endsWithout sec key (lines content) = true →
    ∀ line ∈ (lines content).getLast?, isBullet (lineBuf line) = true → '\n' ∈ line
  fits : storedSize sec key bullet (lines content) ≤ maxFileSize

def advance (sec key : Str) (c : Cursor) (line : Str) : Cursor :=
  let c := atHeading sec c (lineBuf line)
  if replaces key c (lineBuf line) then { c with keyWritten := true } else c

/-- What one turn of the loop of `memory_store` adds to the new text. -/
def emit (sec key bullet : Str) (c : Cursor) (line : Str) : Str :=
  (if endsSection c (lineBuf line) then bullet ++ ['\n'] else []) ++
    (if replaces key (atHeading sec c (lineBuf line)) (lineBuf line) then bullet ++ ['\n']
      else copyLine line)

/-- The new text from some line on. -/
def emitAll (sec key bullet : Str) : Cursor → List Str → Str
  | c, [] => storeTail sec bullet c
  | c, line :: rest =>
    emit sec key bullet c line ++ emitAll sec key bullet (advance sec key c line) rest

theorem storeLine_eq (sec key bullet : Str) (out : Str) (c : Cursor) (line : Str) :
    storeLine sec key bullet (out, c) line =
      (out ++ emit sec key bullet c line, advance sec key c line) := by
  simp only [storeLine, emit, advance]
  split <;> split <;> simp

theorem fold_eq_emitAll (sec key bullet : Str) (ls : List Str) (out : Str) (c : Cursor) :
    (ls.foldl (storeLine sec key bullet) (out, c)).1 ++
        storeTail sec bullet (ls.foldl (storeLine sec key bullet) (out, c)).2 =
      out ++ emitAll sec key bullet c ls := by
  induction ls generalizing out c with
  | nil => rfl
  | cons line rest ih =>
    rw [List.foldl_cons, storeLine_eq, ih, emitAll, List.append_assoc]

theorem storeText_eq (sec key bullet content : Str) :
    storeText sec key bullet content =
      emitAll sec key bullet ⟨false, false, false⟩ (lines content) := by
  rw [storeText, fold_eq_emitAll, List.nil_append]

/-- A section that was found is the present one until the key is written. -/
structure Cursor.Sound (c : Cursor) : Prop where
  found : c.inTarget = true → c.sectionFound = true
  open_ : c.sectionFound = true → c.keyWritten = false → c.inTarget = true

theorem fresh_sound : (⟨false, false, false⟩ : Cursor).Sound :=
  ⟨by simp, by simp⟩

theorem not_isBullet_of_isHeading {linebuf : Str} (h : isHeading linebuf = true) :
    isBullet linebuf = false := by
  obtain ⟨t, rfl⟩ := List.isPrefixOf_iff_prefix.mp h
  rfl

theorem advance_heading (sec key : Str) (c : Cursor) {line : Str}
    (h : isHeading (lineBuf line) = true) :
    advance sec key c line = ⟨isTarget sec line, c.keyWritten || c.inTarget,
      c.sectionFound || isTarget sec line⟩ := by
  simp [advance, atHeading, replaces, isTarget, h, not_isBullet_of_isHeading h]

theorem advance_body (sec key : Str) (c : Cursor) {line : Str}
    (h : isHeading (lineBuf line) = false) :
    advance sec key c line =
      { c with keyWritten := c.keyWritten || (c.inTarget && isFact key line) } := by
  simp only [advance, atHeading, replaces, isFact, h, Bool.false_eq_true, if_false, Bool.and_assoc]
  split
  · rename_i hr
    rw [hr, Bool.or_true]
  · rename_i hr
    rw [Bool.eq_false_of_not_eq_true hr, Bool.or_false]

theorem advance_inTarget (sec key : Str) (c : Cursor) (line : Str) :
    (advance sec key c line).inTarget =
      if isHeading (lineBuf line) then isTarget sec line else c.inTarget := by
  cases h : isHeading (lineBuf line) with
  | true => rw [advance_heading sec key c h, if_pos rfl]
  | false => rw [advance_body sec key c h, if_neg Bool.false_ne_true]

theorem advance_sound {sec key : Str} {c : Cursor} (h : c.Sound) (line : Str) :
    (advance sec key c line).Sound := by
  obtain ⟨hfound, hopen⟩ := h
  cases hh : isHeading (lineBuf line) with
  | true =>
    rw [advance_heading sec key c hh]
    constructor
    · intro ht
      exact Bool.or_eq_true_iff.mpr (Or.inr ht)
    · intro hf hw
      obtain ⟨hkw, hin⟩ := Bool.or_eq_false_iff.mp hw
      rcases Bool.or_eq_true_iff.mp hf with h | h
      · exact absurd (hin.symm.trans (hopen h hkw)) (by decide)
      · exact h
  | false =>
    rw [advance_body sec key c hh]
    exact ⟨hfound, fun hf hw => hopen hf (Bool.or_eq_false_iff.mp hw).1⟩

theorem canonical_start :
    ∀ s ∈ canonicalSections, ∀ t ∈ canonicalSections, s <+: t → s = t := by
  decide

theorem canonical_shape :
    ∀ s ∈ canonicalSections, s.length ≤ 255 ∧ '\n' ∉ s ∧ '\x00' ∉ s ∧
      isSpace (s.headD ' ') = false ∧ isSpace (s.getLastD ' ') = false := by
  decide

theorem canonical_heading :
    ∀ s ∈ canonicalSections, isHeading (lineBuf ("## ".toList ++ s ++ ['\n'])) = true ∧
      recallHeading (lineBuf ("## ".toList ++ s ++ ['\n'])) = s := by
  decide +kernel

theorem keyword_mem (category : Str) : sectionByKeyword category ∈ canonicalSections := by
  unfold sectionByKeyword
  generalize (strcasestr category "user".toList || strcasestr category "person".toList) = user
  generalize (strcasestr category "pref".toList || strcasestr category "setting".toList) = pref
  generalize (strcasestr category "project".toList || strcasestr category "task".toList) = task
  cases user <;> cases pref <;> cases task <;> decide

theorem canonicalise_mem (category : Option Str) :
    canonicaliseSection category ∈ canonicalSections := by
  cases category with
  | none => exact (by decide : "Important Notes".toList ∈ canonicalSections)
  | some category =>
    change (canonicalSections.find? _).getD _ ∈ _
    cases h : canonicalSections.find?
        (fun s => strcasestr s category || strcasestr category s) with
    | none => exact keyword_mem category
    | some s => exact List.mem_of_find?_eq_some h

theorem canonicalise_self :
    ∀ s ∈ canonicalSections, canonicaliseSection (some s) = s := by
  decide

theorem storeHeading_start (linebuf : Str) : storeHeading linebuf <+: linebuf.drop 3 :=
  ((List.takeWhile_prefix _).trans (List.takeWhile_prefix _)).trans (List.take_prefix _ _)

/-- A heading that starts with a section is recalled as no other section. -/
theorem recallHeading_of_start {sec linebuf : Str} (hsec : sec ∈ canonicalSections)
    (hp : sec <+: linebuf.drop 3) (hc : recallHeading linebuf ∈ canonicalSections) :
    recallHeading linebuf = sec := by
  obtain ⟨hlen, hnl, -, hhead, hlast⟩ := canonical_shape sec hsec
  obtain ⟨t, ht⟩ := hp
  have hcut : ((linebuf.drop 3).take 255).takeWhile (fun c => c ≠ '\n') =
      sec ++ ((t.take (255 - sec.length)).takeWhile (fun c => c ≠ '\n')) := by
    rw [← ht, List.take_append, List.take_of_length_le hlen,
      List.takeWhile_append_of_pos
        (fun c hc => by simpa using ne_of_mem_of_not_mem hc hnl)]
  refine (canonical_start sec hsec _ hc ?_).symm
  rw [recallHeading, hcut]
  exact strTrim_prefix hhead hlast _

/-- A heading that `memory_store` takes for the section is no other section's. -/
theorem isTarget_recall {sec line : Str} (hsec : sec ∈ canonicalSections)
    (ht : isTarget sec line = true) (hc : recallHeading (lineBuf line) ∈ canonicalSections) :
    recallHeading (lineBuf line) = sec := by
  apply recallHeading_of_start hsec _ hc
  have h : storeHeading (lineBuf line) = sec := by
    simp only [isTarget, Bool.and_eq_true, beq_iff_eq] at ht
    exact ht.2
  rw [← h]
  exact storeHeading_start (lineBuf line)

theorem bulletKey_colon {k : Str} (hk : ':' ∉ k) (v : Str) :
    bulletKey ('-' :: ' ' :: (k ++ ':' :: v)) =
      some (if k.length < 512 then strTrim k else []) := by
  have hkey : (k ++ ':' :: v).takeWhile (fun c => c ≠ ':') = k := by
    rw [List.takeWhile_append_of_pos (fun c hc => by simpa using ne_of_mem_of_not_mem hc hk)]
    simp
  simp only [bulletKey, List.drop_succ_cons, List.drop_zero, hkey]
  rw [if_pos (by simp)]

theorem bulletValue_colon {k : Str} (hk : ':' ∉ k) (v : Str) :
    bulletValue ('-' :: ' ' :: (k ++ ':' :: v)) = strTrim (v.take 511) := by
  have hval : (k ++ ':' :: v).dropWhile (fun c => c ≠ ':') = ':' :: v := by
    rw [List.dropWhile_append_of_pos (fun c hc => by simpa using ne_of_mem_of_not_mem hc hk)]
    simp
  simp only [bulletValue, List.drop_succ_cons, List.drop_zero, hval]

theorem bulletKey_none {t : Str} (ht : ':' ∉ t) : bulletKey ('-' :: ' ' :: t) = none := by
  simp [bulletKey, ht]

theorem isBullet_cases {linebuf : Str} (h : isBullet linebuf = true) :
    ∃ t, linebuf = '-' :: ' ' :: t := by
  obtain ⟨t, ht⟩ := List.isPrefixOf_iff_prefix.mp h
  exact ⟨t, ht.symm⟩

/-- Whether the line answers a recall. -/
def answers (k' : Str) (r : Bool) (line : Str) : Bool :=
  r && isBullet (lineBuf line) && bulletKey (lineBuf line) == some k'

/-- The flag of `memory_recall` after the line. -/
def recallFlag (s' : Str) (r : Bool) (line : Str) : Bool :=
  if isHeading (lineBuf line) then recallHeading (lineBuf line) == s' else r

theorem recallFrom_cons (s' k' : Str) (r : Bool) (line : Str) (rest : List Str) :
    recallFrom s' k' r (line :: rest) =
      if answers k' r line then some (bulletValue (lineBuf line))
      else recallFrom s' k' (recallFlag s' r line) rest := by
  by_cases h : isHeading (lineBuf line) = true
  · have hans : answers k' r line = false := by
      rw [answers, not_isBullet_of_isHeading h, Bool.and_false, Bool.false_and]
    rw [recallFrom, if_pos h, hans, if_neg Bool.false_ne_true, recallFlag, if_pos h]
  · rw [recallFrom, if_neg h, recallFlag, if_neg h]
    rfl

theorem not_answers_of_plain {key k' line : Str} (hp : Plain key line) {r : Bool}
    (hr : r = true → k' ≠ key) : answers k' r line = false := by
  cases r with
  | false => rfl
  | true =>
    rw [answers, Bool.true_and]
    by_contra hans
    simp only [Bool.not_eq_false, Bool.and_eq_true, beq_iff_eq] at hans
    rcases hp.2 hans.1 with hnone | hsome
    · rw [hnone] at hans
      cases hans.2
    · rw [hsome] at hans
      exact hr rfl (Option.some.inj hans.2).symm

/-- The lines of the new fact answer no other recall. -/
theorem recallFrom_plain {s' k' key : Str} {r : Bool} (hr : r = true → k' ≠ key) {ls : List Str}
    (hp : ∀ line ∈ ls, Plain key line) (rest : List Str) :
    recallFrom s' k' r (ls ++ rest) = recallFrom s' k' r rest := by
  induction ls with
  | nil => rfl
  | cons line ls ih =>
    have hline := hp line List.mem_cons_self
    have hflag : recallFlag s' r line = r := by
      rw [recallFlag, hline.1, if_neg Bool.false_ne_true]
    rw [List.cons_append, recallFrom_cons, not_answers_of_plain hline hr,
      if_neg Bool.false_ne_true, hflag]
    exact ih (fun l hl => hp l (List.mem_cons_of_mem line hl))

theorem recallFrom_blank (s' k' : Str) (r : Bool) (rest : List Str) :
    recallFrom s' k' r (['\n'] :: rest) = recallFrom s' k' r rest := by
  rw [recallFrom, if_neg (by decide), if_neg (by simp [isBullet, lineBuf])]

/-- Reading on in a section that is put at the end of the file. -/
theorem recallFrom_newSection {sec : Str} (hsec : sec ∈ canonicalSections) (bullet s' k' : Str)
    (r : Bool) :
    recallFrom s' k' r (lines ("## ".toList ++ sec ++ ['\n', '\n'] ++ bullet ++ ['\n'])) =
      recallFrom s' k' (sec == s') (lines (bullet ++ ['\n'] ++ [])) := by
  obtain ⟨hhead, hrecall⟩ := canonical_heading sec hsec
  obtain ⟨-, hnl, -⟩ := canonical_shape sec hsec
  have hbody : '\n' ∉ "## ".toList ++ sec := by
    rw [List.mem_append]
    rintro (h | h)
    · exact absurd h (by decide)
    · exact hnl h
  have hlines : lines ("## ".toList ++ sec ++ ['\n', '\n'] ++ bullet ++ ['\n']) =
      ("## ".toList ++ sec ++ ['\n']) :: ['\n'] :: lines (bullet ++ ['\n'] ++ []) := by
    rw [List.append_assoc, List.append_assoc, List.append_nil]
    exact (lines_body _ _ hbody).trans (congrArg _ (lines_body [] _ List.not_mem_nil))
  rw [hlines, recallFrom, if_pos hhead, hrecall, recallFrom_blank]

theorem plain_of_isFact {key line : Str} (hne : key ≠ []) (hf : isFact key line = true) :
    Plain key line := by
  simp only [isFact, Bool.and_eq_true, beq_iff_eq] at hf
  constructor
  · by_contra hh
    rw [Bool.not_eq_false] at hh
    rw [not_isBullet_of_isHeading hh] at hf
    cases hf.1
  · intro _
    cases hk : bulletKey (lineBuf line) with
    | none =>
      rw [hk] at hf
      exact absurd hf.2.symm hne
    | some k =>
      rw [hk] at hf
      exact Or.inr (congrArg some hf.2)

theorem recallHeading_ended {line : Str} (hnl : '\n' ∉ line) :
    recallHeading (line ++ ['\n']) = recallHeading line := by
  have hin : ∀ c ∈ (line.drop 3).take 255, decide (c ≠ '\n') = true := by
    intro c hc
    have hmem := List.mem_of_mem_drop (List.mem_of_mem_take hc)
    simpa using ne_of_mem_of_not_mem hmem hnl
  have hout : ∀ n m, ((['\n'].drop m).take n).takeWhile (fun c => c ≠ '\n') = [] := by
    intro n m
    cases m <;> cases n <;> simp
  rw [recallHeading, recallHeading, List.drop_append, List.take_append,
    List.takeWhile_append_of_pos hin, hout, List.append_nil,
    List.takeWhile_eq_self_iff.mpr hin]

theorem bulletKey_ended {line : Str} (h : isBullet line = true) :
    bulletKey (line ++ ['\n']) = bulletKey line ∧
      (bulletKey line ≠ none → bulletValue (line ++ ['\n']) = bulletValue line) := by
  obtain ⟨t, rfl⟩ := isBullet_cases h
  by_cases hcolon : ':' ∈ t
  · obtain ⟨k, v, rfl, hk⟩ := List.eq_append_cons_of_mem hcolon
    have hsplit : '-' :: ' ' :: (k ++ ':' :: v) ++ ['\n'] =
        '-' :: ' ' :: (k ++ ':' :: (v ++ ['\n'])) := by
      simp
    rw [hsplit, bulletKey_colon hk, bulletKey_colon hk, bulletValue_colon hk, bulletValue_colon hk]
    refine ⟨rfl, fun _ => ?_⟩
    by_cases hlen : 511 ≤ v.length
    · rw [List.take_append_of_le_length hlen]
    · rw [List.take_of_length_le (by rw [List.length_append, List.length_singleton]; omega),
        List.take_of_length_le (by omega), strTrim_space v (by decide)]
  · have hcolon' : ':' ∉ t ++ ['\n'] := by
      simp [hcolon]
    rw [List.cons_append, List.cons_append, bulletKey_none hcolon, bulletKey_none hcolon']
    exact ⟨rfl, fun h => absurd rfl h⟩

/-- A line reads the same with and without a newline at its end. -/
theorem recallFrom_ended {line : Str} (hlen : line.length < 2048) (hnl : '\n' ∉ line) (s' k' : Str)
    (r : Bool) (rest : List Str) :
    recallFrom s' k' r ((line ++ ['\n']) :: rest) = recallFrom s' k' r (line :: rest) := by
  by_cases hfull : line.length = 2047
  · have hbuf : lineBuf (line ++ ['\n']) = lineBuf line := by
      rw [lineBuf, lineBuf, List.take_append_of_le_length (by omega)]
    simp only [recallFrom, hbuf]
  · have hbuf : lineBuf line = line := List.take_of_length_le (by omega)
    have hbuf' : lineBuf (line ++ ['\n']) = line ++ ['\n'] := by
      apply List.take_of_length_le
      rw [List.length_append, List.length_singleton]
      omega
    have hhead : isHeading (line ++ ['\n']) = isHeading line :=
      isPrefixOf_append (by decide) line []
    have hbul : isBullet (line ++ ['\n']) = isBullet line :=
      isPrefixOf_append (by decide) line []
    have hflag : recallFlag s' r (line ++ ['\n']) = recallFlag s' r line := by
      simp only [recallFlag, hbuf, hbuf', hhead, recallHeading_ended hnl]
    rw [recallFrom_cons, recallFrom_cons, hflag, answers, answers, hbuf, hbuf', hbul]
    by_cases hb : isBullet line = true
    · obtain ⟨hkey, hvalue⟩ := bulletKey_ended hb
      rw [hkey]
      by_cases hans : (r && isBullet line && bulletKey line == some k') = true
      · rw [if_pos hans, if_pos hans, hvalue]
        intro hnone
        simp [hnone] at hans
      · rw [if_neg hans, if_neg hans]
    · simp only [hb, Bool.and_false, Bool.false_and, Bool.false_eq_true, if_false]

section Elsewhere

variable {sec key bullet s' k' : Str}

/-- Where `memory_store` is in its section, `memory_recall` is in no other one. -/
def Tracks (sec s' : Str) (c : Cursor) (r : Bool) : Prop :=
  c.inTarget = true → r = true → s' = sec

theorem tracks_advance (hsec : sec ∈ canonicalSections) (hs' : s' ∈ canonicalSections)
    {c : Cursor} {r : Bool} (h : Tracks sec s' c r) (line : Str) :
    Tracks sec s' (advance sec key c line) (recallFlag s' r line) := by
  intro ht hr
  rw [advance_inTarget] at ht
  rw [recallFlag] at hr
  by_cases hh : isHeading (lineBuf line) = true
  · rw [if_pos hh] at ht hr
    have hs : recallHeading (lineBuf line) = s' := beq_iff_eq.mp hr
    rw [← hs]
    exact isTarget_recall hsec ht (hs ▸ hs')
  · rw [if_neg hh] at ht hr
    exact h ht hr

theorem replaces_eq (sec key : Str) (c : Cursor) (line : Str) :
    replaces key (atHeading sec c (lineBuf line)) (lineBuf line) =
      isOld key ((advance sec key c line).inTarget, line) := by
  rw [advance_inTarget, replaces, atHeading, isOld, isFact, isTarget]
  by_cases hh : isHeading (lineBuf line) = true
  · simp only [hh, if_true, Bool.true_and, Bool.and_assoc]
  · simp only [hh, Bool.false_eq_true, if_false, Bool.and_assoc]

/-- The new fact's text, ahead of another text. -/
theorem recall_bullet (hplain : ∀ line ∈ lines (bullet ++ ['\n']), Plain key line) {r : Bool}
    (hr : r = true → k' ≠ key) (rest : Str) :
    recallFrom s' k' r (lines (bullet ++ ['\n'] ++ rest)) = recallFrom s' k' r (lines rest) := by
  rw [List.append_assoc, List.singleton_append, lines_cut]
  exact recallFrom_plain hr hplain (lines rest)

variable (hsec : sec ∈ canonicalSections) (hs' : s' ∈ canonicalSections)
  (hne : (s', k') ≠ (sec, key)) (hkey : key ≠ [])
  (hplain : ∀ line ∈ lines (bullet ++ ['\n']), Plain key line)

include hne in
theorem other_key {r : Bool} (h : r = true → s' = sec) : r = true → k' ≠ key := by
  intro hr hk
  exact hne (by rw [h hr, hk])

include hne hplain in
/-- A fact that is put at the end of its section. -/
theorem recall_endsSection {c : Cursor} {r : Bool} (ht : Tracks sec s' c r) (line rest : Str) :
    recallFrom s' k' r
        (lines ((if endsSection c (lineBuf line) then bullet ++ ['\n'] else []) ++ rest)) =
      recallFrom s' k' r (lines rest) := by
  by_cases he : endsSection c (lineBuf line) = true
  · rw [if_pos he]
    apply recall_bullet hplain (other_key hne _)
    intro hr
    simp only [endsSection, Bool.and_eq_true] at he
    exact ht he.1.2 hr
  · rw [if_neg he]
    rfl

include hne hkey hplain in
theorem recall_replaced {c : Cursor} {r : Bool} (ht : Tracks sec s' c r) {line : Str}
    (hold : isOld key ((advance sec key c line).inTarget, line) = true) (rest : Str)
    (old : List Str) (heq : recallFrom s' k' (recallFlag s' r line) (lines rest) =
      recallFrom s' k' (recallFlag s' r line) old) :
    recallFrom s' k' r (lines (emit sec key bullet c line ++ rest)) =
      recallFrom s' k' r (line :: old) := by
  rw [emit, replaces_eq, if_pos hold, List.append_assoc, recall_endsSection hne hplain ht]
  simp only [isOld, Bool.and_eq_true] at hold
  have hp := plain_of_isFact hkey hold.2
  have hin : c.inTarget = true := by
    rw [advance_inTarget, hp.1, if_neg Bool.false_ne_true] at hold
    exact hold.1
  have hr := other_key hne (ht hin)
  have hall : ∀ l ∈ [line], Plain key l := by
    intro l hl
    rwa [List.mem_singleton.mp hl]
  rw [recallFlag, hp.1, if_neg Bool.false_ne_true] at heq
  rw [recall_bullet hplain hr, heq]
  exact (recallFrom_plain hr hall old).symm

include hne hplain in
theorem recall_kept {c : Cursor} {r : Bool} (ht : Tracks sec s' c r) {line : Str}
    (hold : isOld key ((advance sec key c line).inTarget, line) = false)
    (hlen : line.length < 2048) (rest : Str) :
    recallFrom s' k' r (lines (emit sec key bullet c line ++ rest)) =
      recallFrom s' k' r (lines (line ++ rest)) := by
  rw [emit, replaces_eq, hold, if_neg Bool.false_ne_true, copyLine, if_pos hlen, List.append_assoc,
    recall_endsSection hne hplain ht]

include hsec hne hplain in
/-- A section that is put at the end of the file. -/
theorem recall_newSection (r : Bool) :
    recallFrom s' k' r (lines ("## ".toList ++ sec ++ ['\n', '\n'] ++ bullet ++ ['\n'])) = none := by
  have hr : (sec == s') = true → s' = sec := fun h => (beq_iff_eq.mp h).symm
  rw [recallFrom_newSection hsec, recall_bullet hplain (other_key hne hr)]
  rfl

include hsec hne hplain in
theorem recall_storeTail {c : Cursor} (hc : c.Sound) {r : Bool} (ht : Tracks sec s' c r) :
    recallFrom s' k' r (lines (storeTail sec bullet c)) = none := by
  rw [storeTail]
  cases hw : c.keyWritten with
  | true => rfl
  | false =>
    rw [if_neg Bool.false_ne_true]
    cases hf : c.sectionFound with
    | true =>
      rw [if_pos rfl, ← List.append_nil (bullet ++ ['\n'])]
      exact recall_bullet hplain (other_key hne (ht (hc.open_ hf hw))) []
    | false =>
      rw [if_neg Bool.false_ne_true]
      have hlines := lines_body [] ("## ".toList ++ sec ++ ['\n', '\n'] ++ bullet ++ ['\n'])
        List.not_mem_nil
      rw [List.nil_append, List.nil_append] at hlines
      refine (congrArg _ hlines).trans ?_
      rw [recallFrom_blank]
      exact recall_newSection hsec hne hplain r

/-- A bullet glued to a line that is none does not make it one. -/
theorem glued_shape {body t : Str} (hbody : body ≠ []) (hlen : body.length < 2048) :
    isHeading (lineBuf (body ++ '-' :: t)) = isHeading (lineBuf body) ∧
      isBullet (lineBuf (body ++ '-' :: t)) = isBullet (lineBuf body) ∧
      body <+: lineBuf (body ++ '-' :: t) := by
  have hbuf : lineBuf body = body := List.take_of_length_le (by omega)
  have hglued : lineBuf (body ++ '-' :: t) = body ++ ('-' :: t).take (2047 - body.length) := by
    rw [lineBuf, List.take_append, List.take_of_length_le (by omega)]
  rw [hbuf, hglued]
  refine ⟨?_, ?_, List.prefix_append _ _⟩
  · cases 2047 - body.length with
    | zero => rw [List.take_zero, List.append_nil]
    | succ n => exact isPrefixOf_append (by decide) body _
  · obtain ⟨x, m, rfl⟩ := List.exists_cons_of_ne_nil hbody
    cases 2047 - (x :: m).length with
    | zero => rw [List.take_zero, List.append_nil]
    | succ n => exact congrArg (('-' == x) && ·) (isPrefixOf_append (by decide) m _)

include hsec hs' hne hplain in
/-- A fact glued to a last line that is no bullet. -/
theorem recall_glued (hdash : bullet.head? = some '-') {c : Cursor} {body : Str}
    (hbody : body ≠ []) (hnl : '\n' ∉ body) (hlen : body.length < 2048)
    (hno : isBullet (lineBuf body) = false) {r : Bool} (ht : Tracks sec s' c r)
    (hin : (advance sec key c body).inTarget = true) :
    recallFrom s' k' r (lines (body ++ (bullet ++ ['\n']))) = recallFrom s' k' r [body] := by
  obtain ⟨b, rfl⟩ := List.head?_eq_some_iff.mp hdash
  obtain ⟨t, ls, hlines⟩ := lines_head (by decide : '-' ≠ '\n') (b ++ ['\n'])
  obtain ⟨hhead, hbul, hpre⟩ := glued_shape (t := t) hbody hlen
  rw [List.cons_append] at hplain ⊢
  rw [hlines] at hplain
  rw [lines_glue hnl hlines, recallFrom_cons, recallFrom_cons s' k' r body []]
  simp only [answers, hbul, hno, Bool.and_false, Bool.false_and, Bool.false_eq_true, if_false]
  have hr : recallFlag s' r (body ++ '-' :: t) = true → s' = sec := by
    intro hr
    rw [recallFlag, hhead] at hr
    rw [advance_inTarget] at hin
    by_cases hh : isHeading (lineBuf body) = true
    · rw [if_pos hh] at hr hin
      have hs : recallHeading (lineBuf (body ++ '-' :: t)) = s' := beq_iff_eq.mp hr
      simp only [isTarget, Bool.and_eq_true, beq_iff_eq] at hin
      have hstore : sec <+: (lineBuf (body ++ '-' :: t)).drop 3 := by
        have hbuf : lineBuf body = body := List.take_of_length_le (by omega)
        rw [hbuf] at hin
        rw [← hin.2]
        refine (storeHeading_start body).trans ?_
        obtain ⟨u, hu⟩ := hpre
        rw [← hu, List.drop_append]
        exact List.prefix_append _ _
      rw [← hs]
      exact recallHeading_of_start hsec hstore (hs ▸ hs')
    · rw [if_neg hh] at hr hin
      exact ht hin hr
  have hskip : recallFrom s' k' _ (ls ++ []) = recallFrom s' k' _ [] :=
    recallFrom_plain (other_key hne hr) (fun l hl => hplain l (List.mem_cons_of_mem _ hl)) []
  rw [List.append_nil] at hskip
  exact hskip

include hsec hs' hne hplain in
/-- The last line, kept as it is, and what follows it. -/
theorem recall_last (hdash : bullet.head? = some '-') {c : Cursor} (hc : c.Sound) {body : Str}
    (hbody : body ≠ []) (hnl : '\n' ∉ body) (hlen : body.length < 2048) {r : Bool}
    (ht : Tracks sec s' c r)
    (hend : isBullet (lineBuf body) = true →
      (advance sec key c body).keyWritten = true ∨ (advance sec key c body).sectionFound = false) :
    recallFrom s' k' r (lines (body ++ storeTail sec bullet (advance sec key c body))) =
      recallFrom s' k' r [body] := by
  have hc' : (advance sec key c body).Sound := advance_sound hc body
  have ht' : Tracks sec s' (advance sec key c body) (recallFlag s' r body) :=
    tracks_advance hsec hs' ht body
  rw [storeTail]
  cases hw : (advance sec key c body).keyWritten with
  | true => rw [if_pos rfl, List.append_nil, lines_last body hbody hnl]
  | false =>
    rw [if_neg Bool.false_ne_true]
    cases hf : (advance sec key c body).sectionFound with
    | false =>
      rw [if_neg Bool.false_ne_true]
      have hlines := lines_body body ("## ".toList ++ sec ++ ['\n', '\n'] ++ bullet ++ ['\n']) hnl
      refine (congrArg _ hlines).trans ?_
      rw [recallFrom_ended hlen hnl, recallFrom_cons, recallFrom_cons s' k' r body []]
      rw [recall_newSection hsec hne hplain]
      rfl
    | true =>
      rw [if_pos rfl]
      have hno : isBullet (lineBuf body) = false := by
        by_contra hb
        rw [Bool.not_eq_false] at hb
        rcases hend hb with h | h
        · exact absurd (hw.symm.trans h) (by decide)
        · exact absurd (hf.symm.trans h) (by decide)
      exact recall_glued hsec hs' hne hplain hdash hbody hnl hlen hno ht (hc'.open_ hf hw)

include hsec hs' hne hkey hplain in
/-- What is recalled from the new text is recalled from the old lines. -/
theorem recall_emitAll (hdash : bullet.head? = some '-') {ls : List Str} (hls : Lined ls)
    {c : Cursor} (hc : c.Sound) {r : Bool} (ht : Tracks sec s' c r)
    (hshort : ∀ p ∈ placed sec c.inTarget ls, isOld key p = false → p.2.length < 2048)
    (hend : ∀ line ∈ ls.getLast?, isBullet (lineBuf line) = true → '\n' ∉ line →
      (ls.foldl (advance sec key) c).keyWritten = true ∨
        (ls.foldl (advance sec key) c).sectionFound = false) :
    recallFrom s' k' r (lines (emitAll sec key bullet c ls)) = recallFrom s' k' r ls := by
  induction hls generalizing c r with
  | nil => exact recall_storeTail hsec hne hplain hc ht
  | last body hbody hnl =>
    rw [emitAll, emitAll]
    rw [placed, ← advance_inTarget] at hshort
    cases hold : isOld key ((advance sec key c body).inTarget, body) with
    | true =>
      apply recall_replaced hne hkey hplain ht hold
      exact recall_storeTail hsec hne hplain (advance_sound hc body)
        (tracks_advance hsec hs' ht body)
    | false =>
      have hlen := hshort _ List.mem_cons_self hold
      rw [recall_kept hne hplain ht hold hlen]
      exact recall_last hsec hs' hne hplain hdash hc hbody hnl hlen ht
        (fun hb => hend body rfl hb hnl)
  | cons line ls hline hrest ih =>
    rw [emitAll]
    rw [placed, ← advance_inTarget] at hshort
    have hrec := ih (advance_sound hc line) (tracks_advance hsec hs' ht line)
      (fun p hp => hshort p (List.mem_cons_of_mem _ hp))
      (fun l hl => hend l (by rw [List.getLast?_cons, hl]; rfl))
    cases hold : isOld key ((advance sec key c line).inTarget, line) with
    | true => exact recall_replaced hne hkey hplain ht hold _ ls hrec
    | false =>
      have hlen := hshort _ List.mem_cons_self hold
      rw [recall_kept hne hplain ht hold hlen, lines_terminated hline, recallFrom_cons, hrec,
        ← recallFrom_cons]

end Elsewhere

theorem not_isTarget {sec line : Str} (h : isHeading (lineBuf line) = false) :
    isTarget sec line = false := by
  rw [isTarget, h, Bool.false_and]

theorem copyLine_length (line : Str) : (copyLine line).length = line.length := by
  rw [copyLine]
  split
  · rfl
  · rw [List.length_append, List.length_take, List.length_replicate]
    omega

theorem emit_length (sec key bullet : Str) (c : Cursor) (line : Str) :
    (emit sec key bullet c line).length =
      (if endsSection c (lineBuf line) then bullet.length + 1 else 0) +
        (if isOld key ((advance sec key c line).inTarget, line) then bullet.length + 1
          else line.length) := by
  rw [emit, replaces_eq, List.length_append]
  congr 1
  · split <;> simp
  · split
    · simp
    · exact copyLine_length line

theorem holdsKey_heading {key line : Str} (h : isHeading (lineBuf line) = true) (rest : List Str) :
    holdsKey key (line :: rest) = false := by
  simp [holdsKey, h]

theorem holdsKey_body {key line : Str} (h : isHeading (lineBuf line) = false) (rest : List Str) :
    holdsKey key (line :: rest) = (isFact key line || holdsKey key rest) := by
  simp [holdsKey, h]

/-- The bytes still to be added from a place in the file on. -/
def addedFrom (sec key bullet : Str) (c : Cursor) (ls : List Str) : Nat :=
  if c.keyWritten then 0
  else if c.inTarget then (if holdsKey key ls then 0 else bullet.length + 1)
  else added sec key bullet ls

def sizeFrom (sec key bullet : Str) (inTarget : Bool) (ls : List Str) : Nat :=
  (((placed sec inTarget ls).filter (fun p => !isOld key p)).map Prod.snd).flatten.length +
    (placed sec inTarget ls).countP (isOld key) * (bullet.length + 1)

theorem sizeFrom_cons (sec key bullet : Str) (c : Cursor) (line : Str) (rest : List Str) :
    sizeFrom sec key bullet c.inTarget (line :: rest) =
      (if isOld key ((advance sec key c line).inTarget, line) then bullet.length + 1
        else line.length) + sizeFrom sec key bullet (advance sec key c line).inTarget rest := by
  rw [sizeFrom, sizeFrom, placed, ← advance_inTarget sec key]
  cases hold : isOld key ((advance sec key c line).inTarget, line) with
  | true =>
    simp only [List.filter_cons, List.countP_cons, hold, Bool.not_true, Bool.false_eq_true,
      if_false, if_true, Nat.add_mul]
    omega
  | false =>
    simp only [List.filter_cons, List.countP_cons, hold, Bool.not_false, Bool.false_eq_true,
      if_false, if_true, List.map_cons, List.flatten_cons, List.length_append, Nat.add_mul]
    omega

theorem addedFrom_cons (sec key bullet : Str) (c : Cursor) (line : Str) (rest : List Str) :
    addedFrom sec key bullet c (line :: rest) =
      (if endsSection c (lineBuf line) then bullet.length + 1 else 0) +
        addedFrom sec key bullet (advance sec key c line) rest := by
  obtain ⟨inTarget, keyWritten, found⟩ := c
  cases keyWritten with
  | true =>
    cases hh : isHeading (lineBuf line) with
    | true => simp [addedFrom, endsSection, advance_heading sec key _ hh]
    | false => simp [addedFrom, endsSection, advance_body sec key _ hh]
  | false =>
    cases hh : isHeading (lineBuf line) with
    | true =>
      rw [advance_heading sec key _ hh]
      cases inTarget with
      | true => simp [addedFrom, endsSection, hh, holdsKey_heading hh]
      | false => cases ht : isTarget sec line <;> simp [addedFrom, endsSection, added, underFirst, ht]
    | false =>
      rw [advance_body sec key _ hh]
      cases inTarget with
      | true =>
        cases hf : isFact key line <;> simp [addedFrom, endsSection, hh, holdsKey_body hh, hf]
      | false => simp [addedFrom, endsSection, hh, added, underFirst, not_isTarget hh]

theorem emitAll_length (sec key bullet : Str) {c : Cursor} (hc : c.Sound) (ls : List Str) :
    (emitAll sec key bullet c ls).length =
      sizeFrom sec key bullet c.inTarget ls + addedFrom sec key bullet c ls := by
  induction ls generalizing c with
  | nil =>
    obtain ⟨inTarget, keyWritten, found⟩ := c
    cases keyWritten with
    | true => simp [emitAll, storeTail, sizeFrom, addedFrom, placed]
    | false =>
      cases inTarget with
      | true =>
        have hfound : found = true := hc.found rfl
        simp [emitAll, storeTail, sizeFrom, addedFrom, placed, holdsKey, hfound]
      | false =>
        have hfound : found = false := by
          by_contra hf
          rw [Bool.not_eq_false] at hf
          cases hc.open_ hf rfl
        simp [emitAll, storeTail, sizeFrom, addedFrom, placed, added, underFirst, hfound]
        omega
  | cons line rest ih =>
    rw [emitAll, List.length_append, emit_length, ih (advance_sound hc line), sizeFrom_cons,
      addedFrom_cons]
    omega

theorem written_stays (sec key : Str) {c : Cursor} (h : c.keyWritten = true) (ls : List Str) :
    (ls.foldl (advance sec key) c).keyWritten = true := by
  induction ls generalizing c with
  | nil => exact h
  | cons line rest ih =>
    apply ih
    cases hh : isHeading (lineBuf line) with
    | true => rw [advance_heading sec key c hh, h, Bool.true_or]
    | false => rw [advance_body sec key c hh, h, Bool.true_or]

theorem written_in (sec key : Str) {ls : List Str} (found : Bool)
    (h : (ls.all (fun l => !isHeading (lineBuf l)) && !holdsKey key ls) = false) :
    (ls.foldl (advance sec key) ⟨true, false, found⟩).keyWritten = true := by
  induction ls with
  | nil => cases h
  | cons line rest ih =>
    rw [List.foldl_cons]
    cases hh : isHeading (lineBuf line) with
    | true =>
      rw [advance_heading sec key _ hh]
      exact written_stays sec key rfl rest
    | false =>
      rw [advance_body sec key _ hh]
      cases hf : isFact key line with
      | true => exact written_stays sec key rfl rest
      | false =>
        apply ih
        rw [List.all_cons, hh, holdsKey_body hh, hf] at h
        exact h

/-- Only in a last section without the key is the fact put after the last line. -/
theorem written_or_absent {sec key : Str} {ls : List Str} (h : endsWithout sec key ls = false) :
    (ls.foldl (advance sec key) ⟨false, false, false⟩).keyWritten = true ∨
      (ls.foldl (advance sec key) ⟨false, false, false⟩).sectionFound = false := by
  induction ls with
  | nil => exact Or.inr rfl
  | cons line rest ih =>
    rw [List.foldl_cons]
    rw [endsWithout, underFirst] at h
    cases hh : isHeading (lineBuf line) with
    | true =>
      rw [advance_heading sec key _ hh]
      cases ht : isTarget sec line with
      | true =>
        rw [ht, if_pos rfl] at h
        exact Or.inl (written_in sec key true h)
      | false =>
        rw [ht, if_neg Bool.false_ne_true] at h
        exact ih h
    | false =>
      rw [not_isTarget hh, if_neg Bool.false_ne_true] at h
      rw [advance_body sec key _ hh]
      exact ih h

/-- No null byte gets into the new text. -/
theorem not_mem_emitAll {sec key bullet : Str} (hsec : '\x00' ∉ sec) (hbullet : '\x00' ∉ bullet)
    {ls : List Str} {c : Cursor} (hls : ∀ line ∈ ls, '\x00' ∉ line)
    (hshort : ∀ p ∈ placed sec c.inTarget ls, isOld key p = false → p.2.length < 2048) :
    '\x00' ∉ emitAll sec key bullet c ls := by
  induction ls generalizing c with
  | nil =>
    rw [emitAll, storeTail]
    split
    · exact List.not_mem_nil
    split <;> simp [hsec, hbullet]
  | cons line rest ih =>
    rw [placed, ← advance_inTarget sec key] at hshort
    have hrest := ih (fun l hl => hls l (List.mem_cons_of_mem line hl))
      (fun p hp => hshort p (List.mem_cons_of_mem _ hp))
    rw [emitAll, emit, replaces_eq, List.mem_append, List.mem_append]
    rintro ((h | h) | h)
    · split at h
      · simp [hbullet] at h
      · exact List.not_mem_nil h
    · split at h
      · simp [hbullet] at h
      · rename_i hold
        have hlen := hshort _ List.mem_cons_self (Bool.eq_false_of_not_eq_true hold)
        rw [copyLine, if_pos hlen] at h
        exact hls line List.mem_cons_self h
    · exact hrest h

theorem tmpPath_ne (mem : Memory) : mem.path ≠ tmpPath mem := by
  intro h
  have heq := congrArg List.length h
  rw [tmpPath_eq, List.length_append] at heq
  exact absurd heq (Nat.ne_of_lt (Nat.lt_add_of_pos_right (by decide)))

theorem replaced_path (fs : Fs) (mem : Memory) (bytes : Str) :
    runWrites fs (replace (tmpPath mem) mem.path bytes) mem.path = some bytes := by
  rw [run_replace, Fs.rename_target (tmpPath_ne mem), Fs.write_self]

theorem writeMemoryFile_touches {f : Faults} {mem : Memory} {content : Str} :
    ∀ w ∈ (writeMemoryFile f mem content).2, ∀ p ∈ w.touches, p = mem.path ∨ p = tmpPath mem := by
  unfold writeMemoryFile
  split
  · split
    · simp [replace, overwrite, Write.touches]
    · simp [overwrite, Write.touches]
  · simp

/-- Without a rename only the temporary file is touched. -/
theorem write_aside {f : Faults} (h : ¬ (f.opens = true ∧ f.renames = true)) {mem : Memory}
    {content : Str} : ∀ w ∈ (writeMemoryFile f mem content).2, w.touches = [tmpPath mem] := by
  unfold writeMemoryFile
  split
  · rename_i hopens
    rw [if_neg (fun hrenames => h ⟨hopens, hrenames⟩)]
    simp [overwrite, Write.touches]
  · simp

/-- What a write leaves in the file. -/
theorem write_path (f : Faults) (fs : Fs) (mem : Memory) (content : Str) :
    runWrites fs (writeMemoryFile f mem content).2 mem.path =
      if f.opens = true ∧ f.renames = true then some (f.arrived (cstr content))
      else fs mem.path := by
  split
  · rename_i hin
    rw [writeMemoryFile, if_pos hin.1, if_pos hin.2]
    exact replaced_path fs mem _
  · rename_i haside
    apply runWrites_of_not_mem
    intro w hw
    rw [write_aside haside w hw]
    exact mt List.mem_singleton.mp (tmpPath_ne mem)

theorem readMemoryFile_written {fs : Fs} {mem : Memory} {text : Str} (hfile : fs mem.path = some text)
    (hnul : '\x00' ∉ text) (hlen : text.length ≤ maxFileSize) : readMemoryFile fs mem = text := by
  rw [readMemoryFile, hfile]
  change (if text.length = 0 ∨ maxFileSize < text.length then [] else cstr text) = text
  split
  · rename_i h
    rcases h with h | h
    · exact (List.eq_nil_of_length_eq_zero h).symm
    · omega
  · exact cstr_eq_self hnul

theorem not_mem_readMemoryFile (fs : Fs) (mem : Memory) : '\x00' ∉ readMemoryFile fs mem := by
  rw [readMemoryFile]
  split
  · exact List.not_mem_nil
  split
  · exact List.not_mem_nil
  · exact not_mem_cstr _

theorem not_mem_line {fs : Fs} {mem : Memory} {line : Str}
    (hline : line ∈ lines (readMemoryFile fs mem)) : '\x00' ∉ line := by
  intro hmem
  apply not_mem_readMemoryFile fs mem
  rw [← lines_flatten (readMemoryFile fs mem)]
  exact List.mem_flatten.mpr ⟨line, hline, hmem⟩

theorem memoryStoreWith_some (f : Faults) (fs : Fs) (mem : Memory) (category : Option Str)
    {key : Str} (hkey : key ≠ []) (value : Str) :
    memoryStoreWith f fs mem category key (some value) =
      writeMemoryFile f mem (storeText (canonicaliseSection category) key (bulletFor key value)
        (readMemoryFileWith f fs mem)) := by
  cases key with
  | nil => exact absurd rfl hkey
  | cons c cs => rfl

/-- A successful store writes the new text. -/
theorem memoryStore_ok {disk : Disk} {fs fs' : Fs} {mem : Memory} {category : Option Str}
    {key value : Str} (h : memoryStore disk fs mem category key (some value) = (.ok, fs')) :
    key ≠ [] ∧ fs' mem.path = some (cstr
      (storeText (canonicaliseSection category) key (bulletFor key value)
        (readMemoryFile fs mem))) := by
  have hkey : key ≠ [] := by
    rintro rfl
    cases h
  refine ⟨hkey, ?_⟩
  rw [memoryStore, memoryStoreWith_some _ _ _ _ hkey] at h
  cases disk with
  | works =>
    have hfs : _ = fs' := congrArg Prod.snd h
    rw [← hfs]
    change runWrites fs (replace _ _ (Faults.none.arrived _)) mem.path = _
    rw [Faults.arrived_none, replaced_path]
    rfl
  | cannotOpen => cases h
  | cannotRename => cases h

theorem not_mem_bulletFor {key value : Str} (hkey : '\x00' ∉ key) (hvalue : '\x00' ∉ value) :
    '\x00' ∉ bulletFor key value := by
  intro h
  have hmem := List.mem_of_mem_take h
  simp [hkey, hvalue] at hmem

theorem bulletFor_head (key value : Str) : (bulletFor key value).head? = some '-' := rfl

/-- A store that the file can take leaves every other fact as it is. -/
theorem memory_store_frames_facts {disk : Disk} {fs fs' : Fs} {mem : Memory}
    {category : Option Str} {key value s' k' : Str}
    (hok : memoryStore disk fs mem category key (some value) = (.ok, fs'))
    (hkey : '\x00' ∉ key) (hvalue : '\x00' ∉ value)
    (hfit : Storable (canonicaliseSection category) key (bulletFor key value)
      (readMemoryFile fs mem))
    (hs' : s' ∈ canonicalSections) (hne : (s', k') ≠ (canonicaliseSection category, key)) :
    memoryRecall fs' mem (some s') k' = memoryRecall fs mem (some s') k' := by
  obtain ⟨hkeyne, hfile⟩ := memoryStore_ok hok
  have hsec := canonicalise_mem category
  obtain ⟨-, -, hsecnul, -⟩ := canonical_shape _ hsec
  generalize canonicaliseSection category = sec at *
  have hshort : ∀ p ∈ placed sec false (lines (readMemoryFile fs mem)), isOld key p = false →
      p.2.length < 2048 := by
    intro p hp hold
    apply hfit.short
    exact List.mem_map.mpr ⟨p, List.mem_filter.mpr ⟨hp, by rw [hold]; rfl⟩, rfl⟩
  have hnul : '\x00' ∉ storeText sec key (bulletFor key value) (readMemoryFile fs mem) := by
    rw [storeText_eq]
    exact not_mem_emitAll hsecnul (not_mem_bulletFor hkey hvalue) (fun _ => not_mem_line) hshort
  have hlen : (storeText sec key (bulletFor key value) (readMemoryFile fs mem)).length ≤
      maxFileSize := by
    rw [storeText_eq, emitAll_length sec key _ fresh_sound]
    exact hfit.fits
  rw [cstr_eq_self hnul] at hfile
  rw [memoryRecall, memoryRecall, canonicalise_self s' hs', readMemoryFile_written hfile hnul hlen,
    storeText_eq]
  apply recall_emitAll hsec hs' hne hkeyne hfit.plain (bulletFor_head key value)
    (lines_lined _) fresh_sound (fun h => by cases h) hshort
  intro line hline hb hnl
  cases hend : endsWithout sec key (lines (readMemoryFile fs mem)) with
  | true => exact absurd (hfit.ended hend line hline hb) hnl
  | false => exact written_or_absent hend

def sampleMemory : Memory := ⟨"m".toList, "m/MEMORY.md".toList, by decide⟩

def sampleFs (content : Str) : Fs := fun p => if p = sampleMemory.path then some content else none

def sampleStore (content category : Str) : Result × Fs :=
  memoryStore .works (sampleFs content) sampleMemory (some category) "b".toList (some "2".toList)

theorem memory_store_frames_fact_in_section :
    let content := "# Long-term Memory\n\n## Preferences\n- a: 1\n\n## Important Notes\n".toList
    memoryRecall (sampleStore content "pref".toList).2 sampleMemory (some "Preferences".toList)
        "a".toList =
      memoryRecall (sampleFs content) sampleMemory (some "Preferences".toList) "a".toList := by
  intro content
  have hok : memoryStore .works (sampleFs content) sampleMemory (some "pref".toList) "b".toList
      (some "2".toList) = (.ok, (sampleStore content "pref".toList).2) := rfl
  exact memory_store_frames_facts hok (by decide) (by decide)
    ⟨by decide +kernel, by decide +kernel, by decide +kernel, by decide +kernel⟩ (by decide)
    (by decide +kernel)

/-- A last line without a newline takes the next fact into its own value. -/
theorem unended_line_takes_fact :
    let content := "## Preferences\n- a: 1".toList
    let stored := sampleStore content "Preferences".toList
    stored.1 = .ok ∧
      memoryRecall (sampleFs content) sampleMemory (some "Preferences".toList) "a".toList =
        some "1".toList ∧
      memoryRecall stored.2 sampleMemory (some "Preferences".toList) "a".toList =
        some "1- b: 2".toList := by
  decide +kernel

end Dobby.MdMemory
