import Dobby.Base.Crlf
import Dobby.Base.Lines

namespace Dobby.Rfc5322
open CString Lines

def isWsp (c : Char) : Bool := c = ' ' || c = '\t'

/-- A printable character that may stand in a field name. -/
def isNameChar (c : Char) : Bool := 33 ≤ c.toNat && c.toNat ≤ 126 && c ≠ ':'

/-- A header field, with all that stands behind the colon. -/
structure Field where
  name : Str
  value : Str
  deriving DecidableEq

/-- A message whose body stands without the end of its last line. -/
structure Message where
  fields : List Field
  body : Str
  deriving DecidableEq

/-- Text without any part of a line break. -/
def Unbroken (s : Str) : Prop := '\r' ∉ s ∧ '\n' ∉ s

instance (s : Str) : Decidable (Unbroken s) := inferInstanceAs (Decidable (_ ∧ _))

/-- A text without the line break at its end. -/
def chop (s : Str) : Option Str :=
  match s.reverse with
  | '\n' :: '\r' :: r => some r.reverse
  | _ => none

/-- A line without its end, unless a lone carriage return stands in it. -/
def content (line : Str) : Option Str := (chop line).bind fun l => if '\r' ∈ l then none else some l

/-- The lines before the first empty one, and those behind it. -/
def splitHeader : List Str → Option (List Str × List Str)
  | [] => some ([], [])
  | line :: rest =>
    match content line with
    | none => none
    | some [] => some ([], rest)
    | some l => (splitHeader rest).map fun p => (l :: p.1, p.2)

def folds (line : Str) : Bool := line.head?.any isWsp

/-- Lines that start with white space go on with the line before. -/
def unfoldLines : List Str → List Str
  | [] => []
  | l :: ls =>
    match unfoldLines ls with
    | [] => [l]
    | next :: rest => if folds next then (l ++ next) :: rest else l :: next :: rest

def readField (line : Str) : Option Field :=
  let name := line.takeWhile (fun c => c ≠ ':')
  match line.dropWhile (fun c => c ≠ ':') with
  | [] => none
  | _ :: value => if name ≠ [] ∧ name.all isNameChar then some ⟨name, value⟩ else none

def readFields : List Str → Option (List Field)
  | [] => some []
  | l :: ls => (readField l).bind fun f => (readFields ls).map (f :: ·)

/-- The fields and the body of a message whose lines all end in CRLF. -/
def parse (s : Str) : Option Message :=
  (splitHeader (lines s)).bind fun p =>
    (readFields (unfoldLines p.1)).bind fun fields => (chop p.2.flatten).map (Message.mk fields)

def Field.line (f : Field) : Str := f.name ++ ':' :: f.value

def render (m : Message) : Str :=
  Crlf.text (m.fields.map Field.line) ++ (Crlf.crlf ++ (m.body ++ Crlf.crlf))

/-- A field on one line. -/
structure Field.Plain (f : Field) : Prop where
  named : f.name ≠ []
  letters : f.name.all isNameChar = true
  unbroken : Unbroken f.value

theorem Unbroken.append {s t : Str} (hs : Unbroken s) (ht : Unbroken t) : Unbroken (s ++ t) :=
  ⟨List.not_mem_append hs.1 ht.1, List.not_mem_append hs.2 ht.2⟩

theorem Unbroken.sublist {s t : Str} (h : Unbroken t) (hs : s.Sublist t) : Unbroken s :=
  ⟨fun hr => h.1 (hs.subset hr), fun hn => h.2 (hs.subset hn)⟩

theorem chop_crlf (s : Str) : chop (s ++ Crlf.crlf) = some s := by
  have hrev : (s ++ Crlf.crlf).reverse = '\n' :: '\r' :: s.reverse := by
    rw [List.reverse_append]
    rfl
  unfold chop
  rw [hrev]
  simp

theorem content_crlf {l : Str} (h : '\r' ∉ l) : content (l ++ Crlf.crlf) = some l := by
  rw [content, chop_crlf, Option.bind_some, if_neg h]

theorem lines_crlf {l : Str} (h : '\n' ∉ l) (rest : Str) :
    lines (l ++ (Crlf.crlf ++ rest)) = (l ++ Crlf.crlf) :: lines rest := by
  rw [← List.append_assoc]
  refine lines_terminated ⟨l ++ ['\r'], by simp [Crlf.crlf], ?_⟩ rest
  exact List.not_mem_append h (by decide)

theorem lines_break (rest : Str) : lines (Crlf.crlf ++ rest) = Crlf.crlf :: lines rest :=
  lines_crlf List.not_mem_nil rest

theorem splitHeader_text {ls : List Str} (h : ∀ l ∈ ls, Crlf.Line l) (rest : Str) :
    splitHeader (lines (Crlf.text ls ++ (Crlf.crlf ++ rest))) = some (ls, lines rest) := by
  induction ls with
  | nil =>
    have hempty : content Crlf.crlf = some [] := content_crlf List.not_mem_nil
    rw [Crlf.text_nil, List.nil_append, lines_break, splitHeader, hempty]
  | cons l ls ih =>
    have hl := h l List.mem_cons_self
    obtain ⟨c, cs, hc⟩ := List.exists_cons_of_ne_nil hl.nonempty
    rw [Crlf.text_cons, List.append_assoc, List.append_assoc, lines_crlf hl.lf, splitHeader,
      content_crlf hl.cr, ih (fun m hm => h m (List.mem_cons_of_mem l hm)), hc]
    rfl

theorem unfoldLines_plain {ls : List Str} (h : ∀ l ∈ ls, folds l = false) : unfoldLines ls = ls := by
  induction ls with
  | nil => rfl
  | cons l ls ih =>
    rw [unfoldLines, ih (fun m hm => h m (List.mem_cons_of_mem l hm))]
    cases ls with
    | nil => rfl
    | cons next rest =>
      have hnext := h next (by simp)
      simp [hnext]

section Plain

variable {f : Field}

theorem Field.Plain.line (h : f.Plain) : Crlf.Line f.line := by
  have hname : ∀ c ∈ f.name, c ≠ '\r' ∧ c ≠ '\n' := by
    intro c hc
    have hletter := List.all_eq_true.mp h.letters c hc
    constructor <;> rintro rfl <;> exact absurd hletter (by decide)
  refine ⟨by simp [Field.line], ?_, ?_⟩ <;> intro hmem <;>
    rcases List.mem_append.mp hmem with hmem | hmem
  · exact (hname _ hmem).1 rfl
  · exact h.unbroken.1 (List.mem_of_ne_of_mem (by decide) hmem)
  · exact (hname _ hmem).2 rfl
  · exact h.unbroken.2 (List.mem_of_ne_of_mem (by decide) hmem)

theorem Field.Plain.folds (h : f.Plain) : folds f.line = false := by
  obtain ⟨c, cs, hc⟩ := List.exists_cons_of_ne_nil h.named
  have hletter := List.all_eq_true.mp h.letters c (by simp [hc])
  have hwsp : isWsp c = false := by
    by_contra hw
    simp only [Bool.not_eq_false, isWsp, Bool.or_eq_true, decide_eq_true_eq] at hw
    rcases hw with rfl | rfl <;> exact absurd hletter (by decide)
  simp [Rfc5322.folds, Field.line, hc, hwsp]

theorem Field.Plain.read (h : f.Plain) : readField f.line = some f := by
  have hname : ∀ c ∈ f.name, decide (c ≠ ':') = true := by
    intro c hc
    have hletter := List.all_eq_true.mp h.letters c hc
    simp only [isNameChar, Bool.and_eq_true] at hletter
    exact hletter.2
  have htake : f.line.takeWhile (fun c => c ≠ ':') = f.name := by
    rw [Field.line, List.takeWhile_append_of_pos hname, List.takeWhile_cons_of_neg (by simp),
      List.append_nil]
  have hdrop : f.line.dropWhile (fun c => c ≠ ':') = ':' :: f.value := by
    rw [Field.line, List.dropWhile_append_of_pos hname, List.dropWhile_cons_of_neg (by simp)]
  unfold readField
  dsimp only
  rw [htake, hdrop]
  exact if_pos ⟨h.named, h.letters⟩

end Plain

theorem readFields_plain {fs : List Field} (h : ∀ f ∈ fs, f.Plain) :
    readFields (fs.map Field.line) = some fs := by
  induction fs with
  | nil => rfl
  | cons f fs ih =>
    rw [List.map_cons, readFields, (h f List.mem_cons_self).read,
      ih (fun g hg => h g (List.mem_cons_of_mem f hg))]
    rfl

theorem parse_render {m : Message} (h : ∀ f ∈ m.fields, f.Plain) : parse (render m) = some m := by
  have hlines : ∀ l ∈ m.fields.map Field.line, Crlf.Line l := by
    intro l hl
    obtain ⟨f, hf, rfl⟩ := List.mem_map.mp hl
    exact (h f hf).line
  have hfolds : ∀ l ∈ m.fields.map Field.line, folds l = false := by
    intro l hl
    obtain ⟨f, hf, rfl⟩ := List.mem_map.mp hl
    exact (h f hf).folds
  rw [parse, render, splitHeader_text hlines, Option.bind_some, unfoldLines_plain hfolds,
    readFields_plain h, Option.bind_some, lines_flatten, chop_crlf]
  rfl

theorem chop_eq_some {s t : Str} (h : chop s = some t) : s = t ++ Crlf.crlf := by
  unfold chop at h
  split at h
  · rename_i r hr
    cases h
    have hs := congrArg List.reverse hr
    rw [List.reverse_reverse] at hs
    rw [hs]
    simp [Crlf.crlf]
  · cases h

theorem content_unbroken {line l : Str} (hline : '\n' ∉ line.dropLast) (h : content line = some l) :
    Unbroken l := by
  unfold content at h
  obtain ⟨t, ht, hl⟩ := Option.bind_eq_some_iff.mp h
  split at hl
  · cases hl
  · rename_i hcr
    cases hl
    refine ⟨hcr, fun hlf => hline ?_⟩
    rw [chop_eq_some ht, Crlf.crlf]
    simp [List.dropLast_append_of_ne_nil, hlf]

theorem splitHeader_unbroken {ls header rest : List Str} (hls : ∀ l ∈ ls, '\n' ∉ l.dropLast)
    (h : splitHeader ls = some (header, rest)) : ∀ l ∈ header, Unbroken l := by
  induction ls generalizing header with
  | nil =>
    cases h
    exact fun l hl => absurd hl List.not_mem_nil
  | cons line ls ih =>
    rw [splitHeader] at h
    split at h
    · cases h
    · cases h
      exact fun l hl => absurd hl List.not_mem_nil
    · rename_i l hne hl
      obtain ⟨p, hp, hh⟩ := Option.map_eq_some_iff.mp h
      cases hh
      intro k hk
      rcases List.mem_cons.mp hk with rfl | hk
      · exact content_unbroken (hls line List.mem_cons_self) hl
      · exact ih (fun m hm => hls m (List.mem_cons_of_mem line hm)) hp k hk

theorem unfoldLines_unbroken {ls : List Str} (h : ∀ l ∈ ls, Unbroken l) :
    ∀ l ∈ unfoldLines ls, Unbroken l := by
  induction ls with
  | nil => exact h
  | cons line ls ih =>
    have hline := h line List.mem_cons_self
    have hrest := ih (fun m hm => h m (List.mem_cons_of_mem line hm))
    rw [unfoldLines]
    cases hu : unfoldLines ls with
    | nil =>
      intro l hl
      rw [List.mem_singleton.mp hl]
      exact hline
    | cons next rest =>
      rw [hu, List.forall_mem_cons] at hrest
      dsimp only
      split
      · exact List.forall_mem_cons.mpr ⟨hline.append hrest.1, hrest.2⟩
      · exact List.forall_mem_cons.mpr ⟨hline, List.forall_mem_cons.mpr hrest⟩

theorem readField_unbroken {line : Str} {f : Field} (hline : Unbroken line)
    (h : readField line = some f) : Unbroken f.value := by
  unfold readField at h
  dsimp only at h
  split at h
  · cases h
  · rename_i c value hdrop
    split at h
    · cases h
      have hsuffix := List.dropWhile_suffix (l := line) (fun c => decide (c ≠ ':'))
      rw [hdrop] at hsuffix
      exact hline.sublist ((List.sublist_cons_self c value).trans hsuffix.sublist)
    · cases h

theorem readFields_unbroken {ls : List Str} {fs : List Field} (hls : ∀ l ∈ ls, Unbroken l)
    (h : readFields ls = some fs) : ∀ f ∈ fs, Unbroken f.value := by
  induction ls generalizing fs with
  | nil =>
    cases h
    exact fun f hf => absurd hf List.not_mem_nil
  | cons line ls ih =>
    obtain ⟨f, hf, hmap⟩ := Option.bind_eq_some_iff.mp h
    obtain ⟨rest, hrest, rfl⟩ := Option.map_eq_some_iff.mp hmap
    exact List.forall_mem_cons.mpr ⟨readField_unbroken (hls line List.mem_cons_self) hf,
      ih (fun m hm => hls m (List.mem_cons_of_mem line hm)) hrest⟩

/-- No value that is read off a message holds a part of a line break. -/
theorem parse_unbroken {s : Str} {m : Message} (h : parse s = some m) :
    ∀ f ∈ m.fields, Unbroken f.value := by
  obtain ⟨p, hp, hp'⟩ := Option.bind_eq_some_iff.mp h
  obtain ⟨fields, hfields, hbody⟩ := Option.bind_eq_some_iff.mp hp'
  obtain ⟨body, -, rfl⟩ := Option.map_eq_some_iff.mp hbody
  have hheader := splitHeader_unbroken (fun l hl => lines_dropLast hl) hp
  exact readFields_unbroken (unfoldLines_unbroken hheader) hfields

end Dobby.Rfc5322
