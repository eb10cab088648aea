import Dobby.Base.Search
import Dobby.Base.Trim
import Dobby.Model.Agent

namespace Dobby.AgentLoop
open CString

def openTag : Str := "<think>".toList

def closeTag : Str := "</think>".toList

/-- The pieces of a text outside its blocks. An unclosed block goes to the end. -/
inductive Pieces : Str → List Str → Prop where
  | rest (front : ¬ openTag <:+: p) : Pieces p [p]
  | unclosed (front : ¬ openTag <:+: p) (inner : ¬ closeTag <:+: b) :
      Pieces (p ++ (openTag ++ b)) [p]
  | block (front : ¬ openTag <:+: p) (inner : ¬ closeTag <:+: b) (behind : Pieces q ps) :
      Pieces (p ++ (openTag ++ (b ++ (closeTag ++ q)))) (p :: ps)

/-- What should come of stripping `s`: no tag, nothing else taken, and nothing left to do. -/
structure Stripped (s r : Str) : Prop where
  tagless : ¬ openTag <:+: r
  untouched : ¬ openTag <:+: s → r = strTrim s
  fixed : stripThinkTags (some r) = some r

theorem strstr_openTag {p : Str} (h : ¬ openTag <:+: p) (q : Str) :
    strstr openTag (p ++ (openTag ++ q)) = some (openTag ++ q) :=
  strstr_first (by decide) h q

theorem strstr_closeTag {b : Str} (h : ¬ closeTag <:+: b) (q : Str) :
    strstr closeTag (b ++ (closeTag ++ q)) = some (closeTag ++ q) :=
  strstr_first (by decide) h q

theorem stripFrom_tagless {p : Str} (h : ¬ openTag <:+: p) : stripFrom p = p := by
  have hnone : strstr "<think>".toList p = none := strstr_none_iff.mpr h
  rw [stripFrom]
  split
  · rename_i hp
    exact hp.symm
  · split
    · rfl
    · rename_i hs
      rw [hnone] at hs
      cases hs

theorem stripFrom_open {p : Str} (h : ¬ openTag <:+: p) (q : Str) :
    stripFrom (p ++ (openTag ++ q)) = p ++ match strstr closeTag q with
      | none => []
      | some tail => stripFrom (tail.drop 8) := by
  have hopen : strstr "<think>".toList (p ++ (openTag ++ q)) = some (openTag ++ q) :=
    strstr_openTag h q
  rw [stripFrom]
  split
  · rename_i hnil
    exact absurd (List.append_eq_nil_iff.mp (List.append_eq_nil_iff.mp hnil).2).1 (by decide)
  · split
    · rename_i hs
      rw [hopen] at hs
      cases hs
    · rename_i start hs
      rw [hopen] at hs
      cases hs
      have hfront : (p ++ (openTag ++ q)).take ((p ++ (openTag ++ q)).length - (openTag ++ q).length) =
          p := by
        rw [List.length_append, Nat.add_sub_cancel, List.take_left']
        rfl
      rw [hfront]
      congr 1
      split
      · rename_i hc
        change strstr closeTag q = none at hc
        rw [hc]
      · rename_i tail hc
        change strstr closeTag q = some tail at hc
        rw [hc]

theorem stripFrom_unclosed {p b : Str} (front : ¬ openTag <:+: p) (inner : ¬ closeTag <:+: b) :
    stripFrom (p ++ (openTag ++ b)) = p := by
  rw [stripFrom_open front, strstr_none_iff.mpr inner]
  exact List.append_nil p

theorem stripFrom_block {p b : Str} (front : ¬ openTag <:+: p) (inner : ¬ closeTag <:+: b) (q : Str) :
    stripFrom (p ++ (openTag ++ (b ++ (closeTag ++ q)))) = p ++ stripFrom q := by
  rw [stripFrom_open front, strstr_closeTag inner]
  rfl

theorem Pieces.strip (h : Pieces s ps) : stripFrom s = ps.flatten := by
  induction h with
  | rest front => simp [stripFrom_tagless front]
  | unclosed front inner => simp [stripFrom_unclosed front inner]
  | block front inner behind ih => rw [stripFrom_block front inner, ih, List.flatten_cons]

theorem Pieces.tagless (h : Pieces s ps) : ∀ p ∈ ps, ¬ openTag <:+: p := by
  induction h with
  | rest front | unclosed front inner => simpa using front
  | block front inner behind ih => exact List.forall_mem_cons.mpr ⟨front, ih⟩

theorem pieces_exist (s : Str) : ∃ ps, Pieces s ps := by
  induction hn : s.length using Nat.strongRecOn generalizing s with
  | _ n ih =>
    cases hopen : strstr openTag s with
    | none => exact ⟨[s], .rest (strstr_none_iff.mp hopen)⟩
    | some start =>
      obtain ⟨p, q, rfl, -, front⟩ := strstr_split (by decide) hopen
      cases hclose : strstr closeTag q with
      | none => exact ⟨[p], .unclosed front (strstr_none_iff.mp hclose)⟩
      | some tail =>
        obtain ⟨b, q, rfl, -, inner⟩ := strstr_split (by decide) hclose
        have hless : q.length < n := by
          have htag : openTag.length = 7 := rfl
          simp only [List.length_append] at hn
          omega
        obtain ⟨ps, hps⟩ := ih q.length hless q rfl
        exact ⟨p :: ps, .block front inner hps⟩

theorem infix_strip (s : Str) : openTag <:+: strTrim (stripFrom s) ↔ openTag <:+: stripFrom s := by
  refine infix_strTrim_iff ?_ ?_
  · intro c hc
    cases hc
    rfl
  · intro c hc
    cases hc
    rfl

/-- A tag is only left where two pieces of text meet. -/
theorem strip_tag_iff {s : Str} {ps : List Str} (h : Pieces s ps) :
    openTag <:+: strTrim (stripFrom s) ↔
      ∃ ls rs, ps = ls ++ rs ∧ Straddles openTag ls.flatten rs.flatten := by
  rw [infix_strip, h.strip]
  exact infix_flatten_iff (by decide) h.tagless

/-- Stripping does what it should exactly if no tag comes of the text in front of some block
and the text behind it. -/
theorem strip_think_tags_iff (s : Str) :
    (∃ r, stripThinkTags (some s) = some r ∧ Stripped s r) ↔
      ∀ ps, Pieces s ps → ∀ ls rs, ps = ls ++ rs → ¬ Straddles openTag ls.flatten rs.flatten := by
  constructor
  · rintro ⟨r, hr, hstripped⟩ ps hps ls rs hsplit hstraddles
    cases hr
    exact hstripped.tagless ((strip_tag_iff hps).mpr ⟨ls, rs, hsplit, hstraddles⟩)
  · intro h
    obtain ⟨ps, hps⟩ := pieces_exist s
    have htagless : ¬ openTag <:+: strTrim (stripFrom s) := by
      rw [strip_tag_iff hps]
      rintro ⟨ls, rs, hsplit, hstraddles⟩
      exact h ps hps ls rs hsplit hstraddles
    refine ⟨strTrim (stripFrom s), rfl, htagless, ?_, ?_⟩
    · intro hs
      rw [stripFrom_tagless hs]
    · rw [stripThinkTags, Option.map_some, stripFrom_tagless htagless, strTrim_idem]

/-- The text around the first block is a block again. -/
theorem split_tag_survives :
    stripThinkTags (some "<th<think>x</think>ink>y</think>".toList) =
        some "<think>y</think>".toList ∧
      ¬ ∃ r, stripThinkTags (some "<th<think>x</think>ink>y</think>".toList) = some r ∧
        Stripped "<th<think>x</think>ink>y</think>".toList r := by
  have hstrip : stripThinkTags (some "<th<think>x</think>ink>y</think>".toList) =
      some "<think>y</think>".toList := by
    have hblock : "<th<think>x</think>ink>y</think>".toList =
        "<th".toList ++ (openTag ++ ("x".toList ++ (closeTag ++ "ink>y</think>".toList))) := rfl
    have hfront : ¬ openTag <:+: "<th".toList := strstr_none_iff.mp (by decide)
    have hinner : ¬ closeTag <:+: "x".toList := strstr_none_iff.mp (by decide)
    have hbehind : ¬ openTag <:+: "ink>y</think>".toList := strstr_none_iff.mp (by decide)
    rw [stripThinkTags, Option.map_some, hblock, stripFrom_block hfront hinner, stripFrom_tagless hbehind]
    rfl
  refine ⟨hstrip, ?_⟩
  rintro ⟨r, hr, hstripped⟩
  rw [hstrip] at hr
  cases hr
  exact hstripped.tagless (List.prefix_append openTag "y</think>".toList).isInfix

end Dobby.AgentLoop
