import Dobby.Base.CString
import Mathlib.Data.List.DropRight

namespace Dobby.CString

section Back

variable (p : Char → Bool)

theorem rdropWhile_append (s t : Str) :
    (s ++ t).rdropWhile p = if t.rdropWhile p = [] then s.rdropWhile p else s ++ t.rdropWhile p := by
  unfold List.rdropWhile
  rw [List.reverse_append, List.dropWhile_append]
  simp only [List.isEmpty_iff, List.reverse_eq_nil_iff]
  split
  · rfl
  · rw [List.reverse_append, List.reverse_reverse]

variable {p}

theorem rdropWhile_append_pos (s : Str) {t : Str} (h : ∀ c ∈ t, p c = true) :
    (s ++ t).rdropWhile p = s.rdropWhile p := by
  rw [rdropWhile_append, if_pos (List.rdropWhile_eq_nil_iff.mpr h)]

/-- A character that is not trimmed stays. -/
theorem mem_rdropWhile {s : Str} {c : Char} (hc : p c = false) (h : c ∈ s) : c ∈ s.rdropWhile p := by
  obtain ⟨a, b, rfl⟩ := List.append_of_mem h
  rw [← List.singleton_append, ← List.append_assoc, rdropWhile_append]
  split
  · rw [List.rdropWhile_concat_neg p a c (by simp [hc])]
    simp
  · simp

theorem infix_dropWhile {needle s : Str} (hhead : ∀ c ∈ needle.head?, p c = false)
    (h : needle <:+: s) : needle <:+: s.dropWhile p := by
  obtain ⟨a, b, rfl⟩ := h
  rw [List.append_assoc, List.dropWhile_append]
  split
  · cases needle with
    | nil => exact List.nil_infix
    | cons c cs =>
      rw [List.cons_append, List.dropWhile_cons_of_neg (by simp [hhead c rfl]), ← List.cons_append]
      exact (List.prefix_append _ _).isInfix
  · exact List.infix_append' _ _ _

theorem infix_rdropWhile {needle s : Str} (hlast : ∀ c ∈ needle.getLast?, p c = false)
    (h : needle <:+: s) : needle <:+: s.rdropWhile p := by
  unfold List.rdropWhile
  rw [← List.reverse_infix, List.reverse_reverse]
  refine infix_dropWhile ?_ (List.reverse_infix.mpr h)
  rwa [List.head?_reverse]

end Back

theorem strTrim_eq (s : Str) : strTrim s = (s.dropWhile isSpace).rdropWhile isSpace := rfl

theorem strTrim_space_append {s : Str} (h : ∀ c ∈ s, isSpace c = true) (t : Str) :
    strTrim (s ++ t) = strTrim t := by
  rw [strTrim_eq, List.dropWhile_append_of_pos h, strTrim_eq]

theorem strTrim_append_space (s : Str) {t : Str} (h : ∀ c ∈ t, isSpace c = true) :
    strTrim (s ++ t) = strTrim s := by
  rw [strTrim_eq, strTrim_eq, List.dropWhile_append]
  split
  · rename_i hs
    rw [List.isEmpty_iff.mp hs, List.dropWhile_eq_nil_iff.mpr h]
  · exact rdropWhile_append_pos _ h

theorem strTrim_grow (s t : Str) : strTrim s <+: strTrim (s ++ t) := by
  rw [strTrim_eq, strTrim_eq, List.dropWhile_append]
  split
  · rename_i h
    rw [List.isEmpty_iff.mp h]
    exact List.nil_prefix
  · rw [rdropWhile_append]
    split
    · exact List.prefix_refl _
    · exact (List.rdropWhile_prefix _ _).trans (List.prefix_append _ _)

theorem strTrim_eq_nil_iff {s : Str} : strTrim s = [] ↔ ∀ c ∈ s, isSpace c = true := by
  constructor
  · intro h
    rw [strTrim_eq, List.rdropWhile_eq_nil_iff] at h
    cases hd : s.dropWhile isSpace with
    | nil => exact List.dropWhile_eq_nil_iff.mp hd
    | cons c cs =>
      have hc := List.head_dropWhile_not isSpace (by rw [hd]; exact List.cons_ne_nil c cs)
      simp only [hd, List.head_cons] at hc
      rw [h c (by simp [hd])] at hc
      cases hc
  · intro h
    rw [strTrim_eq, List.dropWhile_eq_nil_iff.mpr h, List.rdropWhile_nil]

/-- What is put behind a trimmed text is trimmed away exactly if it is white space. -/
theorem strTrim_append_eq_iff {s : Str} (hs : strTrim s = s) (t : Str) :
    strTrim (s ++ t) = s ↔ ∀ c ∈ t, isSpace c = true := by
  by_cases hne : s = []
  · rw [hne]
    exact strTrim_eq_nil_iff
  · constructor
    · intro h
      have hhead : isSpace (s.headD ' ') = false := by
        have hends := strTrim_ends (s := s) (by rwa [hs])
        rw [hs] at hends
        exact hends.1
      obtain ⟨c, cs, rfl⟩ := List.exists_cons_of_ne_nil hne
      have hfront : ((c :: cs) ++ t).dropWhile isSpace = (c :: cs) ++ t :=
        List.dropWhile_cons_of_neg (by simpa using hhead)
      rw [strTrim_eq, hfront, rdropWhile_append] at h
      split at h
      · rename_i ht
        exact List.rdropWhile_eq_nil_iff.mp ht
      · rename_i ht
        exact absurd (List.append_right_eq_self.mp h) ht
    · intro h
      rw [strTrim_append_space s h, hs]

/-- Trimming keeps a needle that starts and ends with no space. -/
theorem infix_strTrim_iff {needle s : Str} (hhead : ∀ c ∈ needle.head?, isSpace c = false)
    (hlast : ∀ c ∈ needle.getLast?, isSpace c = false) : needle <:+: strTrim s ↔ needle <:+: s := by
  rw [strTrim_eq]
  constructor
  · intro h
    exact h.trans ((List.rdropWhile_prefix _ _).isInfix.trans (List.dropWhile_suffix _).isInfix)
  · intro h
    exact infix_rdropWhile hlast (infix_dropWhile hhead h)

end Dobby.CString
