import Dobby.Base.CString

namespace Dobby.CString

theorem strstr_cons_pos {needle : Str} {c : Char} {cs : Str} (h : needle <+: c :: cs) :
    strstr needle (c :: cs) = some (c :: cs) := by
  rw [strstr, if_pos (List.isPrefixOf_iff_prefix.mpr h)]

theorem strstr_cons_neg {needle : Str} {c : Char} {cs : Str} (h : ¬ needle <+: c :: cs) :
    strstr needle (c :: cs) = strstr needle cs := by
  rw [strstr, if_neg (mt List.isPrefixOf_iff_prefix.mp h)]

theorem strstr_starts {needle s r : Str} (h : strstr needle s = some r) : needle <+: r := by
  induction s with
  | nil =>
    simp only [strstr] at h
    split at h
    · rename_i hn
      rw [hn]
      exact List.nil_prefix
    · cases h
  | cons c cs ih =>
    by_cases hp : needle <+: c :: cs
    · rw [strstr_cons_pos hp] at h
      cases h
      exact hp
    · rw [strstr_cons_neg hp] at h
      exact ih h

/-- What is found in a text is found at the same place in a longer one. -/
theorem strstr_grow {needle s r : Str} (h : strstr needle s = some r) (x : Str) :
    strstr needle (s ++ x) = some (r ++ x) := by
  induction s with
  | nil =>
    simp only [strstr] at h
    split at h
    · rename_i hn
      cases h
      rw [hn]
      exact strstr_append [] ([] ++ x)
    · cases h
  | cons c cs ih =>
    by_cases hp : needle <+: c :: cs
    · rw [strstr_cons_pos hp] at h
      cases h
      exact strstr_cons_pos (hp.trans (List.prefix_append _ x))
    · rw [strstr_cons_neg hp] at h
      have hr := strstr_starts h
      have hlen : needle.length ≤ cs.length := hr.length_le.trans (strstr_length h)
      have hnot : ¬ needle <+: c :: (cs ++ x) := by
        intro hx
        apply hp
        rw [← List.cons_append] at hx
        exact List.prefix_of_prefix_length_le hx (List.prefix_append _ _)
          (hlen.trans (Nat.le_succ _))
      rw [List.cons_append, strstr_cons_neg hnot]
      exact ih h

/-- The first occurrence is at most as far on as any. -/
theorem strstr_least {needle p s : Str} (h : p ++ needle <+: s) :
    ∃ r, strstr needle s = some r ∧ s.length ≤ p.length + r.length := by
  induction p generalizing s with
  | nil =>
    obtain ⟨rest, rfl⟩ := h
    exact ⟨needle ++ rest, strstr_append needle rest, by simp⟩
  | cons c cs ih =>
    obtain ⟨rest, rfl⟩ := h
    rw [List.append_assoc, List.cons_append]
    by_cases hp : needle <+: c :: (cs ++ (needle ++ rest))
    · exact ⟨_, strstr_cons_pos hp, Nat.le_add_left _ _⟩
    · obtain ⟨r, hr, hlen⟩ := ih (s := cs ++ (needle ++ rest))
        (by rw [← List.append_assoc]; exact List.prefix_append _ _)
      refine ⟨r, by rw [strstr_cons_neg hp, hr], ?_⟩
      simp only [List.length_cons] at hlen ⊢
      omega

theorem strstr_none_iff {needle s : Str} : strstr needle s = none ↔ ¬ needle <:+: s := by
  constructor
  · rintro h ⟨p, rest, rfl⟩
    obtain ⟨r, hr, -⟩ := strstr_least (List.prefix_append (p ++ needle) rest)
    rw [h] at hr
    cases hr
  · intro h
    cases hs : strstr needle s with
    | none => rfl
    | some r => exact absurd ((strstr_starts hs).isInfix.trans (strstr_suffix hs).isInfix) h

theorem strstr_isSome_iff {needle s : Str} : (strstr needle s).isSome = true ↔ needle <:+: s := by
  rw [← not_iff_not, Bool.not_eq_true, Option.isSome_eq_false_iff, Option.isNone_iff_eq_none]
  exact strstr_none_iff

/-- Text without the needle's first character is passed over. -/
theorem strstr_skip {c : Char} {needle front : Str} (h : c ∉ front) (s : Str) :
    strstr (c :: needle) (front ++ s) = strstr (c :: needle) s := by
  induction front with
  | nil => rfl
  | cons d ds ih =>
    obtain ⟨hd, hds⟩ := List.ne_and_not_mem_of_not_mem_cons h
    have hnot : ¬ c :: needle <+: d :: (ds ++ s) := by
      intro hp
      exact hd (List.cons_prefix_cons.mp hp).1
    rw [List.cons_append, strstr_cons_neg hnot, ih hds]

/-- A needle without the character is found behind it, if not before. -/
theorem strstr_behind {needle front : Str} {c : Char} (hne : needle ≠ []) (hc : c ∉ needle)
    (hfront : ¬ needle <:+: front) (s : Str) :
    strstr needle (front ++ c :: s) = strstr needle s := by
  induction front with
  | nil =>
    obtain ⟨d, ds, rfl⟩ := List.exists_cons_of_ne_nil hne
    exact strstr_cons_neg fun h => hc (by simp [(List.cons_prefix_cons.mp h).1])
  | cons d ds ih =>
    have hnot : ¬ needle <+: d :: (ds ++ c :: s) := by
      intro h
      apply hfront
      rw [← List.cons_append, ← List.isPrefixOf_iff_prefix, isPrefixOf_append hc,
        List.isPrefixOf_iff_prefix] at h
      exact h.isInfix
    rw [List.cons_append, strstr_cons_neg hnot]
    exact ih fun h => hfront (h.trans (List.suffix_cons d ds).isInfix)

/-- What is found is the first occurrence. -/
theorem strstr_split {needle s r : Str} (hne : needle ≠ []) (h : strstr needle s = some r) :
    ∃ p q, s = p ++ (needle ++ q) ∧ r = needle ++ q ∧ ¬ needle <:+: p := by
  obtain ⟨q, rfl⟩ := strstr_starts h
  obtain ⟨p, rfl⟩ := strstr_suffix h
  refine ⟨p, q, rfl, rfl, ?_⟩
  rintro ⟨a, b, rfl⟩
  have hearly : a ++ needle <+: a ++ needle ++ b ++ (needle ++ q) := by
    rw [List.append_assoc (a ++ needle)]
    exact List.prefix_append _ _
  obtain ⟨r, hr, hlen⟩ := strstr_least hearly
  rw [h] at hr
  cases hr
  have hpos := List.length_pos_iff.mpr hne
  simp only [List.length_append] at hlen
  omega

/-- A needle whose first character does not come again is found where it is put, behind a text
without it. -/
theorem strstr_first {c : Char} {needle front : Str} (hc : c ∉ needle)
    (hfront : ¬ c :: needle <:+: front) (q : Str) :
    strstr (c :: needle) (front ++ (c :: needle ++ q)) = some (c :: needle ++ q) := by
  induction front with
  | nil => exact strstr_append (c :: needle) q
  | cons d ds ih =>
    have hnot : ¬ c :: needle <+: d :: (ds ++ (c :: needle ++ q)) := by
      intro h
      rw [← List.cons_append] at h
      rcases List.prefix_or_prefix_of_prefix h (List.prefix_append _ _) with hp | ⟨u, hu⟩
      · exact hfront hp.isInfix
      · rw [← hu, List.prefix_append_right_inj, hu] at h
        cases u with
        | nil =>
          rw [List.append_nil] at hu
          rw [hu] at hfront
          exact hfront (List.infix_refl _)
        | cons e u =>
          obtain ⟨rfl, hneedle⟩ := List.cons.inj hu
          rw [List.cons_append, List.cons_prefix_cons] at h
          apply hc
          rw [← hneedle, h.1]
          simp
    rw [List.cons_append, strstr_cons_neg hnot]
    exact ih fun h => hfront (h.trans (List.suffix_cons d ds).isInfix)

/-- The needle lies over the place where two texts meet. -/
def Straddles (needle left right : Str) : Prop :=
  ∃ t u, t ≠ [] ∧ u ≠ [] ∧ needle = t ++ u ∧ t <:+ left ∧ u <+: right

/-- A needle that is in none of the pieces can only come from two of them meeting. -/
theorem infix_flatten_iff {needle : Str} {ps : List Str} (hne : needle ≠ [])
    (hps : ∀ p ∈ ps, ¬ needle <:+: p) :
    needle <:+: ps.flatten ↔ ∃ ls rs, ps = ls ++ rs ∧ Straddles needle ls.flatten rs.flatten := by
  constructor
  · intro h
    induction ps with
    | nil => exact absurd (List.infix_nil.mp h) hne
    | cons p ps ih =>
      obtain ⟨hp, hrest⟩ := List.forall_mem_cons.mp hps
      rw [List.flatten_cons, List.infix_append_iff_ne_nil] at h
      rcases h with h | h | ⟨t, u, ht, hu, htu, hleft, hright⟩
      · exact absurd h hp
      · obtain ⟨ls, rs, rfl, t, u, ht, hu, htu, hleft, hright⟩ := ih hrest h
        refine ⟨p :: ls, rs, rfl, t, u, ht, hu, htu, ?_, hright⟩
        rw [List.flatten_cons]
        exact hleft.trans (List.suffix_append _ _)
      · exact ⟨[p], ps, rfl, t, u, ht, hu, htu, by simpa using hleft, hright⟩
  · rintro ⟨ls, rs, rfl, t, u, -, -, htu, hleft, hright⟩
    rw [List.flatten_append, List.infix_append_iff]
    exact Or.inr (Or.inr ⟨t, u, htu, hleft, hright⟩)

end Dobby.CString
