import Dobby.Base.Trim
import Dobby.Model.Email

namespace Dobby.Email
open CString

/-- An address as it stands in angle brackets. -/
structure Address where
  text : Str
  nonempty : text ≠ []
  opening : '<' ∉ text
  closing : '>' ∉ text
  unspaced : ∀ c ∈ text, isSpace c = false

def mailbox (name : Str) (addr : Address) : Str := name ++ (" <".toList ++ (addr.text ++ ['>']))

/-- A display name is harmless if no bracket opens in it, or if the first one that does holds
the address itself. -/
def Harmless (name : Str) (addr : Address) : Prop :=
  '<' ∉ name ∨ addr.text ++ ['>'] <+: (name.dropWhile (fun c => c ≠ '<')).drop 1

section Addr

variable (addr : Address)

theorem dropWhile_opening {front : Str} (h : '<' ∉ front) (rest : Str) :
    (front ++ '<' :: rest).dropWhile (fun c => c ≠ '<') = '<' :: rest := by
  have hfront : ∀ c ∈ front, decide (c ≠ '<') = true := by
    intro c hc
    simpa using ne_of_mem_of_not_mem hc h
  rw [List.dropWhile_append_of_pos hfront, List.dropWhile_cons_of_neg (by simp)]

theorem takeWhile_closing {front : Str} (h : '>' ∉ front) (rest : Str) :
    (front ++ '>' :: rest).takeWhile (fun c => c ≠ '>') = front := by
  have hfront : ∀ c ∈ front, decide (c ≠ '>') = true := by
    intro c hc
    simpa using ne_of_mem_of_not_mem hc h
  rw [List.takeWhile_append_of_pos hfront, List.takeWhile_cons_of_neg (by simp), List.append_nil]

/-- The text behind the first bracket is the address exactly if it starts with it and the
closing bracket. -/
theorem extractAddr_opening {front : Str} (h : '<' ∉ front) (rest : Str) :
    extractAddr (front ++ '<' :: rest) = addr.text ↔ addr.text ++ ['>'] <+: rest := by
  unfold extractAddr
  rw [dropWhile_opening h]
  dsimp only
  split
  · rename_i hclosed
    obtain ⟨a, t, rfl, ha⟩ := List.eq_append_cons_of_mem hclosed.1
    rw [takeWhile_closing ha]
    constructor
    · rintro rfl
      exact ⟨t, by simp⟩
    · rintro ⟨u, hu⟩
      have htake := congrArg (List.takeWhile fun c => decide (c ≠ '>')) hu
      rw [List.append_assoc, List.singleton_append, takeWhile_closing addr.closing,
        takeWhile_closing ha] at htake
      exact htake.symm
  · rename_i hopen
    constructor
    · intro heq
      have hmem : '<' ∈ trimEnd isSpace (front ++ '<' :: rest) :=
        mem_rdropWhile (by decide) (by simp)
      rw [heq] at hmem
      exact absurd hmem addr.opening
    · rintro ⟨u, rfl⟩
      exfalso
      apply hopen
      obtain ⟨c, cs, hc⟩ := List.exists_cons_of_ne_nil addr.nonempty
      refine ⟨by simp, ?_⟩
      have hcne : c ≠ '>' := by
        rintro rfl
        exact addr.closing (by simp [hc])
      simp [hc, hcne]

theorem extractAddr_bare (blanks : Str) (hblanks : ∀ c ∈ blanks, isSpace c = true) :
    extractAddr (addr.text ++ blanks) = addr.text := by
  have hnone : (addr.text ++ blanks).dropWhile (fun c => c ≠ '<') = [] := by
    refine List.dropWhile_eq_nil_iff.mpr fun c hc => ?_
    rw [decide_eq_true_eq]
    rintro rfl
    rcases List.mem_append.mp hc with hc | hc
    · exact addr.opening hc
    · exact absurd (hblanks _ hc) (by decide)
  have hkept : addr.text.rdropWhile isSpace = addr.text :=
    List.rdropWhile_eq_self_iff.mpr fun hne => by
      simp [addr.unspaced _ (List.getLast_mem hne)]
  unfold extractAddr
  rw [hnone]
  exact (rdropWhile_append_pos _ hblanks).trans hkept

end Addr

/-- The address is found in both forms exactly when the display name is harmless. -/
theorem mailbox_address_iff (name : Str) (addr : Address) (blanks : Str)
    (hblanks : ∀ c ∈ blanks, isSpace c = true) :
    (extractAddr (mailbox name addr) = addr.text ∧ extractAddr (addr.text ++ blanks) = addr.text) ↔
      Harmless name addr := by
  have hopen : " <".toList = [' ', '<'] := rfl
  rw [and_iff_left (extractAddr_bare addr blanks hblanks), mailbox, hopen]
  unfold Harmless
  by_cases hname : '<' ∈ name
  · obtain ⟨front, rest, rfl, hfront⟩ := List.eq_append_cons_of_mem hname
    rw [dropWhile_opening hfront, List.append_assoc, List.cons_append, extractAddr_opening addr hfront]
    have hblank : ' ' ∉ addr.text ++ ['>'] := by
      refine List.not_mem_append (fun h => ?_) (by decide)
      exact absurd (addr.unspaced _ h) (by decide)
    rw [List.cons_append, ← List.isPrefixOf_iff_prefix, isPrefixOf_append hblank,
      List.isPrefixOf_iff_prefix]
    exact (or_iff_right fun h => h (by simp)).symm
  · have hspace : name ++ ([' ', '<'] ++ (addr.text ++ ['>'])) =
        (name ++ [' ']) ++ '<' :: (addr.text ++ ['>']) := by simp
    have hfront : '<' ∉ name ++ [' '] := List.not_mem_append hname (by decide)
    rw [hspace, extractAddr_opening addr hfront]
    exact iff_of_true (List.prefix_refl _) (Or.inl hname)

def eve : Address where
  text := "eve@example.org".toList
  nonempty := by decide
  opening := by decide
  closing := by decide
  unspaced c hc := by
    have hnone : "eve@example.org".toList.any isSpace = false := by decide
    simpa using List.any_eq_false.mp hnone c hc

theorem plain_name_address :
    extractAddr (mailbox "Eve".toList eve) = eve.text ∧
      extractAddr (eve.text ++ "\r\n".toList) = eve.text :=
  (mailbox_address_iff "Eve".toList eve "\r\n".toList (List.all_eq_true.mp (by decide))).mpr
    (Or.inl (by decide))

/-- A quoted name with another address in brackets is taken for the sender. -/
theorem quoted_name_forges_address :
    extractAddr (mailbox "\"<boss@example.com>\"".toList eve) = "boss@example.com".toList ∧
      extractAddr (mailbox "\"<boss@example.com>\"".toList eve) ≠ eve.text := by
  decide +kernel

end Dobby.Email
