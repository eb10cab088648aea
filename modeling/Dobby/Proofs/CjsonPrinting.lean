import Dobby.Proofs.CjsonStandard

namespace Dobby.Cjson
open CString JsonText

/-- The value that the text of a number is read as. -/
def numberNode (text : Str) : Json := if text = "null".toList then .null else .number text

mutual

/-- What is left of a tree when it is printed and read: strings end at a null byte, and
numbers are as they are printed. -/
def normal (doubles : Doubles) : Json → Json
  | .null => .null
  | .bool b => .bool b
  | .number text => numberNode (printNumber doubles text)
  | .string s => .string (cstr s)
  | .array items => .array (normalItems doubles items)
  | .object members => .object (normalMembers doubles members)

def normalItems (doubles : Doubles) : List Json → List Json
  | [] => []
  | j :: items => normal doubles j :: normalItems doubles items

def normalMembers (doubles : Doubles) : List (Str × Json) → List (Str × Json)
  | [] => []
  | (key, j) :: members => (cstr key, normal doubles j) :: normalMembers doubles members

end

theorem utf8_ascii {c : Char} (h : c.toNat < 128) : utf8 c = [c] := by
  have hval : c.val.toNat = c.toNat := rfl
  unfold utf8 String.utf8EncodeChar
  simp only [hval, if_pos (Nat.le_of_lt_succ h), List.map_singleton,
    byte_toNat (Nat.lt_trans h (by decide)), Char.ofNat_toNat]

theorem control_unit {n : Nat} (h : n < 32) : HexUnit (List.leftpad 4 '0' (printHex n)) n := by
  have hall : ∀ k < 32, (List.leftpad 4 '0' (printHex k)).length = 4 ∧
      ((List.leftpad 4 '0' (printHex k)).all fun d => (hexDigit d).isSome) = true ∧
      hexValue (List.leftpad 4 '0' (printHex k)) = k := by decide +kernel
  exact ⟨(hall n h).1, List.all_eq_true.mp (hall n h).2.1, (hall n h).2.2⟩

theorem escapeChar_chars (c : Char) {t s : Str} (h : Chars t s) :
    Chars (escapeChar c ++ t) (c :: s) := by
  fun_cases escapeChar c
  case case1 hplain => exact .plain (show 32 ≤ c.toNat from hplain.1) hplain.2.1 hplain.2.2 h
  case case9 hspecial hslash hquote _ _ _ _ _ =>
    have hlow : c.toNat < 32 := by
      by_contra hhigh
      exact hspecial ⟨by omega, hquote, hslash⟩
    have hunit := Chars.unit (c := c) (by omega) (control_unit hlow) h
    rw [utf8_ascii (by omega)] at hunit
    exact hunit
  all_goals
    rename_i hc
    exact .short (by rw [hc]; rfl) h

theorem flatMap_escapeChar (s : Str) : Chars (s.flatMap escapeChar) s := by
  induction s with
  | nil => exact .nil
  | cons c s ih =>
    rw [List.flatMap_cons]
    exact escapeChar_chars c ih

theorem printStringPtr_quoted (s : Str) : rfc.quoted (printStringPtr s) (cstr s) := by
  refine ⟨cstr s, .mk (flatMap_escapeChar (cstr s)), ?_⟩
  rw [cstr_eq_self (not_mem_cstr s)]

theorem toDigits_whole {n : Nat} (h : 0 < n) :
    ∃ c cs, Nat.toDigits 10 n = c :: cs ∧ c ≠ '0' := by
  induction n using Nat.strongRecOn with
  | _ n ih =>
    rw [Nat.toDigits_eq_if (by decide)]
    split
    · rename_i hsmall
      refine ⟨_, [], rfl, ?_⟩
      have hall : ∀ k < 10, 0 < k → k.digitChar ≠ '0' := by decide
      exact hall n hsmall h
    · obtain ⟨c, cs, hc, hne⟩ := ih (n / 10) (by omega) (by omega)
      rw [hc]
      exact ⟨c, _, rfl, hne⟩

theorem whole_toDigits (n : Nat) : Whole (Nat.toDigits 10 n) := by
  have hdigits : ∀ c ∈ Nat.toDigits 10 n, c.isDigit = true :=
    fun c hc => Nat.isDigit_of_mem_toDigits (by decide) (by decide) hc
  rcases Nat.eq_zero_or_pos n with rfl | h
  · exact .zero
  · obtain ⟨c, cs, hc, hne⟩ := toDigits_whole h
    rw [hc] at hdigits ⊢
    exact .digits (hdigits c List.mem_cons_self) hne fun d hd => hdigits d (List.mem_cons_of_mem c hd)

theorem printInt_numeral (n : Int) : Numeral (printInt n) := by
  have hwhole := whole_toDigits n.natAbs
  unfold printInt
  split
  · have hneg : Numeral (['-'] ++ _ ++ [] ++ []) := .mk (.inr rfl) hwhole .absent .absent
    rwa [List.append_nil, List.append_nil] at hneg
  · have hpos : Numeral ([] ++ _ ++ [] ++ []) := .mk (.inl rfl) hwhole .absent .absent
    rwa [List.append_nil, List.append_nil] at hpos

theorem printNumber_printed (doubles : Doubles) (text : Str) :
    Numeral (printNumber doubles text) ∨ printNumber doubles text = "null".toList := by
  unfold printNumber
  split
  · exact doubles.printed text
  · split
    · exact .inl (printInt_numeral _)
    · exact doubles.printed text

theorem printNumber_scalar (doubles : Doubles) (text : Str) :
    Scalar rfc (printNumber doubles text) (numberNode (printNumber doubles text)) := by
  unfold numberNode
  split
  · rename_i h
    rw [h]
    exact .null
  · rename_i h
    exact .number ((printNumber_printed doubles text).resolve_right h)

theorem blank_tabs (depth : Nat) : Blank rfc.space (tabs depth) := by
  intro c hc
  rw [List.eq_of_mem_replicate hc]
  exact .inr (.inl rfl)

theorem blank_newline : Blank rfc.space ['\n'] :=
  List.forall_mem_singleton.mpr (.inr (.inr (.inl rfl)))

section

variable {doubles : Doubles} {format : Bool} {P : Str → Json → Prop}

theorem printItems_separated {depth : Nat} {items : List Json} (hne : items ≠ [])
    (h : ∀ j ∈ items, P (printValue doubles format depth j) (normal doubles j)) :
    Separated rfc.space P (printItems doubles format depth items) (normalItems doubles items) := by
  induction items with
  | nil => exact absurd rfl hne
  | cons j items ih =>
    obtain ⟨hj, hrest⟩ := List.forall_mem_cons.mp h
    by_cases hnil : items = []
    · subst hnil
      have hlast : Separated rfc.space P ([] ++ _ ++ []) _ := .last blank_nil hj blank_nil
      simpa [printItems, normalItems] using hlast
    · have hseparated := ih hnil hrest
      have hcons : ∀ lead, Blank rfc.space lead → Separated rfc.space P
          (printValue doubles format depth j ++ ',' :: (lead ++ printItems doubles format depth items))
          (normal doubles j :: normalItems doubles items) := by
        intro lead hlead
        have hcons := Separated.cons (w := []) (v := []) blank_nil hj blank_nil
          (Separated.blank_left hlead hseparated)
        simpa using hcons
      rw [printItems, if_neg hnil, normalItems]
      cases format with
      | false => simpa using hcons [] blank_nil
      | true => simpa using hcons [' '] (List.forall_mem_singleton.mpr (.inl rfl))

theorem printMembers_separated {depth : Nat} {members : List (Str × Json)} (hne : members ≠ [])
    (h : ∀ m ∈ members, P (printValue doubles format depth m.2) (normal doubles m.2)) :
    Separated rfc.space (Member rfc P) (printMembers doubles format depth members)
      (normalMembers doubles members) := by
  have hlead : Blank rfc.space (if format then tabs depth else []) := by
    split
    · exact blank_tabs depth
    · exact blank_nil
  have hline : Blank rfc.space (if format then ['\n'] else []) := by
    split
    · exact blank_newline
    · exact blank_nil
  induction members with
  | nil => exact absurd rfl hne
  | cons m members ih =>
    obtain ⟨key, j⟩ := m
    obtain ⟨hj, hrest⟩ := List.forall_mem_cons.mp h
    have hmember : Member rfc P (printStringPtr key ++
        (if format then [':', '\t'] else [':']) ++ printValue doubles format depth j)
        (cstr key, normal doubles j) := by
      have hmk : ∀ v, Blank rfc.space v → Member rfc P (printStringPtr key ++ [] ++ ':' ::
          (v ++ printValue doubles format depth j)) (cstr key, normal doubles j) :=
        fun v hv => .mk (printStringPtr_quoted key) blank_nil hv hj
      cases format with
      | false => simpa using hmk [] blank_nil
      | true => simpa using hmk ['\t'] (List.forall_mem_singleton.mpr (.inr (.inl rfl)))
    by_cases hnil : members = []
    · subst hnil
      have hlast := Separated.last hlead hmember hline
      simpa [printMembers, normalMembers] using hlast
    · have hcons := Separated.cons hlead hmember blank_nil
        (Separated.blank_left hline (ih hnil hrest))
      rw [printMembers, if_neg hnil, normalMembers]
      simpa using hcons

end

theorem printValue_scalar (doubles : Doubles) (format : Bool) (depth : Nat) {j : Json}
    (h : Nested 0 j) : Scalar rfc (printValue doubles format depth j) (normal doubles j) := by
  cases j with
  | null =>
    rw [printValue, normal]
    exact .null
  | bool b =>
    cases b with
    | false =>
      rw [printValue, normal]
      exact .false_
    | true =>
      rw [printValue, normal]
      exact .true_
  | number text =>
    rw [printValue, normal]
    exact printNumber_scalar doubles text
  | string s =>
    rw [printValue, normal]
    exact .string (printStringPtr_quoted s)
  | array items => exact absurd h id
  | object members => exact absurd h id

/-- What is printed is a text of the standard for the tree. -/
theorem printValue_denotes (doubles : Doubles) (format : Bool) {n : Nat} {j : Json}
    (h : Nested n j) (depth : Nat) :
    Denotes rfc n (printValue doubles format depth j) (normal doubles j) := by
  induction n generalizing j depth with
  | zero => exact printValue_scalar doubles format depth h
  | succ n ih =>
    cases j with
    | array items =>
      right
      rw [printValue, normal]
      refine .array ?_
      by_cases hnil : items = []
      · rw [hnil, printItems, normalItems]
        exact .empty (w := []) blank_nil
      · exact .items (printItems_separated hnil fun j hj => ih (h j hj) (depth + 1))
    | object members =>
      right
      rw [printValue, normal]
      refine .object ?_
      have hline : Blank rfc.space (if format then ['\n'] else []) := by
        split
        · exact blank_newline
        · exact blank_nil
      have hlast : Blank rfc.space (if format then tabs depth else []) := by
        split
        · exact blank_tabs depth
        · exact blank_nil
      by_cases hnil : members = []
      · rw [hnil, printMembers, normalMembers, List.append_nil, List.cons_append]
        exact .empty (blank_append hline hlast)
      · have hmembers : Separated rfc.space _ (printMembers doubles format (depth + 1) members) _ :=
          printMembers_separated hnil fun m hm => ih (h m hm) (depth + 1)
        rw [List.cons_append, List.cons_append]
        exact .items (Separated.blank_right hlast (Separated.blank_left hline hmembers))
    | null => exact .inl (printValue_scalar doubles format depth trivial)
    | bool b => exact .inl (printValue_scalar doubles format depth trivial)
    | number text => exact .inl (printValue_scalar doubles format depth trivial)
    | string s => exact .inl (printValue_scalar doubles format depth trivial)

theorem escapeChar_clean {c : Char} (hc : c ≠ '\x00') : '\x00' ∉ escapeChar c := by
  fun_cases escapeChar c
  case case1 => exact fun h => hc (List.mem_singleton.mp h).symm
  case case9 hspecial hslash hquote _ _ _ _ _ =>
    have hlow : c.toNat < 32 := by
      by_contra hhigh
      exact hspecial ⟨by omega, hquote, hslash⟩
    intro h
    rcases List.mem_cons.mp h with h | h
    · exact absurd h (by decide)
    rcases List.mem_cons.mp h with h | h
    · exact absurd h (by decide)
    exact absurd ((control_unit hlow).digits _ h) (by decide)
  all_goals decide

theorem printStringPtr_clean (s : Str) : '\x00' ∉ printStringPtr s := by
  intro h
  simp only [printStringPtr, List.mem_append, List.mem_cons, List.mem_flatMap,
    List.not_mem_nil, or_false] at h
  rcases h with (h | ⟨c, hc, h⟩) | h
  · exact absurd h (by decide)
  · exact escapeChar_clean (ne_of_mem_of_not_mem hc (not_mem_cstr s)) h
  · exact absurd h (by decide)

theorem printNumber_clean (doubles : Doubles) (text : Str) : '\x00' ∉ printNumber doubles text := by
  intro h
  rcases printNumber_printed doubles text with hnumeral | hnull
  · exact absurd ((rfc_numeral hnumeral).1 _ h) (by decide)
  · rw [hnull] at h
    exact absurd h (by decide)

mutual

theorem printValue_clean (doubles : Doubles) (format : Bool) (depth : Nat) :
    ∀ j, '\x00' ∉ printValue doubles format depth j
  | .null => by rw [printValue]; decide
  | .bool false => by rw [printValue]; decide
  | .bool true => by rw [printValue]; decide
  | .number text => by rw [printValue]; exact printNumber_clean doubles text
  | .string s => by rw [printValue]; exact printStringPtr_clean s
  | .array items => by
    have hitems := printItems_clean doubles format (depth + 1) items
    rw [printValue]
    simp [hitems]
  | .object members => by
    have hmembers := printMembers_clean doubles format (depth + 1) members
    rw [printValue]
    cases format <;> simp [hmembers, tabs]

theorem printItems_clean (doubles : Doubles) (format : Bool) (depth : Nat) :
    ∀ items, '\x00' ∉ printItems doubles format depth items
  | [] => by rw [printItems]; decide
  | j :: items => by
    have hj := printValue_clean doubles format depth j
    have hitems := printItems_clean doubles format depth items
    have hcomma : '\x00' ∉ (if items = [] then [] else if format then [',', ' '] else [',']) := by
      split
      · decide
      · split <;> decide
    rw [printItems]
    simp only [List.mem_append, hj, hcomma, hitems, or_self, not_false_eq_true]

theorem printMembers_clean (doubles : Doubles) (format : Bool) (depth : Nat) :
    ∀ members, '\x00' ∉ printMembers doubles format depth members
  | [] => by rw [printMembers]; decide
  | (key, j) :: members => by
    have hj := printValue_clean doubles format depth j
    have hmembers := printMembers_clean doubles format depth members
    have hkey := printStringPtr_clean key
    have hcomma : '\x00' ∉ (if members = [] then [] else [',']) := by split <;> decide
    rw [printMembers]
    cases format <;> simp [hj, hmembers, hkey, hcomma, tabs]

end

end Dobby.Cjson
