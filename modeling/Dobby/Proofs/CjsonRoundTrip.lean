import Dobby.Proofs.CjsonDocuments
import Dobby.Proofs.CjsonPrinting

namespace Dobby.Cjson
open CString JsonText

theorem normalItems_map (doubles : Doubles) (items : List Json) :
    normalItems doubles items = items.map (normal doubles) := by
  induction items with
  | nil => rw [normalItems, List.map_nil]
  | cons j items ih => rw [normalItems, ih, List.map_cons]

theorem normalMembers_map (doubles : Doubles) (members : List (Str × Json)) :
    normalMembers doubles members = members.map fun m => (cstr m.1, normal doubles m.2) := by
  induction members with
  | nil => rw [normalMembers, List.map_nil]
  | cons m members ih => rw [normalMembers, ih, List.map_cons]

/-- A tree that does not nest so deeply once it was read did not before. -/
theorem nested_of_normal {doubles : Doubles} {n : Nat} {j : Json} (h : Nested n (normal doubles j)) :
    Nested n j := by
  induction n generalizing j with
  | zero =>
    cases j with
    | array items =>
      rw [normal] at h
      exact h
    | object members =>
      rw [normal] at h
      exact h
    | _ => trivial
  | succ n ih =>
    cases j with
    | array items =>
      rw [normal, normalItems_map] at h
      exact fun j hj => ih (h _ (List.mem_map_of_mem hj))
    | object members =>
      rw [normal, normalMembers_map] at h
      exact fun m hm => ih (h _ (List.mem_map_of_mem hm))
    | _ => trivial

section

variable (doubles : Doubles) (format : Bool)

theorem print_parse {j : Json} (h : Nested nestingLimit j) :
    cJSONParse (printValue doubles format 0 j) = some (normal doubles j) := by
  have hden := rfc_denotes (printValue_denotes doubles format h 0)
  have htext : cstr (printValue doubles format 0 j) = [] ++ printValue doubles format 0 j ++ [] ++ [] := by
    rw [cstr_eq_self (printValue_clean doubles format 0 j)]
    simp
  exact cJSONParse_document htext (Stops.nil _) (.mk blank_nil hden blank_nil)

theorem printed_container {j : Json} (hcontainer : ¬ Nested 0 j) : ∃ n, nestingLimit ≤ n + 1 ∧
    Container lexemes (Denotes lexemes n) (printValue doubles format 0 j) (normal doubles j) := by
  obtain ⟨n, hn⟩ := exists_nested j
  have hlarge := Nested.mono (Nat.le_max_left n nestingLimit) hn
  have hden := rfc_denotes (printValue_denotes doubles format hlarge 0)
  obtain ⟨m, hm, hprinted⟩ := container_of_nested (fun h => hcontainer (nested_of_normal h)) hden
  exact ⟨m, hm ▸ Nat.le_max_right n nestingLimit, hprinted⟩

/-- No text that starts with the printed text of a tree nested too deeply is read. -/
theorem print_deep_more {j : Json} (h : ¬ Nested nestingLimit j) {text : Str}
    (hstart : printValue doubles format 0 j <+: cstr text) : cJSONParse text = none := by
  have hcontainer : ¬ Nested 0 j := fun h0 => h (Nested.mono (Nat.zero_le _) h0)
  obtain ⟨n, hn, hprinted⟩ := printed_container doubles format hcontainer
  obtain ⟨rest, hrest⟩ := hstart
  cases hparse : cJSONParse text with
  | none => rfl
  | some j' =>
    have hread := container_read hn hprinted ((List.append_nil _).trans hrest.symm) hparse
    exact absurd (nested_of_normal hread.2.2) h

theorem print_deep {j : Json} (h : ¬ Nested nestingLimit j) :
    cJSONParse (printValue doubles format 0 j) = none := by
  refine print_deep_more doubles format h ?_
  rw [cstr_eq_self (printValue_clean doubles format 0 j)]

/-- The text of a tree, formatted or not, is a text of the standard for it, and it is read
as the tree, but for a tree nested more deeply than the limit: that cannot be read back. -/
theorem printed_tree_parses (j : Json) :
    (∃ n, Denotes rfc n (printValue doubles format 0 j) (normal doubles j)) ∧
      (Nested nestingLimit j →
        cJSONParse (printValue doubles format 0 j) = some (normal doubles j)) ∧
      (¬ Nested nestingLimit j → cJSONParse (printValue doubles format 0 j) = none) := by
  obtain ⟨n, hn⟩ := exists_nested j
  exact ⟨⟨n, printValue_denotes doubles format hn 0⟩, print_parse doubles format,
    print_deep doubles format⟩

/-- No text that stops before the end of a printed array or object is a document. -/
theorem print_cut {j : Json} (hcontainer : ¬ Nested 0 j) {text : Str}
    (hpre : text <+: printValue doubles format 0 j) (hcut : text ≠ printValue doubles format 0 j) :
    cJSONParse text = none := by
  obtain ⟨more, hmore⟩ := hpre
  obtain ⟨n, hn, hprinted⟩ := printed_container doubles format hcontainer
  have hclean : cstr text = text := by
    refine cstr_eq_self fun hnul => printValue_clean doubles format 0 j ?_
    rw [← hmore]
    exact List.mem_append_left more hnul
  cases hparse : cJSONParse text with
  | none => rfl
  | some j' =>
    have hshared : cstr text ++ more = printValue doubles format 0 j ++ [] := by
      rw [hclean, hmore, List.append_nil]
    obtain ⟨-, hnone, -⟩ := container_read hn hprinted hshared hparse
    rw [List.suffix_nil.mp hnone, List.append_nil] at hmore
    exact absurd hmore hcut

/-- Of a printed array or object nothing can be missing, and what follows it is passed over.
One that is nested too deeply is refused, whatever follows it. -/
theorem printed_container_exact {j : Json} (hcontainer : ¬ Nested 0 j) (text : Str) :
    (text <+: printValue doubles format 0 j → text ≠ printValue doubles format 0 j →
      cJSONParse text = none) ∧
    (printValue doubles format 0 j <+: cstr text →
      (Nested nestingLimit j → cJSONParse text = some (normal doubles j)) ∧
        (¬ Nested nestingLimit j → cJSONParse text = none)) := by
  refine ⟨print_cut doubles format hcontainer, fun h => ⟨fun hnested => ?_, fun hdeep =>
    print_deep_more doubles format hdeep h⟩⟩
  obtain ⟨more, hmore⟩ := h
  have hden := rfc_denotes (printValue_denotes doubles format hnested 0)
  obtain ⟨m, hm, hprinted⟩ := container_of_nested (fun h => hcontainer (nested_of_normal h)) hden
  exact cJSONParse_container hm hmore.symm hprinted

/-- What is read can be printed and read again, with every value in it. -/
theorem parsed_reprints {text : Str} {root j : Json} (hparse : cJSONParse text = some root)
    (hj : root.Within j) : cJSONParse (printValue doubles format 0 j) = some (normal doubles j) := by
  obtain ⟨bom, w, t, r, -, -, -, hden⟩ := cJSONParse_denotes hparse
  exact print_parse doubles format (nested_within (denotes_nested hden) hj)

end

/-- No number is printed as a double. -/
def noDoubles : Doubles := ⟨fun _ => "null".toList, fun _ => .inr rfl⟩

def sampleList : Json := .array [.bool true]

theorem sampleList_text : printValue noDoubles false 0 sampleList = "[true]".toList := by
  simp [sampleList, printValue, printItems]

theorem printed_container_exact_list :
    cJSONParse "[tru".toList = none ∧
      cJSONParse "[true] and more".toList = some (normal noDoubles sampleList) := by
  have hexact := printed_container_exact noDoubles false (j := sampleList) id
  rw [sampleList_text] at hexact
  exact ⟨(hexact _).1 ⟨"e]".toList, rfl⟩ (by decide),
    ((hexact _).2 ⟨" and more".toList, rfl⟩).1 (List.forall_mem_singleton.mpr trivial)⟩

theorem parsed_reprints_list :
    ∃ root, cJSONParse "[true]".toList = some root ∧
      cJSONParse (printValue noDoubles true 0 root) = some (normal noDoubles root) := by
  have hparse := print_parse noDoubles false (j := sampleList) (List.forall_mem_singleton.mpr trivial)
  rw [sampleList_text] at hparse
  exact ⟨_, hparse, parsed_reprints noDoubles true hparse .root⟩

/-- Strings are C strings and numbers are of the type `int`. -/
inductive Plain : Json → Prop where
  | null : Plain .null
  | bool {b : Bool} : Plain (.bool b)
  | int {n : Int} (hmin : Json.intMin ≤ n) (hmax : n ≤ Json.intMax) : Plain (.ofInt n)
  | string {s : Str} (hs : '\x00' ∉ s) : Plain (.string s)
  | array {items : List Json} (h : ∀ j ∈ items, Plain j) : Plain (.array items)
  | object {members : List (Str × Json)} (hkeys : ∀ m ∈ members, '\x00' ∉ m.1)
      (h : ∀ m ∈ members, Plain m.2) : Plain (.object members)

theorem integral_printInt (n : Int) : integral (printInt n) = some n := by
  have hsign : takeSign (printInt n) = (decide (n < 0), Nat.toDigits 10 n.natAbs) :=
    Json.takeSign_printed n
  have htrunc : Json.truncNumber (printInt n) = n := Json.truncNumber_printed n
  have hdigits : ∀ c ∈ Nat.toDigits 10 n.natAbs, c.isDigit = true :=
    fun c hc => Nat.isDigit_of_mem_toDigits (by decide) (by decide) hc
  have hdrop : (Nat.toDigits 10 n.natAbs).dropWhile Char.isDigit = [] :=
    List.dropWhile_eq_nil_iff.mpr hdigits
  simp [integral, hsign, hdrop, Json.exponent, htrunc]

theorem numeral_not_null {t : Str} (h : Numeral t) : t ≠ "null".toList := by
  intro ht
  have hall := (rfc_numeral h).1 'n' (by rw [ht]; decide)
  exact absurd hall (by decide)

theorem normal_plain (doubles : Doubles) {j : Json} (h : Plain j) : normal doubles j = j := by
  induction h with
  | null => rw [normal]
  | bool => rw [normal]
  | @int n hmin hmax =>
    have hprint : printNumber doubles (printInt n) = printInt n := by
      rw [printNumber, integral_printInt]
      exact if_pos ⟨hmin, hmax⟩
    change normal doubles (.number (printInt n)) = .number (printInt n)
    rw [normal, hprint, numberNode, if_neg (numeral_not_null (printInt_numeral n))]
  | string hs => rw [normal, cstr_eq_self hs]
  | array _ ih =>
    rw [normal, normalItems_map]
    exact congrArg Json.array ((List.map_congr_left ih).trans (List.map_id' _))
  | object hkeys _ ih =>
    rw [normal, normalMembers_map]
    refine congrArg Json.object (Eq.trans (List.map_congr_left fun m hm => ?_) (List.map_id' _))
    rw [cstr_eq_self (hkeys m hm), ih m hm]

end Dobby.Cjson
