import Dobby.Proofs.OpenaiCalls

namespace Dobby.Openai
open CString AgentLoop Ollama

/-- The texts at the brackets of a text. -/
def candidates (text : Str) : List Str := text.tails.filter (fun s => s.head? = some '[')

/-- At the start of the text there is an array with an item that has no name. -/
def rejected (cj : Codec) (s : Str) : Bool :=
  match cj.parse s with
  | some (.array items) => items.any (fun e => (e.field "name".toList).isNone)
  | _ => false

/-- No array with a nameless item stands in front of the first one without. -/
def NoneRejected (cj : Codec) (text : Str) : Prop :=
  ∀ s ∈ (candidates text).takeWhile (fun s => (namedArray cj s).isNone), rejected cj s = false

/-- What the recovery of an answer should come to: the calls of the first array with named
items or an error, and no tree that is left or deleted twice. -/
structure Recovered (cj : Codec) (text : Str) (r : LlmResponse) (trees : Trees) : Prop where
  calls : ∀ entries, firstNamed cj text = some entries →
    ∃ calls, r.toolCalls = some (.array calls) ∧ List.Forall₂ (RecoveredAs cj) entries calls
  none : firstNamed cj text = none → r.toolCalls = none ∧ r.error ≠ none
  deleted : ∀ n ∈ trees.deletes, n = 1

section Loop

variable (cj : Codec)

/-- The trees are only counted: the loop finds what `recoverCalls` finds. -/
theorem recoverTrees_calls (counter : Nat) (trees : Trees) (text : Str) :
    ((recoverTrees cj counter trees text).1, (recoverTrees cj counter trees text).2.1) =
      recoverCalls cj counter text := by
  induction text generalizing counter trees with
  | nil => rfl
  | cons c rest ih =>
    rw [recoverTrees, recoverCalls]
    split
    · cases hparse : cj.parse (c :: rest) with
      | none => exact ih counter trees
      | some root =>
        cases root with
        | array items =>
          cases items with
          | nil => exact ih counter _
          | cons entry entries =>
            dsimp only
            obtain ⟨found, next⟩ := normalizeEntries cj counter (entry :: entries)
            cases found with
            | none => exact ih next _
            | some calls => rfl
        | _ => exact ih counter _
    · exact ih counter trees

/-- How often the loop deletes the tree of each text that parses, up to the first array with
named items. -/
def loopDeletes : List Str → List Nat
  | [] => []
  | s :: rest =>
    (if (cj.parse s).isNone then [] else if rejected cj s then [2] else [1]) ++
      if (namedArray cj s).isSome then [] else loopDeletes rest

theorem candidates_cons (c : Char) (rest : Str) :
    candidates (c :: rest) = if c = '[' then (c :: rest) :: candidates rest else candidates rest := by
  unfold candidates
  rw [List.tails_cons, List.filter_cons, List.head?_cons]
  by_cases hc : c = '['
  · simp [hc]
  · simp [hc]

theorem deletes_newest (ns : List Nat) (n : Nat) :
    (ns ++ [n]).modify ns.length (· + 1) = ns ++ [n + 1] := by
  induction ns with
  | nil => rfl
  | cons m ns ih => rw [List.cons_append, List.length_cons, List.modify_succ_cons, ih]; rfl

theorem Trees.delete_parsed (trees : Trees) :
    trees.parsed.delete trees.deletes.length = ⟨trees.deletes ++ [1]⟩ :=
  congrArg Trees.mk (deletes_newest trees.deletes 0)

theorem Trees.delete_twice (trees : Trees) :
    (trees.parsed.delete trees.deletes.length).delete trees.deletes.length =
      ⟨trees.deletes ++ [2]⟩ := by
  rw [Trees.delete_parsed]
  exact congrArg Trees.mk (deletes_newest trees.deletes 1)

theorem array_named {s : Str} {entry : Json} {entries : List Json}
    (hparse : cj.parse s = some (.array (entry :: entries)))
    (hnamed : ∀ e ∈ entry :: entries, (e.field "name".toList).isSome = true) :
    namedArray cj s = some (entry :: entries) ∧ rejected cj s = false := by
  unfold namedArray rejected
  rw [hparse]
  refine ⟨if_pos hnamed, List.any_eq_false.mpr ?_⟩
  intro e he hnone
  rw [Option.isNone_iff_eq_none] at hnone
  have hsome := hnamed e he
  rw [hnone] at hsome
  cases hsome

theorem array_nameless {s : Str} {entry : Json} {entries : List Json}
    (hparse : cj.parse s = some (.array (entry :: entries)))
    (hnameless : ¬ ∀ e ∈ entry :: entries, (e.field "name".toList).isSome = true) :
    namedArray cj s = none ∧ rejected cj s = true := by
  unfold namedArray rejected
  rw [hparse]
  refine ⟨if_neg hnameless, List.any_eq_true.mpr ?_⟩
  push Not at hnameless
  obtain ⟨e, he, hname⟩ := hnameless
  refine ⟨e, he, ?_⟩
  rwa [Ne, Bool.not_eq_true, Option.isSome_eq_false_iff] at hname

theorem no_array {s : Str} (hparse : ∀ entry entries, cj.parse s ≠ some (.array (entry :: entries))) :
    namedArray cj s = none ∧ rejected cj s = false := by
  unfold namedArray rejected
  cases hroot : cj.parse s with
  | none => exact ⟨rfl, rfl⟩
  | some root =>
    cases root with
    | array items =>
      cases items with
      | nil => exact ⟨rfl, rfl⟩
      | cons entry entries => exact absurd hroot (hparse entry entries)
    | _ => exact ⟨rfl, rfl⟩

theorem recoverTrees_deletes (counter : Nat) (trees : Trees) (text : Str) :
    (recoverTrees cj counter trees text).2.2.deletes =
      trees.deletes ++ loopDeletes cj (candidates text) := by
  induction text generalizing counter trees with
  | nil => simp [recoverTrees, candidates, loopDeletes]
  | cons c rest ih =>
    rw [recoverTrees, candidates_cons]
    split
    · rw [loopDeletes]
      cases hparse : cj.parse (c :: rest) with
      | none =>
        obtain ⟨hnamed, hrejected⟩ := no_array cj (s := c :: rest) (by simp [hparse])
        simp [ih, hnamed]
      | some root =>
        dsimp only
        rw [Trees.delete_twice, Trees.delete_parsed]
        cases root with
        | array items =>
          cases items with
          | nil =>
            obtain ⟨hnamed, hrejected⟩ := no_array cj (s := c :: rest) (by simp [hparse])
            simp [ih, hnamed, hrejected]
          | cons entry entries =>
            dsimp only
            by_cases hall : ∀ e ∈ entry :: entries, (e.field "name".toList).isSome = true
            · obtain ⟨calls, hcalls, -⟩ := normalizeEntries_named cj hall counter
              generalize normalizeEntries cj counter (entry :: entries) = normalized at hcalls ⊢
              obtain ⟨found, next⟩ := normalized
              cases hcalls
              obtain ⟨hnamed, hrejected⟩ := array_named cj hparse hall
              simp [hnamed, hrejected]
            · have hnone := normalizeEntries_nameless cj hall counter
              generalize normalizeEntries cj counter (entry :: entries) = normalized at hnone ⊢
              obtain ⟨found, next⟩ := normalized
              cases hnone
              obtain ⟨hnamed, hrejected⟩ := array_nameless cj hparse hall
              simp [ih, hnamed, hrejected]
        | _ =>
          obtain ⟨hnamed, hrejected⟩ := no_array cj (s := c :: rest) (by simp [hparse])
          simp [ih, hnamed, hrejected]
    · exact ih counter trees

theorem own_once_iff (s : Str) :
    (∀ n ∈ if (cj.parse s).isNone then ([] : List Nat) else if rejected cj s then [2] else [1],
      n = 1) ↔ rejected cj s = false := by
  cases hparse : cj.parse s with
  | none =>
    obtain ⟨-, hrejected⟩ := no_array cj (s := s) (by simp [hparse])
    simp [hrejected]
  | some root => cases rejected cj s <;> simp

theorem named_not_rejected {s : Str} {entries : List Json} (h : namedArray cj s = some entries) :
    rejected cj s = false := by
  obtain ⟨entry, rest, hparse⟩ : ∃ entry rest, cj.parse s = some (.array (entry :: rest)) := by
    by_contra hnone
    push Not at hnone
    rw [(no_array cj hnone).1] at h
    cases h
  by_cases hall : ∀ e ∈ entry :: rest, (e.field "name".toList).isSome = true
  · exact (array_named cj hparse hall).2
  · rw [(array_nameless cj hparse hall).1] at h
    cases h

/-- Every tree of the loop is deleted once exactly if no array is rejected. -/
theorem loopDeletes_once_iff (texts : List Str) :
    (∀ n ∈ loopDeletes cj texts, n = 1) ↔
      ∀ s ∈ texts.takeWhile (fun s => (namedArray cj s).isNone), rejected cj s = false := by
  induction texts with
  | nil => simp [loopDeletes]
  | cons s rest ih =>
    rw [loopDeletes, List.forall_mem_append, own_once_iff]
    cases hnamed : namedArray cj s with
    | some entries => simp [hnamed, named_not_rejected cj hnamed]
    | none => simp [hnamed, ih]

end Loop

section Answer

variable {cj : Codec} {http : HttpResponse} {errJson : Json} {text : Str}
  (hbody : http.body.bind cj.parse = some errJson) (htext : failedGeneration errJson = some text)
include hbody htext

theorem failedTrees_deletes (fgCounter : Nat) :
    (failedTrees cj fgCounter http).deletes = 1 :: loopDeletes cj (candidates text) := by
  unfold failedTrees
  rw [hbody]
  dsimp only
  rw [htext]
  change (recoverTrees cj fgCounter ⟨[0]⟩ text).2.2.deletes.modify 0 (· + 1) = _
  rw [recoverTrees_deletes]
  rfl

/-- The recovery does all that it should exactly if it rejects no array. -/
theorem recovery_sound_iff (baseUrl : Str) (fgCounter : Nat) :
    Recovered cj text (failedResponse cj baseUrl fgCounter http).1 (failedTrees cj fgCounter http) ↔
      NoneRejected cj text := by
  have hdeletes := failedTrees_deletes hbody htext fgCounter
  have hcalls := failedResponse_calls hbody htext baseUrl fgCounter
  constructor
  · intro h
    have honce := h.deleted
    rw [hdeletes, List.forall_mem_cons, loopDeletes_once_iff] at honce
    exact honce.2
  · intro h
    refine ⟨?_, ?_, ?_⟩
    · intro entries hentries
      rcases hcalls with ⟨entries', calls, hsome, hr, hforall⟩ | ⟨hnone, -⟩
      · rw [hentries] at hsome
        cases hsome
        exact ⟨calls, hr, hforall⟩
      · rw [hentries] at hnone
        cases hnone
    · intro hnone
      rcases hcalls with ⟨entries', calls, hsome, -⟩ | ⟨-, hr⟩
      · rw [hnone] at hsome
        cases hsome
      · exact hr
    · rw [hdeletes, List.forall_mem_cons, loopDeletes_once_iff]
      exact ⟨rfl, h⟩

end Answer

def failedJson (text : Str) : Json :=
  .object [("error".toList, .object [("code".toList, .string "tool_use_failed".toList),
    ("failed_generation".toList, .string text)])]

def failedBody (text : Str) : Str :=
  "\x7b\"error\":\x7b\"code\":\"tool_use_failed\",\"failed_generation\":\"".toList ++
    (text ++ "\"\x7d\x7d".toList)

/-- A parser for an answer with a failed generation and for the array in that. -/
def failedCodec (text : Str) (items : List Json) : Codec where
  parse s :=
    if s = failedBody text then some (failedJson text)
    else if s = text then some (.array items)
    else none
  print _ := "\x7b\x7d".toList

def failedHttp (text : Str) : HttpResponse := ⟨400, some (failedBody text), none⟩

def listText : Str := "[\x7b\"name\":\"ls\"\x7d]".toList

def listItems : List Json := [.object [("name".toList, .string "ls".toList)]]

theorem list_call_recovered :
    Recovered (failedCodec listText listItems) listText
      (failedResponse (failedCodec listText listItems) [] 0 (failedHttp listText)).1
      (failedTrees (failedCodec listText listItems) 0 (failedHttp listText)) := by
  have hbody : (failedHttp listText).body.bind (failedCodec listText listItems).parse =
      some (failedJson listText) := rfl
  have htext : failedGeneration (failedJson listText) = some listText := rfl
  refine (recovery_sound_iff hbody htext [] 0).mpr ?_
  intro s hs
  have hnil : (candidates listText).takeWhile
      (fun s => (namedArray (failedCodec listText listItems) s).isNone) = [] := rfl
  rw [hnil] at hs
  cases hs

/-- An array of a number is rejected, and its tree is deleted twice. -/
theorem rejected_array_deleted_twice :
    (failedTrees (failedCodec "[1]".toList [.number "1".toList]) 0 (failedHttp "[1]".toList)).deletes =
        [1, 2] ∧
      ¬ Recovered (failedCodec "[1]".toList [.number "1".toList]) "[1]".toList
        (failedResponse (failedCodec "[1]".toList [.number "1".toList]) [] 0
          (failedHttp "[1]".toList)).1
        (failedTrees (failedCodec "[1]".toList [.number "1".toList]) 0 (failedHttp "[1]".toList)) := by
  have hdeletes : (failedTrees (failedCodec "[1]".toList [.number "1".toList]) 0
      (failedHttp "[1]".toList)).deletes = [1, 2] := rfl
  refine ⟨hdeletes, ?_⟩
  intro h
  have htwo := h.deleted 2
  rw [hdeletes] at htwo
  exact absurd (htwo (by simp)) (by decide)

end Dobby.Openai
