import Mathlib.Data.List.Forall2
import Mathlib.Data.List.Nodup
import Dobby.Proofs.OllamaCalls

namespace Dobby.Ollama
open CString AgentLoop

/-- The items of `tool_calls`, if that is an array. -/
def entries (json : Json) : List Json :=
  match messageCalls json with
  | some (.array items) => items
  | _ => []

def entriesOf (cj : Codec) : Except Str Str → List Json
  | .error _ => []
  | .ok body => (cj.parse body).elim [] entries

/-- Arguments are absent, the text of a value or any value that is no text. -/
def usable (cj : Codec) : Option Json → Bool
  | some (.string text) => (cj.parse text).isSome
  | _ => true

/-- The entry has a function object with a name and usable arguments. -/
def survives (cj : Codec) (tc : Json) : Bool :=
  match tc.getObjectItem "function".toList with
  | some (.object members) =>
    ((Json.object members).field "name".toList).any (fun name => name ≠ []) &&
      usable cj ((Json.object members).getObjectItem "arguments".toList)
  | _ => false

def survivors (cj : Codec) (http : Except Str Str) : List Json :=
  (entriesOf cj http).filter (survives cj)

/-- What a returned call looks like. -/
structure NormalForm (cj : Codec) (tc call : Json) : Prop where
  id : ∃ id, call.field "id".toList = some id
  type : call.field "type".toList = some "function".toList
  name : ∃ name, toolName tc = some name ∧ toolName call = some name
  arguments : ∃ text, argumentsItem call = some (.string text) ∧ (cj.parse text).isSome = true

/-- The response of `ollama_chat_complete` has the calls of the body in normal form. -/
structure Normalizes (cj : Codec) (http : Except Str Str) (r : LlmResponse) : Prop where
  attached : r.toolCalls.isSome = true ↔ survivors cj http ≠ [] ∧ r.error = none
  calls : ∀ toolCalls, r.toolCalls = some toolCalls →
    ∃ items, toolCalls = .array items ∧ List.Forall₂ (NormalForm cj) (survivors cj http) items

def returnedCalls (r : LlmResponse) : List Json := r.toolCalls.elim [] Json.children

/-- Responses one after the other. Each call that is returned has taken one number. -/
def chatAll (cj : Codec) (callCounter : Nat) : List (Except Str Str) → List LlmResponse
  | [] => []
  | http :: rest =>
    let r := ollamaChatComplete cj callCounter http
    r :: chatAll cj ((callCounter + (returnedCalls r).length) % 2 ^ 32) rest

section Call

variable {cj : Codec} {tc : Json}

/-- The arguments are given up exactly if they are a text of no value. -/
theorem argumentsText_isSome {item : Option Json}
    (hprint : ∀ args, item = some args → (cj.parse (cj.print args)).isSome = true) :
    (argumentsText cj item).isSome = usable cj item := by
  cases item with
  | none => rfl
  | some args =>
    have hargs := hprint args rfl
    cases args with
    | string text =>
      rw [argumentsText, usable]
      cases h : (cj.parse text).isSome <;> simp
    | _ => simp [argumentsText, usable, hargs]

/-- Only an object has named items. -/
theorem field_eq_none {j : Json} (h : ∀ members, j ≠ .object members) (name : Str) :
    j.field name = none := by
  cases j with
  | object members => exact absurd rfl (h members)
  | _ => rfl

/-- An entry is returned exactly if it survives. -/
theorem normalizeCall_isSome (id : Str)
    (hprint : ∀ args, argumentsItem tc = some args → (cj.parse (cj.print args)).isSome = true) :
    (normalizeCall cj id tc).isSome = survives cj tc := by
  unfold argumentsItem at hprint
  unfold normalizeCall survives
  cases hfunc : tc.getObjectItem "function".toList with
  | none => rfl
  | some func =>
    rw [hfunc, Option.bind_some] at hprint
    have htext := argumentsText_isSome hprint
    dsimp only
    cases func with
    | object members =>
      dsimp only
      have hnamed (c : Char) (cs : Str) : decide (c :: cs ≠ []) = true := by simp
      cases hname : (Json.object members).field "name".toList with
      | none => rfl
      | some name =>
        cases name with
        | nil => rfl
        | cons c cs =>
          dsimp only
          rw [Option.isSome_map, htext, Option.any_some, hnamed, Bool.true_and]
    | _ =>
      rw [field_eq_none (by simp)]
      rfl

theorem normalizeCall_normal (hempty : (cj.parse "{}".toList).isSome = true) {id : Str} {call : Json}
    (h : normalizeCall cj id tc = some call) :
    NormalForm cj tc call ∧ call.field "id".toList = some id := by
  obtain ⟨name, text, rfl, hname, htext⟩ := normalizeCall_shape h
  refine ⟨⟨⟨id, rfl⟩, rfl, ⟨name, hname, rfl⟩, ⟨text, rfl, ?_⟩⟩, rfl⟩
  unfold argumentsText at htext
  split at htext
  · cases htext
    exact hempty
  · split at htext
    · rename_i hparse
      cases htext
      exact hparse
    · cases htext
  · split at htext
    · rename_i hparse
      cases htext
      exact hparse
    · cases htext

end Call

section Calls

variable {cj : Codec} (hempty : (cj.parse "{}".toList).isSome = true) {tcs : List Json}
  (hprint : ∀ tc ∈ tcs, ∀ args, argumentsItem tc = some args →
    (cj.parse (cj.print args)).isSome = true)
include hempty hprint

theorem normalizeCalls_forall₂ (counter : Nat) :
    List.Forall₂ (NormalForm cj) (tcs.filter (survives cj)) (normalizeCalls cj counter tcs) := by
  induction tcs generalizing counter with
  | nil => exact .nil
  | cons tc rest ih =>
    obtain ⟨htc, hrest⟩ := List.forall_mem_cons.mp hprint
    have hsome := normalizeCall_isSome (callId ((counter + 1) % 2 ^ 32)) htc
    rw [normalizeCalls]
    cases hcall : normalizeCall cj (callId ((counter + 1) % 2 ^ 32)) tc with
    | none =>
      rw [hcall] at hsome
      rw [List.filter_cons_of_neg (by simp [← hsome])]
      exact ih hrest counter
    | some call =>
      rw [hcall] at hsome
      rw [List.filter_cons_of_pos (by simp [← hsome])]
      exact .cons (normalizeCall_normal hempty hcall).1 (ih hrest _)

/-- The ids go on from the counter. -/
theorem normalizeCalls_ids {counter : Nat}
    (hfew : counter + (normalizeCalls cj counter tcs).length < 2 ^ 32) :
    (normalizeCalls cj counter tcs).map (fun call => call.field "id".toList) =
      (List.range' (counter + 1) (normalizeCalls cj counter tcs).length).map
        fun n => some (callId n) := by
  induction tcs generalizing counter with
  | nil => rfl
  | cons tc rest ih =>
    obtain ⟨htc, hrest⟩ := List.forall_mem_cons.mp hprint
    rw [normalizeCalls] at hfew ⊢
    cases hcall : normalizeCall cj (callId ((counter + 1) % 2 ^ 32)) tc with
    | none =>
      rw [hcall] at hfew
      exact ih hrest hfew
    | some call =>
      rw [hcall] at hfew
      dsimp only at hfew ⊢
      rw [List.length_cons] at hfew
      have hnext : (counter + 1) % 2 ^ 32 = counter + 1 := Nat.mod_eq_of_lt (by omega)
      have hid := (normalizeCall_normal hempty hcall).2
      rw [hnext] at hfew hid ⊢
      rw [List.map_cons, List.length_cons, List.range'_succ, List.map_cons, hid,
        ih hrest (by omega)]

end Calls

theorem callId_injective {m n : Nat} (hm : m < 2 ^ 32) (hn : n < 2 ^ 32)
    (h : callId m = callId n) : m = n := by
  have hwhole (k : Nat) (hk : k < 2 ^ 32) : callId k = "call_".toList ++ Nat.toDigits 10 k := by
    have hdigits : (Nat.toDigits 10 k).length ≤ 10 :=
      (Nat.length_toDigits_le_iff (by decide) (by decide)).mpr (by omega)
    refine snprintf_fits ?_
    rw [List.length_append]
    have hcall : "call_".toList.length = 5 := rfl
    omega
  rw [hwhole m hm, hwhole n hn] at h
  have hdigits := List.append_cancel_left h
  have hvalue := congrArg (fun s => Nat.ofDigitChars 10 s 0) hdigits
  simpa [Nat.ofDigitChars_ten_toDigits] using hvalue

/-- The calls as a response has them, if there are any. -/
def attached (calls : List Json) : Option Json := if calls = [] then none else some (.array calls)

theorem attached_isSome (calls : List Json) : (attached calls).isSome = true ↔ calls ≠ [] := by
  unfold attached
  split <;> simp_all

theorem attached_eq_some {calls : List Json} {j : Json} (h : attached calls = some j) :
    j = .array calls := by
  unfold attached at h
  split at h
  · cases h
  · exact (Option.some.inj h).symm

theorem attached_children (calls : List Json) : (attached calls).elim [] Json.children = calls := by
  unfold attached
  split
  · rename_i hnil
    exact hnil.symm
  · rfl

/-- A response has all calls that are left, or it has an error and no calls. -/
structure Answers (cj : Codec) (counter : Nat) (json : Json) (r : LlmResponse) : Prop where
  calls : r.error = none → r.toolCalls = attached (normalizeCalls cj counter (entries json))
  failed : r.error ≠ none → r.toolCalls = none

theorem extractMessage_answers (cj : Codec) (counter : Nat) {json message : Json}
    (hmessage : json.getObjectItem "message".toList = some message) :
    Answers cj counter json (extractMessage cj counter message) := by
  have hentries : entries json = match message.getObjectItem "tool_calls".toList with
      | some (.array items) => items
      | _ => [] := by
    rw [entries, messageCalls, hmessage, Option.bind_some]
  unfold extractMessage
  split
  · rename_i tc rest hcalls
    rw [hcalls] at hentries
    dsimp only at hentries ⊢
    split
    · rename_i hnone
      refine ⟨fun _ => ?_, fun _ => rfl⟩
      rw [hentries, attached, if_pos hnone]
    · rename_i hsome
      refine ⟨fun _ => ?_, fun h => absurd rfl h⟩
      rw [hentries, attached, if_neg hsome]
  · rename_i hcalls
    refine ⟨fun _ => ?_, fun h => absurd rfl h⟩
    have hnil : entries json = [] := by
      rw [hentries]
      split
      · rename_i items hitems
        cases items with
        | nil => rfl
        | cons tc rest => exact absurd hitems (hcalls tc rest)
      · rfl
    rw [hnil]
    rfl

theorem extracted_answers (cj : Codec) (counter : Nat) (json : Json) :
    Answers cj counter json (((json.getObjectItem "message".toList).map
      (extractMessage cj counter)).getD ⟨none, none, none⟩) := by
  cases hmessage : json.getObjectItem "message".toList with
  | none =>
    have hnil : entries json = [] := by
      rw [entries, messageCalls, hmessage]
      rfl
    refine ⟨fun _ => ?_, fun h => absurd rfl h⟩
    rw [hnil]
    rfl
  | some message => exact extractMessage_answers cj counter hmessage

theorem chatComplete_answers (cj : Codec) (counter : Nat) (http : Except Str Str) :
    let r := ollamaChatComplete cj counter http
    (r.error = none → r.toolCalls = attached (normalizeCalls cj counter (entriesOf cj http))) ∧
      (r.error ≠ none → r.toolCalls = none) := by
  have hfailed (calls : List Json) (text : Str) : (some text = none → none = attached calls) ∧
      (some text ≠ none → (none : Option Json) = none) :=
    ⟨fun h => absurd h (by simp), fun _ => rfl⟩
  unfold ollamaChatComplete
  cases http with
  | error text => exact hfailed _ _
  | ok body =>
    dsimp only
    cases hbody : cj.parse body with
    | none => exact hfailed _ _
    | some json =>
      have hanswers := extracted_answers cj counter json
      have hentries : entriesOf cj (.ok body) = entries json := by
        rw [entriesOf, hbody, Option.elim_some]
      rw [hentries]
      dsimp only
      split
      · exact hfailed _ _
      · split
        · exact hfailed _ _
        · exact ⟨hanswers.calls, hanswers.failed⟩
      · exact ⟨hanswers.calls, hanswers.failed⟩

/-- The calls of a response are as many as the numbers that it takes. -/
theorem returnedCalls_chatComplete (cj : Codec) (counter : Nat) (http : Except Str Str) :
    returnedCalls (ollamaChatComplete cj counter http) = [] ∨
      returnedCalls (ollamaChatComplete cj counter http) =
        normalizeCalls cj counter (entriesOf cj http) := by
  obtain ⟨hcalls, hfailed⟩ := chatComplete_answers cj counter http
  cases herror : (ollamaChatComplete cj counter http).error with
  | none =>
    refine .inr ?_
    rw [returnedCalls, hcalls herror, attached_children]
  | some text =>
    refine .inl ?_
    rw [returnedCalls, hfailed (by simp [herror])]
    rfl

theorem entriesOf_emitted {cj : Codec} {http : Except Str Str} {tc : Json}
    (h : tc ∈ entriesOf cj http) :
    ∃ body json, cj.parse body = some json ∧ tc ∈ emittedCalls json := by
  cases http with
  | error text => cases h
  | ok body =>
    rw [entriesOf] at h
    cases hbody : cj.parse body with
    | none =>
      rw [hbody] at h
      cases h
    | some json =>
      rw [hbody, Option.elim_some, entries] at h
      refine ⟨body, json, hbody, ?_⟩
      split at h
      · rename_i items hitems
        rw [emittedCalls, hitems]
        exact h
      · cases h

section Responses

variable {cj : Codec} (hcj : Inverts cj)
include hcj

theorem entriesOf_prints (http : Except Str Str) {tc : Json} (htc : tc ∈ entriesOf cj http)
    (args : Json) (hargs : argumentsItem tc = some args) :
    (cj.parse (cj.print args)).isSome = true := by
  obtain ⟨body, json, hbody, hmem⟩ := entriesOf_emitted htc
  rw [hcj.arguments body json hbody tc hmem args hargs]
  rfl

theorem inverts_empty : (cj.parse "{}".toList).isSome = true := by
  rw [hcj.empty]
  rfl

/-- Every response has the calls of its body in normal form. -/
theorem chatComplete_normalizes (counter : Nat) (http : Except Str Str) :
    Normalizes cj http (ollamaChatComplete cj counter http) := by
  have hnormal := normalizeCalls_forall₂ (inverts_empty hcj)
    (fun tc htc => entriesOf_prints hcj http htc) counter
  have hnil : normalizeCalls cj counter (entriesOf cj http) = [] ↔ survivors cj http = [] := by
    rw [← List.length_eq_zero_iff, ← hnormal.length_eq, List.length_eq_zero_iff]
    rfl
  obtain ⟨hcalls, hfailed⟩ := chatComplete_answers cj counter http
  cases herror : (ollamaChatComplete cj counter http).error with
  | none =>
    constructor
    · rw [hcalls herror, attached_isSome, Ne, hnil]
      simp [herror]
    · intro toolCalls htool
      rw [hcalls herror] at htool
      exact ⟨_, attached_eq_some htool, hnormal⟩
  | some text =>
    have hnone := hfailed (by simp [herror])
    constructor
    · simp [hnone, herror]
    · simp [hnone]

theorem returnedCalls_ids (counter : Nat) (http : Except Str Str)
    (hfew : counter + (returnedCalls (ollamaChatComplete cj counter http)).length < 2 ^ 32) :
    (returnedCalls (ollamaChatComplete cj counter http)).map (fun call => call.field "id".toList) =
      (List.range' (counter + 1)
        (returnedCalls (ollamaChatComplete cj counter http)).length).map fun n => some (callId n) := by
  rcases returnedCalls_chatComplete cj counter http with hnone | hall
  · rw [hnone]
    rfl
  · rw [hall] at hfew ⊢
    exact normalizeCalls_ids (inverts_empty hcj)
      (fun tc htc => entriesOf_prints hcj http htc) hfew

/-- The ids of all calls that are returned, whichever responses had them. -/
theorem chatAll_ids (https : List (Except Str Str)) {counter : Nat}
    (hfew : counter + ((chatAll cj counter https).flatMap returnedCalls).length < 2 ^ 32) :
    ((chatAll cj counter https).flatMap returnedCalls).map (fun call => call.field "id".toList) =
      (List.range' (counter + 1) ((chatAll cj counter https).flatMap returnedCalls).length).map
        fun n => some (callId n) := by
  induction https generalizing counter with
  | nil => rfl
  | cons http rest ih =>
    have hids := returnedCalls_ids hcj counter http
    rw [chatAll, List.flatMap_cons] at hfew ⊢
    rw [List.length_append] at hfew
    rw [List.map_append, hids (by omega), List.length_append]
    generalize (returnedCalls (ollamaChatComplete cj counter http)).length = taken at hfew ⊢
    have hnext : (counter + taken) % 2 ^ 32 = counter + taken := Nat.mod_eq_of_lt (by omega)
    rw [hnext] at hfew ⊢
    rw [ih (by omega), ← List.map_append, Nat.add_right_comm counter taken 1,
      List.range'_append_1]

theorem chatAll_normalizes (counter : Nat) (https : List (Except Str Str)) :
    List.Forall₂ (Normalizes cj) https (chatAll cj counter https) := by
  induction https generalizing counter with
  | nil => exact .nil
  | cons http rest ih => exact .cons (chatComplete_normalizes hcj counter http) (ih _)

end Responses

/-- The tool loop can rely on the calls of every response, and no two calls that ever
came back have one id. -/
theorem tool_calls_normal {cj : Codec} (hcj : Inverts cj) (https : List (Except Str Str))
    (hfew : ((chatAll cj 0 https).flatMap returnedCalls).length < 2 ^ 32) :
    List.Forall₂ (Normalizes cj) https (chatAll cj 0 https) ∧
      (((chatAll cj 0 https).flatMap returnedCalls).map
        fun call => call.field "id".toList).Nodup := by
  refine ⟨chatAll_normalizes hcj 0 https, ?_⟩
  rw [chatAll_ids hcj https (by omega)]
  refine List.Nodup.map_on ?_ List.nodup_range'
  intro m hm n hn hid
  rw [List.mem_range'_1] at hm hn
  exact callId_injective (by omega) (by omega) (Option.some.inj hid)

theorem tool_calls_normal_twice :
    List.Forall₂ (Normalizes sampleCodec) [.ok sampleBody, .ok sampleBody]
        (chatAll sampleCodec 0 [.ok sampleBody, .ok sampleBody]) ∧
      (((chatAll sampleCodec 0 [.ok sampleBody, .ok sampleBody]).flatMap returnedCalls).map
        fun call => call.field "id".toList).Nodup :=
  tool_calls_normal sampleCodec_inverts _ (by
    have htwo : ((chatAll sampleCodec 0 [.ok sampleBody, .ok sampleBody]).flatMap
        returnedCalls).length = 2 := rfl
    omega)

end Dobby.Ollama
