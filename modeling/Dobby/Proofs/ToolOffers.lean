import Mathlib.Data.List.Find
import Dobby.Model.ToolRegistry
import Dobby.Proofs.CjsonRoundTrip

namespace Dobby.Tools
open CString Cjson JsonText

variable {α : Type}

theorem registered_tools (r : Registry α) (tool : Tool α) :
    (registered r tool).tools = (r.tools ++ tool.complete.toList).take maxTools := by
  rw [registered, toolRegister]
  by_cases hfull : maxTools ≤ r.tools.length
  · have hlen : r.tools.length = maxTools := Nat.le_antisymm r.fits hfull
    rw [dif_pos hfull, ← hlen, List.take_left]
  · rw [dif_neg hfull]
    cases tool.complete with
    | none => simp [List.take_of_length_le r.fits]
    | some entry =>
      have hroom : (r.tools ++ [entry]).length ≤ maxTools := by
        rw [List.length_append, List.length_singleton]
        exact Nat.not_le.mp hfull
      exact (List.take_of_length_le hroom).symm

theorem take_take_append (n : Nat) (xs ys : List (Entry α)) :
    (xs.take n ++ ys).take n = (xs ++ ys).take n := by
  have hleft : n - min n xs.length = n - xs.length := by omega
  rw [List.take_append, List.take_append, List.take_take, Nat.min_self, List.length_take, hleft]

/-- The table holds the first complete tools that were registered. -/
theorem registry_tools (r : Registry α) (tools : List (Tool α)) :
    (tools.foldl registered r).tools = (r.tools ++ tools.filterMap Tool.complete).take maxTools := by
  induction tools generalizing r with
  | nil =>
    rw [List.foldl_nil, List.filterMap_nil, List.append_nil, List.take_of_length_le r.fits]
  | cons tool rest ih =>
    have hcons : (tool :: rest).filterMap Tool.complete =
        tool.complete.toList ++ rest.filterMap Tool.complete := by
      cases hcomplete : tool.complete with
      | none => exact List.filterMap_cons_none hcomplete
      | some entry => exact List.filterMap_cons_some hcomplete
    rw [List.foldl_cons, ih, registered_tools, take_take_append, hcons, List.append_assoc]

/-- Name, description and parameters in one item of the offered list. -/
def offer (item : Json) : Option Str × Option Str × Option Json :=
  let func := item.getObjectItem "function".toList
  (func.bind (·.field "name".toList), func.bind (·.field "description".toList),
    func.bind (·.getObjectItem "parameters".toList))

/-- A tool as it is to be offered. -/
def described (doubles : Doubles) (t : Entry α) : Option Str × Option Str × Option Json :=
  (some (cstr t.name), some (cstr (t.description.getD [])),
    (t.parametersSchema.bind cJSONParse).map (normal doubles))

/-- The schema leaves room for the three levels around it. -/
def Shallow (t : Entry α) : Prop :=
  ∀ params ∈ t.parametersSchema.bind cJSONParse, Nested (nestingLimit - 3) params

theorem normal_item (doubles : Doubles) {members : List (Str × Json)}
    (hkeys : ∀ m ∈ members, '\x00' ∉ m.1) (name : Str) :
    (normal doubles (.object members)).getObjectItem name =
      ((Json.object members).getObjectItem name).map (normal doubles) := by
  have hmap : members.map (fun m => (cstr m.1, normal doubles m.2)) =
      members.map fun m => (m.1, normal doubles m.2) :=
    List.map_congr_left fun m hm => by rw [cstr_eq_self (hkeys m hm)]
  rw [normal, normalMembers_map, hmap, Json.getObjectItem, Json.getObjectItem, List.find?_map,
    Option.map_map, Option.map_map]
  rfl

theorem schemaMember_keys (t : Entry α) : ∀ m ∈ schemaMember t, '\x00' ∉ m.1 := by
  have hname : '\x00' ∉ "parameters".toList := by decide
  rw [schemaMember]
  split
  · exact List.forall_mem_singleton.mpr hname
  · exact fun _ h => absurd h List.not_mem_nil

theorem schemaMember_item (t : Entry α) :
    (Json.object (schemaMember t)).getObjectItem "parameters".toList =
      t.parametersSchema.bind cJSONParse := by
  rw [schemaMember]
  split
  · rename_i params hparams
    rw [hparams]
    rfl
  · rename_i hnone
    rw [hnone]
    rfl

theorem offer_normal (doubles : Doubles) (t : Entry α) :
    offer (normal doubles (toolTree t)) = described doubles t := by
  have houter : ∀ j, ∀ m ∈ [("type".toList, Json.string "function".toList),
      ("function".toList, j)], '\x00' ∉ m.1 := by
    intro j
    simp only [List.forall_mem_cons]
    exact ⟨by decide, by decide, fun _ h => absurd h List.not_mem_nil⟩
  have hinner : ∀ m ∈ ("name".toList, Json.string t.name) ::
      ("description".toList, .string (t.description.getD [])) :: schemaMember t, '\x00' ∉ m.1 := by
    simp only [List.forall_mem_cons]
    exact ⟨by decide, by decide, schemaMember_keys t⟩
  have hfunc : (normal doubles (toolTree t)).getObjectItem "function".toList = some (normal doubles _) :=
    normal_item doubles (houter _) _
  have hparams := normal_item doubles hinner "parameters".toList
  rw [Json.getObjectItem_cons_ne (by decide), Json.getObjectItem_cons_ne (by decide),
    schemaMember_item] at hparams
  rw [offer, hfunc, described]
  simp only [Option.bind_some, Json.field, hparams, normal_item doubles hinner]
  rfl

theorem schemaMember_nested (n : Nat) (t : Entry α) :
    (∀ m ∈ schemaMember t, Nested n m.2) ↔
      ∀ params ∈ t.parametersSchema.bind cJSONParse, Nested n params := by
  rw [schemaMember]
  split
  · rename_i params hparams
    rw [hparams, List.forall_mem_singleton]
    exact ⟨fun h p hp => Option.some.inj hp ▸ h, fun h => h params rfl⟩
  · rename_i hnone
    rw [hnone]
    refine ⟨fun _ p hp => ?_, fun _ m hm => absurd hm List.not_mem_nil⟩
    cases hp

theorem nested_tools (tools : List (Entry α)) :
    Nested nestingLimit (.array (tools.map toolTree)) ↔ ∀ t ∈ tools, Shallow t := by
  change (∀ j ∈ tools.map toolTree, Nested (nestingLimit - 3 + 2) j) ↔ _
  rw [List.forall_mem_map]
  refine forall₂_congr fun t _ => ?_
  rw [Shallow, ← schemaMember_nested]
  constructor
  · intro h m hm
    have hfunc := h _ (List.mem_cons_of_mem _ List.mem_cons_self)
    exact hfunc m (List.mem_cons_of_mem _ (List.mem_cons_of_mem _ hm))
  · intro h m hm
    simp only [List.mem_cons, List.not_mem_nil, or_false] at hm
    rcases hm with rfl | rfl
    · trivial
    · intro m hm
      rcases List.mem_cons.mp hm with rfl | hm
      · trivial
      rcases List.mem_cons.mp hm with rfl | hm
      · trivial
      exact h m hm

/-- What is read of the list that is offered. -/
def offered (doubles : Doubles) (r : Registry α) :
    Option (List (Option Str × Option Str × Option Json)) :=
  (cJSONParse (toolGenerateJson doubles r)).map fun list => list.children.map offer

theorem offered_described (doubles : Doubles) {r : Registry α} (h : ∀ t ∈ r.tools, Shallow t) :
    offered doubles r = some (r.tools.map (described doubles)) := by
  have hitems : (r.tools.map fun t => normal doubles (toolTree t)).map offer =
      r.tools.map (described doubles) := by
    rw [List.map_map]
    exact List.map_congr_left fun t _ => offer_normal doubles t
  rw [offered, toolGenerateJson, cJSONPrintUnformatted,
    print_parse doubles false ((nested_tools r.tools).mpr h), Option.map_some, normal,
    normalItems_map, List.map_map]
  exact congrArg some hitems

/-- The list that is offered reads as the first complete tools that were registered, in
order, or as nothing where one of their schemas leaves no room. -/
theorem offers_registered (doubles : Doubles) (tools : List (Tool α)) :
    let entries := (tools.filterMap Tool.complete).take maxTools
    let r := tools.foldl registered toolRegistryInit
    ((∀ t ∈ entries, Shallow t) → offered doubles r = some (entries.map (described doubles))) ∧
      (¬ (∀ t ∈ entries, Shallow t) → offered doubles r = none) := by
  intro entries r
  have htools : r.tools = entries := registry_tools toolRegistryInit tools
  rw [← htools]
  refine ⟨offered_described doubles, fun hdeep => ?_⟩
  rw [offered, toolGenerateJson, cJSONPrintUnformatted,
    print_deep doubles false fun h => hdeep ((nested_tools r.tools).mp h), Option.map_none]

theorem complete_name {tool : Tool α} {t : Entry α} (h : tool.complete = some t) :
    t.name ∈ tool.name := by
  rw [Tool.complete] at h
  split at h
  · rename_i hname _
    cases h
    exact hname
  · cases h

/-- The first offer of a name is of the tool that a call of that name finds, and no
other name is offered. -/
theorem offers_found (doubles : Doubles) (tools : List (Tool α))
    (hnames : ∀ t ∈ tools, ∀ name ∈ t.name, '\x00' ∉ name)
    {offers : List (Option Str × Option Str × Option Json)}
    (hoffered : offered doubles (tools.foldl registered toolRegistryInit) = some offers) (name : Str) :
    offers.find? (fun o => o.1 == some name) =
      (toolFind (tools.foldl registered toolRegistryInit) name).map (described doubles) := by
  have htools := registry_tools toolRegistryInit tools
  generalize tools.foldl registered toolRegistryInit = r at hoffered htools ⊢
  have hclean : ∀ t ∈ r.tools, cstr t.name = t.name := by
    intro t ht
    rw [htools] at ht
    obtain ⟨tool, htool, hcomplete⟩ := List.mem_filterMap.mp (List.mem_of_mem_take ht)
    exact cstr_eq_self (hnames tool htool t.name (complete_name hcomplete))
  have hshallow : ∀ t ∈ r.tools, Shallow t := by
    by_contra hdeep
    rw [offered, toolGenerateJson, cJSONPrintUnformatted,
      print_deep doubles false fun h => hdeep ((nested_tools r.tools).mp h)] at hoffered
    cases hoffered
  rw [offered_described doubles hshallow] at hoffered
  rw [← Option.some.inj hoffered, List.find?_map, toolFind]
  refine congrArg _ (List.find?_congr fun t ht => ?_)
  simp [described, hclean t ht]

def namesakes : List (Tool Unit) :=
  [⟨some "t".toList, some "first".toList, some "\x7b\x7d".toList, some ()⟩,
    ⟨some "u".toList, none, none, some ()⟩,
    ⟨some "t".toList, some "second".toList, none, some ()⟩]

/-- Both tools of the name are offered, and the first of them is the one that is found. -/
theorem offers_found_first : ∃ offers,
    offered noDoubles (namesakes.foldl registered toolRegistryInit) = some offers ∧
      (offers.map fun o => o.1) = [some "t".toList, some "u".toList, some "t".toList] ∧
      offers.find? (fun o => o.1 == some "t".toList) =
        some (some "t".toList, some "first".toList, some (.object [])) := by
  have hshallow : ∀ t ∈ (namesakes.foldl registered toolRegistryInit).tools, Shallow t := by
    have hparse : cJSONParse "\x7b\x7d".toList = some (.object []) := by rfl
    refine List.forall_mem_cons.mpr ⟨fun params hparams => ?_, List.forall_mem_cons.mpr
      ⟨fun _ h => (by cases h), List.forall_mem_singleton.mpr fun _ h => (by cases h)⟩⟩
    obtain rfl : Json.object [] = params := Option.some.inj (hparse.symm.trans hparams)
    exact fun _ h => absurd h List.not_mem_nil
  have hnames : ∀ t ∈ namesakes, ∀ name ∈ t.name, '\x00' ∉ name := by
    decide
  have hoffered := offered_described noDoubles hshallow
  refine ⟨_, hoffered, rfl, ?_⟩
  rw [offers_found noDoubles namesakes hnames hoffered]
  rfl

end Dobby.Tools
