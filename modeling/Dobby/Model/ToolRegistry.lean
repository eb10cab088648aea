import Dobby.Model.CjsonText

namespace Dobby.Tools
open CString Cjson

/-- `MAX_TOOLS` -/
def maxTools : Nat := 64

/-- `tool_t`, where any pointer may be null. -/
structure Tool (α : Type) where
  name : Option Str
  description : Option Str
  parametersSchema : Option Str
  execute : Option α

/-- A tool that was let in: it has a name and a function. -/
structure Entry (α : Type) where
  name : Str
  description : Option Str
  parametersSchema : Option Str
  execute : α

def Tool.complete {α : Type} (tool : Tool α) : Option (Entry α) :=
  match tool.name, tool.execute with
  | some name, some execute => some ⟨name, tool.description, tool.parametersSchema, execute⟩
  | _, _ => none

structure Registry (α : Type) where
  tools : List (Entry α)
  fits : tools.length ≤ maxTools

variable {α : Type}

def toolRegistryInit : Registry α := ⟨[], Nat.zero_le _⟩

def toolRegister (r : Registry α) (tool : Tool α) : Except Str (Registry α) :=
  if h : maxTools ≤ r.tools.length then .error "Max tools reached (64)".toList
  else match tool.complete with
    | none => .error "Tool must have name and execute fn".toList
    | some entry =>
      .ok ⟨r.tools ++ [entry], by
        rw [List.length_append, List.length_singleton]
        exact Nat.not_le.mp h⟩

/-- The registry after a registration that may fail. -/
def registered (r : Registry α) (tool : Tool α) : Registry α :=
  match toolRegister r tool with
  | .ok r' => r'
  | .error _ => r

def toolFind (r : Registry α) (name : Str) : Option (Entry α) :=
  r.tools.find? fun t => t.name == name

/-- The `parameters` of a tool. A schema that is missing or does not parse is left out. -/
def schemaMember (t : Entry α) : List (Str × Json) :=
  match t.parametersSchema.bind cJSONParse with
  | some params => [("parameters".toList, params)]
  | none => []

def toolTree (t : Entry α) : Json :=
  .object [("type".toList, .string "function".toList),
    ("function".toList, .object (("name".toList, .string t.name) ::
      ("description".toList, .string (t.description.getD [])) :: schemaMember t))]

def toolGenerateJson (doubles : Doubles) (r : Registry α) : Str :=
  cJSONPrintUnformatted doubles (.array (r.tools.map toolTree))

end Dobby.Tools
