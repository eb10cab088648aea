import Dobby.Base.CString

namespace Dobby.Conf
open CString

def maxEntries : Nat := 256
def maxKeyLen : Nat := 128

/-- `config_entry_t`. Both names fit their buffers. -/
structure Entry where
  sectionName : Str
  key : Str
  value : Str
  fits : sectionName.length < maxKeyLen ∧ key.length < maxKeyLen

/-- `config_t`. -/
structure Config where
  entries : List Entry
  room : entries.length ≤ maxEntries

def configCreate : Config := ⟨[], Nat.zero_le _⟩

/-- Both comparisons by `strcmp`. -/
def Entry.named (sectionName key : Str) (e : Entry) : Bool :=
  e.sectionName == sectionName && e.key == key

def configGet (cfg : Config) (sectionName key : Str) (defaultVal : Option Str) : Option Str :=
  match cfg.entries.find? (Entry.named sectionName key) with
  | some e => some e.value
  | none => defaultVal

/-- The entries with the first one of these names updated. -/
def update (sectionName key value : Str) : List Entry → Option (List Entry)
  | [] => none
  | e :: es =>
    if e.named sectionName key then some ({ e with value := value } :: es)
    else (update sectionName key value es).map (e :: ·)

theorem update_length (h : update sectionName key value es = some es') : es'.length = es.length := by
  induction es generalizing es' with
  | nil => cases h
  | cons e es ih =>
    simp only [update] at h
    split at h
    · cases h
      rfl
    · obtain ⟨rest, hrest, rfl⟩ := Option.map_eq_some_iff.mp h
      simp [ih hrest]

/-- A new entry, its names cut by `snprintf`. -/
def newEntry (sectionName key value : Str) : Entry :=
  ⟨snprintf maxKeyLen sectionName, snprintf maxKeyLen key, value,
    snprintf_lt (by decide) sectionName, snprintf_lt (by decide) key⟩

/-- A full table is left as it is, before any look for the entry. -/
def configSet (cfg : Config) (sectionName key value : Str) : Config :=
  if hfull : maxEntries ≤ cfg.entries.length then cfg
  else
    match hfound : update sectionName key value cfg.entries with
    | some es => ⟨es, (update_length hfound).trans_le cfg.room⟩
    | none => ⟨cfg.entries ++ [newEntry sectionName key value], by
        rw [List.length_append, List.length_singleton]
        omega⟩

end Dobby.Conf
