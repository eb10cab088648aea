import Mathlib.Data.Finmap

namespace Dobby.Capped

variable {κ : Type u} {ω : Type v} [DecidableEq κ] {cap : Nat}

/-- A finite map with room for so many keys. -/
structure Map (cap : Nat) (κ : Type u) (ω : Type v) where
  entries : Finmap (fun _ : κ => ω)
  room : entries.keys.card ≤ cap

def Map.empty : Map cap κ ω := ⟨∅, by simp⟩

theorem keys_insert (m : Finmap (fun _ : κ => ω)) (k : κ) (v : ω) :
    (m.insert k v).keys = insert k m.keys := by
  ext x
  rw [Finmap.mem_keys, Finmap.mem_insert, Finset.mem_insert, Finmap.mem_keys]

/-- A key that has a place keeps it; a new one is admitted while there is room. -/
def Map.put (m : Map cap κ ω) (k : κ) (v : ω) : Map cap κ ω :=
  if h : k ∈ m.entries ∨ m.entries.keys.card < cap then
    ⟨m.entries.insert k v, by
      rw [keys_insert]
      rcases h with h | h
      · rw [Finset.insert_eq_of_mem (Finmap.mem_keys.mpr h)]
        exact m.room
      · exact (Finset.card_insert_le _ _).trans h⟩
  else m

theorem Map.put_entries (m : Map cap κ ω) (k : κ) (v : ω) :
    (m.put k v).entries =
      if k ∈ m.entries ∨ m.entries.keys.card < cap then m.entries.insert k v else m.entries := by
  unfold Map.put
  split <;> rfl

theorem Map.put_taken {m : Map cap κ ω} {k : κ} (h : k ∈ m.entries ∨ m.entries.keys.card < cap)
    (v : ω) : (m.put k v).entries = m.entries.insert k v := by
  rw [Map.put_entries, if_pos h]

/-- The map after these puts. -/
def after (cap : Nat) (puts : List (κ × ω)) : Map cap κ ω :=
  puts.foldl (fun m p => m.put p.1 p.2) .empty

def keysOf (puts : List (κ × ω)) : Finset κ := (puts.map Prod.fst).toFinset

/-- When the key first came, fewer distinct keys than there is room for had come. -/
def Admitted (cap : Nat) (puts : List (κ × ω)) (k : κ) : Prop :=
  ∃ before v rest, puts = before ++ (k, v) :: rest ∧ k ∉ keysOf before ∧ (keysOf before).card < cap

/-- The value that the key was last put to. -/
def lastPut (puts : List (κ × ω)) (k : κ) : Option ω :=
  (puts.reverse.find? (fun p => p.1 = k)).map Prod.snd

theorem after_concat (puts : List (κ × ω)) (p : κ × ω) :
    after cap (puts ++ [p]) = (after cap puts).put p.1 p.2 := List.foldl_concat _ _ _ _

theorem keysOf_concat (puts : List (κ × ω)) (p : κ × ω) :
    keysOf (puts ++ [p]) = insert p.1 (keysOf puts) := by
  ext k
  simp [keysOf]

theorem lastPut_concat (puts : List (κ × ω)) (p : κ × ω) (k : κ) :
    lastPut (puts ++ [p]) k = if p.1 = k then some p.2 else lastPut puts k := by
  unfold lastPut
  rw [List.reverse_concat]
  by_cases hk : p.1 = k
  · simp [hk]
  · simp [hk]

theorem admitted_concat (puts : List (κ × ω)) (p : κ × ω) (k : κ) :
    Admitted cap (puts ++ [p]) k ↔
      Admitted cap puts k ∨ p.1 = k ∧ k ∉ keysOf puts ∧ (keysOf puts).card < cap := by
  constructor
  · intro h
    obtain ⟨before, v, rest, heq, hnew, hroom⟩ := h
    rcases List.eq_nil_or_concat rest with rfl | ⟨front, q, rfl⟩
    · right
      obtain ⟨rfl, hp⟩ := List.append_inj' heq rfl
      obtain rfl := List.singleton_inj.mp hp
      exact ⟨rfl, hnew, hroom⟩
    · left
      rw [List.concat_eq_append, ← List.cons_append, ← List.append_assoc] at heq
      exact ⟨before, v, front, (List.append_inj' heq rfl).1, hnew, hroom⟩
  · intro h
    rcases h with ⟨before, v, rest, rfl, hnew⟩ | ⟨rfl, hnew⟩
    · exact ⟨before, v, rest ++ [p], by simp, hnew⟩
    · exact ⟨puts, p.2, [], rfl, hnew⟩

/-- The map holds keys that came, and all of them while there is room. -/
theorem keys_after (cap : Nat) (puts : List (κ × ω)) : (after cap puts).entries.keys ⊆ keysOf puts ∧
    ((after cap puts).entries.keys.card < cap → (after cap puts).entries.keys = keysOf puts) := by
  induction puts using List.reverseRecOn with
  | nil => simp [after, Map.empty, keysOf]
  | append_singleton puts p ih =>
    obtain ⟨hsub, hall⟩ := ih
    rw [after_concat, keysOf_concat, Map.put_entries]
    split
    · rename_i hput
      rw [keys_insert]
      refine ⟨Finset.insert_subset_insert _ hsub, ?_⟩
      intro hroom
      have hbefore : (after cap puts).entries.keys.card < cap :=
        (Finset.card_le_card (Finset.subset_insert _ _)).trans_lt hroom
      rw [hall hbefore]
    · rename_i hput
      refine ⟨hsub.trans (Finset.subset_insert _ _), ?_⟩
      intro hroom
      exact absurd (.inr hroom) hput

theorem room_iff (cap : Nat) (puts : List (κ × ω)) :
    (after cap puts).entries.keys.card < cap ↔ (keysOf puts).card < cap := by
  obtain ⟨hsub, hall⟩ := keys_after cap puts
  constructor
  · intro hroom
    rw [← hall hroom]
    exact hroom
  · exact (Finset.card_le_card hsub).trans_lt

theorem mem_of_room {puts : List (κ × ω)} (hroom : (keysOf puts).card < cap) (k : κ) :
    k ∈ (after cap puts).entries ↔ k ∈ keysOf puts := by
  rw [← Finmap.mem_keys, (keys_after cap puts).2 ((room_iff cap puts).mpr hroom)]

theorem mem_after_iff (cap : Nat) (puts : List (κ × ω)) (k : κ) :
    k ∈ (after cap puts).entries ↔ Admitted cap puts k := by
  induction puts using List.reverseRecOn with
  | nil => simp [after, Map.empty, Admitted, Finmap.notMem_empty]
  | append_singleton puts p ih =>
    rw [after_concat, admitted_concat, ← ih, Map.put_entries]
    split
    · rename_i hput
      rw [Finmap.mem_insert]
      constructor
      · rintro (rfl | h)
        · by_cases hmem : p.1 ∈ (after cap puts).entries
          · exact .inl hmem
          · have hroom := (room_iff cap puts).mp (hput.resolve_left hmem)
            exact .inr ⟨rfl, (mem_of_room hroom _).not.mp hmem, hroom⟩
        · exact .inl h
      · rintro (h | ⟨rfl, -⟩)
        · exact .inr h
        · exact .inl rfl
    · rename_i hput
      constructor
      · exact .inl
      · rintro (h | ⟨rfl, -, hroom⟩)
        · exact h
        · exact absurd (.inr ((room_iff cap puts).mpr hroom)) hput

/-- An admitted key has its last value. -/
theorem lookup_after {puts : List (κ × ω)} {k : κ} (h : Admitted cap puts k) :
    (after cap puts).entries.lookup k = lastPut puts k := by
  induction puts using List.reverseRecOn with
  | nil =>
    obtain ⟨before, v, rest, heq, -⟩ := h
    simp at heq
  | append_singleton puts p ih =>
    rw [after_concat, lastPut_concat, Map.put_entries]
    rcases (admitted_concat puts p k).mp h with hold | ⟨rfl, hnew, hroom⟩
    · have hmem := (mem_after_iff cap puts k).mpr hold
      by_cases hk : p.1 = k
      · rw [if_pos hk, hk, if_pos (.inl hmem), Finmap.lookup_insert]
      · rw [if_neg hk]
        split
        · rw [Finmap.lookup_insert_of_ne _ (Ne.symm hk)]
          exact ih hold
        · exact ih hold
    · rw [if_pos rfl, if_pos (.inr ((room_iff cap puts).mpr hroom)), Finmap.lookup_insert]

end Dobby.Capped
