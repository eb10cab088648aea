import Dobby.Base.Capped
import Dobby.Base.Runs
import Dobby.Model.Config

namespace Dobby.Conf
open CString Capped

/-- The store that these sets make of a fresh one. -/
def configAfter (sets : List ((Str × Str) × Str)) : Config :=
  sets.foldl (fun cfg s => configSet cfg s.1.1 s.1.2 s.2) configCreate

def Entry.names (e : Entry) : Str × Str := (e.sectionName, e.key)

/-- The store is the finite map that the sets say. -/
structure IsMap (sets : List ((Str × Str) × Str)) (cfg : Config) : Prop where
  admitted : ∀ sectionName key defaultVal, Admitted maxEntries sets (sectionName, key) →
    configGet cfg sectionName key defaultVal = lastPut sets (sectionName, key)
  others : ∀ sectionName key defaultVal, ¬ Admitted maxEntries sets (sectionName, key) →
    configGet cfg sectionName key defaultVal = defaultVal
  own : (cfg.entries.map Entry.names).Nodup ∧
    ∀ p, p ∈ cfg.entries.map Entry.names ↔ Admitted maxEntries sets p

def Short (p : Str × Str) : Prop := p.1.length < maxKeyLen ∧ p.2.length < maxKeyLen

/-- A pair that is to be admitted fits the buffers, and a pair that is set again after the
table has filled up is set to the value it has. -/
def Kept (before : List ((Str × Str) × Str)) (p : Str × Str) (v : Str) : Prop :=
  ((keysOf before).card < maxEntries → p ∉ keysOf before → Short p) ∧
    (maxEntries ≤ (keysOf before).card → Admitted maxEntries before p → lastPut before p = some v)

def valueOf (es : List Entry) (p : Str × Str) : Option Str :=
  (es.find? (Entry.named p.1 p.2)).map Entry.value

theorem configGet_eq (cfg : Config) (sectionName key : Str) (defaultVal : Option Str) :
    configGet cfg sectionName key defaultVal =
      (valueOf cfg.entries (sectionName, key)).or defaultVal := by
  unfold configGet valueOf
  cases cfg.entries.find? (Entry.named sectionName key) <;> rfl

@[simp] theorem named_iff {e : Entry} {sectionName key : Str} :
    e.named sectionName key = true ↔ e.names = (sectionName, key) := by
  simp [Entry.named, Entry.names]

theorem valueOf_isSome (es : List Entry) (p : Str × Str) :
    (valueOf es p).isSome ↔ p ∈ es.map Entry.names := by
  rw [valueOf, Option.isSome_map, List.find?_isSome]
  constructor
  · intro h
    obtain ⟨e, he, hnamed⟩ := h
    exact List.mem_map.mpr ⟨e, he, named_iff.mp hnamed⟩
  · intro h
    obtain ⟨e, he, hnames⟩ := List.mem_map.mp h
    exact ⟨e, he, named_iff.mpr hnames⟩

theorem valueOf_cons (e : Entry) (es : List Entry) (p : Str × Str) :
    valueOf (e :: es) p = if e.names = p then some e.value else valueOf es p := by
  unfold valueOf
  split
  · rename_i h
    rw [List.find?_cons_of_pos (named_iff.mpr h)]
    rfl
  · rename_i h
    rw [List.find?_cons_of_neg (named_iff.not.mpr h)]

theorem valueOf_concat (es : List Entry) (e : Entry) (p : Str × Str) :
    valueOf (es ++ [e]) p = (valueOf es p).or (if e.names = p then some e.value else none) := by
  induction es with
  | nil =>
    rw [List.nil_append, valueOf_cons]
    rfl
  | cons d ds ih =>
    rw [List.cons_append, valueOf_cons, valueOf_cons, ih]
    split <;> rfl

theorem update_none : update sectionName key value es = none ↔ (sectionName, key) ∉ es.map Entry.names := by
  induction es with
  | nil => simp [update]
  | cons e es ih =>
    rw [update, List.map_cons, List.mem_cons, not_or, ← ih]
    by_cases h : e.names = (sectionName, key)
    · simp [named_iff.mpr h, h]
    · simp [named_iff.not.mpr h, Ne.symm h]

theorem update_some (h : update sectionName key value es = some es') :
    es'.map Entry.names = es.map Entry.names ∧
      ∀ p, valueOf es' p = if p = (sectionName, key) then some value else valueOf es p := by
  induction es generalizing es' with
  | nil => cases h
  | cons e es ih =>
    simp only [update] at h
    split at h
    · rename_i hnamed
      cases h
      have hnames : e.names = (sectionName, key) := named_iff.mp hnamed
      refine ⟨rfl, ?_⟩
      intro p
      have hsame : Entry.names { e with value := value } = (sectionName, key) := hnames
      rw [valueOf_cons, valueOf_cons, hsame, hnames]
      by_cases hp : p = (sectionName, key)
      · rw [if_pos hp.symm, if_pos hp]
      · rw [if_neg (Ne.symm hp), if_neg hp, if_neg (Ne.symm hp)]
    · rename_i hnamed
      obtain ⟨rest, hrest, rfl⟩ := Option.map_eq_some_iff.mp h
      obtain ⟨hkeep, hvalue⟩ := ih hrest
      have hnames : e.names ≠ (sectionName, key) := named_iff.not.mp hnamed
      refine ⟨by rw [List.map_cons, hkeep, List.map_cons], ?_⟩
      intro p
      rw [valueOf_cons, valueOf_cons, hvalue]
      by_cases hp : e.names = p
      · subst hp
        rw [if_pos rfl, if_pos rfl, if_neg hnames]
      · rw [if_neg hp, if_neg hp]

theorem newEntry_names (h : Short (sectionName, key)) (value : Str) :
    (newEntry sectionName key value).names = (sectionName, key) :=
  Prod.ext (snprintf_fits h.1) (snprintf_fits h.2)

/-- The entries are those of the map, one for each key. -/
structure Refines (m : Map maxEntries (Str × Str) Str) (cfg : Config) : Prop where
  distinct : (cfg.entries.map Entry.names).Nodup
  lookup : ∀ p, valueOf cfg.entries p = m.entries.lookup p

section Refinement
variable {m : Map maxEntries (Str × Str) Str} {cfg : Config} (h : Refines m cfg)
include h

theorem Refines.mem_iff (p : Str × Str) : p ∈ cfg.entries.map Entry.names ↔ p ∈ m.entries := by
  rw [← valueOf_isSome, h.lookup, Finmap.lookup_isSome]

theorem Refines.length_eq : cfg.entries.length = m.entries.keys.card := by
  have hkeys : (cfg.entries.map Entry.names).toFinset = m.entries.keys := by
    ext p
    rw [List.mem_toFinset, Finmap.mem_keys, h.mem_iff]
  rw [← hkeys, List.toFinset_card_of_nodup h.distinct, List.length_map]

theorem Refines.get (sectionName key : Str) (defaultVal : Option Str) :
    configGet cfg sectionName key defaultVal = (m.entries.lookup (sectionName, key)).or defaultVal := by
  rw [configGet_eq, h.lookup]

/-- The entries have short names, so no map with a long key is refined. -/
theorem Refines.short (hp : p ∈ m.entries) : Short p := by
  obtain ⟨e, -, rfl⟩ := List.mem_map.mp ((h.mem_iff p).mpr hp)
  exact e.fits

/-- A full table goes on with the map where the map does not change. -/
theorem Refines.full_iff (hfull : maxEntries ≤ m.entries.keys.card) (p : Str × Str) (v : Str) :
    Refines (m.put p v) cfg ↔ (p ∈ m.entries → m.entries.lookup p = some v) := by
  constructor
  · intro hafter hmem
    rw [← h.lookup, hafter.lookup, Map.put_taken (.inl hmem), Finmap.lookup_insert]
  · intro hsame
    refine ⟨h.distinct, ?_⟩
    intro q
    rw [h.lookup, Map.put_entries]
    split
    · rename_i hput
      have hmem := hput.resolve_right (Nat.not_lt.mpr hfull)
      by_cases hq : q = p
      · rw [hq, Finmap.lookup_insert, hsame hmem]
      · rw [Finmap.lookup_insert_of_ne _ hq]
    · rfl

theorem Refines.updated {cfg' : Config}
    (hfound : update sectionName key value cfg.entries = some cfg'.entries) :
    (sectionName, key) ∈ m.entries ∧ Refines (m.put (sectionName, key) value) cfg' := by
  obtain ⟨hnames, hvalue⟩ := update_some hfound
  have hmem : (sectionName, key) ∈ m.entries := by
    by_contra hout
    rw [update_none.mpr ((h.mem_iff _).not.mpr hout)] at hfound
    cases hfound
  refine ⟨hmem, ?_, ?_⟩
  · rw [hnames]
    exact h.distinct
  · intro p
    rw [hvalue, Map.put_taken (.inl hmem), h.lookup]
    split
    · rename_i hp
      rw [hp, Finmap.lookup_insert]
    · rename_i hp
      rw [Finmap.lookup_insert_of_ne _ hp]

/-- A new entry stands for its pair if the names are not cut. -/
theorem Refines.appended_iff {cfg' : Config} (hroom : m.entries.keys.card < maxEntries)
    (hnone : update sectionName key value cfg.entries = none)
    (hset : cfg'.entries = cfg.entries ++ [newEntry sectionName key value]) :
    (sectionName, key) ∉ m.entries ∧
      (Refines (m.put (sectionName, key) value) cfg' ↔ Short (sectionName, key)) := by
  have hout := update_none.mp hnone
  refine ⟨(h.mem_iff _).not.mp hout, ?_, ?_⟩
  · intro hafter
    apply hafter.short
    rw [Map.put_taken (.inr hroom)]
    exact Finmap.mem_insert.mpr (.inl rfl)
  · intro hshort
    have hnames := newEntry_names hshort value
    refine ⟨?_, ?_⟩
    · rw [hset, List.map_append, List.map_singleton, hnames, ← List.concat_eq_append]
      exact h.distinct.concat hout
    · intro p
      rw [hset, valueOf_concat, hnames, h.lookup, Map.put_taken (.inr hroom)]
      by_cases hp : p = (sectionName, key)
      · have hlookup : m.entries.lookup (sectionName, key) = none :=
          Finmap.lookup_eq_none.mpr ((h.mem_iff _).not.mp hout)
        rw [hp, hlookup, Finmap.lookup_insert, if_pos rfl, Option.none_or]
        rfl
      · rw [Finmap.lookup_insert_of_ne _ hp, if_neg (Ne.symm hp), Option.or_none]

end Refinement

theorem configSet_cases (cfg : Config) (sectionName key value : Str) :
    (maxEntries ≤ cfg.entries.length ∧ configSet cfg sectionName key value = cfg) ∨
    (cfg.entries.length < maxEntries ∧ ∃ es, update sectionName key value cfg.entries = some es ∧
      (configSet cfg sectionName key value).entries = es) ∨
    (cfg.entries.length < maxEntries ∧ update sectionName key value cfg.entries = none ∧
      (configSet cfg sectionName key value).entries = cfg.entries ++ [newEntry sectionName key value]) := by
  unfold configSet
  split
  · rename_i hfull
    exact .inl ⟨hfull, rfl⟩
  · rename_i hroom
    right
    split
    · rename_i es hfound
      exact .inl ⟨Nat.not_le.mp hroom, es, hfound, rfl⟩
    · rename_i hnone
      exact .inr ⟨Nat.not_le.mp hroom, hnone, rfl⟩

/-- A set takes effect as on the map if the names of a new pair fit and a full table has
the value already. -/
theorem set_refines_iff {m : Map maxEntries (Str × Str) Str} {cfg : Config} (h : Refines m cfg)
    (sectionName key value : Str) :
    Refines (m.put (sectionName, key) value) (configSet cfg sectionName key value) ↔
      (m.entries.keys.card < maxEntries → (sectionName, key) ∉ m.entries → Short (sectionName, key)) ∧
        (maxEntries ≤ m.entries.keys.card → (sectionName, key) ∈ m.entries →
          m.entries.lookup (sectionName, key) = some value) := by
  have hlength := h.length_eq
  rcases configSet_cases cfg sectionName key value with
    ⟨hfull, hset⟩ | ⟨hroom, es, hfound, hset⟩ | ⟨hroom, hnone, hset⟩
  · rw [hlength] at hfull
    have hnot : ¬ m.entries.keys.card < maxEntries := Nat.not_lt.mpr hfull
    simp only [hset, h.full_iff hfull, hnot, hfull, false_implies, true_implies, true_and]
  · rw [← hset] at hfound
    rw [hlength] at hroom
    obtain ⟨hmem, hafter⟩ := h.updated hfound
    have hnot : ¬ maxEntries ≤ m.entries.keys.card := Nat.not_le.mpr hroom
    simp only [hafter, hmem, hnot, not_true, false_implies, implies_true, and_self]
  · rw [hlength] at hroom
    obtain ⟨hout, hiff⟩ := h.appended_iff hroom hnone hset
    have hnot : ¬ maxEntries ≤ m.entries.keys.card := Nat.not_le.mpr hroom
    simp only [hiff, hroom, hout, hnot, not_false_iff, true_implies, false_implies, and_true]

theorem configAfter_concat (sets : List ((Str × Str) × Str)) (s : (Str × Str) × Str) :
    configAfter (sets ++ [s]) = configSet (configAfter sets) s.1.1 s.1.2 s.2 :=
  List.foldl_concat _ _ _ _

/-- The last value of an admitted pair. -/
theorem lookup_eq (sets : List ((Str × Str) × Str)) (p : Str × Str) :
    (Admitted maxEntries sets p → (after maxEntries sets).entries.lookup p = lastPut sets p) ∧
    (¬ Admitted maxEntries sets p → (after maxEntries sets).entries.lookup p = none) := by
  refine ⟨lookup_after, ?_⟩
  intro hout
  rw [Finmap.lookup_eq_none, mem_after_iff]
  exact hout

theorem isMap_iff (sets : List ((Str × Str) × Str)) (cfg : Config) :
    IsMap sets cfg ↔ Refines (after maxEntries sets) cfg := by
  constructor
  · intro h
    refine ⟨h.own.1, ?_⟩
    intro p
    obtain ⟨hin, hout⟩ := lookup_eq sets p
    have hget := configGet_eq cfg p.1 p.2 none
    rw [Option.or_none] at hget
    by_cases hp : Admitted maxEntries sets p
    · rw [hin hp, ← h.admitted p.1 p.2 none hp, hget]
    · rw [hout hp, ← h.others p.1 p.2 none hp, hget]
  · intro h
    refine ⟨?_, ?_, h.distinct, ?_⟩
    · intro sectionName key defaultVal hp
      have hmem := (mem_after_iff _ sets _).mpr hp
      obtain ⟨v, hv⟩ := Finmap.mem_iff.mp hmem
      rw [h.get, hv, Option.some_or, ← hv, lookup_after hp]
    · intro sectionName key defaultVal hp
      rw [h.get, (lookup_eq sets _).2 hp, Option.none_or]
    · intro p
      rw [h.mem_iff, mem_after_iff]

theorem kept_iff (before : List ((Str × Str) × Str)) (p : Str × Str) (v : Str) :
    Kept before p v ↔
      ((after maxEntries before).entries.keys.card < maxEntries →
          p ∉ (after maxEntries before).entries → Short p) ∧
        (maxEntries ≤ (after maxEntries before).entries.keys.card →
          p ∈ (after maxEntries before).entries →
            (after maxEntries before).entries.lookup p = some v) := by
  have hroom := room_iff maxEntries before
  have hmem := mem_after_iff maxEntries before p
  apply and_congr
  · constructor
    · intro h hlt hout
      exact h (hroom.mp hlt) ((mem_of_room (hroom.mp hlt) p).not.mp hout)
    · intro h hlt hnew
      exact h (hroom.mpr hlt) ((mem_of_room hlt p).not.mpr hnew)
  · have hfull_iff : maxEntries ≤ (after maxEntries before).entries.keys.card ↔
        maxEntries ≤ (keysOf before).card := by
      rw [← Nat.not_lt, hroom, Nat.not_lt]
    rw [hfull_iff]
    constructor
    · intro h hfull hp
      rw [lookup_after (hmem.mp hp)]
      exact h hfull (hmem.mp hp)
    · intro h hfull hp
      rw [← lookup_after hp]
      exact h hfull (hmem.mpr hp)

theorem isMap_create : IsMap [] configCreate :=
  (isMap_iff [] configCreate).mpr ⟨List.nodup_nil, fun _ => rfl⟩

theorem isMap_concat (before : List ((Str × Str) × Str)) (s : (Str × Str) × Str)
    (h : IsMap before (configAfter before)) :
    IsMap (before ++ [s]) (configAfter (before ++ [s])) ↔ Kept before s.1 s.2 := by
  rw [isMap_iff, configAfter_concat, after_concat, kept_iff]
  exact set_refines_iff ((isMap_iff _ _).mp h) s.1.1 s.1.2 s.2

/-- After every beginning of the sets the store is the finite map that they say if and
only if each of them is kept. -/
theorem config_map_iff (sets : List ((Str × Str) × Str)) :
    (∀ before, before <+: sets → IsMap before (configAfter before)) ↔
      ∀ before s rest, sets = before ++ s :: rest → Kept before s.1 s.2 :=
  Runs.beginnings_iff isMap_create isMap_concat sets

/-- As many pairs as there is room for. -/
def filling : List ((Str × Str) × Str) :=
  (List.range maxEntries).map (fun i =>
    ((List.replicate (i / 16 + 1) 's', List.replicate (i % 16 + 1) 'k'), "old".toList))

theorem filling_keys : (keysOf filling).card = maxEntries := by
  have hdistinct : (filling.map Prod.fst).Nodup := by
    unfold filling
    rw [List.map_map]
    apply List.nodup_range.map
    intro i j hij
    have hsection := congrArg (fun p : Str × Str => p.1.length) hij
    have hkey := congrArg (fun p : Str × Str => p.2.length) hij
    simp only [Function.comp_apply, List.length_replicate] at hsection hkey
    omega
  rw [keysOf, List.toFinset_card_of_nodup hdistinct, List.length_map, filling, List.length_map,
    List.length_range]

theorem filling_isMap : IsMap filling (configAfter filling) := by
  refine (Runs.beginnings_iff isMap_create isMap_concat filling).mpr ?_ filling (List.prefix_refl _)
  intro before s rest heq
  have hlength : before.length < maxEntries := by
    have := congrArg List.length heq
    simp only [filling, List.length_map, List.length_range, List.length_append, List.length_cons] at this
    omega
  have hcard : (keysOf before).card < maxEntries := by
    refine (List.toFinset_card_le _).trans_lt ?_
    rw [List.length_map]
    exact hlength
  refine ⟨?_, fun hfull => absurd hcard (Nat.not_lt.mpr hfull)⟩
  intro _ _
  have hs : s ∈ filling := by simp [heq]
  obtain ⟨i, hi, rfl⟩ := List.mem_map.mp hs
  have hi := List.mem_range.mp hi
  unfold maxEntries at hi
  simp only [Short, List.length_replicate, maxKeyLen]
  omega

/-- The first of these pairs is set again, to a new value. -/
def setAgain : (Str × Str) × Str := (("s".toList, "k".toList), "new".toList)

theorem dropped (cfg : Config) (hfull : maxEntries ≤ cfg.entries.length)
    (sectionName key value : Str) : configSet cfg sectionName key value = cfg := by
  rw [configSet, dif_pos hfull]

def longKey : Str := List.replicate 128 'k'

def longSet : List ((Str × Str) × Str) := [(("s".toList, longKey), "v".toList)]

/-- The update of a full table is dropped, and a key of 128 bytes is not found again. -/
theorem update_dropped :
    (configGet (configAfter (filling ++ [setAgain])) "s".toList "k".toList none = some "old".toList ∧
      ¬ IsMap (filling ++ [setAgain]) (configAfter (filling ++ [setAgain]))) ∧
    (configGet (configAfter longSet) "s".toList longKey none = none ∧
      ¬ IsMap longSet (configAfter longSet)) := by
  have hcard := filling_keys
  have hfirst : Admitted maxEntries filling setAgain.1 :=
    ⟨[], "old".toList, filling.tail, by decide +kernel, by decide, by decide⟩
  have hlast : lastPut filling setAgain.1 = some "old".toList := by decide +kernel
  have hfull : maxEntries ≤ (configAfter filling).entries.length := by
    rw [((isMap_iff _ _).mp filling_isMap).length_eq, ← Nat.not_lt, room_iff, hcard]
    exact Nat.lt_irrefl _
  refine ⟨⟨?_, ?_⟩, ?_, ?_⟩
  · rw [configAfter_concat, dropped _ hfull, ← hlast]
    exact filling_isMap.admitted _ _ none hfirst
  · rw [isMap_concat _ _ filling_isMap]
    intro h
    have hnew := h.2 hcard.ge hfirst
    rw [hlast] at hnew
    exact absurd hnew (by decide)
  · decide +kernel
  · intro h
    have hadmitted : Admitted maxEntries longSet ("s".toList, longKey) :=
      ⟨[], "v".toList, [], rfl, by decide, by decide⟩
    have hget := h.admitted _ _ none hadmitted
    exact absurd hget (by decide +kernel)

end Dobby.Conf
