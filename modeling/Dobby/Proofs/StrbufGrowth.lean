import Dobby.Model.Strbuf

namespace Dobby.Types
open CString

/-- The bytes that an operation appends. -/
def Op.text : Op → Str
  | .append str => cstr str
  | .appendLen str len => (str.getD []).take len
  | .appendf printed => cstr (printed.getD [])
  | .clear => []

/-- No more bytes are asked for than the source has. -/
def Op.Fits : Op → Prop
  | .appendLen (some str) len => len ≤ str.length
  | _ => True

/-- What is held after one more operation. -/
def Op.held (content : Str) : Op → Str
  | .clear => []
  | op => content ++ op.text

/-- Everything appended since the last clear. -/
def held (ops : List Op) : Str := ops.foldl Op.held []

def totalSize (ops : List Op) : Nat := (ops.map (fun op => op.text.length)).sum

/-- The buffer holds this text, its terminator, and whatever there is room for. -/
structure Holds (content : Str) (sb : Strbuf) : Prop where
  len : sb.len = content.length
  cap : sb.cap = sb.data.length
  size : sb.cap < sizeMod
  data : ∃ rest, sb.data = content ++ '\x00' :: rest

section Growth
variable (junk : Nat → Nat → Char) {content : Str} {sb : Strbuf}

theorem Holds.lt (h : Holds content sb) : content.length < sb.cap := by
  obtain ⟨rest, hrest⟩ := h.data
  rw [h.cap, hrest, List.length_append, List.length_cons]
  omega

theorem length_malloc (size : Nat) : (malloc junk size).length = size := by simp [malloc]

/-- Growing memory keeps what it holds. -/
theorem realloc_more {data : List Char} {size : Nat} (h : data.length ≤ size) :
    (realloc junk data size).length = size ∧ ∃ rest, realloc junk data size = data ++ rest := by
  rw [realloc, List.take_of_length_le h]
  refine ⟨?_, _, rfl⟩
  rw [List.length_append, List.length_drop, length_malloc]
  omega

theorem store_at {data : List Char} (front old rest : List Char) {bytes : List Char} (h : data = front ++ (old ++ rest))
    (hlen : old.length = bytes.length) : store data front.length bytes = some (front ++ bytes ++ rest) := by
  subst h
  have hroom : front.length + bytes.length ≤ (front ++ (old ++ rest)).length := by
    rw [List.length_append, List.length_append]
    omega
  rw [store, if_pos hroom, List.take_left, ← hlen, ← List.drop_drop, List.drop_left, List.drop_left]

theorem init_holds {initialCap : Nat} (h : initialCap < sizeMod) :
    ∃ sb, strbufInit junk initialCap = some sb ∧ Holds [] sb := by
  have hcap : ∀ cap, 0 < cap → cap < sizeMod →
      ∃ sb, (store (malloc junk cap) 0 ['\x00']).map (fun data => (⟨data, 0, cap⟩ : Strbuf)) = some sb ∧
        Holds [] sb := by
    intro cap hpos hsize
    have hlength := length_malloc junk cap
    cases hmem : malloc junk cap with
    | nil =>
      rw [hmem] at hlength
      exact absurd hlength.symm (Nat.ne_of_gt hpos)
    | cons c cs =>
      rw [hmem, List.length_cons] at hlength
      have hstore : store (c :: cs) 0 ['\x00'] = some ('\x00' :: cs) :=
        store_at [] [c] cs rfl rfl
      refine ⟨⟨'\x00' :: cs, 0, cap⟩, by rw [hstore]; rfl, rfl, ?_, hsize, cs, rfl⟩
      rw [List.length_cons]
      exact hlength.symm
  unfold strbufInit
  by_cases hpos : 0 < initialCap
  · rw [if_pos hpos]
    exact hcap initialCap hpos h
  · rw [if_neg hpos]
    exact hcap 256 (by decide) (by decide)

theorem double_holds (h : Holds content sb) (hroom : sb.cap * 2 < sizeMod) :
    Holds content ⟨realloc junk sb.data (sb.cap * 2), sb.len, sb.cap * 2⟩ := by
  have hmore : sb.data.length ≤ sb.cap * 2 := by
    rw [← h.cap]
    omega
  obtain ⟨hlength, new, hnew⟩ := realloc_more junk hmore
  obtain ⟨rest, hrest⟩ := h.data
  exact ⟨h.len, hlength.symm, hroom, rest ++ new, by rw [hnew, hrest, List.append_assoc, List.cons_append]⟩

/-- The loop ends with enough room: each turn doubles the capacity. -/
theorem grow_turns (added k : Nat) (h : Holds content sb) (hsize : content.length + added < 2 ^ 63)
    (hk : content.length + added < sb.cap * 2 ^ k) :
    ∃ sb', (∀ turns, k < turns → grow junk added turns sb = some sb') ∧ Holds content sb' ∧
      content.length + added < sb'.cap := by
  have hneed : (sb.len + added + 1) % sizeMod = content.length + added + 1 := by
    rw [h.len]
    apply Nat.mod_eq_of_lt
    unfold sizeMod
    omega
  induction k generalizing sb with
  | zero =>
    refine ⟨sb, ?_, h, by omega⟩
    intro turns hturns
    obtain ⟨t, rfl⟩ := Nat.exists_eq_succ_of_ne_zero (Nat.ne_of_gt hturns)
    rw [grow, hneed, if_neg (by omega)]
  | succ k ih =>
    by_cases hroom : content.length + added < sb.cap
    · refine ⟨sb, ?_, h, hroom⟩
      intro turns hturns
      obtain ⟨t, rfl⟩ := Nat.exists_eq_succ_of_ne_zero (Nat.ne_of_gt (Nat.zero_lt_of_lt hturns))
      rw [grow, hneed, if_neg (by omega)]
    · have hdouble : sb.cap * 2 < sizeMod := by
        unfold sizeMod
        omega
      have hk' : content.length + added < sb.cap * 2 * 2 ^ k := by
        rw [Nat.mul_assoc, ← Nat.pow_succ']
        exact hk
      obtain ⟨sb', hgrow, hholds, henough⟩ := ih (double_holds junk h hdouble) hk' hneed
      refine ⟨sb', ?_, hholds, henough⟩
      intro turns hturns
      obtain ⟨t, rfl⟩ := Nat.exists_eq_succ_of_ne_zero (Nat.ne_of_gt (Nat.zero_lt_of_lt hturns))
      rw [grow, hneed, if_pos (by omega), Nat.mod_eq_of_lt hdouble]
      exact hgrow t (Nat.lt_of_succ_lt_succ hturns)

/-- Behind the text there is room for another one and its terminator. -/
theorem Holds.room (h : Holds content sb) {text : Str} (hroom : content.length + text.length < sb.cap) :
    ∃ old c rest, sb.data = content ++ (old ++ ([c] ++ rest)) ∧ old.length = text.length := by
  obtain ⟨rest, hrest⟩ := h.data
  have hbehind : text.length < ('\x00' :: rest).length := by
    rw [h.cap, hrest, List.length_append] at hroom
    omega
  refine ⟨('\x00' :: rest).take text.length, ('\x00' :: rest)[text.length],
    ('\x00' :: rest).drop (text.length + 1), ?_, ?_⟩
  · rw [List.singleton_append, ← List.drop_eq_getElem_cons hbehind, List.take_append_drop]
    exact hrest
  · rw [List.length_take]
    omega

/-- What the two kinds of append leave. -/
theorem Holds.extended (h : Holds content sb) {text : Str} (rest : Str) {data : List Char}
    (hroom : content.length + text.length < sb.cap) (hlength : data.length = sb.data.length)
    (hdata : data = content ++ text ++ (['\x00'] ++ rest)) :
    Holds (content ++ text) ⟨data, (sb.len + text.length) % sizeMod, sb.cap⟩ := by
  refine ⟨?_, ?_, h.size, rest, hdata⟩
  · have hsize := h.size
    rw [h.len, List.length_append]
    exact Nat.mod_eq_of_lt (hroom.trans hsize)
  · rw [hlength]
    exact h.cap

theorem grow_holds {added : Nat} (h : Holds content sb) (hsize : content.length + added < 2 ^ 63) :
    ∃ sb', (∀ turns, 63 < turns → grow junk added turns sb = some sb') ∧ Holds content sb' ∧
      content.length + added < sb'.cap := by
  apply grow_turns junk added 63 h hsize
  have hcap : 1 ≤ sb.cap := Nat.one_le_of_lt h.lt
  omega

theorem append_holds (h : Holds content sb) (str : List Char)
    (hsize : content.length + (cstr str).length < 2 ^ 63) :
    ∃ sb', (∀ turns, 63 < turns → strbufAppend junk turns sb str = some sb') ∧
      Holds (content ++ cstr str) sb' := by
  obtain ⟨grown, hgrow, hgrown, hroom⟩ := grow_holds junk h hsize
  obtain ⟨old, c, rest, hdata, hold⟩ := hgrown.room hroom
  have hstore : store grown.data grown.len (cstr str ++ ['\x00']) =
      some (content ++ (cstr str ++ ['\x00']) ++ rest) := by
    rw [hgrown.len]
    apply store_at content (old ++ [c]) rest
    · rw [hdata, List.append_assoc]
    · rw [List.length_append, List.length_append, hold]
      rfl
  refine ⟨⟨content ++ (cstr str ++ ['\x00']) ++ rest, (grown.len + (cstr str).length) % sizeMod,
    grown.cap⟩, ?_, hgrown.extended rest hroom ?_ ?_⟩
  · intro turns hturns
    rw [strbufAppend, hgrow turns hturns]
    dsimp only [Option.bind_eq_bind, Option.bind_some]
    rw [hstore]
    rfl
  · rw [hdata]
    simp only [List.length_append, List.length_singleton, hold]
    omega
  · rw [List.append_assoc, List.append_assoc, List.append_assoc]

theorem appendLen_holds (h : Holds content sb) {str : List Char} {len : Nat} (hlen : len ≤ str.length)
    (hsize : content.length + (str.take len).length < 2 ^ 63) :
    ∃ sb', (∀ turns, 63 < turns → strbufAppendLen junk turns sb (some str) len = some sb') ∧
      Holds (content ++ str.take len) sb' := by
  have htake : (str.take len).length = len := List.length_take_of_le hlen
  by_cases hzero : len = 0
  · subst hzero
    refine ⟨sb, ?_, ?_⟩
    · intro turns hturns
      rw [strbufAppendLen, if_pos rfl]
    · rw [List.take_zero, List.append_nil]
      exact h
  · obtain ⟨grown, hgrow, hgrown, hroom⟩ := grow_holds junk h hsize
    obtain ⟨old, c, rest, hdata, hold⟩ := hgrown.room hroom
    have hstore : store grown.data grown.len (str.take len) =
        some (content ++ str.take len ++ ([c] ++ rest)) := by
      rw [hgrown.len]
      exact store_at content old ([c] ++ rest) hdata hold
    have hmod : (grown.len + len) % sizeMod = (content ++ str.take len).length := by
      rw [hgrown.len, List.length_append, htake]
      apply Nat.mod_eq_of_lt
      unfold sizeMod
      omega
    have hend : store (content ++ str.take len ++ ([c] ++ rest)) ((grown.len + len) % sizeMod) ['\x00'] =
        some (content ++ str.take len ++ ['\x00'] ++ rest) := by
      rw [hmod]
      exact store_at (content ++ str.take len) [c] rest rfl rfl
    refine ⟨⟨content ++ str.take len ++ ['\x00'] ++ rest, (grown.len + (str.take len).length) % sizeMod,
      grown.cap⟩, ?_, hgrown.extended rest hroom ?_ (List.append_assoc _ _ _)⟩
    · intro turns hturns
      rw [htake] at hgrow
      rw [strbufAppendLen, if_neg hzero, if_neg (Nat.not_lt.mpr hlen), hgrow turns hturns]
      dsimp only [Option.bind_eq_bind, Option.bind_some]
      rw [hstore]
      dsimp only [Option.bind_some]
      rw [hend, htake]
      rfl
    · rw [hdata]
      simp only [List.length_append, List.length_singleton, hold]
      omega

theorem clear_holds (h : Holds content sb) : ∃ sb', strbufClear sb = some sb' ∧ Holds [] sb' := by
  obtain ⟨rest, hrest⟩ := h.data
  have hfirst : ∃ c cs, sb.data = [] ++ ([c] ++ cs) := by
    cases hcontent : content with
    | nil => exact ⟨'\x00', rest, by rw [hrest, hcontent]; rfl⟩
    | cons c cs => exact ⟨c, cs ++ '\x00' :: rest, by rw [hrest, hcontent]; rfl⟩
  obtain ⟨c, cs, hdata⟩ := hfirst
  have hstore : store sb.data 0 ['\x00'] = some ([] ++ ['\x00'] ++ cs) := store_at [] [c] cs hdata rfl
  refine ⟨⟨'\x00' :: cs, 0, sb.cap⟩, by rw [strbufClear, hstore]; rfl, rfl, ?_, h.size, cs, rfl⟩
  rw [h.cap, hdata]
  rfl

/-- Every operation does what it should. -/
theorem run_holds (h : Holds content sb) {op : Op} (hfits : op.Fits)
    (hsize : content.length + op.text.length < 2 ^ 63) :
    ∃ sb', (∀ turns, 63 < turns → op.run junk turns sb = some sb') ∧ Holds (op.held content) sb' := by
  cases op with
  | append str => exact append_holds junk h str hsize
  | appendLen str len =>
    cases str with
    | none => exact ⟨sb, fun _ _ => rfl, by simpa [Op.held, Op.text] using h⟩
    | some str => exact appendLen_holds junk h hfits hsize
  | appendf printed =>
    cases printed with
    | none => exact ⟨sb, fun _ _ => rfl, by simpa [Op.held, Op.text, cstr] using h⟩
    | some buf => exact append_holds junk h buf hsize
  | clear =>
    obtain ⟨sb', hclear, hholds⟩ := clear_holds h
    exact ⟨sb', fun _ _ => hclear, hholds⟩

theorem held_length (op : Op) (content : Str) :
    (op.held content).length ≤ content.length + op.text.length := by
  cases op <;> simp [Op.held]

theorem foldlM_holds {ops : List Op} (h : Holds content sb) (hfits : ∀ op ∈ ops, op.Fits)
    (hsize : content.length + totalSize ops < 2 ^ 63) :
    ∃ sb', (∀ turns, 63 < turns → ops.foldlM (Op.run junk turns) sb = some sb') ∧
      Holds (ops.foldl Op.held content) sb' := by
  induction ops generalizing content sb with
  | nil => exact ⟨sb, fun _ _ => rfl, h⟩
  | cons op ops ih =>
    have htotal : totalSize (op :: ops) = op.text.length + totalSize ops := rfl
    obtain ⟨mid, hmid, hmidHolds⟩ := run_holds junk h (hfits op List.mem_cons_self) (by omega)
    have hrest : (op.held content).length + totalSize ops < 2 ^ 63 := by
      have := held_length op content
      omega
    obtain ⟨sb', hall, hholds⟩ := ih hmidHolds (fun p hp => hfits p (List.mem_cons_of_mem _ hp)) hrest
    refine ⟨sb', ?_, hholds⟩
    intro turns hturns
    rw [List.foldlM_cons, hmid turns hturns]
    exact hall turns hturns

end Growth

/-- After any operations on a buffer of any initial capacity the text stands in it with
its terminator; no growing takes more than 64 turns. -/
theorem strbuf_holds (junk : Nat → Nat → Char) {initialCap : Nat} (hcap : initialCap ≤ sizeMax)
    {ops : List Op} (hfits : ∀ op ∈ ops, op.Fits) (hsize : 2 * totalSize ops < sizeMax) :
    ∃ sb, (∀ turns, 64 ≤ turns → runAll junk turns initialCap ops = some sb) ∧
      sb.len < sb.cap ∧ sb.data[sb.len]? = some '\x00' ∧ sb.data.take sb.len = held ops := by
  have hmod : initialCap < sizeMod := Nat.lt_succ_of_le hcap
  obtain ⟨start, hstart, hstartHolds⟩ := init_holds junk hmod
  have hsmall : ([] : Str).length + totalSize ops < 2 ^ 63 := by
    unfold sizeMax at hsize
    rw [List.length_nil]
    omega
  obtain ⟨sb, hall, hholds⟩ := foldlM_holds junk hstartHolds hfits hsmall
  obtain ⟨rest, hrest⟩ := hholds.data
  refine ⟨sb, ?_, ?_, ?_, ?_⟩
  · intro turns hturns
    rw [runAll, hstart]
    exact hall turns hturns
  · rw [hholds.len]
    exact hholds.lt
  · rw [hrest, hholds.len, List.getElem?_append_right (Nat.le_refl _), Nat.sub_self]
    rfl
  · rw [hrest, hholds.len, List.take_left]
    rfl

def someOps : List Op :=
  [.append "abc".toList, .clear, .appendf (some "de".toList), .appendLen (some "fgh".toList) 2]

theorem some_ops_held :
    ∃ sb, (∀ turns, 64 ≤ turns → runAll (fun _ _ => '?') turns 1 someOps = some sb) ∧
      sb.len < sb.cap ∧ sb.data[sb.len]? = some '\x00' ∧ sb.data.take sb.len = held someOps :=
  strbuf_holds (fun _ _ => '?') (by decide) (by simp [someOps, Op.Fits]) (by decide)

example : held someOps = "defg".toList := by decide

end Dobby.Types
