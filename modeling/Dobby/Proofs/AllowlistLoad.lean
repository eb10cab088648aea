import Dobby.Base.Reader
import Dobby.Base.Trim
import Dobby.Model.Allowlist

namespace Dobby.Allowlist
open CString Lines

/-- The loader as a reader of lines: its state is the section, and it yields rules. -/
def loader : Reader AclType Str (AclType × Str) where
  step type line :=
    let s := strTrim (cstr line)
    if s = [] ∨ s.head? = some '#' then (type, [])
    else match sectionType s with
      | some type => (type, [])
      | none => (type, (allowValues s).map (fun v => (type, v)))

/-- Whether the line opens a section that the loader knows. -/
def opensSection (line : Str) : Bool :=
  let s := strTrim (cstr line)
  !(s = [] ∨ s.head? = some '#') && (sectionType s).isSome

theorem resets_of_opensSection (line : Str) (h : opensSection line = true) :
    loader.Resets line := by
  intro t u
  simp only [opensSection, Bool.and_eq_true, Bool.not_eq_true', decide_eq_false_iff_not] at h
  obtain ⟨type, htype⟩ := Option.isSome_iff_exists.mp h.2
  simp only [loader, if_neg h.1, htype]

def rulesOf (type : AclType) (rs : List (AclType × Str)) : List Str :=
  (rs.filter (fun r => r.1 = type)).map Prod.snd

/-- A list that got these rules one by one. -/
def listOf (rs : List Str) : AclList :=
  ⟨rs.take maxRules, !rs.isEmpty, by rw [List.length_take]; exact Nat.min_le_left _ _⟩

theorem listOf_eq_iff (rs qs : List Str) :
    listOf rs = listOf qs ↔ rs.take maxRules = qs.take maxRules := by
  constructor
  · intro h
    exact congrArg AclList.rules h
  · intro h
    apply AclList.ext h
    cases rs <;> cases qs <;> simp_all [listOf, maxRules]

theorem rulesOf_append (type : AclType) (rs qs : List (AclType × Str)) :
    rulesOf type (rs ++ qs) = rulesOf type rs ++ rulesOf type qs := by
  rw [rulesOf, List.filter_append, List.map_append]
  rfl

theorem rulesOf_self (type : AclType) (vs : List Str) :
    rulesOf type (vs.map (fun v => (type, v))) = vs := by
  induction vs with
  | nil => rfl
  | cons v vs ih => simpa [rulesOf] using ih

theorem rulesOf_other {type u : AclType} (h : u ≠ type) (vs : List Str) :
    rulesOf u (vs.map (fun v => (type, v))) = [] := by
  induction vs with
  | nil => rfl
  | cons v vs ih => simp [rulesOf, Ne.symm h]

/-- Adding a rule goes to the end of its list, or nowhere if the list is full. -/
theorem allowlistAdd_listOf (rs : AclType → List Str) (type : AclType) (v : Str) :
    (allowlistAdd (fun u => listOf (rs u)) type v).2 =
      fun u => listOf (rs u ++ rulesOf u [(type, v)]) := by
  have hself : rulesOf type [(type, v)] = [v] := rulesOf_self type [v]
  have hother : ∀ u, u ≠ type → rulesOf u [(type, v)] = [] := fun u hu => rulesOf_other hu [v]
  funext u
  rw [allowlistAdd]
  split
  · rename_i hroom
    have hlen : (rs type).length < maxRules := by
      simpa [listOf] using hroom
    by_cases hu : u = type
    · subst hu
      dsimp only
      rw [Function.update_self, hself]
      apply AclList.ext
      · change (rs u).take maxRules ++ [v] = (rs u ++ [v]).take maxRules
        rw [List.take_of_length_le hlen.le, List.take_of_length_le]
        rw [List.length_append]
        exact hlen
      · change true = !(rs u ++ [v]).isEmpty
        simp
    · dsimp only
      rw [Function.update_of_ne hu, hother u hu, List.append_nil]
  · rename_i hroom
    by_cases hu : u = type
    · subst hu
      have hlen : maxRules ≤ (rs u).length := by
        simpa [listOf] using hroom
      rw [hself, listOf_eq_iff, List.take_append_of_le_length hlen]
    · rw [hother u hu, List.append_nil]

theorem allowlistAdd_values (rs : AclType → List Str) (type : AclType) (vs : List Str) :
    vs.foldl (fun al v => (allowlistAdd al type v).2) (fun u => listOf (rs u)) =
      fun u => listOf (rs u ++ rulesOf u (vs.map (fun v => (type, v)))) := by
  induction vs generalizing rs with
  | nil =>
    funext u
    exact congrArg listOf (List.append_nil _).symm
  | cons v vs ih =>
    rw [List.foldl_cons, allowlistAdd_listOf, ih]
    funext u
    rw [List.append_assoc, ← rulesOf_append]
    rfl

theorem loadLine_listOf (type : AclType) (rs : AclType → List Str) (line : Str) :
    loadLine (type, fun u => listOf (rs u)) line =
      ((loader.step type line).1,
        fun u => listOf (rs u ++ rulesOf u (loader.step type line).2)) := by
  have hnone : (fun u => listOf (rs u)) = fun u => listOf (rs u ++ rulesOf u []) := by
    funext u
    exact congrArg listOf (List.append_nil _).symm
  simp only [loadLine, loader]
  split
  · exact congrArg _ hnone
  · cases sectionType (strTrim (cstr line)) with
    | some newType => exact congrArg _ hnone
    | none => exact congrArg _ (allowlistAdd_values rs type _)

theorem loadLines_listOf (type : AclType) (rs : AclType → List Str) (ls : List Str) :
    (ls.foldl loadLine (type, fun u => listOf (rs u))).2 =
      fun u => listOf (rs u ++ rulesOf u (loader.reads type ls)) := by
  induction ls generalizing type rs with
  | nil => simp [Reader.reads, rulesOf]
  | cons line ls ih =>
    rw [List.foldl_cons, loadLine_listOf, ih]
    simp only [Reader.reads, rulesOf_append, List.append_assoc]

/-- What `allowlist_load` reads from a file into a new allowlist. -/
theorem allowlistLoad_rules {fs : Fs} {path bytes : Str} (h : fs path = some bytes) :
    (allowlistLoad fs allowlistCreate path).2 =
      fun u => listOf (rulesOf u (loader.reads .command (fgetsAll 1024 bytes))) := by
  have hload := loadLines_listOf .command (fun _ => []) (fgetsAll 1024 bytes)
  simp only [List.nil_append] at hload
  rw [allowlistLoad, h]
  exact hload

theorem blank_grow {s t : Str} (h : strTrim s ≠ []) : strTrim (s ++ t) ≠ [] := by
  intro hnil
  have hgrow := strTrim_grow s t
  rw [hnil, List.prefix_nil] at hgrow
  exact h hgrow

/-- A first piece that grows does not get blank. -/
theorem countP_grow (w v : Str) {ws vs : List Str}
    (h : (ws.countP fun w => strTrim w ≠ []) ≤ vs.countP fun w => strTrim w ≠ []) :
    ((w :: ws).countP fun w => strTrim w ≠ []) ≤ ((w ++ v) :: vs).countP fun w => strTrim w ≠ [] := by
  by_cases hw : strTrim w = []
  · rw [List.countP_cons_of_neg (by simp [hw])]
    exact h.trans (List.sublist_cons_self _ _).countP_le
  · rw [List.countP_cons_of_pos (by simp [hw]), List.countP_cons_of_pos (by simp [blank_grow hw])]
    exact Nat.succ_le_succ h

/-- More text makes no piece less, and the first piece only longer. -/
theorem splitOn_grow (s t : Str) : ∃ w v ws vs, s.splitOn ',' = w :: ws ∧
    (s ++ t).splitOn ',' = (w ++ v) :: vs ∧
      (ws.countP fun w => strTrim w ≠ []) ≤ vs.countP fun w => strTrim w ≠ [] := by
  induction s with
  | nil =>
    obtain ⟨v, vs, hv⟩ := List.exists_cons_of_ne_nil (List.splitOn_ne_nil ',' t)
    exact ⟨[], v, [], vs, List.splitOn_nil _, hv, Nat.zero_le _⟩
  | cons c cs ih =>
    obtain ⟨w, v, ws, vs, hcs, ht, hle⟩ := ih
    rw [List.cons_append, List.splitOn_cons_eq_if_modifyHead, List.splitOn_cons_eq_if_modifyHead, hcs, ht]
    split
    · exact ⟨[], [], w :: ws, (w ++ v) :: vs, rfl, rfl, countP_grow w v hle⟩
    · exact ⟨c :: w, v, ws, vs, rfl, rfl, hle⟩

theorem allowValues_length (s : Str) {vals : Str}
    (hallow : "allow".toList <+: s) (hvals : s.dropWhile (fun c => c ≠ '=') = '=' :: vals) :
    (allowValues s).length = ((strTrim vals).splitOn ',').countP fun w => strTrim w ≠ [] := by
  rw [allowValues, if_pos (List.isPrefixOf_iff_prefix.mpr hallow), hvals]
  dsimp only
  rw [List.filter_map, List.length_map, ← List.countP_eq_length_filter]
  rfl

/-- A line that goes on has no fewer values. -/
theorem allowValues_grow (s t : Str) : (allowValues s).length ≤ (allowValues (s ++ t)).length := by
  by_cases hallow : "allow".toList <+: s
  · cases hvals : s.dropWhile (fun c => c ≠ '=') with
    | nil =>
      rw [allowValues, if_pos (List.isPrefixOf_iff_prefix.mpr hallow), hvals]
      exact Nat.zero_le _
    | cons c vals =>
      have hc : c = '=' := by
        have hne : s.dropWhile (fun c => c ≠ '=') ≠ [] := by
          rw [hvals]
          exact List.cons_ne_nil c vals
        have hhead := List.head_dropWhile_not (fun c => decide (c ≠ '=')) hne
        simp only [hvals, List.head_cons, decide_eq_false_iff_not, not_not] at hhead
        exact hhead
      subst hc
      have hmore : (s ++ t).dropWhile (fun c => c ≠ '=') = '=' :: (vals ++ t) := by
        rw [List.dropWhile_append, hvals]
        rfl
      obtain ⟨z, hz⟩ := strTrim_grow vals t
      obtain ⟨w, v, ws, vs, hpieces, hlonger, hle⟩ := splitOn_grow (strTrim vals) z
      rw [allowValues_length s hallow hvals,
        allowValues_length _ (hallow.trans (List.prefix_append _ _)) hmore, ← hz, hpieces, hlonger]
      exact countP_grow w v hle
  · rw [allowValues, if_neg (mt List.isPrefixOf_iff_prefix.mp hallow)]
    exact Nat.zero_le _

/-- The values that the loader takes from a line, whatever section it is in. -/
def valuesOf (line : Str) : List Str := allowValues (strTrim (cstr line))

theorem allow_of_values {s : Str} (h : allowValues s ≠ []) : "allow".toList <+: s := by
  by_contra hallow
  rw [allowValues, if_neg (mt List.isPrefixOf_iff_prefix.mp hallow)] at h
  exact h rfl

/-- A line of values is neither blank nor a comment nor a header. -/
theorem allow_opens {s : Str} (h : "allow".toList <+: s) :
    ¬(s = [] ∨ s.head? = some '#') ∧ sectionType s = none := by
  obtain ⟨t, rfl⟩ := h
  have hne : ∀ w : Str, w.head? ≠ some 'a' → "allow".toList ++ t ≠ w := by
    rintro w hw rfl
    exact hw rfl
  refine ⟨?_, ?_⟩
  · rintro (h | h)
    · exact hne [] (by decide) h
    · have hhead : some 'a' = some '#' := h
      exact absurd hhead (by decide)
  · rw [sectionType, if_neg (hne _ (by decide)), if_neg (hne _ (by decide)),
      if_neg (hne _ (by decide)), if_neg (hne _ (by decide))]

theorem step_values {line : Str} (h : opensSection line = false) (type : AclType) :
    loader.step type line = (type, (valuesOf line).map (fun v => (type, v))) := by
  simp only [loader]
  split
  · rename_i hblank
    have hnone : valuesOf line = [] := by
      by_contra hvalues
      exact (allow_opens (allow_of_values hvalues)).1 hblank
    rw [hnone]
    rfl
  · rename_i hblank
    cases htype : sectionType (strTrim (cstr line)) with
    | none => rfl
    | some t =>
      simp only [opensSection, hblank, htype] at h
      exact absurd h (by simp)

/-- The values up to the next section that the loader knows. -/
def unheaded (ls : List Str) : List Str :=
  (ls.takeWhile (fun l => !opensSection l)).flatMap valuesOf

theorem reads_values {ls : List Str} (h : ∀ l ∈ ls, opensSection l = false) (type : AclType) :
    loader.reads type ls = (ls.flatMap valuesOf).map (fun v => (type, v)) := by
  induction ls with
  | nil => rfl
  | cons l ls ih =>
    rw [Reader.reads, step_values (h l List.mem_cons_self),
      ih (fun m hm => h m (List.mem_cons_of_mem l hm)), List.flatMap_cons, List.map_append]

theorem reads_unheaded (type : AclType) (ls : List Str) :
    loader.reads type (ls.takeWhile fun l => !opensSection l) =
      (unheaded ls).map (fun v => (type, v)) := by
  refine reads_values (fun l hl => ?_) type
  simpa using List.mem_takeWhile_imp hl

def rulesLater (u : AclType) (ls : List Str) : List Str :=
  rulesOf u (loader.reads .command (ls.dropWhile (fun l => !opensSection l)))

/-- In which section lines are entered matters up to the next header. -/
theorem rules_entered (u type : AclType) (ls : List Str) :
    rulesOf u (loader.reads type ls) =
      (if type = u then unheaded ls else []) ++ rulesLater u ls := by
  rw [Reader.reads_reset resets_of_opensSection type .command ls, rulesOf_append, reads_unheaded]
  by_cases hu : type = u
  · rw [if_pos hu, hu, rulesOf_self]
    rfl
  · rw [if_neg hu, rulesOf_other (Ne.symm hu)]
    rfl

/-- A piece that goes on has no fewer rules, if its start holds no null byte. -/
theorem step_grow {r more : Str} (hnull : '\x00' ∉ r ++ more) (u type : AclType) :
    (rulesOf u (loader.step type r).2).length ≤ (rulesOf u (loader.step type (r ++ more)).2).length := by
  have hcstr : cstr r = r := cstr_eq_self (fun h => hnull (List.mem_append_left _ h))
  by_cases hopens : opensSection r = true
  · have hnone : (loader.step type r).2 = [] := by
      simp only [opensSection, Bool.and_eq_true, Bool.not_eq_true', decide_eq_false_iff_not] at hopens
      obtain ⟨t, ht⟩ := Option.isSome_iff_exists.mp hopens.2
      simp only [loader, if_neg hopens.1, ht]
    rw [hnone]
    exact Nat.zero_le _
  · rw [step_values (by simpa using hopens)]
    by_cases hvalues : valuesOf r = []
    · rw [hvalues]
      exact Nat.zero_le _
    · obtain ⟨z, hz⟩ := strTrim_grow r more
      have hallow : "allow".toList <+: strTrim (cstr (r ++ more)) := by
        rw [cstr_eq_self hnull, ← hz]
        rw [valuesOf, hcstr] at hvalues
        exact (allow_of_values hvalues).trans (List.prefix_append _ _)
      have hgrow : (valuesOf r).length ≤ (valuesOf (r ++ more)).length := by
        rw [valuesOf, valuesOf, hcstr, cstr_eq_self hnull, ← hz]
        exact allowValues_grow _ z
      have hline : opensSection (r ++ more) = false := by
        rw [opensSection, (allow_opens hallow).2, Option.isSome_none, Bool.and_false]
      rw [step_values hline]
      by_cases hu : u = type
      · rw [hu, rulesOf_self, rulesOf_self]
        exact hgrow
      · rw [rulesOf_other hu]
        exact Nat.zero_le _

theorem step_newline {line : Str} (hnull : '\x00' ∉ line) (type : AclType) :
    loader.step type (line ++ ['\n']) = loader.step type line := by
  have hended : '\x00' ∉ line ++ ['\n'] := by
    simp only [List.mem_append, not_or]
    exact ⟨hnull, by decide⟩
  simp only [loader, cstr_eq_self hnull, cstr_eq_self hended, strTrim_space line (c := '\n') rfl]

theorem fgetsFrom_newline_only (size : Nat) (got : Str) : fgetsFrom size got ['\n'] = [got ++ ['\n']] := by
  rw [fgetsFrom, if_pos (.inl rfl)]
  rfl

/-- An unended line reads as the line with its newline. -/
theorem reads_ended {s : Str} (hs : '\n' ∉ s) (hnull : '\x00' ∉ s) (type : AclType) :
    loader.reads type (fgetsAll 1024 (s ++ ['\n'])) = loader.reads type (fgetsAll 1024 s) := by
  obtain ⟨ps, last, -, hread⟩ := fgetsFrom_unended (show 1 < 1024 by decide) hs [] (by decide)
  have hflat := fgetsFrom_flatten 1024 [] s
  have hplain := hread []
  rw [List.append_nil] at hplain
  have hlast : '\x00' ∉ last := by
    rw [hplain, List.flatten_append, fgetsFrom_flatten, List.append_nil, List.nil_append] at hflat
    rw [← hflat] at hnull
    exact fun h => hnull (List.mem_append_right _ h)
  rw [fgetsAll, fgetsAll, hread, hplain, fgetsFrom_newline_only, Reader.reads_append, Reader.reads_append]
  congr 1
  cases last with
  | nil => rfl
  | cons c cs =>
    rw [Reader.reads, step_newline hlast, fgetsFrom, Reader.reads]
    · rfl
    · simp

/-- A line cut short has no more rules of a type. -/
theorem rules_cut {q found : Str} (hq : '\n' ∉ q) (hfound : found ≠ []) (hnull : '\x00' ∉ q ++ found)
    (u type : AclType) :
    (rulesOf u (loader.reads type (fgetsAll 1024 (q ++ ['\n'])))).length ≤
      (rulesOf u (loader.reads type (fgetsAll 1024 (q ++ found)))).length := by
  obtain ⟨ps, last, -, hread⟩ := fgetsFrom_unended (show 1 < 1024 by decide) hq [] (by decide)
  obtain ⟨more, rest, hmore, -, hgo⟩ := fgetsFrom_begun 1024 hfound last
  have hflat := fgetsFrom_flatten 1024 [] q
  have hplain := hread []
  rw [List.append_nil] at hplain
  rw [hplain, List.flatten_append, fgetsFrom_flatten, List.append_nil, List.nil_append] at hflat
  have hlast : '\x00' ∉ last ++ more := by
    intro h
    apply hnull
    rw [← hflat]
    rcases List.mem_append.mp h with h | h
    · exact List.mem_append_left _ (List.mem_append_right _ h)
    · exact List.mem_append_right _ (hmore.subset h)
  have hstart : '\x00' ∉ last := fun h => hlast (List.mem_append_left _ h)
  rw [fgetsAll, fgetsAll, hread, hread, hgo, fgetsFrom_newline_only, Reader.reads_append,
    Reader.reads_append, rulesOf_append, rulesOf_append, List.length_append, List.length_append]
  apply Nat.add_le_add_left
  rw [Reader.reads, Reader.reads, Reader.reads, List.append_nil, rulesOf_append, List.length_append,
    step_newline hstart]
  exact (step_grow hlast u _).trans (Nat.le_add_right _ _)

theorem rulesOf_length (u : AclType) (rs : List (AclType × Str)) : (rulesOf u rs).length ≤ rs.length := by
  rw [rulesOf, List.length_map]
  exact List.length_filter_le _ _

/-- Whether the line opens a section other than that of the email rules. -/
def opensOther (line : Str) : Bool :=
  (sectionType (strTrim (cstr line))).any fun type => type ≠ .email

theorem reads_email {ls : List Str} (h : ∀ l ∈ ls, opensOther l = false) {u : AclType}
    (hu : u ≠ .email) :
    rulesOf u (loader.reads .email ls) = [] ∧ loader.state .email ls = .email := by
  induction ls with
  | nil => exact ⟨rfl, rfl⟩
  | cons l ls ih =>
    obtain ⟨hrules, hstate⟩ := ih fun m hm => h m (List.mem_cons_of_mem l hm)
    have hline : (loader.step .email l).1 = .email ∧ rulesOf u (loader.step .email l).2 = [] := by
      have hopens := h l List.mem_cons_self
      simp only [loader]
      split
      · exact ⟨rfl, rfl⟩
      · cases htype : sectionType (strTrim (cstr l)) with
        | some type =>
          rw [opensOther, htype] at hopens
          exact ⟨by simpa using hopens, rfl⟩
        | none => exact ⟨rfl, rulesOf_other hu _⟩
    rw [Reader.reads, Reader.state, rulesOf_append, hline.1, hline.2]
    exact ⟨hrules, hstate⟩

end Dobby.Allowlist
