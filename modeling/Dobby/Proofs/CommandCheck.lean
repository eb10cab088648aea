import Dobby.Model.Shell

namespace Dobby.Shell
open CString Glob Allowlist

/-- Where the shell ends one simple command and starts the next. -/
def isSeparator (c : Char) : Bool := c = ';' || c = '&' || c = '|' || c = '\n'

/-- The commands that the shell finds in a string without quotes. -/
def simpleCommands (s : Str) : List Str :=
  ((s.splitOnP isSeparator).map strTrim).filter (fun t => t ≠ [])

/-- No quotes, backslashes, expansions or redirections. -/
def Unquoted (s : Str) : Prop :=
  ∀ c ∈ ['\'', '"', '\\', '$', '`', '*', '?', '[', '<', '>'], c ∉ s

instance (s : Str) : Decidable (Unquoted s) := List.decidableBAll _ _

/-- Whatever rules let the string pass let each of its commands pass. -/
def Confined (s : Str) : Prop :=
  ∀ (al : Allowlist) (args : Json) (timeout : Int), (al .command).rules ≠ [] →
    shellExecute (some al) args = .ran s timeout →
      ∀ t ∈ simpleCommands s, allowlistCheck al .command t = true

/-- One command with no blanks around it, or nothing but separators and blanks. -/
def Lone (s : Str) : Prop :=
  ((∀ c ∈ s, isSeparator c = false) ∧ strTrim s = s) ∨
    ∀ c ∈ s, isSeparator c = true ∨ isSpace c = true

theorem splitOnP_piece {p : Char → Bool} {s t : Str} (h : t ∈ s.splitOnP p) :
    t.Sublist s ∧ ∀ c ∈ t, p c = false := by
  induction s generalizing t with
  | nil =>
    rw [List.splitOnP_nil, List.mem_singleton] at h
    subst h
    exact ⟨List.Sublist.refl _, fun _ hc => absurd hc List.not_mem_nil⟩
  | cons c s ih =>
    rw [List.splitOnP_cons_eq_if_modifyHead] at h
    split at h
    · rcases List.mem_cons.mp h with rfl | h
      · exact ⟨List.nil_sublist _, fun _ hc => absurd hc List.not_mem_nil⟩
      · exact ⟨(ih h).1.cons c, (ih h).2⟩
    · rename_i hc
      cases hs : s.splitOnP p with
      | nil => exact absurd hs (List.splitOnP_ne_nil p s)
      | cons l ls =>
        rw [hs, List.modifyHead_cons] at h
        rcases List.mem_cons.mp h with rfl | h
        · obtain ⟨hsub, hall⟩ := ih (t := l) (by rw [hs]; exact List.mem_cons_self)
          refine ⟨hsub.cons_cons c, fun d hd => ?_⟩
          rcases List.mem_cons.mp hd with rfl | hd
          · exact Bool.eq_false_of_not_eq_true hc
          · exact hall d hd
        · obtain ⟨hsub, hall⟩ := ih (t := t) (by rw [hs]; exact List.mem_cons_of_mem _ h)
          exact ⟨hsub.cons c, hall⟩

/-- Every character is a separator or stands in a piece. -/
theorem splitOnP_cover {p : Char → Bool} {s : Str} {c : Char} (hc : c ∈ s) :
    p c = true ∨ ∃ t ∈ s.splitOnP p, c ∈ t := by
  induction s with
  | nil => exact absurd hc List.not_mem_nil
  | cons d s ih =>
    rw [List.splitOnP_cons_eq_if_modifyHead]
    by_cases hd : p d = true
    · rw [if_pos hd]
      rcases List.mem_cons.mp hc with rfl | hc
      · exact Or.inl hd
      · refine (ih hc).imp_right ?_
        rintro ⟨t, ht, hct⟩
        exact ⟨t, List.mem_cons_of_mem _ ht, hct⟩
    · rw [if_neg hd]
      obtain ⟨l, ls, hs⟩ := List.exists_cons_of_ne_nil (List.splitOnP_ne_nil p s)
      rw [hs, List.modifyHead_cons]
      rcases List.mem_cons.mp hc with rfl | hc
      · exact Or.inr ⟨c :: l, List.mem_cons_self, List.mem_cons_self⟩
      · refine (ih hc).imp_right ?_
        rintro ⟨t, ht, hct⟩
        rw [hs] at ht
        rcases List.mem_cons.mp ht with rfl | ht
        · exact ⟨d :: t, List.mem_cons_self, List.mem_cons_of_mem d hct⟩
        · exact ⟨t, List.mem_cons_of_mem _ ht, hct⟩

theorem strTrim_eq_nil {s : Str} : strTrim s = [] ↔ ∀ c ∈ s, isSpace c = true := by
  rw [strTrim, List.reverse_eq_nil_iff, List.dropWhile_eq_nil_iff]
  constructor
  · intro h
    apply List.dropWhile_eq_nil_iff.mp
    by_contra hne
    have hhead := List.head_dropWhile_not isSpace hne
    rw [h _ (List.mem_reverse.mpr (List.head_mem hne))] at hhead
    cases hhead
  · intro h
    rw [List.dropWhile_eq_nil_iff.mpr h]
    exact fun c hc => absurd hc List.not_mem_nil

theorem ran_command {al : Option Allowlist} (h : shellExecute al args = .ran s timeout) :
    s ≠ [] ∧ blocks al s = false := by
  rw [shellExecute] at h
  split at h
  · cases h
  · cases h
  · rename_i hne _
    split at h
    · cases h
    · rename_i hb
      cases h
      exact ⟨hne, Bool.eq_false_of_not_eq_true hb⟩

theorem ran_admitted {al : Allowlist} (h : shellExecute (some al) args = .ran s timeout) :
    allowlistCheck al .command s = true := by
  have hb := (ran_command h).2
  rw [blocks, allowlistIsEnabled] at hb
  cases he : (al .command).enabled with
  | false => rw [allowlistCheck, he, if_neg Bool.false_ne_true]
  | true =>
    rw [he, Bool.true_and] at hb
    simpa using hb

/-- The list with this one rule for commands. -/
def onlyRule (pattern : Str) : Allowlist :=
  (allowlistAdd allowlistCreate .command pattern).2

theorem onlyRule_check {pattern : Str} (h : Literal pattern) (s : Str) :
    allowlistCheck (onlyRule pattern) .command s = true ↔
      s = pattern ∨ commandName s = some pattern := by
  have hcheck : allowlistCheck (onlyRule pattern) .command s = ruleAdmits .command s pattern := by
    simp [allowlistCheck, onlyRule, allowlistAdd, allowlistCreate, maxRules]
  rw [hcheck, ruleAdmits, Bool.or_eq_true, fnmatch_literal h]
  cases commandName s with
  | none => simp
  | some name => simp [fnmatch_literal h]

theorem Unquoted.literal {s : Str} (h : Unquoted s) : Literal s :=
  ⟨h '*' (by decide), h '?' (by decide), h '[' (by decide), h '\\' (by decide)⟩

/-- The rule that is the string itself lets no shorter command pass. -/
theorem Confined.commands_eq {s : Str} (h : Confined s) (hu : Unquoted s) (hne : s ≠ []) :
    ∀ t ∈ simpleCommands s, t = s := by
  intro t ht
  have hran : shellExecute (some (onlyRule s)) (.object [("command".toList, .string s)]) =
      .ran s (timeoutOf (.object [("command".toList, .string s)])) := by
    have hself : allowlistCheck (onlyRule s) .command s = true :=
      (onlyRule_check hu.literal s).mpr (Or.inl rfl)
    obtain ⟨c, r, rfl⟩ := List.exists_cons_of_ne_nil hne
    have hb : blocks (some (onlyRule (c :: r))) (c :: r) = false := by
      rw [blocks, hself, Bool.not_true, Bool.and_false]
    have hfield : (Json.object [("command".toList, .string (c :: r))]).field "command".toList =
        some (c :: r) := rfl
    rw [shellExecute, hfield]
    simp only [hb, Bool.false_eq_true, if_false]
  have hok := h (onlyRule s) _ _ (by simp [onlyRule, allowlistAdd, allowlistCreate, maxRules])
    hran t ht
  rcases (onlyRule_check hu.literal t).mp hok with he | hname
  · exact he
  rw [simpleCommands, List.mem_filter, List.mem_map] at ht
  obtain ⟨⟨piece, hp, rfl⟩, _⟩ := ht
  have hlen := (strTrim_length piece).trans (splitOnP_piece hp).1.length_le
  rw [commandName] at hname
  split at hname
  · rename_i hspace
    obtain ⟨a, b, hab, ha⟩ := List.eq_append_cons_of_mem hspace
    have htake : (strTrim piece).takeWhile (fun c => c ≠ ' ') = a := by
      rw [hab, List.takeWhile_append_of_pos (fun c hc => by
        simpa using ne_of_mem_of_not_mem hc ha)]
      simp
    rw [htake, Option.some.injEq] at hname
    rw [hab, hname, List.length_append, List.length_cons] at hlen
    omega
  · cases hname

/-- A string is confined whatever the rules exactly when it is one trimmed command:
the check looks at the whole string and at its first word, never behind a separator. -/
theorem shell_confined_iff {s : Str} (hu : Unquoted s) : Confined s ↔ Lone s := by
  constructor
  · intro h
    by_cases hne : s = []
    · subst hne
      exact Or.inr (fun c hc => absurd hc List.not_mem_nil)
    have heq := h.commands_eq hu hne
    by_cases hnone : simpleCommands s = []
    · right
      intro c hc
      refine (splitOnP_cover hc).imp_right ?_
      rintro ⟨t, ht, hct⟩
      have htrim : strTrim t = [] := by
        by_contra hn
        have hmem : strTrim t ∈ simpleCommands s :=
          List.mem_filter.mpr ⟨List.mem_map_of_mem ht, by simpa using hn⟩
        rw [hnone] at hmem
        exact absurd hmem List.not_mem_nil
      exact strTrim_eq_nil.mp htrim c hct
    · left
      obtain ⟨t, ts, hts⟩ := List.exists_cons_of_ne_nil hnone
      have hmem : t ∈ simpleCommands s := by
        rw [hts]
        exact List.mem_cons_self
      have ht := heq t hmem
      rw [simpleCommands, List.mem_filter, List.mem_map] at hmem
      obtain ⟨⟨piece, hp, hpiece⟩, _⟩ := hmem
      obtain ⟨hsub, hplain⟩ := splitOnP_piece hp
      have hlen := strTrim_length piece
      rw [hpiece, ht] at hlen
      obtain rfl := hsub.eq_of_length_le hlen
      exact ⟨hplain, hpiece.trans ht⟩
  · intro h al args timeout _ hran t ht
    have hok := ran_admitted hran
    rw [simpleCommands, List.mem_filter, List.mem_map] at ht
    obtain ⟨⟨piece, hp, rfl⟩, hne⟩ := ht
    rcases h with ⟨hplain, htrim⟩ | hblank
    · rw [List.splitOnP_eq_singleton hplain, List.mem_singleton] at hp
      rw [hp, htrim]
      exact hok
    · obtain ⟨hsub, hplain⟩ := splitOnP_piece hp
      have hspace : ∀ c ∈ piece, isSpace c = true := by
        intro c hc
        rcases hblank c (hsub.subset hc) with hs | hs
        · rw [hplain c hc] at hs
          cases hs
        · exact hs
      rw [strTrim_eq_nil.mpr hspace] at hne
      simp at hne

/-- A command with its arguments. -/
theorem shell_confined_ls : Confined "ls -l /tmp".toList :=
  (shell_confined_iff (by decide)).mpr (Or.inl ⟨by simp [isSeparator], by decide⟩)

/-- The rule `ls` lets a second command through behind a semicolon. -/
theorem rule_admits_second_command :
    Unquoted "ls ;rm x".toList ∧ ¬ Confined "ls ;rm x".toList := by
  refine ⟨by decide, fun h => ?_⟩
  have hran : shellExecute (some (onlyRule "ls".toList))
      (.object [("command".toList, .string "ls ;rm x".toList)]) = .ran "ls ;rm x".toList 30 := rfl
  have hok := h (onlyRule "ls".toList) _ _ (by decide) hran "rm x".toList (by decide)
  exact absurd hok (by decide)

end Dobby.Shell
