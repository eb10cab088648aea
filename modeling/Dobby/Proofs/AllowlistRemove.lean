import Dobby.Model.Allowlist

namespace Dobby.Allowlist
open CString

/-- The allowlists that the three calls make of a new one. -/
inductive Built : Allowlist → Prop where
  | created : Built allowlistCreate
  | loaded (before : Built al) (fs : Fs) (path : Str) : Built (allowlistLoad fs al path).2
  | added (before : Built al) (type : AclType) (pattern : Str) : Built (allowlistAdd al type pattern).2
  | removed (before : Built al) (type : AclType) (pattern : Str) :
      Built (allowlistRemove al type pattern).2

/-- The rules whose pattern differs from this one in more than the case of letters. -/
def others (rules : List Str) (pattern : Str) : List Str :=
  rules.filter (fun rule => !strcaseEq rule pattern)

/-- The rules with this pattern in any case, without the first one. -/
def repeats (rules : List Str) (pattern : Str) : List Str :=
  (rules.filter (fun rule => strcaseEq rule pattern)).tail

/-- A removal that returned true took the pattern away and nothing else. -/
structure Revoked (before after : Allowlist) (type : AclType) (pattern : Str) : Prop where
  kept : others (after type).rules pattern = others (before type).rules pattern
  checks : ∀ v, allowlistCheck after type v = true →
    ∃ rule ∈ others (after type).rules pattern, ruleAdmits type v rule = true

/-- What a second rule with the pattern lets pass, another rule lets pass too. -/
def Covered (al : Allowlist) (type : AclType) (pattern : Str) : Prop :=
  ∀ rule ∈ repeats (al type).rules pattern, ∀ v, ruleAdmits type v rule = true →
    ∃ other ∈ others (al type).rules pattern, ruleAdmits type v other = true

/-- A list is enabled as long as it has rules. -/
def Switched (al : Allowlist) : Prop := ∀ type, (al type).enabled = !(al type).rules.isEmpty

theorem Switched.add {al : Allowlist} (h : Switched al) (type : AclType) (pattern : Str) :
    Switched (allowlistAdd al type pattern).2 := by
  intro u
  unfold allowlistAdd
  split
  · by_cases hu : u = type
    · subst hu
      simp
    · simp [Function.update_of_ne hu, h u]
  · exact h u

theorem Switched.addAll {al : Allowlist} (h : Switched al) (type : AclType) (vs : List Str) :
    Switched (vs.foldl (fun al v => (allowlistAdd al type v).2) al) := by
  induction vs generalizing al with
  | nil => exact h
  | cons v vs ih => exact ih (h.add type v)

theorem Switched.loadLine {st : AclType × Allowlist} (h : Switched st.2) (line : Str) :
    Switched (loadLine st line).2 := by
  unfold Allowlist.loadLine
  dsimp only
  split
  · exact h
  · split
    · exact h
    · exact h.addAll st.1 _

theorem Switched.loadLines {st : AclType × Allowlist} (h : Switched st.2) (ls : List Str) :
    Switched (ls.foldl Allowlist.loadLine st).2 := by
  induction ls generalizing st with
  | nil => exact h
  | cons line ls ih => exact ih (h.loadLine line)

theorem Switched.load {al : Allowlist} (h : Switched al) (fs : Fs) (path : Str) :
    Switched (allowlistLoad fs al path).2 := by
  unfold allowlistLoad
  split
  · exact h
  · have hstart : Switched (AclType.command, al).2 := h
    exact hstart.loadLines _

theorem Switched.remove {al : Allowlist} (h : Switched al) (type : AclType) (pattern : Str) :
    Switched (allowlistRemove al type pattern).2 := by
  intro u
  unfold allowlistRemove
  split
  · rename_i hfound
    by_cases hu : u = type
    · subst hu
      have hsome : (al u).rules ≠ [] := by
        intro hnil
        rw [hnil] at hfound
        cases hfound
      simp [h u, hsome]
    · simp [Function.update_of_ne hu, h u]
  · exact h u

theorem Built.switched (h : Built al) : Switched al := by
  induction h with
  | created => exact fun _ => rfl
  | loaded before fs path ih => exact ih.load fs path
  | added before type pattern ih => exact ih.add type pattern
  | removed before type pattern ih => exact ih.remove type pattern

section Erase

variable (p : Str → Bool) (rules : List Str)

/-- The first rule that fits goes, so the others stay. -/
theorem eraseP_others : (rules.eraseP p).filter (fun r => !p r) = rules.filter (fun r => !p r) := by
  induction rules with
  | nil => rfl
  | cons r rules ih =>
    by_cases hr : p r = true
    · rw [List.eraseP_cons_of_pos hr, List.filter_cons_of_neg (by simp [hr])]
    · rw [List.eraseP_cons_of_neg hr, List.filter_cons_of_pos (by simp [hr]),
        List.filter_cons_of_pos (by simp [hr]), ih]

theorem eraseP_repeats : (rules.eraseP p).filter p = (rules.filter p).tail := by
  induction rules with
  | nil => rfl
  | cons r rules ih =>
    by_cases hr : p r = true
    · rw [List.eraseP_cons_of_pos hr, List.filter_cons_of_pos hr, List.tail_cons]
    · rw [List.eraseP_cons_of_neg hr, List.filter_cons_of_neg hr, List.filter_cons_of_neg hr, ih]

end Erase

section Removal

variable {al : Allowlist} {type : AclType} {pattern : Str}
  (hfound : (allowlistRemove al type pattern).1 = true)
include hfound

theorem removed_rules : ((allowlistRemove al type pattern).2 type).rules =
    (al type).rules.eraseP (fun rule => strcaseEq rule pattern) := by
  unfold allowlistRemove at hfound ⊢
  split at hfound
  · rename_i hany
    rw [if_pos hany]
    simp
  · cases hfound

/-- A removal that finds the pattern takes it away for good exactly if it is covered. -/
theorem removal_revokes_iff (hal : Built al)
    (hleft : ((allowlistRemove al type pattern).2 type).rules ≠ []) :
    Revoked al (allowlistRemove al type pattern).2 type pattern ↔ Covered al type pattern := by
  have hrules := removed_rules hfound
  have henabled := (hal.switched.remove type pattern) type
  generalize (allowlistRemove al type pattern).2 = after at hrules henabled hleft ⊢
  have hothers : others (after type).rules pattern = others (al type).rules pattern := by
    rw [hrules]
    exact eraseP_others _ _
  have hrepeats : (after type).rules.filter (fun rule => strcaseEq rule pattern) =
      repeats (al type).rules pattern := by
    rw [hrules]
    exact eraseP_repeats _ _
  have hcheck (v : Str) : allowlistCheck after type v = true ↔
      ∃ rule ∈ (after type).rules, ruleAdmits type v rule = true := by
    have hon : (after type).enabled = true := by simp [henabled, hleft]
    rw [allowlistCheck, if_pos hon, List.any_eq_true]
  constructor
  · intro h rule hrule v hv
    rw [← hrepeats] at hrule
    rw [← hothers]
    exact h.checks v ((hcheck v).mpr ⟨rule, (List.mem_filter.mp hrule).1, hv⟩)
  · intro h
    refine ⟨hothers, ?_⟩
    intro v hv
    obtain ⟨rule, hrule, hadmits⟩ := (hcheck v).mp hv
    by_cases hsame : strcaseEq rule pattern = true
    · have hmem : rule ∈ repeats (al type).rules pattern := by
        rw [← hrepeats]
        exact List.mem_filter.mpr ⟨hrule, hsame⟩
      rw [hothers]
      exact h rule hmem v hadmits
    · exact ⟨rule, List.mem_filter.mpr ⟨hrule, by simp [hsame]⟩, hadmits⟩

end Removal

def twoSenders : Allowlist :=
  (allowlistAdd (allowlistAdd allowlistCreate .email "a@example.com".toList).2 .email
    "b@example.com".toList).2

theorem sender_revoked : Revoked twoSenders (allowlistRemove twoSenders .email "B@example.com".toList).2
    .email "B@example.com".toList := by
  have hal : Built twoSenders := .added (.added .created _ _) _ _
  refine (removal_revokes_iff (by decide) hal (by decide)).mpr ?_
  intro rule hrule
  have hnil : repeats (twoSenders .email).rules "B@example.com".toList = [] := by decide
  rw [hnil] at hrule
  cases hrule

/-- The address that is removed was entered twice. -/
def sameSender : Allowlist :=
  (allowlistAdd (allowlistAdd allowlistCreate .email "a@example.com".toList).2 .email
    "a@example.com".toList).2

theorem repeated_sender_stays : Built sameSender ∧
    (allowlistRemove sameSender .email "a@example.com".toList).1 = true ∧
    allowlistCheck (allowlistRemove sameSender .email "a@example.com".toList).2 .email
      "a@example.com".toList = true ∧
    others ((allowlistRemove sameSender .email "a@example.com".toList).2 .email).rules
      "a@example.com".toList = [] := by
  refine ⟨.added (.added .created _ _) _ _, by decide, by decide, by decide⟩

end Dobby.Allowlist
