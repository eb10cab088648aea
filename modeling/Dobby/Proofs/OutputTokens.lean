import Dobby.Model.Output

namespace Dobby.Output
open Ansi

inductive Token where
  | csi (body : Str) (final : Option Char)
  | escape (c : Char)
  | loneEscape
  | carriageReturn
  | kept (c : Char)
  | other (c : Char)

def isKept (c : Char) : Bool := (0x20 ≤ c.toNat && c.toNat ≤ 0x7e) || c = '\n' || c = '\t'

/-- The token at the start of a text, and the text behind it. -/
def nextToken (c : Char) (cs : Str) : Token × Str :=
  if c = '\x1b' then
    match cs with
    | [] => (.loneEscape, [])
    | d :: ds =>
      if d = '[' then
        let behind := ds.dropWhile (fun e => !isFinal e)
        (.csi (ds.takeWhile (fun e => !isFinal e)) behind.head?, behind.tail)
      else if 0x40 ≤ d.toNat ∧ d.toNat ≤ 0x5f then (.escape d, ds)
      else (.loneEscape, d :: ds)
  else if c = '\r' then (.carriageReturn, cs)
  else if isKept c then (.kept c, cs)
  else (.other c, cs)

theorem nextToken_length (c : Char) (cs : Str) : (nextToken c cs).2.length ≤ cs.length := by
  unfold nextToken
  split
  · cases cs with
    | nil => exact Nat.le_refl _
    | cons d ds =>
      dsimp only
      split
      · have := (List.dropWhile_suffix (fun e => !isFinal e) (l := ds)).length_le
        simp only [List.length_tail, List.length_cons]
        omega
      · split <;> simp
  · split
    · exact Nat.le_refl _
    · split <;> exact Nat.le_refl _

def tokens : Str → List Token
  | [] => []
  | c :: cs => (nextToken c cs).1 :: tokens (nextToken c cs).2
termination_by s => s.length
decreasing_by
  exact Nat.lt_succ_of_le (nextToken_length c cs)

/-- The bytes of a token. -/
def Token.text : Token → Str
  | .csi body final => '\x1b' :: '[' :: (body ++ final.toList)
  | .escape c => ['\x1b', c]
  | .loneEscape => ['\x1b']
  | .carriageReturn => ['\r']
  | .kept c | .other c => [c]

def Token.keptText : Token → Str
  | .kept c => [c]
  | _ => []

/-- What is kept of a text. -/
def keptOf (s : Str) : Str := (tokens s).flatMap Token.keptText

theorem nextToken_text (c : Char) (cs : Str) :
    (nextToken c cs).1.text ++ (nextToken c cs).2 = c :: cs := by
  unfold nextToken
  split
  · rename_i hc
    subst hc
    cases cs with
    | nil => rfl
    | cons d ds =>
      dsimp only
      split
      · rename_i hd
        subst hd
        have hbehind (t : Str) : t.head?.toList ++ t.tail = t := by cases t <;> rfl
        simp only [Token.text, List.cons_append, List.append_assoc, hbehind,
          List.takeWhile_append_dropWhile]
      · split <;> rfl
  · split
    · rename_i hc
      rw [hc]
      rfl
    · split <;> rfl

/-- The tokens are the whole text. -/
theorem tokens_text (s : Str) : (tokens s).flatMap Token.text = s := by
  induction s using tokens.induct with
  | case1 => simp [tokens]
  | case2 c cs ih => rw [tokens, List.flatMap_cons, ih, nextToken_text]

theorem skipCsi_eq {ds : Str} (h : '\x00' ∉ ds) :
    skipCsi (ds ++ ['\x00']) = some (ds.dropWhile (fun e => !isFinal e) ++ ['\x00']) := by
  induction ds with
  | nil => rfl
  | cons e es ih =>
    obtain ⟨he, hes⟩ := List.ne_and_not_mem_of_not_mem_cons h
    rw [List.cons_append, skipCsi]
    by_cases hfinal : isFinal e = true
    · have hstop : ¬ (e ≠ '\x00' ∧ (e.toNat < 0x40 ∨ 0x7e < e.toNat)) := by
        simp only [isFinal, Bool.and_eq_true, decide_eq_true_eq] at hfinal
        omega
      rw [if_neg hstop, List.dropWhile_cons_of_neg (by simp [hfinal])]
      rfl
    · have hgo : e ≠ '\x00' ∧ (e.toNat < 0x40 ∨ 0x7e < e.toNat) := by
        simp only [isFinal, Bool.and_eq_true, decide_eq_true_eq] at hfinal
        exact ⟨Ne.symm he, by omega⟩
      rw [if_pos hgo, List.dropWhile_cons_of_pos (by simp [hfinal]), ih hes]

theorem sanitizeFrom_done : sanitizeFrom ['\x00'] = some [] := by simp [sanitizeFrom]

/-- One turn of the loop takes one token. -/
theorem sanitizeFrom_token {c : Char} {cs : Str} (h : '\x00' ∉ c :: cs) :
    sanitizeFrom (c :: cs ++ ['\x00']) =
      (sanitizeFrom ((nextToken c cs).2 ++ ['\x00'])).map ((nextToken c cs).1.keptText ++ ·) := by
  obtain ⟨hc, hcs⟩ := List.ne_and_not_mem_of_not_mem_cons h
  rw [List.cons_append, sanitizeFrom.eq_def]
  dsimp only
  rw [if_neg (Ne.symm hc)]
  unfold nextToken
  by_cases hescape : c = '\x1b'
  · rw [if_pos hescape, if_pos hescape]
    cases cs with
    | nil => simp [Token.keptText]
    | cons d ds =>
      obtain ⟨-, hds⟩ := List.ne_and_not_mem_of_not_mem_cons hcs
      rw [List.cons_append]
      dsimp only
      by_cases hcsi : d = '['
      · rw [if_pos hcsi, if_pos hcsi]
        split
        · rename_i hskip
          rw [skipCsi_eq hds] at hskip
          cases hskip
        · rename_i hskip
          rw [skipCsi_eq hds] at hskip
          simp at hskip
        · rename_i e es hskip
          rw [skipCsi_eq hds] at hskip
          have hsub := List.dropWhile_subset (fun e => !isFinal e) (l := ds)
          generalize ds.dropWhile (fun e => !isFinal e) = behind at hskip hsub
          cases behind with
          | nil =>
            cases hskip
            simp [Token.keptText]
          | cons x xs =>
            have hx : x ≠ '\x00' := fun hx => hds (hsub (hx ▸ List.mem_cons_self))
            cases hskip
            rw [if_neg hx]
            simp [Token.keptText]
      · rw [if_neg hcsi, if_neg hcsi]
        by_cases htwo : 0x40 ≤ d.toNat ∧ d.toNat ≤ 0x5f
        · rw [if_pos htwo, if_pos htwo]
          simp [Token.keptText]
        · rw [if_neg htwo, if_neg htwo]
          simp [Token.keptText]
  · rw [if_neg hescape, if_neg hescape]
    by_cases hreturn : c = '\r'
    · rw [if_pos hreturn, if_pos hreturn]
      cases cs <;> simp [Token.keptText]
    · rw [if_neg hreturn, if_neg hreturn]
      by_cases hspace : c = '\n' ∨ c = '\t'
      · have hkept : isKept c = true := by
          rcases hspace with rfl | rfl <;> rfl
        rw [if_pos hspace, if_pos hkept]
        rfl
      · rw [if_neg hspace]
        by_cases hprintable : 0x20 ≤ c.toNat ∧ c.toNat ≤ 0x7e
        · have hkept : isKept c = true := by simp [isKept, hprintable]
          rw [if_pos hprintable, if_pos hkept]
          rfl
        · have hkept : ¬ isKept c = true := by
            simp only [isKept, Bool.or_eq_true, Bool.and_eq_true, decide_eq_true_eq]
            exact fun h => h.elim (fun h => h.elim hprintable (hspace ∘ .inl)) (hspace ∘ .inr)
          rw [if_neg hprintable, if_neg hkept]
          simp [Token.keptText]

/-- The code keeps what the tokens keep. -/
theorem sanitizeFrom_eq {s : Str} (h : '\x00' ∉ s) : sanitizeFrom (s ++ ['\x00']) = some (keptOf s) := by
  induction s using tokens.induct with
  | case1 => simp [sanitizeFrom_done, keptOf, tokens]
  | case2 c cs ih =>
    have hrest : '\x00' ∉ (nextToken c cs).2 := by
      intro hmem
      apply h
      rw [← nextToken_text c cs]
      exact List.mem_append_right _ hmem
    rw [sanitizeFrom_token h, ih hrest, Option.map_some, keptOf, keptOf, tokens, List.flatMap_cons]

theorem isKept_of_token {c d : Char} {cs : Str} (h : (nextToken d cs).1 = .kept c) : isKept c = true := by
  unfold nextToken at h
  split at h
  · cases cs with
    | nil => cases h
    | cons e es =>
      dsimp only at h
      split at h
      · cases h
      · split at h <;> cases h
  · split at h
    · cases h
    · split at h
      · rename_i hkept
        cases h
        exact hkept
      · cases h

theorem keptOf_kept {s : Str} {c : Char} (h : c ∈ keptOf s) : isKept c = true := by
  induction s using tokens.induct with
  | case1 => simp [keptOf, tokens] at h
  | case2 d cs ih =>
    rw [keptOf, tokens, List.flatMap_cons] at h
    rcases List.mem_append.mp h with h | h
    · have hfirst : (nextToken d cs).1 = .kept c := by
        cases htoken : (nextToken d cs).1 with
        | kept e =>
          rw [htoken] at h
          rw [List.mem_singleton.mp h]
        | _ =>
          rw [htoken] at h
          cases h
      exact isKept_of_token hfirst
    · exact ih h

theorem nextToken_kept {c : Char} (h : isKept c = true) (cs : Str) : nextToken c cs = (.kept c, cs) := by
  have hescape : c ≠ '\x1b' := by
    rintro rfl
    exact absurd h (by decide)
  have hreturn : c ≠ '\r' := by
    rintro rfl
    exact absurd h (by decide)
  unfold nextToken
  rw [if_neg hescape, if_neg hreturn, if_pos h]

theorem keptOf_of_kept {s : Str} (h : ∀ c ∈ s, isKept c = true) : keptOf s = s := by
  induction s with
  | nil => simp [keptOf, tokens]
  | cons c cs ih =>
    have hc := nextToken_kept (h c List.mem_cons_self) cs
    have hcs : keptOf cs = cs := ih (fun d hd => h d (List.mem_cons_of_mem c hd))
    rw [keptOf, tokens, hc, List.flatMap_cons]
    exact congrArg (c :: ·) hcs

theorem null_not_kept {s : Str} (h : ∀ c ∈ s, isKept c = true) : '\x00' ∉ s :=
  fun hmem => absurd (h _ hmem) (by decide)

/-- Sanitising reads no further than the terminator and keeps what the tokens keep; the
result is plain text, and plain text stays as it is. -/
theorem sanitize_output_tokens {s : Str} (h : '\x00' ∉ s) :
    sanitizeOutput (some s) = some (keptOf s) ∧
      (∀ c ∈ keptOf s, isKept c = true) ∧
      ((∀ c ∈ s, isKept c = true) → sanitizeOutput (some s) = some s) ∧
      sanitizeOutput (some (keptOf s)) = some (keptOf s) := by
  have hplain {t : Str} (ht : ∀ c ∈ t, isKept c = true) : sanitizeOutput (some t) = some t := by
    rw [sanitizeOutput, sanitizeFrom_eq (null_not_kept ht), keptOf_of_kept ht]
  have hkept : ∀ c ∈ keptOf s, isKept c = true := fun c hc => keptOf_kept hc
  exact ⟨sanitizeFrom_eq h, hkept, hplain, hplain hkept⟩

theorem colour_sanitized :
    sanitizeOutput (some "\x1b[31mred\r\n\x1b[0".toList) = some "red\n".toList := by
  have hnull : '\x00' ∉ "\x1b[31mred\r\n\x1b[0".toList := by decide
  have hkept : keptOf "\x1b[31mred\r\n\x1b[0".toList = "red\n".toList := by
    simp [keptOf, tokens, nextToken, isKept, isFinal, Token.keptText]
  rw [(sanitize_output_tokens hnull).1, hkept]

end Dobby.Output
