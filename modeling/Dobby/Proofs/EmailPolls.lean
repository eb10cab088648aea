import Dobby.Model.EmailPoll

namespace Dobby.Email
open CString Allowlist

/-- A UID: digits that name a number of 32 bits other than zero. -/
def uidOf (word : Str) : Option Nat :=
  let n := Nat.ofDigitChars 10 word 0
  if word.all Char.isDigit ∧ 0 < n ∧ n < 2 ^ 32 then some n else none

def sameWord (a b : Str) : Bool := a.map toLower == b.map toLower

/-- The UIDs of a line `* SEARCH ...` or of a line of numbers only. -/
def reportedLine (line : Str) : List Nat :=
  match strtok " ".toList line with
  | [] => []
  | word :: words =>
    if word = "*".toList ∧ words.head?.any (sameWord "SEARCH".toList) then
      words.tail.filterMap uidOf
    else if (word :: words).all (fun w => (uidOf w).isSome) then (word :: words).filterMap uidOf
    else []

/-- The UIDs that a response reports as unseen. -/
def reported (result : Str) : List Nat := (strtok "\r\n".toList result).flatMap reportedLine

def Poll.uids (poll : Poll) : List Nat := (poll.response.map fun r => uidTokens (cstr r)).getD []

def Poll.reported (poll : Poll) : List Nat :=
  (poll.response.map fun r => Email.reported (cstr r)).getD []

/-- The numbers of all polls in their order, each with the outcome of its fetch. -/
def served (polls : List Poll) : List (Nat × Bool) :=
  polls.flatMap fun poll => poll.uids.map fun uid => (uid, (poll.fetch uid).isSome)

/-- The UID was fetched once, or not yet and is still wanted. -/
def Settled (st : Poller) (uid : Nat) : Prop :=
  st.processed.count uid = 1 ∨ (st.processed.count uid = 0 ∧ st.wants uid = true)

/-- The UID turns up behind smaller numbers only, and is fetched there. -/
def ServedFirst (uid : Nat) (tokens : List (Nat × Bool)) : Prop :=
  ∃ before after, tokens = before ++ (uid, true) :: after ∧ ∀ p ∈ before, p.1 < uid

theorem uidOf_some {w : Str} {uid : Nat} (h : uidOf w = some uid) :
    (∀ c ∈ w, c.isDigit = true) ∧ w ≠ [] ∧ 0 < uid ∧ strtoul w = uid := by
  unfold uidOf at h
  dsimp only at h
  split at h
  · rename_i hw
    cases h
    obtain ⟨hdigits, hpos, hsmall⟩ := hw
    have hall : ∀ c ∈ w, c.isDigit = true := List.all_eq_true.mp hdigits
    have hne : w ≠ [] := by
      rintro rfl
      exact absurd hpos (by decide)
    refine ⟨hall, hne, hpos, strtoul_digits hall hne ?_⟩
    have hmax : ulongMax = 2 ^ 64 - 1 := rfl
    omega
  · cases h

theorem reported_word {result : Str} {uid : Nat} (h : uid ∈ reported result) :
    ∃ w ∈ strtok " \r\n".toList result, uidOf w = some uid := by
  have hdelims : ∀ c, c ∈ " \r\n".toList ↔ c ∈ "\r\n".toList ++ " ".toList := by
    intro c
    simp
    tauto
  rw [strtok_congr hdelims, strtok_append]
  obtain ⟨line, hline, huid⟩ := List.mem_flatMap.mp h
  obtain ⟨w, hw, huid⟩ : ∃ w ∈ strtok " ".toList line, uidOf w = some uid := by
    unfold reportedLine at huid
    split at huid
    · cases huid
    · rename_i word words hwords
      rw [hwords]
      split at huid
      · obtain ⟨w, hw, huid⟩ := List.mem_filterMap.mp huid
        exact ⟨w, List.mem_cons_of_mem word (List.mem_of_mem_tail hw), huid⟩
      · split at huid
        · obtain ⟨w, hw, huid⟩ := List.mem_filterMap.mp huid
          exact ⟨w, hw, huid⟩
        · cases huid
  exact ⟨w, List.mem_flatMap.mpr ⟨line, hline, hw⟩, huid⟩

theorem toLower_digit {c : Char} (h : c.isDigit = true) : toLower c = c := by
  rw [Char.isDigit, Bool.and_eq_true, decide_eq_true_eq, decide_eq_true_eq] at h
  have hle : c ≤ '9' := h.2
  refine if_neg ?_
  rintro ⟨hlow, -⟩
  have hwrong : 'A' ≤ '9' := Char.le_trans hlow hle
  exact absurd hwrong (by decide)

/-- The start that `poll_fn` skips has no UID. -/
theorem skipped_word {result w : Str} (hstart : startsWith "* SEARCH".toList result = true)
    (hw : w ∈ strtok " \r\n".toList result) (hdigits : ∀ c ∈ w, c.isDigit = true) :
    w ∈ strtok " \r\n".toList (result.drop 8) := by
  rw [← List.take_append_drop 8 result] at hw
  apply mem_strtok_append _ hw
  intro c hc hcw
  have hpre := List.prefix_iff_eq_take.mp (List.isPrefixOf_iff_prefix.mp hstart)
  have hlower : toLower c ∈ ("* SEARCH".toList).map toLower := by
    rw [hpre, List.length_map, ← List.map_take]
    exact List.mem_map_of_mem hc
  rw [toLower_digit (hdigits c hcw)] at hlower
  have hnone : (("* SEARCH".toList).map toLower).any Char.isDigit = false := by decide
  exact absurd (hdigits c hcw) (List.any_eq_false.mp hnone c hlower)

theorem reported_mem {result : Str} {uid : Nat} (h : uid ∈ reported result) :
    0 < uid ∧ uid ∈ uidTokens result := by
  obtain ⟨w, hw, huid⟩ := reported_word h
  obtain ⟨hdigits, hne, hpos, hvalue⟩ := uidOf_some huid
  refine ⟨hpos, List.mem_map.mpr ⟨w, ?_, hvalue⟩⟩
  have hspace : ∀ c : Char, decide (c = ' ') = true → c ∈ " \r\n".toList := by
    intro c hc
    rw [of_decide_eq_true hc]
    decide
  rw [strtok_dropWhile _ hspace]
  split
  · rename_i hstart
    exact skipped_word hstart hw hdigits
  · exact hw

/-- What a token does to the mark and to the list of processed UIDs. -/
def note (st : Nat × List Nat) (p : Nat × Bool) : Nat × List Nat :=
  if 0 < p.1 ∧ st.1 < p.1 then (p.1, if p.2 then st.2 ++ [p.1] else st.2) else st

def Poller.noted (st : Poller) : Nat × List Nat := (st.lastUid, st.processed)

theorem takeUid_noted (al : Option Allowlist) (fetch : Nat → Option Str) (st : Poller) (uid : Nat) :
    (takeUid al fetch st uid).noted = note st.noted (uid, (fetch uid).isSome) := by
  unfold takeUid note Poller.wants Poller.noted
  by_cases h : 0 < uid ∧ st.lastUid < uid
  · simp [h]
  · have hw : (decide (0 < uid) && decide (st.lastUid < uid)) = false := by simpa using h
    rw [hw, if_neg h]
    rfl

theorem pollOnce_noted (al : Option Allowlist) (st : Poller) (poll : Poll) :
    (pollOnce al st poll).noted =
      (poll.uids.map fun uid => (uid, (poll.fetch uid).isSome)).foldl note st.noted := by
  have hfold : ∀ (uids : List Nat) (st : Poller), (uids.foldl (takeUid al poll.fetch) st).noted =
      (uids.map fun uid => (uid, (poll.fetch uid).isSome)).foldl note st.noted := by
    intro uids
    induction uids with
    | nil => exact fun _ => rfl
    | cons uid uids ih =>
      intro st
      rw [List.foldl_cons, ih, takeUid_noted]
      rfl
  unfold pollOnce Poll.uids
  cases poll.response with
  | none => rfl
  | some result => exact hfold _ st

theorem pollAll_noted (al : Option Allowlist) (polls : List Poll) :
    (pollAll al polls).noted = (served polls).foldl note (0, []) := by
  have hfold : ∀ st : Poller, (polls.foldl (pollOnce al) st).noted =
      (served polls).foldl note st.noted := by
    induction polls with
    | nil => exact fun _ => rfl
    | cons poll polls ih =>
      intro st
      rw [List.foldl_cons, ih, pollOnce_noted]
      exact List.foldl_append.symm
  exact hfold Poller.start

theorem servedFirst_concat {uid : Nat} {tokens : List (Nat × Bool)} {p : Nat × Bool} :
    ServedFirst uid (tokens ++ [p]) ↔
      ServedFirst uid tokens ∨ (p = (uid, true) ∧ ∀ q ∈ tokens, q.1 < uid) := by
  constructor
  · rintro ⟨before, after, heq, hbefore⟩
    rcases List.eq_nil_or_concat after with rfl | ⟨after, q, rfl⟩
    · obtain ⟨rfl, hp⟩ := List.append_inj' heq rfl
      exact Or.inr ⟨List.singleton_inj.mp hp, hbefore⟩
    · rw [List.concat_eq_append, ← List.cons_append, ← List.append_assoc] at heq
      obtain ⟨rfl, -⟩ := List.append_inj' heq rfl
      exact Or.inl ⟨before, after, rfl, hbefore⟩
  · rintro (⟨before, after, rfl, hbefore⟩ | ⟨rfl, hbefore⟩)
    · exact ⟨before, after ++ [p], by rw [List.append_assoc, List.cons_append], hbefore⟩
    · exact ⟨tokens, [], rfl, hbefore⟩

/-- The mark is below a number exactly when all tokens are, and the list has the UIDs
that were served when they first came. -/
theorem foldl_note (tokens : List (Nat × Bool)) :
    (∀ b, 0 < b → ((tokens.foldl note (0, [])).1 < b ↔ ∀ p ∈ tokens, p.1 < b)) ∧
      ∀ uid, 0 < uid →
        (ServedFirst uid tokens → (tokens.foldl note (0, [])).2.count uid = 1) ∧
        (¬ ServedFirst uid tokens → (tokens.foldl note (0, [])).2.count uid = 0) := by
  induction tokens using List.reverseRecOn with
  | nil =>
    refine ⟨fun b hb => iff_of_true hb (fun _ h => absurd h List.not_mem_nil),
      fun uid _ => ⟨?_, fun _ => rfl⟩⟩
    rintro ⟨before, after, heq, -⟩
    exact absurd heq (by simp)
  | append_singleton tokens p ih =>
    obtain ⟨hmark, hcount⟩ := ih
    rw [List.foldl_append, List.foldl_cons, List.foldl_nil]
    generalize tokens.foldl note (0, []) = st at hmark hcount
    by_cases hnew : 0 < p.1 ∧ st.1 < p.1
    · have hbelow := (hmark p.1 hnew.1).mp hnew.2
      have hnote : note st p = (p.1, if p.2 then st.2 ++ [p.1] else st.2) := if_pos hnew
      rw [hnote]
      refine ⟨fun b _ => ⟨fun hb q hq => ?_, fun h => h p (by simp)⟩, fun uid huid => ?_⟩
      · rcases List.mem_append.mp hq with hq | hq
        · exact (hbelow q hq).trans hb
        · rw [List.mem_singleton.mp hq]
          exact hb
      · rw [servedFirst_concat]
        by_cases hsame : uid = p.1
        · have hfirst : ¬ ServedFirst uid tokens := by
            rintro ⟨before, after, rfl, -⟩
            have := hbelow (uid, true) (by simp)
            omega
          have hzero := (hcount uid huid).2 hfirst
          cases hok : p.2 with
          | true =>
            have hp : p = (uid, true) := Prod.ext hsame.symm hok
            rw [← hsame] at hbelow
            refine ⟨fun _ => ?_, fun h => absurd (Or.inr ⟨hp, hbelow⟩) h⟩
            rw [← hsame]
            simp [hzero]
          | false =>
            refine ⟨?_, fun _ => hzero⟩
            rintro (h | ⟨rfl, -⟩)
            · exact absurd h hfirst
            · cases hok
        · have hp : p ≠ (uid, true) := by
            rintro rfl
            exact hsame rfl
          have hkeep : (if p.2 then st.2 ++ [p.1] else st.2).count uid = st.2.count uid := by
            split
            · rw [List.count_append, List.count_singleton, if_neg (by simpa using Ne.symm hsame)]
              rfl
            · rfl
          simp only [hkeep, hp, false_and, or_false]
          exact hcount uid huid
    · have hnote : note st p = st := if_neg hnew
      rw [hnote]
      refine ⟨fun b hb => ?_, fun uid huid => ?_⟩
      · rw [hmark b hb]
        refine ⟨fun h q hq => ?_, fun h q hq => h q (List.mem_append_left _ hq)⟩
        rcases List.mem_append.mp hq with hq | hq
        · exact h q hq
        · have hb' := (hmark b hb).mpr h
          rw [List.mem_singleton.mp hq]
          omega
      · have hold : ¬ (p = (uid, true) ∧ ∀ q ∈ tokens, q.1 < uid) := by
          rintro ⟨rfl, hbelow⟩
          exact hnew ⟨huid, (hmark uid huid).mpr hbelow⟩
        rw [servedFirst_concat, or_iff_left hold]
        exact hcount uid huid

/-- Every reported UID is settled after a run of polls exactly when each was served
when its number first came up. -/
theorem reported_uids_settled_iff (al : Option Allowlist) (polls : List Poll) :
    (∀ poll ∈ polls, ∀ uid ∈ poll.reported, Settled (pollAll al polls) uid) ↔
      ∀ poll ∈ polls, ∀ uid ∈ poll.reported, ServedFirst uid (served polls) := by
  have hnoted := pollAll_noted al polls
  obtain ⟨hmark, hcount⟩ := foldl_note (served polls)
  rw [← hnoted] at hmark
  have hcount' : ∀ uid, 0 < uid → (ServedFirst uid (served polls) →
      (pollAll al polls).processed.count uid = 1) ∧ (¬ ServedFirst uid (served polls) →
        (pollAll al polls).processed.count uid = 0) := by
    rw [← hnoted] at hcount
    exact hcount
  refine forall₂_congr fun poll hpoll => forall₂_congr fun uid huid => ?_
  obtain ⟨hpos, hserved⟩ : 0 < uid ∧ (uid, (poll.fetch uid).isSome) ∈ served polls := by
    unfold Poll.reported at huid
    cases hresponse : poll.response with
    | none =>
      rw [hresponse] at huid
      cases huid
    | some result =>
      rw [hresponse] at huid
      obtain ⟨hpos, hmem⟩ := reported_mem huid
      refine ⟨hpos, List.mem_flatMap.mpr ⟨poll, hpoll, List.mem_map.mpr ⟨uid, ?_, rfl⟩⟩⟩
      rw [Poll.uids, hresponse]
      exact hmem
  have hwants : (pollAll al polls).wants uid = false := by
    have hmark' : ¬ (pollAll al polls).lastUid < uid := fun h =>
      Nat.lt_irrefl uid ((hmark uid hpos).mp h _ hserved)
    simp [Poller.wants, hmark']
  unfold Settled
  rw [hwants]
  by_cases hfirst : ServedFirst uid (served polls)
  · exact iff_of_true (Or.inl ((hcount' uid hpos).1 hfirst)) hfirst
  · have hzero := (hcount' uid hpos).2 hfirst
    simp [hzero, hfirst]

/-- The first fetch of a mail fails, and the next poll passes it over. -/
def retriedPolls : List Poll :=
  [⟨some "* SEARCH 5\r\n".toList, fun _ => none⟩,
    ⟨some "* SEARCH 5\r\n".toList, fun _ => some "From: a@x.org\n\nhi\n".toList⟩]

theorem failed_fetch_not_retried :
    ¬ ∀ poll ∈ retriedPolls, ∀ uid ∈ poll.reported, Settled (pollAll none retriedPolls) uid := by
  intro h
  have hreported : 5 ∈ (Poll.mk (some "* SEARCH 5\r\n".toList) fun _ => none).reported := by
    decide +kernel
  have hsettled := h _ List.mem_cons_self 5 hreported
  have hlost : (pollAll none retriedPolls).processed.count 5 = 0 ∧
      (pollAll none retriedPolls).wants 5 = false := by
    decide +kernel
  rw [Settled, hlost.1, hlost.2] at hsettled
  simp at hsettled

end Dobby.Email
