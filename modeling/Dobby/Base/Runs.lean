import Mathlib.Data.List.Basic
import Mathlib.Data.List.Induction

namespace Dobby.Runs

/-- Finite runs of a labelled step relation, newest step last. -/
inductive Run (step : σ → ε → σ → Prop) (start : σ) : List ε → σ → Prop where
  | nil : Run step start [] start
  | snoc (run : Run step start es s) (last : step s e t) : Run step start (es ++ [e]) t

/-- Steps taken only from states and with labels that meet a condition. -/
def Guarded (step : σ → ε → σ → Prop) (good : σ → ε → Prop) : σ → ε → σ → Prop :=
  fun s e t => good s e ∧ step s e t

/-- What holds at the start and survives each step holds at the end of a run. -/
theorem Run.invariant {step : σ → ε → σ → Prop} {P : σ → Prop}
    (hrun : Run step start es s) (h0 : P start)
    (hstep : ∀ s e t, P s → step s e t → P t) : P s := by
  induction hrun with
  | nil => exact h0
  | snoc run last ih => exact hstep _ _ _ ih last

/-- The first label of a kind that a run has. -/
theorem Run.first {step : σ → ε → σ → Prop} {P : ε → Prop} (h : Run step start es t)
    (hex : ∃ e ∈ es, P e) :
    ∃ p e q s u, es = p ++ e :: q ∧ Run step start p s ∧ step s e u ∧ P e ∧ ∀ x ∈ p, ¬ P x := by
  induction h with
  | nil =>
    obtain ⟨e, he, -⟩ := hex
    cases he
  | @snoc es s e u run last ih =>
    by_cases hbefore : ∃ e ∈ es, P e
    · obtain ⟨p, e', q, s', u', rfl, hspec⟩ := ih hbefore
      exact ⟨p, e', q ++ [e], s', u', by simp, hspec⟩
    · have hnone : ∀ x ∈ es, ¬ P x := fun x hx hP => hbefore ⟨x, hx, hP⟩
      obtain ⟨x, hx, hP⟩ := hex
      rcases List.mem_append.mp hx with hx | hx
      · exact absurd hP (hnone x hx)
      · rw [List.mem_singleton.mp hx] at hP
        exact ⟨es, e, [], s, u, rfl, run, last, hP, hnone⟩

/-- The same rule for properties that also speak of the labels so far. -/
theorem Run.invariant_log {step : σ → ε → σ → Prop} {P : List ε → σ → Prop}
    (hrun : Run step start es s) (h0 : P [] start)
    (hstep : ∀ es s e t, P es s → step s e t → P (es ++ [e]) t) : P es s := by
  induction hrun with
  | nil => exact h0
  | snoc run last ih => exact hstep _ _ _ _ ih last

theorem Run.append {step : σ → ε → σ → Prop} (h₁ : Run step s es t)
    (h₂ : Run step t fs u) : Run step s (es ++ fs) u := by
  induction h₂ with
  | nil => simpa using h₁
  | snoc run last ih =>
    rw [← List.append_assoc]
    exact .snoc ih last

theorem Run.single {step : σ → ε → σ → Prop} (h : step s e t) : Run step s [e] t := by
  simpa using Run.snoc (.nil : Run step s [] s) h

theorem Run.cons {step : σ → ε → σ → Prop} (h : step s e t) (rest : Run step t es u) :
    Run step s (e :: es) u :=
  (Run.single h).append rest

/-- A run over a concatenated log passes through an intermediate state. -/
theorem Run.split {step : σ → ε → σ → Prop} (h : Run step s (es ++ fs) u) :
    ∃ t, Run step s es t ∧ Run step t fs u := by
  generalize hl : es ++ fs = log at h
  induction h generalizing fs with
  | nil =>
    obtain ⟨rfl, rfl⟩ := List.append_eq_nil_iff.mp hl
    exact ⟨s, .nil, .nil⟩
  | @snoc gs m e u run last ih =>
    rcases List.eq_nil_or_concat fs with rfl | ⟨fs', f, rfl⟩
    · rw [List.append_nil] at hl
      subst hl
      exact ⟨u, .snoc run last, .nil⟩
    · rw [List.concat_eq_append, ← List.append_assoc] at hl
      obtain ⟨hl', hf⟩ := List.append_inj' hl rfl
      obtain ⟨t, h₁, h₂⟩ := ih hl'
      have he : f = e := by simpa using hf
      subst he
      exact ⟨t, h₁, by simpa [List.concat_eq_append] using Run.snoc h₂ last⟩

/-- The last step of a nonempty run. -/
theorem Run.unsnoc {step : σ → ε → σ → Prop} (h : Run step s (es ++ [e]) u) :
    ∃ t, Run step s es t ∧ step t e u := by
  generalize hl : es ++ [e] = log at h
  cases h with
  | nil => simp at hl
  | snoc run last =>
    obtain ⟨rfl, he⟩ := List.append_inj' hl rfl
    obtain rfl : e = _ := by simpa using he
    exact ⟨_, run, last⟩

theorem Run.eq_of_nil (h : Run step s [] t) : t = s := by
  generalize hl : [] = log at h
  cases h with
  | nil => rfl
  | snoc run last => simp at hl

/-- The first step of a nonempty run. -/
theorem Run.uncons {step : σ → ε → σ → Prop} (h : Run step s (e :: es) u) :
    ∃ t, step s e t ∧ Run step t es u := by
  rw [← List.singleton_append] at h
  obtain ⟨t, h₁, h₂⟩ := h.split
  rw [← List.nil_append [e]] at h₁
  obtain ⟨r, hr, hstep⟩ := h₁.unsnoc
  obtain rfl := hr.eq_of_nil
  exact ⟨t, hstep, h₂⟩

theorem Run.mono {step step' : σ → ε → σ → Prop} (h : Run step s es t)
    (hs : ∀ s e t, step s e t → step' s e t) : Run step' s es t := by
  induction h with
  | nil => exact .nil
  | snoc run last ih => exact .snoc ih (hs _ _ _ last)

theorem Run.unguard {step : σ → ε → σ → Prop} {good : σ → ε → Prop}
    (h : Run (Guarded step good) s es t) : Run step s es t :=
  h.mono (fun _ _ _ hs => hs.2)

theorem Run.unique {step : σ → ε → σ → Prop}
    (hdet : ∀ s e t u, step s e t → step s e u → t = u)
    (h₁ : Run step s es t) (h₂ : Run step s es u) : t = u := by
  induction h₁ generalizing u with
  | nil => exact h₂.eq_of_nil.symm
  | snoc run last ih =>
    obtain ⟨v, hv, hlast⟩ := h₂.unsnoc
    obtain rfl := ih hv
    exact hdet _ _ _ _ last hlast

/-- Where a step keeps what holds so far only if it meets the condition, the runs that
keep it to their end are those whose steps all meet the condition. -/
theorem Run.guarded_iff {step : σ → ε → σ → Prop} {good : σ → ε → Prop} {P A : σ → Prop}
    (h : Run step start es t) (h0 : P start) (hA : A start)
    (hinv : ∀ s e t, P s → step s e t → P t)
    (hstep : ∀ s e t, P s → step s e t → (A t ↔ A s ∧ good s e)) :
    A t ↔ Run (Guarded step good) start es t := by
  constructor
  · intro ht
    induction h with
    | nil => exact .nil
    | snoc run last ih =>
      obtain ⟨hs, hgood⟩ := (hstep _ _ _ (run.invariant h0 hinv) last).mp ht
      exact .snoc (ih hs) ⟨hgood, last⟩
  · intro hg
    refine (hg.invariant (P := fun s => P s ∧ A s) ⟨h0, hA⟩ ?_).2
    rintro s e u ⟨hP, hs⟩ ⟨hgood, last⟩
    exact ⟨hinv s e u hP last, (hstep s e u hP last).mpr ⟨hs, hgood⟩⟩

/-- Where a step keeps a property exactly if it meets the condition, the runs that keep
it at every step are those whose steps all meet the condition. -/
theorem Run.kept_iff {step keep : σ → ε → σ → Prop} {good : σ → ε → Prop} {P : σ → Prop}
    (h0 : P start) (hinv : ∀ s e t, P s → step s e t → keep s e t → P t)
    (hstep : ∀ s e t, P s → step s e t → (keep s e t ↔ good s e)) :
    Run (fun s e t => step s e t ∧ keep s e t) start es t ↔ Run (Guarded step good) start es t := by
  constructor
  · intro h
    have hP : P t ∧ Run (Guarded step good) start es t := by
      induction h with
      | nil => exact ⟨h0, .nil⟩
      | snoc run last ih =>
        obtain ⟨hP, hrun⟩ := ih
        exact ⟨hinv _ _ _ hP last.1 last.2, .snoc hrun ⟨(hstep _ _ _ hP last.1).mp last.2, last.1⟩⟩
    exact hP.2
  · intro h
    have hP : P t ∧ Run (fun s e t => step s e t ∧ keep s e t) start es t := by
      induction h with
      | nil => exact ⟨h0, .nil⟩
      | snoc run last ih =>
        obtain ⟨hP, hrun⟩ := ih
        have hkept := (hstep _ _ _ hP last.2).mpr last.1
        exact ⟨hinv _ _ _ hP last.2 hkept, .snoc hrun ⟨last.2, hkept⟩⟩
    exact hP.2

/-- The same for a state that the log determines: what a label keeps exactly if it is
good holds after every beginning of the log if and only if each label was good there. -/
theorem beginnings_iff {P : List ε → Prop} {good : List ε → ε → Prop} (h0 : P [])
    (hstep : ∀ es e, P es → (P (es ++ [e]) ↔ good es e)) (log : List ε) :
    (∀ es, es <+: log → P es) ↔ ∀ es e rest, log = es ++ e :: rest → good es e := by
  constructor
  · intro h es e rest hlog
    have hes : P es := h es ⟨e :: rest, hlog.symm⟩
    apply (hstep es e hes).mp
    exact h (es ++ [e]) ⟨rest, by rw [hlog, List.append_assoc, List.singleton_append]⟩
  · intro h es hes
    induction es using List.reverseRecOn with
    | nil => exact h0
    | append_singleton es e ih =>
      obtain ⟨rest, hlog⟩ := hes
      rw [List.append_assoc, List.singleton_append] at hlog
      exact (hstep es e (ih ⟨e :: rest, hlog⟩)).mpr (h es e rest hlog.symm)

/-- A relation between each moment of the log and every later one. -/
def Along (step : σ → ε → σ → Prop) (R : σ → σ → Prop) (start : σ) (log : List ε) : Prop :=
  ∀ p q r s t, log = p ++ q ++ r → Run step start p s → Run step s q t → R s t

/-- Where a single step keeps a relation only if it meets the condition, so do all
steps of a run that keeps it throughout. -/
theorem guarded_of_along {step : σ → ε → σ → Prop} {R : σ → σ → Prop} {good : σ → ε → Prop}
    {P : σ → Prop} (hinv : ∀ s e t, P s → step s e t → P t)
    (hstep : ∀ s e t, P s → step s e t → R s t → good s e) (h0 : P start)
    (h : Run step start es t) (halong : Along step R start es) :
    Run (Guarded step good) start es t := by
  induction h with
  | nil => exact .nil
  | @snoc es s e t run last ih =>
    have hgood : good s e := by
      apply hstep s e t (run.invariant h0 hinv) last
      exact halong es [e] [] s t (List.append_nil _).symm run (.single last)
    refine .snoc (ih ?_) ⟨hgood, last⟩
    intro p q r u v heq
    exact halong p q (r ++ [e]) u v (by rw [heq, List.append_assoc])

/-- What the runs of good steps keep from any state is kept along such a run. -/
theorem along_of_guarded {step : σ → ε → σ → Prop} {R : σ → σ → Prop} {good : σ → ε → Prop}
    {P : σ → Prop} (hdet : ∀ s e t u, step s e t → step s e u → t = u)
    (hinv : ∀ s e t, P s → step s e t → P t)
    (hkeep : ∀ s q t, P s → Run (Guarded step good) s q t → R s t) (h0 : P start)
    (hg : Run (Guarded step good) start es t) : Along step R start es := by
  intro p q r s u heq hp hq
  subst heq
  obtain ⟨v, hpq, -⟩ := hg.split
  obtain ⟨w, hgp, hgq⟩ := hpq.split
  obtain rfl := Run.unique hdet hp hgp.unguard
  obtain rfl := Run.unique hdet hq hgq.unguard
  exact hkeep s q u (hp.invariant h0 hinv) hgq

/-- Where each step that meets the condition, and no other, keeps a preorder, the
runs that keep it throughout are those whose steps all meet the condition. -/
theorem along_iff {step : σ → ε → σ → Prop} {R : σ → σ → Prop} {good : σ → ε → Prop}
    {P : σ → Prop} (hdet : ∀ s e t u, step s e t → step s e u → t = u) (hrefl : ∀ s, R s s)
    (htrans : ∀ s t u, R s t → R t u → R s u) (hinv : ∀ s e t, P s → step s e t → P t)
    (hstep : ∀ s e t, P s → step s e t → (R s t ↔ good s e)) (h0 : P start)
    (h : Run step start es t) :
    Along step R start es ↔ Run (Guarded step good) start es t := by
  constructor
  · exact guarded_of_along hinv (fun s e t hP hs => (hstep s e t hP hs).mp) h0 h
  · refine along_of_guarded hdet hinv ?_ h0
    intro s q t hP hq
    refine (hq.invariant (P := fun t => P t ∧ R s t) ⟨hP, hrefl s⟩ ?_).2
    intro t e u ⟨hPt, hR⟩ ⟨hgood, hs⟩
    exact ⟨hinv t e u hPt hs, htrans s t u hR ((hstep t e u hPt hs).mpr hgood)⟩

/-- A relation between concrete and abstract states that every concrete step
keeps, the abstract side answering with a run of its own. -/
def Simulates (step : σ → ε → σ → Prop) (astep : ρ → δ → ρ → Prop)
    (view : ε → List δ) (R : σ → ρ → Prop) : Prop :=
  ∀ s e t a, R s a → step s e t → ∃ b, Run astep a (view e) b ∧ R t b

theorem Simulates.run {step : σ → ε → σ → Prop} {astep : ρ → δ → ρ → Prop}
    {view : ε → List δ} {R : σ → ρ → Prop} (hsim : Simulates step astep view R)
    (hrun : Run step s es t) (h0 : R s a) :
    ∃ b, Run astep a (es.flatMap view) b ∧ R t b := by
  induction hrun with
  | nil => exact ⟨a, .nil, h0⟩
  | snoc run last ih =>
    obtain ⟨b, hb, hr⟩ := ih
    obtain ⟨c, hc, hr'⟩ := hsim _ _ _ _ hr last
    refine ⟨c, ?_, hr'⟩
    simpa [List.flatMap_append] using hb.append hc

end Dobby.Runs
