import Mathlib.Data.List.Basic
import Mathlib.Tactic.Tauto

/-! # Runs

Runs of a system whose steps may fail, conditions on each step of a run, and what a run keeps. -/

namespace Lib
variable {σ α : Type}

def run (step : σ → α → Option σ) (s : σ) : List α → Option σ
  | [] => some s
  | a :: as =>
    match step s a with
    | none => none
    | some s => run step s as

/-- Every step of the run meets the condition. -/
def always (step : σ → α → Option σ) (cond : σ → α → Bool) (s : σ) : List α → Bool
  | [] => true
  | a :: as => cond s a && (step s a).all fun s => always step cond s as

variable {step : σ → α → Option σ} {cond : σ → α → Bool} {s s' : σ} {a : α} {as pre : List α}

theorem run_cons (hstep : step s a = some s') : run step s (a :: as) = run step s' as := by
  rw [run, hstep]

theorem run_cons_eq_some {t : σ} (h : run step s (a :: as) = some t) :
    ∃ s', step s a = some s' ∧ run step s' as = some t := by
  rw [run] at h
  split at h
  · cases h
  · next s' hstep => exact ⟨s', hstep, h⟩

theorem run_append {t : σ} (h : run step s as = some t) : run step s (as ++ pre) = run step t pre := by
  induction as generalizing s with
  | nil =>
    cases h
    rfl
  | cons a as ih =>
    obtain ⟨s', hs', h⟩ := run_cons_eq_some h
    rw [List.cons_append, run_cons hs', ih h]

/-- If no step fails, no run does. -/
theorem exists_run (hstep : ∀ s a, ∃ s', step s a = some s') (as : List α) (s : σ) : ∃ t, run step s as = some t := by
  induction as generalizing s with
  | nil => exact ⟨s, rfl⟩
  | cons a as ih =>
    rcases hstep s a with ⟨s', hs'⟩
    rw [run_cons hs']
    exact ih s'

/-- The same steps over and over, with a property that counts the rounds. -/
theorem exists_run_flatten {P : Nat → σ → Prop} {limit : Nat}
    (hround : ∀ n s, n < limit → P n s → ∃ s', run step s as = some s' ∧ P (n + 1) s') :
    ∀ (count : Nat) {n : Nat} {s : σ}, n + count ≤ limit → P n s →
      ∃ s', run step s (List.replicate count as).flatten = some s' ∧ P (n + count) s'
  | 0, n, s, _, hs => ⟨s, rfl, hs⟩
  | count + 1, n, s, hcount, hs => by
    obtain ⟨s₁, hrun₁, hs₁⟩ := hround n s (by omega) hs
    obtain ⟨s₂, hrun₂, hs₂⟩ := exists_run_flatten hround count (by omega) hs₁
    refine ⟨s₂, ?_, by rwa [Nat.add_assoc, Nat.add_comm 1] at hs₂⟩
    rw [List.replicate_succ, List.flatten_cons, run_append hrun₁, hrun₂]

/-- A prefix of a run is a run. -/
theorem exists_run_of_append : ∀ {as : List α} {s t : σ}, run step s (as ++ pre) = some t →
    ∃ s', run step s as = some s' ∧ run step s' pre = some t := by
  intro as
  induction as with
  | nil => exact fun h => ⟨_, rfl, h⟩
  | cons a as ih =>
    intro s t h
    rcases run_cons_eq_some h with ⟨s₁, hstep, h⟩
    rcases ih h with ⟨s', hs', ht⟩
    exact ⟨s', (run_cons hstep).trans hs', ht⟩

/-- A run goes on after each of its prefixes. -/
theorem exists_step_of_run {t : σ} (hrun : run step s as = some t) (hpre : pre ++ [a] <+: as)
    (hs' : run step s pre = some s') : ∃ s'', step s' a = some s'' := by
  rcases hpre with ⟨rest, rfl⟩
  rw [List.append_assoc] at hrun
  rcases exists_run_of_append hrun with ⟨s₁, hs₁, hrest⟩
  rw [hs'] at hs₁
  cases hs₁
  rcases run_cons_eq_some hrest with ⟨s'', hstep, -⟩
  exact ⟨s'', hstep⟩

/-- What every step keeps, a run keeps. -/
theorem run_induct {Inv : σ → Prop} (hstep : ∀ s a s', Inv s → step s a = some s' → Inv s') :
    ∀ {as : List α} {s t : σ}, Inv s → run step s as = some t → Inv t := by
  intro as
  induction as with
  | nil =>
    intro s t hs h
    cases h
    exact hs
  | cons a as ih =>
    intro s t hs h
    rcases run_cons_eq_some h with ⟨s', hs', h⟩
    exact ih (hstep s a s' hs hs') h

/-- A system that is simulated by another one, each step by a run. -/
theorem run_simulated {τ β : Type} {step' : τ → β → Option τ} {R : σ → τ → Prop}
    (hstep : ∀ s a s' t, R s t → step s a = some s' → ∃ bs t', run step' t bs = some t' ∧ R s' t') :
    ∀ {as : List α} {s s' : σ} {t : τ}, R s t → run step s as = some s' → ∃ bs t', run step' t bs = some t' ∧ R s' t' := by
  intro as
  induction as with
  | nil =>
    intro s s' t hR h
    cases h
    exact ⟨[], t, rfl, hR⟩
  | cons a as ih =>
    intro s s' t hR h
    rcases run_cons_eq_some h with ⟨s₁, hs₁, h⟩
    rcases hstep s a s₁ t hR hs₁ with ⟨bs₁, t₁, hrun₁, hR₁⟩
    rcases ih hR₁ h with ⟨bs, t', hrun, hR'⟩
    exact ⟨bs₁ ++ bs, t', (run_append hrun₁).trans hrun, hR'⟩

/-- What every step that meets the condition keeps, a run of such steps keeps in every state that it reaches. -/
theorem run_induct_of_always {Inv : σ → Prop} (hstep : ∀ s a s', Inv s → step s a = some s' → cond s a = true → Inv s') :
    ∀ {as : List α} {s : σ}, Inv s → always step cond s as = true →
    ∀ pre s₁, pre <+: as → run step s pre = some s₁ → Inv s₁ := by
  intro as
  induction as with
  | nil =>
    intro s hs _ pre s₁ hpre hrun
    rw [List.prefix_nil.mp hpre] at hrun
    cases hrun
    exact hs
  | cons a as ih =>
    intro s hs hall pre s₁ hpre hrun
    rw [always, Bool.and_eq_true] at hall
    cases pre with
    | nil =>
      cases hrun
      exact hs
    | cons a' pre =>
      rcases List.cons_prefix_cons.mp hpre with ⟨rfl, htail⟩
      rcases run_cons_eq_some hrun with ⟨s', hs', hrun⟩
      have hrest := hall.2
      rw [hs', Option.all_some] at hrest
      exact ih (hstep s a' s' hs hs' hall.1) hrest pre s₁ htail hrun

/-- Each step that the run comes to meets the condition. -/
theorem cond_of_always : ∀ {as pre : List α} {s s₁ : σ}, always step cond s as = true → pre ++ [a] <+: as →
    run step s pre = some s₁ → cond s₁ a = true := by
  intro as
  induction as with
  | nil =>
    intro pre s s₁ _ hpre _
    simpa using List.prefix_nil.mp hpre
  | cons b as ih =>
    intro pre s s₁ hall hpre hrun
    rw [always, Bool.and_eq_true] at hall
    cases pre with
    | nil =>
      cases hrun
      obtain ⟨rfl, -⟩ := List.cons_prefix_cons.mp hpre
      exact hall.1
    | cons c pre =>
      obtain ⟨rfl, htail⟩ := List.cons_prefix_cons.mp hpre
      obtain ⟨s', hs', hrun⟩ := run_cons_eq_some hrun
      have hrest := hall.2
      rw [hs', Option.all_some] at hrest
      exact ih hrest htail hrun

/-- Every step of a run meets the condition exactly when each step of each of its prefixes does. -/
theorem always_iff : ∀ {as : List α} {s t : σ}, run step s as = some t →
    (always step cond s as = true ↔
      ∀ pre a s₁, pre ++ [a] <+: as → run step s pre = some s₁ → cond s₁ a = true) := by
  intro as
  induction as with
  | nil =>
    intro s t _
    refine ⟨fun _ pre a s₁ hpre _ => ?_, fun _ => rfl⟩
    simpa using List.prefix_nil.mp hpre
  | cons a as ih =>
    intro s t hrun
    rcases run_cons_eq_some hrun with ⟨s', hs', hrun⟩
    rw [always, hs', Option.all_some, Bool.and_eq_true, ih hrun]
    constructor
    · rintro ⟨hcond, hrest⟩ pre b s₁ hpre hrun₁
      cases pre with
      | nil =>
        cases hrun₁
        rcases List.cons_prefix_cons.mp hpre with ⟨rfl, -⟩
        exact hcond
      | cons c pre =>
        rcases List.cons_prefix_cons.mp hpre with ⟨rfl, htail⟩
        rw [run_cons hs'] at hrun₁
        exact hrest pre b s₁ htail hrun₁
    · intro h
      refine ⟨h [] a s (List.prefix_append [a] as) rfl, fun pre b s₁ hpre hrun₁ => ?_⟩
      exact h (a :: pre) b s₁ (List.cons_prefix_cons.mpr ⟨rfl, hpre⟩) ((run_cons hs').trans hrun₁)

/-- A condition on the inputs alone. -/
theorem always_of_forall {p : α → Bool} (h : ∀ a ∈ as, p a = true) : always step (fun _ a => p a) s as = true := by
  induction as generalizing s with
  | nil => rfl
  | cons a as ih =>
    rw [List.forall_mem_cons] at h
    rw [always, h.1, Bool.true_and, Option.all_eq_true]
    exact fun s' _ => ih h.2

/-- Two conditions on each step. -/
theorem always_and {cond₁ cond₂ : σ → α → Bool} : always step (fun s a => cond₁ s a && cond₂ s a) s as = true ↔
    always step cond₁ s as = true ∧ always step cond₂ s as = true := by
  induction as generalizing s with
  | nil => exact ⟨fun _ => ⟨rfl, rfl⟩, fun _ => rfl⟩
  | cons a as ih =>
    simp only [always, Bool.and_eq_true]
    cases step s a with
    | none => simp only [Option.all_none, and_true]
    | some s' =>
      simp only [Option.all_some, ih]
      tauto

/-- A condition is exact for a property of states when a step that meets it keeps the invariant, and one that does not
    ends outside the property. -/
theorem always_iff_of_exact {Inv Good : σ → Prop} (hgood : ∀ s, Inv s → Good s)
    (hstep : ∀ s a s', Inv s → step s a = some s' → cond s a = true → Inv s')
    (hbad : ∀ s a s', Inv s → step s a = some s' → cond s a = false → ¬Good s') {t : σ} (hs : Inv s)
    (hrun : run step s as = some t) :
    (∀ pre s₁, pre <+: as → run step s pre = some s₁ → Good s₁) ↔ always step cond s as = true := by
  constructor
  · induction as generalizing s with
    | nil => exact fun _ => rfl
    | cons a as ih =>
      intro hall
      rcases run_cons_eq_some hrun with ⟨s', hs', hrun'⟩
      have hcond : cond s a = true := by
        by_contra hcond
        refine hbad s a s' hs hs' (Bool.eq_false_iff.mpr hcond) ?_
        exact hall [a] s' (List.prefix_append [a] as) (run_cons hs')
      rw [always, hs', Option.all_some, Bool.and_eq_true]
      refine ⟨hcond, ih (hstep s a s' hs hs' hcond) hrun' fun pre s₁ hpre hrun₁ => ?_⟩
      exact hall (a :: pre) s₁ (List.cons_prefix_cons.mpr ⟨rfl, hpre⟩) ((run_cons hs').trans hrun₁)
  · intro hall pre s₁ hpre hrun₁
    exact hgood s₁ (run_induct_of_always hstep hs hall pre s₁ hpre hrun₁)

end Lib
