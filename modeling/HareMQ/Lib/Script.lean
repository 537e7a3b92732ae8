import Mathlib.Data.List.Forall2

/-! # Scripts

The steps of a script are made one after the other until one fails. A step says whether it has succeeded, or it breaks
off and says why. -/

namespace Lib
variable {σ τ ρ α β ε : Type}

def perform (step : σ → α → Except ε (Bool × σ)) : σ → List α → Except ε (Bool × σ)
  | s, [] => .ok (true, s)
  | s, a :: as =>
    match step s a with
    | .error e => .error e
    | .ok (false, s) => .ok (false, s)
    | .ok (true, s) => perform step s as

/-- Both break off alike, or they end alike in related states. -/
inductive Agree (R : σ → τ → Prop) : Except ε (Bool × σ) → Except ε (Bool × τ) → Prop
  | error (e : ε) : Agree R (.error e) (.error e)
  | ok (b : Bool) {s : σ} {t : τ} (h : R s t) : Agree R (.ok (b, s)) (.ok (b, t))

namespace Agree
variable {R R' : σ → τ → Prop} {S : τ → ρ → Prop} {x : Except ε (Bool × σ)} {y : Except ε (Bool × τ)} {z : Except ε (Bool × ρ)}

theorem mono (h : Agree R x y) (hR : ∀ s t, R s t → R' s t) : Agree R' x y := by
  cases h with
  | error e => exact .error e
  | ok b h => exact .ok b (hR _ _ h)

theorem trans (h₁ : Agree R x y) (h₂ : Agree S y z) : Agree (fun s r => ∃ t, R s t ∧ S t r) x z := by
  cases h₁ with
  | error e =>
    cases h₂
    exact .error e
  | ok b h =>
    cases h₂ with
    | ok _ h' => exact .ok b ⟨_, h, h'⟩

end Agree

/-- Scripts whose steps agree agree as a whole. -/
theorem perform_agree {R : σ → τ → Prop} {P : α → β → Prop} {step : σ → α → Except ε (Bool × σ)}
    {step' : τ → β → Except ε (Bool × τ)}
    (hstep : ∀ a b, P a b → ∀ s t, R s t → Agree R (step s a) (step' t b)) {as : List α} {bs : List β}
    (h : List.Forall₂ P as bs) {s : σ} {t : τ} (hst : R s t) : Agree R (perform step s as) (perform step' t bs) := by
  induction h generalizing s t with
  | nil => exact .ok true hst
  | @cons a b as bs hab _ ih =>
    have hagree := hstep a b hab s t hst
    rw [perform, perform]
    generalize step s a = x at hagree
    generalize step' t b = y at hagree
    cases hagree with
    | error e => exact .error e
    | ok c h =>
      cases c with
      | false => exact .ok false h
      | true => exact ih h

/-- A script breaks off where one of its steps does. -/
theorem perform_error_iff {step : σ → α → Except ε (Bool × σ)} {e : ε} {as : List α} {s : σ} :
    perform step s as = .error e ↔
      ∃ pre a post s', as = pre ++ a :: post ∧ perform step s pre = .ok (true, s') ∧ step s' a = .error e := by
  constructor
  · induction as generalizing s with
    | nil =>
      intro h
      cases h
    | cons a as ih =>
      intro h
      rw [perform] at h
      split at h
      · next e' hstep =>
        cases h
        exact ⟨[], a, as, s, rfl, rfl, hstep⟩
      · cases h
      · next s₁ hstep =>
        rcases ih h with ⟨pre, b, post, s', rfl, hpre, hbreak⟩
        refine ⟨a :: pre, b, post, s', rfl, ?_, hbreak⟩
        rw [perform, hstep]
        exact hpre
  · rintro ⟨pre, a, post, s', rfl, hpre, hbreak⟩
    induction pre generalizing s with
    | nil =>
      cases hpre
      rw [List.nil_append, perform, hbreak]
    | cons b pre ih =>
      rw [perform] at hpre
      split at hpre
      · cases hpre
      · cases hpre
      · next s₁ hstep =>
        rw [List.cons_append, perform, hstep]
        exact ih hpre

end Lib
