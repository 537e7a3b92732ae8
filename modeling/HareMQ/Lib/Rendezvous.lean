import Mathlib.Data.List.Nodup
import Mathlib.Data.Set.Insert
import Mathlib.Logic.Function.Basic

/-! # Rendezvous

Callers send requests and wait, each at a box, until the answer lies in it. Whoever puts an answer into a box wakes those
who sleep there. Callers and answers are matched when nobody gets the answer of another, nobody sleeps beside his own,
and an answer that has come is found. An answer that is lost leaves its caller waiting for ever. -/

namespace Lib

@[ext]
structure Rendezvous (κ β α : Type) where
  used : Set κ
  /-- The requests that are not answered. -/
  pending : Set κ
  boxes : β → κ → Option α
  waiting : κ → Option β
  asleep : Set κ
  given : List (κ × α)

namespace Rendezvous
variable {κ β α : Type} [DecidableEq κ] [DecidableEq β] (r : Rendezvous κ β α)

def send (used : Set κ) (k : κ) (b : β) : Rendezvous κ β α :=
  { r with used, pending := insert k r.pending, waiting := Function.update r.waiting k (some b) }

def deliver (asleep : Set κ) (k : κ) (b : β) (a : α) : Rendezvous κ β α :=
  { r with
    pending := r.pending \ {k}
    boxes := Function.update r.boxes b (Function.update (r.boxes b) k (some a))
    asleep }

def lose (k : κ) : Rendezvous κ β α := { r with pending := r.pending \ {k} }

def take (k : κ) (b : β) (a : α) : Rendezvous κ β α :=
  { r with
    boxes := Function.update r.boxes b (Function.update (r.boxes b) k none)
    waiting := Function.update r.waiting k none
    given := r.given ++ [(k, a)] }

def sleep (k : κ) : Rendezvous κ β α := { r with asleep := insert k r.asleep }

def wake (k : κ) : Rendezvous κ β α := { r with asleep := r.asleep \ {k} }

/-- The steps that lose no answer. -/
inductive Step (answers : κ → α → Prop) : Rendezvous κ β α → Prop
  | stay : Step answers r
  | send {used : Set κ} {k : κ} (b : β) (hfresh : k ∉ r.used) (hused : insert k r.used ⊆ used) :
    Step answers (r.send used k b)
  | deliver {asleep : Set κ} {k : κ} {b : β} {a : α} (hpending : k ∈ r.pending) (hwaiting : r.waiting k = some b)
      (hanswers : answers k a) (hasleep : ∀ x ∈ asleep, x ∈ r.asleep ∧ r.waiting x ≠ some b) :
    Step answers (r.deliver asleep k b a)
  | take {k : κ} {b : β} {a : α} (hwaiting : r.waiting k = some b) (hawake : k ∉ r.asleep) (hbox : r.boxes b k = some a) :
    Step answers (r.take k b a)
  | sleep {k : κ} {b : β} (hwaiting : r.waiting k = some b) (hbox : r.boxes b k = none) : Step answers (r.sleep k)
  | wake (k : κ) : Step answers (r.wake k)

/-- What callers may rely on. -/
structure Matched (answers : κ → α → Prop) : Prop where
  own : ∀ x ∈ r.given, answers x.1 x.2
  once : (r.given.map Prod.fst).Nodup
  awake : ∀ k ∈ r.asleep, ∀ b, r.waiting k = some b → r.boxes b k = none
  served : ∀ k b, r.waiting k = some b → k ∉ r.pending → k ∉ r.asleep ∧ ∃ a, r.boxes b k = some a
  emptied : (∀ k, r.waiting k = none) → ∀ b k, r.boxes b k = none

structure Sound (answers : κ → α → Prop) : Prop where
  used : ∀ k, (r.waiting k).isSome ∨ k ∈ r.given.map Prod.fst → k ∈ r.used
  pending : ∀ k ∈ r.pending, ∃ b, r.waiting k = some b
  boxed : ∀ b k a, r.boxes b k = some a → r.waiting k = some b ∧ k ∉ r.pending ∧ answers k a
  served : ∀ k b, r.waiting k = some b → k ∉ r.pending → ∃ a, r.boxes b k = some a
  asleep : ∀ k ∈ r.asleep, ∃ b, r.waiting k = some b ∧ r.boxes b k = none
  given : ∀ x ∈ r.given, answers x.1 x.2 ∧ r.waiting x.1 = none
  once : (r.given.map Prod.fst).Nodup

variable {r} {r' : Rendezvous κ β α} {answers : κ → α → Prop} {k : κ} {b : β} {a : α}

namespace Sound

omit [DecidableEq κ] [DecidableEq β] in
theorem matched (h : r.Sound answers) : r.Matched answers where
  own x hx := (h.given x hx).1
  once := h.once
  awake k hk b hb := by
    obtain ⟨b', hb', hbox⟩ := h.asleep k hk
    obtain rfl := Option.some.inj (hb.symm.trans hb')
    exact hbox
  served k b hb hk := by
    obtain ⟨a, ha⟩ := h.served k b hb hk
    refine ⟨fun hasleep => ?_, a, ha⟩
    obtain ⟨b', hb', hbox⟩ := h.asleep k hasleep
    obtain rfl := Option.some.inj (hb.symm.trans hb')
    rw [ha] at hbox
    cases hbox
  emptied hnone b k := by
    cases hbox : r.boxes b k with
    | none => rfl
    | some a =>
      have hk := (h.boxed b k a hbox).1
      rw [hnone k] at hk
      cases hk

omit [DecidableEq β] in
/-- A request that was never used has left no trace. -/
theorem send (h : r.Sound answers) {used : Set κ} (b : β) (hfresh : k ∉ r.used) (hused : insert k r.used ⊆ used) :
    (r.send used k b).Sound answers := by
  have hnone : r.waiting k = none := by
    rw [← Option.not_isSome_iff_eq_none]
    exact fun hk => hfresh (h.used k (Or.inl hk))
  have hgiven : k ∉ r.given.map Prod.fst := fun hk => hfresh (h.used k (Or.inr hk))
  have hwaiting : ∀ x b', r.waiting x = some b' → (r.send used k b).waiting x = some b' := by
    intro x b' hx
    have hne : x ≠ k := by
      rintro rfl
      rw [hnone] at hx
      cases hx
    rw [← hx]
    exact Function.update_of_ne hne ..
  constructor
  case used =>
    intro x hx
    obtain rfl | hne := eq_or_ne x k
    · exact hused (Set.mem_insert x _)
    · have hx' : (r.waiting x).isSome ∨ x ∈ r.given.map Prod.fst := by
        rwa [show (r.send used k b).waiting x = r.waiting x from Function.update_of_ne hne ..] at hx
      exact hused (Set.mem_insert_of_mem k (h.used x hx'))
  case pending =>
    intro x hx
    obtain rfl | hx := hx
    · exact ⟨b, Function.update_self ..⟩
    · obtain ⟨b', hb'⟩ := h.pending x hx
      exact ⟨b', hwaiting x b' hb'⟩
  case boxed =>
    intro b' x a hbox
    obtain ⟨hx, hpending, ha⟩ := h.boxed b' x a hbox
    refine ⟨hwaiting x b' hx, fun hmem => ?_, ha⟩
    obtain rfl | hmem := hmem
    · rw [hnone] at hx
      cases hx
    · exact hpending hmem
  case served =>
    intro x b' hx hpending
    obtain ⟨hne, hpending⟩ : x ≠ k ∧ x ∉ r.pending := not_or.mp hpending
    rw [show (r.send used k b).waiting x = r.waiting x from Function.update_of_ne hne ..] at hx
    exact h.served x b' hx hpending
  case asleep =>
    intro x hx
    obtain ⟨b', hb', hbox⟩ := h.asleep x hx
    exact ⟨b', hwaiting x b' hb', hbox⟩
  case given =>
    intro x hx
    obtain ⟨ha, hx'⟩ := h.given x hx
    have hne : x.1 ≠ k := fun heq => hgiven (heq ▸ List.mem_map_of_mem hx)
    exact ⟨ha, (Function.update_of_ne hne ..).trans hx'⟩
  case once => exact h.once

/-- Nobody sleeps any more at the box into which the answer is put. -/
theorem deliver (h : r.Sound answers) {asleep : Set κ} (hwaiting : r.waiting k = some b)
    (hanswers : answers k a) (hasleep : ∀ x ∈ asleep, x ∈ r.asleep ∧ r.waiting x ≠ some b) :
    (r.deliver asleep k b a).Sound answers := by
  have hself : (r.deliver asleep k b a).boxes b k = some a := by
    simp only [Rendezvous.deliver, Function.update_self]
  have hother : ∀ b' x, x ≠ k ∨ b' ≠ b → (r.deliver asleep k b a).boxes b' x = r.boxes b' x := by
    intro b' x hne
    by_cases hb : b' = b
    · subst hb
      simp only [Rendezvous.deliver, Function.update_self]
      exact Function.update_of_ne (hne.resolve_right fun hne => hne rfl) ..
    · exact congrFun (Function.update_of_ne hb ..) x
  constructor
  case used => exact h.used
  case pending => exact fun x hx => h.pending x hx.1
  case boxed =>
    intro b' x a' hbox
    by_cases heq : x = k ∧ b' = b
    · obtain ⟨rfl, rfl⟩ := heq
      obtain rfl := Option.some.inj (hself.symm.trans hbox)
      exact ⟨hwaiting, fun hx => hx.2 rfl, hanswers⟩
    · rw [hother b' x (not_and_or.mp heq)] at hbox
      obtain ⟨hx, hpending, ha⟩ := h.boxed b' x a' hbox
      exact ⟨hx, fun hx => hpending hx.1, ha⟩
  case served =>
    intro x b' hx hpending
    obtain rfl | hne := eq_or_ne x k
    · obtain rfl := Option.some.inj (hwaiting.symm.trans hx)
      exact ⟨a, hself⟩
    · obtain ⟨a', ha'⟩ := h.served x b' hx fun hmem => hpending ⟨hmem, hne⟩
      exact ⟨a', (hother b' x (Or.inl hne)).trans ha'⟩
  case asleep =>
    intro x hx
    obtain ⟨hx, hne⟩ := hasleep x hx
    obtain ⟨b', hb', hbox⟩ := h.asleep x hx
    have hb : b' ≠ b := by
      rintro rfl
      exact hne hb'
    exact ⟨b', hb', (hother b' x (Or.inr hb)).trans hbox⟩
  case given => exact h.given
  case once => exact h.once

theorem take (h : r.Sound answers) (hwaiting : r.waiting k = some b) (hawake : k ∉ r.asleep)
    (hbox : r.boxes b k = some a) : (r.take k b a).Sound answers := by
  obtain ⟨-, hpending, hanswers⟩ := h.boxed b k a hbox
  have hleft : (r.take k b a).waiting k = none := Function.update_self ..
  have hother : ∀ x, x ≠ k → (r.take k b a).waiting x = r.waiting x := fun x hne => Function.update_of_ne hne ..
  have hboxes : ∀ b' x, x ≠ k → (r.take k b a).boxes b' x = r.boxes b' x := by
    intro b' x hne
    by_cases hb : b' = b
    · subst hb
      simp only [Rendezvous.take, Function.update_self]
      exact Function.update_of_ne hne ..
    · exact congrFun (Function.update_of_ne hb ..) x
  have hgiven : k ∉ r.given.map Prod.fst := by
    intro hk
    obtain ⟨x, hx, rfl⟩ := List.mem_map.mp hk
    rw [(h.given x hx).2] at hwaiting
    cases hwaiting
  constructor
  case used =>
    intro x hx
    rw [show (r.take k b a).given.map Prod.fst = r.given.map Prod.fst ++ [k] from List.map_append] at hx
    obtain rfl | hne := eq_or_ne x k
    · exact h.used x (Or.inl (by rw [hwaiting, Option.isSome_some]))
    · rw [hother x hne, List.mem_append, List.mem_singleton] at hx
      exact h.used x (hx.imp_right fun hx => hx.resolve_right hne)
  case pending =>
    intro x hx
    have hne : x ≠ k := by
      rintro rfl
      exact hpending hx
    obtain ⟨b', hb'⟩ := h.pending x hx
    exact ⟨b', (hother x hne).trans hb'⟩
  case boxed =>
    intro b' x a' hbox'
    obtain rfl | hne := eq_or_ne x k
    · exfalso
      by_cases hb : b' = b
      · subst hb
        simp only [Rendezvous.take, Function.update_self] at hbox'
        cases hbox'
      · rw [show (r.take x b a).boxes b' = r.boxes b' from Function.update_of_ne hb ..] at hbox'
        exact hb (Option.some.inj ((h.boxed b' x a' hbox').1.symm.trans hwaiting))
    · rw [hboxes b' x hne] at hbox'
      obtain ⟨hx, hrest⟩ := h.boxed b' x a' hbox'
      exact ⟨(hother x hne).trans hx, hrest⟩
  case served =>
    intro x b' hx hpending'
    have hne : x ≠ k := by
      rintro rfl
      rw [hleft] at hx
      cases hx
    rw [hboxes b' x hne]
    exact h.served x b' ((hother x hne).symm.trans hx) hpending'
  case asleep =>
    intro x hx
    have hne : x ≠ k := by
      rintro rfl
      exact hawake hx
    obtain ⟨b', hb', hnone⟩ := h.asleep x hx
    exact ⟨b', (hother x hne).trans hb', (hboxes b' x hne).trans hnone⟩
  case given =>
    intro x hx
    obtain hx | hx := List.mem_append.mp hx
    · obtain ⟨ha, hnone⟩ := h.given x hx
      have hne : x.1 ≠ k := fun heq => hgiven (heq ▸ List.mem_map_of_mem hx)
      exact ⟨ha, (hother x.1 hne).trans hnone⟩
    · obtain rfl := List.mem_singleton.mp hx
      exact ⟨hanswers, hleft⟩
  case once =>
    rw [show (r.take k b a).given.map Prod.fst = r.given.map Prod.fst ++ [k] from List.map_append]
    exact List.nodup_append.mpr ⟨h.once, List.nodup_singleton k, fun x hx y hy heq =>
      hgiven (List.mem_singleton.mp hy ▸ heq ▸ hx)⟩

theorem step (h : r.Sound answers) (hstep : r.Step answers r') : r'.Sound answers := by
  cases hstep with
  | stay => exact h
  | send b hfresh hused => exact h.send b hfresh hused
  | deliver _ hwaiting hanswers hasleep => exact h.deliver hwaiting hanswers hasleep
  | take hwaiting hawake hbox => exact h.take hwaiting hawake hbox
  | @sleep k b hwaiting hbox =>
    refine ⟨h.used, h.pending, h.boxed, h.served, fun x hx => ?_, h.given, h.once⟩
    obtain rfl | hx := hx
    · exact ⟨b, hwaiting, hbox⟩
    · exact h.asleep x hx
  | wake k => exact ⟨h.used, h.pending, h.boxed, h.served, fun x hx => h.asleep x hx.1, h.given, h.once⟩

omit [DecidableEq κ] [DecidableEq β] in
/-- The caller of a lost answer waits for what will not come. -/
theorem not_matched_lose (h : r.Sound answers) (hpending : k ∈ r.pending) : ¬(r.lose k).Matched answers := by
  intro hmatched
  obtain ⟨b, hb⟩ := h.pending k hpending
  obtain ⟨-, a, ha⟩ := hmatched.served k b hb fun hk => hk.2 rfl
  exact (h.boxed b k a ha).2.1 hpending

end Sound

end Rendezvous
end Lib
