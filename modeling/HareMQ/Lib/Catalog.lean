import Mathlib.Data.Option.Basic
import Mathlib.Logic.Function.Basic

/-! # A catalog of objects and links

Named objects, and links from one object to another. A restart keeps the durable objects, and the links both
ends of which are durable. -/

namespace Lib

structure Catalog (ι ν κ : Type) where
  objects : ι → Option ν := fun _ => none
  links : ι → ι → Option κ := fun _ _ => none

namespace Catalog
variable {ι ν κ : Type}

theorem ext {c c' : Catalog ι ν κ} (ho : ∀ i, c.objects i = c'.objects i)
    (hl : ∀ i j, c.links i j = c'.links i j) : c = c' := by
  obtain ⟨o, l⟩ := c
  obtain ⟨o', l'⟩ := c'
  obtain rfl : o = o' := funext ho
  obtain rfl : l = l' := funext fun i => funext (hl i)
  rfl

/-- The object exists and is durable. -/
def lasting (durable : ν → Bool) (c : Catalog ι ν κ) (i : ι) : Bool := (c.objects i).any durable

def restart (durable : ν → Bool) (c : Catalog ι ν κ) : Catalog ι ν κ where
  objects i := (c.objects i).filter durable
  links i j := if c.lasting durable i && c.lasting durable j then c.links i j else none

/-- Both ends of every link exist. -/
def Linked (c : Catalog ι ν κ) : Prop :=
  ∀ ⦃i j k⦄, c.links i j = some k → (c.objects i).isSome ∧ (c.objects j).isSome

variable [DecidableEq ι]

/-- An object that exists stays as it is. -/
def declare (c : Catalog ι ν κ) (i : ι) (v : ν) : Catalog ι ν κ :=
  { c with objects := Function.update c.objects i ((c.objects i).or (some v)) }

/-- The object and the links at either end of it. -/
def delete (c : Catalog ι ν κ) (i : ι) : Catalog ι ν κ where
  objects := Function.update c.objects i none
  links a b := if a = i ∨ b = i then none else c.links a b

/-- The object stays, and loses the links at either end of it. -/
def isolate (c : Catalog ι ν κ) (i : ι) : Catalog ι ν κ where
  objects := c.objects
  links a b := if a = i ∨ b = i then none else c.links a b

/-- A link needs both ends, and a link that exists stays as it is. -/
def link (c : Catalog ι ν κ) (i j : ι) (k : κ) : Catalog ι ν κ where
  objects := c.objects
  links a b :=
    if a = i ∧ b = j ∧ (c.objects i).isSome ∧ (c.objects j).isSome then (c.links a b).or (some k) else c.links a b

def unlink (c : Catalog ι ν κ) (i j : ι) : Catalog ι ν κ where
  objects := c.objects
  links a b := if a = i ∧ b = j then none else c.links a b

variable {c : Catalog ι ν κ} {i j : ι} {v : ν} {k : κ} {durable : ν → Bool}

theorem objects_declare_ne {a : ι} (h : a ≠ i) (v : ν) : (c.declare i v).objects a = c.objects a :=
  Function.update_of_ne h _ _

theorem objects_delete_self (c : Catalog ι ν κ) (i : ι) : (c.delete i).objects i = none := Function.update_self ..

theorem objects_delete_ne {a : ι} (h : a ≠ i) : (c.delete i).objects a = c.objects a := Function.update_of_ne h _ _

theorem declare_of_isSome (h : (c.objects i).isSome) (v : ν) : c.declare i v = c := by
  obtain ⟨w, hw⟩ := Option.isSome_iff_exists.mp h
  refine Catalog.ext (fun a => ?_) fun a b => rfl
  · by_cases ha : a = i
    · subst ha
      simp [declare, hw]
    · simp [declare, Function.update_of_ne ha]

theorem link_of_isSome (h : (c.links i j).isSome) (k : κ) : c.link i j k = c := by
  obtain ⟨w, hw⟩ := Option.isSome_iff_exists.mp h
  refine Catalog.ext (fun a => ?_) fun a b => ?_
  · rfl
  · simp only [link]
    split
    · next hab => rw [hab.1, hab.2.1, hw, Option.some_or]
    · rfl

theorem link_of_missing (h : ¬ ((c.objects i).isSome ∧ (c.objects j).isSome)) (k : κ) : c.link i j k = c := by
  refine Catalog.ext (fun a => ?_) fun a b => ?_
  · rfl
  · exact if_neg fun hab => h hab.2.2

/-! ### Links keep their ends -/

theorem Linked.declare (h : c.Linked) (i : ι) (v : ν) : (c.declare i v).Linked := by
  have keep : ∀ a, (c.objects a).isSome → ((c.declare i v).objects a).isSome := fun a ha => by
    by_cases hai : a = i
    · subst hai
      simp [Catalog.declare]
    · simpa [Catalog.declare, Function.update_of_ne hai] using ha
  exact fun a b k hk => ⟨keep a (h hk).1, keep b (h hk).2⟩

theorem Linked.delete (h : c.Linked) (i : ι) : (c.delete i).Linked := by
  intro a b k hk
  simp only [Catalog.delete] at hk ⊢
  split at hk
  · cases hk
  · next hab =>
    rw [not_or] at hab
    rw [Function.update_of_ne hab.1, Function.update_of_ne hab.2]
    exact h hk

theorem Linked.link (h : c.Linked) (i j : ι) (k : κ) : (c.link i j k).Linked := by
  intro a b k' hk
  simp only [Catalog.link] at hk ⊢
  split at hk
  · next hab => exact hab.1 ▸ hab.2.1 ▸ hab.2.2
  · exact h hk

theorem Linked.unlink (h : c.Linked) (i j : ι) : (c.unlink i j).Linked := by
  intro a b k hk
  simp only [Catalog.unlink] at hk ⊢
  split at hk
  · cases hk
  · exact h hk

omit [DecidableEq ι] in
theorem linked_restart (durable : ν → Bool) (c : Catalog ι ν κ) : (c.restart durable).Linked := by
  intro a b k hk
  simp only [restart] at hk ⊢
  split at hk
  · next hab =>
    have keep : ∀ a, c.lasting durable a = true → ((c.objects a).filter durable).isSome := fun a ha => by
      obtain ⟨v, hv, hd⟩ := (Option.any_eq_true _ _).mp ha
      simp [hv, hd]
    exact ⟨keep a (Bool.and_eq_true_iff.mp hab).1, keep b (Bool.and_eq_true_iff.mp hab).2⟩
  · cases hk

/-! ### A restart commutes with the operations -/

omit [DecidableEq ι] in
theorem lasting_restart (durable : ν → Bool) (c : Catalog ι ν κ) (i : ι) :
    (c.restart durable).lasting durable i = c.lasting durable i := by
  change ((c.objects i).filter durable).any durable = (c.objects i).any durable
  cases h : c.objects i with
  | none => rfl
  | some v => cases hd : durable v <;> simp [Option.filter, hd]

omit [DecidableEq ι] in
theorem restart_restart (durable : ν → Bool) (c : Catalog ι ν κ) :
    (c.restart durable).restart durable = c.restart durable := by
  refine Catalog.ext (fun a => ?_) fun a b => ?_
  · simp [restart]
  · change (if _ then (c.restart durable).links a b else none) = _
    rw [lasting_restart, lasting_restart]
    simp only [restart]
    split <;> rfl

omit [DecidableEq ι] in
/-- A link at an object that does not exist is not there. -/
theorem Linked.links_none (h : c.Linked) (hi : c.objects i = none) {a b : ι} (hab : a = i ∨ b = i) :
    c.links a b = none := by
  cases hk : c.links a b with
  | none => rfl
  | some k =>
    obtain ⟨ha, hb⟩ := h hk
    rcases hab with rfl | rfl
    · simp [hi] at ha
    · simp [hi] at hb

theorem lasting_declare_ne {a : ι} (h : a ≠ i) : (c.declare i v).lasting durable a = c.lasting durable a := by
  simp [lasting, declare, Function.update_of_ne h]

/-- No link ends at a new object, so that its declaration does not change which links last. -/
theorem links_restart_declare (hl : c.Linked) (hi : c.objects i = none) (v : ν) (a b : ι) :
    ((c.declare i v).restart durable).links a b = (c.restart durable).links a b := by
  simp only [restart]
  by_cases hab : a = i ∨ b = i
  · rw [show (c.declare i v).links a b = none from hl.links_none hi hab, hl.links_none hi hab, ite_self, ite_self]
  · rw [not_or] at hab
    simp only [lasting_declare_ne hab.1, lasting_declare_ne hab.2]
    rfl

theorem restart_declare_durable (hl : c.Linked) (hi : c.objects i = none) (hv : durable v = true) :
    (c.declare i v).restart durable = (c.restart durable).declare i v := by
  refine Catalog.ext (fun a => ?_) fun a b => ?_
  · by_cases ha : a = i
    · subst ha
      simp [restart, declare, hi, hv]
    · simp [restart, declare, Function.update_of_ne ha]
  · exact links_restart_declare hl hi v a b

theorem restart_declare_transient (hl : c.Linked) (hi : c.objects i = none) (hv : durable v = false) :
    (c.declare i v).restart durable = c.restart durable := by
  refine Catalog.ext (fun a => ?_) fun a b => ?_
  · by_cases ha : a = i
    · subst ha
      simp [restart, declare, hi, hv]
    · simp [restart, declare, Function.update_of_ne ha]
  · exact links_restart_declare hl hi v a b

theorem restart_delete (durable : ν → Bool) (c : Catalog ι ν κ) (i : ι) :
    (c.delete i).restart durable = (c.restart durable).delete i := by
  refine Catalog.ext (fun a => ?_) fun a b => ?_
  · by_cases ha : a = i
    · subst ha
      simp [restart, delete]
    · simp [restart, delete, Function.update_of_ne ha]
  · by_cases hab : a = i ∨ b = i
    · simp only [restart, delete, if_pos hab, ite_self]
    · simp only [restart, delete, if_neg hab]
      rw [not_or] at hab
      simp [lasting, Function.update_of_ne hab.1, Function.update_of_ne hab.2]

theorem restart_isolate (durable : ν → Bool) (c : Catalog ι ν κ) (i : ι) :
    (c.isolate i).restart durable = (c.restart durable).isolate i := by
  refine Catalog.ext (fun a => rfl) fun a b => ?_
  show (if c.lasting durable a && c.lasting durable b then if a = i ∨ b = i then none else c.links a b else none) =
    if a = i ∨ b = i then none else if c.lasting durable a && c.lasting durable b then c.links a b else none
  by_cases hab : a = i ∨ b = i
  · rw [if_pos hab, if_pos hab, ite_self]
  · rw [if_neg hab, if_neg hab]

theorem restart_link_durable (hi : c.lasting durable i = true) (hj : c.lasting durable j = true) (k : κ) :
    (c.link i j k).restart durable = (c.restart durable).link i j k := by
  have exist : ∀ a, c.lasting durable a = true → (c.objects a).isSome ∧ ((c.objects a).filter durable).isSome := fun a ha => by
    obtain ⟨v, hv, hd⟩ := (Option.any_eq_true _ _).mp ha
    simp [hv, hd]
  refine Catalog.ext (fun a => ?_) fun a b => ?_
  · rfl
  · by_cases hab : a = i ∧ b = j
    · obtain ⟨rfl, rfl⟩ := hab
      change (if c.lasting durable a && c.lasting durable b then (c.link a b k).links a b else none) = _
      simp only [restart, link, exist a hi, exist b hj, hi, hj, and_self, Bool.and_self, if_true]
    · simp only [restart, link, ← and_assoc, hab, false_and, if_false]
      rfl

theorem restart_link_transient (h : (c.lasting durable i && c.lasting durable j) = false) (k : κ) :
    (c.link i j k).restart durable = c.restart durable := by
  refine Catalog.ext (fun a => ?_) fun a b => ?_
  · rfl
  · change (if c.lasting durable a && c.lasting durable b then (c.link i j k).links a b else none) = _
    simp only [restart]
    split
    · next hab =>
      refine if_neg fun hij => ?_
      rw [hij.1, hij.2.1, h] at hab
      cases hab
    · rfl

theorem restart_unlink (durable : ν → Bool) (c : Catalog ι ν κ) (i j : ι) :
    (c.unlink i j).restart durable = (c.restart durable).unlink i j := by
  refine Catalog.ext (fun a => ?_) fun a b => ?_
  · rfl
  · change (if c.lasting durable a && c.lasting durable b then (c.unlink i j).links a b else none) = _
    simp only [restart, unlink]
    by_cases hab : a = i ∧ b = j
    · simp only [hab, and_self, if_true, ite_self]
    · simp only [hab, if_false]

end Catalog
end Lib
