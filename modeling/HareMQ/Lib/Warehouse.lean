import HareMQ.Lib.AckQueue
import Mathlib.Logic.Function.Basic

/-! # Queues under names

Queues with acknowledgements, each under a name, some of them durable. A restart keeps the durable queues, and of
what they hold the durable items, all of them pending again. -/

namespace Lib

structure Stock (α : Type) where
  durable : Bool
  queue : AckQueue α := {}

structure Warehouse (κ α : Type) where
  stock : κ → Option (Stock α) := fun _ => none

namespace Warehouse
variable {κ α ι : Type} [DecidableEq κ] [DecidableEq ι]

/-- A queue that exists stays as it is. -/
def declare (w : Warehouse κ α) (k : κ) (durable : Bool) : Warehouse κ α where
  stock := Function.update w.stock k ((w.stock k).or (some { durable }))

def delete (w : Warehouse κ α) (k : κ) : Warehouse κ α where
  stock := Function.update w.stock k none

def modify (w : Warehouse κ α) (k : κ) (f : Stock α → AckQueue α) : Warehouse κ α where
  stock := Function.update w.stock k ((w.stock k).map fun s => { s with queue := f s })

/-- The item depends on whether the queue is durable. -/
def push (w : Warehouse κ α) (k : κ) (item : Bool → α) : Warehouse κ α :=
  w.modify k fun s => s.queue.push (item s.durable)

def pop (w : Warehouse κ α) (k : κ) : Warehouse κ α := w.modify k fun s => s.queue.pop.2

def ack (key : α → ι) (w : Warehouse κ α) (k : κ) (i : ι) : Warehouse κ α := w.modify k fun s => s.queue.ack key i

omit [DecidableEq κ] in
def restart (durable : α → Bool) (w : Warehouse κ α) : Warehouse κ α where
  stock k := ((w.stock k).filter (·.durable)).map fun s => { s with queue := s.queue.restart durable }

variable {w : Warehouse κ α} {k k' : κ} {s : Stock α} {a : α} {f : Stock α → AckQueue α} {durable : α → Bool} {key : α → ι}

omit [DecidableEq κ] in
theorem ext {w' : Warehouse κ α} (h : ∀ k, w.stock k = w'.stock k) : w = w' := congrArg mk (funext h)

theorem stock_declare_self (w : Warehouse κ α) (k : κ) (durable : Bool) :
    (w.declare k durable).stock k = (w.stock k).or (some { durable }) := Function.update_self ..

theorem stock_declare_ne (h : k' ≠ k) (durable : Bool) : (w.declare k durable).stock k' = w.stock k' :=
  Function.update_of_ne h _ _

theorem stock_delete_self (w : Warehouse κ α) (k : κ) : (w.delete k).stock k = none := Function.update_self ..

theorem stock_delete_ne (h : k' ≠ k) : (w.delete k).stock k' = w.stock k' := Function.update_of_ne h _ _

theorem stock_modify_self (w : Warehouse κ α) (k : κ) (f : Stock α → AckQueue α) :
    (w.modify k f).stock k = (w.stock k).map fun s => { s with queue := f s } := Function.update_self ..

theorem stock_modify_ne (h : k' ≠ k) (f : Stock α → AckQueue α) : (w.modify k f).stock k' = w.stock k' :=
  Function.update_of_ne h _ _

theorem durable_modify (w : Warehouse κ α) (k : κ) (f : Stock α → AckQueue α) (k' : κ) :
    ((w.modify k f).stock k').map (·.durable) = (w.stock k').map (·.durable) := by
  by_cases hk : k' = k
  · subst hk
    rw [stock_modify_self, Option.map_map]
    rfl
  · rw [stock_modify_ne hk]

omit [DecidableEq κ] in
theorem stock_restart (durable : α → Bool) (w : Warehouse κ α) (k : κ) : (w.restart durable).stock k =
    ((w.stock k).filter (·.durable)).map fun s => { s with queue := s.queue.restart durable } := rfl

/-- An operation on a queue that does not exist does nothing. -/
theorem modify_of_none (h : w.stock k = none) (f : Stock α → AckQueue α) : w.modify k f = w := by
  rw [modify, h, Option.map_none, ← h, Function.update_eq_self]

theorem declare_of_some (h : w.stock k = some s) (durable : Bool) : w.declare k durable = w := by
  rw [declare, h, Option.some_or, ← h, Function.update_eq_self]

/-! ### What is held -/

/-- What is held is pending or unacknowledged, and a queue that is not durable holds nothing durable. -/
structure Sound (durable : α → Bool) (w : Warehouse κ α) : Prop where
  placed : ∀ k s, w.stock k = some s → ∀ a ∈ s.queue.held, a ∈ s.queue.pending ∨ a ∈ s.queue.unacked
  light : ∀ k s, w.stock k = some s → s.durable = false → ∀ a ∈ s.queue.held, durable a = false

omit [DecidableEq κ] in
theorem sound_empty (durable : α → Bool) : Sound durable ({} : Warehouse κ α) := ⟨nofun, nofun⟩

theorem Sound.declare (h : w.Sound durable) (k : κ) (lasting : Bool) : (w.declare k lasting).Sound durable := by
  have hstock : ∀ k' s, (w.declare k lasting).stock k' = some s → w.stock k' = some s ∨ s.queue.held = [] := by
    intro k' s hs
    by_cases hk : k' = k
    · subst hk
      rw [stock_declare_self] at hs
      cases hold : w.stock k' with
      | none =>
        rw [hold, Option.none_or] at hs
        cases hs
        exact Or.inr rfl
      | some s' =>
        rw [hold, Option.some_or] at hs
        exact Or.inl hs
    · rw [stock_declare_ne hk] at hs
      exact Or.inl hs
  constructor
  · intro k' s hs a ha
    rcases hstock k' s hs with hold | hnew
    · exact h.placed k' s hold a ha
    · rw [hnew] at ha
      cases ha
  · intro k' s hs hlight a ha
    rcases hstock k' s hs with hold | hnew
    · exact h.light k' s hold hlight a ha
    · rw [hnew] at ha
      cases ha

theorem Sound.delete (h : w.Sound durable) (k : κ) : (w.delete k).Sound durable := by
  have hstock : ∀ k' s, (w.delete k).stock k' = some s → w.stock k' = some s := by
    intro k' s hs
    by_cases hk : k' = k
    · subst hk
      rw [stock_delete_self] at hs
      cases hs
    · rwa [stock_delete_ne hk] at hs
  exact ⟨fun k' s hs => h.placed k' s (hstock k' s hs), fun k' s hs => h.light k' s (hstock k' s hs)⟩

theorem Sound.modify (h : w.Sound durable)
    (hplaced : ∀ s, w.stock k = some s → (∀ a ∈ s.queue.held, a ∈ s.queue.pending ∨ a ∈ s.queue.unacked) →
      ∀ a ∈ (f s).held, a ∈ (f s).pending ∨ a ∈ (f s).unacked)
    (hlight : ∀ s, w.stock k = some s → s.durable = false → ∀ a ∈ (f s).held, a ∈ s.queue.held ∨ durable a = false) :
    (w.modify k f).Sound durable := by
  have hstock : ∀ k' s', (w.modify k f).stock k' = some s' →
      w.stock k' = some s' ∨ ∃ s, w.stock k' = some s ∧ k' = k ∧ s' = { s with queue := f s } := by
    intro k' s' hs'
    by_cases hk : k' = k
    · subst hk
      rw [stock_modify_self, Option.map_eq_some_iff] at hs'
      rcases hs' with ⟨s, hs, rfl⟩
      exact Or.inr ⟨s, hs, rfl, rfl⟩
    · rw [stock_modify_ne hk] at hs'
      exact Or.inl hs'
  constructor
  · intro k' s' hs' a ha
    rcases hstock k' s' hs' with hs | ⟨s, hs, rfl, rfl⟩
    · exact h.placed k' s' hs a ha
    · exact hplaced s hs (h.placed k' s hs) a ha
  · intro k' s' hs' hdurable a ha
    rcases hstock k' s' hs' with hs | ⟨s, hs, rfl, rfl⟩
    · exact h.light k' s' hs hdurable a ha
    · exact (hlight s hs hdurable a ha).elim (h.light k' s hs hdurable a) id

theorem Sound.push (h : w.Sound durable) (k : κ) {item : Bool → α} (hitem : durable (item false) = false) :
    (w.push k item).Sound durable := by
  refine h.modify (fun s _ hs a ha => ?_) fun s _ hlight a ha => ?_
  · rcases List.mem_append.mp ha with ha | ha
    · exact (hs a ha).imp_left (List.mem_append_left _)
    · exact Or.inl (List.mem_append_right _ ha)
  · rcases List.mem_append.mp ha with ha | ha
    · exact Or.inl ha
    · rw [List.mem_singleton.mp ha, hlight]
      exact Or.inr hitem

theorem Sound.pop (h : w.Sound durable) (k : κ) : (w.pop k).Sound durable := by
  refine h.modify (fun s _ hs a ha => ?_) fun s _ _ a ha => Or.inl ?_
  · unfold AckQueue.pop at ha ⊢
    split at ha
    · next hnil =>
      rw [hnil]
      exact (hs a ha).imp_left fun hmem => hnil ▸ hmem
    · next b rest hpending =>
      rcases hs a ha with hmem | hmem
      · rcases List.mem_cons.mp (hpending ▸ hmem) with rfl | hmem
        · exact Or.inr List.mem_cons_self
        · exact Or.inl hmem
      · exact Or.inr (List.mem_cons_of_mem _ hmem)
  · unfold AckQueue.pop at ha
    split at ha <;> exact ha

theorem Sound.ack (h : w.Sound durable) (k : κ) (i : ι) : (w.ack key k i).Sound durable := by
  refine h.modify (fun s _ hs a ha => ?_) fun s _ _ a ha => Or.inl ?_
  · unfold AckQueue.ack at ha ⊢
    split at ha
    · next hmem =>
      rw [if_pos hmem]
      rcases List.mem_filter.mp ha with ⟨ha, hkey⟩
      exact (hs a ha).imp_right fun hunacked => List.mem_filter.mpr ⟨hunacked, hkey⟩
    · next hnot =>
      rw [if_neg hnot]
      exact hs a ha
  · unfold AckQueue.ack at ha
    split at ha
    · exact (List.mem_filter.mp ha).1
    · exact ha

omit [DecidableEq κ] in
theorem sound_restart (durable : α → Bool) (w : Warehouse κ α) : (w.restart durable).Sound durable := by
  have hstock : ∀ k s', (w.restart durable).stock k = some s' →
      s'.durable = true ∧ s'.queue.pending = s'.queue.held := by
    intro k s' hs'
    rcases Option.map_eq_some_iff.mp hs' with ⟨s, hs, rfl⟩
    exact ⟨(Option.filter_eq_some_iff.mp hs).2, rfl⟩
  constructor
  · intro k s' hs' a ha
    rw [(hstock k s' hs').2]
    exact Or.inl ha
  · intro k s' hs' hlight
    rw [(hstock k s' hs').1] at hlight
    cases hlight

/-! ### What stays -/

/-- The item is held in a durable queue. -/
def Retains (w : Warehouse κ α) (k : κ) (a : α) : Prop :=
  ∃ s, w.stock k = some s ∧ s.durable = true ∧ a ∈ s.queue.held

theorem Retains.declare (h : w.Retains k a) (k' : κ) (lasting : Bool) : (w.declare k' lasting).Retains k a := by
  rcases h with ⟨s, hs, hdurable, ha⟩
  by_cases hk : k = k'
  · subst hk
    rw [declare_of_some hs]
    exact ⟨s, hs, hdurable, ha⟩
  · exact ⟨s, (stock_declare_ne hk lasting).trans hs, hdurable, ha⟩

theorem Retains.delete (h : w.Retains k a) (hk : k ≠ k') : (w.delete k').Retains k a := by
  rcases h with ⟨s, hs, hdurable, ha⟩
  exact ⟨s, (stock_delete_ne hk).trans hs, hdurable, ha⟩

theorem Retains.modify (h : w.Retains k a) (hf : ∀ s, k = k' → a ∈ s.queue.held → a ∈ (f s).held) :
    (w.modify k' f).Retains k a := by
  rcases h with ⟨s, hs, hdurable, ha⟩
  by_cases hk : k = k'
  · have hstock := stock_modify_self w k f
    rw [hs, Option.map_some] at hstock
    rw [← hk]
    exact ⟨{ s with queue := f s }, hstock, hdurable, hf s hk ha⟩
  · exact ⟨s, (stock_modify_ne hk f).trans hs, hdurable, ha⟩

theorem Retains.push (h : w.Retains k a) (k' : κ) (item : Bool → α) : (w.push k' item).Retains k a :=
  h.modify fun _ _ ha => List.mem_append_left _ ha

theorem Retains.pop (h : w.Retains k a) (k' : κ) : (w.pop k').Retains k a := by
  refine h.modify fun s _ ha => ?_
  unfold AckQueue.pop
  split <;> exact ha

theorem Retains.ack (h : w.Retains k a) {i : ι} (hkept : k ≠ k' ∨ key a ≠ i) : (w.ack key k' i).Retains k a := by
  refine h.modify fun s hk ha => ?_
  unfold AckQueue.ack
  split
  · exact List.mem_filter.mpr ⟨ha, decide_eq_true (hkept.resolve_left fun hne => hne hk)⟩
  · exact ha

omit [DecidableEq κ] in
theorem Retains.restart (h : w.Retains k a) (ha : durable a = true) : (w.restart durable).Retains k a := by
  rcases h with ⟨s, hs, hdurable, hheld⟩
  refine ⟨{ s with queue := s.queue.restart durable }, ?_, hdurable, List.mem_filter.mpr ⟨hheld, ha⟩⟩
  rw [stock_restart, hs, Option.filter_some, if_pos hdurable, Option.map_some]

theorem retains_push (hs : w.stock k = some s) (hdurable : s.durable = true) (item : Bool → α) :
    (w.push k item).Retains k (item true) := by
  refine ⟨{ s with queue := s.queue.push (item s.durable) }, ?_, hdurable, ?_⟩
  · rw [push, stock_modify_self, hs, Option.map_some]
  · rw [hdurable]
    exact List.mem_append_right _ (List.mem_singleton_self _)

omit [DecidableEq κ] in
/-- After a restart everything that is held is pending again. -/
theorem Retains.pending (h : (w.restart durable).Retains k a) :
    ∃ s, (w.restart durable).stock k = some s ∧ a ∈ s.queue.pending := by
  rcases h with ⟨s', hs', -, ha⟩
  refine ⟨s', hs', ?_⟩
  rcases Option.map_eq_some_iff.mp hs' with ⟨s, -, rfl⟩
  exact ha

end Warehouse
end Lib
