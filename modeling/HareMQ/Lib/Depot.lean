import Mathlib.Data.List.Nodup
import Mathlib.Data.List.Count
import Mathlib.Logic.Function.Basic

/-! # Depots

Items wait in lines, one line a key; one item at a time is taken from the front of a line, and then it leaves. A line
can be closed and opened again, and epochs tell the items of the former line from those of the new one. A depot
conserves its items when each that entered, and no other, is in exactly one place. -/

namespace Lib

structure Item (κ : Type) where
  key : κ
  epoch : Nat
  ref : Nat
deriving DecidableEq, Repr

/-- The references that wait in a line, oldest first, and the next one to be given out. -/
structure Line where
  refs : List Nat
  next : Nat

structure Depot (κ : Type) where
  lines : κ → Option Line
  epochs : κ → Nat
  hold : Option (Item κ)
  entered : List (Item κ)
  left : List (Item κ)

namespace Depot
variable {κ : Type}

def waiting (d : Depot κ) (k : κ) : List (Item κ) :=
  (((d.lines k).map Line.refs).getD []).map fun r => ⟨k, d.epochs k, r⟩

/-- Every item of a line that is open is in one place, and none is there that did not enter. -/
def Conserved [DecidableEq κ] (d : Depot κ) : Prop :=
  ∀ m : Item κ, d.epochs m.key = m.epoch →
    (d.waiting m.key).count m + d.hold.toList.count m + d.left.count m = if m ∈ d.entered then 1 else 0

inductive Step [DecidableEq κ] (d : Depot κ) : Depot κ → Prop
  | stay : Step d d
  | enter {k : κ} {line : Line} (hline : d.lines k = some line) :
    Step d { d with
      lines := Function.update d.lines k (some ⟨line.refs ++ [line.next], line.next + 1⟩)
      entered := d.entered ++ [⟨k, d.epochs k, line.next⟩] }
  /-- A closed line is opened, and the items that are found in it enter. -/
  | opened {k : κ} {line : Line} (hclosed : d.lines k = none) (hnodup : line.refs.Nodup) (hbounded : ∀ r ∈ line.refs, r < line.next) :
    Step d { d with
      lines := Function.update d.lines k (some line)
      entered := d.entered ++ line.refs.map fun r => ⟨k, d.epochs k, r⟩ }
  | closed (k : κ) :
    Step d { d with
      lines := Function.update d.lines k none
      epochs := Function.update d.epochs k (d.epochs k + 1) }
  | take {k : κ} {line : Line} {r : Nat} {refs : List Nat} (hline : d.lines k = some line)
      (hrefs : line.refs = r :: refs) (hfree : d.hold = none) :
    Step d { d with
      lines := Function.update d.lines k (some { line with refs })
      hold := some ⟨k, d.epochs k, r⟩ }
  | hand {m : Item κ} (hhold : d.hold = some m) : Step d { d with hold := none, left := d.left ++ [m] }
  /-- The line of the item was closed meanwhile. -/
  | drop {m : Item κ} (hhold : d.hold = some m) (hstale : m.epoch ≠ d.epochs m.key) : Step d { d with hold := none }

variable {d d' : Depot κ} {k : κ} {m : Item κ} {line : Line}

theorem waiting_of_lines (h : d.lines k = some line) :
    d.waiting k = line.refs.map fun r => ⟨k, d.epochs k, r⟩ := by
  rw [waiting, h, Option.map_some, Option.getD_some]

theorem waiting_of_closed (h : d.lines k = none) : d.waiting k = [] := by
  rw [waiting, h, Option.map_none, Option.getD_none, List.map_nil]

theorem waiting_congr (hlines : d'.lines k = d.lines k) (hepochs : d'.epochs k = d.epochs k) :
    d'.waiting k = d.waiting k := by
  rw [waiting, hlines, hepochs, waiting]

theorem mem_waiting_iff : m ∈ d.waiting k ↔
    m.key = k ∧ m.epoch = d.epochs k ∧ ∃ line, d.lines k = some line ∧ m.ref ∈ line.refs := by
  obtain ⟨key, epoch, ref⟩ := m
  cases h : d.lines k with
  | none => simp [waiting_of_closed h]
  | some line =>
    simp only [waiting_of_lines h, List.mem_map, Item.mk.injEq, Option.some.injEq, exists_eq_left']
    constructor
    · rintro ⟨r, hr, rfl, rfl, rfl⟩
      exact ⟨rfl, rfl, hr⟩
    · rintro ⟨rfl, rfl, hr⟩
      exact ⟨ref, hr, rfl, rfl, rfl⟩

theorem nodup_waiting (h : d.lines k = some line) (hnodup : line.refs.Nodup) : (d.waiting k).Nodup := by
  rw [waiting_of_lines h]
  exact hnodup.map fun _ _ heq => congrArg Item.ref heq

variable [DecidableEq κ]

theorem waiting_update_ne (d : Depot κ) {k' : κ} (hk : k' ≠ k) (line : Option Line) (hold : Option (Item κ))
    (entered left : List (Item κ)) :
    waiting { d with lines := Function.update d.lines k line, hold, entered, left } k' = d.waiting k' :=
  waiting_congr (Function.update_of_ne hk ..) rfl

/-! ### The invariant -/

/-- The invariant. It speaks of later epochs too, which no item has reached. -/
structure Sound (d : Depot κ) : Prop where
  known : ∀ m ∈ d.entered, m.epoch ≤ d.epochs m.key ∧
    (m.epoch = d.epochs m.key → ∃ line, d.lines m.key = some line ∧ m.ref < line.next)
  once : d.entered.Nodup
  balanced : ∀ m : Item κ, d.epochs m.key ≤ m.epoch →
    (d.waiting m.key).count m + d.hold.toList.count m + d.left.count m = d.entered.count m

namespace Sound

theorem conserved (h : d.Sound) : d.Conserved := fun m hm => by
  rw [h.balanced m (Nat.le_of_eq hm), h.once.count]

/-- An item that is in a place has entered. -/
theorem entered (h : d.Sound) (hepoch : d.epochs m.key ≤ m.epoch)
    (hm : m ∈ d.waiting m.key ∨ m ∈ d.hold ∨ m ∈ d.left) : m ∈ d.entered := by
  rw [← List.count_pos_iff, ← h.balanced m hepoch]
  rcases hm with hm | hm | hm
  · have := List.count_pos_iff.mpr hm
    omega
  · have := List.count_pos_iff.mpr (Option.mem_toList.mpr hm)
    omega
  · have := List.count_pos_iff.mpr hm
    omega

theorem bounded (h : d.Sound) (hline : d.lines k = some line) {r : Nat} (hr : r ∈ line.refs) : r < line.next := by
  have hm : (⟨k, d.epochs k, r⟩ : Item κ) ∈ d.entered :=
    h.entered (Nat.le_refl _) (Or.inl (mem_waiting_iff.mpr ⟨rfl, rfl, line, hline, hr⟩))
  obtain ⟨line', hline', hlt⟩ := (h.known _ hm).2 rfl
  obtain rfl := Option.some.inj (hline.symm.trans hline')
  exact hlt

/-- The next reference of an open line has not entered. -/
theorem next_notMem (h : d.Sound) (hline : d.lines k = some line) {r : Nat} (hr : line.next ≤ r) :
    (⟨k, d.epochs k, r⟩ : Item κ) ∉ d.entered := fun hm => by
  obtain ⟨line', hline', hlt⟩ := (h.known _ hm).2 rfl
  obtain rfl := Option.some.inj (hline.symm.trans hline')
  exact absurd hlt (Nat.not_lt.mpr hr)

/-- Nothing of a closed line has entered in its epoch. -/
theorem notMem_of_closed (h : d.Sound) (hclosed : d.lines k = none) (r : Nat) :
    (⟨k, d.epochs k, r⟩ : Item κ) ∉ d.entered := fun hm => by
  obtain ⟨line, hline, -⟩ := (h.known _ hm).2 rfl
  rw [hclosed] at hline
  cases hline

theorem enter (h : d.Sound) (hline : d.lines k = some line) :
    Sound { d with
      lines := Function.update d.lines k (some ⟨line.refs ++ [line.next], line.next + 1⟩)
      entered := d.entered ++ [⟨k, d.epochs k, line.next⟩] } where
  known m hm := by
    rcases List.mem_append.mp hm with hm | hm
    · refine ⟨(h.known m hm).1, fun hepoch => ?_⟩
      obtain ⟨line', hline', hlt⟩ := (h.known m hm).2 hepoch
      by_cases hk : m.key = k
      · refine ⟨_, by rw [hk]; exact Function.update_self .., ?_⟩
        rw [hk, hline, Option.some.injEq] at hline'
        subst hline'
        exact Nat.lt_succ_of_lt hlt
      · exact ⟨line', (Function.update_of_ne hk ..).trans hline', hlt⟩
    · rw [List.mem_singleton] at hm
      subst hm
      exact ⟨Nat.le_refl _, fun _ => ⟨_, Function.update_self .., Nat.lt_succ_self _⟩⟩
  once := List.nodup_append.mpr ⟨h.once, List.nodup_singleton _, fun m hm m' hm' heq =>
    h.next_notMem hline (Nat.le_refl _) (List.mem_singleton.mp hm' ▸ heq ▸ hm)⟩
  balanced m hm := by
    have hbal := h.balanced m hm
    by_cases hk : m.key = k
    · subst hk
      rw [waiting_of_lines hline] at hbal
      rw [waiting_of_lines (Function.update_self ..), List.map_append, List.count_append, List.count_append]
      simp only [List.map_singleton]
      omega
    · rw [waiting_update_ne d hk, List.count_append, List.count_singleton]
      have hne : ((⟨k, d.epochs k, line.next⟩ : Item κ) == m) = false := by
        rw [beq_eq_false_iff_ne]
        rintro rfl
        exact hk rfl
      rw [hne]
      exact hbal

theorem opened (h : d.Sound) (hclosed : d.lines k = none) (hnodup : line.refs.Nodup)
    (hbounded : ∀ r ∈ line.refs, r < line.next) :
    Sound { d with
      lines := Function.update d.lines k (some line)
      entered := d.entered ++ line.refs.map fun r => ⟨k, d.epochs k, r⟩ } where
  known m hm := by
    rcases List.mem_append.mp hm with hm | hm
    · refine ⟨(h.known m hm).1, fun hepoch => ?_⟩
      obtain ⟨line', hline', hlt⟩ := (h.known m hm).2 hepoch
      have hk : m.key ≠ k := by
        rintro rfl
        rw [hclosed] at hline'
        cases hline'
      exact ⟨line', (Function.update_of_ne hk ..).trans hline', hlt⟩
    · obtain ⟨r, hr, rfl⟩ := List.mem_map.mp hm
      exact ⟨Nat.le_refl _, fun _ => ⟨line, Function.update_self .., hbounded r hr⟩⟩
  once := by
    refine List.nodup_append.mpr ⟨h.once, hnodup.map fun _ _ heq => congrArg Item.ref heq, fun m hm m' hm' heq => ?_⟩
    obtain ⟨r, -, rfl⟩ := List.mem_map.mp hm'
    exact h.notMem_of_closed hclosed r (heq ▸ hm)
  balanced m hm := by
    have hbal := h.balanced m hm
    by_cases hk : m.key = k
    · subst hk
      rw [waiting_of_closed hclosed, List.count_nil, Nat.zero_add] at hbal
      rw [waiting_of_lines (Function.update_self ..), List.count_append]
      dsimp only at hbal ⊢
      omega
    · rw [waiting_update_ne d hk, List.count_append]
      have hnone : (line.refs.map fun r => (⟨k, d.epochs k, r⟩ : Item κ)).count m = 0 := by
        rw [List.count_eq_zero]
        intro hmem
        obtain ⟨r, -, rfl⟩ := List.mem_map.mp hmem
        exact hk rfl
      rw [hnone]
      exact hbal

theorem closed (h : d.Sound) (k : κ) :
    Sound { d with
      lines := Function.update d.lines k none
      epochs := Function.update d.epochs k (d.epochs k + 1) } where
  known m hm := by
    obtain ⟨hle, hline⟩ := h.known m hm
    by_cases hk : m.key = k
    · subst hk
      dsimp only
      rw [Function.update_self]
      exact ⟨Nat.le_succ_of_le hle, fun hepoch => by omega⟩
    · dsimp only
      rw [Function.update_of_ne hk, Function.update_of_ne hk]
      exact ⟨hle, hline⟩
  once := h.once
  balanced m hm := by
    by_cases hk : m.key = k
    · subst hk
      dsimp only at hm
      rw [Function.update_self] at hm
      -- Nothing has the new epoch yet.
      have hnone : d.entered.count m = 0 := by
        rw [List.count_eq_zero]
        intro hmem
        have := (h.known m hmem).1
        omega
      have hbal := h.balanced m (by omega)
      rw [waiting_of_closed (Function.update_self ..), List.count_nil]
      dsimp only
      omega
    · dsimp only at hm
      rw [Function.update_of_ne hk] at hm
      rw [waiting_congr (Function.update_of_ne hk ..) (Function.update_of_ne hk ..)]
      exact h.balanced m hm

theorem take (h : d.Sound) {r : Nat} {refs : List Nat} (hline : d.lines k = some line) (hrefs : line.refs = r :: refs)
    (hfree : d.hold = none) :
    Sound { d with
      lines := Function.update d.lines k (some { line with refs })
      hold := some ⟨k, d.epochs k, r⟩ } where
  known m hm := by
    refine ⟨(h.known m hm).1, fun hepoch => ?_⟩
    obtain ⟨line', hline', hlt⟩ := (h.known m hm).2 hepoch
    by_cases hk : m.key = k
    · refine ⟨_, by rw [hk]; exact Function.update_self .., ?_⟩
      rw [hk, hline, Option.some.injEq] at hline'
      subst hline'
      exact hlt
    · exact ⟨line', (Function.update_of_ne hk ..).trans hline', hlt⟩
  once := h.once
  balanced m hm := by
    have hbal := h.balanced m hm
    rw [hfree, Option.toList_none, List.count_nil] at hbal
    rw [Option.toList_some, List.count_singleton]
    by_cases hk : m.key = k
    · subst hk
      rw [waiting_of_lines hline, hrefs, List.map_cons, List.count_cons] at hbal
      rw [waiting_of_lines (Function.update_self ..)]
      dsimp only at hbal ⊢
      omega
    · have hne : ((⟨k, d.epochs k, r⟩ : Item κ) == m) = false := by
        rw [beq_eq_false_iff_ne]
        rintro rfl
        exact hk rfl
      rw [waiting_update_ne d hk, hne]
      exact hbal

theorem hand (h : d.Sound) (hhold : d.hold = some m) : Sound { d with hold := none, left := d.left ++ [m] } where
  known := h.known
  once := h.once
  balanced m' hm' := by
    have hbal := h.balanced m' hm'
    rw [hhold, Option.toList_some] at hbal
    show (d.waiting m'.key).count m' + List.count m' [] + (d.left ++ [m]).count m' = d.entered.count m'
    rw [List.count_nil, List.count_append]
    omega

theorem drop (h : d.Sound) (hhold : d.hold = some m) (hstale : m.epoch ≠ d.epochs m.key) :
    Sound { d with hold := none } where
  known := h.known
  once := h.once
  balanced m' hm' := by
    have hbal := h.balanced m' hm'
    have hne : m' ≠ m := by
      rintro rfl
      have hle := (h.known m' (h.entered hm' (Or.inr (Or.inl hhold)))).1
      exact hstale (Nat.le_antisymm hle hm')
    rw [hhold, Option.toList_some, List.count_singleton, beq_eq_false_iff_ne.mpr hne.symm] at hbal
    exact hbal

/-- A step keeps the invariant. -/
theorem step (h : d.Sound) (hstep : d.Step d') : d'.Sound := by
  cases hstep with
  | stay => exact h
  | enter hline => exact h.enter hline
  | opened hclosed hnodup hbounded => exact h.opened hclosed hnodup hbounded
  | closed k => exact h.closed k
  | take hline hrefs hfree => exact h.take hline hrefs hfree
  | hand hhold => exact h.hand hhold
  | drop hhold hstale => exact h.drop hhold hstale

/-- All items that are found in the lines at the start have entered. -/
theorem start {lines : κ → Option Line} {keys : List κ} (hkeys : keys.Nodup) (hopen : ∀ k line, lines k = some line →
    k ∈ keys ∧ line.refs.Nodup ∧ ∀ r ∈ line.refs, r < line.next) {waits : κ → List (Item κ)}
    (hwaits : ∀ k, waits k = ((⟨lines, fun _ => 0, none, [], []⟩ : Depot κ).waiting k)) :
    Sound ⟨lines, fun _ => 0, none, keys.flatMap waits, []⟩ := by
  have hnodup : ∀ k, (waits k).Nodup := fun k => by
    rw [hwaits]
    cases hline : lines k with
    | none =>
      rw [waiting_of_closed hline]
      exact List.nodup_nil
    | some line => exact nodup_waiting hline (hopen k line hline).2.1
  have hmem : ∀ m k, m ∈ waits k ↔ m.key = k ∧ m.epoch = 0 ∧ ∃ line, lines k = some line ∧ m.ref ∈ line.refs :=
    fun m k => by
      rw [hwaits]
      exact mem_waiting_iff
  have honce : (keys.flatMap waits).Nodup := by
    refine List.nodup_flatMap.mpr ⟨fun k _ => hnodup k, hkeys.imp fun hne m hm hm' => ?_⟩
    exact hne (((hmem m _).mp hm).1.symm.trans ((hmem m _).mp hm').1)
  refine ⟨fun m hm => ?_, honce, fun m _ => ?_⟩
  · obtain ⟨k, -, hm⟩ := List.mem_flatMap.mp hm
    obtain ⟨rfl, hepoch, line, hline, hr⟩ := (hmem m k).mp hm
    exact ⟨Nat.le_of_eq hepoch, fun _ => ⟨line, hline, (hopen _ line hline).2.2 _ hr⟩⟩
  · show List.count m _ + 0 + 0 = _
    have hiff : m ∈ keys.flatMap waits ↔ m ∈ waits m.key := by
      refine List.mem_flatMap.trans ⟨?_, fun hm => ?_⟩
      · rintro ⟨k, -, hm⟩
        obtain ⟨rfl, -⟩ := (hmem m k).mp hm
        exact hm
      · obtain ⟨-, -, line, hline, -⟩ := (hmem m _).mp hm
        exact ⟨m.key, (hopen _ line hline).1, hm⟩
    have hcount : (waits m.key).count m = (keys.flatMap waits).count m := by
      rw [honce.count, (hnodup m.key).count, if_congr hiff rfl rfl]
    rw [← hcount, hwaits]
    rfl

/-! ### Losses -/

/-- An item that is dropped while its line is open is in no place any more. -/
theorem not_conserved_of_dropped (h : d.Sound) (hhold : d.hold = some m) (hopen : m.epoch = d.epochs m.key) :
    ¬Conserved { d with hold := none } := fun hcons => by
  have hmem : m ∈ d.entered := h.entered (Nat.le_of_eq hopen.symm) (Or.inr (Or.inl hhold))
  have hbal := h.conserved m hopen.symm
  rw [hhold, Option.toList_some, List.count_singleton_self, if_pos hmem] at hbal
  have hcons : (d.waiting m.key).count m + 0 + d.left.count m = if m ∈ d.entered then 1 else 0 := hcons m hopen.symm
  rw [if_pos hmem] at hcons
  omega

end Sound

/-- A waiting item that did not enter. -/
theorem not_conserved_of_stray (hline : d.lines k = some line) {r : Nat} (hr : r ∈ line.refs)
    (hstray : (⟨k, d.epochs k, r⟩ : Item κ) ∉ d.entered) : ¬d.Conserved := fun hcons => by
  have hbal := hcons ⟨k, d.epochs k, r⟩ rfl
  rw [if_neg hstray] at hbal
  have hpos := List.count_pos_iff.mpr (mem_waiting_iff.mpr ⟨rfl, rfl, line, hline, hr⟩ : (⟨k, d.epochs k, r⟩ : Item κ) ∈ d.waiting k)
  dsimp only at hbal
  omega

end Depot
end Lib
