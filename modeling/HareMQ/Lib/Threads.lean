import HareMQ.Lib.Run
import HareMQ.Lib.UMap

/-! # Calls that run at the same time

A call is a chain of sections, each of which runs alone; the sections of different calls mix in any order. The calls
are linearizable if what they returned, and the state that they leave, is that of the calls one after the other, in an
order in which no call comes before one that had returned when it was made. -/

namespace Lib

/-- A call that has returned. -/
structure Done (γ ρ : Type) where
  id : Nat
  call : γ
  reply : ρ
  /-- The calls that had returned when it was made. -/
  before : List Nat

/-- A call that is running. `pc` is its next section. -/
structure Thread (γ κ : Type) where
  call : γ
  pc : κ
  before : List Nat

structure Threads (σ γ κ ρ : Type) where
  shared : σ
  running : UMap Nat (Thread γ κ) := ∅
  returned : List (Done γ ρ) := []
  next : Nat := 0

inductive Turn (γ : Type)
  | call (c : γ)
  /-- The call runs its next section. -/
  | go (id : Nat)

/-- What a section leaves to do. -/
inductive Next (κ ρ : Type)
  | goto (pc : κ)
  | done (reply : ρ)

namespace Threads
variable {σ γ κ ρ τ : Type}

/-- `none`: the section aborts the process. A turn of a call that is not running is idle. -/
def step (start : γ → κ) (runSection : σ → κ → Option (σ × Next κ ρ)) (t : Threads σ γ κ ρ) :
    Turn γ → Option (Threads σ γ κ ρ)
  | .call c =>
    some { t with
      running := t.running.insert t.next { call := c, pc := start c, before := t.returned.map Done.id }
      next := t.next + 1 }
  | .go id =>
    match t.running.lookup id with
    | none => some t
    | some th =>
      match runSection t.shared th.pc with
      | none => none
      | some (shared, .goto pc) => some { t with shared, running := t.running.insert id { th with pc } }
      | some (shared, .done reply) =>
        some { t with
          shared
          running := t.running.erase id
          returned := t.returned ++ [{ id, call := th.call, reply, before := th.before }] }

/-- The call with no other one in between, if it has at most this many sections. -/
def alone (runSection : σ → κ → Option (σ × Next κ ρ)) : Nat → σ → κ → Option (ρ × σ)
  | 0, _, _ => none
  | n + 1, s, pc =>
    match runSection s pc with
    | none => none
    | some (s, .goto pc) => alone runSection n s pc
    | some (s, .done reply) => some (reply, s)

/-- A call that is running at a program point of this kind. -/
def anyAt (t : Threads σ γ κ ρ) (p : κ → Bool) : Bool := t.running.entries.any fun e => p e.2.pc

theorem anyAt_iff {t : Threads σ γ κ ρ} {p : κ → Bool} :
    t.anyAt p = true ↔ ∃ id th, t.running.lookup id = some th ∧ p th.pc = true := by
  rw [anyAt, List.any_eq_true]
  constructor
  · rintro ⟨⟨id, th⟩, hmem, hp⟩
    exact ⟨id, th, UMap.mem_entries_iff.mp hmem, hp⟩
  · rintro ⟨id, th, hth, hp⟩
    exact ⟨⟨id, th⟩, UMap.mem_entries_iff.mpr hth, hp⟩

theorem anyAt_eq_false_iff {t : Threads σ γ κ ρ} {p : κ → Bool} :
    t.anyAt p = false ↔ ∀ id th, t.running.lookup id = some th → p th.pc = false := by
  rw [← Bool.not_eq_true, anyAt_iff]
  simp only [not_exists, not_and, Bool.not_eq_true]

section Step
variable {start : γ → κ} {runSection : σ → κ → Option (σ × Next κ ρ)} {t t' : Threads σ γ κ ρ} {turn : Turn γ}

/-- A call comes, the turn is idle, or a call runs a section, with which it goes on or returns. -/
theorem step_cases (hstep : t.step start runSection turn = some t') :
    (∃ c, turn = .call c ∧ t' = { t with
      running := t.running.insert t.next { call := c, pc := start c, before := t.returned.map Done.id }
      next := t.next + 1 }) ∨
    (∃ id, turn = .go id ∧ t.running.lookup id = none ∧ t' = t) ∨
    ∃ id th s next, turn = .go id ∧ t.running.lookup id = some th ∧ runSection t.shared th.pc = some (s, next) ∧
      ((∃ pc, next = .goto pc ∧ t' = { t with shared := s, running := t.running.insert id { th with pc } }) ∨
        ∃ reply, next = .done reply ∧ t' = { t with
          shared := s
          running := t.running.erase id
          returned := t.returned ++ [{ id, call := th.call, reply, before := th.before }] }) := by
  cases turn with
  | call c =>
    cases hstep
    exact Or.inl ⟨c, rfl, rfl⟩
  | go id =>
    rw [step] at hstep
    split at hstep
    · next hth =>
      cases hstep
      exact Or.inr (Or.inl ⟨id, rfl, hth, rfl⟩)
    · next th hth =>
      refine Or.inr (Or.inr ?_)
      split at hstep
      · cases hstep
      · next s pc hrun =>
        cases hstep
        exact ⟨id, th, s, _, rfl, hth, hrun, Or.inl ⟨pc, rfl, rfl⟩⟩
      · next s reply hrun =>
        cases hstep
        exact ⟨id, th, s, _, rfl, hth, hrun, Or.inr ⟨reply, rfl, rfl⟩⟩

/-- If no section aborts, no turn does. -/
theorem exists_step (h : ∀ s pc, ∃ p, runSection s pc = some p) (t : Threads σ γ κ ρ) (turn : Turn γ) :
    ∃ t', t.step start runSection turn = some t' := by
  cases turn with
  | call c => exact ⟨_, rfl⟩
  | go id =>
    rw [step]
    split
    · exact ⟨t, rfl⟩
    · next th _ =>
      rcases h t.shared th.pc with ⟨⟨s, next⟩, hrun⟩
      rw [hrun]
      cases next with
      | goto pc => exact ⟨_, rfl⟩
      | done reply => exact ⟨_, rfl⟩

/-- A property of the shared state, and one of each program point with it. A section keeps both, for itself and for
the calls that are running beside it. -/
theorem step_keeps {I : σ → Prop} {J : σ → κ → Prop} (hI : I t.shared)
    (hJ : ∀ id th, t.running.lookup id = some th → J t.shared th.pc) (hstart : ∀ c, J t.shared (start c))
    (hsection : ∀ id th s next, turn = .go id → t.running.lookup id = some th →
      runSection t.shared th.pc = some (s, next) →
      I s ∧ (∀ id' th', t.running.lookup id' = some th' → J s th'.pc) ∧ ∀ pc, next = .goto pc → J s pc)
    (hstep : t.step start runSection turn = some t') :
    I t'.shared ∧ ∀ id th, t'.running.lookup id = some th → J t'.shared th.pc := by
  rcases step_cases hstep with ⟨c, rfl, rfl⟩ | ⟨id, rfl, -, rfl⟩ | ⟨id, th, s, next, rfl, hth, hrun, hnext⟩
  · refine ⟨hI, fun id th hth => ?_⟩
    rw [UMap.lookup_insert] at hth
    split at hth
    · cases hth
      exact hstart c
    · exact hJ id th hth
  · exact ⟨hI, hJ⟩
  · rcases hsection id th s next rfl hth hrun with ⟨hs, hothers, hpc⟩
    rcases hnext with ⟨pc, rfl, rfl⟩ | ⟨reply, rfl, rfl⟩
    · refine ⟨hs, fun id' th' hth' => ?_⟩
      rw [UMap.lookup_insert] at hth'
      split at hth'
      · cases hth'
        exact hpc pc rfl
      · exact hothers id' th' hth'
    · exact ⟨hs, fun id' th' hth' => hothers id' th' (UMap.lookup_erase_eq_some hth').2⟩

/-- Each call has a number of its own, also after it returned. -/
structure Numbered (t : Threads σ γ κ ρ) : Prop where
  running : ∀ id th, t.running.lookup id = some th → id < t.next
  gone : ∀ d ∈ t.returned, d.id < t.next ∧ t.running.lookup d.id = none
  nodup : (t.returned.map Done.id).Nodup

theorem numbered_start (s : σ) : Numbered ({ shared := s } : Threads σ γ κ ρ) where
  running id th hth := by
    rw [AList.lookup_empty] at hth
    cases hth
  gone _ hd := absurd hd List.not_mem_nil
  nodup := List.nodup_nil

theorem Numbered.ne_of_running (h : Numbered t) {id : Nat} {th : Thread γ κ} {d : Done γ ρ}
    (hth : t.running.lookup id = some th) (hd : d ∈ t.returned) : d.id ≠ id := by
  rintro rfl
  rw [(h.gone d hd).2] at hth
  cases hth

theorem Numbered.step (h : Numbered t) (hstep : t.step start runSection turn = some t') : Numbered t' := by
  rcases step_cases hstep with ⟨c, rfl, rfl⟩ | ⟨id, rfl, -, rfl⟩ | ⟨id, th, s, next, rfl, hth, -, hnext⟩
  · refine ⟨fun id th hth => ?_, fun d hd => ?_, h.nodup⟩
    · rw [UMap.lookup_insert] at hth
      split at hth
      · next heq => exact heq ▸ Nat.lt_succ_self _
      · exact Nat.lt_succ_of_lt (h.running id th hth)
    · rcases h.gone d hd with ⟨hlt, hnone⟩
      rw [UMap.lookup_insert, if_neg (Nat.ne_of_lt hlt)]
      exact ⟨Nat.lt_succ_of_lt hlt, hnone⟩
  · exact h
  · have hlt := h.running id th hth
    rcases hnext with ⟨pc, rfl, rfl⟩ | ⟨reply, rfl, rfl⟩
    · refine ⟨fun id' th' hth' => ?_, fun d hd => ?_, h.nodup⟩
      · rw [UMap.lookup_insert] at hth'
        split at hth'
        · next heq => exact heq ▸ hlt
        · exact h.running id' th' hth'
      · rw [UMap.lookup_insert, if_neg (h.ne_of_running hth hd)]
        exact h.gone d hd
    · refine ⟨fun id' th' hth' => h.running id' th' (UMap.lookup_erase_eq_some hth').2, fun d hd => ?_, ?_⟩
      · rw [UMap.lookup_erase]
        rcases List.mem_append.mp hd with hd | hd
        · rw [if_neg (h.ne_of_running hth hd)]
          exact h.gone d hd
        · rw [List.mem_singleton.mp hd]
          exact ⟨hlt, if_pos rfl⟩
      · rw [List.map_append, List.nodup_append]
        refine ⟨h.nodup, List.nodup_singleton _, fun i hi j hj => ?_⟩
        rcases List.mem_map.mp hi with ⟨d, hd, rfl⟩
        rw [List.mem_singleton.mp hj]
        exact h.ne_of_running hth hd

end Step

/-! ### The calls at a kind of program point -/

section Points
variable {running : UMap Nat (Thread γ κ)} {p : κ → Bool} {id id' : Nat} {th : Thread γ κ}

/-- No call is at such a point. -/
def Free (running : UMap Nat (Thread γ κ)) (p : κ → Bool) : Prop :=
  ∀ id th, running.lookup id = some th → p th.pc = false

/-- No other call is at such a point. -/
def Sole (running : UMap Nat (Thread γ κ)) (p : κ → Bool) (id : Nat) : Prop :=
  ∀ id' th, running.lookup id' = some th → p th.pc = true → id' = id

/-- The same calls are at such a point. -/
def Alike (running running' : UMap Nat (Thread γ κ)) (p : κ → Bool) : Prop :=
  ∀ id th, p th.pc = true → (running'.lookup id = some th ↔ running.lookup id = some th)

theorem Alike.free {running' : UMap Nat (Thread γ κ)} (h : Alike running running' p) (hfree : Free running p) :
    Free running' p := by
  intro id th hth
  by_contra hp
  rw [Bool.not_eq_false] at hp
  exact absurd hp (Bool.eq_false_iff.mp (hfree id th ((h id th hp).mp hth)))

theorem Alike.sole {running' : UMap Nat (Thread γ κ)} (h : Alike running running' p) (hsole : Sole running p id) :
    Sole running' p id :=
  fun id' th hth hp => hsole id' th ((h id' th hp).mp hth) hp

/-- A call comes, or goes on, and is not at such a point. -/
theorem alike_insert (hold : ∀ th', running.lookup id = some th' → p th'.pc = false) (hnew : p th.pc = false) :
    Alike running (running.insert id th) p := by
  intro id' th' hp
  rw [UMap.lookup_insert]
  split
  · next heq =>
    subst heq
    constructor
    · intro hth'
      cases hth'
      rw [hnew] at hp
      cases hp
    · intro hth'
      rw [hold th' hth'] at hp
      cases hp
  · exact Iff.rfl

theorem alike_erase (hold : ∀ th', running.lookup id = some th' → p th'.pc = false) :
    Alike running (running.erase id) p := by
  intro id' th' hp
  rw [UMap.lookup_erase]
  split
  · next heq =>
    subst heq
    refine ⟨fun hth' => (by cases hth'), fun hth' => ?_⟩
    rw [hold th' hth'] at hp
    cases hp
  · exact Iff.rfl

/-- The only call at such a point leaves. -/
theorem Sole.free_erase (h : Sole running p id) : Free (running.erase id) p := by
  intro id' th' hth'
  obtain ⟨hne, hth'⟩ := UMap.lookup_erase_eq_some hth'
  exact Bool.eq_false_iff.mpr fun hp => hne (h id' th' hth' hp)

/-- The first call comes to such a point. -/
theorem Free.sole_insert (h : Free running p) : Sole (running.insert id th) p id := by
  intro id' th' hth' hp
  rw [UMap.lookup_insert] at hth'
  split at hth'
  · next heq => exact heq
  · rw [h id' th' hth'] at hp
    cases hp

end Points

/-! ### One call after the other -/

/-- The calls in this order, each with the reply that it has. -/
def replay [DecidableEq ρ] (apply : τ → γ → Option (ρ × τ)) (s : τ) : List (Done γ ρ) → Option τ
  | [] => some s
  | d :: ds =>
    match apply s d.call with
    | none => none
    | some (reply, s) => if reply = d.reply then replay apply s ds else none

/-- No call comes before one that had returned when it was made. -/
def Ordered (ds : List (Done γ ρ)) : Prop := ds.Pairwise fun a b => b.id ∉ a.before

/-- What the calls returned and left is that of the calls one after the other. -/
def Linearizable [DecidableEq ρ] (apply : τ → γ → Option (ρ × τ)) (agree : τ → σ → Prop) (start : τ)
    (t : Threads σ γ κ ρ) : Prop :=
  ∃ order s, order.Perm t.returned ∧ Ordered order ∧ replay apply start order = some s ∧ agree s t.shared

section Replay
variable [DecidableEq ρ] {apply : τ → γ → Option (ρ × τ)} {s s' : τ} {d : Done γ ρ} {ds : List (Done γ ρ)}

theorem replay_append (ds ds' : List (Done γ ρ)) (s : τ) :
    replay apply s (ds ++ ds') = (replay apply s ds).bind fun s => replay apply s ds' := by
  induction ds generalizing s with
  | nil => rfl
  | cons d ds ih =>
    rw [List.cons_append, replay, replay]
    split
    · rfl
    · split
      · exact ih _
      · rfl

theorem replay_snoc (h : replay apply s ds = some s') {t : τ} (hd : apply s' d.call = some (d.reply, t)) :
    replay apply s (ds ++ [d]) = some t := by
  rw [replay_append, h, Option.bind_some, replay, hd]
  simp only [if_true, replay]

/-- Calls that change nothing. -/
theorem replay_of_idle (h : ∀ d ∈ ds, apply s d.call = some (d.reply, s)) : replay apply s ds = some s := by
  induction ds with
  | nil => rfl
  | cons d ds ih =>
    rw [List.forall_mem_cons] at h
    rw [replay, h.1]
    simp only [if_true]
    exact ih h.2

end Replay

/-! ### Logs -/

end Threads

/-- The call with its reply. -/
def Thread.done {γ κ ρ : Type} (th : Thread γ κ) (id : Nat) (reply : ρ) : Done γ ρ where
  id := id
  call := th.call
  reply := reply
  before := th.before

namespace Threads
variable {σ γ κ ρ : Type}

/-- A log has the calls that returned, and calls of which the reply is known before they return. -/
structure Logged (t : Threads σ γ κ ρ) (log pending : List (Done γ ρ)) : Prop where
  perm : log.Perm (t.returned ++ pending)
  ordered : Ordered log
  known : ∀ d ∈ log, ∀ i ∈ d.before, i ∈ t.returned.map Done.id
  since : ∀ id th, t.running.lookup id = some th → id < t.next ∧ ∀ i ∈ th.before, i ∈ t.returned.map Done.id
  gone : ∀ d ∈ t.returned, d.id < t.next ∧ d.id ∉ t.running

section Log
variable {t : Threads σ γ κ ρ} {early late log pending : List (Done γ ρ)} {d : Done γ ρ} {id : Nat} {th : Thread γ κ}

theorem logged_start (s : σ) : Logged ({ shared := s } : Threads σ γ κ ρ) [] [] where
  perm := List.Perm.nil
  ordered := List.Pairwise.nil
  known _ hd := by cases hd
  since _ _ hth := by cases hth
  gone _ hd := by cases hd

/-- A running call is not among those that had returned. -/
theorem Logged.not_returned (h : Logged t log pending) (hth : t.running.lookup id = some th) :
    id ∉ t.returned.map Done.id := by
  intro hid
  obtain ⟨d, hd, rfl⟩ := List.mem_map.mp hid
  exact (h.gone d hd).2 (UMap.mem_of_lookup hth)

theorem Logged.call (h : Logged t log pending) (c : γ) (pc : κ) :
    Logged { t with
      running := t.running.insert t.next { call := c, pc, before := t.returned.map Done.id }
      next := t.next + 1 } log pending where
  perm := h.perm
  ordered := h.ordered
  known := h.known
  since id th hth := by
    rw [UMap.lookup_insert] at hth
    split at hth
    · next heq =>
      cases hth
      exact ⟨heq ▸ Nat.lt_succ_self _, fun i hi => hi⟩
    · exact ⟨Nat.lt_succ_of_lt (h.since id th hth).1, (h.since id th hth).2⟩
  gone d hd := by
    obtain ⟨hlt, hrunning⟩ := h.gone d hd
    refine ⟨Nat.lt_succ_of_lt hlt, fun hmem => ?_⟩
    obtain heq | hmem := (AList.mem_insert _).mp hmem
    · exact absurd heq (Nat.ne_of_lt hlt)
    · exact hrunning hmem

/-- A call goes on. -/
theorem Logged.goto (h : Logged t log pending) (hth : t.running.lookup id = some th) (s : σ) (pc : κ) :
    Logged { t with shared := s, running := t.running.insert id { th with pc } } log pending where
  perm := h.perm
  ordered := h.ordered
  known := h.known
  since id' th' hth' := by
    rw [UMap.lookup_insert] at hth'
    split at hth'
    · next heq =>
      cases hth'
      exact heq ▸ h.since id th hth
    · exact h.since id' th' hth'
  gone d hd := by
    obtain ⟨hlt, hrunning⟩ := h.gone d hd
    refine ⟨hlt, fun hmem => ?_⟩
    obtain rfl | hmem := (AList.mem_insert _).mp hmem
    · exact hrunning (UMap.mem_of_lookup hth)
    · exact hrunning hmem

/-- The reply of a running call is known: it comes into the log before the calls that it did not see return. -/
theorem Logged.insert (h : Logged t (early ++ late) pending) (hth : t.running.lookup id = some th)
    (hlate : ∀ d ∈ late, d.id ∉ th.before) (reply : ρ) :
    Logged t (early ++ th.done id reply :: late) (pending ++ [th.done id reply]) where
  perm := by
    have hmiddle : (early ++ th.done id reply :: late).Perm (th.done id reply :: (early ++ late)) := List.perm_middle
    refine hmiddle.trans ((h.perm.cons _).trans ?_)
    rw [← List.append_assoc]
    exact (List.perm_append_singleton _ _).symm
  ordered := by
    obtain ⟨hearly, hlates, hboth⟩ := List.pairwise_append.mp h.ordered
    refine List.pairwise_append.mpr ⟨hearly, List.pairwise_cons.mpr ⟨hlate, hlates⟩, fun a ha b hb => ?_⟩
    obtain rfl | hb := List.mem_cons.mp hb
    · exact fun hid => h.not_returned hth (h.known a (List.mem_append_left _ ha) _ hid)
    · exact hboth a ha b hb
  known d hd i hi := by
    obtain hd | hd := List.mem_append.mp hd
    · exact h.known d (List.mem_append_left _ hd) i hi
    · obtain rfl | hd := List.mem_cons.mp hd
      · exact (h.since id th hth).2 i hi
      · exact h.known d (List.mem_append_right _ hd) i hi
  since := h.since
  gone := h.gone

/-- A call of which the reply is known returns. -/
theorem Logged.settle (h : Logged t log (pending ++ [d])) (hth : t.running.lookup d.id = some th) (s : σ) :
    Logged { t with shared := s, running := t.running.erase d.id, returned := t.returned ++ [d] } log pending where
  perm := by
    refine h.perm.trans ?_
    rw [List.append_assoc]
    exact List.Perm.append_left _ List.perm_append_comm
  ordered := h.ordered
  known e he i hi := by
    rw [List.map_append]
    exact List.mem_append_left _ (h.known e he i hi)
  since id' th' hth' := by
    obtain ⟨-, hth'⟩ := UMap.lookup_erase_eq_some hth'
    obtain ⟨hlt, hbefore⟩ := h.since id' th' hth'
    refine ⟨hlt, fun i hi => ?_⟩
    rw [List.map_append]
    exact List.mem_append_left _ (hbefore i hi)
  gone e he := by
    obtain he | he := List.mem_append.mp he
    · exact ⟨(h.gone e he).1, fun hmem => (h.gone e he).2 (AList.mem_erase.mp hmem).2⟩
    · rw [List.mem_singleton.mp he]
      exact ⟨(h.since d.id th hth).1, fun hmem => (AList.mem_erase.mp hmem).1 rfl⟩

/-- A call returns, and its reply was not known before. -/
theorem Logged.finish (h : Logged t (early ++ late) pending) (hth : t.running.lookup id = some th)
    (hlate : ∀ d ∈ late, d.id ∉ th.before) (reply : ρ) (s : σ) :
    Logged { t with shared := s, running := t.running.erase id, returned := t.returned ++ [th.done id reply] }
      (early ++ th.done id reply :: late) pending := (h.insert hth hlate reply).settle hth s

end Log

end Threads
end Lib
