import HareMQ.Startup

/-! # The hand-off of the connection

`onConnection` releases the latch before it stores the connection, so that the constructor may return while `__conn` is
still null. -/

namespace HareMQ
open Lib
namespace Startup
variable {conn : TcpConnection} {s s' t : Startup} {a : StartupAct} {acts : List StartupAct}

/-- `__latch.wait()` has returned. -/
def Returned (s : Startup) : Prop := s.user = .ready ∨ ∃ ch, s.user = .opening ch

/-- Once the constructor has returned there is a connection, and every request was sent on it. -/
structure HandedOff (conn : TcpConnection) (s : Startup) : Prop where
  pointer : s.Returned → s.conn = some conn
  sent : ∀ p ∈ s.sent, p = some conn

/-- When the count is 0, `wait` returns only after `__conn = conn`. -/
def stored (s : Startup) : StartupAct → Bool
  | .test => s.latch ≠ 0 || s.loop = .stored
  | _ => true

/-- What holds as long as `wait` returns after the store only. -/
structure Sound (conn : TcpConnection) (s : Startup) : Prop where
  pointer : s.conn = if s.loop = .stored then some conn else none
  returned : s.Returned → s.loop = .stored
  channels : ∀ p ∈ s.channels, p = some conn
  sent : ∀ p ∈ s.sent, p = some conn
  alive : s.dead = false

theorem Sound.handedOff (h : Sound conn s) : HandedOff conn s := by
  refine ⟨fun hret => ?_, h.sent⟩
  rw [h.pointer, h.returned hret, if_pos rfl]

theorem sound_start (conn : TcpConnection) : Sound conn {} where
  pointer := rfl
  returned := by
    rintro (h | ⟨ch, h⟩)
    · cases h
    · cases h
  channels := nofun
  sent := nofun
  alive := rfl

theorem Sound.send (h : Sound conn s) {ch : Nat} (hret : s.Returned) (hsend : s.send ch = some s') : Sound conn s' := by
  obtain ⟨p, hp, rfl⟩ := Option.map_eq_some_iff.mp hsend
  have hconn : p = some conn := h.channels p (List.mem_of_getElem? hp)
  refine ⟨h.pointer, fun _ => h.returned hret, h.channels, fun p' hp' => ?_, by rw [hconn]; rfl⟩
  obtain hp' | hp' := List.mem_append.mp hp'
  · exact h.sent p' hp'
  · exact (List.mem_singleton.mp hp').trans hconn

/-- The user goes on, in the constructor or after the store. -/
theorem Sound.user (h : Sound conn s) {user : UserPhase} (hret : Returned { s with user } → s.loop = .stored) :
    Sound conn { s with user } :=
  ⟨h.pointer, hret, h.channels, h.sent, h.alive⟩

/-- The event loop goes on, while the user is in the constructor and nothing is stored. -/
theorem Sound.loop (h : Sound conn s) {loop : LoopPhase} {latch : Nat} {user : UserPhase} (hold : s.loop ≠ .stored)
    (hnew : loop ≠ .stored) (hret : ¬Returned { s with user }) : Sound conn { s with loop, latch, user } := by
  refine ⟨?_, fun h' => absurd h' hret, h.channels, h.sent, h.alive⟩
  have hnone := h.pointer
  rw [if_neg hold] at hnone
  rw [if_neg hnew]
  exact hnone

theorem not_returned_of_testing (h : s.user = .testing) : ¬s.Returned := by
  rintro (h' | ⟨ch, h'⟩)
  · exact absurd (h.symm.trans h') (by decide)
  · cases h.symm.trans h'

theorem step_sound (h : Sound conn s) (hstep : step conn s a = some s') (hcond : stored s a = true) :
    Sound conn s' := by
  unfold step at hstep
  rw [if_neg (Bool.not_eq_true _ ▸ h.alive)] at hstep
  cases a with
  | connect =>
    obtain ⟨-, heq⟩ := Option.ite_none_right_eq_some.mp hstep
    cases heq
    exact h.user fun hret => absurd hret (not_returned_of_testing rfl)
  | established =>
    obtain ⟨⟨-, hloop⟩, heq⟩ := Option.ite_none_right_eq_some.mp hstep
    cases heq
    have hold : s.loop ≠ .stored := by simp [hloop]
    exact h.loop hold nofun fun hret => hold (h.returned hret)
  | countDown =>
    obtain ⟨hloop, heq⟩ := Option.ite_none_right_eq_some.mp hstep
    cases heq
    have hold : s.loop ≠ .stored := by simp [hloop]
    refine h.loop hold nofun fun hret => ?_
    split at hret
    · exact not_returned_of_testing rfl hret
    · exact hold (h.returned hret)
  | store =>
    obtain ⟨-, heq⟩ := Option.ite_none_right_eq_some.mp hstep
    cases heq
    exact ⟨rfl, fun _ => rfl, h.channels, h.sent, h.alive⟩
  | disconnected =>
    obtain ⟨-, heq⟩ := Option.ite_none_right_eq_some.mp hstep
    cases heq
    exact h
  | test =>
    obtain ⟨-, heq⟩ := Option.ite_none_right_eq_some.mp hstep
    cases heq
    refine h.user fun hret => ?_
    split at hret
    · obtain hret | ⟨ch, hret⟩ := hret
      · cases hret
      · cases hret
    · next hlatch =>
      -- the only step that lets the constructor return
      simpa [stored, Nat.eq_zero_of_not_pos hlatch] using hcond
  | spurious =>
    obtain ⟨-, heq⟩ := Option.ite_none_right_eq_some.mp hstep
    cases heq
    exact h.user fun hret => absurd hret (not_returned_of_testing rfl)
  | openChannel =>
    obtain ⟨hready, heq⟩ := Option.ite_none_right_eq_some.mp hstep
    cases heq
    have hret : s.Returned := Or.inl hready
    refine ⟨h.pointer, fun _ => h.returned hret, fun p hp => ?_, h.sent, h.alive⟩
    obtain hp | hp := List.mem_append.mp hp
    · exact h.channels p hp
    · exact (List.mem_singleton.mp hp).trans (h.handedOff.pointer hret)
  | openServerChannel =>
    dsimp only at hstep
    split at hstep
    · next ch huser => exact h.send (Or.inr ⟨ch, huser⟩) hstep
    · cases hstep
  | request ch =>
    obtain ⟨hready, hsend⟩ := Option.ite_none_right_eq_some.mp hstep
    exact h.send (Or.inl hready) hsend

/-- A constructor that returns between the two steps of the event loop finds a null pointer. -/
theorem not_handedOff_of_step (h : Sound conn s) (hstep : step conn s a = some s') (hcond : stored s a = false) :
    ¬HandedOff conn s' := by
  unfold step at hstep
  rw [if_neg (Bool.not_eq_true _ ▸ h.alive)] at hstep
  cases a with
  | test =>
    obtain ⟨hlatch, hloop⟩ : s.latch = 0 ∧ s.loop ≠ .stored := by simpa [stored] using hcond
    obtain ⟨-, heq⟩ := Option.ite_none_right_eq_some.mp hstep
    rw [if_neg (by omega)] at heq
    cases heq
    intro hgood
    have hconn := hgood.pointer (Or.inl rfl)
    have hnone := h.pointer
    rw [if_neg hloop] at hnone
    exact absurd (hnone.symm.trans hconn) nofun
  | _ => cases hcond

/-- Every state of a run has handed the connection over exactly when no `wait` returns before the store. -/
theorem run_handedOff_iff (hrun : run (step conn) {} acts = some t) :
    (∀ pre s, pre <+: acts → run (step conn) {} pre = some s → HandedOff conn s) ↔
      always (step conn) stored {} acts = true :=
  always_iff_of_exact (fun _ => Sound.handedOff) (fun _ _ _ h hstep hcond => step_sound h hstep hcond)
    (fun _ _ _ h hstep hcond => not_handedOff_of_step h hstep hcond) (sound_start conn) hrun

/-- The user sleeps until the latch is released, and is slow to wake. -/
def lateActs : List StartupAct :=
  [.connect, .test, .established, .countDown, .store, .test, .openChannel, .openServerChannel, .request 0]

theorem run_handedOff_iff_late : ∃ s, run (step 7) {} lateActs = some s ∧ s.sent = [some 7, some 7] ∧
    ∀ pre s, pre <+: lateActs → run (step 7) {} pre = some s → HandedOff 7 s := by
  have hrun : run (step 7) {} lateActs = some {
      latch := 0, conn := some 7, loop := .stored, user := .ready, channels := [some 7], sent := [some 7, some 7] } := by
    decide
  exact ⟨_, hrun, rfl, (run_handedOff_iff hrun).mpr (by decide)⟩

/-- The user runs between `countDown` and the store: the first request goes to a null pointer, and the process dies. -/
theorem run_not_handedOff : ∃ s, run (step 7) {} [.connect, .established, .countDown, .test, .openChannel,
    .openServerChannel] = some s ∧ s.sent = [none] ∧ s.dead = true ∧ ¬HandedOff 7 s :=
  ⟨{ latch := 0, loop := .countedDown, user := .ready, channels := [none], sent := [none], dead := true },
    by decide, rfl, rfl, fun h => absurd (h.sent none (List.mem_singleton.mpr rfl)) nofun⟩

end Startup
end HareMQ
