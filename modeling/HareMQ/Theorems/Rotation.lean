import Mathlib.Algebra.Order.Floor.Div
import Mathlib.Data.Int.CardIntervalMod
import HareMQ.Consumer

/-! # Rotation of the consumers

Consecutive calls of `rr_choose` on a queue whose consumers do not change. The sequence number survives changes of the
vector, so a run of calls may start at any phase. -/

namespace HareMQ
open Lib

/-! ### Counting in a cycle -/

theorem add_mod_eq_iff {s n i j : Nat} (hi : i < n) : (s + j) % n = i ↔ j ≡ i + (n - s % n) [MOD n] := by
  have hlt : s % n < n := Nat.mod_lt _ (by omega)
  have hcancel : s + (i + (n - s % n)) ≡ i [MOD n] := by
    have hsum : s + (i + (n - s % n)) = i + n * (s / n + 1) := by
      have hdiv := Nat.div_add_mod s n
      rw [Nat.mul_add, Nat.mul_one]
      omega
    rw [hsum]
    exact Nat.add_mul_mod_self_left i n _
  constructor
  · intro h
    have hs : s + j ≡ i [MOD n] := by rw [Nat.ModEq, h, Nat.mod_eq_of_lt hi]
    exact Nat.ModEq.add_left_cancel' s (hs.trans hcancel.symm)
  · intro h
    have hs : s + j ≡ i [MOD n] := (h.add_left s).trans hcancel
    rw [← Nat.mod_eq_of_lt hi]
    exact hs

/-- `k` consecutive numbers meet each residue `⌊k / n⌋` or `⌈k / n⌉` times. -/
theorem count_cycle (s k : Nat) {n i : Nat} (hi : i < n) :
    Nat.count (fun j => (s + j) % n = i) k = k / n ∨ Nat.count (fun j => (s + j) % n = i) k = k ⌈/⌉ n := by
  have hn : 0 < n := by omega
  have hcount : Nat.count (fun j => (s + j) % n = i) k = Nat.count (· ≡ i + (n - s % n) [MOD n]) k := by
    simp only [Nat.count_eq_card_filter_range, add_mod_eq_iff hi]
  rw [hcount, Nat.count_modEq_card k hn]
  split
  · -- a residue met once more exists only when `n` does not divide `k`
    rename_i hlt
    right
    have hdiv := Nat.div_add_mod k n
    have hmod := Nat.mod_lt k hn
    rw [Nat.ceilDiv_eq_add_pred_div]
    symm
    rw [Nat.div_eq_iff hn]
    constructor
    · rw [Nat.mul_comm, Nat.mul_add, Nat.mul_one]
      omega
    · rw [Nat.mul_comm, Nat.mul_add, Nat.mul_one]
      omega
  · left
    rfl

namespace QueueConsumer
variable {q : QueueConsumer} {k : Nat}

/-- The variable `idx` of `rr_choose`: the remainder, kept in an `int`. -/
def idx (q : QueueConsumer) : Int := (BitVec.ofNat 32 (q.rrSeq % q.consumers.length)).toInt

/-- `k` consecutive calls: the index and the result of each, and the state they leave. -/
def rrChooses : Nat → QueueConsumer → List (Int × Option Consumer) × QueueConsumer
  | 0, q => ([], q)
  | k + 1, q =>
    let (c, q') := q.rrChoose
    let (cs, q'') := rrChooses k q'
    ((q.idx, c) :: cs, q'')

theorem idx_eq (hne : q.consumers ≠ []) (hsize : q.consumers.length < 2 ^ 31) :
    q.idx = (q.rrSeq % q.consumers.length : Nat) := by
  have hpos : 0 < q.consumers.length := List.length_pos_of_ne_nil hne
  have hlt : q.rrSeq % q.consumers.length < q.consumers.length := Nat.mod_lt _ hpos
  rw [idx, BitVec.toInt_eq_toNat_of_lt (by rw [BitVec.toNat_ofNat]; omega), BitVec.toNat_ofNat,
    Nat.mod_eq_of_lt (by omega)]

theorem rrChoose_eq (hne : q.consumers ≠ []) : q.rrChoose =
    (q.consumers[q.rrSeq % q.consumers.length]?, { q with rrSeq := (q.rrSeq + 1) % 2 ^ 64 }) := by
  have hempty : q.consumers.isEmpty = false := by simpa using hne
  rw [rrChoose, hempty]
  rfl

/-- What the call numbered `j` of a run of calls reads. -/
def visit (q : QueueConsumer) (j : Nat) : Int × Option Consumer :=
  (((q.rrSeq + j) % q.consumers.length : Nat), q.consumers[(q.rrSeq + j) % q.consumers.length]?)

theorem rrChooses_visits (hne : q.consumers ≠ []) (hsize : q.consumers.length < 2 ^ 31)
    (hk : q.rrSeq + k ≤ 2 ^ 64) : (rrChooses k q).1 = (List.range k).map q.visit := by
  induction k generalizing q with
  | zero => rfl
  | succ k ih =>
    rw [rrChooses, rrChoose_eq hne]
    dsimp only
    obtain rfl | hpos := Nat.eq_zero_or_pos k
    · simp [rrChooses, visit, idx_eq hne hsize]
    · have hnext : (q.rrSeq + 1) % 2 ^ 64 = q.rrSeq + 1 := Nat.mod_eq_of_lt (by omega)
      rw [hnext, ih (q := { q with rrSeq := q.rrSeq + 1 }) hne hsize (by dsimp only; omega), idx_eq hne hsize,
        List.range_succ_eq_map, List.map_cons, List.map_map]
      have hvisits : List.map (visit { q with rrSeq := q.rrSeq + 1 }) (List.range k) =
          List.map (q.visit ∘ Nat.succ) (List.range k) := by
        apply List.map_congr_left
        intro j _
        simp only [visit, Function.comp_apply, Nat.succ_eq_add_one, Nat.add_assoc, Nat.add_comm 1 j]
      rw [hvisits]
      rfl

/-- The calls choose the consumers in turn, in the order of registration, each of them as often as any other up to
    one call. -/
structure Rotates (q : QueueConsumer) (k : Nat) : Prop where
  cyclic : (rrChooses k q).1 = (List.range k).map q.visit
  fair : ∀ i < q.consumers.length,
    ((rrChooses k q).1.map Prod.fst).count (i : Int) = k / q.consumers.length ∨
      ((rrChooses k q).1.map Prod.fst).count (i : Int) = k ⌈/⌉ q.consumers.length

theorem rrChoose_rotates (hne : q.consumers ≠ []) (hsize : q.consumers.length < 2 ^ 31) (hk : q.rrSeq + k ≤ 2 ^ 64) :
    q.Rotates k := by
  have hvisits := rrChooses_visits hne hsize hk
  refine ⟨hvisits, fun i hi => ?_⟩
  have hcount : ((rrChooses k q).1.map Prod.fst).count (i : Int) =
      Nat.count (fun j => (q.rrSeq + j) % q.consumers.length = i) k := by
    rw [hvisits, List.map_map, List.count, List.countP_map, Nat.count]
    apply List.countP_congr
    intro j _
    rw [Function.comp_apply, Function.comp_apply, visit, beq_iff_eq, Int.natCast_inj, decide_eq_true_eq]
  rw [hcount]
  exact count_cycle q.rrSeq k hi

/-- Two consumers and three calls, after five earlier ones. -/
theorem rrChoose_rotates_two : QueueConsumer.Rotates { qname := "queue-1", rrSeq := 5, consumers :=
    [{ tag := "ctag1", qname := "queue-1", autoAck := false, callback := 0 },
      { tag := "ctag2", qname := "queue-1", autoAck := false, callback := 0 }] } 3 :=
  rrChoose_rotates (by simp) (by decide) (by decide)

end QueueConsumer
end HareMQ
