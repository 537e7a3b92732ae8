import HareMQ.Lib.Tickets
import HareMQ.Uuid

/-! # Ids that are different

The numbers that the calls of `uuid` draw are tickets. An id has a fixed layout, in which the eight numbers of its call
stand in full, so that equal ids come from calls that hold the same tickets. -/

namespace HareMQ
open Lib

theorem length_hex {n : Nat} (hn : n < 256) : (hex n).length = 2 := length_numeral (by decide) (by decide) hn

theorem hex_inj {m n : Nat} (hm : m < 256) (hn : n < 256) (h : hex m = hex n) : m = n :=
  numeral_inj (by decide) (by decide) (by decide) hm hn h

namespace Uuid

/-! ### The layout -/

theorem byte_eq (num i : Nat) : (num >>> (i * 8)) &&& 0xff = num / 256 ^ i % 256 := by
  rw [Nat.shiftRight_eq_div_pow, Nat.mul_comm, Nat.pow_mul]
  exact Nat.and_two_pow_sub_one_eq_mod _ 8

theorem length_byte (num i : Nat) : (hex ((num >>> (i * 8)) &&& 0xff)).length = 2 :=
  length_hex (Nat.lt_succ_of_le Nat.and_le_right)

/-- What the inner loop writes. -/
def numText (num : Nat) : Nat → List Char
  | 0 => []
  | i + 1 => hex ((num >>> (i * 8)) &&& 0xff) ++ ((if i = 6 then ['-'] else []) ++ numText num i)

theorem putNum_eq (num i : Nat) (ss : List Char) : putNum num i ss = ss ++ numText num i := by
  induction i generalizing ss with
  | zero => exact (List.append_nil ss).symm
  | succ i ih =>
    rw [putNum, ih, numText]
    split <;> simp

theorem length_numText (num num' i : Nat) : (numText num i).length = (numText num' i).length := by
  induction i with
  | zero => rfl
  | succ i ih =>
    rw [numText, numText, List.length_append, List.length_append, List.length_append, List.length_append,
      length_byte, length_byte, ih]

/-- The digits of the lowest bytes determine them. -/
theorem numText_inj {num num' i : Nat} (h : numText num i = numText num' i) : num % 256 ^ i = num' % 256 ^ i := by
  induction i with
  | zero => rw [Nat.pow_zero, Nat.mod_one, Nat.mod_one]
  | succ i ih =>
    rw [numText, numText] at h
    rcases List.append_inj h ((length_byte num i).trans (length_byte num' i).symm) with ⟨hbyte, hrest⟩
    rw [byte_eq, byte_eq] at hbyte
    have hbyte' := hex_inj (Nat.mod_lt _ (by decide)) (Nat.mod_lt _ (by decide)) hbyte
    rw [Nat.mod_pow_succ, Nat.mod_pow_succ, hbyte', ih (List.append_cancel_left hrest)]

/-- What round `i` writes. -/
def roundText (byte : UInt8) (i num : Nat) : List Char :=
  hex byte.toNat ++ ((if i = 3 ∨ i = 5 ∨ i = 7 then ['-'] else []) ++ numText num 8)

theorem round_eq (seq : Nat) (u : Uuid) : round seq u =
    some ((seq + 1) % 2 ^ 64,
      if u.i + 1 < 8 then .goto { u with i := u.i + 1, ss := u.ss ++ roundText (u.bytes u.i) u.i seq }
      else .done (String.ofList (u.ss ++ roundText (u.bytes u.i) u.i seq))) := by
  have htext : putNum seq 8 (if u.i = 3 ∨ u.i = 5 ∨ u.i = 7 then u.ss ++ hex (u.bytes u.i).toNat ++ ['-']
      else u.ss ++ hex (u.bytes u.i).toNat) = u.ss ++ roundText (u.bytes u.i) u.i seq := by
    rw [putNum_eq, roundText]
    split <;> simp
  unfold round
  dsimp only
  rw [htext]
  split <;> rfl

/-- The length depends on the round alone. -/
theorem length_roundText (byte byte' : UInt8) (i num num' : Nat) :
    (roundText byte i num).length = (roundText byte' i num').length := by
  rw [roundText, roundText, List.length_append, List.length_append, List.length_append, List.length_append,
    length_hex byte.toNat_lt, length_hex byte'.toNat_lt, length_numText num num']

theorem roundText_inj {byte byte' : UInt8} {i num num' : Nat} (hnum : num < 2 ^ 64) (hnum' : num' < 2 ^ 64)
    (h : roundText byte i num = roundText byte' i num') : num = num' := by
  rcases List.append_inj h ((length_hex byte.toNat_lt).trans (length_hex byte'.toNat_lt).symm) with ⟨-, hrest⟩
  have hmod : num % 2 ^ 64 = num' % 2 ^ 64 := numText_inj (List.append_cancel_left hrest)
  rwa [Nat.mod_eq_of_lt hnum, Nat.mod_eq_of_lt hnum'] at hmod

/-- What the rounds from `i` on write, when they draw these numbers. -/
def text (bytes : Nat → UInt8) : Nat → List Nat → List Char
  | _, [] => []
  | i, num :: nums => roundText (bytes i) i num ++ text bytes (i + 1) nums

theorem text_snoc (bytes : Nat → UInt8) (i : Nat) (nums : List Nat) (num : Nat) :
    text bytes i (nums ++ [num]) = text bytes i nums ++ roundText (bytes (i + nums.length)) (i + nums.length) num := by
  induction nums generalizing i with
  | nil => simp [text]
  | cons n nums ih => rw [List.cons_append, text, text, ih, List.append_assoc, List.length_cons, Nat.succ_add_eq_add_succ]

theorem text_inj {bytes bytes' : Nat → UInt8} {i : Nat} {nums nums' : List Nat} (hlen : nums.length = nums'.length)
    (hnums : ∀ n ∈ nums, n < 2 ^ 64) (hnums' : ∀ n ∈ nums', n < 2 ^ 64)
    (h : text bytes i nums = text bytes' i nums') : nums = nums' := by
  induction nums generalizing i nums' with
  | nil => exact (List.length_eq_zero_iff.mp hlen.symm).symm
  | cons n nums ih =>
    cases nums' with
    | nil => cases hlen
    | cons n' nums' =>
      rw [List.forall_mem_cons] at hnums hnums'
      rcases List.append_inj h (length_roundText (bytes i) (bytes' i) i n n') with ⟨hround, hrest⟩
      rw [roundText_inj hnums.1 hnums'.1 hround, ih (Nat.succ.inj hlen) hnums.2 hnums'.2 hrest]

/-- The call has drawn these numbers and written them. -/
structure Spells (u : Uuid) (bytes : Nat → UInt8) (nums : List Nat) : Prop where
  random : u.bytes = bytes
  i : u.i = nums.length
  lt : u.i < 8
  ss : u.ss = text bytes 0 nums

variable {u u' : Uuid} {bytes : Nat → UInt8} {nums : List Nat} {seq : Nat} {reply : String}

theorem Spells.roundText (h : u.Spells bytes nums) :
    u.ss ++ Uuid.roundText (u.bytes u.i) u.i seq = text bytes 0 (nums ++ [seq]) := by
  rw [text_snoc, Nat.zero_add, h.ss, h.random, h.i]

theorem Spells.goto (h : u.Spells bytes nums) {seq' : Nat} (hround : round seq u = some (seq', .goto u')) :
    u'.Spells bytes (nums ++ [seq]) := by
  rw [round_eq, h.roundText, Option.some.injEq, Prod.mk.injEq] at hround
  have hnext := hround.2
  split at hnext
  · next hlt =>
    cases hnext
    refine ⟨h.random, ?_, hlt, rfl⟩
    rw [List.length_append, List.length_singleton, h.i]
  · cases hnext

theorem Spells.done (h : u.Spells bytes nums) {seq' : Nat} (hround : round seq u = some (seq', .done reply)) :
    (nums ++ [seq]).length = 8 ∧ reply = String.ofList (text bytes 0 (nums ++ [seq])) := by
  rw [round_eq, h.roundText, Option.some.injEq, Prod.mk.injEq] at hround
  have hnext := hround.2
  split at hnext
  · cases hnext
  · next hlast =>
    cases hnext
    have hi := h.i
    have hlt := h.lt
    rw [List.length_append, List.length_singleton]
    exact ⟨by omega, rfl⟩

end Uuid

/-! ### The tickets -/

namespace UuidThreads
variable {t t' : UuidThreads} {k : Tickets Nat}

/-- The counter starts at 1, and comes to 0 when it wraps. -/
def unwrapped (t : UuidThreads) (_ : Turn (Nat → UInt8)) : Bool := t.shared ≠ 0

/-- The counter gives out the tickets, and each call has written those that it holds. -/
structure Holds (t : UuidThreads) (k : Tickets Nat) : Prop where
  seq : t.shared = k.next % 2 ^ 64
  room : k.next ≤ 2 ^ 64
  fresh : ∀ id, t.next ≤ id → k.held id = []
  running : ∀ id th, t.running.lookup id = some th → th.pc.Spells th.call (k.held id)
  returned : ∀ d ∈ t.returned, (k.held d.id).length = 8 ∧ d.reply = String.ofList (Uuid.text d.call 0 (k.held d.id))

theorem holds_start : Holds start (.start 1) where
  seq := rfl
  room := Nat.one_le_two_pow
  fresh _ _ := rfl
  running id th hth := by
    rw [start, AList.lookup_empty] at hth
    cases hth
  returned _ hd := absurd hd List.not_mem_nil

theorem Holds.call (h : Holds t k) (bytes : Nat → UInt8) (before : List Nat) : Holds { t with
    running := t.running.insert t.next { call := bytes, pc := { bytes }, before }
    next := t.next + 1 } k where
  seq := h.seq
  room := h.room
  fresh id hid := h.fresh id (Nat.le_of_succ_le hid)
  running id th hth := by
    rw [UMap.lookup_insert] at hth
    split at hth
    · next heq =>
      cases hth
      rw [heq, h.fresh t.next (Nat.le_refl _)]
      exact ⟨rfl, rfl, Nat.succ_pos 7, rfl⟩
    · exact h.running id th hth
  returned := h.returned

/-- Before the counter has wrapped, the next number is the next ticket. -/
theorem Holds.shared_eq (h : Holds t k) (hwrap : t.shared ≠ 0) : k.next < 2 ^ 64 ∧ t.shared = k.next := by
  have hlt : k.next < 2 ^ 64 := by
    refine Nat.lt_of_le_of_ne h.room fun heq => hwrap ?_
    rw [h.seq, heq, Nat.mod_self]
  exact ⟨hlt, h.seq.trans (Nat.mod_eq_of_lt hlt)⟩

/-- A call that draws a ticket leaves those of the others. -/
theorem Holds.others (h : Holds t k) (hnum : t.Numbered) {id : Nat} {th : Thread (Nat → UInt8) Uuid}
    (hth : t.running.lookup id = some th) : (∀ id', t.next ≤ id' → (k.draw id).held id' = []) ∧
    ∀ d ∈ t.returned, ((k.draw id).held d.id).length = 8 ∧
      d.reply = String.ofList (Uuid.text d.call 0 ((k.draw id).held d.id)) := by
  constructor
  · intro id' hid'
    rw [k.held_draw_ne (Nat.ne_of_gt (Nat.lt_of_lt_of_le (hnum.running id th hth) hid'))]
    exact h.fresh id' hid'
  · intro d hd
    rw [k.held_draw_ne (hnum.ne_of_running hth hd)]
    exact h.returned d hd

theorem Holds.step {turn : Turn (Nat → UInt8)} (h : Holds t k) (hnum : t.Numbered) (hstep : t.step turn = some t')
    (hwrap : t.unwrapped turn = true) : ∃ k', Holds t' k' := by
  rcases Threads.step_cases hstep with ⟨bytes, rfl, rfl⟩ | ⟨id, rfl, -, rfl⟩ | ⟨id, th, s, next, rfl, hth, hround, hnext⟩
  · exact ⟨k, h.call bytes _⟩
  · exact ⟨k, h⟩
  · rcases h.shared_eq (of_decide_eq_true hwrap) with ⟨hroom, hseq⟩
    rcases h.others hnum hth with ⟨hfresh, hreturned⟩
    have hspells := h.running id th hth
    have hshared : s = (k.draw id).next % 2 ^ 64 := by
      rw [Uuid.round_eq, hseq, Option.some.injEq, Prod.mk.injEq] at hround
      exact hround.1.symm
    rw [hseq] at hround
    refine ⟨k.draw id, ?_⟩
    rcases hnext with ⟨u, rfl, rfl⟩ | ⟨reply, rfl, rfl⟩
    · refine ⟨hshared, hroom, hfresh, fun id' th' hth' => ?_, hreturned⟩
      rw [UMap.lookup_insert] at hth'
      split at hth'
      · next heq =>
        cases hth'
        rw [heq, k.held_draw_self]
        exact hspells.goto hround
      · next hne =>
        rw [k.held_draw_ne hne]
        exact h.running id' th' hth'
    · refine ⟨hshared, hroom, hfresh, fun id' th' hth' => ?_, fun d hd => ?_⟩
      · rcases UMap.lookup_erase_eq_some hth' with ⟨hne, hth'⟩
        rw [k.held_draw_ne hne]
        exact h.running id' th' hth'
      · rcases List.mem_append.mp hd with hd | hd
        · exact hreturned d hd
        · rw [List.mem_singleton.mp hd, k.held_draw_self]
          exact hspells.done hround

theorem Holds.nodup (h : Holds t k) (hnum : t.Numbered) : (t.returned.map Done.reply).Nodup := by
  refine List.Nodup.map_on (fun d hd d' hd' heq => ?_) (List.Nodup.of_map _ hnum.nodup)
  rcases h.returned d hd with ⟨hlen, hreply⟩
  rcases h.returned d' hd' with ⟨hlen', hreply'⟩
  rw [hreply, hreply', String.ofList_inj] at heq
  have hbound : ∀ id, ∀ n ∈ k.held id, n < 2 ^ 64 := by
    intro id n hn
    exact Nat.lt_of_lt_of_le (k.below id n hn) h.room
  have hheld := Uuid.text_inj (hlen.trans hlen'.symm) (hbound d.id) (hbound d'.id) heq
  have hid := k.eq_of_held_eq hheld (List.ne_nil_of_length_pos (hlen ▸ Nat.succ_pos 7))
  exact List.inj_on_of_nodup_map hnum.nodup hd hd' hid

/-- **Unique ids.** However the rounds of the calls mix, and whatever their random bytes are, the ids that `uuid` returned
are different, as long as the counter has not wrapped. -/
theorem run_unique {turns : List (Turn (Nat → UInt8))} (hwrap : always step unwrapped start turns = true) :
    ∃ t, Lib.run step start turns = some t ∧ (t.returned.map Done.reply).Nodup := by
  rcases exists_run (Threads.exists_step fun seq u => ⟨_, Uuid.round_eq seq u⟩) turns start with ⟨t, hrun⟩
  have hkeeps : ∀ (t : UuidThreads) turn t', (∃ k, Holds t k) ∧ t.Numbered → t.step turn = some t' →
      t.unwrapped turn = true → (∃ k, Holds t' k) ∧ t'.Numbered := by
    rintro t turn t' ⟨⟨k, h⟩, hnum⟩ hstep hcond
    exact ⟨h.step hnum hstep hcond, hnum.step hstep⟩
  rcases run_induct_of_always hkeeps ⟨⟨_, holds_start⟩, Threads.numbered_start 1⟩ hwrap turns t (List.prefix_refl turns)
    hrun with ⟨⟨k, h⟩, hnum⟩
  exact ⟨t, hrun, h.nodup hnum⟩

/-- Two calls with the same random bytes, which take turns. -/
def alike : List (Turn (Nat → UInt8)) :=
  [.call fun _ => 0, .call fun _ => 0] ++ (List.replicate 8 [.go 0, .go 1]).flatten

theorem run_unique_alike : ∃ t, Lib.run step start alike = some t ∧ t.returned.length = 2 ∧
    (t.returned.map Done.reply).Nodup := by
  have hwrap : always step unwrapped start alike = true := by decide +kernel
  rcases run_unique hwrap with ⟨t, hrun, hnodup⟩
  have hlength : (Lib.run step start alike).map (fun t => t.returned.length) = some 2 := by decide +kernel
  rw [hrun] at hlength
  exact ⟨t, hrun, Option.some.inj hlength, hnodup⟩

end UuidThreads
end HareMQ
