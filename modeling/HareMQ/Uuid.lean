import HareMQ.Lib.Numeral
import HareMQ.Lib.Threads

/-! # Ids (`uuid_helper` in `mqcommon/helper.hpp`)

The calls of `uuid` share the atomic counter `seq`, and each increments it once in a round of its outer loop. The rest of
a round concerns no other call, so that a round is a section. -/

namespace HareMQ
open Lib

/-- `<< std::setw(2) << std::setfill('0') << std::hex`. -/
def hex (n : Nat) : List Char := numeral 16 2 n

/-- A call of `uuid` at the head of the outer loop. -/
structure Uuid where
  /-- What `distribution(generator)` gives in each round. -/
  bytes : Nat → UInt8
  i : Nat := 0
  ss : List Char := []

namespace Uuid

/-- The inner loop, from `i - 1` down to 0. -/
def putNum (num : Nat) : Nat → List Char → List Char
  | 0, ss => ss
  | i + 1, ss =>
    let ss := ss ++ hex ((num >>> (i * 8)) &&& 0xff)
    putNum num i (if i = 6 then ss ++ ['-'] else ss)

/-- A round of the outer loop. -/
def round (seq : Nat) (u : Uuid) : Option (Nat × Next Uuid String) :=
  let ss := u.ss ++ hex (u.bytes u.i).toNat
  let ss := if u.i = 3 ∨ u.i = 5 ∨ u.i = 7 then ss ++ ['-'] else ss
  let num := seq
  let seq := (seq + 1) % 2 ^ 64
  let ss := putNum num 8 ss
  if u.i + 1 < 8 then some (seq, .goto { u with i := u.i + 1, ss })
  else some (seq, .done (String.ofList ss))

end Uuid

/-- The calls of `uuid` in a process, each with its random bytes. -/
abbrev UuidThreads := Threads Nat (Nat → UInt8) Uuid String

namespace UuidThreads

def start : UuidThreads := { shared := 1 }

def step : UuidThreads → Turn (Nat → UInt8) → Option UuidThreads := Threads.step (fun bytes => { bytes }) Uuid.round

end UuidThreads
end HareMQ
