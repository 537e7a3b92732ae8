import HareMQ.Helper
import HareMQ.Msg

/-! # Routing (`mqserver/route.hpp`) -/

namespace HareMQ
namespace Router

def isKeyChar (ch : Char) : Bool :=
  ('a' ≤ ch && ch ≤ 'z') || ('A' ≤ ch && ch ≤ 'Z') || ('0' ≤ ch && ch ≤ '9') || ch = '_' || ch = '.'

def isLegalRoutingKey (routingKey : String) : Bool := routingKey.toList.all isKeyChar

/-- `*` and `#` must be words of their own, and no two of them may be neighbours unless both are `*`. -/
def isLegalBindingKey (bindingKey : String) : Bool :=
  let sub := split bindingKey "."
  bindingKey.toList.all (fun ch => isKeyChar ch || ch = '*' || ch = '#') &&
    sub.all (fun e => !(1 < e.toList.length && (e.toList.contains '*' || e.toList.contains '#'))) &&
    (sub.zip sub.tail).all fun (a, b) => !((b = "#" && a = "*") || (b = "#" && a = "#") || (b = "*" && a = "#"))

/-- The entries `dp[1][0]`, `dp[2][0]`, ...: true up to the first word that is not `#`. -/
def firstColumn : List String → List Bool
  | [] => []
  | bkey :: bkeys => if bkey = "#" then true :: firstColumn bkeys else List.replicate (bkeys.length + 1) false

/-- The inner loop: the rest of a row, from the entry to the left and the row above it. -/
def fillRow (bkey : String) (left : Bool) : List Bool → List String → List Bool
  | diag :: up :: above, rkey :: rkeys =>
    let cell :=
      if bkey = rkey || bkey = "*" then diag
      else if bkey = "#" then diag || left || up
      else false
    cell :: fillRow bkey cell (up :: above) rkeys
  | _, _ => []

/-- The outer loop, from the row above; every word of the binding key comes with its first entry. -/
def fillRows (rkeys : List String) (above : List Bool) : List (String × Bool) → List Bool
  | [] => above
  | (bkey, first) :: rest => fillRows rkeys (first :: fillRow bkey first above rkeys) rest

/-- `__dp_matching`. -/
def dpMatching (routingKey bindingKey : String) : Bool :=
  let bkeys := split bindingKey "."
  let rkeys := split routingKey "."
  (fillRows rkeys (true :: List.replicate rkeys.length false) (bkeys.zip (firstColumn bkeys))).getLastD false

def route (type : ExchangeType) (routingKey bindingKey : String) : Bool :=
  match type with
  | .direct => routingKey = bindingKey
  | .fanout => true
  | _ => dpMatching routingKey bindingKey

end Router
end HareMQ
