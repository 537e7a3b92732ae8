import HareMQ.Lib.Wildcard
import HareMQ.Route

/-! # Topic matching

The table of `__dp_matching` decides the inductive meaning of a binding key. -/

namespace HareMQ
open Lib

/-- What a word of a binding key stands for. -/
def keyPattern (bkey : String) : Pat String := if bkey = "*" then .one else if bkey = "#" then .many else .word bkey

/-! ### Words of a routing key -/

/-- The characters of a part are characters of the text, and none of them separates. -/
theorem mem_of_mem_splitTokens {isSep : Char → Bool} : ∀ {cs : List Char} {inRun : Bool} {part : List Char} {c : Char},
    part ∈ splitTokens isSep inRun cs → c ∈ part → c ∈ cs ∧ isSep c = false
  | [], inRun, part, c, hpart, hc => by
    rw [splitTokens, List.mem_singleton] at hpart
    rw [hpart] at hc
    cases hc
  | x :: cs, inRun, part, c, hpart, hc => by
    rw [splitTokens] at hpart
    split at hpart
    · split at hpart
      · exact (mem_of_mem_splitTokens hpart hc).imp_left (List.mem_cons_of_mem _)
      · obtain rfl | hpart := List.mem_cons.mp hpart
        · cases hc
        · exact (mem_of_mem_splitTokens hpart hc).imp_left (List.mem_cons_of_mem _)
    · next hx =>
      cases hsplit : splitTokens isSep false cs with
      | nil =>
        rw [hsplit] at hpart
        cases hpart
      | cons head tail =>
        rw [hsplit, List.modifyHead_cons] at hpart
        obtain rfl | hpart := List.mem_cons.mp hpart
        · obtain rfl | hc := List.mem_cons.mp hc
          · exact ⟨List.mem_cons_self, Bool.not_eq_true _ ▸ hx⟩
          · exact (mem_of_mem_splitTokens (hsplit ▸ List.mem_cons_self) hc).imp_left (List.mem_cons_of_mem _)
        · exact (mem_of_mem_splitTokens (hsplit ▸ List.mem_cons_of_mem _ hpart) hc).imp_left (List.mem_cons_of_mem _)

/-- No word of a legal routing key is a wildcard, so that equality never shadows one. -/
theorem isLegalRoutingKey_word {routingKey w : String} (h : Router.isLegalRoutingKey routingKey = true)
    (hw : w ∈ split routingKey ".") : w ≠ "*" ∧ w ≠ "#" := by
  obtain ⟨t, ht, rfl⟩ := List.mem_map.mp hw
  have hlegal : ∀ c ∈ t, Router.isKeyChar c = true := fun c hc =>
    List.all_eq_true.mp h c (mem_of_mem_splitTokens ht hc).1
  constructor
  all_goals
    intro heq
    have hchars := congrArg String.toList heq
    rw [String.toList_ofList] at hchars
  · exact absurd (hlegal '*' (hchars ▸ by decide)) (by decide)
  · exact absurd (hlegal '#' (hchars ▸ by decide)) (by decide)

/-! ### The table -/

section
open Classical

/-- The entries of a row from the words `us` on: whether the pattern matches `us`, and `us` with the next words. -/
noncomputable def cells (ps : List (Pat String)) (us : List String) : List String → List Bool
  | [] => [decide (Matches ps us)]
  | w :: ws => decide (Matches ps us) :: cells ps (us ++ [w]) ws

variable {ps : List (Pat String)} {us : List String}

/-- The row above the first one. -/
theorem cells_nil : ∀ (us ws : List String), us ≠ [] → cells [] us ws = List.replicate (ws.length + 1) false
  | us, [], hne => by simp [cells, Matches.nil_iff, hne]
  | us, w :: ws, hne => by
    rw [cells, cells_nil (us ++ [w]) ws (by simp), List.length_cons, List.replicate_succ (n := ws.length + 1)]
    simp [Matches.nil_iff, hne]

theorem exists_cells_cons (ps : List (Pat String)) (us ws : List String) :
    ∃ rest, cells ps us ws = decide (Matches ps us) :: rest := by
  cases ws <;> exact ⟨_, rfl⟩

/-- One entry of the table: the pattern and the words are both extended at the end. -/
theorem cell_eq {bkey w : String} (hw : w ≠ "*" ∧ w ≠ "#") :
    (if (bkey = w || bkey = "*") = true then decide (Matches ps us)
      else if bkey = "#" then
        decide (Matches ps us) || decide (Matches (ps ++ [keyPattern bkey]) us) || decide (Matches ps (us ++ [w]))
      else false) = decide (Matches (ps ++ [keyPattern bkey]) (us ++ [w])) := by
  by_cases hstar : bkey = "*"
  · rw [if_pos (by simp [hstar]), keyPattern, if_pos hstar]
    exact decide_eq_decide.mpr Matches.concat_one.symm
  by_cases hash : bkey = "#"
  · have hne : bkey ≠ w := fun heq => hw.2 (heq ▸ hash)
    rw [if_neg (by simp [hstar, hne]), if_pos hash, keyPattern, if_neg hstar, if_pos hash]
    -- The entry to the left already covers the one before it.
    have hdiag : Matches ps us → Matches (ps ++ [.many]) us := fun h =>
      Matches.concat_many_iff.mpr ⟨us, List.prefix_refl us, h⟩
    rw [Bool.eq_iff_iff]
    simp only [Bool.or_eq_true, decide_eq_true_eq, Matches.concat_many]
    exact ⟨fun h => h.imp_left fun h => h.elim hdiag id, fun h => h.imp_left Or.inr⟩
  · have hpat : keyPattern bkey = .word bkey := by rw [keyPattern, if_neg hstar, if_neg hash]
    rw [hpat]
    by_cases heq : bkey = w
    · rw [if_pos (by simp [heq])]
      refine decide_eq_decide.mpr ?_
      rw [Matches.concat_word, and_iff_right heq]
    · rw [if_neg (by simp [heq, hstar]), if_neg hash, eq_comm, decide_eq_false_iff_not, Matches.concat_word]
      exact fun h => heq h.1

/-- The inner loop computes the row of the extended pattern. -/
theorem fillRow_eq (bkey : String) : ∀ (ws us : List String), (∀ w ∈ ws, w ≠ "*" ∧ w ≠ "#") →
    decide (Matches (ps ++ [keyPattern bkey]) us) ::
        Router.fillRow bkey (decide (Matches (ps ++ [keyPattern bkey]) us)) (cells ps us ws) ws =
      cells (ps ++ [keyPattern bkey]) us ws
  | [], us, _ => rfl
  | w :: ws, us, hws => by
    obtain ⟨rest, hrest⟩ := exists_cells_cons ps (us ++ [w]) ws
    have ih := fillRow_eq bkey ws (us ++ [w]) fun w' hw' => hws w' (List.mem_cons_of_mem _ hw')
    rw [cells, cells, ← ih, hrest, Router.fillRow, cell_eq (hws w List.mem_cons_self)]

/-- The entries of the first column that are left behind the pattern `ps`. -/
noncomputable def column (ps : List (Pat String)) (bkeys : List String) : List Bool :=
  if Matches ps [] then Router.firstColumn bkeys else List.replicate bkeys.length false

theorem concat_nil_iff (ps : List (Pat String)) (bkey : String) :
    Matches (ps ++ [keyPattern bkey]) [] ↔ Matches ps [] ∧ bkey = "#" := by
  rw [Matches.nil_right_iff, Matches.nil_right_iff, List.forall_mem_append, List.forall_mem_singleton]
  refine and_congr_right fun _ => ?_
  unfold keyPattern
  split
  · next h => exact ⟨nofun, fun hash => absurd (h.symm.trans hash) (by decide)⟩
  · split
    · next h => exact ⟨fun _ => h, fun _ => rfl⟩
    · next h => exact ⟨nofun, fun hash => absurd hash h⟩

theorem column_cons (ps : List (Pat String)) (bkey : String) (bkeys : List String) :
    column ps (bkey :: bkeys) =
      decide (Matches (ps ++ [keyPattern bkey]) []) :: column (ps ++ [keyPattern bkey]) bkeys := by
  unfold column
  simp only [concat_nil_iff, Router.firstColumn]
  by_cases hps : Matches ps []
  · by_cases hash : bkey = "#" <;> simp [hps, hash, List.replicate_succ]
  · simp [hps, List.replicate_succ]

/-- The outer loop extends the pattern word by word. -/
theorem fillRows_eq {rkeys : List String} (hws : ∀ w ∈ rkeys, w ≠ "*" ∧ w ≠ "#") : ∀ (bkeys : List String) (ps : List (Pat String)),
    Router.fillRows rkeys (cells ps [] rkeys) (bkeys.zip (column ps bkeys)) =
      cells (ps ++ bkeys.map keyPattern) [] rkeys
  | [], ps => by rw [List.map_nil, List.append_nil]; rfl
  | bkey :: bkeys, ps => by
    rw [column_cons, List.zip_cons_cons, Router.fillRows, fillRow_eq _ rkeys [] hws, fillRows_eq hws bkeys, List.map_cons,
      List.append_assoc, List.singleton_append]

theorem getLastD_cells (ps : List (Pat String)) : ∀ us ws : List String,
    (cells ps us ws).getLastD false = decide (Matches ps (us ++ ws))
  | us, [] => by rw [List.append_nil]; rfl
  | us, w :: ws => by
    obtain ⟨rest, hrest⟩ := exists_cells_cons ps (us ++ [w]) ws
    have ih := getLastD_cells ps (us ++ [w]) ws
    rw [List.append_cons, ← ih, cells, hrest]
    rfl

end

/-- **Topic matching.** For a legal routing key the router accepts exactly the words that match the binding key. -/
theorem route_topic_iff {routingKey : String} (h : Router.isLegalRoutingKey routingKey = true) (bindingKey : String) :
    Router.route .topic routingKey bindingKey = true ↔
      Matches ((split bindingKey ".").map keyPattern) (split routingKey ".") := by
  classical
  have hws : ∀ w ∈ split routingKey ".", w ≠ "*" ∧ w ≠ "#" := fun w => isLegalRoutingKey_word h
  have hrow : true :: List.replicate (split routingKey ".").length false = cells [] [] (split routingKey ".") := by
    cases hsplit : split routingKey "." with
    | nil => simp [cells, Matches.nil_iff]
    | cons w ws =>
      rw [cells, cells_nil _ ws (by simp), List.length_cons]
      simp [Matches.nil_iff]
  have hcolumn : Router.firstColumn (split bindingKey ".") = column [] (split bindingKey ".") := by
    rw [column, if_pos Matches.nil]
  show Router.dpMatching routingKey bindingKey = true ↔ _
  rw [Router.dpMatching, hrow, hcolumn, fillRows_eq hws, getLastD_cells, List.nil_append, List.nil_append,
    decide_eq_true_iff]

theorem route_topic_iff_hash : Router.route .topic "aaa.bbb.ccc" "aaa.#.ccc" = true ↔
    Matches [.word "aaa", .many, .word "ccc"] ["aaa", "bbb", "ccc"] :=
  route_topic_iff (by decide) "aaa.#.ccc"

end HareMQ
