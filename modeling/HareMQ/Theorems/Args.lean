import HareMQ.Exchange
import HareMQ.Queue
import HareMQ.Theorems.Route
import Mathlib.Data.List.TakeWhile

/-! # Stored arguments

`set_args` undoes `get_args` but for one entry: behind the last `&` it finds an empty part, which it enters as an
argument with an empty name. -/

namespace HareMQ
open Lib

namespace Args

/-- What the separators of the stored text need not to occur in. -/
def Plain (args : UMap String String) : Prop :=
  ∀ e ∈ args.entries, '&' ∉ e.1.toList ∧ '=' ∉ e.1.toList ∧ '&' ∉ e.2.toList

instance (args : UMap String String) : Decidable (Plain args) :=
  inferInstanceAs (Decidable (∀ e ∈ args.entries, '&' ∉ e.1.toList ∧ '=' ∉ e.1.toList ∧ '&' ∉ e.2.toList))

/-- The text of one argument, without the `&`. -/
def argText (e : (_ : String) × String) : List Char := e.1.toList ++ '=' :: e.2.toList

/-! ### The text -/

theorem toList_foldl_get (es : List ((_ : String) × String)) (result : String) :
    (es.foldl (fun result e => result ++ (e.1 ++ "=" ++ e.2 ++ "&")) result).toList =
      result.toList ++ es.flatMap fun e => argText e ++ ['&'] := by
  induction es generalizing result with
  | nil => simp
  | cons e es ih =>
    rw [List.foldl_cons, ih, List.flatMap_cons]
    simp [argText]

/-- A part that is not empty ends at the next separator. -/
theorem splitTokens_part {isSep : Char → Bool} {sep : Char} (hsep : isSep sep = true) (rest : List Char) :
    ∀ {part : List Char}, part ≠ [] → (∀ c ∈ part, isSep c = false) → ∀ inRun,
      splitTokens isSep inRun (part ++ sep :: rest) = part :: splitTokens isSep true rest
  | [], hne, _, _ => absurd rfl hne
  | c :: part, _, hpart, inRun => by
    rw [List.forall_mem_cons] at hpart
    rw [List.cons_append, splitTokens, hpart.1]
    cases part with
    | nil => simp [splitTokens, hsep]
    | cons c' part =>
      rw [if_neg Bool.false_ne_true, splitTokens_part hsep rest (List.cons_ne_nil c' part) hpart.2 false,
        List.modifyHead_cons]

theorem splitTokens_args {es : List ((_ : String) × String)} (h : ∀ e ∈ es, '&' ∉ argText e) (inRun : Bool) :
    splitTokens (fun c => "&".toList.contains c) inRun (es.flatMap fun e => argText e ++ ['&']) =
      es.map argText ++ [[]] := by
  induction es generalizing inRun with
  | nil => simp [splitTokens]
  | cons e es ih =>
    rw [List.forall_mem_cons] at h
    have hne : argText e ≠ [] := by simp [argText]
    have hpart : ∀ c ∈ argText e, "&".toList.contains c = false := by
      intro c hc
      rw [← Bool.not_eq_true, List.contains_iff_mem]
      intro hmem
      rw [show "&".toList = ['&'] from rfl, List.mem_singleton] at hmem
      exact h.1 (hmem ▸ hc)
    rw [List.flatMap_cons, List.append_assoc, List.singleton_append,
      splitTokens_part (by rfl) _ hne hpart inRun, ih h.2, List.map_cons, List.cons_append]

/-! ### Reading it back -/

/-- The first `=` ends the name. -/
theorem insertArg_argText (args : UMap String String) {e : (_ : String) × String} (h : '=' ∉ e.1.toList) :
    insertArg args (String.ofList (argText e)) = args.emplace e.1 e.2 := by
  have hkey : (argText e).takeWhile (· ≠ '=') = e.1.toList := by
    rw [argText, List.takeWhile_append_of_pos]
    · simp
    · intro c hc
      simpa using fun heq : c = '=' => h (heq ▸ hc)
  have hlen : e.1.toList.length ≠ (argText e).length := by
    simp only [argText, List.length_append, List.length_cons]
    omega
  have hval : (argText e).drop (e.1.toList.length + 1) = e.2.toList := by
    rw [argText, ← List.singleton_append, ← List.append_assoc, List.drop_left' (by simp)]
  unfold insertArg
  simp only [String.toList_ofList, hkey, if_neg hlen, hval, String.ofList_toList]

theorem insertArg_empty (args : UMap String String) : insertArg args "" = args.emplace "" "" := by
  simp [insertArg]

theorem find?_entries (args : UMap String String) (k : String) :
    (args.entries.find? (·.1 = k)).map (·.2) = args.lookup k := by
  cases hfind : args.entries.find? (·.1 = k) with
  | none =>
    rw [List.find?_eq_none] at hfind
    cases hlookup : args.lookup k with
    | none => rfl
    | some v => exact absurd rfl (of_decide_eq_false (Bool.not_eq_true _ ▸ hfind _ (UMap.mem_entries_iff.mpr hlookup)))
  | some e =>
    have hkey := List.find?_some hfind
    obtain rfl : e.1 = k := of_decide_eq_true hkey
    exact (UMap.mem_entries_iff.mp (List.mem_of_find?_eq_some hfind)).symm

/-- All arguments come back, and one without a name unless there was one. -/
theorem lookup_set_get {args : UMap String String} (hplain : Plain args) (k : String) :
    (set ∅ (get args)).lookup k = (args.lookup k).or (if k = "" then some "" else none) := by
  have hparts : split (get args) "&" = (args.entries.map fun e => String.ofList (argText e)) ++ [""] := by
    rw [split, get, toList_foldl_get, String.toList_empty, List.nil_append, splitTokens_args, List.map_append,
      List.map_map]
    · rfl
    · intro e he hmem
      obtain ⟨hk, -, hv⟩ := hplain e he
      rw [argText, List.mem_append, List.mem_cons] at hmem
      obtain hmem | hmem | hmem := hmem
      · exact hk hmem
      · cases hmem
      · exact hv hmem
  have hfold : ∀ (es : List ((_ : String) × String)) (m : UMap String String), (∀ e ∈ es, '=' ∉ e.1.toList) →
      (es.map fun e => String.ofList (argText e)).foldl insertArg m =
        es.foldl (fun m e => m.emplace e.1 e.2) m := by
    intro es
    induction es with
    | nil => exact fun m _ => rfl
    | cons e es ih =>
      intro m h
      rw [List.forall_mem_cons] at h
      rw [List.map_cons, List.foldl_cons, List.foldl_cons, insertArg_argText m h.1, ih _ h.2]
  rw [set, hparts, List.foldl_append, hfold _ _ fun e he => (hplain e he).2.1, List.foldl_cons, List.foldl_nil,
    insertArg_empty, UMap.lookup_emplace, UMap.lookup_foldl_emplace, find?_entries, AList.lookup_empty, Option.none_or]

/-- What an exchange or a queue is stored with is what a fresh one is given from it. -/
def Restored (args : UMap String String) : Prop :=
  (∀ e fresh : Exchange, e.args = args → fresh.args = ∅ → ∀ k, (fresh.setArgs e.getArgs).args.lookup k = args.lookup k) ∧
  ∀ q fresh : MsgQueue, q.args = args → fresh.args = ∅ → ∀ k, (fresh.setArgs q.getArgs).args.lookup k = args.lookup k

/-- The text brings an argument with an empty name. -/
theorem restored_iff (args : UMap String String) (hplain : Plain args) : Restored args ↔ "" ∈ args := by
  have hsame : (∀ k, (set ∅ (get args)).lookup k = args.lookup k) ↔ "" ∈ args := by
    constructor
    · intro h
      rw [← AList.lookup_isSome, ← h "", lookup_set_get hplain, if_pos rfl, Option.or_some, Option.isSome_some]
    · intro hmem k
      rw [lookup_set_get hplain]
      by_cases hk : k = ""
      · subst hk
        rw [Option.or_of_isSome (AList.lookup_isSome.mpr hmem)]
      · rw [if_neg hk, Option.or_none]
  rw [← hsame]
  constructor
  · intro h
    exact h.1 ⟨"", .direct, false, false, args⟩ ⟨"", .direct, false, false, ∅⟩ rfl rfl
  · intro h
    constructor
    · rintro e fresh rfl hfresh
      rw [Exchange.setArgs, hfresh]
      exact h
    · rintro q fresh rfl hfresh
      rw [MsgQueue.setArgs, hfresh]
      exact h

theorem restored_unnamed : Restored (AList.singleton "" "v") :=
  (restored_iff (AList.singleton "" "v") (by decide +kernel)).mpr (by decide)

/-- A fresh exchange is given an argument that the stored one did not have. -/
theorem not_restored_empty : Plain ∅ ∧ ¬Restored ∅ := by
  refine ⟨by decide, fun h => ?_⟩
  have hnone := h.1 ⟨"e", .direct, true, false, ∅⟩ ⟨"e", .direct, true, false, ∅⟩ rfl rfl ""
  rw [AList.lookup_empty] at hnone
  revert hnone
  decide +kernel

/-! ### The command line -/

theorem Plain.insertArg {args : UMap String String} (h : Plain args) {arg : String} (heq : '=' ∈ arg.toList)
    (hamp : '&' ∉ arg.toList) : Plain (insertArg args arg) := by
  have hlen : (arg.toList.takeWhile (· ≠ '=')).length ≠ arg.toList.length := by
    intro hlen
    have hall := (List.takeWhile_prefix (· ≠ '=')).eq_of_length hlen
    rw [List.takeWhile_eq_self_iff] at hall
    simpa using hall '=' heq
  rw [Args.insertArg, if_neg hlen]
  intro e he
  obtain hold | ⟨hk, -, hv⟩ := UMap.lookup_emplace_eq_some (UMap.mem_entries_iff.mp he)
  · exact h e (UMap.mem_entries_iff.mpr hold)
  · rw [hk, hv, String.toList_ofList, String.toList_ofList]
    refine ⟨fun hmem => hamp ((List.takeWhile_prefix _).subset hmem), fun hmem => ?_,
      fun hmem => hamp (List.mem_of_mem_drop hmem)⟩
    simpa using List.mem_takeWhile_imp hmem

/-- The command line builds such maps only. -/
theorem plain_parse {text : String} {args : UMap String String} (h : parse text = some args) : Plain args := by
  rw [parse] at h
  split at h
  · cases h
    exact fun e he => absurd he (List.not_mem_nil)
  · dsimp only at h
    split at h
    · next hparts =>
      cases h
      have hamp : ∀ arg ∈ split text "&", '&' ∉ arg.toList := by
        intro arg harg hmem
        obtain ⟨part, hpart, rfl⟩ := List.mem_map.mp harg
        rw [String.toList_ofList] at hmem
        exact absurd (mem_of_mem_splitTokens hpart hmem).2 (by decide)
      rw [List.all_eq_true] at hparts
      refine List.foldlRecOn (motive := Plain) _ _ (fun e he => absurd he List.not_mem_nil) fun m hm arg harg => ?_
      exact hm.insertArg (List.contains_iff_mem.mp (hparts arg harg)) (hamp arg harg)
    · cases h

end Args
end HareMQ
