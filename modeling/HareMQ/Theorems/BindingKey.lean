import Mathlib.Data.List.Chain
import HareMQ.Route

/-! # Legal binding keys

`is_legal_binding_key` reads a key through its words. Here is the grammar it accepts, on the characters of the key. -/

namespace HareMQ

/-! ### Chains -/

section
variable {α : Type} {r : α → α → Prop} {p : α → Bool} {l : List α}

theorem isChain_iff_zip_tail : List.IsChain r l ↔ ∀ e ∈ l.zip l.tail, r e.1 e.2 := by
  induction l with
  | nil => simp
  | cons a l ih =>
    cases l with
    | nil => simp
    | cons b l =>
      rw [List.isChain_cons_cons, ih]
      simp

/-- A relation of neighbours among the kept elements relates two of them with only dropped ones in between. -/
theorem isChain_filter_iff : List.IsChain r (l.filter p) ↔
    ∀ before a between b after, l = before ++ a :: (between ++ b :: after) → p a → p b → (∀ x ∈ between, ¬p x) →
      r a b := by
  rw [List.isChain_iff_forall_rel_of_append_cons_cons]
  constructor
  · intro h before a between b after heq ha hb hbetween
    have hkept : l.filter p = before.filter p ++ a :: b :: after.filter p := by
      rw [heq, List.filter_append, List.filter_cons_of_pos ha, List.filter_append, List.filter_cons_of_pos hb,
        List.filter_eq_nil_iff.mpr hbetween, List.nil_append]
    exact h hkept
  · intro h a b l₁ l₂ heq
    obtain ⟨before, rest, rfl, -, hrest⟩ := List.filter_eq_append_iff.mp heq
    obtain ⟨skipped, rest, rfl, -, ha, hrest⟩ := List.filter_eq_cons_iff.mp hrest
    obtain ⟨between, after, rfl, hbetween, hb, -⟩ := List.filter_eq_cons_iff.mp hrest
    exact h (before ++ skipped) a between b after (List.append_assoc ..).symm ha hb hbetween

end

namespace Router

def IsWild (c : Char) : Prop := c = '*' ∨ c = '#'

instance : DecidablePred IsWild := fun c => inferInstanceAs (Decidable (c = '*' ∨ c = '#'))

/-- The grammar of binding keys: wildcards are words of their own, and of two wildcards with nothing but dots in between
    neither is a `#`. -/
structure BindingGrammar (key : List Char) : Prop where
  letters : ∀ c ∈ key, c.isAlphanum ∨ c = '_' ∨ c = '.' ∨ IsWild c
  alone : ∀ before c after, key = before ++ c :: after → IsWild c →
    (∀ b, before.getLast? = some b → b = '.') ∧ ∀ a, after.head? = some a → a = '.'
  apart : ∀ before c dots d after, key = before ++ c :: (dots ++ d :: after) → IsWild c → IsWild d →
    dots ≠ [] → (∀ x ∈ dots, x = '.') → c ≠ '#' ∧ d ≠ '#'

/-! ### The checks on words -/

/-- A word that is a wildcard or holds none. -/
def Alone (word : List Char) : Prop := word.length ≤ 1 ∨ ∀ c ∈ word, ¬IsWild c

/-- Neighbouring words that may stand next to each other. -/
def Apart (a b : List Char) : Prop := ¬(a = ['#'] ∧ b = ['*'] ∨ a = ['#'] ∧ b = ['#'] ∨ a = ['*'] ∧ b = ['#'])

/-- Neighbouring characters of a key whose wildcards stand alone. -/
def Lonely (c d : Char) : Prop := (IsWild c → d = '.') ∧ (IsWild d → c = '.')

/-- Characters that may stand next to each other when the dots are left out. -/
def Parted (c d : Char) : Prop := IsWild c → IsWild d → c ≠ '#' ∧ d ≠ '#'

def isDot (c : Char) : Bool := c = '.'

variable {cs : List Char} {c d : Char}

theorem split_dot (key : String) : split key "." = (splitTokens isDot false key.toList).map String.ofList := by
  have hdot : (fun c => ".".toList.contains c) = isDot := by
    funext c
    simp [isDot]
  rw [split, hdot]

theorem isKeyChar_iff : isKeyChar c = true ↔ c.isAlphanum ∨ c = '_' ∨ c = '.' := by
  delta isKeyChar Char.isAlphanum Char.isAlpha Char.isUpper Char.isLower Char.isDigit
  simp only [Bool.or_eq_true, Bool.and_eq_true, decide_eq_true_eq]
  constructor
  · rintro ((((h | h) | h) | h) | h)
    · exact Or.inl (Or.inl (Or.inr h))
    · exact Or.inl (Or.inl (Or.inl h))
    · exact Or.inl (Or.inr h)
    · exact Or.inr (Or.inl h)
    · exact Or.inr (Or.inr h)
  · rintro (((h | h) | h) | h | h)
    · exact Or.inl (Or.inl (Or.inl (Or.inr h)))
    · exact Or.inl (Or.inl (Or.inl (Or.inl h)))
    · exact Or.inl (Or.inl (Or.inr h))
    · exact Or.inl (Or.inr h)
    · exact Or.inr h

theorem alone_iff {word : List Char} :
    (!(1 < word.length && (word.contains '*' || word.contains '#'))) = true ↔ Alone word := by
  rw [Bool.not_eq_true', Bool.and_eq_false_iff, decide_eq_false_iff_not, Nat.not_lt, Alone, Bool.or_eq_false_iff]
  have hnone : (word.contains '*' = false ∧ word.contains '#' = false) ↔ ∀ c ∈ word, ¬IsWild c := by
    rw [List.contains_eq_mem, List.contains_eq_mem, decide_eq_false_iff_not, decide_eq_false_iff_not]
    constructor
    · rintro ⟨hone, hmany⟩ c hc (rfl | rfl)
      · exact hone hc
      · exact hmany hc
    · intro h
      exact ⟨fun hc => h _ hc (Or.inl rfl), fun hc => h _ hc (Or.inr rfl)⟩
  rw [hnone]

theorem ofList_eq_iff {word : List Char} {text : String} : String.ofList word = text ↔ word = text.toList := by
  rw [← String.toList_inj, String.toList_ofList]

theorem apart_iff {a b : List Char} :
    (!((String.ofList b = "#" && String.ofList a = "*") || (String.ofList b = "#" && String.ofList a = "#") ||
      (String.ofList b = "*" && String.ofList a = "#"))) = true ↔ Apart a b := by
  have hone : "*".toList = ['*'] := rfl
  have hmany : "#".toList = ['#'] := rfl
  rw [Bool.not_eq_true', ← Bool.not_eq_true]
  simp only [Bool.or_eq_true, Bool.and_eq_true, decide_eq_true_eq, ofList_eq_iff, hone, hmany, Apart]
  tauto

theorem isLegalBindingKey_iff_words {key : String} : isLegalBindingKey key = true ↔
    (∀ c ∈ key.toList, c.isAlphanum ∨ c = '_' ∨ c = '.' ∨ IsWild c) ∧
      (∀ word ∈ splitTokens isDot false key.toList, Alone word) ∧
        List.IsChain Apart (splitTokens isDot false key.toList) := by
  rw [isLegalBindingKey, split_dot, Bool.and_eq_true, Bool.and_eq_true, and_assoc, List.all_map, ← List.map_tail,
    List.zip_map, List.all_map, List.all_eq_true, List.all_eq_true, List.all_eq_true, isChain_iff_zip_tail]
  refine and_congr ?_ (and_congr ?_ ?_)
  · simp only [Bool.or_eq_true, decide_eq_true_eq, isKeyChar_iff, IsWild, or_assoc]
  · refine forall₂_congr fun word _ => ?_
    rw [Function.comp_apply, String.toList_ofList]
    exact alone_iff
  · exact forall₂_congr fun e _ => apart_iff

/-! ### The words of a key and its characters -/

theorem exists_splitTokens_cons (isSep : Char → Bool) : ∀ (cs : List Char) (inRun : Bool),
    ∃ word words, splitTokens isSep inRun cs = word :: words
  | [], inRun => ⟨[], [], rfl⟩
  | c :: cs, inRun => by
    rw [splitTokens]
    split
    · split
      · exact exists_splitTokens_cons isSep cs true
      · exact ⟨_, _, rfl⟩
    · obtain ⟨word, words, h⟩ := exists_splitTokens_cons isSep cs false
      rw [h]
      exact ⟨c :: word, words, rfl⟩

theorem splitTokens_dot (inRun : Bool) (cs : List Char) : splitTokens isDot inRun ('.' :: cs) =
    if inRun then splitTokens isDot true cs else [] :: splitTokens isDot true cs := rfl

theorem splitTokens_letter (inRun : Bool) {c : Char} (hc : c ≠ '.') (cs : List Char) :
    splitTokens isDot inRun (c :: cs) = (splitTokens isDot false cs).modifyHead (c :: ·) := by
  rw [splitTokens, isDot, if_neg (by simpa using hc)]

theorem not_isWild_dot : ¬IsWild '.' := by decide

theorem lonely_dot (d : Char) : Lonely '.' d := ⟨fun h => absurd h not_isWild_dot, fun _ => rfl⟩

theorem lonely_of_dot (c : Char) : Lonely c '.' := ⟨fun _ => rfl, fun h => absurd h not_isWild_dot⟩

theorem lonely_letters (hc : c ≠ '.') (hd : d ≠ '.') : Lonely c d ↔ ¬IsWild c ∧ ¬IsWild d := by
  constructor
  · rintro ⟨hleft, hright⟩
    exact ⟨fun h => hd (hleft h), fun h => hc (hright h)⟩
  · rintro ⟨hleft, hright⟩
    exact ⟨fun h => absurd h hleft, fun h => absurd h hright⟩

/-- A letter in front of a word leaves room for no wildcard. -/
theorem alone_cons_cons {word : List Char} (hc : c ≠ '.') (hd : d ≠ '.') :
    Alone (c :: d :: word) ↔ Lonely c d ∧ Alone (d :: word) := by
  rw [lonely_letters hc hd]
  constructor
  · rintro (hshort | hnone)
    · simp at hshort
    · exact ⟨⟨hnone c (by simp), hnone d (by simp)⟩, Or.inr fun x hx => hnone x (List.mem_cons_of_mem _ hx)⟩
  · rintro ⟨⟨hleft, hright⟩, hrest⟩
    refine Or.inr fun x hx => ?_
    obtain rfl | rfl | hx := by simpa using hx
    · exact hleft
    · exact hright
    · obtain hshort | hnone := hrest
      · have hnil : word = [] := by
          rw [List.length_cons] at hshort
          exact List.length_eq_zero_iff.mp (by omega)
        rw [hnil] at hx
        cases hx
      · exact hnone x (List.mem_cons_of_mem _ hx)

theorem alone_words_iff : ∀ (cs : List Char) (inRun : Bool),
    (∀ word ∈ splitTokens isDot inRun cs, Alone word) ↔ List.IsChain Lonely cs
  | [], inRun => by simp [splitTokens, Alone]
  | c :: cs, inRun => by
    by_cases hc : c = '.'
    · subst hc
      have hrest : List.IsChain Lonely ('.' :: cs) ↔ List.IsChain Lonely cs := by
        rw [List.isChain_cons]
        exact and_iff_right fun d _ => lonely_dot d
      rw [splitTokens_dot, hrest, ← alone_words_iff cs true]
      split
      · rfl
      · rw [List.forall_mem_cons]
        exact and_iff_right (Or.inl (Nat.zero_le _))
    · have ih := alone_words_iff cs false
      rw [splitTokens_letter inRun hc, List.isChain_cons, ← ih]
      match cs, ih with
      | [], _ => simp [splitTokens, Alone]
      | d :: cs, _ =>
        by_cases hd : d = '.'
        · subst hd
          rw [splitTokens_dot, if_neg (by decide), List.modifyHead_cons, List.forall_mem_cons, List.forall_mem_cons]
          have hone : Alone [c] := Or.inl (Nat.le_refl _)
          have hnil : Alone [] := Or.inl (Nat.zero_le _)
          simp [hone, hnil, lonely_of_dot c]
        · rw [splitTokens_letter false hd]
          obtain ⟨word, words, hwords⟩ := exists_splitTokens_cons isDot cs false
          rw [hwords, List.modifyHead_cons, List.modifyHead_cons, List.forall_mem_cons, List.forall_mem_cons,
            alone_cons_cons hc hd, and_assoc]
          simp

/-! ### Neighbouring wildcards -/

theorem apart_of_not_isWild {a b : List Char} (hc : ¬IsWild c) : Apart (c :: a) b := by
  rintro (⟨h, -⟩ | ⟨h, -⟩ | ⟨h, -⟩)
  · exact hc (Or.inr (List.cons.inj h).1)
  · exact hc (Or.inr (List.cons.inj h).1)
  · exact hc (Or.inl (List.cons.inj h).1)

theorem apart_of_longer {a b : List Char} : Apart a (c :: d :: b) := by
  simp [Apart]

theorem apart_singletons : Apart [c] [d] ↔ Parted c d := by
  simp only [Apart, Parted, IsWild, List.cons.injEq, and_true]
  constructor
  · rintro h (rfl | rfl) (rfl | rfl) <;> simp_all
  · rintro h (⟨rfl, rfl⟩ | ⟨rfl, rfl⟩ | ⟨rfl, rfl⟩) <;> simp at h

/-- The first word after a run of dots stands as near to a wildcard as its first character. -/
theorem apart_next_iff : ∀ {cs : List Char}, List.IsChain Lonely cs →
    ((∀ word ∈ (splitTokens isDot true cs).head?, Apart [c] word) ↔
      ∀ d ∈ (cs.filter fun d => !isDot d).head?, Parted c d)
  | [], _ => by simp [splitTokens, Apart]
  | d :: cs, hcs => by
    by_cases hd : d = '.'
    · subst hd
      have hdot : isDot '.' = true := rfl
      rw [splitTokens_dot, if_pos rfl, List.filter_cons_of_neg (by simp [hdot])]
      exact apart_next_iff hcs.of_cons
    · have hdot : isDot d = false := by simpa [isDot] using hd
      rw [splitTokens_letter true hd, List.filter_cons_of_pos (by simp [hdot]), List.head?_cons]
      match cs, hcs with
      | [], _ => simp [splitTokens, apart_singletons]
      | e :: cs, hcs =>
        by_cases he : e = '.'
        · subst he
          rw [splitTokens_dot, if_neg (by decide), List.modifyHead_cons, List.head?_cons]
          simp [apart_singletons]
        · have hwild := ((lonely_letters hd he).mp (List.isChain_cons_cons.mp hcs).1).1
          rw [splitTokens_letter false he]
          obtain ⟨word, words, hwords⟩ := exists_splitTokens_cons isDot cs false
          rw [hwords, List.modifyHead_cons, List.modifyHead_cons, List.head?_cons]
          have hparted : Parted c d := fun _ h => absurd h hwild
          simp [apart_of_longer, hparted]

theorem apart_words_iff : ∀ {cs : List Char} (inRun : Bool), List.IsChain Lonely cs →
    (List.IsChain Apart (splitTokens isDot inRun cs) ↔ List.IsChain Parted (cs.filter fun c => !isDot c))
  | [], inRun, _ => by simp [splitTokens]
  | c :: cs, inRun, hcs => by
    by_cases hc : c = '.'
    · subst hc
      have hdot : isDot '.' = true := rfl
      rw [splitTokens_dot, List.filter_cons_of_neg (by simp [hdot]), ← apart_words_iff true hcs.of_cons]
      split
      · rfl
      · rw [List.isChain_cons]
        exact and_iff_right fun word _ => by simp [Apart]
    · have hdot : isDot c = false := by simpa [isDot] using hc
      rw [splitTokens_letter inRun hc, List.filter_cons_of_pos (by simp [hdot])]
      match cs, hcs with
      | [], _ => simp [splitTokens]
      | d :: cs, hcs =>
        by_cases hd : d = '.'
        · subst hd
          have hrest : List.IsChain Lonely cs := hcs.of_cons.of_cons
          have hdot : isDot '.' = true := rfl
          rw [splitTokens_dot, if_neg (by decide), List.modifyHead_cons, List.filter_cons_of_neg (by simp [hdot]),
            List.isChain_cons, List.isChain_cons, apart_next_iff hrest, apart_words_iff true hrest]
        · -- two letters next to each other are no wildcards, so neither side looks at them
          have ⟨hleft, hright⟩ := (lonely_letters hc hd).mp (List.isChain_cons_cons.mp hcs).1
          have ih := apart_words_iff false hcs.of_cons
          have hdot : isDot d = false := by simpa [isDot] using hd
          obtain ⟨word, words, hwords⟩ := exists_splitTokens_cons isDot cs false
          rw [splitTokens_letter false hd, List.filter_cons_of_pos (by simp [hdot]), hwords, List.modifyHead_cons] at ih
          rw [splitTokens_letter false hd, List.filter_cons_of_pos (by simp [hdot]), hwords, List.modifyHead_cons,
            List.modifyHead_cons, List.isChain_cons_cons, ← ih, List.isChain_cons, List.isChain_cons]
          have hparted : Parted c d := fun h => absurd h hleft
          constructor
          · rintro ⟨-, hwords⟩
            exact ⟨hparted, fun w _ => apart_of_not_isWild hright, hwords⟩
          · rintro ⟨-, -, hwords⟩
            exact ⟨fun w _ => apart_of_not_isWild hleft, hwords⟩

/-! ### The grammar -/

theorem lonely_iff {key : List Char} : List.IsChain Lonely key ↔
    ∀ before c after, key = before ++ c :: after → IsWild c →
      (∀ b, before.getLast? = some b → b = '.') ∧ ∀ a, after.head? = some a → a = '.' := by
  rw [List.isChain_iff_forall_rel_of_append_cons_cons]
  constructor
  · intro h before c after heq hc
    constructor
    · intro b hb
      obtain ⟨init, rfl⟩ := List.getLast?_eq_some_iff.mp hb
      rw [List.append_assoc] at heq
      exact (h heq).2 hc
    · intro a ha
      obtain ⟨rest, rfl⟩ := List.head?_eq_some_iff.mp ha
      exact (h heq).1 hc
  · intro h c d before after heq
    constructor
    · intro hc
      exact (h before c (d :: after) heq hc).2 d rfl
    · intro hd
      exact (h (before ++ [c]) d after (by rw [heq, List.append_assoc]; rfl) hd).1 c (by simp)

theorem parted_iff {key : List Char} : List.IsChain Parted (key.filter fun c => !isDot c) ↔
    ∀ before c dots d after, key = before ++ c :: (dots ++ d :: after) → IsWild c → IsWild d →
      (∀ x ∈ dots, x = '.') → c ≠ '#' ∧ d ≠ '#' := by
  have hletter : ∀ {c}, IsWild c → (!isDot c) = true := by
    rintro c (rfl | rfl) <;> rfl
  have hdots : ∀ {dots : List Char}, (∀ x ∈ dots, ¬(!isDot x) = true) ↔ ∀ x ∈ dots, x = '.' := by
    simp [isDot]
  rw [isChain_filter_iff]
  constructor
  · intro h before c dots d after heq hc hd hbetween
    exact h before c dots d after heq (hletter hc) (hletter hd) (hdots.mpr hbetween) hc hd
  · intro h before c dots d after heq _ _ hbetween hc hd
    exact h before c dots d after heq hc hd (hdots.mp hbetween)

theorem isLegalBindingKey_iff {bindingKey : String} :
    isLegalBindingKey bindingKey = true ↔ BindingGrammar bindingKey.toList := by
  rw [isLegalBindingKey_iff_words, alone_words_iff]
  constructor
  · rintro ⟨hletters, hlonely, happart⟩
    rw [apart_words_iff false hlonely, parted_iff] at happart
    exact ⟨hletters, lonely_iff.mp hlonely, fun before c dots d after heq hc hd _ hdots =>
      happart before c dots d after heq hc hd hdots⟩
  · rintro ⟨hletters, halone, happart⟩
    have hlonely := lonely_iff.mpr halone
    refine ⟨hletters, hlonely, (apart_words_iff false hlonely).mpr (parted_iff.mpr ?_)⟩
    intro before c dots d after heq hc hd hdots
    refine happart before c dots d after heq hc hd ?_ hdots
    -- wildcards with nothing in between do not stand alone
    rintro rfl
    have hdot := (halone before c (d :: after) heq hc).2 d rfl
    exact not_isWild_dot (hdot ▸ hd)

end Router
end HareMQ
