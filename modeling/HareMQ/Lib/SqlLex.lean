import Mathlib.Algebra.GroupWithZero.Nat
import Mathlib.Algebra.Order.BigOperators.Group.List
import Mathlib.Algebra.Order.Group.Nat
import Mathlib.Data.List.Count

/-! # Lexical rules of SQL

A machine that reads a text character by character. String literals are in single quotes, and a doubled quote inside
one stands for itself. Operators and the signs of parameters come as single symbols. -/

namespace Lib.Sql

inductive Token
  | word (w : List Char)
  | number (n : List Char)
  | literal (s : List Char)
  /-- An identifier in quotes or brackets. -/
  | name (s : List Char)
  | blob (s : List Char)
  | symbol (c : Char)
deriving DecidableEq, Repr

/-- What the machine is inside of. -/
inductive Mode
  | start
  | word (w : List Char)
  | number (n : List Char)
  | quoted (q : Char) (body : List Char)
  /-- After a quote, which ends the token unless another one follows. -/
  | closing (q : Char) (body : List Char)
  | bracketed (body : List Char)
  | blob (body : List Char)
  | dash
  | lineComment
  | slash
  | comment
  | star
  | illegal
deriving DecidableEq, Repr

def isSpace (c : Char) : Bool := c = ' ' || c = '\t' || c = '\n' || c = '\x0c' || c = '\r'

def isWordStart (c : Char) : Bool := c.isAlpha || c = '_' || 128 ≤ c.toNat

def isWordChar (c : Char) : Bool := isWordStart c || c.isDigit || c = '$'

def isHexDigit (c : Char) : Bool := c.isDigit || ('a' ≤ c && c ≤ 'f') || ('A' ≤ c && c ≤ 'F')

/-- The first character of a token. -/
def start (c : Char) : List Token × Mode :=
  if isSpace c then ([], .start)
  else if isWordStart c then ([], .word [c])
  else if c.isDigit then ([], .number [c])
  else if c = '\'' || c = '"' || c = '`' then ([], .quoted c [])
  else if c = '[' then ([], .bracketed [])
  else if c = '-' then ([], .dash)
  else if c = '/' then ([], .slash)
  else ([.symbol c], .start)

/-- A token ends before this character. -/
def restart (t : Token) (c : Char) : List Token × Mode := (t :: (start c).1, (start c).2)

def quotedToken (q : Char) (body : List Char) : Token := if q = '\'' then .literal body else .name body

def step : Mode → Char → List Token × Mode
  | .start, c => start c
  | .word w, c =>
    if isWordChar c then ([], .word (w ++ [c]))
    else if c = '\'' && (w = ['x'] || w = ['X']) then ([], .blob [])
    else restart (.word w) c
  | .number n, c => if isWordChar c || c = '.' then ([], .number (n ++ [c])) else restart (.number n) c
  | .quoted q body, c => if c = q then ([], .closing q body) else ([], .quoted q (body ++ [c]))
  | .closing q body, c => if c = q then ([], .quoted q (body ++ [c])) else restart (quotedToken q body) c
  | .bracketed body, c => if c = ']' then ([.name body], .start) else ([], .bracketed (body ++ [c]))
  | .blob body, c =>
    if c = '\'' then ([.blob body], .start) else if isHexDigit c then ([], .blob (body ++ [c])) else ([], .illegal)
  | .dash, c => if c = '-' then ([], .lineComment) else restart (.symbol '-') c
  | .lineComment, c => if c = '\n' then ([], .start) else ([], .lineComment)
  | .slash, c => if c = '*' then ([], .comment) else restart (.symbol '/') c
  | .comment, c => if c = '*' then ([], .star) else ([], .comment)
  | .star, c => if c = '/' then ([], .start) else if c = '*' then ([], .star) else ([], .comment)
  | .illegal, _ => ([], .illegal)

def feed : Mode → List Char → List Token × Mode
  | m, [] => ([], m)
  | m, c :: text => ((step m c).1 ++ (feed (step m c).2 text).1, (feed (step m c).2 text).2)

/-- The token that is under way at the end of the text. `none`: it is not complete. -/
def finish : Mode → Option (List Token)
  | .word w => some [.word w]
  | .number n => some [.number n]
  | .closing q body => some [quotedToken q body]
  | .dash => some [.symbol '-']
  | .slash => some [.symbol '/']
  | .start => some []
  | .lineComment => some []
  | .comment => some []
  | .star => some []
  | _ => none

def lex (text : List Char) : Option (List Token) :=
  (finish (feed .start text).2).map ((feed .start text).1 ++ ·)

/-- The statements of a text, without the empty ones. -/
def read (text : List Char) : Option (List (List Token)) :=
  (lex text).map fun toks => (toks.splitOn (.symbol ';')).filter (!·.isEmpty)

def Token.literal? : Token → Option (List Char)
  | .literal s => some s
  | _ => none

def literals (toks : List Token) : List (List Char) := toks.filterMap Token.literal?

variable {m m' m'' : Mode} {text text' : List Char} {toks toks' : List Token}

/-! ### Reading in pieces -/

/-- The machine reads a text from one mode to another. -/
def Lexes (m : Mode) (text : List Char) (toks : List Token) (m' : Mode) : Prop := feed m text = (toks, m')

theorem Lexes.nil (m : Mode) : Lexes m [] [] m := rfl

theorem Lexes.cons {c : Char} (h : Lexes (step m c).2 text toks m') : Lexes m (c :: text) ((step m c).1 ++ toks) m' := by
  rw [Lexes, feed, show feed (step m c).2 text = (toks, m') from h]

theorem Lexes.append (h : Lexes m text toks m') (h' : Lexes m' text' toks' m'') :
    Lexes m (text ++ text') (toks ++ toks') m'' := by
  induction text generalizing m toks with
  | nil =>
    cases h
    exact h'
  | cons c text ih =>
    cases h
    rw [List.cons_append, List.append_assoc]
    exact Lexes.cons (ih rfl)

theorem lex_of_lexes (h : Lexes .start text toks .start) : lex text = some toks := by
  rw [lex, show feed .start text = (toks, .start) from h, finish, Option.map_some, List.append_nil]

/-! ### Single tokens -/

/-- A character that ends a word, a number or a literal before it. -/
def ends (c : Char) : Bool := !isWordChar c && c ≠ '\'' && c ≠ '.'

def IsWord : List Char → Prop
  | [] => False
  | c :: w => isWordStart c = true ∧ ∀ c' ∈ w, isWordChar c' = true

instance : DecidablePred IsWord
  | [] => inferInstanceAs (Decidable False)
  | c :: w => decidable_of_iff ((isWordStart c && w.all isWordChar) = true) (by simp [IsWord])

variable {c : Char}

theorem isWordChar_of_ends (hc : ends c = true) : isWordChar c = false ∧ c ≠ '\'' ∧ c ≠ '.' := by
  simpa [ends, and_assoc] using hc

theorem isDigit_iff : c.isDigit = true ↔ 48 ≤ c.toNat ∧ c.toNat ≤ 57 := by
  simp [Char.isDigit, UInt32.le_iff_toNat_le, ← Char.toNat_val]

theorem isAlpha_iff : c.isAlpha = true ↔ (65 ≤ c.toNat ∧ c.toNat ≤ 90) ∨ (97 ≤ c.toNat ∧ c.toNat ≤ 122) := by
  delta Char.isAlpha Char.isUpper Char.isLower
  simp [UInt32.le_iff_toNat_le, ← Char.toNat_val]

theorem start_space (hc : isSpace c = true) : start c = ([], .start) := if_pos hc

theorem start_wordStart (hc : isWordStart c = true) : start c = ([], .word [c]) := by
  have hspace : isSpace c = false := by
    by_contra h
    simp only [Bool.not_eq_false, isSpace, Bool.or_eq_true, decide_eq_true_eq] at h
    rcases h with (((rfl | rfl) | rfl) | rfl) | rfl <;> revert hc <;> decide
  rw [start, hspace, hc]
  rfl

theorem start_digit (hc : c.isDigit = true) : start c = ([], .number [c]) := by
  have hspace : isSpace c = false := by
    by_contra h
    simp only [Bool.not_eq_false, isSpace, Bool.or_eq_true, decide_eq_true_eq] at h
    rcases h with (((rfl | rfl) | rfl) | rfl) | rfl <;> revert hc <;> decide
  have hword : isWordStart c = false := by
    by_contra h
    simp only [Bool.not_eq_false, isWordStart, Bool.or_eq_true, decide_eq_true_eq, isAlpha_iff] at h
    have hcode := isDigit_iff.mp hc
    rcases h with (h | rfl) | h
    · omega
    · revert hc
      decide
    · omega
  rw [start, hspace, hword, hc]
  rfl

/-- Characters that the machine collects. -/
theorem lexes_collect (mode : List Char → Mode) (keeps : Char → Prop)
    (hstep : ∀ body c, keeps c → step (mode body) c = ([], mode (body ++ [c]))) (body : List Char) :
    ∀ text : List Char, (∀ c ∈ text, keeps c) → Lexes (mode body) text [] (mode (body ++ text)) := by
  intro text
  induction text generalizing body with
  | nil =>
    intro _
    rw [List.append_nil]
    exact Lexes.nil _
  | cons c text ih =>
    intro hall
    rw [List.forall_mem_cons] at hall
    have htail := ih (body ++ [c]) hall.2
    rw [List.append_assoc, List.singleton_append] at htail
    rw [Lexes, feed, hstep body c hall.1, show feed _ text = _ from htail]
    rfl

theorem lexes_word {w : List Char} (hw : IsWord w) (hc : ends c = true) :
    Lexes .start (w ++ [c]) (.word w :: (start c).1) (start c).2 := by
  rcases isWordChar_of_ends hc with ⟨hword, hquote, -⟩
  cases w with
  | nil => exact hw.elim
  | cons c' w =>
    have hfirst : Lexes .start [c'] [] (.word [c']) := by
      rw [Lexes, feed, feed, step, start_wordStart hw.1]
      rfl
    have hrest := lexes_collect .word (isWordChar · = true) (fun _ _ hk => if_pos hk) [c'] w hw.2
    have hlast : Lexes (.word (c' :: w)) [c] (.word (c' :: w) :: (start c).1) (start c).2 := by
      simp only [Lexes, feed, step, hword, decide_eq_false hquote, Bool.false_and, Bool.false_eq_true, if_false, restart,
        List.append_nil]
    exact (hfirst.append hrest).append hlast

theorem lexes_literal {s : List Char} (hs : '\'' ∉ s) (hc : ends c = true) :
    Lexes .start ('\'' :: s ++ ['\'', c]) (.literal s :: (start c).1) (start c).2 := by
  have hopen : Lexes .start ['\''] [] (.quoted '\'' []) := rfl
  have hbody := lexes_collect (.quoted '\'') (· ≠ '\'') (fun _ _ hk => if_neg hk) [] s
    fun c hc => ne_of_mem_of_not_mem hc hs
  have hclose : Lexes (.quoted '\'' s) ['\'', c] (.literal s :: (start c).1) (start c).2 := by
    simp only [Lexes, feed, step, if_true, if_neg (isWordChar_of_ends hc).2.1, restart, quotedToken, List.nil_append,
      List.append_nil]
  exact (hopen.append hbody).append hclose

theorem lexes_number {n : List Char} (hne : n ≠ []) (hn : ∀ c ∈ n, c.isDigit = true) (hc : ends c = true) :
    Lexes .start (n ++ [c]) (.number n :: (start c).1) (start c).2 := by
  rcases isWordChar_of_ends hc with ⟨hword, -, hpoint⟩
  cases n with
  | nil => exact absurd rfl hne
  | cons c' n =>
    rw [List.forall_mem_cons] at hn
    have hfirst : Lexes .start [c'] [] (.number [c']) := by
      rw [Lexes, feed, feed, step, start_digit hn.1]
      rfl
    have hrest := lexes_collect .number (·.isDigit = true)
      (fun _ _ hk => if_pos (by simp [isWordChar, hk])) [c'] n hn.2
    have hlast : Lexes (.number (c' :: n)) [c] (.number (c' :: n) :: (start c).1) (start c).2 := by
      simp only [Lexes, feed, step, hword, decide_eq_false hpoint, Bool.or_false, Bool.false_eq_true, if_false, restart,
        List.append_nil]
    exact (hfirst.append hrest).append hlast

/-! ### Where the literals come from -/

/-- The quotes that a token takes. -/
def Token.quotes : Token → Nat
  | .literal s => 2 + 2 * s.count '\''
  | _ => 0

/-- The quotes that the token under way has taken. -/
def Mode.quotes : Mode → Nat
  | .quoted q body => if q = '\'' then 1 + 2 * body.count '\'' else 0
  | .closing q body => if q = '\'' then 2 + 2 * body.count '\'' else 0
  | _ => 0

def quotes (toks : List Token) : Nat := (toks.map Token.quotes).sum

theorem quotes_append (toks toks' : List Token) : quotes (toks ++ toks') = quotes toks + quotes toks' := by
  rw [quotes, List.map_append, List.sum_append, quotes, quotes]

theorem quotes_quotedToken (q : Char) (body : List Char) :
    (quotedToken q body).quotes = if q = '\'' then 2 + 2 * body.count '\'' else 0 := by
  unfold quotedToken
  split <;> rfl

theorem quotes_start (c : Char) : quotes (start c).1 + (start c).2.quotes ≤ [c].count '\'' := by
  unfold start
  split
  · exact Nat.zero_le _
  split
  · exact Nat.zero_le _
  split
  · exact Nat.zero_le _
  split
  · simp only [quotes, Mode.quotes, List.map_nil, List.sum_nil, List.count_nil, List.count_singleton]
    by_cases hc : c = '\'' <;> simp [hc]
  split
  · exact Nat.zero_le _
  split
  · exact Nat.zero_le _
  split <;> exact Nat.zero_le _

theorem quotes_restart (t : Token) (c : Char) :
    quotes (restart t c).1 + (restart t c).2.quotes ≤ t.quotes + [c].count '\'' := by
  have hstart := quotes_start c
  simp only [restart, quotes, List.map_cons, List.sum_cons] at hstart ⊢
  omega

theorem quotes_step (m : Mode) (c : Char) : quotes (step m c).1 + (step m c).2.quotes ≤ m.quotes + [c].count '\'' := by
  cases m with
  | start =>
    exact Nat.le_trans (quotes_start c) (Nat.le_add_left ..)
  | word w =>
    rw [step]
    split
    · exact Nat.zero_le _
    · split
      · exact Nat.zero_le _
      · exact quotes_restart (.word w) c
  | number n =>
    rw [step]
    split
    · exact Nat.zero_le _
    · exact quotes_restart (.number n) c
  | quoted q body =>
    rw [step]
    split
    · next h =>
      simp only [quotes, Mode.quotes, List.map_nil, List.sum_nil, List.count_singleton, h, beq_iff_eq]
      split <;> omega
    · next hne =>
      simp only [quotes, Mode.quotes, List.map_nil, List.sum_nil, List.count_append]
      split
      · next hq =>
        have hzero : [c].count '\'' = 0 := List.count_eq_zero.mpr fun h => hne (hq ▸ (List.mem_singleton.mp h).symm)
        omega
      · exact Nat.zero_le _
  | closing q body =>
    rw [step]
    split
    · next h =>
      simp only [quotes, Mode.quotes, List.map_nil, List.sum_nil, List.count_append, List.count_singleton, h, beq_iff_eq]
      split <;> omega
    · have h := quotes_restart (quotedToken q body) c
      rwa [quotes_quotedToken] at h
  | bracketed body =>
    rw [step]
    split <;> exact Nat.zero_le _
  | blob body =>
    rw [step]
    split
    · exact Nat.zero_le _
    · split <;> exact Nat.zero_le _
  | dash =>
    rw [step]
    split
    · exact Nat.zero_le _
    · exact quotes_restart (.symbol '-') c
  | lineComment =>
    rw [step]
    split <;> exact Nat.zero_le _
  | slash =>
    rw [step]
    split
    · exact Nat.zero_le _
    · exact quotes_restart (.symbol '/') c
  | comment =>
    rw [step]
    split <;> exact Nat.zero_le _
  | star =>
    rw [step]
    split
    · exact Nat.zero_le _
    · split <;> exact Nat.zero_le _
  | illegal => exact Nat.zero_le _

theorem quotes_feed (m : Mode) (text : List Char) :
    quotes (feed m text).1 + (feed m text).2.quotes ≤ m.quotes + text.count '\'' := by
  induction text generalizing m with
  | nil =>
    rw [feed, quotes, List.map_nil, List.sum_nil, Nat.zero_add]
    exact Nat.le_add_right ..
  | cons c text ih =>
    have hstep := quotes_step m c
    have hrest := ih (step m c).2
    rw [feed, quotes_append, ← List.singleton_append, List.count_append]
    dsimp only
    omega

theorem quotes_finish {m : Mode} (h : finish m = some toks) : quotes toks ≤ m.quotes := by
  cases m with
  | closing q body =>
    cases h
    rw [quotes, List.map_singleton, List.sum_singleton, quotes_quotedToken]
    exact Nat.le_refl _
  | quoted q body => cases h
  | bracketed body => cases h
  | blob body => cases h
  | illegal => cases h
  | _ => cases h; exact Nat.le_refl _

theorem quotes_lex (h : lex text = some toks) : quotes toks ≤ text.count '\'' := by
  rcases Option.map_eq_some_iff.mp h with ⟨last, hlast, rfl⟩
  have hfeed := quotes_feed .start text
  have hfinish := quotes_finish hlast
  rw [quotes_append]
  simp only [Mode.quotes] at hfeed hfinish ⊢
  omega

theorem sublist_intercalate {α : Type} (sep : List α) {l : List α} : ∀ ls : List (List α), l ∈ ls →
    l.Sublist (sep.intercalate ls)
  | [], h => by cases h
  | [a], h => by
    rw [List.mem_singleton.mp h, List.intercalate_singleton]
  | a :: b :: ls, h => by
    rw [List.intercalate_cons_cons]
    rcases List.mem_cons.mp h with rfl | h
    · exact (List.sublist_append_left ..).trans (List.sublist_append_left ..)
    · exact (sublist_intercalate sep (b :: ls) h).trans (List.sublist_append_right ..)

/-- A statement of the text consists of tokens of the text. -/
theorem sublist_of_read {statements : List (List Token)} (h : read text = some statements) (hmem : toks ∈ statements) :
    ∃ all, lex text = some all ∧ toks.Sublist all := by
  rcases Option.map_eq_some_iff.mp h with ⟨all, hall, rfl⟩
  refine ⟨all, hall, ?_⟩
  have hsub := sublist_intercalate [.symbol ';'] (all.splitOn (.symbol ';')) (List.mem_of_mem_filter hmem)
  rwa [List.intercalate_splitOn] at hsub

theorem quotes_literals (toks : List Token) : quotes toks = ((literals toks).map fun s => 2 + 2 * s.count '\'').sum := by
  induction toks with
  | nil => rfl
  | cons t toks ih =>
    rw [quotes, List.map_cons, List.sum_cons, ← quotes, ih]
    cases t with
    | literal s => rfl
    | _ => exact Nat.zero_add _

/-- The literals of a statement take two quotes each, and two for each quote in them. -/
theorem count_of_read {statements : List (List Token)} (h : read text = some statements) (hmem : toks ∈ statements) :
    ((literals toks).map fun s => 2 + 2 * s.count '\'').sum ≤ text.count '\'' := by
  rcases sublist_of_read h hmem with ⟨all, hall, hsub⟩
  rw [← quotes_literals]
  exact Nat.le_trans ((hsub.map Token.quotes).sum_le_sum fun _ _ => Nat.zero_le _) (quotes_lex hall)

/-! ### Characters of literals -/

def Mode.body : Mode → List Char
  | .quoted _ body => body
  | .closing _ body => body
  | _ => []

theorem literals_start (c : Char) : literals (start c).1 = [] ∧ (start c).2.body = [] := by
  unfold start
  repeat' split
  all_goals exact ⟨rfl, rfl⟩

theorem literals_restart (t : Token) (c : Char) : literals (restart t c).1 = literals [t] ∧ (restart t c).2.body = [] := by
  rcases literals_start c with ⟨hlit, hbody⟩
  refine ⟨?_, hbody⟩
  rw [restart, ← List.singleton_append, literals, List.filterMap_append, ← literals, ← literals, hlit, List.append_nil]

theorem literals_quotedToken {q : Char} {body s : List Char} (h : s ∈ literals [quotedToken q body]) : s = body := by
  unfold quotedToken at h
  split at h
  · exact List.mem_singleton.mp h
  · cases h

/-- The machine puts nothing into a literal that it does not read. -/
theorem mem_step {m : Mode} {c c' : Char} (h : (∃ s ∈ literals (step m c).1, c' ∈ s) ∨ c' ∈ (step m c).2.body) :
    c' = c ∨ c' ∈ m.body := by
  have hrestart : ∀ {t : Token}, (∃ s ∈ literals (restart t c).1, c' ∈ s) ∨ c' ∈ (restart t c).2.body →
      ∃ s ∈ literals [t], c' ∈ s := fun {t} h => by
    rw [(literals_restart t c).1, (literals_restart t c).2] at h
    exact h.resolve_right List.not_mem_nil
  have hnone : ∀ {toks : List Token} {m' : Mode}, literals toks = [] → m'.body = [] →
      ¬((∃ s ∈ literals toks, c' ∈ s) ∨ c' ∈ m'.body) := fun hlit hbody h => by
    rw [hlit, hbody] at h
    simp at h
  cases m with
  | start => exact absurd h (hnone (literals_start c).1 (literals_start c).2)
  | quoted q body =>
    rw [step] at h
    split at h
    · rcases h with ⟨s, hs, -⟩ | h
      · cases hs
      · exact Or.inr h
    · rcases h with ⟨s, hs, -⟩ | h
      · cases hs
      · rcases List.mem_append.mp h with h | h
        · exact Or.inr h
        · exact Or.inl (List.mem_singleton.mp h)
  | closing q body =>
    rw [step] at h
    split at h
    · rcases h with ⟨s, hs, -⟩ | h
      · cases hs
      · rcases List.mem_append.mp h with h | h
        · exact Or.inr h
        · exact Or.inl (List.mem_singleton.mp h)
    · rcases hrestart h with ⟨s, hs, hc⟩
      exact Or.inr (literals_quotedToken hs ▸ hc)
  | word w =>
    rw [step] at h
    split at h
    · exact absurd h (hnone rfl rfl)
    · split at h
      · exact absurd h (hnone rfl rfl)
      · rcases hrestart h with ⟨s, hs, -⟩
        cases hs
  | number n =>
    rw [step] at h
    split at h
    · exact absurd h (hnone rfl rfl)
    · rcases hrestart h with ⟨s, hs, -⟩
      cases hs
  | dash =>
    rw [step] at h
    split at h
    · exact absurd h (hnone rfl rfl)
    · rcases hrestart h with ⟨s, hs, -⟩
      cases hs
  | slash =>
    rw [step] at h
    split at h
    · exact absurd h (hnone rfl rfl)
    · rcases hrestart h with ⟨s, hs, -⟩
      cases hs
  | bracketed body =>
    rw [step] at h
    split at h <;> exact absurd h (hnone rfl rfl)
  | blob body =>
    rw [step] at h
    split at h
    · exact absurd h (hnone rfl rfl)
    · split at h <;> exact absurd h (hnone rfl rfl)
  | lineComment =>
    rw [step] at h
    split at h <;> exact absurd h (hnone rfl rfl)
  | comment =>
    rw [step] at h
    split at h <;> exact absurd h (hnone rfl rfl)
  | star =>
    rw [step] at h
    split at h
    · exact absurd h (hnone rfl rfl)
    · split at h <;> exact absurd h (hnone rfl rfl)
  | illegal => exact absurd h (hnone rfl rfl)

theorem mem_feed {m : Mode} {c : Char} (h : (∃ s ∈ literals (feed m text).1, c ∈ s) ∨ c ∈ (feed m text).2.body) :
    c ∈ text ∨ c ∈ m.body := by
  induction text generalizing m with
  | nil =>
    rcases h with ⟨s, hs, -⟩ | h
    · cases hs
    · exact Or.inr h
  | cons c' text ih =>
    rw [feed, literals, List.filterMap_append] at h
    have hcases : c ∈ text ∨ (∃ s ∈ literals (step m c').1, c ∈ s) ∨ c ∈ (step m c').2.body := by
      rcases h with ⟨s, hs, hc⟩ | h
      · rcases List.mem_append.mp hs with hs | hs
        · exact Or.inr (Or.inl ⟨s, hs, hc⟩)
        · rcases ih (Or.inl ⟨s, hs, hc⟩) with h | h
          · exact Or.inl h
          · exact Or.inr (Or.inr h)
      · rcases ih (Or.inr h) with h | h
        · exact Or.inl h
        · exact Or.inr (Or.inr h)
    rcases hcases with h | h
    · exact Or.inl (List.mem_cons_of_mem _ h)
    · rcases mem_step h with rfl | h
      · exact Or.inl List.mem_cons_self
      · exact Or.inr h

theorem mem_of_lex {c : Char} {s : List Char} (h : lex text = some toks) (hs : s ∈ literals toks) (hc : c ∈ s) :
    c ∈ text := by
  rcases Option.map_eq_some_iff.mp h with ⟨last, hlast, rfl⟩
  have hmem : (∃ s ∈ literals (feed .start text).1, c ∈ s) ∨ c ∈ (feed .start text).2.body := by
    rw [literals, List.filterMap_append, List.mem_append] at hs
    rcases hs with hs | hs
    · exact Or.inl ⟨s, hs, hc⟩
    · right
      generalize (feed .start text).2 = m at hlast
      cases m with
      | closing q body =>
        cases hlast
        exact literals_quotedToken hs ▸ hc
      | _ => cases hlast <;> cases hs
  exact (mem_feed hmem).resolve_right List.not_mem_nil

theorem mem_of_read {c : Char} {s : List Char} {statements : List (List Token)} (h : read text = some statements)
    (hmem : toks ∈ statements) (hs : s ∈ literals toks) (hc : c ∈ s) : c ∈ text := by
  rcases sublist_of_read h hmem with ⟨all, hall, hsub⟩
  exact mem_of_lex hall ((hsub.filterMap _).subset hs) hc

end Lib.Sql
