import HareMQ.Lib.SqlLex

/-! # Insertions and deletions

The two kinds of statements, as they are written with all strings in single quotes, and as they are read. -/

namespace Lib.Sql

inductive Value
  | text (s : List Char)
  | int (n : Int)
deriving DecidableEq, Repr

inductive Command
  | insert (table : List Char) (values : List Value)
  /-- The rows in which each of these columns has this text. -/
  | delete (table : List Char) (conditions : List (List Char × List Char))
deriving DecidableEq, Repr

/-! ### Writing -/

namespace Value

def write : Value → List Char
  | text s => '\'' :: s ++ ['\'']
  | int n => (toString n).toList

def literal? : Value → Option (List Char)
  | text s => some s
  | int _ => none

/-- The same value with another text. -/
def map (f : List Char → List Char) : Value → Value
  | text s => text (f s)
  | int n => int n

end Value

def writeCondition (condition : List Char × List Char) : List Char :=
  condition.1 ++ '=' :: (Value.text condition.2).write

namespace Command

def write : Command → List Char
  | insert table values =>
    "insert into ".toList ++ table ++ " values(".toList ++ ", ".toList.intercalate (values.map Value.write) ++ ");".toList
  | delete table conditions =>
    "delete from ".toList ++ table ++ " where ".toList ++ " and ".toList.intercalate (conditions.map writeCondition) ++
      ";".toList

/-- The strings of the statement. -/
def literals : Command → List (List Char)
  | insert _ values => values.filterMap Value.literal?
  | delete _ conditions => conditions.map (·.2)

def map (f : List Char → List Char) : Command → Command
  | insert table values => insert table (values.map (Value.map f))
  | delete table conditions => delete table (conditions.map fun c => (c.1, f c.2))

/-- The names are words, and there is something to write between the keywords. -/
def Plain : Command → Prop
  | insert table values => IsWord table ∧ values ≠ []
  | delete table conditions => IsWord table ∧ conditions ≠ [] ∧ ∀ c ∈ conditions, IsWord c.1 ∧ c.1 ≠ "and".toList

end Command

/-! ### Tokens -/

def Value.tokens : Value → List Token
  | text s => [.literal s]
  | int n => if n < 0 then [.symbol '-', .number (Nat.toDigits 10 n.natAbs)] else [.number (Nat.toDigits 10 n.natAbs)]

def conditionTokens (condition : List Char × List Char) : List Token :=
  [.word condition.1, .symbol '=', .literal condition.2]

def Command.tokens : Command → List Token
  | insert table values =>
    [.word "insert".toList, .word "into".toList, .word table, .word "values".toList, .symbol '('] ++
      [.symbol ','].intercalate (values.map Value.tokens) ++ [.symbol ')']
  | delete table conditions =>
    [.word "delete".toList, .word "from".toList, .word table, .word "where".toList] ++
      [.word "and".toList].intercalate (conditions.map conditionTokens)

/-! ### Reading -/

def Value.parse : List Token → Option Value
  | [.literal s] => some (text s)
  | [.number n] => if n.all Char.isDigit then some (int (Nat.ofDigitChars 10 n 0)) else none
  | [.symbol '-', .number n] => if n.all Char.isDigit then some (int (-Nat.ofDigitChars 10 n 0)) else none
  | _ => none

def parseCondition : List Token → Option (List Char × List Char)
  | [.word column, .symbol '=', .literal s] => some (column, s)
  | _ => none

/-- The keywords are known in lower case. -/
def Command.parse : List Token → Option Command
  | .word verb :: .word particle :: .word table :: .word keyword :: rest =>
    if verb = "insert".toList ∧ particle = "into".toList ∧ keyword = "values".toList ∧ rest.head? = some (.symbol '(') ∧
        rest.getLast? = some (.symbol ')') then
      ((rest.tail.dropLast.splitOn (.symbol ',')).mapM Value.parse).map (insert table)
    else if verb = "delete".toList ∧ particle = "from".toList ∧ keyword = "where".toList then
      ((rest.splitOn (.word "and".toList)).mapM parseCondition).map (delete table)
    else none
  | _ => none

/-! ### What is written is read -/

/-- Before a character that ends a token the text is read as these tokens. -/
def Reads (text : List Char) (toks : List Token) : Prop :=
  ∀ c, ends c = true → Lexes .start (text ++ [c]) (toks ++ (start c).1) (start c).2

theorem Reads.nil : Reads [] [] := fun c _ => by
  rw [Lexes, List.nil_append, feed, feed, step, List.append_nil, List.nil_append]

theorem reads_word {w : List Char} (hw : IsWord w) : Reads w [.word w] := fun _ hc => lexes_word hw hc

theorem reads_literal {s : List Char} (hs : '\'' ∉ s) : Reads ('\'' :: s ++ ['\'']) [.literal s] := fun c hc => by
  rw [List.append_assoc]
  exact lexes_literal hs hc

theorem reads_number {n : List Char} (hne : n ≠ []) (hn : ∀ c ∈ n, c.isDigit = true) : Reads n [.number n] :=
  fun _ hc => lexes_number hne hn hc

variable {text text' sep : List Char} {toks toks' septoks : List Token} {c : Char}

theorem Reads.then (h : Reads text toks) (hc : ends c = true) (hsep : Lexes (start c).2 sep septoks .start)
    (h' : Reads text' toks') : Reads (text ++ c :: (sep ++ text')) (toks ++ ((start c).1 ++ septoks) ++ toks') := by
  intro c' hc'
  have hall := ((h c hc).append hsep).append (h' c' hc')
  simpa only [List.append_assoc, List.singleton_append, List.cons_append, List.nil_append] using hall

theorem reads_keyword (k : String) (hk : IsWord k.toList) : Reads k.toList [.word k.toList] := reads_word hk

theorem Reads.spaced (h : Reads text toks) (h' : Reads text' toks') : Reads (text ++ ' ' :: text') (toks ++ toks') := by
  have hspace : Lexes (start ' ').2 [] [] .start := rfl
  have hall := h.then (show ends ' ' = true from rfl) hspace h'
  rwa [start_space rfl, List.append_nil, List.append_nil] at hall

theorem Reads.intercalate {α : Type} {write : α → List Char} {tokens : α → List Token} (hc : ends c = true)
    (hsep : Lexes (start c).2 sep septoks .start) :
    ∀ {as : List α}, (∀ a ∈ as, Reads (write a) (tokens a)) →
      Reads ((c :: sep).intercalate (as.map write)) (((start c).1 ++ septoks).intercalate (as.map tokens))
  | [], _ => Reads.nil
  | [a], h => by
    rw [List.map_singleton, List.map_singleton, List.intercalate_singleton, List.intercalate_singleton]
    exact h a (List.mem_singleton_self a)
  | a :: b :: as, h => by
    rw [List.forall_mem_cons] at h
    simp only [List.map_cons, List.intercalate_cons_cons]
    have hrest := Reads.intercalate hc hsep h.2
    have hall := h.1.then hc hsep hrest
    rwa [← List.cons_append, ← List.append_assoc] at hall

theorem toList_toString (n : Int) :
    (toString n).toList = if n < 0 then '-' :: Nat.toDigits 10 n.natAbs else Nat.toDigits 10 n.natAbs := by
  cases n with
  | ofNat n =>
    rw [if_neg (by simp)]
    exact Nat.toList_repr
  | negSucc n =>
    rw [if_pos (Int.negSucc_lt_zero n)]
    have hrepr : toString (Int.negSucc n) = "-" ++ (n + 1).repr := rfl
    rw [hrepr, String.toList_append, Nat.toList_repr]
    rfl

theorem isDigit_of_mem_toDigits {n : Nat} (hc : c ∈ Nat.toDigits 10 n) : c.isDigit = true :=
  Nat.isDigit_of_mem_toDigits (by decide) (by decide) hc

/-- A minus sign is a symbol unless another one follows. -/
theorem lexes_dash {m : Mode} (hc : c ≠ '-') (h : Lexes .start (c :: text) toks m) :
    Lexes .start ('-' :: c :: text) (.symbol '-' :: toks) m := by
  have hdash : step .dash c = (.symbol '-' :: (start c).1, (start c).2) := by rw [step, if_neg hc, restart]
  have hopen : Lexes .start ['-'] [] .dash := rfl
  refine hopen.append ?_
  rw [Lexes, feed, hdash]
  cases h
  rfl

theorem reads_value {v : Value} (hv : ∀ s ∈ v.literal?, '\'' ∉ s) : Reads v.write v.tokens := by
  cases v with
  | text s => exact reads_literal (hv s rfl)
  | int n =>
    have hdigits : ∀ c ∈ Nat.toDigits 10 n.natAbs, c.isDigit = true := fun _ => isDigit_of_mem_toDigits
    have hnumber : Reads (Nat.toDigits 10 n.natAbs) [.number (Nat.toDigits 10 n.natAbs)] :=
      reads_number Nat.toDigits_ne_nil hdigits
    rw [Value.write, Value.tokens, toList_toString]
    split
    · intro c hc
      have hplain := hnumber c hc
      rcases List.exists_cons_of_ne_nil (Nat.toDigits_ne_nil (n := n.natAbs) (b := 10)) with ⟨d, ds, heq⟩
      rw [heq] at hplain hdigits ⊢
      refine lexes_dash ?_ hplain
      rintro rfl
      cases hdigits '-' List.mem_cons_self
    · exact hnumber

theorem reads_condition {condition : List Char × List Char} (hcolumn : IsWord condition.1) (hs : '\'' ∉ condition.2) :
    Reads (writeCondition condition) (conditionTokens condition) :=
  (reads_word hcolumn).then (c := '=') rfl (Lexes.nil _) (reads_literal hs)

namespace Command

/-- The text of a statement without quotes in its strings, up to the semicolon. -/
theorem lexes_write {cmd : Command} (hplain : cmd.Plain) (hquote : ∀ s ∈ cmd.literals, '\'' ∉ s) :
    Lexes .start cmd.write (cmd.tokens ++ [.symbol ';']) .start := by
  cases cmd with
  | insert table values =>
    have hvalues : ∀ v ∈ values, Reads v.write v.tokens := fun v hv => reads_value fun s hs =>
      hquote s (List.mem_filterMap.mpr ⟨v, hv, hs⟩)
    have hcomma : Lexes (start ',').2 [' '] [] .start := rfl
    have hlist := Reads.intercalate (show ends ',' = true from rfl) hcomma hvalues
    have hinto := Reads.spaced (reads_keyword "insert" (by decide)) (reads_keyword "into" (by decide))
    have hhead := (hinto.spaced (reads_word hplain.1)).spaced (reads_keyword "values" (by decide))
    have hopen := hhead.then (show ends '(' = true from rfl) (Lexes.nil _) hlist
    have hclose : Lexes .start [';'] [.symbol ';'] .start := rfl
    have hall := (hopen ')' rfl).append hclose
    have htext : (insert table values).write = "insert".toList ++ ' ' :: "into".toList ++ ' ' :: table ++
        ' ' :: "values".toList ++ '(' :: ([] ++ [',', ' '].intercalate (values.map Value.write)) ++ [')'] ++ [';'] := by
      unfold write
      simp
    rw [htext]
    exact hall
  | delete table conditions =>
    have hconditions : ∀ c ∈ conditions, Reads (writeCondition c) (conditionTokens c) := fun c hc =>
      reads_condition (hplain.2.2 c hc).1 (hquote c.2 (List.mem_map_of_mem hc))
    have hand : Lexes (start ' ').2 "and ".toList [.word "and".toList] .start := rfl
    have hlist := Reads.intercalate (show ends ' ' = true from rfl) hand hconditions
    have hfrom := Reads.spaced (reads_keyword "delete" (by decide)) (reads_keyword "from" (by decide))
    have hhead := (hfrom.spaced (reads_word hplain.1)).spaced (reads_keyword "where" (by decide))
    have hall := (hhead.spaced hlist) ';' rfl
    have htext : (delete table conditions).write = "delete".toList ++ ' ' :: "from".toList ++ ' ' :: table ++
        ' ' :: "where".toList ++ ' ' :: (' ' :: "and ".toList).intercalate (conditions.map writeCondition) ++ [';'] := by
      unfold write
      simp
    rw [htext]
    exact hall

theorem mem_intercalate {α : Type} {a : α} {sep : List α} : ∀ {ls : List (List α)}, a ∈ sep.intercalate ls →
    a ∈ sep ∨ ∃ l ∈ ls, a ∈ l
  | [], h => by cases h
  | [l], h => by
    rw [List.intercalate_singleton] at h
    exact Or.inr ⟨l, List.mem_singleton_self l, h⟩
  | l :: l' :: ls, h => by
    rw [List.intercalate_cons_cons, List.mem_append, List.mem_append] at h
    rcases h with (h | h) | h
    · exact Or.inr ⟨l, List.mem_cons_self, h⟩
    · exact Or.inl h
    · rcases mem_intercalate h with h | ⟨l', hl', h⟩
      · exact Or.inl h
      · exact Or.inr ⟨l', List.mem_cons_of_mem _ hl', h⟩

theorem mem_valueTokens {v : Value} {t : Token} (h : t ∈ v.tokens) : t ≠ .symbol ';' ∧ t ≠ .symbol ',' := by
  cases v with
  | text s =>
    rw [List.mem_singleton.mp h]
    exact ⟨nofun, nofun⟩
  | int n =>
    rw [Value.tokens] at h
    split at h
    · simp only [List.mem_cons, List.not_mem_nil, or_false] at h
      rcases h with rfl | rfl
      · exact ⟨by decide, by decide⟩
      · exact ⟨nofun, nofun⟩
    · rw [List.mem_singleton.mp h]
      exact ⟨nofun, nofun⟩

theorem notMem_tokens (cmd : Command) : .symbol ';' ∉ cmd.tokens := by
  intro h
  cases cmd with
  | insert table values =>
    rw [tokens, List.mem_append, List.mem_append] at h
    rcases h with (h | h) | h
    · simp at h
    · rcases mem_intercalate h with h | ⟨l, hl, h⟩
      · simp at h
      · rcases List.mem_map.mp hl with ⟨v, -, rfl⟩
        exact (mem_valueTokens h).1 rfl
    · simp at h
  | delete table conditions =>
    rw [tokens, List.mem_append] at h
    rcases h with h | h
    · simp at h
    · rcases mem_intercalate h with h | ⟨l, hl, h⟩
      · simp at h
      · rcases List.mem_map.mp hl with ⟨c, -, rfl⟩
        simp [conditionTokens] at h

/-- What is written without quotes in the strings is read as one statement. -/
theorem read_write {cmd : Command} (hplain : cmd.Plain) (hquote : ∀ s ∈ cmd.literals, '\'' ∉ s) :
    read cmd.write = some [cmd.tokens] := by
  have hlex := lex_of_lexes (lexes_write hplain hquote)
  have hne : cmd.tokens.isEmpty = false := by cases cmd <;> rfl
  rw [read, hlex, Option.map_some, List.splitOn_append_cons_self_of_not_mem (notMem_tokens cmd), List.splitOn_nil,
    List.filter_cons_of_pos (by rw [hne]; rfl), List.filter_cons_of_neg (by simp), List.filter_nil]

theorem literals_intercalate {α : Type} {tokens : α → List Token} {strings : α → List (List Char)} {sep : List Token}
    (hsep : Sql.literals sep = []) (h : ∀ a, Sql.literals (tokens a) = strings a) :
    ∀ as : List α, Sql.literals (sep.intercalate (as.map tokens)) = as.flatMap strings
  | [] => rfl
  | [a] => by rw [List.map_singleton, List.intercalate_singleton, h, List.flatMap_singleton]
  | a :: b :: as => by
    have hrest := literals_intercalate hsep h (b :: as)
    rw [List.flatMap_cons, ← hrest, ← h, List.map_cons, List.map_cons, List.intercalate_cons_cons, ← List.map_cons,
      Sql.literals, List.filterMap_append, List.filterMap_append, ← Sql.literals, ← Sql.literals, ← Sql.literals, hsep,
      List.append_nil]

theorem literals_tokens (cmd : Command) : Sql.literals cmd.tokens = cmd.literals := by
  cases cmd with
  | insert table values =>
    have hvalue : ∀ v : Value, Sql.literals v.tokens = v.literal?.toList := fun v => by
      cases v with
      | text s => rfl
      | int n =>
        rw [Value.tokens]
        split <;> rfl
    have hlist := literals_intercalate (show Sql.literals [.symbol ','] = [] from rfl) hvalue values
    rw [tokens, Sql.literals, List.filterMap_append, List.filterMap_append, ← Sql.literals, ← Sql.literals,
      ← Sql.literals, hlist, literals, List.filterMap_eq_flatMap_toList]
    exact List.append_nil _
  | delete table conditions =>
    have hcondition : ∀ c : List Char × List Char, Sql.literals (conditionTokens c) = [c.2] := fun _ => rfl
    have hlist := literals_intercalate (show Sql.literals [.word "and".toList] = [] from rfl) hcondition conditions
    rw [tokens, Sql.literals, List.filterMap_append, ← Sql.literals, ← Sql.literals, hlist, literals,
      List.map_eq_flatMap]
    rfl

theorem parse_value (v : Value) : Value.parse v.tokens = some v := by
  cases v with
  | text s => rfl
  | int n =>
    have hdigits : (Nat.toDigits 10 n.natAbs).all Char.isDigit = true :=
      List.all_eq_true.mpr fun _ => isDigit_of_mem_toDigits
    rw [Value.tokens]
    split
    · next hneg =>
      rw [Value.parse, if_pos hdigits, Nat.ofDigitChars_ten_toDigits]
      congr 2
      omega
    · next hpos =>
      rw [Value.parse, if_pos hdigits, Nat.ofDigitChars_ten_toDigits]
      congr 2
      omega

theorem mapM_parse {α : Type} {parse : List Token → Option α} {tokens : α → List Token} (h : ∀ a, parse (tokens a) = some a) :
    ∀ as : List α, (as.map tokens).mapM parse = some as
  | [] => rfl
  | a :: as => by
    rw [List.map_cons, List.mapM_cons, h, mapM_parse h as]
    rfl

/-- The tokens of a statement mean the statement. -/
theorem parse_tokens {cmd : Command} (hplain : cmd.Plain) : parse cmd.tokens = some cmd := by
  cases cmd with
  | insert table values =>
    have hcomma : ∀ l ∈ values.map Value.tokens, .symbol ',' ∉ l := by
      intro l hl h
      rcases List.mem_map.mp hl with ⟨v, -, rfl⟩
      exact (mem_valueTokens h).2 rfl
    have hne : values.map Value.tokens ≠ [] := by simpa using hplain.2
    have hsplit := List.splitOn_intercalate (Token.symbol ',') hcomma hne
    simp only [tokens, parse, List.cons_append, List.nil_append, List.head?_cons, List.tail_cons]
    have hlast : (.symbol '(' :: ([.symbol ','].intercalate (values.map Value.tokens) ++ [.symbol ')']) : List Token).getLast? =
        some (.symbol ')') := by
      rw [← List.cons_append, List.getLast?_concat]
    rw [if_pos ⟨trivial, trivial, trivial, trivial, hlast⟩, List.dropLast_concat, hsplit, mapM_parse parse_value, Option.map_some]
  | delete table conditions =>
    have hand : ∀ l ∈ conditions.map conditionTokens, .word "and".toList ∉ l := by
      intro l hl h
      rcases List.mem_map.mp hl with ⟨c, hc, rfl⟩
      have hname : c.1 = "and".toList := by simpa [conditionTokens, eq_comm] using h
      exact (hplain.2.2 c hc).2 hname
    have hne : conditions.map conditionTokens ≠ [] := by simpa using hplain.2.1
    have hsplit := List.splitOn_intercalate (Token.word "and".toList) hand hne
    simp only [tokens, parse, List.cons_append, List.nil_append]
    have hparse : ∀ c : List Char × List Char, parseCondition (conditionTokens c) = some c := fun _ => rfl
    rw [if_neg (by simp), if_pos ⟨trivial, trivial, trivial⟩, hsplit, mapM_parse hparse, Option.map_some]

end Command
end Lib.Sql
