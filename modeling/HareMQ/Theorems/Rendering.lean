import HareMQ.Statements
import Mathlib.Data.List.TakeWhile

/-! # What the rendered statements mean

A statement means the operation that stands for it elsewhere if no string that it is given has a quote or a null byte
and the strings leave the buffer room. In every other case the text is another statement, or it does not fit. -/

namespace HareMQ
open Lib Sql

/-! ### Templates cut at their conversions -/

namespace SprintfArg

/-- What a conversion writes. -/
def text : SprintfArg → String
  | str s => String.ofList (cStr s)
  | int n => toString n

/-- What it is meant to write. -/
def given : SprintfArg → String
  | str s => s
  | int n => toString n

/-- The conversion that takes the argument. -/
def conversion : SprintfArg → String
  | str _ => "%s"
  | int _ => "%d"

end SprintfArg

/-- Texts with an argument after each of them but the last. -/
def fill (f : SprintfArg → String) : List (String × SprintfArg) → String → String
  | [], rest => rest
  | (plain, arg) :: pieces, rest => plain ++ (f arg ++ fill f pieces rest)

theorem sprintf_plain {plain format : List Char} {args : List SprintfArg} (h : '%' ∉ plain) :
    sprintf (plain ++ format) args = plain ++ sprintf format args := by
  induction plain with
  | nil => rfl
  | cons c plain ih =>
    rw [List.mem_cons, not_or] at h
    rw [List.cons_append, sprintf, ih h.2, List.cons_append]
    all_goals
      intro _ _ _ _ hc
      exact (h.1 hc.symm).elim

theorem sprintf_fill {pieces : List (String × SprintfArg)} {rest : String} (h : ∀ p ∈ pieces, '%' ∉ p.1.toList)
    (hrest : '%' ∉ rest.toList) :
    sprintf (fill SprintfArg.conversion pieces rest).toList (pieces.map (·.2)) =
      (fill SprintfArg.text pieces rest).toList := by
  induction pieces with
  | nil =>
    have hplain : sprintf (rest.toList ++ []) [] = rest.toList ++ sprintf [] [] := sprintf_plain hrest
    rw [List.append_nil, sprintf, List.append_nil] at hplain
    exact hplain
  | cons p pieces ih =>
    rw [List.forall_mem_cons] at h
    rcases p with ⟨plain, arg⟩
    rw [fill, fill, String.toList_append, String.toList_append, String.toList_append, String.toList_append,
      sprintf_plain h.1, ← ih h.2, List.map_cons]
    cases arg with
    | str s =>
      have hconversion : "%s".toList = ['%', 's'] := by decide
      rw [SprintfArg.conversion, hconversion, List.cons_append, List.cons_append, List.nil_append, sprintf,
        SprintfArg.text, String.toList_ofList]
    | int n =>
      have hconversion : "%d".toList = ['%', 'd'] := by decide
      rw [SprintfArg.conversion, hconversion, List.cons_append, List.cons_append, List.nil_append, sprintf,
        SprintfArg.text]

/-- A quantity of texts that adds up. -/
theorem measure_fill {μ : String → Nat} (hμ : ∀ a b, μ (a ++ b) = μ a + μ b) (f : SprintfArg → String)
    (pieces : List (String × SprintfArg)) (rest : String) :
    μ (fill f pieces rest) = (pieces.map fun p => μ p.1).sum + (pieces.map fun p => μ (f p.2)).sum + μ rest := by
  induction pieces with
  | nil => rw [fill, List.map_nil, List.map_nil, List.sum_nil, Nat.zero_add, Nat.zero_add]
  | cons p pieces ih =>
    rw [fill, hμ, hμ, ih, List.map_cons, List.map_cons, List.sum_cons, List.sum_cons]
    omega

namespace Statement

def pieces : Statement → List (String × SprintfArg)
  | insertExchange row =>
    [("insert into exchange_table values('", .str row.name), ("', ", .int row.type.toInt),
      (", ", .int (sqlFlag row.durable)), (", ", .int (sqlFlag row.autoDelete)), (", '", .str row.args)]
  | deleteExchange name => [("delete from exchange_table where name='", .str name)]
  | insertQueue row =>
    [("insert into queue_table values('", .str row.name), ("', ", .int (sqlFlag row.durable)),
      (", ", .int (sqlFlag row.exclusive)), (", ", .int (sqlFlag row.autoDelete)), (", '", .str row.args)]
  | deleteQueue name => [("delete from queue_table where name='", .str name)]
  | insertBinding row =>
    [("insert into binding_table values('", .str row.exchangeName), ("', '", .str row.msgQueueName),
      ("', '", .str row.bindingKey)]
  | deleteBinding ename qname =>
    [("delete from binding_table where exchange_name='", .str ename), ("' and msg_queue_name='", .str qname)]
  | deleteBindingExchange ename => [("delete from binding_table where exchange_name='", .str ename)]
  | deleteBindingQueue qname => [("delete from binding_table where msg_queue_name='", .str qname)]

def rest : Statement → String
  | insertExchange _ | insertQueue _ | insertBinding _ => "');"
  | deleteExchange _ | deleteQueue _ | deleteBinding .. | deleteBindingExchange _ | deleteBindingQueue _ => "';"

theorem args_eq (st : Statement) : st.args = st.pieces.map (·.2) := by cases st <;> rfl

theorem template_eq (st : Statement) : st.template = fill SprintfArg.conversion st.pieces st.rest := by
  cases st <;> simp only [template, pieces, rest, fill, SprintfArg.conversion] <;> decide +kernel

theorem sql_eq (st : Statement) : st.sql = (fill SprintfArg.text st.pieces st.rest).toList := by
  have hplain : ∀ p ∈ st.pieces, '%' ∉ p.1.toList := by
    cases st <;> simp only [pieces, List.forall_mem_cons] <;> decide +kernel
  have hrest : '%' ∉ st.rest.toList := by cases st <;> dsimp only [rest] <;> decide +kernel
  rw [sql, template_eq, args_eq, sprintf_fill hplain hrest]

/-- The text has what the template has without its conversions, and what the arguments have. -/
theorem measure_sql (μ : String → Nat) (hμ : ∀ a b, μ (a ++ b) = μ a + μ b) (st : Statement) :
    μ (String.ofList st.sql) + (st.args.map fun a => μ a.conversion).sum =
      μ st.template + (st.args.map fun a => μ a.text).sum := by
  rw [sql_eq, String.ofList_toList, template_eq, args_eq, measure_fill hμ, measure_fill hμ, List.map_map, List.map_map]
  simp only [Function.comp_def]
  omega

theorem count_sql (c : Char) (st : Statement) :
    st.sql.count c + (st.args.map fun a => a.conversion.toList.count c).sum =
      st.template.toList.count c + (st.args.map fun a => a.text.toList.count c).sum := by
  have hμ : ∀ a b : String, (a ++ b).toList.count c = a.toList.count c + b.toList.count c := fun a b => by
    rw [String.toList_append, List.count_append]
  have hsql := measure_sql (fun s => s.toList.count c) hμ st
  rwa [String.toList_ofList] at hsql

/-! ### The meaning of the text -/

/-- The statement that the text is meant to be. -/
def command : Statement → Command
  | insertExchange row =>
    .insert "exchange_table".toList [.text row.name.toList, .int row.type.toInt, .int (sqlFlag row.durable),
      .int (sqlFlag row.autoDelete), .text row.args.toList]
  | deleteExchange name => .delete "exchange_table".toList [("name".toList, name.toList)]
  | insertQueue row =>
    .insert "queue_table".toList [.text row.name.toList, .int (sqlFlag row.durable), .int (sqlFlag row.exclusive),
      .int (sqlFlag row.autoDelete), .text row.args.toList]
  | deleteQueue name => .delete "queue_table".toList [("name".toList, name.toList)]
  | insertBinding row =>
    .insert "binding_table".toList [.text row.exchangeName.toList, .text row.msgQueueName.toList, .text row.bindingKey.toList]
  | deleteBinding ename qname =>
    .delete "binding_table".toList [("exchange_name".toList, ename.toList), ("msg_queue_name".toList, qname.toList)]
  | deleteBindingExchange ename => .delete "binding_table".toList [("exchange_name".toList, ename.toList)]
  | deleteBindingQueue qname => .delete "binding_table".toList [("msg_queue_name".toList, qname.toList)]

theorem command_plain (st : Statement) : st.command.Plain := by
  cases st <;> simp [command, Command.Plain] <;> decide +kernel

theorem command_literals (st : Statement) : st.command.literals = st.strings.map String.toList := by
  cases st <;> rfl

theorem command_write (st : Statement) : (fill SprintfArg.given st.pieces st.rest).toList = st.command.write := by
  cases st
  all_goals
    unfold command Command.write
    simp [fill, pieces, rest, SprintfArg.given, Value.write, writeCondition]

end Statement

theorem ofInt_signed (value : UInt32) :
    UInt32.ofInt (if value.toNat < 2 ^ 31 then value.toNat else value.toNat - 2 ^ 32) = value := by
  have hlt := value.toNat_lt
  apply UInt32.toNat_inj.mp
  rw [UInt32.ofInt, UInt32.toNat_ofNat']
  split <;> omega

/-- The column gives the type back. -/
theorem ExchangeType.ofInt_toInt (t : ExchangeType) : ExchangeType.ofInt t.toInt = t := by
  cases t with
  | unrecognized value h =>
    have hvalue := ofInt_signed value
    rw [ofInt, toInt]
    simp only [hvalue, h, dite_true]
  | _ => rfl

theorem sqlFlag_ne_zero (b : Bool) : (sqlFlag b != 0) = b := by cases b <;> rfl

namespace Statement

theorem command_apply (st : Statement) : Db.command st.command = st.apply := by
  cases st <;> simp [command, apply, Db.command, ExchangeType.ofInt_toInt, sqlFlag_ne_zero]

/-! ### When it is met -/

/-- The rows that the statement is about. -/
def namesExchange : Statement → ExchangeRow → Bool
  | insertExchange row, r => r.name = row.name
  | deleteExchange name, r => r.name = name
  | _, _ => false

def namesQueue : Statement → QueueRow → Bool
  | insertQueue row, r => r.name = row.name
  | deleteQueue name, r => r.name = name
  | _, _ => false

def namesBinding : Statement → BindingRow → Bool
  | insertBinding row, r => r.exchangeName = row.exchangeName && r.msgQueueName = row.msgQueueName
  | deleteBinding ename qname, r => r.exchangeName = ename && r.msgQueueName = qname
  | deleteBindingExchange ename, r => r.exchangeName = ename
  | deleteBindingQueue qname, r => r.msgQueueName = qname
  | _, _ => false

/-- The other rows of each table, in their order. -/
def others (st : Statement) (db : Db) :
    Option (List ExchangeRow) × Option (List QueueRow) × Option (List BindingRow) :=
  (db.exchangeTable.map (·.filter (!st.namesExchange ·)), db.queueTable.map (·.filter (!st.namesQueue ·)),
    db.bindingTable.map (·.filter (!st.namesBinding ·)))

/-- The text fits the buffer with its terminator, it is one statement with the given strings, and it leaves the rows of
other names as they are. -/
structure Faithful (st : Statement) : Prop where
  fits : st.size + 1 ≤ bufferSize
  single : ∃ toks, read st.sql = some [toks] ∧ literals toks = st.strings.map String.toList
  spares : ∀ db db' : Db, db.execText st.sql = some db' → st.others db' = st.others db

/-- No string has a quote or a null byte, and what the template has without its conversions leaves them room. -/
structure Clean (st : Statement) : Prop where
  quotes : ∀ s ∈ st.strings, '\'' ∉ s.toList
  nulls : ∀ s ∈ st.strings, '\x00' ∉ s.toList
  room : st.template.utf8ByteSize + (st.args.map fun a => a.given.utf8ByteSize).sum < bufferSize + 2 * st.args.length

instance (st : Statement) : Decidable st.Clean :=
  decidable_of_iff ((∀ s ∈ st.strings, '\'' ∉ s.toList) ∧ (∀ s ∈ st.strings, '\x00' ∉ s.toList) ∧
      st.template.utf8ByteSize + (st.args.map fun a => a.given.utf8ByteSize).sum < bufferSize + 2 * st.args.length)
    ⟨fun h => ⟨h.1, h.2.1, h.2.2⟩, fun h => ⟨h.quotes, h.nulls, h.room⟩⟩

theorem text_eq_given {st : Statement} (hnulls : ∀ s ∈ st.strings, '\x00' ∉ s.toList) :
    ∀ a ∈ st.args, a.text = a.given := by
  intro a ha
  cases a with
  | int n => rfl
  | str s =>
    have hs : '\x00' ∉ s.toList := hnulls s (List.mem_filterMap.mpr ⟨.str s, ha, rfl⟩)
    have hcut : cStr s = s.toList := List.takeWhile_eq_self_iff.mpr fun c hc => by
      rw [decide_eq_true_eq]
      rintro rfl
      exact hs hc
    rw [SprintfArg.text, SprintfArg.given, hcut, String.ofList_toList]

theorem fill_congr {f g : SprintfArg → String} {rest : String} :
    ∀ {pieces : List (String × SprintfArg)}, (∀ p ∈ pieces, f p.2 = g p.2) → fill f pieces rest = fill g pieces rest
  | [], _ => rfl
  | (plain, arg) :: pieces, h => by
    rw [List.forall_mem_cons] at h
    rw [fill, fill, h.1, fill_congr h.2]

theorem sql_eq_write {st : Statement} (hnulls : ∀ s ∈ st.strings, '\x00' ∉ s.toList) : st.sql = st.command.write := by
  have htext := text_eq_given hnulls
  rw [args_eq, List.forall_mem_map] at htext
  rw [sql_eq, fill_congr htext, command_write]

theorem size_eq {st : Statement} (hnulls : ∀ s ∈ st.strings, '\x00' ∉ s.toList) :
    st.size + 2 * st.args.length = st.template.utf8ByteSize + (st.args.map fun a => a.given.utf8ByteSize).sum := by
  have hsize := measure_sql String.utf8ByteSize (fun _ _ => String.utf8ByteSize_append) st
  have htwo : ∀ a : SprintfArg, a.conversion.utf8ByteSize = 2 := fun a => by cases a <;> rfl
  have hgiven : (st.args.map fun a => a.text.utf8ByteSize) = st.args.map fun a => a.given.utf8ByteSize :=
    List.map_congr_left fun a ha => by rw [text_eq_given hnulls a ha]
  simp only [htwo, List.map_const', List.sum_replicate_nat, hgiven] at hsize
  rw [size]
  omega

theorem read_sql {st : Statement} (hquotes : ∀ s ∈ st.strings, '\'' ∉ s.toList)
    (hnulls : ∀ s ∈ st.strings, '\x00' ∉ s.toList) : read st.sql = some [st.command.tokens] := by
  rw [sql_eq_write hnulls]
  refine Command.read_write st.command_plain ?_
  rw [command_literals, List.forall_mem_map]
  exact hquotes

/-- The text of a clean statement is the operation that stands for it elsewhere. -/
theorem Clean.execText {st : Statement} (hclean : st.Clean) (db : Db) : db.execText st.sql = st.apply db := by
  rw [Db.execText, read_sql hclean.quotes hclean.nulls, Option.bind_some, List.foldlM_cons,
    Command.parse_tokens st.command_plain, Option.bind_some, command_apply]
  cases st.apply db <;> rfl

theorem apply_others (st : Statement) {db db' : Db} (h : st.apply db = some db') : st.others db' = st.others db := by
  cases st with
  | insertExchange row =>
    rw [apply, Db.insertExchange] at h
    split at h
    · cases h
    · next rows hrows =>
      simp only [Option.ite_none_left_eq_some, Option.some.injEq] at h
      rcases h with ⟨-, rfl⟩
      simp [others, namesExchange, namesQueue, namesBinding, hrows, List.filter_append]
  | insertQueue row =>
    rw [apply, Db.insertQueue] at h
    split at h
    · cases h
    · next rows hrows =>
      simp only [Option.ite_none_left_eq_some, Option.some.injEq] at h
      rcases h with ⟨-, rfl⟩
      simp [others, namesExchange, namesQueue, namesBinding, hrows, List.filter_append]
  | insertBinding row =>
    rw [apply, Db.insertBinding] at h
    split at h
    · cases h
    · next rows hrows =>
      cases h
      simp [others, namesExchange, namesQueue, namesBinding, hrows, List.filter_append]
  | _ =>
    rcases Option.map_eq_some_iff.mp h with ⟨rows, hrows, rfl⟩
    simp [others, namesExchange, namesQueue, namesBinding, hrows, List.filter_filter]

/-- The statement that the other modules carry out is what a clean text means. -/
theorem Clean.exec {st : Statement} (hclean : st.Clean) (db : Db) : db.exec (Db.execText st.sql) = db.exec st.apply :=
  congrArg db.exec (funext hclean.execText)

theorem Clean.faithful {st : Statement} (hclean : st.Clean) : st.Faithful where
  fits := by
    have hsize := size_eq hclean.nulls
    have hroom := hclean.room
    omega
  single := by
    refine ⟨_, read_sql hclean.quotes hclean.nulls, ?_⟩
    rw [Command.literals_tokens, command_literals]
  spares := fun db db' h => st.apply_others (hclean.execText db ▸ h)

end Statement

theorem mem_toString {n : Int} {c : Char} (hc : c ∈ (toString n).toList) : c = '-' ∨ c.isDigit = true := by
  rw [toList_toString] at hc
  split at hc
  · exact (List.mem_cons.mp hc).imp_right isDigit_of_mem_toDigits
  · exact Or.inr (isDigit_of_mem_toDigits hc)

/-- No conversion writes a null byte. -/
theorem SprintfArg.not_mem_text (a : SprintfArg) : '\x00' ∉ a.text.toList := by
  cases a with
  | str s =>
    rw [text, String.toList_ofList]
    intro hc
    simpa using List.mem_takeWhile_imp hc
  | int n =>
    intro hc
    rcases mem_toString hc with h | h <;> cases h

/-- All quotes that the conversions write are in the strings. -/
theorem count_quotes_text (args : List SprintfArg) :
    (args.map fun a => a.text.toList.count '\'').sum ≤
      ((args.filterMap fun
        | .str s => some s
        | .int _ => none).map fun s => s.toList.count '\'').sum := by
  induction args with
  | nil => rfl
  | cons a args ih =>
    cases a with
    | str s =>
      have hcut : (cStr s).count '\'' ≤ s.toList.count '\'' := (List.takeWhile_sublist _).count_le _
      rw [List.map_cons, List.sum_cons, SprintfArg.text, String.toList_ofList]
      exact Nat.add_le_add hcut ih
    | int n =>
      have hzero : (toString n).toList.count '\'' = 0 := List.count_eq_zero.mpr fun hc => by
        rcases mem_toString hc with h | h <;> cases h
      rw [List.map_cons, List.sum_cons, SprintfArg.text, hzero, Nat.zero_add]
      exact ih

namespace Statement

theorem template_nulls (st : Statement) : st.template.toList.count '\x00' = 0 := by
  cases st <;> dsimp only [template] <;> decide +kernel

/-- Each string stands in quotes. -/
theorem template_quotes (st : Statement) : st.template.toList.count '\'' = 2 * st.strings.length := by
  cases st <;> dsimp only [template, strings, args, List.filterMap, List.length] <;> decide +kernel

theorem Faithful.nulls {st : Statement} (h : st.Faithful) : ∀ s ∈ st.strings, '\x00' ∉ s.toList := by
  intro s hs hc
  rcases h.single with ⟨toks, hread, hliterals⟩
  have hmem : '\x00' ∈ st.sql :=
    mem_of_read hread (List.mem_singleton_self toks) (hliterals ▸ List.mem_map_of_mem hs) hc
  have hcount := count_sql '\x00' st
  have htext : ∀ a : SprintfArg, a.text.toList.count '\x00' = 0 := fun a => List.count_eq_zero.mpr a.not_mem_text
  simp only [htext, template_nulls, List.map_const', List.sum_replicate_nat, Nat.mul_zero] at hcount
  exact List.count_eq_zero.mp (Nat.eq_zero_of_add_eq_zero_right hcount) hmem

theorem sum_needed (ns : List Nat) : (ns.map fun n => 2 + 2 * n).sum = 2 * ns.length + 2 * ns.sum := by
  induction ns with
  | nil => rfl
  | cons n ns ih =>
    rw [List.map_cons, List.sum_cons, ih, List.sum_cons, List.length_cons]
    omega

/-- A string with `n` quotes takes `2 n + 2` quotes of the text, and the text has `n + 2` for it. -/
theorem Faithful.quotes {st : Statement} (h : st.Faithful) : ∀ s ∈ st.strings, '\'' ∉ s.toList := by
  rcases h.single with ⟨toks, hread, hliterals⟩
  have hneed := count_of_read hread (List.mem_singleton_self toks)
  have hcount := count_sql '\'' st
  have hconversion : ∀ a : SprintfArg, a.conversion.toList.count '\'' = 0 := fun a => by
    cases a <;> dsimp only [SprintfArg.conversion] <;> decide +kernel
  have htext : (st.args.map fun a => a.text.toList.count '\'').sum ≤ (st.strings.map fun s => s.toList.count '\'').sum :=
    count_quotes_text st.args
  rw [hliterals, List.map_map] at hneed
  simp only [hconversion, List.map_const', List.sum_replicate_nat, Nat.mul_zero, template_quotes] at hcount
  have hsum := sum_needed (st.strings.map fun s => s.toList.count '\'')
  rw [List.map_map, List.length_map] at hsum
  simp only [Function.comp_def] at hneed hsum
  have hzero : (st.strings.map fun s => s.toList.count '\'').sum = 0 := by omega
  rw [List.sum_eq_zero_iff_forall_eq_nat] at hzero
  exact fun s hs => List.count_eq_zero.mp (hzero _ (List.mem_map_of_mem hs))

/-- The mappers carry out the operations of these statements. -/
theorem mappers_exec (db : Db) :
    (∀ e : Exchange, ExchangeMapper.insert e db = db.exec (insertExchange
      { name := e.name, type := e.type, durable := e.durable, autoDelete := e.autoDelete, args := e.getArgs }).apply) ∧
    (∀ name, ExchangeMapper.remove name db = (db.exec (deleteExchange name).apply).2) ∧
    (∀ q : MsgQueue, MsgQueueMapper.insert q db = db.exec (insertQueue
      { name := q.name, durable := q.durable, exclusive := q.exclusive, autoDelete := q.autoDelete,
        args := q.getArgs }).apply) ∧
    (∀ name, MsgQueueMapper.remove name db = (db.exec (deleteQueue name).apply).2) ∧
    (∀ b : Binding, BindingMapper.insert b db = db.exec (insertBinding
      { exchangeName := b.exchangeName, msgQueueName := b.msgQueueName, bindingKey := b.bindingKey }).apply) ∧
    (∀ ename qname, BindingMapper.remove ename qname db = (db.exec (deleteBinding ename qname).apply).2) ∧
    (∀ ename, BindingMapper.removeExchange ename db = (db.exec (deleteBindingExchange ename).apply).2) ∧
    ∀ qname, BindingMapper.removeQueue qname db = (db.exec (deleteBindingQueue qname).apply).2 :=
  ⟨fun _ => rfl, fun _ => rfl, fun _ => rfl, fun _ => rfl, fun _ => rfl, fun _ _ => rfl, fun _ => rfl, fun _ => rfl⟩

/-- A statement means what the operation for it says if and only if it is clean. -/
theorem faithful_iff (st : Statement) : st.Faithful ↔ st.Clean := by
  refine ⟨fun h => ⟨h.quotes, h.nulls, ?_⟩, Clean.faithful⟩
  have hsize := size_eq h.nulls
  have hfits := h.fits
  omega

/-- The name of one queue that ends the literal and the statement, and removes another queue. -/
theorem deleteQueue_unfaithful :
    ¬(deleteQueue "x'; delete from queue_table where name='y").Faithful := by
  intro h
  let y : QueueRow := { name := "y", durable := true, exclusive := false, autoDelete := false, args := "" }
  have hexec : (({ queueTable := some [y] } : Db).execText
      (deleteQueue "x'; delete from queue_table where name='y").sql).map (·.queueTable) = some (some []) := by
    decide +kernel
  rcases Option.map_eq_some_iff.mp hexec with ⟨db, hdb, hqueues⟩
  have hothers := h.spares _ _ hdb
  have hrows := congrArg (·.2.1) hothers
  simp [others, hqueues, namesQueue, y] at hrows

end Statement
end HareMQ
