import HareMQ.Command
import HareMQ.ProtocolWire
import HareMQ.Theorems.Args

/-! # What a configuration file does

Each method that sets up the server can be written as a line, which makes the client call it again. A file of such lines
makes the calls in their order, until one is refused. -/

namespace HareMQ
open Lib

/-! ### Words and lines -/

theorem splitTokens_plain {isSep : Char → Bool} {part : List Char} (hpart : ∀ c ∈ part, isSep c = false) (inRun : Bool) :
    splitTokens isSep inRun part = [part] := by
  induction part generalizing inRun with
  | nil => rfl
  | cons c part ih =>
    rw [List.forall_mem_cons] at hpart
    rw [splitTokens, hpart.1, if_neg Bool.false_ne_true, ih hpart.2, List.modifyHead_cons]

/-- Only the last part may be empty: empty parts between separators are lost. -/
theorem splitTokens_intercalate {isSep : Char → Bool} {sep : Char} (hsep : isSep sep = true) {parts : List (List Char)} :
    parts ≠ [] → (∀ part ∈ parts, ∀ c ∈ part, isSep c = false) → (∀ part ∈ parts.dropLast, part ≠ []) → ∀ inRun,
      splitTokens isSep inRun ([sep].intercalate parts) = parts := by
  induction parts with
  | nil => exact fun h => absurd rfl h
  | cons part parts ih =>
    intro _ hplain hne inRun
    rw [List.forall_mem_cons] at hplain
    cases parts with
    | nil =>
      rw [List.intercalate_singleton]
      exact splitTokens_plain hplain.1 inRun
    | cons next parts =>
      rw [List.dropLast_cons_cons, List.forall_mem_cons] at hne
      rw [List.intercalate_cons_cons, List.append_assoc, List.singleton_append,
        Args.splitTokens_part hsep _ hne.1 hplain.1 inRun, ih (List.cons_ne_nil _ _) hplain.2 hne.2]

theorem split_intercalate {sep : String} {c : Char} (hsep : sep.toList = [c]) {words : List String} (hwords : words ≠ [])
    (hplain : ∀ w ∈ words, c ∉ w.toList) (hne : ∀ w ∈ words.dropLast, w ≠ "") : split (sep.intercalate words) sep = words := by
  have hchar : ∀ x, sep.toList.contains x = decide (x = c) := by
    intro x
    rw [hsep, List.contains_cons, List.contains_nil, Bool.or_false, Bool.eq_iff_iff, beq_iff_eq, decide_eq_true_eq]
  have hparts : splitTokens (fun x => sep.toList.contains x) false ([c].intercalate (words.map String.toList)) =
      words.map String.toList := by
    refine splitTokens_intercalate ?_ (fun hnil => hwords (List.map_eq_nil_iff.mp hnil)) ?_ ?_ false
    · rw [hchar, decide_eq_true_eq]
    · intro part hpart x hx
      rcases List.mem_map.mp hpart with ⟨w, hw, rfl⟩
      rw [hchar, decide_eq_false_iff_not]
      rintro rfl
      exact hplain w hw hx
    · rw [← List.map_dropLast]
      intro part hpart
      rcases List.mem_map.mp hpart with ⟨w, hw, rfl⟩
      exact fun hnil => hne w hw (String.toList_eq_nil_iff.mp hnil)
  have htext : (sep.intercalate words).toList = [c].intercalate (words.map String.toList) := by
    rw [String.toList_intercalate, hsep]
  rw [split, htext, hparts, List.map_map]
  simp

/-! ### Arguments -/

namespace Args

/-- The arguments of a command. -/
def word (args : UMap String String) : String := "&".intercalate (args.entries.reverse.map fun e => e.1 ++ "=" ++ e.2)

theorem foldl_emplace_eq {entries : List (Sigma fun _ : String => String)} (hnodup : entries.NodupKeys) :
    ∀ {m : UMap String String}, (∀ e ∈ entries, e.1 ∉ m) →
      entries.foldl (fun m e => m.emplace e.1 e.2) m = refilled entries m := by
  induction entries with
  | nil =>
    intro m _
    rfl
  | cons e entries ih =>
    intro m hfree
    rw [List.nodupKeys_cons] at hnodup
    have hnext : ∀ e' ∈ entries, e'.1 ∉ m.insert e.1 e.2 := by
      intro e' he' hmem
      rcases (AList.mem_insert _).mp hmem with heq | hmem
      · exact hnodup.1 (heq ▸ List.mem_keys_of_mem he')
      · exact hfree e' (List.mem_cons_of_mem _ he') hmem
    rw [List.foldl_cons, UMap.emplace_of_notMem (hfree e List.mem_cons_self), ih hnodup.2 hnext]
    rfl

theorem foldl_insertArg {entries : List (Sigma fun _ : String => String)} (hplain : ∀ e ∈ entries, '=' ∉ e.1.toList) :
    ∀ m, (entries.map fun e => e.1 ++ "=" ++ e.2).foldl insertArg m = entries.foldl (fun m e => m.emplace e.1 e.2) m := by
  induction entries with
  | nil => exact fun _ => rfl
  | cons e entries ih =>
    intro m
    rw [List.forall_mem_cons] at hplain
    have htext : e.1 ++ "=" ++ e.2 = String.ofList (argText e) := by
      rw [argText]
      simp [String.append_assoc]
    rw [List.map_cons, List.foldl_cons, List.foldl_cons, htext, insertArg_argText m hplain.1, ih hplain.2]

/-- Plain arguments are read back as they were. -/
theorem parse_word {args : UMap String String} (hplain : Plain args) : parse (word args) = some args := by
  have hentries : args.entries.reverse.foldl (fun m e => m.emplace e.1 e.2) ∅ = args := by
    have hnodup : args.entries.reverse.NodupKeys := (List.perm_nodupKeys (List.reverse_perm _)).mpr args.nodupKeys
    rw [foldl_emplace_eq hnodup fun e _ => AList.notMem_empty e.1]
    refine AList.ext ?_
    rw [entries_refilled hnodup fun e _ => AList.notMem_empty e.1, List.reverse_reverse]
    exact List.append_nil _
  have hmem : ∀ e ∈ args.entries.reverse, e ∈ args.entries := fun e he => List.mem_reverse.mp he
  rw [word]
  generalize args.entries.reverse = entries at hentries hmem
  cases entries with
  | nil =>
    rw [← hentries]
    rfl
  | cons e entries =>
    have hwords : ∀ w ∈ (e :: entries).map fun e => e.1 ++ "=" ++ e.2, '&' ∉ w.toList ∧ '=' ∈ w.toList := by
      intro w hw
      rcases List.mem_map.mp hw with ⟨e', he', rfl⟩
      rcases hplain e' (hmem e' he') with ⟨hk, -, hv⟩
      simp [hk, hv]
    have hne : ∀ w ∈ (e :: entries).map fun e => e.1 ++ "=" ++ e.2, w ≠ "" := by
      rintro w hw rfl
      exact absurd (hwords "" hw).2 List.not_mem_nil
    have hamp : "&".toList = ['&'] := rfl
    have hsplit := split_intercalate hamp (fun hnil => List.cons_ne_nil e entries (List.map_eq_nil_iff.mp hnil))
      (fun w hw => (hwords w hw).1) fun w hw => hne w ((List.dropLast_sublist _).subset hw)
    have htext : "&".intercalate ((e :: entries).map fun e => e.1 ++ "=" ++ e.2) ≠ "" := by
      intro hempty
      rw [hempty] at hsplit
      have hone : (e :: entries).map (fun e => e.1 ++ "=" ++ e.2) = [""] := hsplit.symm
      exact hne "" (hone ▸ List.mem_singleton_self _) rfl
    rw [parse, if_neg htext, hsplit]
    dsimp only
    rw [foldl_insertArg fun e' he' => (hplain e' (hmem e' he')).2.1, hentries]
    refine if_pos (List.all_eq_true.mpr fun w hw => ?_)
    exact List.contains_iff_mem.mpr (hwords w hw).2

end Args

/-! ### Methods as lines -/

def ExchangeType.word : ExchangeType → Option String
  | .fanout => some "FANOUT"
  | .direct => some "DIRECT"
  | .topic => some "TOPIC"
  | _ => none

def flagWord (flag : Bool) : String := if flag then "true" else "false"

theorem ExchangeType.ofWord_word {type : ExchangeType} {w : String} (h : type.word = some w) : ofWord w = some type := by
  cases type <;> cases h <;> rfl

theorem flagOfWord_flagWord (flag : Bool) : flagOfWord (flagWord flag) = some flag := by cases flag <;> rfl

namespace ClientCall

/-- The word of the arguments. It is left out when there are none. -/
def argWords (args : UMap String String) : Option (List String) :=
  if Args.Plain args then some (if args.entries = [] then [] else [Args.word args]) else none

/-- The words of a command that calls the method. `none`: there is no such command, or it reads further input. -/
def words : ClientCall → Option (List String)
  | .declareExchange name type durable autoDelete args =>
    type.word.bind fun w => (argWords args).map fun ws =>
      "declare_exchange" :: name :: w :: flagWord durable :: flagWord autoDelete :: ws
  | .deleteExchange name => some ["delete_exchange", name]
  | .declareQueue qname qdurable qexclusive qautoDelete qargs =>
    (argWords qargs).map fun ws =>
      "declare_queue" :: qname :: flagWord qdurable :: flagWord qexclusive :: flagWord qautoDelete :: ws
  | .deleteQueue name => some ["delete_queue", name]
  | .bind ename qname key => some ["bind", ename, qname, key]
  | .unbind ename qname => some ["unbind", ename, qname]
  | .basicQuery => some ["svrstat"]
  | _ => none

/-- No word contains a space, and only the last one may be empty. -/
def Writes (method : ClientCall) (line : String) : Prop :=
  ∃ words, method.words = some words ∧ line = " ".intercalate words ∧ (∀ w ∈ words, ' ' ∉ w.toList) ∧
    ∀ w ∈ words.dropLast, w ≠ ""

instance (method : ClientCall) (line : String) : Decidable (method.Writes line) :=
  inferInstanceAs (Decidable (∃ words ∈ method.words, line = " ".intercalate words ∧ (∀ w ∈ words, ' ' ∉ w.toList) ∧
    ∀ w ∈ words.dropLast, w ≠ ""))

/-- A command fails when the method does. -/
def demands : ClientCall → Bool
  | .declareExchange .. => true
  | .declareQueue .. => true
  | .bind .. => true
  | _ => false

end ClientCall

namespace Terminal
variable {σ : Type} (call : σ → ClientCall → Except Halt (Bool × σ))

/-- The step of a script of methods. -/
def obey (s : σ) (method : ClientCall) : Except Halt (Bool × σ) :=
  match call s method with
  | .error halt => .error halt
  | .ok (ok, s) => .ok (ok || !method.demands, s)

variable {call} {t : Terminal σ} {method : ClientCall} {words : List String} {line uuid : String} {uuids : Nat → String}

/-- What a command has in common with the method that it calls. -/
def Serving (t : Terminal σ) (s : σ) : Prop := t.server = s

theorem demand_agree (t : Terminal σ) (h : method.demands = true) (failure : String) :
    Agree Serving (t.demand call method failure) (obey call t.server method) := by
  rw [demand, obey, h]
  cases call t.server method with
  | error halt => exact .error halt
  | ok r =>
    rcases r with ⟨ok, s⟩
    cases ok with
    | true => exact .ok true rfl
    | false => exact .ok false rfl

theorem invoke_agree (t : Terminal σ) (h : method.demands = false) :
    Agree Serving (t.invoke call method) (obey call t.server method) := by
  rw [invoke, obey, h]
  cases call t.server method with
  | error halt => exact .error halt
  | ok r =>
    rcases r with ⟨ok, s⟩
    dsimp only
    rw [Bool.not_false, Bool.or_true]
    exact .ok true rfl

theorem declareExchange_agree (t : Terminal σ) {name w : String} {type : ExchangeType} {durable autoDelete : Bool}
    {text : String} {args : UMap String String} (hw : type.word = some w) (hargs : Args.parse text = some args) :
    Agree Serving (t.declareExchange call name w (flagWord durable) (flagWord autoDelete) text)
      (obey call t.server (.declareExchange name type durable autoDelete args)) := by
  simp only [declareExchange, ExchangeType.ofWord_word hw, flagOfWord_flagWord, hargs]
  exact demand_agree t rfl _

theorem declareQueue_agree (t : Terminal σ) {qname : String} {qdurable qexclusive qautoDelete : Bool} {text : String}
    {qargs : UMap String String} (hargs : Args.parse text = some qargs) :
    Agree Serving (t.declareQueue call qname (flagWord qdurable) (flagWord qexclusive) (flagWord qautoDelete) text)
      (obey call t.server (.declareQueue qname qdurable qexclusive qautoDelete qargs)) := by
  simp only [declareQueue, flagOfWord_flagWord, hargs]
  exact demand_agree t rfl _

theorem argWords_cases {args : UMap String String} {ws : List String} (h : ClientCall.argWords args = some ws) :
    (ws = [] ∧ Args.parse "" = some args) ∨ ∃ text, ws = [text] ∧ Args.parse text = some args := by
  unfold ClientCall.argWords at h
  split at h
  · next hplain =>
    cases h
    split
    · next hnil =>
      have hempty : args = ∅ := AList.ext hnil
      rw [hempty]
      exact Or.inl ⟨rfl, rfl⟩
    · exact Or.inr ⟨_, rfl, Args.parse_word hplain⟩
  · cases h

/-- The command that is written for a method calls it. -/
theorem runCmd_words (t : Terminal σ) (uuid : String) (hwords : method.words = some words) :
    Agree Serving (t.runCmd call uuid words) (obey call t.server method) := by
  cases method with
  | declareExchange name type durable autoDelete args =>
    rcases Option.bind_eq_some_iff.mp hwords with ⟨w, hw, hwords⟩
    rcases Option.map_eq_some_iff.mp hwords with ⟨ws, hws, rfl⟩
    rcases argWords_cases hws with ⟨rfl, hargs⟩ | ⟨text, rfl, hargs⟩
    · simpa [runCmd] using declareExchange_agree t hw hargs
    · simpa [runCmd] using declareExchange_agree t hw hargs
  | declareQueue qname qdurable qexclusive qautoDelete qargs =>
    rcases Option.map_eq_some_iff.mp hwords with ⟨ws, hws, rfl⟩
    rcases argWords_cases hws with ⟨rfl, hargs⟩ | ⟨text, rfl, hargs⟩
    · simpa [runCmd] using declareQueue_agree t hargs
    · simpa [runCmd] using declareQueue_agree t hargs
  | bind ename qname key =>
    cases hwords
    simpa [runCmd] using demand_agree t rfl "bind failed"
  | deleteExchange name =>
    cases hwords
    simpa [runCmd] using invoke_agree t rfl
  | deleteQueue name =>
    cases hwords
    simpa [runCmd] using invoke_agree t rfl
  | unbind ename qname =>
    cases hwords
    simpa [runCmd] using invoke_agree t rfl
  | basicQuery =>
    cases hwords
    simpa [runCmd] using invoke_agree t rfl
  | _ => cases hwords

/-- The first word is a command. -/
theorem cons_of_words (hwords : method.words = some words) :
    ∃ cmd args, words = cmd :: args ∧ (validCmds.lookup cmd).isNone = false := by
  cases method with
  | declareExchange name type durable autoDelete args =>
    rcases Option.bind_eq_some_iff.mp hwords with ⟨w, -, hwords⟩
    rcases Option.map_eq_some_iff.mp hwords with ⟨ws, -, rfl⟩
    exact ⟨_, _, rfl, rfl⟩
  | declareQueue qname qdurable qexclusive qautoDelete qargs =>
    rcases Option.map_eq_some_iff.mp hwords with ⟨ws, -, rfl⟩
    exact ⟨_, _, rfl, rfl⟩
  | bind ename qname key => cases hwords; exact ⟨_, _, rfl, rfl⟩
  | deleteExchange name => cases hwords; exact ⟨_, _, rfl, rfl⟩
  | deleteQueue name => cases hwords; exact ⟨_, _, rfl, rfl⟩
  | unbind ename qname => cases hwords; exact ⟨_, _, rfl, rfl⟩
  | basicQuery => cases hwords; exact ⟨_, _, rfl, rfl⟩
  | _ => cases hwords

theorem runLine_writes (t : Terminal σ) (n : Nat) (h : method.Writes line) :
    Agree Serving (t.runLine call uuids (line, n)) (obey call t.server method) := by
  rcases h with ⟨words, hwords, rfl, hplain, hne⟩
  rcases cons_of_words hwords with ⟨cmd, args, rfl, hvalid⟩
  have hspace : " ".toList = [' '] := rfl
  have hagree : Agree Serving (t.runCmd call (uuids n) (cmd :: args)) (obey call t.server method) :=
    t.runCmd_words (uuids n) hwords
  rw [runLine, split_intercalate hspace (List.cons_ne_nil cmd args) hplain hne]
  simp only [hvalid, Bool.false_eq_true, if_false]
  generalize t.runCmd call (uuids n) (cmd :: args) = x at hagree ⊢
  generalize obey call t.server method = y at hagree ⊢
  cases hagree with
  | error halt => exact .error halt
  | ok ok hserver =>
    cases ok with
    | true => exact .ok true hserver
    | false => exact .ok false hserver

/-- A file whose lines are written for methods calls these methods in their order, until one is refused. -/
theorem runConfig_writes (t : Terminal σ) {methods : List ClientCall} {lines : List String}
    (h : List.Forall₂ ClientCall.Writes methods lines) :
    Agree Serving (t.runConfig call uuids (some lines)) (perform (obey call) t.server methods) := by
  have hnumbered : ∀ n, List.Forall₂ (fun (e : String × Nat) (method : ClientCall) => method.Writes e.1)
      (lines.zipIdx n) methods := by
    induction h with
    | nil => exact fun _ => .nil
    | cons hline _ ih => exact fun n => .cons hline (ih (n + 1))
  refine perform_agree (fun e method hwrites t s hserver => ?_) (hnumbered 1) rfl
  rw [← hserver]
  exact t.runLine_writes e.2 hwrites

/-- `config/for_test.cfg`. -/
def forTest : List String :=
  ["declare_exchange exchange1 FANOUT true false", "declare_queue queue1 true false false k1=v1&k2=v2",
    "declare_queue queue2 true false false", "bind exchange1 queue1 news.pop.#", "bind exchange1 queue2 queue2"]

def forTestMethods : List ClientCall :=
  [.declareExchange "exchange1" .fanout true false ∅,
    .declareQueue "queue1" true false false ((UMap.emplace ∅ "k1" "v1").emplace "k2" "v2"),
    .declareQueue "queue2" true false false ∅, .bind "exchange1" "queue1" "news.pop.#",
    .bind "exchange1" "queue2" "queue2"]

theorem writes_forTest : List.Forall₂ ClientCall.Writes forTestMethods forTest :=
  .cons (by decide +kernel) (.cons (by decide +kernel) (.cons (by decide +kernel)
    (.cons (by decide +kernel) (.cons (by decide +kernel) .nil))))

theorem runConfig_writes_forTest :
    Agree Serving
      (runConfig (fun (calls : List ClientCall) method => .ok (true, calls ++ [method])) (fun _ => "") ⟨[], "", [], []⟩
        (some forTest))
      (perform (obey fun (calls : List ClientCall) method => .ok (true, calls ++ [method])) [] forTestMethods) :=
  runConfig_writes _ writes_forTest

/-! ### What a command can do -/

theorem mem_of_valid {cmd : String} (h : (validCmds.lookup cmd).isSome) : cmd ∈ validCmds.map Prod.fst := by
  rcases Option.isSome_iff_exists.mp h with ⟨text, htext⟩
  rcases List.lookup_eq_some_iff.mp htext with ⟨l₁, l₂, heq, -⟩
  rw [heq]
  simp

theorem input_foldl_print {α : Type} (text : α → String) (as : List α) (t : Terminal σ) :
    (as.foldl (fun t a => t.print (text a)) t).input = t.input := by
  induction as generalizing t with
  | nil => rfl
  | cons a as ih => exact ih (t.print (text a))

/-- A command prints, or it calls a method. Of the valid ones only `exit` has no branch. -/
theorem runCmd_cases {P : Except Halt (Bool × Terminal σ) → Prop} {t : Terminal σ}
    (hprint : ∀ ok t', t'.input = t.input → P (.ok (ok, t')))
    (hdemand : ∀ method failure, P (t.demand call method failure)) (hinvoke : ∀ method, P (t.invoke call method))
    (hpublish : ∀ again exchangeName bp, P (t.publishLoop call again exchangeName bp t.input))
    (hsubscribe : ∀ consumerName queueName autoAck, P (t.subscribe call consumerName queueName autoAck)) {cmd : String}
    (hexit : (validCmds.lookup cmd).isNone ∨ cmd = "exit" → P (.error .abort)) (uuid : String) (args : List String) :
    P (t.runCmd call uuid (cmd :: args)) := by
  have hbranch : ∀ {p : Prop} [Decidable p] {x y : Except Halt (Bool × Terminal σ)}, P x → (¬p → P y) →
      P (if p then x else y) := fun hx hy => iteInduction (fun _ => hx) hy
  have hmisused : ∀ cmd, P (t.misused cmd) := fun cmd => hprint false _ rfl
  have hdeclareExchange : ∀ name type durable autoDelete text,
      P (t.declareExchange call name type durable autoDelete text) := by
    intro name type durable autoDelete text
    unfold declareExchange
    split
    · exact hdemand _ _
    · exact hmisused _
  have hdeclareQueue : ∀ name durable exclusive autoDelete text,
      P (t.declareQueue call name durable exclusive autoDelete text) := by
    intro name durable exclusive autoDelete text
    unfold declareQueue
    split
    · exact hdemand _ _
    · exact hmisused _
  unfold runCmd
  refine hbranch (hprint true _ ?cmds) fun h₁ => hbranch (hprint true _ rfl) fun h₂ => hbranch ?bind fun h₃ =>
    hbranch ?unbind fun h₄ => hbranch ?declareExchange fun h₅ => hbranch ?deleteExchange fun h₆ =>
    hbranch ?declareQueue fun h₇ => hbranch ?deleteQueue fun h₈ => hbranch (hinvoke _) fun h₉ => hbranch ?publish fun h₁₀ =>
    hbranch ?subscribe fun h₁₁ => hbranch (hprint true t rfl) fun h₁₂ => hbranch (hprint true t rfl) fun h₁₃ => hexit ?exit
  case cmds => exact input_foldl_print _ _ _
  case bind =>
    split
    · exact hdemand _ _
    · exact hmisused _
  case unbind =>
    split
    · exact hinvoke _
    · exact hmisused _
  case declareExchange =>
    split
    · exact hdeclareExchange _ _ _ _ _
    · exact hdeclareExchange _ _ _ _ _
    · exact hmisused _
  case deleteExchange =>
    split
    · exact hinvoke _
    · exact hmisused _
  case declareQueue =>
    split
    · exact hdeclareQueue _ _ _ _ _
    · exact hdeclareQueue _ _ _ _ _
    · exact hmisused _
  case deleteQueue =>
    split
    · exact hinvoke _
    · exact hmisused _
  case publish =>
    split
    · exact hpublish _ _ _
    · exact hmisused _
  case subscribe =>
    split
    · exact hsubscribe _ _ _
    · exact hmisused _
  case exit =>
    refine or_iff_not_imp_left.mpr fun hvalid => ?_
    have hmem := mem_of_valid (Option.isSome_iff_ne_none.mpr fun h => hvalid (Option.isNone_iff_eq_none.mpr h))
    simp_all [validCmds]

/-! ### What aborts -/

theorem demand_ne_abort (hcall : ∀ s method, call s method ≠ .error .abort) (t : Terminal σ) (method : ClientCall)
    (failure : String) : t.demand call method failure ≠ .error .abort := by
  intro h
  unfold demand at h
  split at h
  · next hhalt =>
    cases h
    exact hcall _ _ hhalt
  · cases h
  · cases h

theorem invoke_ne_abort (hcall : ∀ s method, call s method ≠ .error .abort) (t : Terminal σ) (method : ClientCall) :
    t.invoke call method ≠ .error .abort := by
  intro h
  unfold invoke at h
  split at h
  · next hhalt =>
    cases h
    exact hcall _ _ hhalt
  · cases h

theorem publishLoop_ne_abort (hcall : ∀ s method, call s method ≠ .error .abort) (again : Bool) (exchangeName : String)
    (bp : BasicProperties) (input : List String) (t : Terminal σ) :
    t.publishLoop call again exchangeName bp input ≠ .error .abort := by
  induction input generalizing t with
  | nil =>
    intro h
    rw [publishLoop] at h
    split at h
    · next hhalt =>
      cases h
      exact hcall _ _ hhalt
    · split at h <;> cases h
  | cons mesg input ih =>
    intro h
    rw [publishLoop] at h
    split at h
    · cases h
    · split at h
      · next hhalt =>
        cases h
        exact hcall _ _ hhalt
      · split at h
        · exact ih _ h
        · cases h

theorem subscribe_ne_abort (hcall : ∀ s method, call s method ≠ .error .abort) (t : Terminal σ)
    (consumerName queueName autoAck : String) : t.subscribe call consumerName queueName autoAck ≠ .error .abort := by
  intro h
  unfold subscribe at h
  split at h
  · cases h
  · split at h
    · next hhalt =>
      cases h
      exact demand_ne_abort hcall _ _ _ hhalt
    · split at h
      · cases h
      · exact invoke_ne_abort hcall _ _ h

theorem runCmd_ne_abort (hcall : ∀ s method, call s method ≠ .error .abort) (t : Terminal σ) (uuid : String) {cmd : String}
    (hvalid : (validCmds.lookup cmd).isNone = false) (hexit : cmd ≠ "exit") (args : List String) :
    t.runCmd call uuid (cmd :: args) ≠ .error .abort := by
  refine runCmd_cases (P := (· ≠ .error .abort)) ?_ (demand_ne_abort hcall t) (invoke_ne_abort hcall t)
    (fun again exchangeName bp => publishLoop_ne_abort hcall again exchangeName bp t.input t) (subscribe_ne_abort hcall t)
    ?_ uuid args
  · intro ok t' _ h
    cases h
  · rintro (h | h)
    · exact absurd (hvalid.symm.trans h) Bool.false_ne_true
    · exact absurd h hexit

/-- A line aborts the client just when its first word is `exit`. -/
theorem runLine_abort_iff (hcall : ∀ s method, call s method ≠ .error .abort) {t : Terminal σ} {e : String × Nat} :
    t.runLine call uuids e = .error .abort ↔ (split e.1 " ").head? = some "exit" := by
  rw [runLine]
  cases split e.1 " " with
  | nil => simp
  | cons cmd args =>
    dsimp only
    rw [List.head?_cons, Option.some_inj]
    constructor
    · intro h
      by_contra hexit
      split at h
      · cases h
      · next hvalid =>
        split at h
        · next hhalt =>
          cases h
          exact runCmd_ne_abort hcall t _ (Bool.eq_false_of_not_eq_true hvalid) hexit args hhalt
        · cases h
        · cases h
    · rintro rfl
      rfl

/-- A configuration file does so just when the lines before one with `exit` all succeed. -/
theorem runConfig_abort_iff (hcall : ∀ s method, call s method ≠ .error .abort) {t : Terminal σ}
    {file : Option (List String)} :
    t.runConfig call uuids file = .error .abort ↔
      ∃ pre line post t', file = some (pre ++ line :: post) ∧ (split line " ").head? = some "exit" ∧
        t.runConfig call uuids (some pre) = .ok (true, t') := by
  cases file with
  | none => simp [runConfig]
  | some lines =>
    rw [runConfig, perform_error_iff]
    constructor
    · rintro ⟨pre, e, post, t', hlines, hpre, hbreak⟩
      rcases List.zipIdx_eq_append_iff.mp hlines with ⟨pre, rest, rfl, rfl, hrest⟩
      rcases List.zipIdx_eq_cons_iff.mp hrest.symm with ⟨line, post, rfl, rfl, -⟩
      exact ⟨pre, line, post, t', rfl, (runLine_abort_iff hcall).mp hbreak, hpre⟩
    · rintro ⟨pre, line, post, t', hfile, hexit, hpre⟩
      cases hfile
      rw [List.zipIdx_append, List.zipIdx_cons]
      exact ⟨_, _, _, t', rfl, hpre, (runLine_abort_iff hcall).mpr hexit⟩

theorem session_ne_abort (hcall : ∀ s method, call s method ≠ .error .abort) (fuel : Nat) (t : Terminal σ) :
    t.session call uuids fuel ≠ .error .abort := by
  induction fuel generalizing t with
  | zero =>
    intro h
    cases h
  | succ fuel ih =>
    intro h
    rw [session] at h
    split at h
    · cases h
    · split at h
      · exact ih _ h
      · split_ifs at h with hinvalid hexit
        · exact ih _ h
        · split at h
          · next hhalt =>
            cases h
            exact runCmd_ne_abort hcall _ _ (Bool.eq_false_of_not_eq_true hinvalid) hexit _ hhalt
          · exact ih _ h

/-! ### What is read -/

theorem demand_input {t t' : Terminal σ} {failure : String} {ok : Bool}
    (h : t.demand call method failure = .ok (ok, t')) : t'.input = t.input := by
  unfold demand at h
  split at h
  · cases h
  · cases h
    rfl
  · cases h
    rfl

theorem invoke_input {t t' : Terminal σ} {ok : Bool} (h : t.invoke call method = .ok (ok, t')) : t'.input = t.input := by
  unfold invoke at h
  split at h
  · cases h
  · cases h
    rfl

theorem publishLoop_input {again : Bool} {exchangeName : String} {bp : BasicProperties} {input : List String}
    {t t' : Terminal σ} {ok : Bool} (h : t.publishLoop call again exchangeName bp input = .ok (ok, t')) :
    t'.input <:+ input := by
  induction input generalizing t with
  | nil =>
    rw [publishLoop] at h
    split at h
    · cases h
    · split at h
      · cases h
      · cases h
        exact List.suffix_rfl
  | cons mesg input ih =>
    rw [publishLoop] at h
    split at h
    · cases h
      exact List.suffix_cons _ _
    · split at h
      · cases h
      · split at h
        · exact (ih h).trans (List.suffix_cons _ _)
        · cases h
          exact List.suffix_cons _ _

theorem subscribe_input {consumerName queueName autoAck : String} {t t' : Terminal σ} {ok : Bool}
    (h : t.subscribe call consumerName queueName autoAck = .ok (ok, t')) : t'.input <:+ t.input := by
  unfold subscribe at h
  split at h
  · cases h
    exact List.suffix_rfl
  · split at h
    · cases h
    · next hdemand =>
      rw [← demand_input hdemand]
      split at h
      · cases h
      · next quit input hdrop =>
        rw [invoke_input h]
        exact (List.suffix_cons quit input).trans (hdrop ▸ List.dropWhile_suffix _)

theorem runCmd_input {t t' : Terminal σ} {uuid cmd : String} {args : List String} {ok : Bool}
    (h : t.runCmd call uuid (cmd :: args) = .ok (ok, t')) : t'.input <:+ t.input := by
  refine runCmd_cases (P := fun r => r = .ok (ok, t') → t'.input <:+ t.input) ?_ (fun _ _ h => ?_) (fun _ h => ?_)
    (fun _ _ _ => publishLoop_input) (fun _ _ _ => subscribe_input) ?_ uuid args h
  · intro ok' t₁ hinput h
    cases h
    exact hinput ▸ List.suffix_rfl
  · exact demand_input h ▸ List.suffix_rfl
  · exact invoke_input h ▸ List.suffix_rfl
  · intro _ h
    cases h

/-- The fuel is enough: a session that hangs waits for input that does not come. -/
theorem session_fuel {fuel : Nat} {t : Terminal σ} (h : t.input.length < fuel) :
    t.session call uuids (fuel + 1) = t.session call uuids fuel := by
  induction fuel generalizing t with
  | zero => exact absurd h (Nat.not_lt_zero _)
  | succ fuel ih =>
    rw [session, session.eq_def call uuids (fuel + 1) t]
    dsimp only
    cases hinput : t.input with
    | nil => rfl
    | cons fullCmd input =>
      rw [hinput, List.length_cons, Nat.add_lt_add_iff_right] at h
      dsimp only
      cases split fullCmd " " with
      | nil => exact ih (t := { t with input }) h
      | cons cmd words =>
        dsimp only
        split_ifs
        · exact ih (t := { t with input }.print (notFound cmd)) h
        · rfl
        · split
          · rfl
          · next hrun => exact ih (Nat.lt_of_le_of_lt (runCmd_input hrun).length_le h)

/-! ### The client -/

/-- In its session the client aborts never, and with a configuration file just when the file leads to an `exit`. -/
theorem run_abort_iff (hcall : ∀ s method, call s method ≠ .error .abort) {t : Terminal σ}
    {config : Option (Option (List String))} :
    t.run call uuids config = .error .abort ↔
      ∃ pre line post t', config = some (some (pre ++ line :: post)) ∧ (split line " ").head? = some "exit" ∧
        t.runConfig call uuids (some pre) = .ok (true, t') := by
  cases config with
  | none =>
    rw [run]
    refine iff_of_false (session_ne_abort hcall _ t) ?_
    rintro ⟨pre, line, post, t', hconfig, -⟩
    cases hconfig
  | some file =>
    rw [run]
    constructor
    · intro h
      split at h
      · next hhalt =>
        cases h
        rcases (runConfig_abort_iff hcall).mp hhalt with ⟨pre, line, post, t', rfl, hexit, hpre⟩
        exact ⟨pre, line, post, t', rfl, hexit, hpre⟩
      · cases h
      · exact absurd h (session_ne_abort hcall _ _)
    · rintro ⟨pre, line, post, t', hconfig, hexit, hpre⟩
      cases hconfig
      rw [(runConfig_abort_iff hcall).mpr ⟨pre, line, post, t', rfl, hexit, hpre⟩]

theorem run_abort_session : (run (fun (n : Nat) _ => .ok (true, n + 1)) (fun _ => "") ⟨0, "", [], []⟩
      (some (some ["delete_queue queue1", "exit"]))) = .error .abort :=
  (run_abort_iff (fun _ _ h => by cases h)).mpr
    ⟨["delete_queue queue1"], "exit", [], _, rfl, by decide +kernel, rfl⟩

end Terminal

end HareMQ
