import HareMQ.Lib.Disk
import Mathlib.Data.List.TakeWhile

/-! # Names that lead back or end early

The disk finds a file by the parts of its name. Where a part is `..`, or the name holds a NUL, the system finds
another file: the one whose `canonical` name the disk knows. -/

namespace Lib

/-- A part that stays in a path. -/
def Proper (part : List Char) : Prop := part ≠ [] ∧ part ≠ ['.'] ∧ '/' ∉ part

/-- What the system sees of a name. -/
def cString (name : String) : List Char := name.toList.takeWhile (· ≠ '\x00')

theorem cString_eq {name : String} (h : '\x00' ∉ name.toList) : cString name = name.toList :=
  List.takeWhile_eq_self_iff.mpr fun _ hc => decide_eq_true fun heq => h (heq ▸ hc)

/-- One part of a file name: `..` takes the part before it back, if there is one, and the root has nothing above it. -/
def walk (absolute : Bool) (parts : List (List Char)) (part : List Char) : List (List Char) :=
  if part = [] ∨ part = ['.'] then parts
  else if part ≠ ['.', '.'] then parts ++ [part]
  else
    match parts.getLast? with
    | none => if absolute then [] else [part]
    | some last => if last = ['.', '.'] then parts ++ [part] else parts.dropLast

/-- The path that a file name stands for, when the directories on the way exist and are no links. -/
def realpath (name : String) : Path :=
  let absolute := (cString name).head? == some '/'
  { absolute, parts := ((cString name).splitOnP (· == '/')).foldl (walk absolute) [] }

theorem walk_proper {absolute : Bool} {parts : List (List Char)} {part : List Char} (h : ∀ p ∈ parts, Proper p)
    (hpart : '/' ∉ part) : ∀ p ∈ walk absolute parts part, Proper p := by
  have hback : Proper ['.', '.'] := ⟨by decide, by decide, by decide⟩
  have hconcat : ∀ q, Proper q → ∀ p ∈ parts ++ [q], Proper p := by
    intro q hq p hp
    rcases List.mem_append.mp hp with hp | hp
    · exact h p hp
    · exact List.mem_singleton.mp hp ▸ hq
  unfold walk
  split
  · exact h
  · next hneutral =>
    rw [not_or] at hneutral
    split
    · exact hconcat part ⟨hneutral.1, hneutral.2, hpart⟩
    · next heq =>
      rw [ne_eq, not_not] at heq
      subst heq
      split
      · split
        · exact List.forall_mem_nil _
        · exact List.forall_mem_singleton.mpr hback
      · split
        · exact hconcat _ hback
        · exact fun p hp => h p (List.dropLast_subset _ hp)

theorem foldl_walk_proper {absolute : Bool} {parts : List (List Char)} (h : ∀ part ∈ parts, '/' ∉ part) :
    ∀ {made : List (List Char)}, (∀ p ∈ made, Proper p) → ∀ p ∈ parts.foldl (walk absolute) made, Proper p := by
  induction parts with
  | nil => exact fun hmade => hmade
  | cons part parts ih =>
    intro made hmade
    rw [List.forall_mem_cons] at h
    exact ih h.2 (walk_proper hmade h.1)

theorem slash_notMem_splitOnP (l : List Char) : ∀ part ∈ l.splitOnP (· == '/'), '/' ∉ part := by
  induction l with
  | nil => simp
  | cons c l ih =>
    rw [List.splitOnP_cons_eq_if_modifyHead]
    split
    · exact List.forall_mem_cons.mpr ⟨List.not_mem_nil, ih⟩
    · next hc =>
      have hc : '/' ≠ c := fun heq => hc (by rw [← heq]; rfl)
      cases hsplit : l.splitOnP (· == '/') with
      | nil => exact absurd hsplit (List.splitOnP_ne_nil _ _)
      | cons part parts =>
        rw [hsplit, List.forall_mem_cons] at ih
        rw [List.modifyHead_cons]
        refine List.forall_mem_cons.mpr ⟨fun hmem => ?_, ih.2⟩
        rcases List.mem_cons.mp hmem with heq | hmem
        · exact hc heq
        · exact ih.1 hmem

theorem realpath_proper (name : String) : ∀ p ∈ (realpath name).parts, Proper p :=
  foldl_walk_proper (slash_notMem_splitOnP _) (List.forall_mem_nil _)

/-- A name of the path in which nothing leads back. -/
def Path.spelled (p : Path) : String :=
  String.ofList ((if p.absolute then [] else ['.']) ++ '/' :: p.parts.flatMap fun part => part ++ ['/'])

theorem splitOnP_flatMap {parts : List (List Char)} (h : ∀ p ∈ parts, Proper p) :
    (parts.flatMap fun part => part ++ ['/']).splitOnP (· == '/') = parts ++ [[]] := by
  induction parts with
  | nil => rfl
  | cons part parts ih =>
    rw [List.forall_mem_cons] at h
    have hpart : ∀ c ∈ part, (c == '/') = false := fun c hc => beq_eq_false_iff_ne.mpr fun heq => h.1.2.2 (heq ▸ hc)
    rw [List.flatMap_cons, List.append_assoc, List.singleton_append, List.splitOnP_append_cons_of_forall_mem hpart '/' rfl, ih h.2,
      List.cons_append]

theorem resolve_spelled {p : Path} (h : ∀ part ∈ p.parts, Proper part) : resolve p.spelled = p := by
  have hkeep : p.parts.filter (fun part => decide (part ≠ []) && decide (part ≠ ['.'])) = p.parts := by
    refine List.filter_eq_self.mpr fun part hpart => ?_
    rw [decide_eq_true (h part hpart).1, decide_eq_true (h part hpart).2.1, Bool.and_self]
  have hfirst : ∀ c ∈ (if p.absolute then [] else ['.']), (c == '/') = false := by
    split
    · exact List.forall_mem_nil _
    · exact List.forall_mem_singleton.mpr rfl
  rw [resolve, Path.spelled, String.toList_ofList, List.splitOnP_append_cons_of_forall_mem hfirst '/' rfl, splitOnP_flatMap h]
  rcases p with ⟨_ | _, parts⟩
  · rw [List.filter_cons_of_neg (by simp), List.filter_append, hkeep]
    exact congrArg (Path.mk false) (List.append_nil _)
  · rw [List.filter_cons_of_neg (by simp), List.filter_append, hkeep]
    exact congrArg (Path.mk true) (List.append_nil _)

/-- The name under which the disk has the file that `name` stands for. The empty name stands for nothing. -/
def canonical (name : String) : String := if cString name = [] then "" else (realpath name).spelled

theorem resolve_canonical (name : String) : resolve (canonical name) = realpath name := by
  unfold canonical
  split
  · next h =>
    rw [realpath, h]
    rfl
  · exact resolve_spelled (realpath_proper name)

theorem cString_ne_of_canonical {name : String} (h : canonical name ≠ "") : cString name ≠ [] := by
  intro hnil
  rw [canonical, if_pos hnil] at h
  exact h rfl

theorem canonical_ne {name : String} (h : cString name ≠ []) : canonical name ≠ "" := by
  rw [canonical, if_neg h, Path.spelled]
  intro heq
  have := congrArg String.toList heq
  rw [String.toList_ofList] at this
  exact absurd (List.append_eq_nil_iff.mp this).2 (List.cons_ne_nil _ _)

/-- A `/` at the end is seen, or is behind the end. -/
theorem cString_slash (name : String) : cString (name ++ "/") = cString name ++ ['/'] ∨ cString (name ++ "/") = cString name := by
  have hlist : (name ++ "/").toList = name.toList ++ ['/'] := by rw [String.toList_append]; rfl
  rw [cString, hlist, List.takeWhile_append]
  split
  · next h =>
    rw [cString, (List.takeWhile_prefix _).eq_of_length h]
    exact Or.inl rfl
  · exact Or.inr rfl

theorem canonical_slash_ne {name : String} (h : cString name ≠ []) : canonical (name ++ "/") ≠ "" := by
  refine canonical_ne ?_
  rcases cString_slash name with heq | heq
  · rw [heq]
    exact List.append_ne_nil_of_left_ne_nil h _
  · rwa [heq]

/-- A `/` at the end is neutral. -/
theorem realpath_slash {name : String} (h : cString name ≠ []) : realpath (name ++ "/") = realpath name := by
  rcases cString_slash name with heq | heq
  · have hhead : (cString name ++ ['/']).head? = (cString name).head? := by
      cases hn : cString name with
      | nil => exact absurd hn h
      | cons c cs => rfl
    have hsplit : (cString name ++ ['/']).splitOnP (· == '/') = (cString name).splitOnP (· == '/') ++ [[]] :=
      List.splitOnP_append_cons _ _ rfl
    simp only [realpath, heq, hhead, hsplit, List.foldl_append, List.foldl_cons, List.foldl_nil]
    rw [walk, if_pos (Or.inl rfl)]
  · rw [realpath, realpath, heq]

/-- A name that ends in a long enough suffix: only the last part of the path depends on the suffix. -/
theorem exists_realpath_append {name : String} (hnul : '\x00' ∉ name.toList) :
    ∃ absolute init last, ∀ {suffix : String}, '\x00' ∉ suffix.toList → '/' ∉ suffix.toList → 2 < suffix.toList.length →
      realpath (name ++ suffix) = ⟨absolute, init ++ [last ++ suffix.toList]⟩ := by
  obtain ⟨init, last, -, -, hname, -⟩ := splitOnP_append (· == '/') [] name.toList
  refine ⟨name.toList.head? == some '/', init.foldl (walk (name.toList.head? == some '/')) [], last,
    fun {suffix} hs hslash hlen => ?_⟩
  obtain ⟨init', last', head, tail, hname', hsuffix, hsplit⟩ := splitOnP_append (· == '/') suffix.toList name.toList
  obtain ⟨rfl, hlast⟩ := List.append_inj' (hname.symm.trans hname') rfl
  obtain rfl := List.singleton_inj.mp hlast
  rw [List.splitOnP_eq_singleton fun c hc => by simpa using fun e : c = '/' => hslash (e ▸ hc)] at hsuffix
  obtain ⟨rfl, rfl⟩ := List.cons_eq_cons.mp hsuffix
  have hlong : ∀ part : List Char, part.length ≤ 2 → last ++ suffix.toList ≠ part := by
    intro part hpart h
    have := congrArg List.length h
    rw [List.length_append] at this
    omega
  have hseen : cString (name ++ suffix) = name.toList ++ suffix.toList := by
    rw [cString_eq, String.toList_append]
    rw [String.toList_append, List.mem_append, not_or]
    exact ⟨hnul, hs⟩
  have hhead : ((name.toList ++ suffix.toList).head? == some '/') = (name.toList.head? == some '/') := by
    cases hn : name.toList with
    | nil =>
      cases ht : suffix.toList with
      | nil => rfl
      | cons c cs =>
        rw [ht, List.mem_cons, not_or] at hslash
        simpa using fun h : c = '/' => hslash.1 h.symm
    | cons c cs => rfl
  simp only [realpath, hseen, hhead, hsplit, List.foldl_append, List.foldl_cons, List.foldl_nil]
  rw [walk, if_neg (not_or.mpr ⟨hlong _ (by decide), hlong _ (by decide)⟩), if_pos (hlong _ (by decide))]

end Lib
