import HareMQ.Lib.Bytes
import Mathlib.Logic.Function.Basic

/-! # A disk with faults and crash images

A disk maps resolved file names to contents. The environment decides the outcome of each operation in
advance (`fates`; an operation past the end of the list succeeds), and the disk keeps the contents after
every completed change (`trail`): these are the images that a process which stops between two operations
leaves behind. -/

namespace Lib

/-- A file name as it is resolved: empty parts and `.` are neutral. Names in which a part leads back, or which hold a NUL,
have to be made canonical before. -/
structure Path where
  absolute : Bool
  parts : List (List Char)
deriving DecidableEq, Repr

def resolve (name : String) : Path where
  absolute := name.toList.head? == some '/'
  parts := (name.toList.splitOnP (· == '/')).filter fun part => part ≠ [] && part ≠ ['.']

/-- The contents of every file. -/
abbrev Files := Path → Option Bytes

/-- What the environment does to one operation. A failed write leaves some first bytes behind. So does one that is lost:
its bytes were buffered, and nobody is told when they do not reach the disk. -/
inductive FileFate
  | ok
  | fail (written : Nat)
  | lost (written : Nat)
deriving DecidableEq, Repr

/-- No failure is reported. -/
def FileFate.passes : FileFate → Bool
  | .fail _ => false
  | _ => true

structure Disk where
  files : Files
  dirs : Path → Bool
  fates : List FileFate := []
  trail : List Files := []

namespace Disk

def fate (d : Disk) : FileFate := d.fates.headD .ok

/-- The disk after the environment has decided one operation. -/
def tick (d : Disk) : Disk := { d with fates := d.fates.tail }

def file? (d : Disk) (name : String) : Option Bytes := d.files (resolve name)

def isDir (d : Disk) (name : String) : Bool :=
  name ≠ "" && ((resolve name).parts.isEmpty || d.dirs (resolve name))

/-- The disk after one completed change of its files. -/
def store (d : Disk) (files : Files) : Disk := { d with files := files, trail := d.trail ++ [files] }

def put (d : Disk) (name : String) (data : Bytes) : Disk :=
  d.store (Function.update d.files (resolve name) (some data))

def drop (d : Disk) (name : String) : Disk :=
  d.store (Function.update d.files (resolve name) none)

/-- `old` under the name `new`: the file `new` is replaced if there is one. -/
def move (d : Disk) (old new : String) (data : Bytes) : Disk :=
  d.store (Function.update (Function.update d.files (resolve old) none) (resolve new) (some data))

/-- Every coming operation succeeds. -/
def Calm (d : Disk) : Prop := d.fates = []

instance (d : Disk) : Decidable d.Calm := inferInstanceAs (Decidable (d.fates = []))

variable {d : Disk} {name : String}

theorem isDir_congr {d' : Disk} (h : d'.dirs = d.dirs) (name : String) : d'.isDir name = d.isDir name := by
  rw [isDir, isDir, h]

theorem Calm.fate (h : d.Calm) : d.fate = .ok := by
  unfold Disk.fate
  rw [h]
  rfl

theorem Calm.tick (h : d.Calm) : d.tick = d := by
  cases d
  cases h
  rfl

@[simp] theorem fates_put (data : Bytes) : (d.put name data).fates = d.fates := rfl

@[simp] theorem fates_drop : (d.drop name).fates = d.fates := rfl

@[simp] theorem fates_move {old new : String} (data : Bytes) : (d.move old new data).fates = d.fates := rfl

theorem Calm.put (h : d.Calm) (data : Bytes) : (d.put name data).Calm := h

theorem Calm.drop (h : d.Calm) : (d.drop name).Calm := h

@[simp] theorem dirs_put (data : Bytes) : (d.put name data).dirs = d.dirs := rfl

@[simp] theorem dirs_drop : (d.drop name).dirs = d.dirs := rfl

@[simp] theorem dirs_move {old new : String} (data : Bytes) : (d.move old new data).dirs = d.dirs := rfl

@[simp] theorem file?_put_self (data : Bytes) : (d.put name data).file? name = some data := by
  simp [put, store, file?]

theorem file?_put_ne {other : String} (h : resolve other ≠ resolve name) (data : Bytes) :
    (d.put name data).file? other = d.file? other := by
  simp [put, store, file?, Function.update_of_ne h]

@[simp] theorem file?_drop_self : (d.drop name).file? name = none := by
  simp [drop, store, file?]

theorem file?_drop_ne {other : String} (h : resolve other ≠ resolve name) :
    (d.drop name).file? other = d.file? other := by
  simp [drop, store, file?, Function.update_of_ne h]

@[simp] theorem file?_move_self {old new : String} (data : Bytes) : (d.move old new data).file? new = some data := by
  simp [move, store, file?]

@[simp] theorem trail_drop : (d.drop name).trail = d.trail ++ [(d.drop name).files] := rfl

@[simp] theorem trail_move {old new : String} (data : Bytes) :
    (d.move old new data).trail = d.trail ++ [(d.move old new data).files] := rfl

/-! ### Outcomes of the next operations -/

/-- The disk with the outcomes of the next operations used up. -/
def skip (d : Disk) (n : Nat) : Disk := { d with fates := d.fates.drop n }

/-- The disk from now on without faults. -/
def calmed (d : Disk) : Disk := { d with fates := [] }

theorem tick_eq_skip (d : Disk) : d.tick = d.skip 1 := by rw [tick, skip, List.drop_one]

@[simp] theorem skip_zero (d : Disk) : d.skip 0 = d := rfl

@[simp] theorem skip_skip (d : Disk) (m n : Nat) : (d.skip m).skip n = d.skip (m + n) := by
  simp only [skip, List.drop_drop]

@[simp] theorem file?_skip (d : Disk) (n : Nat) : (d.skip n).file? name = d.file? name := rfl

@[simp] theorem file?_calmed (d : Disk) : d.calmed.file? name = d.file? name := rfl

theorem calm_calmed (d : Disk) : d.calmed.Calm := rfl

theorem Calm.calmed (h : d.Calm) : d.calmed = d := by
  cases d
  cases h
  rfl

/-- `d'` differs from `d` in the files at `paths` at most, and in what the environment has decided. -/
structure Only (paths : List Path) (d d' : Disk) : Prop where
  dirs : d'.dirs = d.dirs
  others : ∀ p, p ∉ paths → d'.files p = d.files p

namespace Only
variable {paths : List Path} {d d' d'' : Disk}

theorem refl (paths : List Path) (d : Disk) : Only paths d d := ⟨rfl, fun _ _ => rfl⟩

theorem skip (paths : List Path) (d : Disk) (n : Nat) : Only paths d (d.skip n) := ⟨rfl, fun _ _ => rfl⟩

theorem put (name : String) (d : Disk) (data : Bytes) : Only [resolve name] d (d.put name data) :=
  ⟨rfl, fun _ hp => Function.update_of_ne (fun h => hp (List.mem_singleton.mpr h)) _ _⟩

theorem drop (name : String) (d : Disk) : Only [resolve name] d (d.drop name) :=
  ⟨rfl, fun _ hp => Function.update_of_ne (fun h => hp (List.mem_singleton.mpr h)) _ _⟩

theorem move (old new : String) (d : Disk) (data : Bytes) : Only [resolve new, resolve old] d (d.move old new data) := by
  refine ⟨rfl, fun p hp => ?_⟩
  rw [List.mem_cons, List.mem_singleton, not_or] at hp
  simp only [Disk.move, store, Function.update_of_ne hp.1, Function.update_of_ne hp.2]

theorem trans (h₁ : Only paths d d') (h₂ : Only paths d' d'') : Only paths d d'' :=
  ⟨h₂.dirs.trans h₁.dirs, fun p hp => (h₂.others p hp).trans (h₁.others p hp)⟩

theorem mono {paths' : List Path} (h : Only paths d d') (hsub : paths ⊆ paths') : Only paths' d d' :=
  ⟨h.dirs, fun p hp => h.others p fun hmem => hp (hsub hmem)⟩

theorem file?_eq (h : Only paths d d') {name : String} (hname : resolve name ∉ paths) : d'.file? name = d.file? name :=
  h.others _ hname

end Only

/-- The same files at `paths`, the same directories, and the same outcomes to come. -/
structure Agree (paths : List Path) (d e : Disk) : Prop where
  fates : d.fates = e.fates
  dirs : d.dirs = e.dirs
  files : ∀ p ∈ paths, d.files p = e.files p

namespace Agree
variable {paths : List Path} {d e : Disk} {name : String}

theorem fate (h : Agree paths d e) : d.fate = e.fate := congrArg (·.headD .ok) h.fates

theorem file? (h : Agree paths d e) (hname : resolve name ∈ paths) : d.file? name = e.file? name := h.files _ hname

theorem isDir (h : Agree paths d e) (name : String) : d.isDir name = e.isDir name := isDir_congr h.dirs name

theorem tick (h : Agree paths d e) : Agree paths d.tick e.tick := ⟨congrArg List.tail h.fates, h.dirs, h.files⟩

theorem update {f g : Files} (hfg : ∀ p ∈ paths, f p = g p) (q : Path) (data : Option Bytes) :
    ∀ p ∈ paths, Function.update f q data p = Function.update g q data p := by
  intro p hp
  by_cases hpq : p = q
  · rw [hpq, Function.update_self, Function.update_self]
  · rw [Function.update_of_ne hpq, Function.update_of_ne hpq]
    exact hfg p hp

theorem put (h : Agree paths d e) (name : String) (data : Bytes) : Agree paths (d.put name data) (e.put name data) :=
  ⟨h.fates, h.dirs, update h.files _ _⟩

theorem drop (h : Agree paths d e) (name : String) : Agree paths (d.drop name) (e.drop name) :=
  ⟨h.fates, h.dirs, update h.files _ _⟩

theorem move (h : Agree paths d e) (old new : String) (data : Bytes) :
    Agree paths (d.move old new data) (e.move old new data) :=
  ⟨h.fates, h.dirs, update (update h.files _ _) _ _⟩

end Agree

/-- What was changed elsewhere does not matter here, once the same outcomes are to come. -/
theorem Only.agree {touched paths : List Path} {d d' : Disk} (h : Only touched d d') (hfree : ∀ p ∈ paths, p ∉ touched)
    (fates : List FileFate) : Agree paths { d with fates } { d' with fates } :=
  ⟨rfl, h.dirs.symm, fun p hp => (h.others p (hfree p hp)).symm⟩

/-- The next file operations succeed. -/
def allows (d : Disk) (n : Nat) : Bool := (d.fates.take n).all (· = .ok)

/-- The next file operations report no failure. -/
def passes (d : Disk) (n : Nat) : Bool := (d.fates.take n).all FileFate.passes

/-- No write is lost: what is reported as written is on the disk. -/
def Reliable (d : Disk) : Prop := ∀ written, .lost written ∉ d.fates

/-- A step that used up some outcomes, and neither removed nor created a file. -/
structure Spent (n : Nat) (d d' : Disk) : Prop where
  fates : d'.fates = d.fates.drop n
  files : ∀ name, (d'.file? name).isSome = (d.file? name).isSome

theorem Spent.passes {n : Nat} {d' : Disk} (h : Spent n d d') (m : Nat) (hn : d.passes n = true) :
    d'.passes m = d.passes (n + m) := by
  unfold Disk.passes at hn ⊢
  rw [h.fates, List.take_add, List.all_append, hn, Bool.true_and]

theorem passes_of_add {n m : Nat} (h : d.passes (n + m) = true) : d.passes n = true := by
  rw [passes, List.take_add, List.all_append, Bool.and_eq_true] at h
  exact h.1

theorem passes_two (d : Disk) : d.passes 2 = (d.fate.passes && (d.skip 1).fate.passes) := by
  unfold passes fate skip
  cases d.fates with
  | nil => rfl
  | cons f fs => cases fs <;> simp [FileFate.passes]

theorem allows_add (d : Disk) (m n : Nat) : d.allows (m + n) = (d.allows m && (d.skip m).allows n) := by
  rw [allows, List.take_add, List.all_append]
  rfl

theorem allows_one (d : Disk) : d.allows 1 = decide (d.fate = .ok) := by
  unfold allows fate
  cases d.fates with
  | nil => rfl
  | cons f fs => simp

theorem Calm.reliable (h : d.Calm) : d.Reliable := by
  intro written hmem
  rw [show d.fates = [] from h] at hmem
  cases hmem

theorem Reliable.skip (h : d.Reliable) (n : Nat) : (d.skip n).Reliable := fun written hmem =>
  h written (List.mem_of_mem_drop hmem)

theorem Reliable.of_fates {d' : Disk} {n : Nat} (h : d.Reliable) (hfates : d'.fates = d.fates.drop n) : d'.Reliable := by
  intro written hmem
  rw [hfates] at hmem
  exact h.skip n written hmem

/-- On a reliable disk an operation that reports no failure has succeeded. -/
theorem Reliable.passes (h : d.Reliable) (n : Nat) : d.passes n = d.allows n := by
  rw [Bool.eq_iff_iff, Disk.passes, allows, List.all_eq_true, List.all_eq_true]
  refine forall₂_congr fun f hf => ?_
  cases f with
  | ok => exact iff_of_true rfl rfl
  | fail written => exact iff_of_false Bool.false_ne_true Bool.false_ne_true
  | lost written => exact absurd (List.mem_of_mem_take hf) (h written)

/-- `d'` is `d` after `n` completed changes, all of them to the file `name`. -/
structure Writes (name : String) (n : Nat) (d d' : Disk) : Prop where
  fates : d'.fates = d.fates
  dirs : d'.dirs = d.dirs
  others : ∀ p ≠ resolve name, d'.files p = d.files p
  trail : ∃ images, d'.trail = d.trail ++ images ∧ images.length = n ∧
    ∀ image ∈ images, ∀ p ≠ resolve name, image p = d.files p

namespace Writes

theorem refl (name : String) (d : Disk) : Writes name 0 d d :=
  ⟨rfl, rfl, fun _ _ => rfl, [], by simp⟩

theorem put (name : String) (d : Disk) (data : Bytes) : Writes name 1 d (d.put name data) where
  fates := rfl
  dirs := rfl
  others _ hp := Function.update_of_ne hp _ _
  trail := ⟨[(d.put name data).files], rfl, rfl, fun image hi p hp => by
    rw [List.mem_singleton.mp hi]
    exact Function.update_of_ne hp _ _⟩

theorem trans {m n : Nat} {d' d'' : Disk} (h₁ : Writes name m d d') (h₂ : Writes name n d' d'') :
    Writes name (m + n) d d'' where
  fates := h₂.fates.trans h₁.fates
  dirs := h₂.dirs.trans h₁.dirs
  others p hp := (h₂.others p hp).trans (h₁.others p hp)
  trail := by
    obtain ⟨is, h₁t, h₁l, h₁i⟩ := h₁.trail
    obtain ⟨js, h₂t, h₂l, h₂i⟩ := h₂.trail
    refine ⟨is ++ js, by rw [h₂t, h₁t, List.append_assoc], by rw [List.length_append, h₁l, h₂l], ?_⟩
    intro image hi p hp
    rcases List.mem_append.mp hi with hi | hi
    · exact h₁i image hi p hp
    · exact (h₂i image hi p hp).trans (h₁.others p hp)

theorem file?_ne {n : Nat} {d' : Disk} (h : Writes name n d d') {other : String} (hne : resolve other ≠ resolve name) :
    d'.file? other = d.file? other := h.others _ hne

end Writes

/-- No directory is removed. -/
def Grows (d d' : Disk) : Prop := ∀ p, d.dirs p = true → d'.dirs p = true

theorem Grows.of_dirs {d d' : Disk} (h : d'.dirs = d.dirs) : d.Grows d' := fun p hp => by rwa [h]

theorem Grows.trans {d d' d'' : Disk} (h₁ : d.Grows d') (h₂ : d'.Grows d'') : d.Grows d'' := fun p hp => h₂ p (h₁ p hp)

theorem Grows.isDir {d d' : Disk} (h : d.Grows d') {name : String} (hdir : d.isDir name = true) : d'.isDir name = true := by
  simp only [Disk.isDir, Bool.and_eq_true, Bool.or_eq_true] at hdir ⊢
  exact ⟨hdir.1, hdir.2.imp_right (h _)⟩

/-- The disk that a process starting on given files finds. -/
def ofFiles (files : Files) (dirs : Path → Bool) : Disk := { files, dirs }

end Disk

/-! ### Names -/

/-- A piece that is split at the separators: the last part of the left piece joins the first of the right. -/
theorem splitOnP_append (p : Char → Bool) (r : List Char) : ∀ l : List Char, ∃ init last head tail,
    l.splitOnP p = init ++ [last] ∧ r.splitOnP p = head :: tail ∧
      (l ++ r).splitOnP p = init ++ (last ++ head) :: tail
  | [] => by
    obtain ⟨head, tail, hr⟩ := List.exists_cons_of_ne_nil (List.splitOnP_ne_nil p r)
    exact ⟨[], [], head, tail, by simp, hr, by simpa using hr⟩
  | x :: l => by
    obtain ⟨init, last, head, tail, h₁, hr, h₂⟩ := splitOnP_append p r l
    rw [List.cons_append, List.splitOnP_cons_eq_if_modifyHead, List.splitOnP_cons_eq_if_modifyHead, h₁, h₂]
    by_cases hx : p x = true
    · exact ⟨[] :: init, last, head, tail, by simp [hx], hr, by simp [hx]⟩
    · cases init with
      | nil => exact ⟨[], x :: last, head, tail, by simp [hx], hr, by simp [hx]⟩
      | cons i is => exact ⟨(x :: i) :: is, last, head, tail, by simp [hx], hr, by simp [hx]⟩

/-- A name that ends in a long enough suffix: only the last part of the path depends on the suffix. -/
theorem exists_resolve_append (name : String) :
    ∃ absolute init last, ∀ {suffix : String}, '/' ∉ suffix.toList → 1 < suffix.toList.length →
      resolve (name ++ suffix) = ⟨absolute, init ++ [last ++ suffix.toList]⟩ := by
  obtain ⟨init, last, -, -, hname, -⟩ := splitOnP_append (· == '/') [] name.toList
  refine ⟨name.toList.head? == some '/', init.filter fun part => part ≠ [] && part ≠ ['.'], last, fun {suffix} hs hlen => ?_⟩
  obtain ⟨init', last', head, tail, hname', hsuffix, hsplit⟩ := splitOnP_append (· == '/') suffix.toList name.toList
  obtain ⟨rfl, hlast⟩ := List.append_inj' (hname.symm.trans hname') rfl
  obtain rfl := List.singleton_inj.mp hlast
  rw [List.splitOnP_eq_singleton fun c hc => by simpa using fun e : c = '/' => hs (e ▸ hc)] at hsuffix
  obtain ⟨rfl, rfl⟩ := List.cons_eq_cons.mp hsuffix
  have hkeep : (decide (last ++ suffix.toList ≠ []) && decide (last ++ suffix.toList ≠ ['.'])) = true := by
    simp only [Bool.and_eq_true, decide_eq_true_eq]
    constructor
    all_goals
      intro h
      have := congrArg List.length h
      simp only [List.length_append, List.length_cons, List.length_nil] at this
      omega
  have hhead : ((name.toList ++ suffix.toList).head? == some '/') = (name.toList.head? == some '/') := by
    cases hn : name.toList with
    | nil =>
      cases ht : suffix.toList with
      | nil => rfl
      | cons c cs =>
        rw [ht, List.mem_cons, not_or] at hs
        simpa using fun h : c = '/' => hs.1 h.symm
    | cons c cs => rfl
  simp only [resolve, String.toList_append, hsplit, List.filter_append, hhead]
  rw [List.filter_cons_of_pos (by simpa using hkeep), List.filter_nil]

/-- Two suffixes of different length, without `/` and longer than a neutral part, give different files. -/
theorem resolve_append_ne {name s t : String} (hs : '/' ∉ s.toList) (ht : '/' ∉ t.toList)
    (hls : 1 < s.toList.length) (hlt : 1 < t.toList.length) (hne : s.toList.length ≠ t.toList.length) :
    resolve (name ++ s) ≠ resolve (name ++ t) := by
  intro h
  obtain ⟨absolute, init, last, hname⟩ := exists_resolve_append name
  rw [hname hs hls, hname ht hlt, Path.mk.injEq] at h
  have := congrArg List.length (List.append_cancel_left (List.singleton_inj.mp (List.append_cancel_left h.2)))
  exact hne this

/-- A longer name has at least as many parts. -/
theorem length_parts_le (name rest : String) : (resolve name).parts.length ≤ (resolve (name ++ rest)).parts.length := by
  obtain ⟨init, last, head, tail, hname, -, hsplit⟩ := splitOnP_append (· == '/') rest.toList name.toList
  simp only [resolve, String.toList_append, hname, hsplit, List.filter_append, List.length_append]
  refine Nat.add_le_add_left ?_ _
  by_cases hkeep : last ≠ [] ∧ last ≠ ['.']
  · have hkeep' : last ++ head ≠ [] ∧ last ++ head ≠ ['.'] := by
      refine ⟨fun h => hkeep.1 (List.append_eq_nil_iff.mp h).1, fun h => ?_⟩
      rcases List.append_eq_singleton_iff.mp h with ⟨h₁, -⟩ | ⟨h₁, -⟩
      · exact hkeep.1 h₁
      · exact hkeep.2 h₁
    simp [hkeep, hkeep']
  · have : [last].filter (fun part => decide (part ≠ []) && decide (part ≠ ['.'])) = [] := by
      rw [List.filter_eq_nil_iff]
      rintro part hpart
      obtain rfl := List.mem_singleton.mp hpart
      simpa using hkeep
    rw [this]
    exact Nat.zero_le _

/-- Behind a `/` the parts of a name are resolved separately. -/
theorem parts_slash (name rest : String) :
    (resolve (name ++ "/" ++ rest)).parts = (resolve name).parts ++ (resolve rest).parts := by
  obtain ⟨init, last, head, tail, hname, hrest, hsplit⟩ := splitOnP_append (· == '/') ('/' :: rest.toList) name.toList
  rw [List.splitOnP_cons_eq_if_modifyHead] at hrest
  simp only [beq_self_eq_true, if_true, List.cons_eq_cons] at hrest
  obtain ⟨rfl, rfl⟩ := hrest
  have hlist : (name ++ "/" ++ rest).toList = name.toList ++ '/' :: rest.toList := by simp
  rw [List.append_nil, ← List.singleton_append (x := last)] at hsplit
  simp only [resolve, hlist, hname, hsplit, List.filter_append, List.append_assoc]

theorem length_parts_slash (name rest : String) :
    (resolve (name ++ "/" ++ rest)).parts.length = (resolve name).parts.length + (resolve rest).parts.length := by
  rw [parts_slash, List.length_append]

/-- A part without `/` resolves to itself, unless it is neutral. -/
theorem parts_plain (name : String) (h : '/' ∉ name.toList) :
    (resolve name).parts = if name.toList = [] ∨ name.toList = ['.'] then [] else [name.toList] := by
  rw [resolve, List.splitOnP_eq_singleton fun c hc => by simpa using fun e : c = '/' => h (e ▸ hc)]
  split
  · next hneutral =>
    rw [List.filter_cons_of_neg (by simpa [← or_iff_not_imp_left] using hneutral), List.filter_nil]
  · next hneutral =>
    rw [List.filter_cons_of_pos (by simpa using hneutral), List.filter_nil]

/-- A `/` at the end is neutral. -/
theorem resolve_slash {name : String} (h : name ≠ "") : resolve (name ++ "/") = resolve name := by
  obtain ⟨init, last, head, tail, hname, hslash, hsplit⟩ := splitOnP_append (· == '/') ['/'] name.toList
  rw [List.splitOnP_cons_eq_if_modifyHead] at hslash
  simp only [beq_self_eq_true, if_true, List.cons_eq_cons, List.splitOnP_nil] at hslash
  obtain ⟨rfl, rfl⟩ := hslash
  have hlist : (name ++ "/").toList = name.toList ++ ['/'] := by simp
  have hhead : (name.toList ++ ['/']).head? = name.toList.head? := by
    cases hn : name.toList with
    | nil => exact absurd (String.toList_eq_nil_iff.mp hn) h
    | cons c cs => rfl
  have hneutral : [last, []].filter (fun part => decide (part ≠ []) && decide (part ≠ ['.'])) =
      [last].filter (fun part => decide (part ≠ []) && decide (part ≠ ['.'])) := by
    simp [List.filter_cons]
  simp only [resolve, hlist, hhead, hname, hsplit, List.append_nil, List.filter_append, hneutral]

end Lib
