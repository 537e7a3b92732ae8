import HareMQ.Theorems.Recovery

/-! # Creating directories

When `create_dir` creates a path. What `mkdir` does is a parameter: a tree of directories with the documented outcomes
of the call. The disk of the broker is one such tree. -/

namespace HareMQ
open Lib

namespace FileHelper

/-- `pre` is a part of `path` that ends before a `/`. -/
def Above (path pre : List Char) : Prop := ∃ rest, path = pre ++ '/' :: rest

/-- The directories that a path names: its parts up to each `/`, and itself. -/
def PrefixDir (path pre : List Char) : Prop :=
  pre ≠ [] ∧ (Above path pre ∨ pre = path ∧ path.getLast? ≠ some '/')

/-- A file system. A name leads to a place as soon as the directories on the way exist; several names may lead to one
    place, through `.` and `..` or through a link. -/
structure DirTree (σ P : Type) where
  mkdir : σ → String → MkdirResult × σ
  place : String → P
  isDir : σ → P → Prop
  isFile : σ → P → Prop
  /-- There is room, and the process may write. -/
  permitted : σ → Prop
  /-- `ENOENT` -/
  mkdir_empty : ∀ s, mkdir s "" = (.error, s)
  mkdir_isDir : ∀ {s name}, name ≠ "" → (∀ pre, pre ≠ [] → Above name.toList pre → isDir s (place (String.ofList pre))) →
    isDir s (place name) → mkdir s name = (.eexist, s)
  mkdir_new : ∀ {s name}, permitted s → name ≠ "" →
    (∀ pre, pre ≠ [] → Above name.toList pre → isDir s (place (String.ofList pre))) →
      ¬isDir s (place name) → ¬isFile s (place name) → ∃ s', mkdir s name = (.made, s') ∧ permitted s' ∧
        (∀ p, isDir s' p ↔ isDir s p ∨ p = place name) ∧ ∀ p, isFile s' p ↔ isFile s p

variable {σ P : Type} (t : DirTree σ P) {s : σ} {path made rest : List Char}

/-- `create_dir` returned true and the directories of the path exist. -/
structure Created (s : σ) (path : List Char) : Prop where
  ok : (createDirFrom t.mkdir [] s path).1 = true
  dirs : ∀ pre, PrefixDir path pre → t.isDir (createDirFrom t.mkdir [] s path).2 (t.place (String.ofList pre))

/-- The path is relative, and it ends with `/` or names a directory that neither exists nor is one of those above it. -/
def Creatable (s : σ) (path : List Char) : Prop :=
  path.head? ≠ some '/' ∧ (path = [] ∨ path.getLast? = some '/' ∨
    (¬t.isDir s (t.place (String.ofList path)) ∧
      ∀ pre, Above path pre → t.place (String.ofList pre) ≠ t.place (String.ofList path)))

theorem above_snoc {c : Char} (hc : c ≠ '/') {pre : List Char} : Above (made ++ [c]) pre ↔ Above made pre := by
  constructor
  · rintro ⟨rest, heq⟩
    obtain rfl | ⟨init, last, rfl⟩ := List.eq_nil_or_concat rest
    · exact absurd (List.append_inj' heq rfl).2 (by simpa using hc)
    · rw [List.concat_eq_append] at heq
      have hinit : made ++ [c] = (pre ++ '/' :: init) ++ [last] := by simpa using heq
      exact ⟨init, (List.append_inj' hinit rfl).1⟩
  · rintro ⟨rest, rfl⟩
    exact ⟨rest ++ [c], by simp⟩

theorem above_snoc_slash {pre : List Char} : Above (made ++ ['/']) pre ↔ Above made pre ∨ pre = made := by
  constructor
  · rintro ⟨rest, heq⟩
    obtain rfl | ⟨init, last, rfl⟩ := List.eq_nil_or_concat rest
    · exact Or.inr (List.append_inj' heq rfl).1.symm
    · rw [List.concat_eq_append] at heq
      have hinit : made ++ ['/'] = (pre ++ '/' :: init) ++ [last] := by simpa using heq
      exact Or.inl ⟨init, (List.append_inj' hinit rfl).1⟩
  · rintro (⟨rest, rfl⟩ | rfl)
    · exact ⟨rest ++ ['/'], by simp⟩
    · exact ⟨[], rfl⟩

theorem Above.append {pre : List Char} (h : Above made pre) (rest : List Char) : Above (made ++ rest) pre := by
  obtain ⟨tail, rfl⟩ := h
  exact ⟨tail ++ rest, by simp⟩

variable {t} in
/-- One round of the loop: the part before a `/` is a directory afterwards, and nothing else is new. -/
theorem mkdir_round (hs : t.permitted s) (hne : made ≠ []) (hdirs : ∀ pre, Above made pre → t.isDir s (t.place (String.ofList pre)))
    (hfile : ¬t.isFile s (t.place (String.ofList made))) :
    ∃ r s', t.mkdir s (String.ofList made) = (r, s') ∧ (r = .made ↔ ¬t.isDir s (t.place (String.ofList made))) ∧
      r ≠ .error ∧ t.permitted s' ∧ (∀ p, t.isDir s' p ↔ t.isDir s p ∨ p = t.place (String.ofList made)) ∧
        ∀ p, t.isFile s' p ↔ t.isFile s p := by
  have hname : String.ofList made ≠ "" := by
    intro h
    exact hne (by simpa using congrArg String.toList h)
  have habove : ∀ pre, pre ≠ [] → Above (String.ofList made).toList pre → t.isDir s (t.place (String.ofList pre)) := by
    intro pre _ h
    rw [String.toList_ofList] at h
    exact hdirs pre h
  by_cases hdir : t.isDir s (t.place (String.ofList made))
  · refine ⟨.eexist, s, t.mkdir_isDir hname habove hdir, ?_, nofun, hs, fun p => ?_, fun p => Iff.rfl⟩
    · exact iff_of_false nofun (not_not.mpr hdir)
    · constructor
      · exact Or.inl
      · rintro (h | rfl)
        · exact h
        · exact hdir
  · obtain ⟨s', hmk, hs', hdirs', hfiles'⟩ := t.mkdir_new hs hname habove hdir hfile
    exact ⟨.made, s', hmk, iff_of_true rfl hdir, nofun, hs', hdirs', hfiles'⟩

/-- The loop up to the last `/`. -/
theorem createDirFrom_rounds : ∀ (rest made : List Char) (s : σ), t.permitted s → (made ++ rest).head? ≠ some '/' →
    (∀ pre, Above made pre → t.isDir s (t.place (String.ofList pre))) →
    (∀ pre, Above (made ++ rest) pre → ¬t.isFile s (t.place (String.ofList pre))) →
    ∃ s', createDirFrom t.mkdir made s rest = createDirFrom t.mkdir (made ++ rest) s' [] ∧ t.permitted s' ∧
      (∀ p, t.isDir s' p ↔ t.isDir s p ∨ ∃ pre, Above (made ++ rest) pre ∧ p = t.place (String.ofList pre)) ∧
        ∀ p, t.isFile s' p ↔ t.isFile s p
  | [], made, s, hs, _, hdirs, _ => by
    refine ⟨s, by rw [List.append_nil], hs, fun p => ?_, fun p => Iff.rfl⟩
    rw [List.append_nil]
    constructor
    · exact Or.inl
    · rintro (h | ⟨pre, hpre, rfl⟩)
      · exact h
      · exact hdirs pre hpre
  | c :: rest, made, s, hs, hrel, hdirs, hfiles => by
    have hjoin : made ++ c :: rest = (made ++ [c]) ++ rest := by simp
    by_cases hc : c = '/'
    · subst hc
      have hmade : Above (made ++ '/' :: rest) made := ⟨rest, rfl⟩
      have hne : made ≠ [] := by
        rintro rfl
        exact hrel rfl
      obtain ⟨r, s₁, hmk, -, hr, hs₁, hdirs₁, hfiles₁⟩ := mkdir_round hs hne hdirs (hfiles made hmade)
      have hloop : createDirFrom t.mkdir made s ('/' :: rest) = createDirFrom t.mkdir (made ++ ['/']) s₁ rest := by
        simp only [createDirFrom, hmk]
      rw [hjoin] at hrel hfiles ⊢
      obtain ⟨s', hrest, hs', hdirs', hfiles'⟩ := createDirFrom_rounds rest (made ++ ['/']) s₁ hs₁ hrel
        (fun pre hpre => by
          rw [hdirs₁]
          obtain h | rfl := above_snoc_slash.mp hpre
          · exact Or.inl (hdirs pre h)
          · exact Or.inr rfl)
        (fun pre hpre => by
          rw [hfiles₁]
          exact hfiles pre hpre)
      refine ⟨s', hloop.trans hrest, hs', fun p => ?_, fun p => (hfiles' p).trans (hfiles₁ p)⟩
      rw [hdirs', hdirs₁, or_assoc]
      constructor
      · rintro (h | rfl | h)
        · exact Or.inl h
        · exact Or.inr ⟨made, hjoin ▸ hmade, rfl⟩
        · exact Or.inr h
      · rintro (h | h)
        · exact Or.inl h
        · exact Or.inr (Or.inr h)
    · have hloop : createDirFrom t.mkdir made s (c :: rest) = createDirFrom t.mkdir (made ++ [c]) s rest := by
        simp [createDirFrom]
      rw [hloop, hjoin]
      rw [hjoin] at hrel hfiles
      exact createDirFrom_rounds rest (made ++ [c]) s hs hrel (fun pre hpre => hdirs pre ((above_snoc hc).mp hpre)) hfiles

/-- An absolute path starts with the empty name. -/
theorem createDirFrom_absolute (rest : List Char) : (createDirFrom t.mkdir [] s ('/' :: rest)).1 = false := by
  have hempty : t.mkdir s (String.ofList []) = (.error, s) := t.mkdir_empty s
  simp only [createDirFrom, hempty]

theorem created_iff (hs : t.permitted s)
    (hfiles : ∀ pre, PrefixDir path pre → ¬t.isFile s (t.place (String.ofList pre))) :
    Created t s path ↔ Creatable t s path := by
  by_cases habs : path.head? = some '/'
  · obtain ⟨rest, rfl⟩ := List.head?_eq_some_iff.mp habs
    refine iff_of_false (fun h => ?_) (fun h => h.1 habs)
    have hok := h.ok
    rw [createDirFrom_absolute] at hok
    cases hok
  have hne : ∀ pre, Above path pre → pre ≠ [] := by
    rintro pre ⟨rest, heq⟩ rfl
    exact habs (heq ▸ rfl)
  obtain ⟨s', hloop, hs', hdirs', hfiles'⟩ := createDirFrom_rounds t path [] s hs habs
    (by rintro pre ⟨rest, heq⟩; simp at heq) (fun pre hpre => hfiles pre ⟨hne pre hpre, Or.inl hpre⟩)
  rw [List.nil_append] at hloop hdirs'
  have habove : ∀ pre, Above path pre → t.isDir s' (t.place (String.ofList pre)) := fun pre hpre =>
    (hdirs' _).mpr (Or.inr ⟨pre, hpre, rfl⟩)
  by_cases hend : path = [] ∨ path.getLast? = some '/'
  · have hdone : createDirFrom t.mkdir path s' [] = (true, s') := by
      obtain h | h := hend
      · simp [createDirFrom, h]
      · simp [createDirFrom, h]
    refine iff_of_true ⟨by rw [hloop, hdone], ?_⟩ ⟨habs, or_assoc.mp (Or.inl hend)⟩
    rintro pre ⟨hpre, habove' | ⟨rfl, hlast⟩⟩
    · rw [hloop, hdone]
      exact habove pre habove'
    · exact absurd hend (not_or.mpr ⟨hpre, hlast⟩)
  · obtain ⟨hpath, hlast⟩ := not_or.mp hend
    have hself : PrefixDir path path := ⟨hpath, Or.inr ⟨rfl, hlast⟩⟩
    obtain ⟨r, s₁, hmk, hr, -, -, hdirs₁, -⟩ := mkdir_round hs' hpath habove
      (fun h => hfiles path hself ((hfiles' _).mp h))
    have hnew : ¬t.isDir s' (t.place (String.ofList path)) ↔ ¬t.isDir s (t.place (String.ofList path)) ∧
        ∀ pre, Above path pre → t.place (String.ofList pre) ≠ t.place (String.ofList path) := by
      rw [hdirs', not_or]
      refine and_congr_right fun _ => ⟨fun h pre hpre heq => h ⟨pre, hpre, heq.symm⟩, ?_⟩
      rintro h ⟨pre, hpre, heq⟩
      exact h pre hpre heq.symm
    have hdone : createDirFrom t.mkdir path s' [] = (decide (r = .made), s₁) := by
      simp only [createDirFrom, hmk]
      have hempty : path.isEmpty = false := by simpa using hpath
      cases r <;> simp [hempty, hlast]
    have hcreatable : Creatable t s path ↔ r = .made := by
      rw [hr, hnew, Creatable]
      exact ⟨fun h => (h.2.resolve_left hpath).resolve_left hlast, fun h => ⟨habs, Or.inr (Or.inr h)⟩⟩
    rw [hcreatable]
    constructor
    · intro h
      have hok := h.ok
      rw [hloop, hdone] at hok
      exact of_decide_eq_true hok
    · intro h
      refine ⟨by rw [hloop, hdone, h]; rfl, ?_⟩
      rintro pre ⟨-, hpre | ⟨rfl, -⟩⟩
      · rw [hloop, hdone, hdirs₁]
        exact Or.inl (habove pre hpre)
      · rw [hloop, hdone, hdirs₁]
        exact Or.inr rfl

/-! ### The disk of the broker -/

/-- A name is at its own place or at the one of its directory, or one part below that. -/
theorem resolve_slash_last {pre last : List Char} (hpre : pre ≠ []) (hlast : '/' ∉ last) :
    resolve (String.ofList (pre ++ '/' :: last)) = resolve (String.ofList pre) ∨
      resolve (String.ofList (pre ++ '/' :: last)) =
        { resolve (String.ofList pre) with parts := (resolve (String.ofList pre)).parts ++ [last] } := by
  have hname : String.ofList (pre ++ '/' :: last) = String.ofList pre ++ "/" ++ String.ofList last := by
    rw [← String.toList_inj]
    simp
  have habs : (resolve (String.ofList (pre ++ '/' :: last))).absolute = (resolve (String.ofList pre)).absolute := by
    obtain ⟨c, cs, rfl⟩ := List.exists_cons_of_ne_nil hpre
    simp [resolve]
  have hparts := parts_slash (String.ofList pre) (String.ofList last)
  have hplain := parts_plain (String.ofList last) (by rwa [String.toList_ofList])
  rw [← hname, hplain, String.toList_ofList] at hparts
  generalize resolve (String.ofList (pre ++ '/' :: last)) = path at habs hparts ⊢
  obtain ⟨absolute, parts⟩ := path
  dsimp only at habs hparts
  subst habs
  rw [hparts]
  split
  · left
    rw [List.append_nil]
  · right
    rfl

/-- The directory in which `mkdir` looks for the parent of a new name. -/
theorem parent_exists {d : Disk} {name : String}
    (habove : ∀ pre, pre ≠ [] → Above name.toList pre →
      (resolve (String.ofList pre)).parts.isEmpty = true ∨ d.dirs (resolve (String.ofList pre)) = true)
    (hnew : ¬((resolve name).parts.isEmpty = true ∨ d.dirs (resolve name) = true)) :
    (resolve name).parts.dropLast.isEmpty = true ∨
      d.dirs { resolve name with parts := (resolve name).parts.dropLast } = true := by
  by_cases hslash : '/' ∈ name.toList
  · obtain ⟨behind, before, hrev, hbehind⟩ := List.eq_append_cons_of_mem (List.mem_reverse.mpr hslash)
    have hname : name = String.ofList (before.reverse ++ '/' :: behind.reverse) := by
      rw [← String.toList_inj, String.toList_ofList, ← List.reverse_inj, hrev]
      simp
    rw [← List.mem_reverse] at hbehind
    by_cases hpre : before.reverse = []
    · left
      have hparts := parts_slash "" (String.ofList behind.reverse)
      have hroot : "" ++ "/" ++ String.ofList behind.reverse = name := by
        rw [hname, hpre, ← String.toList_inj]
        simp
      have hplain := parts_plain (String.ofList behind.reverse) (by rwa [String.toList_ofList])
      rw [hroot, hplain, show (resolve "").parts = [] from by decide, List.nil_append] at hparts
      rw [hparts]
      split <;> rfl
    · have hdir := habove before.reverse hpre ⟨behind.reverse, by rw [hname, String.toList_ofList]⟩
      obtain heq | heq := resolve_slash_last hpre hbehind
      · rw [← hname] at heq
        exact absurd (heq ▸ hdir) hnew
      · rw [← hname] at heq
        rw [heq, List.dropLast_concat]
        exact hdir
  · left
    rw [parts_plain name hslash]
    split <;> rfl

theorem mkdir_of_new {d : Disk} (hd : d.Calm) {name : String} (hne : name ≠ "")
    (habove : ∀ pre, pre ≠ [] → Above name.toList pre →
      (resolve (String.ofList pre)).parts.isEmpty = true ∨ d.dirs (resolve (String.ofList pre)) = true)
    (hdir : ¬((resolve name).parts.isEmpty = true ∨ d.dirs (resolve name) = true))
    (hfile : ¬(d.files (resolve name)).isSome = true) :
    mkdir d name = (.made, { d.tick with dirs := Function.update d.dirs (resolve name) true }) := by
  have hdir' : d.isDir name = false := by simpa [Disk.isDir, hne] using hdir
  have hfile' : d.file? name = none := Option.not_isSome_iff_eq_none.mp hfile
  have hex : exists? d name = false := by simp [exists?, hdir', hfile']
  have hparent : (!((resolve name).parts.dropLast.isEmpty ||
      d.dirs { resolve name with parts := (resolve name).parts.dropLast })) = false := by
    rw [Bool.not_eq_false', Bool.or_eq_true]
    exact parent_exists habove hdir
  simp only [mkdir, hne, if_false, hex, Bool.false_eq_true, hparent, hd.fate]

/-- The disk, where names resolve lexically. -/
def diskTree : DirTree Disk Path where
  mkdir := mkdir
  place := resolve
  isDir d p := p.parts.isEmpty = true ∨ d.dirs p = true
  isFile d p := (d.files p).isSome = true
  permitted := Disk.Calm
  mkdir_empty d := by
    simp [mkdir]
  mkdir_isDir {d name} hne _ hdir := by
    have hdir' : d.isDir name = true := by simpa [Disk.isDir, hne] using hdir
    have hex : exists? d name = true := by simp [exists?, hne, hdir']
    simp [mkdir, hne, hex]
  mkdir_new {d name} hd hne habove hdir hfile := by
    refine ⟨_, mkdir_of_new hd hne habove hdir hfile, hd.tick.symm ▸ hd, fun p => ?_, fun p => Iff.rfl⟩
    by_cases hp : p = resolve name
    · simp [hp]
    · simp [hp]

end FileHelper

namespace MessageMapper
open FileHelper

/-- A new object finds its directory or creates it, unless the name is absolute. -/
theorem new_isSome_iff {d : Disk} (hd : d.Calm) (baseDir qname : String)
    (hfiles : ∀ pre, PrefixDir (directory baseDir).toList pre → d.file? (String.ofList pre) = none) :
    (new d baseDir qname).isSome = true ↔
      exists? d (directory baseDir) = true ∨ (directory baseDir).toList.head? ≠ some '/' := by
  have hslash : (directory baseDir).toList.getLast? = some '/' := by
    obtain ⟨name, hname⟩ := exists_directory_eq baseDir
    rw [hname, String.toList_append]
    exact List.getLast?_concat
  have hiff := created_iff diskTree hd fun pre hpre => Option.not_isSome_iff_eq_none.mpr (hfiles pre hpre)
  have hok : (createDir d (directory baseDir)).1 = true ↔ (directory baseDir).toList.head? ≠ some '/' := by
    constructor
    · intro h habs
      obtain ⟨rest, hrest⟩ := List.head?_eq_some_iff.mp habs
      have hfalse := createDirFrom_absolute diskTree (s := d) rest
      rw [← hrest] at hfalse
      exact absurd (h.symm.trans hfalse) (by decide)
    · intro h
      exact (hiff.mpr ⟨h, Or.inr (Or.inl hslash)⟩).ok
  rw [← hok, new]
  by_cases hex : exists? d (directory baseDir) = true
  · simp [hex]
  · obtain ⟨ok, d', hcreate⟩ : ∃ ok d', createDir d (directory baseDir) = (ok, d') := ⟨_, _, rfl⟩
    cases ok with
    | false => simp [hex, hcreate]
    | true => simp [hex, hcreate]

end MessageMapper

namespace FileHelper

/-- A working directory with nothing in it. -/
def blankDisk : Disk := .ofFiles (fun _ => none) fun _ => false

/-- A relative path and a new last part. -/
theorem created_iff_blank : Created diskTree blankDisk "./data".toList ↔ Creatable diskTree blankDisk "./data".toList :=
  created_iff diskTree rfl fun _ _ => by simp [diskTree, blankDisk, Disk.ofFiles]

/-- An absolute path cannot be created, so that the broker aborts. A path that exists cannot be created either: that is
    what the second of the three mappers of a new broker tries. -/
theorem not_created : ¬Created diskTree blankDisk "/data/message/".toList ∧ MessageMapper.new blankDisk "/data/message" "q" = none ∧
    ¬Created diskTree (createDir blankDisk (parentDir "./data/meta.db")).2 (parentDir "./data/meta.db").toList := by
  refine ⟨fun h => ?_, ?_, fun h => ?_⟩
  · exact absurd h.ok (by decide +kernel)
  · rfl
  · exact absurd h.ok (by decide +kernel)

end FileHelper
end HareMQ
