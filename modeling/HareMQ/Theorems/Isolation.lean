import HareMQ.Codec
import HareMQ.Storage
import HareMQ.Theorems.Footprint
import HareMQ.Theorems.Recovery
import Mathlib.Data.List.Infix

/-! # Queues in one directory

The files of a queue are named by its name. Two queues are isolated from each other exactly when their names
stand for different data files. -/

namespace HareMQ
open Lib

variable (pb : PayloadCodec)

namespace Storage

/-- What is done to `q₁` after both queues were declared does not matter for what a restart recovers for `q₂`. No file is
in the place of the directory at the start. -/
def Isolated (baseDir q₁ q₂ : String) : Prop :=
  ∀ (d : Disk) (before ops : List StorageOp) (s s' : Storage),
    d.files (realpath (MessageMapper.directory baseDir)) = none →
    Lib.run (step pb) { mmp := { baseDir }, disk := d } before = some s → q₁ ∈ s.mmp.queueMsgs → q₂ ∈ s.mmp.queueMsgs →
    (∀ op ∈ ops, op.concerns q₁ = true) → Lib.run (step pb) s ops = some s' →
    ∀ fates, s'.recovers pb q₂ fates = s.recovers pb q₂ fates

end Storage

/-! ### The directory -/

namespace FileHelper

/-- A path that ends in `/` is created by a last call for what is before it. -/
theorem createDirFrom_last {σ : Type} {mkdir : σ → String → MkdirResult × σ} {kept : σ → Prop}
    (hkept : ∀ s name, kept s → kept (mkdir s name).2) : ∀ (cs made : List Char) {s s' : σ}, kept s →
      createDirFrom mkdir made s (cs ++ ['/']) = (true, s') →
      ∃ s₀ r, kept s₀ ∧ mkdir s₀ (String.ofList (made ++ cs)) = (r, s') ∧ r ≠ .error
  | [], made, s, s', hs, h => by
    rw [List.nil_append] at h
    rw [List.append_nil]
    obtain ⟨⟨r, s₁⟩, hmk⟩ : ∃ x, mkdir s (String.ofList made) = x := ⟨_, rfl⟩
    simp only [createDirFrom, hmk] at h
    cases r with
    | error => cases h
    | made =>
      simp only [List.getLast?_concat, decide_true, Bool.or_true, if_true, Prod.mk.injEq, true_and] at h
      exact ⟨s, .made, hs, h ▸ hmk, MkdirResult.noConfusion⟩
    | eexist =>
      simp only [List.getLast?_concat, decide_true, Bool.or_true, if_true, Prod.mk.injEq, true_and] at h
      exact ⟨s, .eexist, hs, h ▸ hmk, MkdirResult.noConfusion⟩
  | c :: cs, made, s, s', hs, h => by
    have hjoin : made ++ c :: cs = made ++ [c] ++ cs := by rw [List.append_assoc, List.singleton_append]
    rw [hjoin]
    rw [List.cons_append] at h
    by_cases hc : c = '/'
    · subst hc
      obtain ⟨⟨r, s₁⟩, hmk⟩ : ∃ x, mkdir s (String.ofList made) = x := ⟨_, rfl⟩
      have hs₁ : kept s₁ := by
        have := hkept s (String.ofList made) hs
        rwa [hmk] at this
      simp only [createDirFrom, hmk] at h
      cases r with
      | error => cases h
      | made => exact createDirFrom_last hkept cs _ hs₁ h
      | eexist => exact createDirFrom_last hkept cs _ hs₁ h
    · simp only [createDirFrom] at h
      exact createDirFrom_last hkept cs _ hs h

end FileHelper

namespace MessageMapper
variable {d d' : Disk} {baseDir qname qname' : String}

theorem paths_found (baseDir qname : String) : (found baseDir qname).paths =
    [realpath (files baseDir qname).dataFile, realpath (files baseDir qname).tmpFile] := by
  rw [paths, found, resolve_canonical, resolve_canonical]

theorem file?_found : d.file? (found baseDir qname).dataFile = d.files (realpath (files baseDir qname).dataFile) := by
  rw [Disk.file?, found, resolve_canonical]

theorem exists?_of_isDir {name : String} (h : d.isDir name = true) : FileHelper.exists? d name = true := by
  have hname : name ≠ "" := by
    rintro rfl
    cases h
  rw [FileHelper.exists?, h, Bool.or_true, Bool.and_true]
  exact decide_eq_true hname

/-- The constructor in an existing directory. -/
theorem newFound_of_isDir (h : d.isDir (canonical (directory baseDir)) = true) :
    newFound d baseDir qname = some (found baseDir qname, ((found baseDir qname).createMsgFile d).2) := by
  rw [newFound, if_pos (exists?_of_isDir h)]

/-- After the constructor the directory exists, and the files are those of the queue. -/
theorem newFound_spec {m : MessageMapper} (hplace : d.files (realpath (directory baseDir)) = none)
    (h : newFound d baseDir qname = some (m, d')) :
    m = found baseDir qname ∧ d'.isDir (canonical (directory baseDir)) = true := by
  by_cases hdir : d.isDir (canonical (directory baseDir)) = true
  · rw [newFound_of_isDir hdir] at h
    cases h
    exact ⟨rfl, (Disk.isDir_congr (createMsgFile_only _ d).dirs _).trans hdir⟩
  · have hex : FileHelper.exists? d (canonical (directory baseDir)) = false := by
      rw [FileHelper.exists?, Disk.file?, resolve_canonical, hplace, Bool.eq_false_iff.mpr hdir, Option.isSome_none,
        Bool.or_self, Bool.and_false]
    obtain ⟨name, hname⟩ := exists_directory_eq baseDir
    obtain ⟨⟨ok, d₁⟩, hmk⟩ : ∃ x, FileHelper.createDirFrom (fun d name => FileHelper.mkdir d (canonical name)) [] d
      (directory baseDir).toList = x := ⟨_, rfl⟩
    simp only [newFound, hex, Bool.false_eq_true, if_false, hmk] at h
    cases ok with
    | false => cases h
    | true =>
      cases h
      refine ⟨rfl, (Disk.isDir_congr (createMsgFile_only _ d₁).dirs _).trans ?_⟩
      have hlist : (directory baseDir).toList = name.toList ++ ['/'] := by rw [hname, String.toList_append]; rfl
      rw [hlist] at hmk
      have hkept : ∀ (d₀ : Disk) (name : String), d₀.files = d.files →
          (FileHelper.mkdir d₀ (canonical name)).2.files = d.files := by
        intro d₀ name hd₀
        obtain ⟨r, d₂, hr, hmkdirs, -⟩ := FileHelper.mkdir_spec d₀ (canonical name)
        rw [hr]
        exact hmkdirs.files.trans hd₀
      obtain ⟨d₀, r, hd₀, hlast, hr⟩ := FileHelper.createDirFrom_last hkept name.toList [] rfl hmk
      obtain ⟨r', d₂, hmkdir, hmkdirs, hexists⟩ := FileHelper.mkdir_spec d₀ (canonical name)
      rw [List.nil_append, String.ofList_toList, hmkdir, Prod.mk.injEq] at hlast
      obtain ⟨rfl, rfl⟩ := hlast
      have hexists := hexists hr
      have hcanonical : canonical name ≠ "" := by
        intro heq
        rw [heq] at hexists
        cases hexists
      have hsame : realpath (directory baseDir) = realpath name := by
        rw [hname]
        exact realpath_slash (cString_ne_of_canonical hcanonical)
      rw [FileHelper.exists?, Disk.file?, resolve_canonical, ← hsame, hmkdirs.files.trans hd₀, hplace, Option.isSome_none,
        Bool.false_or, Bool.and_eq_true, Disk.isDir, resolve_canonical, ← hsame, Bool.and_eq_true] at hexists
      rw [Disk.isDir, resolve_canonical, hexists.2.2, Bool.and_true]
      refine decide_eq_true ?_
      rw [hname]
      exact canonical_slash_ne (cString_ne_of_canonical hcanonical)

end MessageMapper

/-! ### Calls -/

/-- Every queue has the files of its name. -/
def Named (m : MessageManager) : Prop :=
  ∀ qname qmp, m.queueMsgs.lookup qname = some qmp → qmp.mapper = .found m.baseDir qname

section
variable {pb} {m m' : MessageManager} {d d' : Disk} {qname : String} {qmp qmp' : QueueMessage}

theorem Named.put (h : Named m) (hlookup : m.queueMsgs.lookup qname = some qmp) (hmapper : qmp'.mapper = qmp.mapper) :
    Named (m.put qname qmp') := by
  intro name q hq
  rw [MessageManager.put, UMap.lookup_insert] at hq
  split at hq
  · next heq =>
    cases hq
    rw [hmapper, heq]
    exact h _ _ hlookup
  · exact h _ _ hq

theorem Named.emplace (h : Named m) (hmapper : qmp.mapper = .found m.baseDir qname) :
    Named { m with queueMsgs := m.queueMsgs.emplace qname qmp } := by
  intro name q hq
  obtain hq | ⟨rfl, -, rfl⟩ := UMap.lookup_emplace_eq_some hq
  · exact h _ _ hq
  · exact hmapper

theorem Named.erase (h : Named m) : Named { m with queueMsgs := m.queueMsgs.erase qname } := fun name q hq =>
  h name q (UMap.lookup_erase_eq_some hq).2

variable (pb) in
theorem QueueMessage.recovery_mapper (mapper : MessageMapper) (d : Disk) :
    (({ mapper } : QueueMessage).recovery pb d).1.mapper = mapper :=
  (QueueMessage.foldl_adopt_keeps (mapper.gc pb d).1 { mapper } nofun).1

/-- What a call in an existing directory keeps, and the files it may change. -/
structure Touches (qname : String) (m m' : MessageManager) (d d' : Disk) : Prop where
  base : m'.baseDir = m.baseDir
  named : Named m'
  only : d.Only (MessageMapper.found m.baseDir qname).paths d'

theorem Touches.refl (h : Named m) (qname : String) (d : Disk) : Touches qname m m d d := ⟨rfl, h, .refl _ d⟩

theorem initFound_touches (h : Named m) (hdir : d.isDir (canonical (MessageMapper.directory m.baseDir)) = true)
    (hinit : m.initFound pb qname d = some (m', d')) : Touches qname m m' d d' := by
  unfold MessageManager.initFound at hinit
  cases hlookup : m.queueMsgs.lookup qname with
  | some qmp =>
    simp only [hlookup, Option.some.injEq, Prod.mk.injEq] at hinit
    obtain ⟨rfl, rfl⟩ := hinit
    exact .refl h qname d
  | none =>
    have hcreate := MessageMapper.createMsgFile_only (.found m.baseDir qname) d
    obtain ⟨d₁, hd₁⟩ : ∃ d₁, ((MessageMapper.found m.baseDir qname).createMsgFile d).2 = d₁ := ⟨_, rfl⟩
    have hmapper := QueueMessage.recovery_mapper pb (.found m.baseDir qname) d₁
    have hrecovery := QueueMessage.recovery_only pb { mapper := .found m.baseDir qname } d₁
    obtain ⟨⟨qmp, d₂⟩, hrec⟩ : ∃ x, ({ mapper := .found m.baseDir qname } : QueueMessage).recovery pb d₁ = x := ⟨_, rfl⟩
    rw [hd₁] at hcreate
    rw [hrec] at hmapper hrecovery
    simp only [hlookup, MessageMapper.newFound_of_isDir hdir, hd₁, hrec, Option.some.injEq, Prod.mk.injEq] at hinit
    obtain ⟨rfl, rfl⟩ := hinit
    exact ⟨rfl, h.emplace hmapper, hcreate.trans hrecovery⟩

theorem destroyQueueMsg_touches (h : Named m) (hdestroy : m.destroyQueueMsg qname d = (m', d')) :
    Touches qname m m' d d' := by
  unfold MessageManager.destroyQueueMsg at hdestroy
  cases hlookup : m.queueMsgs.lookup qname with
  | none =>
    simp only [hlookup, Prod.mk.injEq] at hdestroy
    obtain ⟨rfl, rfl⟩ := hdestroy
    exact .refl h qname d
  | some qmp =>
    simp only [hlookup, Prod.mk.injEq] at hdestroy
    obtain ⟨rfl, rfl⟩ := hdestroy
    exact ⟨rfl, h.erase, h _ _ hlookup ▸ qmp.clear_only d⟩

theorem insert_touches (h : Named m) {bp : Option BasicProperties} {uuid body : String} {queueDurable ok : Bool}
    (hinsert : m.insert pb qname bp uuid body queueDurable d = (ok, m', d')) : Touches qname m m' d d' := by
  unfold MessageManager.insert at hinsert
  cases hlookup : m.queueMsgs.lookup qname with
  | none =>
    simp only [hlookup, Prod.mk.injEq] at hinsert
    obtain ⟨-, rfl, rfl⟩ := hinsert
    exact .refl h qname d
  | some qmp =>
    have hmapper := qmp.insert_mapper pb bp uuid body queueDurable d
    have honly := qmp.insert_only pb bp uuid body queueDurable d
    obtain ⟨⟨ok', qmp', d₁⟩, hins⟩ : ∃ x, qmp.insert pb bp uuid body queueDurable d = x := ⟨_, rfl⟩
    rw [hins] at hmapper honly
    simp only [hlookup, hins, Prod.mk.injEq] at hinsert
    obtain ⟨-, rfl, rfl⟩ := hinsert
    exact ⟨rfl, h.put hlookup hmapper, h _ _ hlookup ▸ honly⟩

theorem front_touches (h : Named m) {r : Option Ref} (hfront : m.front qname = (r, m')) (d : Disk) :
    Touches qname m m' d d := by
  unfold MessageManager.front at hfront
  cases hlookup : m.queueMsgs.lookup qname with
  | none =>
    simp only [hlookup, Prod.mk.injEq] at hfront
    obtain ⟨-, rfl⟩ := hfront
    exact .refl h qname d
  | some qmp =>
    simp only [hlookup, Prod.mk.injEq] at hfront
    obtain ⟨-, rfl⟩ := hfront
    exact ⟨rfl, h.put hlookup qmp.front_mapper, .refl _ d⟩

theorem ack_touches (h : Named m) {msgId : String} (hack : m.ack pb qname msgId d = some (m', d')) :
    Touches qname m m' d d' := by
  unfold MessageManager.ack at hack
  cases hlookup : m.queueMsgs.lookup qname with
  | none =>
    simp only [hlookup, Option.some.injEq, Prod.mk.injEq] at hack
    obtain ⟨rfl, rfl⟩ := hack
    exact .refl h qname d
  | some qmp =>
    simp only [hlookup] at hack
    cases hremove : qmp.remove pb msgId d with
    | none =>
      rw [hremove] at hack
      cases hack
    | some r =>
      obtain ⟨qmp', d₁⟩ := r
      simp only [hremove, Option.some.injEq, Prod.mk.injEq] at hack
      obtain ⟨rfl, rfl⟩ := hack
      exact ⟨rfl, h.put hlookup (qmp.remove_mapper pb hremove), h _ _ hlookup ▸ qmp.remove_only pb hremove⟩

/-- A call in an existing directory changes the files of its queue only. -/
theorem step_touches {s s' : Storage} (h : Named s.mmp)
    (hdir : s.disk.isDir (canonical (MessageMapper.directory s.mmp.baseDir)) = true) {c : MessageCall}
    (hstep : s.step pb (.call c) = some s') : Touches c.qname s.mmp s'.mmp s.disk s'.disk := by
  cases c with
  | initQueueMsg qname =>
    simp only [Storage.step] at hstep
    split at hstep
    · cases hstep
    · next hinit =>
      cases hstep
      exact initFound_touches h hdir hinit
  | destroyQueueMsg qname =>
    simp only [Storage.step, MessageManager.call, Option.some.injEq] at hstep
    cases hstep
    exact destroyQueueMsg_touches h rfl
  | insert qname bp uuid body queueDurable =>
    simp only [Storage.step, MessageManager.call, Option.some.injEq] at hstep
    cases hstep
    exact insert_touches h rfl
  | front qname =>
    obtain ⟨⟨r, m₁⟩, hfront⟩ : ∃ x, s.mmp.front qname = x := ⟨_, rfl⟩
    simp only [Storage.step, MessageManager.call, hfront, Option.some.injEq] at hstep
    cases hstep
    exact front_touches h hfront s.disk
  | ack qname msgId =>
    simp only [Storage.step, MessageManager.call] at hstep
    cases hack : s.mmp.ack pb qname msgId s.disk with
    | none =>
      rw [hack] at hstep
      cases hstep
    | some r =>
      rw [hack] at hstep
      cases hstep
      exact ack_touches h hack

/-! ### Runs -/

/-- A call on a queue that is not declared declares it, or does nothing. -/
theorem step_absent {s s' : Storage} {c : MessageCall} (hnone : s.mmp.queueMsgs.lookup c.qname = none)
    (hstep : s.step pb (.call c) = some s') :
    s.mmp.initFound pb c.qname s.disk = some (s'.mmp, s'.disk) ∨ s' = s := by
  cases c with
  | initQueueMsg qname =>
    simp only [Storage.step] at hstep
    split at hstep
    · cases hstep
    · next hinit =>
      cases hstep
      exact Or.inl hinit
  | destroyQueueMsg qname =>
    have hnone : s.mmp.queueMsgs.lookup qname = none := hnone
    simp only [Storage.step, MessageManager.call, MessageManager.destroyQueueMsg, hnone, Option.some.injEq] at hstep
    exact Or.inr hstep.symm
  | insert qname bp uuid body queueDurable =>
    have hnone : s.mmp.queueMsgs.lookup qname = none := hnone
    simp only [Storage.step, MessageManager.call, MessageManager.insert, hnone, Option.some.injEq] at hstep
    exact Or.inr hstep.symm
  | front qname =>
    have hnone : s.mmp.queueMsgs.lookup qname = none := hnone
    simp only [Storage.step, MessageManager.call, MessageManager.front, hnone, Option.some.injEq] at hstep
    exact Or.inr hstep.symm
  | ack qname msgId =>
    have hnone : s.mmp.queueMsgs.lookup qname = none := hnone
    simp only [Storage.step, MessageManager.call, MessageManager.ack, hnone, Option.map_some, Option.some.injEq] at hstep
    exact Or.inr hstep.symm

/-- The first declaration creates the directory. -/
theorem initFound_creates (h : Named m) (hplace : d.files (realpath (MessageMapper.directory m.baseDir)) = none)
    (hnone : m.queueMsgs.lookup qname = none) (hinit : m.initFound pb qname d = some (m', d')) :
    m'.baseDir = m.baseDir ∧ Named m' ∧ d'.isDir (canonical (MessageMapper.directory m.baseDir)) = true := by
  unfold MessageManager.initFound at hinit
  cases hnew : MessageMapper.newFound d m.baseDir qname with
  | none => simp [hnone, hnew] at hinit
  | some r =>
    obtain ⟨mapper, d₁⟩ := r
    obtain ⟨rfl, hdir⟩ := MessageMapper.newFound_spec hplace hnew
    have hmapper := QueueMessage.recovery_mapper pb (.found m.baseDir qname) d₁
    have hrecovery := QueueMessage.recovery_only pb { mapper := .found m.baseDir qname } d₁
    obtain ⟨⟨qmp, d₂⟩, hrec⟩ : ∃ x, ({ mapper := .found m.baseDir qname } : QueueMessage).recovery pb d₁ = x := ⟨_, rfl⟩
    rw [hrec] at hmapper hrecovery
    simp only [hnone, hnew, hrec, Option.some.injEq, Prod.mk.injEq] at hinit
    obtain ⟨rfl, rfl⟩ := hinit
    exact ⟨rfl, h.emplace hmapper, (Disk.isDir_congr hrecovery.dirs _).trans hdir⟩

end

namespace Storage
variable {pb} {s s' : Storage} {op : StorageOp} {baseDir q₁ q₂ : String}

/-- Every queue has the files of its name. The directory exists, or no queue is declared yet. -/
structure Housed (baseDir : String) (s : Storage) : Prop where
  base : s.mmp.baseDir = baseDir
  named : Named s.mmp
  dir : s.disk.isDir (canonical (MessageMapper.directory baseDir)) = true ∨
    s.disk.files (realpath (MessageMapper.directory baseDir)) = none ∧ ∀ qname, s.mmp.queueMsgs.lookup qname = none

theorem Housed.start {d : Disk} (hplace : d.files (realpath (MessageMapper.directory baseDir)) = none) :
    Housed baseDir { mmp := { baseDir }, disk := d } := by
  refine ⟨rfl, fun qname qmp hq => ?_, Or.inr ⟨hplace, fun qname => AList.lookup_empty qname⟩⟩
  rw [AList.lookup_empty] at hq
  cases hq

theorem Housed.isDir (h : s.Housed baseDir) {qname : String} (hq : qname ∈ s.mmp.queueMsgs) :
    s.disk.isDir (canonical (MessageMapper.directory baseDir)) = true :=
  h.dir.resolve_right fun ⟨_, hnone⟩ => AList.lookup_eq_none.mp (hnone qname) hq

theorem Housed.step (h : s.Housed baseDir) (hstep : s.step pb op = some s') : s'.Housed baseDir := by
  obtain rfl := h.base
  cases op with
  | restart =>
    cases hstep
    refine ⟨rfl, fun qname qmp hq => ?_, h.dir.imp_right fun ⟨hplace, _⟩ => ⟨hplace, fun qname => AList.lookup_empty qname⟩⟩
    rw [AList.lookup_empty] at hq
    cases hq
  | call c =>
    obtain hdir | ⟨hplace, hempty⟩ := h.dir
    · have htouches := step_touches h.named hdir hstep
      exact ⟨htouches.base, htouches.named, Or.inl ((Disk.isDir_congr htouches.only.dirs _).trans hdir)⟩
    · obtain hinit | rfl := step_absent (hempty _) hstep
      · obtain ⟨hbase, hnamed, hdir⟩ := initFound_creates h.named hplace (hempty _) hinit
        exact ⟨hbase, hnamed, Or.inl hdir⟩
      · exact h

/-- A run on one queue changes the files of this queue only. -/
theorem Housed.run_only (h : s.Housed baseDir) (hdir : s.disk.isDir (canonical (MessageMapper.directory baseDir)) = true)
    {ops : List StorageOp} (hops : ∀ op ∈ ops, op.concerns q₁ = true) (hrun : Lib.run (Storage.step pb) s ops = some s') :
    s'.Housed baseDir ∧ s.disk.Only (MessageMapper.found baseDir q₁).paths s'.disk := by
  induction ops generalizing s with
  | nil =>
    cases hrun
    exact ⟨h, .refl _ _⟩
  | cons op ops ih =>
    obtain ⟨s₁, hstep, hrest⟩ := run_cons_eq_some hrun
    have h₁ := h.step hstep
    have honly : s.disk.Only (MessageMapper.found baseDir q₁).paths s₁.disk := by
      cases op with
      | restart =>
        cases hstep
        exact .refl _ _
      | call c =>
        obtain rfl : c.qname = q₁ := of_decide_eq_true (hops _ List.mem_cons_self)
        have htouches := step_touches h.named (h.base.symm ▸ hdir) hstep
        exact h.base ▸ htouches.only
    obtain ⟨h', honly'⟩ := ih h₁ ((Disk.isDir_congr honly.dirs _).trans hdir)
      (fun op hop => hops op (List.mem_cons_of_mem _ hop)) hrest
    exact ⟨h', honly.trans honly'⟩

/-- What a restart recovers depends on the files of the queue alone, once the directory is there. -/
theorem recovers_agree {fates : List FileFate} (hbase : s.mmp.baseDir = baseDir) (hbase' : s'.mmp.baseDir = baseDir)
    (hdir : s.disk.isDir (canonical (MessageMapper.directory baseDir)) = true)
    (h : Disk.Agree (MessageMapper.found baseDir q₂).paths { s.disk with fates } { s'.disk with fates }) :
    s'.recovers pb q₂ fates = s.recovers pb q₂ fates := by
  have hdir₁ : Disk.isDir { s.disk with fates } (canonical (MessageMapper.directory baseDir)) = true := hdir
  have hdir₂ : Disk.isDir { s'.disk with fates } (canonical (MessageMapper.directory baseDir)) = true :=
    (Disk.isDir_congr h.dirs.symm _).trans hdir₁
  have hcreate := MessageMapper.createMsgFile_agree h (MessageMapper.dataFile_mem (MessageMapper.found baseDir q₂))
  obtain ⟨lst, d₁, d₂, hgc₁, hgc₂, -⟩ := MessageMapper.gc_agree pb hcreate
    (MessageMapper.dataFile_mem (MessageMapper.found baseDir q₂)) (MessageMapper.tmpFile_mem (MessageMapper.found baseDir q₂))
  have hnone : AList.lookup q₂ (∅ : UMap String QueueMessage) = none := AList.lookup_empty q₂
  unfold recovers
  rw [hbase, hbase']
  simp only [MessageManager.initFound, hnone, MessageMapper.newFound_of_isDir hdir₁, MessageMapper.newFound_of_isDir hdir₂,
    QueueMessage.recovery, hgc₁, hgc₂]

/-- Queues without a common file are isolated. -/
theorem isolated_of_disjoint (hfree : ∀ p ∈ (MessageMapper.found baseDir q₂).paths, p ∉ (MessageMapper.found baseDir q₁).paths) :
    Isolated pb baseDir q₁ q₂ := by
  intro d before ops s s' hplace hbefore hq₁ hq₂ hops hrun fates
  have h := run_induct (fun s op s' h hstep => Housed.step h hstep) (Housed.start hplace) hbefore
  have hdir := h.isDir hq₁
  obtain ⟨h', honly⟩ := h.run_only hdir hops hrun
  exact recovers_agree h.base h'.base hdir (honly.agree hfree fates)

end Storage

/-! ### Names -/

namespace MessageMapper
variable {baseDir q q₁ q₂ : String}

/-- A name without a NUL: the files of the queue differ in the end of their last part only. -/
theorem exists_realpath_files (hnul : '\x00' ∉ (files baseDir q).dataFile.toList) : ∃ absolute init last,
    realpath (files baseDir q).dataFile = ⟨absolute, init ++ [last ++ ".mqd".toList]⟩ ∧
      realpath (files baseDir q).tmpFile = ⟨absolute, init ++ [last ++ ".mqd.tmp".toList]⟩ := by
  have hname : '\x00' ∉ (directory baseDir ++ q).toList := by
    rw [files, String.toList_append, List.mem_append, not_or] at hnul
    exact hnul.1
  obtain ⟨absolute, init, last, h⟩ := exists_realpath_append hname
  exact ⟨absolute, init, last, h (by decide) (by decide) (by decide), h (by decide) (by decide) (by decide)⟩

theorem found_names (hnul : '\x00' ∉ (files baseDir q).dataFile.toList) :
    resolve (found baseDir q).tmpFile ≠ resolve (found baseDir q).dataFile := by
  obtain ⟨absolute, init, last, hdata, htmp⟩ := exists_realpath_files hnul
  rw [found, resolve_canonical, resolve_canonical, hdata, htmp, ne_eq, Lib.Path.mk.injEq, List.append_cancel_left_eq,
    List.cons.injEq, List.append_cancel_left_eq]
  exact fun h => absurd h.2.1 (by decide)

/-- Two queues with different data files have no common file. -/
theorem disjoint_of_ne (h₁ : '\x00' ∉ (files baseDir q₁).dataFile.toList) (h₂ : '\x00' ∉ (files baseDir q₂).dataFile.toList)
    (hne : realpath (files baseDir q₁).dataFile ≠ realpath (files baseDir q₂).dataFile) :
    ∀ p ∈ (found baseDir q₂).paths, p ∉ (found baseDir q₁).paths := by
  obtain ⟨absolute₁, init₁, last₁, hdata₁, htmp₁⟩ := exists_realpath_files h₁
  obtain ⟨absolute₂, init₂, last₂, hdata₂, htmp₂⟩ := exists_realpath_files h₂
  -- A data file ends otherwise than a temporary file.
  have hends : ∀ last last' : List Char, last ++ ".mqd".toList ≠ last' ++ ".mqd.tmp".toList := by
    intro last last' h
    rw [show ".mqd.tmp".toList = ".mqd".toList ++ ".tmp".toList from rfl, ← List.append_assoc] at h
    exact absurd (List.append_inj' h rfl).2 (by decide)
  rw [hdata₁, hdata₂, ne_eq, Lib.Path.mk.injEq] at hne
  intro p hp hmem
  rw [paths_found, hdata₂, htmp₂, List.mem_cons, List.mem_singleton] at hp
  rw [paths_found, hdata₁, htmp₁, List.mem_cons, List.mem_singleton] at hmem
  obtain rfl | rfl := hp
  · obtain h | h := hmem
    · rw [Lib.Path.mk.injEq] at h
      exact hne ⟨h.1.symm, h.2.symm⟩
    · rw [Lib.Path.mk.injEq] at h
      exact hends _ _ (List.singleton_inj.mp (List.append_inj' h.2 rfl).2)
  · obtain h | h := hmem
    · rw [Lib.Path.mk.injEq] at h
      exact hends _ _ (List.singleton_inj.mp (List.append_inj' h.2 rfl).2).symm
    · rw [Lib.Path.mk.injEq] at h
      obtain ⟨habsolute, hparts⟩ := h
      obtain ⟨rfl, hlast⟩ := List.append_inj' hparts rfl
      obtain rfl := List.append_cancel_right (List.singleton_inj.mp hlast)
      exact hne ⟨habsolute.symm, rfl⟩

theorem directory_mem_way (baseDir q : String) : realpath (directory baseDir) ∈ way baseDir q := by
  obtain ⟨name, hname⟩ := exists_directory_eq baseDir
  refine List.mem_map.mpr ⟨(directory baseDir).toList, List.mem_filter.mpr ⟨?_, ?_⟩, by rw [String.ofList_toList]⟩
  · refine (List.mem_inits _ _).mpr ⟨(q ++ ".mqd").toList, ?_⟩
    rw [files, ← String.toList_append, String.append_assoc]
  · rw [hname, String.toList_append]
    exact decide_eq_true List.getLast?_concat

/-- The names of two queues lead to places where files can be: they hold no NUL, and no directory on the way is in the
place of a file. -/
structure Leads (baseDir q₁ q₂ : String) : Prop where
  first : '\x00' ∉ (files baseDir q₁).dataFile.toList
  second : '\x00' ∉ (files baseDir q₂).dataFile.toList
  aside : ∀ p ∈ way baseDir q₁ ++ way baseDir q₂, p ∉ (found baseDir q₁).paths ++ (found baseDir q₂).paths

theorem Leads.directory (h : Leads baseDir q₁ q₂) : realpath (directory baseDir) ∉ (found baseDir q₁).paths := fun hmem =>
  h.aside _ (List.mem_append_left _ (directory_mem_way baseDir q₁)) (List.mem_append_left _ hmem)

theorem canonical_directory_ne (hnul : '\x00' ∉ (files baseDir q).dataFile.toList) : canonical (directory baseDir) ≠ "" := by
  have hdirectory : '\x00' ∉ (directory baseDir).toList := by
    rw [files, String.toList_append, String.toList_append, List.mem_append, List.mem_append, not_or, not_or] at hnul
    exact hnul.1.1
  refine canonical_ne ?_
  rw [cString_eq hdirectory, ne_eq, String.toList_eq_nil_iff]
  exact directory_ne baseDir

theorem found_dataFile_ne (hnul : '\x00' ∉ (files baseDir q).dataFile.toList) : (found baseDir q).dataFile ≠ "" := by
  refine canonical_ne ?_
  rw [cString_eq hnul, ne_eq, String.toList_eq_nil_iff]
  exact dataFile_ne baseDir q

end MessageMapper

namespace Storage
variable {pb} {s s' : Storage} {baseDir q₁ q₂ : String}

/-! ### Two names of one file -/

/-- A durable message of an earlier process. -/
def left : Payload := { properties := some ⟨"a", .durable, "k"⟩, body := "x", valid := "1" }

theorem left_size : (encode protobuf [left]).length < 2 ^ 64 := by decide +kernel

/-- What a restart without faults recovers, from the disk that the constructor leaves. -/
theorem recovers_of_created {ps : List Payload} {d₁ : Disk} (hnul : '\x00' ∉ (MessageMapper.files baseDir q₂).dataFile.toList)
    (hbase : s.mmp.baseDir = baseDir) (hdir : s.disk.isDir (canonical (MessageMapper.directory baseDir)) = true)
    (hcreate : ((MessageMapper.found baseDir q₂).createMsgFile s.disk.calmed).2 = d₁) (hcalm : d₁.Calm)
    (hf : d₁.file? (MessageMapper.found baseDir q₂).dataFile = some (encode pb ps))
    (hsize : (encode pb ps).length < 2 ^ 64) : s.recovers pb q₂ [] = some (placedFrom pb 0 (live ps)) := by
  subst hbase
  have hdir' : s.disk.calmed.isDir (canonical (MessageMapper.directory s.mmp.baseDir)) = true := hdir
  have hdisk : { s.disk with fates := [] } = s.disk.calmed := rfl
  obtain ⟨d₂, hgc, -, -⟩ := MessageMapper.gc_eq pb hcalm (MessageMapper.found_names hnul) hf hsize
  have hpending := QueueMessage.pending_recovery pb ({ mapper := .found s.mmp.baseDir q₂ } : QueueMessage) d₁
  rw [hgc] at hpending
  obtain ⟨⟨qmp, d₃⟩, hrec⟩ : ∃ x, ({ mapper := .found s.mmp.baseDir q₂ } : QueueMessage).recovery pb d₁ = x := ⟨_, rfl⟩
  rw [hrec] at hpending
  have hnone : AList.lookup q₂ (∅ : UMap String QueueMessage) = none := AList.lookup_empty q₂
  unfold recovers
  simp only [MessageManager.initFound, hnone, hdisk, MessageMapper.newFound_of_isDir hdir', hcreate, hrec,
    UMap.lookup_emplace_self (AList.notMem_empty q₂), Option.map_some]
  exact congrArg some hpending

/-- A declaration in the directory of the message leaves its record as it is. -/
theorem initFound_left {m : MessageManager} {d : Disk} {qname : String} (hcalm : d.Calm)
    (hnul : '\x00' ∉ (MessageMapper.files m.baseDir qname).dataFile.toList)
    (hdir : d.isDir (canonical (MessageMapper.directory m.baseDir)) = true)
    (hf : d.file? (MessageMapper.found m.baseDir qname).dataFile = some (encode protobuf [left])) :
    ∃ m' d', m.initFound protobuf qname d = some (m', d') ∧ m'.baseDir = m.baseDir ∧ qname ∈ m'.queueMsgs ∧
      (∀ q ∈ m.queueMsgs, q ∈ m'.queueMsgs) ∧ d'.Calm ∧ d'.dirs = d.dirs ∧
      d'.file? (MessageMapper.found m.baseDir qname).dataFile = some (encode protobuf [left]) := by
  cases hlookup : m.queueMsgs.lookup qname with
  | some qmp =>
    refine ⟨m, d, ?_, rfl, UMap.mem_of_lookup hlookup, fun _ hq => hq, hcalm, rfl, hf⟩
    simp only [MessageManager.initFound, hlookup]
  | none =>
    obtain ⟨d', hgc, hcomp, -⟩ := MessageMapper.gc_eq protobuf hcalm (MessageMapper.found_names hnul) hf left_size
    obtain ⟨⟨qmp, d₁⟩, hrec⟩ : ∃ x, ({ mapper := .found m.baseDir qname } : QueueMessage).recovery protobuf d = x := ⟨_, rfl⟩
    have hd₁ : d' = d₁ := by
      have := congrArg Prod.snd hrec
      simpa only [QueueMessage.recovery, hgc] using this
    refine ⟨{ m with queueMsgs := m.queueMsgs.emplace qname qmp }, d', ?_, rfl, UMap.mem_emplace.mpr (Or.inl rfl),
      fun q hq => UMap.mem_emplace.mpr (Or.inr hq), hcomp.fates.trans hcalm, hcomp.dirs, hcomp.data⟩
    simp only [MessageManager.initFound, hlookup, MessageMapper.newFound_of_isDir hdir,
      MessageMapper.createMsgFile_of_file (MessageMapper.found_dataFile_ne hnul) hf, hrec, hd₁]

/-- The disk of a process that finds one durable message. All other places are directories. -/
def planted (baseDir qname : String) : Disk :=
  .ofFiles (fun p => if p = realpath (MessageMapper.files baseDir qname).dataFile then some (encode protobuf [left]) else none)
    fun p => p ∉ (MessageMapper.found baseDir qname).paths

/-- The removal of the files of a queue. -/
theorem removeMsgFile_gone {m : MessageMapper} {d : Disk} (hcalm : d.Calm) (hne : resolve m.tmpFile ≠ resolve m.dataFile)
    {data : Bytes} (hf : d.file? m.dataFile = some data) :
    (m.removeMsgFile d).Calm ∧ (m.removeMsgFile d).file? m.dataFile = none := by
  have honly := FileHelper.remove_only (d.drop m.dataFile) m.tmpFile
  rw [MessageMapper.removeMsgFile, FileHelper.remove_eq hcalm hf]
  refine ⟨?_, (honly.file?_eq (MessageMapper.dataFile_notMem_tmpFile hne)).trans Disk.file?_drop_self⟩
  unfold FileHelper.remove
  split
  · exact hcalm
  · rw [hcalm.drop.fate]
    exact (hcalm.drop.tick.symm ▸ hcalm.drop : (d.drop m.dataFile).tick.Calm)

/-- What a restart recovers for the second of two queues with one data file, once the files of the first are removed. -/
theorem recovers_removed {d : Disk} (hleads : MessageMapper.Leads baseDir q₁ q₂)
    (hfile : ∀ d : Disk, d.file? (MessageMapper.found baseDir q₂).dataFile = d.file? (MessageMapper.found baseDir q₁).dataFile)
    (hbase : s.mmp.baseDir = baseDir) (hdisk : s.disk = (MessageMapper.found baseDir q₁).removeMsgFile d) (hcalm : d.Calm)
    (hdirs : d.dirs = (planted baseDir q₁).dirs) (hdir : d.isDir (canonical (MessageMapper.directory baseDir)) = true)
    {data : Bytes} (hf : d.file? (MessageMapper.found baseDir q₁).dataFile = some data)
    (heq : realpath (MessageMapper.files baseDir q₁).dataFile = realpath (MessageMapper.files baseDir q₂).dataFile) :
    s.recovers protobuf q₂ [] = some (placedFrom protobuf 0 (live [])) := by
  obtain ⟨hcalm', hgone⟩ := removeMsgFile_gone hcalm (MessageMapper.found_names hleads.first) hf
  have honly := MessageMapper.removeMsgFile_only (.found baseDir q₁) d
  have hmissing : FileHelper.exists? s.disk (MessageMapper.found baseDir q₂).dataFile = false := by
    obtain ⟨absolute, init, last, hdata, -⟩ := MessageMapper.exists_realpath_files hleads.second
    have hparts : (realpath (MessageMapper.files baseDir q₂).dataFile).parts.isEmpty = false := by
      rw [hdata]
      exact List.isEmpty_eq_false_iff.mpr (List.append_ne_nil_of_right_ne_nil _ (List.cons_ne_nil _ _))
    have hplace : (planted baseDir q₁).dirs (realpath (MessageMapper.files baseDir q₂).dataFile) = false := by
      refine decide_eq_false (not_not.mpr ?_)
      rw [← heq, MessageMapper.paths_found]
      exact List.mem_cons_self
    rw [FileHelper.exists?, hfile, hdisk, hgone, Disk.isDir, honly.dirs, hdirs, MessageMapper.found, resolve_canonical, hparts,
      hplace]
    simp
  have hcalm'' : s.disk.Calm := hdisk ▸ hcalm'
  have hdir' : s.disk.isDir (canonical (MessageMapper.directory baseDir)) = true := by
    rw [hdisk, Disk.isDir_congr honly.dirs]
    exact hdir
  have hcreate : ((MessageMapper.found baseDir q₂).createMsgFile s.disk.calmed).2 =
      s.disk.put (MessageMapper.found baseDir q₂).dataFile [] := by
    rw [hcalm''.calmed, MessageMapper.createMsgFile_of_not_exists hcalm'' hmissing]
  exact recovers_of_created hleads.second hbase hdir' hcreate (hcalm''.put _) (Disk.file?_put_self []) (by decide)

/-- Queues with the same data file are not isolated: the deletion of one takes the messages of the other. -/
theorem not_isolated_of_eq (hleads : MessageMapper.Leads baseDir q₁ q₂)
    (heq : realpath (MessageMapper.files baseDir q₁).dataFile = realpath (MessageMapper.files baseDir q₂).dataFile) :
    ¬Isolated protobuf baseDir q₁ q₂ := by
  intro hisolated
  have hplace : (planted baseDir q₁).files (realpath (MessageMapper.directory baseDir)) = none := by
    refine if_neg fun heq => hleads.directory ?_
    rw [heq, MessageMapper.paths_found]
    exact List.mem_cons_self
  have hdir : (planted baseDir q₁).isDir (canonical (MessageMapper.directory baseDir)) = true := by
    have hdirs : (planted baseDir q₁).dirs (realpath (MessageMapper.directory baseDir)) = true := decide_eq_true hleads.directory
    rw [Disk.isDir, resolve_canonical, hdirs, Bool.or_true, Bool.and_true]
    exact decide_eq_true (MessageMapper.canonical_directory_ne hleads.first)
  have hf : (planted baseDir q₁).file? (MessageMapper.found baseDir q₁).dataFile = some (encode protobuf [left]) := by
    rw [MessageMapper.file?_found]
    exact if_pos rfl
  -- Both queues are declared, and each has the record.
  obtain ⟨m₁, d₁, hinit₁, hbase₁, hmem₁, -, hcalm₁, hdirs₁, hf₁⟩ :=
    initFound_left (m := { baseDir }) (d := planted baseDir q₁) rfl hleads.first hdir hf
  have hdir₁ : d₁.isDir (canonical (MessageMapper.directory m₁.baseDir)) = true := by
    rw [hbase₁, Disk.isDir_congr hdirs₁]
    exact hdir
  have hfile : ∀ d : Disk, d.file? (MessageMapper.found baseDir q₂).dataFile =
      d.file? (MessageMapper.found baseDir q₁).dataFile := by
    intro d
    rw [MessageMapper.file?_found, MessageMapper.file?_found, heq]
  obtain ⟨m₂, d₂, hinit₂, hbase₂, hmem₂, hkeeps, hcalm₂, hdirs₂, hf₂⟩ :=
    initFound_left hcalm₁ (by rw [hbase₁]; exact hleads.second) hdir₁ (by rw [hbase₁, hfile]; exact hf₁)
  have hbase : m₂.baseDir = baseDir := hbase₂.trans hbase₁
  have hbefore : Lib.run (Storage.step protobuf) { mmp := { baseDir }, disk := planted baseDir q₁ }
      [.call (.initQueueMsg q₁), .call (.initQueueMsg q₂)] = some { mmp := m₂, disk := d₂ } := by
    simp only [Lib.run, Storage.step, hinit₁, hinit₂]
  have hhoused := run_induct (fun s op s' h hstep => Housed.step h hstep) (Housed.start hplace) hbefore
  -- The deletion of the first queue removes the file.
  obtain ⟨qmp, hlookup⟩ := Option.isSome_iff_exists.mp (AList.lookup_isSome.mpr (hkeeps q₁ hmem₁))
  have hmapper : qmp.mapper = .found baseDir q₁ := by
    rw [hhoused.named _ _ hlookup, hbase]
  have hrun : Lib.run (Storage.step protobuf) { mmp := m₂, disk := d₂ } [.call (.destroyQueueMsg q₁)] =
      some { mmp := { m₂ with queueMsgs := m₂.queueMsgs.erase q₁ }, disk := (MessageMapper.found baseDir q₁).removeMsgFile d₂ } := by
    simp only [Lib.run, Storage.step, MessageManager.call, MessageManager.destroyQueueMsg, hlookup, QueueMessage.clear, hmapper]
  have hsame := hisolated _ _ _ _ _ hplace hbefore (hkeeps q₁ hmem₁) hmem₂
    (fun op hop => by rw [List.mem_singleton.mp hop]; exact decide_eq_true rfl) hrun []
  have hdir₂ := hhoused.isDir hmem₂
  rw [hbase₁] at hf₂
  have hfull : Storage.recovers protobuf { mmp := m₂, disk := d₂ } q₂ [] = some (placedFrom protobuf 0 (live [left])) := by
    refine recovers_of_created hleads.second hbase hdir₂ ?_ hcalm₂ hf₂ left_size
    rw [hcalm₂.calmed, MessageMapper.createMsgFile_of_file (MessageMapper.found_dataFile_ne hleads.second) hf₂]
  have hempty := recovers_removed (s := ⟨{ m₂ with queueMsgs := m₂.queueMsgs.erase q₁ }, (MessageMapper.found baseDir q₁).removeMsgFile d₂⟩)
    hleads hfile hbase rfl hcalm₂ (hdirs₂.trans hdirs₁) hdir₂ (by rw [← hfile]; exact hf₂) heq
  rw [hfull, hempty] at hsame
  cases hsame

/-- **Isolation on disk.** Queues are isolated when the files of the first are neither files of the second nor directories
on the way to them. Two queues whose names lead to files are isolated exactly when they stand for different data files. -/
theorem isolated_iff (baseDir q₁ q₂ : String) :
    ((∀ p ∈ MessageMapper.way baseDir q₂ ++ (MessageMapper.found baseDir q₂).paths,
      p ∉ (MessageMapper.found baseDir q₁).paths) → Isolated protobuf baseDir q₁ q₂) ∧
    (MessageMapper.Leads baseDir q₁ q₂ → (Isolated protobuf baseDir q₁ q₂ ↔
      realpath (MessageMapper.files baseDir q₁).dataFile ≠ realpath (MessageMapper.files baseDir q₂).dataFile)) := by
  refine ⟨fun hfree => isolated_of_disjoint fun p hp => hfree p (List.mem_append_right _ hp), fun hleads => ⟨fun h heq => ?_,
    fun hne => ?_⟩⟩
  · exact not_isolated_of_eq hleads heq h
  · exact isolated_of_disjoint (MessageMapper.disjoint_of_ne hleads.first hleads.second hne)

theorem isolated_dotdot : Isolated protobuf "data" "a" "b/../c" ∧ ¬Isolated protobuf "data" "a" "../data/a" :=
  ⟨((isolated_iff "data" "a" "b/../c").2 ⟨by decide +kernel, by decide +kernel, by decide +kernel⟩).mpr (by decide +kernel),
    fun h => ((isolated_iff "data" "a" "../data/a").2 ⟨by decide +kernel, by decide +kernel, by decide +kernel⟩).mp h
      (by decide +kernel)⟩

/-- A message of `a` is recovered for `./a`. -/
theorem not_isolated_dot : "a" ≠ "./a" ∧ ∃ s s', Lib.run (Storage.step protobuf) { mmp := { baseDir := "data" }, disk := Store.vacant }
      [.call (.initQueueMsg "a"), .call (.initQueueMsg "./a")] = some s ∧
    Lib.run (Storage.step protobuf) s [.call (.insert "a" none "b" "x" true)] = some s' ∧
    (s.recovers protobuf "./a" []).map List.length = some 0 ∧ (s'.recovers protobuf "./a" []).map List.length = some 1 ∧
    ¬Isolated protobuf "data" "a" "./a" := by
  have hall : (Lib.run (Storage.step protobuf) { mmp := { baseDir := "data" }, disk := Store.vacant }
      [.call (.initQueueMsg "a"), .call (.initQueueMsg "./a")]).any (fun s =>
        (s.mmp.queueMsgs.lookup "a").isSome && (s.mmp.queueMsgs.lookup "./a").isSome &&
        (Lib.run (Storage.step protobuf) s [.call (.insert "a" none "b" "x" true)]).any fun s' =>
          (s.recovers protobuf "./a" []).map List.length = some 0 && (s'.recovers protobuf "./a" []).map List.length = some 1) =
      true := by
    decide +kernel
  obtain ⟨s, hs, hall⟩ := (Option.any_eq_true _ _).mp hall
  rw [Bool.and_eq_true, Bool.and_eq_true, AList.lookup_isSome, AList.lookup_isSome] at hall
  obtain ⟨⟨ha, hdot⟩, hall⟩ := hall
  obtain ⟨s', hs', hall⟩ := (Option.any_eq_true _ _).mp hall
  rw [Bool.and_eq_true, decide_eq_true_eq, decide_eq_true_eq] at hall
  refine ⟨by decide, s, s', hs, hs', hall.1, hall.2, fun hisolated => ?_⟩
  have hsame := hisolated _ _ _ _ _ rfl hs ha hdot (fun op hop => by rw [List.mem_singleton.mp hop]; rfl) hs' []
  rw [hsame, hall.1] at hall
  exact absurd hall.2 (by decide)

end Storage

end HareMQ
