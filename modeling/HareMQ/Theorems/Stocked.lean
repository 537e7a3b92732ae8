import HareMQ.Lib.Warehouse
import HareMQ.Theorems.Flow
import HareMQ.Theorems.Isolation
import HareMQ.Theorems.Store

/-! # The queues of a manager as a warehouse

Each queue keeps its own files, so that the queues of a `message_manager` are queues with acknowledgements under their
names. A queue without an object in memory is closed: its data file may still hold what it held. -/

namespace HareMQ
open Lib Conveyor

/-! ### Disks -/

theorem FileHelper.createDir_spec (d : Disk) (dir : String) :
    ∃ ok d', createDir d dir = (ok, d') ∧ Mkdirs (resolve dir).parts.length d d' := by
  have hslash : ([] : List Char).getLast? = some '/' → exists? d (String.ofList []) = true := by
    intro h
    cases h
  rcases createDirFrom_spec dir.toList [] d hslash with ⟨ok, d', hmk, hdirs, -⟩
  rw [List.nil_append, String.ofList_toList] at hdirs
  exact ⟨ok, d', hmk, hdirs⟩

/-- The directory is none of the files in it. -/
theorem MessageMapper.directory_notMem_paths (baseDir qname : String) :
    resolve (directory baseDir) ∉ (files baseDir qname).paths := by
  have hdata := parts_directory_lt baseDir qname
  have htmp : (resolve (files baseDir qname).dataFile).parts.length ≤ (resolve (files baseDir qname).tmpFile).parts.length := by
    have := length_parts_le (files baseDir qname).dataFile ".tmp"
    rwa [show (files baseDir qname).dataFile ++ ".tmp" = (files baseDir qname).tmpFile by
      simp only [files, String.append_assoc]; rfl] at this
  intro hmem
  rw [paths, List.mem_cons, List.mem_singleton] at hmem
  obtain h | h := hmem
  · rw [h] at hdata
    exact Nat.lt_irrefl _ hdata
  · rw [h] at hdata
    omega

/-- `d'` differs from `d` in the files at `touched`, and in directories that are no deeper than the base directory. -/
structure Apart (baseDir : String) (touched : List Lib.Path) (d d' : Disk) : Prop where
  others : ∀ p, p ∉ touched → d'.files p = d.files p
  grows : d.Grows d'
  shallow : ∀ p, d'.dirs p = true →
    d.dirs p = true ∨ p.parts.length ≤ (resolve (MessageMapper.directory baseDir)).parts.length

namespace Apart
variable {baseDir qname : String} {touched : List Lib.Path} {d d' d'' : Disk}

theorem refl (baseDir : String) (touched : List Lib.Path) (d : Disk) : Apart baseDir touched d d :=
  ⟨fun _ _ => rfl, .of_dirs rfl, fun _ => Or.inl⟩

theorem of_only (h : d.Only touched d') : Apart baseDir touched d d' :=
  ⟨h.others, .of_dirs h.dirs, fun _ hp => Or.inl (h.dirs ▸ hp)⟩

theorem trans (h₁ : Apart baseDir touched d d') (h₂ : Apart baseDir touched d' d'') : Apart baseDir touched d d'' where
  others p hp := (h₂.others p hp).trans (h₁.others p hp)
  grows := h₁.grows.trans h₂.grows
  shallow p hp := (h₂.shallow p hp).elim (h₁.shallow p) Or.inr

theorem file?_eq (h : Apart baseDir touched d d') {name : String} (hname : resolve name ∉ touched) :
    d'.file? name = d.file? name := h.others _ hname

/-- No directory comes into the place of a data file. -/
theorem isDir_eq (h : Apart baseDir touched d d') (hfree : d.isDir (MessageMapper.files baseDir qname).dataFile = false) :
    d'.isDir (MessageMapper.files baseDir qname).dataFile = false := by
  have hdeep := MessageMapper.parts_directory_lt baseDir qname
  simp only [Disk.isDir, Bool.and_eq_false_iff, Bool.or_eq_false_iff] at hfree ⊢
  refine hfree.imp_right fun hnone => ⟨hnone.1, ?_⟩
  cases hdir : d'.dirs (resolve (MessageMapper.files baseDir qname).dataFile) with
  | false => rfl
  | true =>
    rcases h.shallow _ hdir with hold | hshort
    · rw [hnone.2] at hold
      cases hold
    · exact absurd hshort (Nat.not_le_of_lt hdeep)

end Apart

/-- The name stands for files in the base directory itself, which no file system refuses: it is one part of a path, and
    with the longer suffix it is below the limits of a part and of a path. The base directory is named without leading
    back. -/
structure PlainName (baseDir qname : String) : Prop where
  slash : '/' ∉ qname.toList
  null : '\x00' ∉ (baseDir ++ qname).toList
  straight : ['.', '.'] ∉ (resolve baseDir).parts
  part : (qname ++ ".mqd.tmp").utf8ByteSize ≤ 255
  path : (MessageMapper.files baseDir qname).tmpFile.utf8ByteSize < 4096

instance (baseDir qname : String) : Decidable (PlainName baseDir qname) :=
  decidable_of_iff ('/' ∉ qname.toList ∧ '\x00' ∉ (baseDir ++ qname).toList ∧ ['.', '.'] ∉ (resolve baseDir).parts ∧
      (qname ++ ".mqd.tmp").utf8ByteSize ≤ 255 ∧ (MessageMapper.files baseDir qname).tmpFile.utf8ByteSize < 4096)
    ⟨fun h => ⟨h.1, h.2.1, h.2.2.1, h.2.2.2.1, h.2.2.2.2⟩, fun h => ⟨h.slash, h.null, h.straight, h.part, h.path⟩⟩

/-- Queues with plain names. -/
def Separate (baseDir : String) (names : List String) : Prop := ∀ q ∈ names, PlainName baseDir q

/-- Different plain names stand for different files. -/
theorem PlainName.dataFile_ne {baseDir q₁ q₂ : String} (h₁ : PlainName baseDir q₁) (h₂ : PlainName baseDir q₂) (hne : q₁ ≠ q₂) :
    resolve (MessageMapper.files baseDir q₁).dataFile ≠ resolve (MessageMapper.files baseDir q₂).dataFile := by
  have hsuffix : ∀ {q : String}, PlainName baseDir q → '/' ∉ (q ++ ".mqd").toList ∧ 1 < (q ++ ".mqd").toList.length := by
    intro q h
    have hslash : '/' ∉ ".mqd".toList := by decide
    have hlength : ".mqd".toList.length = 4 := by decide
    rw [String.toList_append, List.mem_append, List.length_append]
    exact ⟨fun hmem => hmem.elim h.slash hslash, by omega⟩
  intro heq
  rcases exists_resolve_append (MessageMapper.directory baseDir) with ⟨absolute, init, last, hresolve⟩
  simp only [MessageMapper.files, String.append_assoc] at heq
  rw [hresolve (hsuffix h₁).1 (hsuffix h₁).2, hresolve (hsuffix h₂).1 (hsuffix h₂).2, Lib.Path.mk.injEq] at heq
  have hlast := List.append_cancel_left (List.singleton_inj.mp (List.append_cancel_left heq.2))
  rw [String.toList_append, String.toList_append] at hlast
  exact hne (String.toList_inj.mp (List.append_cancel_right hlast))

theorem Separate.notMem {baseDir : String} {names : List String} (h : Separate baseDir names) {q₁ q₂ : String} (h₁ : q₁ ∈ names)
    (h₂ : q₂ ∈ names) (hne : q₂ ≠ q₁) : resolve (MessageMapper.files baseDir q₂).dataFile ∉ (MessageMapper.files baseDir q₁).paths := by
  rw [MessageMapper.paths, List.mem_cons, List.mem_singleton, not_or]
  exact ⟨(h q₂ h₂).dataFile_ne (h q₁ h₁) hne, MessageMapper.dataFile_ne_tmpFile _ _ _ _⟩

/-! ### One queue -/

theorem Tight.mono {q : QueueMessage} {lay : List Slot} {used used' : List String} (h : Tight q lay used) (hsub : used ⊆ used') :
    Tight q lay used' := ⟨h.synced, h.backed, h.unique, fun r hr => hsub (h.used r hr)⟩

/-- The queue holds what `a` holds, and `used` are the ids that were ever inserted. -/
def Holds (pb : PayloadCodec) (baseDir qname : String) (used : List String) (d : Disk) (q : QueueMessage)
    (a : AckQueue Content) : Prop :=
  ∃ lay, Store.Good pb { baseDir, qname, disk := d, queue := q } lay used ∧ Models q lay a

/-- A restart recovers `cs` for the queue, which is closed. -/
def Shut (pb : PayloadCodec) (baseDir qname : String) (used : List String) (d : Disk) (cs : List Content) : Prop :=
  (FileHelper.exists? d (MessageMapper.files baseDir qname).dataFile = false ∧ cs = []) ∨
    ∃ q a, Holds pb baseDir qname used d q a ∧ a.held.filter Content.isDurable = cs

section
variable {pb : PayloadCodec} {baseDir qname : String} {used used' : List String} {d d' : Disk} {q q' : QueueMessage}
  {a : AckQueue Content} {cs : List Content} {touched : List Lib.Path}

theorem Holds.mono (h : Holds pb baseDir qname used d q a) (hsub : used ⊆ used') : Holds pb baseDir qname used' d q a := by
  rcases h with ⟨lay, hgood, hmodels⟩
  exact ⟨lay, ⟨hgood.mapper, hgood.dir, hgood.inv, hgood.tight.mono hsub⟩, hmodels⟩

theorem Holds.calm (h : Holds pb baseDir qname used d q a) : d.Calm := by
  rcases h with ⟨lay, hgood, -⟩
  exact hgood.inv.core.calm

theorem Holds.isDir (h : Holds pb baseDir qname used d q a) : d.isDir (MessageMapper.directory baseDir) = true := by
  rcases h with ⟨lay, hgood, -⟩
  exact hgood.dir

theorem Holds.mapper (h : Holds pb baseDir qname used d q a) : q.mapper = .files baseDir qname := by
  rcases h with ⟨lay, hgood, -⟩
  exact hgood.mapper

theorem Holds.file? (h : Holds pb baseDir qname used d q a) :
    ∃ data, d.file? (MessageMapper.files baseDir qname).dataFile = some data := by
  rcases h with ⟨lay, hgood, -⟩
  have hfile := hgood.inv.core.file
  have hmapper : q.mapper = .files baseDir qname := hgood.mapper
  dsimp only at hfile
  rw [hmapper] at hfile
  exact ⟨_, hfile⟩

/-- What happens to other files does not matter. -/
theorem Holds.apart (h : Holds pb baseDir qname used d q a) (hd : Apart baseDir touched d d') (hcalm : d'.Calm)
    (hfree : resolve (MessageMapper.files baseDir qname).dataFile ∉ touched) : Holds pb baseDir qname used d' q a := by
  rcases h with ⟨lay, ⟨hmapper, hdir, ⟨hcore, hbooks⟩, htight⟩, hmodels⟩
  have hmapper : q.mapper = .files baseDir qname := hmapper
  refine ⟨lay, ⟨hmapper, hd.grows.isDir hdir, ⟨⟨hcalm, hcore.names, ?_, hcore.small, hcore.layout, hcore.total, hcore.valid⟩,
    hbooks⟩, htight⟩, hmodels⟩
  have hfile := hcore.file
  dsimp only at hfile ⊢
  rw [hmapper] at hfile ⊢
  rw [hd.file?_eq hfree]
  exact hfile

theorem Shut.apart (h : Shut pb baseDir qname used d cs) (hd : Apart baseDir touched d d') (hcalm : d'.Calm)
    (hfree : resolve (MessageMapper.files baseDir qname).dataFile ∉ touched)
    (hdir : d.isDir (MessageMapper.files baseDir qname).dataFile = false) : Shut pb baseDir qname used d' cs := by
  rcases h with ⟨hexists, rfl⟩ | ⟨q, a, hq, rfl⟩
  · refine Or.inl ⟨?_, rfl⟩
    rw [FileHelper.exists?, hdir] at hexists
    rw [FileHelper.exists?, hd.file?_eq hfree, hd.isDir_eq hdir]
    exact hexists
  · exact Or.inr ⟨q, a, hq.apart hd hcalm hfree, rfl⟩

theorem Shut.mono (h : Shut pb baseDir qname used d cs) (hsub : used ⊆ used') : Shut pb baseDir qname used' d cs := by
  rcases h with hnone | ⟨q, a, hq, hcs⟩
  · exact Or.inl hnone
  · exact Or.inr ⟨q, a, hq.mono hsub, hcs⟩

/-! ### Opening a queue -/

theorem boot_names {s : Store} (hboot : Store.boot pb d baseDir qname = some s) : s.baseDir = baseDir ∧ s.qname = qname := by
  unfold Store.boot at hboot
  split at hboot
  · cases hboot
  · cases hboot
    exact ⟨rfl, rfl⟩

/-- What was left in the files is pending. -/
theorem Shut.boot {s : Store} (h : Shut pb baseDir qname used d cs) (hcalm : d.Calm)
    (htop : d.file? (MessageMapper.directory baseDir) = none) (hboot : Store.boot pb d baseDir qname = some s) :
    Holds pb baseDir qname used s.disk s.queue { held := cs, pending := cs } := by
  rcases boot_names hboot with ⟨rfl, rfl⟩
  rcases h with ⟨hexists, rfl⟩ | ⟨q, a, ⟨lay, hgood, hmodels⟩, rfl⟩
  · rcases Store.boot_good ⟨hcalm, hexists, htop⟩ hboot with ⟨lay, hgood, hmodels⟩
    exact ⟨lay, ⟨hgood.mapper, hgood.dir, hgood.inv, hgood.tight.mono (List.nil_subset _)⟩, hmodels⟩
  · rcases hgood.restart hmodels with ⟨s', lay', hboot', hgood', hmodels'⟩
    obtain rfl := Option.some.inj (hboot'.symm.trans hboot)
    exact ⟨lay', hgood', hmodels'⟩

/-- Opening a queue touches its own files, and may make the base directory. -/
theorem boot_apart {s : Store} (hboot : Store.boot pb d baseDir qname = some s) :
    Apart baseDir (MessageMapper.files baseDir qname).paths d s.disk := by
  unfold Store.boot at hboot
  split at hboot
  · cases hboot
  · next mapper d₁ hnew =>
    cases hboot
    have hrecovery : d₁.Only mapper.paths (({ mapper } : QueueMessage).recovery pb d₁).2 :=
      QueueMessage.recovery_only pb { mapper } d₁
    unfold MessageMapper.new at hnew
    dsimp only at hnew
    split at hnew
    · cases hnew
      exact (Apart.of_only (MessageMapper.createMsgFile_only _ d)).trans (.of_only hrecovery)
    · split at hnew
      · cases hnew
      · next d₀ hcreate =>
        cases hnew
        rcases FileHelper.createDir_spec d (MessageMapper.directory baseDir) with ⟨ok, d₀', hcreate', hdirs⟩
        rw [hcreate, Prod.mk.injEq] at hcreate'
        rcases hcreate' with ⟨-, rfl⟩
        have hgrows := FileHelper.createDir_grows d (MessageMapper.directory baseDir)
        rw [hcreate] at hgrows
        have hmade : Apart baseDir (MessageMapper.files baseDir qname).paths d d₀ :=
          ⟨fun p _ => congrFun hdirs.files p, hgrows, hdirs.dirs⟩
        exact (hmade.trans (.of_only (MessageMapper.createMsgFile_only _ d₀))).trans (.of_only hrecovery)

theorem initQueueMsg_eq_boot {m : MessageManager} (hnone : m.queueMsgs.lookup qname = none) :
    m.initQueueMsg pb qname d = (Store.boot pb d m.baseDir qname).map fun s =>
      ({ m with queueMsgs := m.queueMsgs.emplace qname s.queue }, s.disk) := by
  rw [MessageManager.initQueueMsg, Store.boot, hnone]
  cases MessageMapper.new d m.baseDir qname with
  | none => rfl
  | some mapper => rfl

/-! ### Operations on an open queue -/

theorem Holds.insert (h : Holds pb baseDir qname used d q a) {bp : Option BasicProperties} {uuid body : String} {queueDurable : Bool}
    (hid : (promised bp uuid body queueDurable).id ∉ used) {ok : Bool} (hins : q.insert pb bp uuid body queueDurable d = (ok, q', d'))
    (hsmall : FileHelper.size d' (MessageMapper.files baseDir qname).dataFile < 2 ^ 32) :
    ok = true ∧ Holds pb baseDir qname ((promised bp uuid body queueDurable).id :: used) d' q'
      (a.push (promised bp uuid body queueDurable)) := by
  rcases h with ⟨lay, hgood, hmodels⟩
  rcases hgood.inv.insert bp uuid body queueDurable with ⟨q₁, d₁, hins', hdirs, hrest⟩
  obtain ⟨rfl, rfl, rfl⟩ : true = ok ∧ q₁ = q' ∧ d₁ = d' := by
    have heq := hins'.symm.trans hins
    simp only [Prod.mk.injEq] at heq
    exact heq
  have hmapper : q.mapper = .files baseDir qname := hgood.mapper
  have hkept := q.insert_mapper pb bp uuid body queueDurable d
  rw [hins] at hkept
  have hfile : q₁.mapper = .files baseDir qname := hkept.trans hmapper
  rcases hrest (hfile.symm ▸ hsmall) with ⟨lay', hinv', hi⟩
  have hcontent := makeMessage_content bp uuid body queueDurable
  have hmid : (QueueMessage.makeMessage bp uuid body queueDurable).id = (promised bp uuid body queueDurable).id :=
    congrArg Content.id hcontent
  refine ⟨rfl, lay', ⟨hi.mapper.trans hmapper, hgood.isDir hdirs, hinv', ?_⟩, ?_⟩
  · rw [← hmid]
    exact hgood.tight.insert hgood.inv hi (hmid ▸ hid)
  · rw [← hcontent]
    exact hmodels.insert hgood.inv hi

theorem Holds.front (h : Holds pb baseDir qname used d q a) :
    Holds pb baseDir qname used d q.front.2 a.pop.2 ∧ q.front.1.map (fun r => (q.front.2.heap r).payload.content) = a.pop.1 := by
  rcases h with ⟨lay, hgood, hmodels⟩
  rcases hmodels.front hgood.inv hgood.tight with ⟨hmodels', hreply⟩
  exact ⟨⟨lay, ⟨q.front_mapper.trans hgood.mapper, hgood.dir, hgood.inv.front, hgood.tight.front hgood.inv⟩, hmodels'⟩, hreply⟩

theorem Holds.remove (h : Holds pb baseDir qname used d q a) (msgId : String) :
    ∃ q' d', q.remove pb msgId d = some (q', d') ∧ Holds pb baseDir qname used d' q' (a.ack (·.id) msgId) := by
  rcases h with ⟨lay, hgood, hmodels⟩
  rcases hgood.inv.remove msgId fun _ => hgood.tight.synced with ⟨q', d', lay', hrem, hinv', hr, hdirs⟩
  exact ⟨q', d', hrem, lay', ⟨hr.mapper.trans hgood.mapper, hgood.isDir hdirs, hinv', hgood.tight.remove hgood.inv hr⟩,
    hmodels.remove hgood.inv hgood.tight hr⟩

/-- A durable message has properties, so that `mutable_properties` changes no message that is on the disk. -/
theorem mutableProperties_of_durable {msg : Message} (h : msg.isDurable = true) : msg.mutableProperties = msg := by
  rcases msg with ⟨⟨properties, body, valid⟩, offset, length⟩
  cases properties with
  | none => cases h
  | some props => rfl

theorem Holds.touch (h : Holds pb baseDir qname used d q a) (r : Ref) :
    Holds pb baseDir qname used d { q with heap := Function.update q.heap r (q.heap r).mutableProperties } a := by
  rcases h with ⟨lay, ⟨hmapper, hdir, ⟨hcore, hbooks⟩, htight⟩, hmodels⟩
  have hsame : ∀ r', (Function.update q.heap r (q.heap r).mutableProperties r').payload.content = (q.heap r').payload.content := by
    intro r'
    by_cases hr : r' = r
    · rw [hr, Function.update_self, Payload.content_mutableProperties]
    · rw [Function.update_of_ne hr]
  have hid : ∀ r', (Function.update q.heap r (q.heap r).mutableProperties r').id = (q.heap r').id :=
    fun r' => congrArg Content.id (hsame r')
  have hmode : ∀ r', (Function.update q.heap r (q.heap r).mutableProperties r').isDurable = (q.heap r').isDurable :=
    fun r' => congrArg (fun c : Content => decide (c.mode = .durable)) (hsame r')
  have howner : ∀ r' ∈ owners lay, Function.update q.heap r (q.heap r).mutableProperties r' = q.heap r' := by
    intro r' hr'
    by_cases hr : r' = r
    · subst hr
      rw [Function.update_self, mutableProperties_of_durable (hcore.layout.owner_isDurable hr')]
    · rw [Function.update_of_ne hr]
  refine ⟨lay, ⟨hmapper, hdir, ⟨⟨hcore.calm, hcore.names, hcore.file, hcore.small, ?_, hcore.total, hcore.valid⟩, ?_⟩, ?_⟩, ?_⟩
  · exact hcore.layout.congr howner (Nat.le_refl _) rfl
  · refine ⟨hbooks.nodup, hbooks.lt_next, fun hwait => ?_, fun r' hr' hdurable => ?_⟩
    · rcases hbooks.waits hwait with ⟨hwid, hlt, hnot⟩
      exact ⟨(hid _).trans hwid, hlt, hnot⟩
    · exact hbooks.owned r' hr' ((hmode r').symm.trans hdurable)
  · refine ⟨fun r' hr' => ?_, htight.backed, fun r₁ r₂ h₁ h₂ heq => ?_, fun r' hr' => ?_⟩
    · exact (congrArg q.durableMsgs.lookup (hid r')).trans (htight.synced r' hr')
    · exact htight.unique r₁ r₂ h₁ h₂ ((hid r₁).symm.trans (heq.trans (hid r₂)))
    · rw [show (_ : Message).id = _ from hid r']
      exact htight.used r' hr'
  · refine ⟨hmodels.pending.trans (List.map_congr_left fun r' _ => (hsame r').symm), hmodels.unacked,
      hmodels.durable.trans (List.map_congr_left fun r' _ => (hsame r').symm)⟩

end

/-! ### The manager -/

/-- The manager holds what the warehouse holds, and the next start finds `closed` for the queues that it does not have.
    `posted` are the ids that were ever inserted, each with the name of its queue. -/
structure Stocked (pb : PayloadCodec) (baseDir : String) (names : List String) (posted : List (String × String)) (closed : String → List Content)
    (m : MessageManager) (d : Disk) (w : Warehouse String Content) : Prop where
  base : m.baseDir = baseDir
  calm : d.Calm
  top : d.file? (MessageMapper.directory baseDir) = none
  free : ∀ q ∈ names, d.isDir (MessageMapper.files baseDir q).dataFile = false
  known : ∀ q ∈ m.queueMsgs, q ∈ names
  opened : ∀ q qmp, m.queueMsgs.lookup q = some qmp →
    ∃ s, w.stock q = some s ∧ Holds pb baseDir q (of q posted) d qmp s.queue
  shut : ∀ q, m.queueMsgs.lookup q = none →
    w.stock q = none ∧ (q ∈ names → Shut pb baseDir q (of q posted) d (closed q))

namespace Stocked
variable {pb : PayloadCodec} {baseDir : String} {names : List String} {posted posted' : List (String × String)}
  {closed closed' : String → List Content} {m m' : MessageManager} {d d' : Disk} {w w' : Warehouse String Content}
  {qname : String} {q q' : QueueMessage} {s : Stock Content}

/-- What happens to one queue leaves the others as they are. -/
theorem update (h : Stocked pb baseDir names posted closed m d w) (hnames : Separate baseDir names) (hname : qname ∈ names)
    (hd : Apart baseDir (MessageMapper.files baseDir qname).paths d d') (hcalm : d'.Calm) (hbase : m'.baseDir = baseDir)
    (hm : ∀ q, q ≠ qname → m'.queueMsgs.lookup q = m.queueMsgs.lookup q) (hw : ∀ q, q ≠ qname → w'.stock q = w.stock q)
    (hclosed : ∀ q, q ≠ qname → closed' q = closed q) (hposted : ∀ q, of q posted ⊆ of q posted')
    (hopened : ∀ qmp, m'.queueMsgs.lookup qname = some qmp →
      ∃ s, w'.stock qname = some s ∧ Holds pb baseDir qname (of qname posted') d' qmp s.queue)
    (hshut : m'.queueMsgs.lookup qname = none →
      w'.stock qname = none ∧ Shut pb baseDir qname (of qname posted') d' (closed' qname)) :
    Stocked pb baseDir names posted' closed' m' d' w' := by
  refine ⟨hbase, hcalm, ?_, fun q hq => ?_, fun q hq => ?_, fun q qmp hlookup => ?_, fun q hlookup => ?_⟩
  · rw [hd.file?_eq (MessageMapper.directory_notMem_paths baseDir qname)]
    exact h.top
  · exact hd.isDir_eq (h.free q hq)
  · by_cases hqname : q = qname
    · exact hqname ▸ hname
    · rw [← AList.lookup_isSome, hm q hqname, AList.lookup_isSome] at hq
      exact h.known q hq
  · by_cases hqname : q = qname
    · subst hqname
      exact hopened qmp hlookup
    · rw [hm q hqname] at hlookup
      rcases h.opened q qmp hlookup with ⟨s, hs, hholds⟩
      have hfree := hnames.notMem hname (h.known q (UMap.mem_of_lookup hlookup)) hqname
      exact ⟨s, (hw q hqname).trans hs, (hholds.apart hd hcalm hfree).mono (hposted q)⟩
  · by_cases hqname : q = qname
    · subst hqname
      rcases hshut hlookup with ⟨hnone, hclosed⟩
      exact ⟨hnone, fun _ => hclosed⟩
    · rw [hm q hqname] at hlookup
      rcases h.shut q hlookup with ⟨hnone, hrest⟩
      refine ⟨(hw q hqname).trans hnone, fun hq => ?_⟩
      rw [hclosed q hqname]
      exact ((hrest hq).apart hd hcalm (hnames.notMem hname hq hqname) (h.free q hq)).mono (hposted q)

theorem lookup_put_ne {name : String} (hne : name ≠ qname) : (m.put qname q).queueMsgs.lookup name = m.queueMsgs.lookup name := by
  rw [MessageManager.put, UMap.lookup_insert, if_neg hne]

theorem lookup_put_self (m : MessageManager) (qname : String) (q : QueueMessage) :
    (m.put qname q).queueMsgs.lookup qname = some q := by
  rw [MessageManager.put, UMap.lookup_insert, if_pos rfl]

/-- An open queue changes. -/
theorem put (h : Stocked pb baseDir names posted closed m d w) (hnames : Separate baseDir names)
    (hlookup : m.queueMsgs.lookup qname = some q) (hs : w.stock qname = some s)
    (hd : d.Only q.mapper.paths d') (hmapper : q.mapper = .files baseDir qname) (hposted : ∀ q, of q posted ⊆ of q posted')
    {f : Stock Content → AckQueue Content} (hq : Holds pb baseDir qname (of qname posted') d' q' (f s)) :
    Stocked pb baseDir names posted' closed (m.put qname q') d' (w.modify qname f) := by
  refine h.update hnames (h.known qname (UMap.mem_of_lookup hlookup)) (.of_only (hmapper ▸ hd)) hq.calm h.base
    (fun _ hne => lookup_put_ne hne) (fun _ hne => Warehouse.stock_modify_ne hne f) (fun _ _ => rfl) hposted
    (fun qmp hqmp => ?_) fun hnone => ?_
  · rw [lookup_put_self, Option.some.injEq] at hqmp
    subst hqmp
    refine ⟨{ s with queue := f s }, ?_, hq⟩
    rw [Warehouse.stock_modify_self, hs, Option.map_some]
  · rw [lookup_put_self] at hnone
    cases hnone

theorem insert (h : Stocked pb baseDir names posted closed m d w) (hnames : Separate baseDir names) {bp : Option BasicProperties}
    {uuid body : String} {durable ok : Bool} (hdurable : (w.stock qname).map (·.durable) = some durable)
    (hid : (qname, (promised bp uuid body durable).id) ∉ posted)
    (hins : m.insert pb qname bp uuid body durable d = (ok, m', d'))
    (hsmall : ∀ q, m'.queueMsgs.lookup qname = some q → FileHelper.size d' q.mapper.dataFile < 2 ^ 32) :
    Stocked pb baseDir names (posted ++ [(qname, (promised bp uuid body durable).id)]) closed m' d'
      (w.push qname fun durable => promised bp uuid body durable) := by
  rcases Option.map_eq_some_iff.mp hdurable with ⟨s, hs, rfl⟩
  unfold MessageManager.insert at hins
  cases hlookup : m.queueMsgs.lookup qname with
  | none =>
    rw [(h.shut qname hlookup).1] at hs
    cases hs
  | some q =>
    rcases h.opened qname q hlookup with ⟨s', hs', hholds⟩
    obtain rfl := Option.some.inj (hs'.symm.trans hs)
    have honly := q.insert_only pb bp uuid body s'.durable d
    have hmapper := q.insert_mapper pb bp uuid body s'.durable d
    rcases hq : q.insert pb bp uuid body s'.durable d with ⟨ok', q', d₁⟩
    rw [hq] at honly hmapper
    simp only [hlookup, hq, Prod.mk.injEq] at hins
    rcases hins with ⟨rfl, rfl, rfl⟩
    have hsmall := hsmall q' (lookup_put_self m qname q')
    have hmapper : q'.mapper = .files baseDir qname := hmapper.trans hholds.mapper
    rw [hmapper] at hsmall
    rcases hholds.insert (fun hmem => hid (mem_of.mp hmem)) hq hsmall with ⟨-, hholds'⟩
    refine h.put hnames hlookup hs honly hholds.mapper (fun name => ?_) (hholds'.mono ?_)
    · rw [of_append]
      exact List.subset_append_left _ _
    · rw [of_append, of_cons_self, of_nil]
      exact List.cons_subset.mpr ⟨List.mem_append_right _ (List.mem_singleton_self _), List.subset_append_left _ _⟩

theorem front (h : Stocked pb baseDir names posted closed m d w) (hnames : Separate baseDir names) (qname : String) :
    Stocked pb baseDir names posted closed (m.front qname).2 d (w.pop qname) := by
  unfold MessageManager.front
  cases hlookup : m.queueMsgs.lookup qname with
  | none =>
    rw [Warehouse.pop, Warehouse.modify_of_none (h.shut qname hlookup).1]
    exact h
  | some q =>
    rcases h.opened qname q hlookup with ⟨s, hs, hholds⟩
    exact h.put hnames hlookup hs (.refl _ d) hholds.mapper (fun _ => List.Subset.refl _) hholds.front.1

theorem ack (h : Stocked pb baseDir names posted closed m d w) (hnames : Separate baseDir names) (qname msgId : String) :
    ∃ m' d', m.ack pb qname msgId d = some (m', d') ∧
      Stocked pb baseDir names posted closed m' d' (w.ack Content.id qname msgId) := by
  unfold MessageManager.ack
  cases hlookup : m.queueMsgs.lookup qname with
  | none =>
    rw [Warehouse.ack, Warehouse.modify_of_none (h.shut qname hlookup).1]
    exact ⟨m, d, rfl, h⟩
  | some q =>
    rcases h.opened qname q hlookup with ⟨s, hs, hholds⟩
    rcases hholds.remove msgId with ⟨q', d', hrem, hholds'⟩
    refine ⟨m.put qname q', d', by simp only [hrem], ?_⟩
    exact h.put hnames hlookup hs (q.remove_only pb hrem) hholds.mapper (fun _ => List.Subset.refl _) hholds'

theorem touch (h : Stocked pb baseDir names posted closed m d w) (hnames : Separate baseDir names) (qname : String) (r : Ref) :
    Stocked pb baseDir names posted closed (m.mutableProperties qname r) d w := by
  unfold MessageManager.mutableProperties
  cases hlookup : m.queueMsgs.lookup qname with
  | none => exact h
  | some q =>
    rcases h.opened qname q hlookup with ⟨s, hs, hholds⟩
    have hsame : w.modify qname (fun s => s.queue) = w := by
      rw [Warehouse.modify, hs, Option.map_some, ← hs, Function.update_eq_self]
    rw [← hsame]
    exact h.put hnames hlookup hs (.refl _ d) hholds.mapper (fun _ => List.Subset.refl _) (hholds.touch r)

theorem destroy (h : Stocked pb baseDir names posted closed m d w) (hnames : Separate baseDir names) (qname : String)
    (hempty : closed qname = []) :
    Stocked pb baseDir names posted closed (m.destroyQueueMsg qname d).1 (m.destroyQueueMsg qname d).2 (w.delete qname) := by
  unfold MessageManager.destroyQueueMsg
  cases hlookup : m.queueMsgs.lookup qname with
  | none =>
    have hsame : w.delete qname = w := by
      rw [Warehouse.delete, ← (h.shut qname hlookup).1, Function.update_eq_self]
    rw [hsame]
    exact h
  | some q =>
    rcases h.opened qname q hlookup with ⟨s, hs, hholds⟩
    have hname := h.known qname (UMap.mem_of_lookup hlookup)
    have hmapper := hholds.mapper
    rcases hholds.file? with ⟨data, hfile⟩
    have hne := MessageMapper.files_names baseDir qname
    have honly := q.clear_only d
    rw [hmapper] at honly
    have hclear : (q.clear d).2 = (MessageMapper.files baseDir qname).removeMsgFile d := by rw [QueueMessage.clear, hmapper]
    rcases Storage.removeMsgFile_gone h.calm hne hfile with ⟨hcalm, hgone⟩
    rw [← hclear] at hcalm hgone
    have hapart : Apart baseDir (MessageMapper.files baseDir qname).paths d (q.clear d).2 := .of_only honly
    refine h.update hnames hname hapart hcalm h.base (fun _ hne => AList.lookup_erase_ne hne)
      (fun _ hne => Warehouse.stock_delete_ne hne) (fun _ _ => rfl) (fun _ => List.Subset.refl _) (fun qmp hqmp => ?_) fun _ => ?_
    · rw [AList.lookup_erase] at hqmp
      cases hqmp
    · refine ⟨Warehouse.stock_delete_self w qname, Or.inl ⟨?_, hempty⟩⟩
      rw [FileHelper.exists?, hgone, hapart.isDir_eq (h.free qname hname), Option.isSome_none, Bool.or_self, Bool.and_false]

/-- A closed queue is opened, and has what was left in its files. -/
theorem init (h : Stocked pb baseDir names posted closed m d w) (hnames : Separate baseDir names) (hname : qname ∈ names)
    (hnone : w.stock qname = none) (durable : Bool) (hinit : m.initQueueMsg pb qname d = some (m', d')) :
    Stocked pb baseDir names posted (Function.update closed qname []) m' d'
      { stock := Function.update w.stock qname (some ⟨durable, { held := closed qname, pending := closed qname }⟩) } := by
  have hlookup : m.queueMsgs.lookup qname = none := by
    cases hlookup : m.queueMsgs.lookup qname with
    | none => rfl
    | some q =>
      rcases h.opened qname q hlookup with ⟨s, hs, -⟩
      rw [hnone] at hs
      cases hs
  rw [initQueueMsg_eq_boot hlookup, Option.map_eq_some_iff, h.base] at hinit
  rcases hinit with ⟨store, hboot, heq⟩
  cases heq
  have hholds := ((h.shut qname hlookup).2 hname).boot h.calm h.top hboot
  have hfree : qname ∉ m.queueMsgs := AList.lookup_eq_none.mp hlookup
  refine h.update hnames hname (boot_apart hboot) hholds.calm rfl (fun name hne => UMap.lookup_emplace_ne hne _)
    (fun _ hne => Function.update_of_ne hne ..) (fun _ hne => Function.update_of_ne hne ..) (fun _ => List.Subset.refl _)
    (fun qmp hqmp => ?_) fun hnone => ?_
  · rw [UMap.lookup_emplace_self hfree, Option.some.injEq] at hqmp
    subst hqmp
    exact ⟨_, Function.update_self .., hholds⟩
  · rw [UMap.lookup_emplace_self hfree] at hnone
    cases hnone

/-- More ids may be taken as used. -/
theorem mono (h : Stocked pb baseDir names posted closed m d w) (hposted : ∀ q, of q posted ⊆ of q posted') :
    Stocked pb baseDir names posted' closed m d w := by
  refine ⟨h.base, h.calm, h.top, h.free, h.known, fun q qmp hlookup => ?_, fun q hlookup => ?_⟩
  · rcases h.opened q qmp hlookup with ⟨s, hs, hholds⟩
    exact ⟨s, hs, hholds.mono (hposted q)⟩
  · rcases h.shut q hlookup with ⟨hnone, hshut⟩
    exact ⟨hnone, fun hq => (hshut hq).mono (hposted q)⟩

/-! ### Restart -/

theorem lookup_of_stock (h : Stocked pb baseDir names posted closed m d w) (hs : w.stock qname = some s) :
    ∃ q, m.queueMsgs.lookup qname = some q ∧ Holds pb baseDir qname (of qname posted) d q s.queue := by
  cases hlookup : m.queueMsgs.lookup qname with
  | none =>
    rw [(h.shut qname hlookup).1] at hs
    cases hs
  | some q =>
    rcases h.opened qname q hlookup with ⟨s', hs', hholds⟩
    rw [hs] at hs'
    cases hs'
    exact ⟨q, rfl, hholds⟩

/-- What the files of a queue hold. -/
def left (w : Warehouse String Content) (qname : String) : List Content :=
  ((w.stock qname).map fun s => s.queue.held.filter Content.isDurable).getD []

/-- The process ends: every queue is closed. -/
theorem ended (h : Stocked pb baseDir names posted (fun _ => []) m d w) (hd : Apart baseDir [] d d') (hcalm : d'.Calm) :
    Stocked pb baseDir names posted (left w) { baseDir } d' {} := by
  refine ⟨rfl, hcalm, ?_, fun q hq => ?_, fun q hq => absurd hq (AList.notMem_empty q), fun q qmp hq => ?_, fun q _ => ⟨rfl, fun hq => ?_⟩⟩
  · exact (hd.file?_eq List.not_mem_nil).trans h.top
  · exact hd.isDir_eq (h.free q hq)
  · rw [AList.lookup_empty] at hq
    cases hq
  · cases hlookup : m.queueMsgs.lookup q with
    | none =>
      rcases h.shut q hlookup with ⟨hnone, hshut⟩
      rw [left, hnone]
      exact (hshut hq).apart hd hcalm List.not_mem_nil (h.free q hq)
    | some qmp =>
      rcases h.opened q qmp hlookup with ⟨s, hs, hholds⟩
      rw [left, hs]
      exact Or.inr ⟨qmp, s.queue, hholds.apart hd hcalm List.not_mem_nil, rfl⟩

/-- The loop of the constructor opens the queues of the table. -/
theorem initAll (hnames : Separate baseDir names) (qnames : List String) (h : Stocked pb baseDir names posted closed m d w)
    (hnodup : qnames.Nodup) (hclosed : ∀ q ∈ qnames, q ∈ names ∧ w.stock q = none)
    (hinit : VirtualHost.initAll pb m d qnames = some (m', d')) :
    ∃ closed' w', Stocked pb baseDir names posted closed' m' d' w' ∧
      (∀ q ∈ qnames, closed' q = [] ∧ w'.stock q = some ⟨true, { held := closed q, pending := closed q }⟩) ∧
      ∀ q, q ∉ qnames → closed' q = closed q ∧ w'.stock q = w.stock q := by
  induction qnames generalizing closed m d w with
  | nil =>
    cases hinit
    exact ⟨closed, w, h, List.forall_mem_nil _, fun _ _ => ⟨rfl, rfl⟩⟩
  | cons qname qnames ih =>
    rw [VirtualHost.initAll] at hinit
    split at hinit
    · cases hinit
    · next m₁ d₁ hfirst =>
      rcases List.nodup_cons.mp hnodup with ⟨hnot, hnodup⟩
      rcases hclosed qname List.mem_cons_self with ⟨hname, hnone⟩
      have h₁ := h.init hnames hname hnone true hfirst
      have hclosed₁ : ∀ q ∈ qnames, q ∈ names ∧
          Function.update w.stock qname (some ⟨true, { held := closed qname, pending := closed qname }⟩) q = none := by
        intro q hq
        have hne : q ≠ qname := fun heq => hnot (heq ▸ hq)
        rw [Function.update_of_ne hne]
        exact hclosed q (List.mem_cons_of_mem _ hq)
      rcases ih h₁ hnodup hclosed₁ hinit with ⟨closed', w', h', hopened, hothers⟩
      refine ⟨closed', w', h', fun q hq => ?_, fun q hq => ?_⟩
      · rcases List.mem_cons.mp hq with rfl | hq
        · rcases hothers q hnot with ⟨hclosed', hstock⟩
          exact ⟨hclosed'.trans (Function.update_self ..), hstock.trans (Function.update_self ..)⟩
        · have hne : q ≠ qname := fun heq => hnot (heq ▸ hq)
          rcases hopened q hq with ⟨hclosed', hstock⟩
          rw [Function.update_of_ne hne] at hstock
          exact ⟨hclosed', hstock⟩
      · rw [List.mem_cons, not_or] at hq
        rcases hothers q hq.2 with ⟨hclosed', hstock⟩
        exact ⟨hclosed'.trans (Function.update_of_ne hq.1 ..), hstock.trans (Function.update_of_ne hq.1 ..)⟩

/-- The next process has the durable queues, and in them the durable messages that were held. -/
theorem restart (h : Stocked pb baseDir names posted (fun _ => []) m d w) (hnames : Separate baseDir names)
    (hsound : w.Sound Content.isDurable) (hd : Apart baseDir [] d d') (hcalm : d'.Calm) {qnames : List String}
    (hnodup : qnames.Nodup) (hkeys : ∀ q, q ∈ qnames ↔ ((w.stock q).filter (·.durable)).isSome) {d'' : Disk}
    (hinit : VirtualHost.initAll pb { baseDir } d' qnames = some (m', d'')) :
    Stocked pb baseDir names posted (fun _ => []) m' d'' (w.restart Content.isDurable) := by
  have hstock : ∀ q ∈ qnames, ∃ s, w.stock q = some s ∧ s.durable = true := by
    intro q hq
    rcases Option.isSome_iff_exists.mp ((hkeys q).mp hq) with ⟨s, hs⟩
    rcases Option.filter_eq_some_iff.mp hs with ⟨hs, hdurable⟩
    exact ⟨s, hs, hdurable⟩
  have hclosed : ∀ q ∈ qnames, q ∈ names ∧ ({} : Warehouse String Content).stock q = none := by
    intro q hq
    rcases hstock q hq with ⟨s, hs, -⟩
    rcases h.lookup_of_stock hs with ⟨qmp, hlookup, -⟩
    exact ⟨h.known q (UMap.mem_of_lookup hlookup), rfl⟩
  rcases initAll hnames qnames (h.ended hd hcalm) hnodup hclosed hinit with ⟨closed', w', h', hopened, hothers⟩
  have hempty : closed' = fun _ => [] := by
    funext q
    by_cases hq : q ∈ qnames
    · exact (hopened q hq).1
    · rw [(hothers q hq).1, left]
      cases hs : w.stock q with
      | none => rfl
      | some s =>
        have hlight : s.durable = false := by
          cases hdurable : s.durable with
          | false => rfl
          | true =>
            refine absurd ((hkeys q).mpr ?_) hq
            rw [hs, Option.filter_some, if_pos hdurable]
            rfl
        exact List.filter_eq_nil_iff.mpr fun c hc => by rw [hsound.light q s hs hlight c hc]; exact Bool.false_ne_true
  have hsame : w' = w.restart Content.isDurable := by
    refine Warehouse.ext fun q => ?_
    rw [Warehouse.stock_restart]
    by_cases hq : q ∈ qnames
    · rcases hstock q hq with ⟨s, hs, hdurable⟩
      rw [(hopened q hq).2, left, hs, Option.filter_some, if_pos hdurable, Option.map_some, Option.map_some, hdurable]
      rfl
    · have hnone : (w.stock q).filter (·.durable) = none := by
        rw [← Option.not_isSome_iff_eq_none, ← hkeys q]
        exact hq
      rw [(hothers q hq).2, hnone]
      rfl
  rw [hempty, hsame] at h'
  exact h'

end Stocked
end HareMQ
