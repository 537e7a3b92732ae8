import HareMQ.Store
import HareMQ.Theorems.Queue

/-! # Start and restart

The constructor of `message_mapper` and `recovery`: what a new object finds in its directory, and the queue it
builds from the data file. -/

namespace HareMQ
open Lib

/-! ### `create_dir` -/

namespace FileHelper
variable {d : Disk}

/-- What creating directories changes: at most `depth` parts deep. -/
structure Mkdirs (depth : Nat) (d d' : Disk) : Prop where
  calm : d.Calm → d'.Calm
  files : d'.files = d.files
  dirs : ∀ p, d'.dirs p = true → d.dirs p = true ∨ p.parts.length ≤ depth

theorem Mkdirs.refl (depth : Nat) (d : Disk) : Mkdirs depth d d := ⟨id, rfl, fun _ hp => Or.inl hp⟩

theorem Mkdirs.trans {depth : Nat} {d' d'' : Disk} (h₁ : Mkdirs depth d d') (h₂ : Mkdirs depth d' d'') :
    Mkdirs depth d d'' where
  calm hd := h₂.calm (h₁.calm hd)
  files := h₂.files.trans h₁.files
  dirs p hp := (h₂.dirs p hp).elim (h₁.dirs p) Or.inr

theorem Mkdirs.tick (depth : Nat) (d : Disk) : Mkdirs depth d d.tick :=
  ⟨fun hd => hd.tick.symm ▸ hd, rfl, fun _ hp => Or.inl hp⟩

theorem mkdir_spec (d : Disk) (name : String) : ∃ r d', mkdir d name = (r, d') ∧
    Mkdirs (resolve name).parts.length d d' ∧ (r ≠ .error → exists? d' name = true) := by
  unfold mkdir
  by_cases hname : name = ""
  · exact ⟨.error, d, by simp [hname], Mkdirs.refl _ d, fun h => absurd rfl h⟩
  by_cases hex : exists? d name = true
  · exact ⟨.eexist, d, by simp [hname, hex], Mkdirs.refl _ d, fun _ => hex⟩
  simp only [hname, if_false, hex, Bool.false_eq_true]
  split
  · exact ⟨.error, d, rfl, Mkdirs.refl _ d, fun h => absurd rfl h⟩
  split
  · refine ⟨.made, _, rfl, ⟨(Mkdirs.tick 0 d).calm, rfl, fun p hp => ?_⟩, fun _ => ?_⟩
    · by_cases hpn : p = resolve name
      · exact Or.inr (Nat.le_of_eq (congrArg (·.parts.length) hpn))
      · left
        simpa [Function.update_of_ne hpn] using hp
    · simp [exists?, Disk.isDir, hname]
  · exact ⟨.error, d.tick, rfl, Mkdirs.tick _ d, fun h => absurd rfl h⟩

/-- When the loop succeeds, the whole path exists. -/
theorem createDirFrom_spec : ∀ (rest made : List Char) (d : Disk),
    (made.getLast? = some '/' → exists? d (String.ofList made) = true) →
    ∃ ok d', createDirFrom mkdir made d rest = (ok, d') ∧
      Mkdirs (resolve (String.ofList (made ++ rest))).parts.length d d' ∧
      (ok = true → made ++ rest ≠ [] → exists? d' (String.ofList (made ++ rest)) = true)
  | [], made, d, hmade => by
    simp only [createDirFrom, List.append_nil]
    split
    · next h =>
      refine ⟨true, d, rfl, Mkdirs.refl _ d, fun _ hne => hmade ?_⟩
      simpa [hne] using h
    · obtain ⟨r, d', hmk, hdirs, hex⟩ := mkdir_spec d (String.ofList made)
      rw [hmk]
      cases r with
      | made => exact ⟨true, d', rfl, hdirs, fun _ _ => hex (by decide)⟩
      | eexist => exact ⟨false, d', rfl, hdirs, nofun⟩
      | error => exact ⟨false, d', rfl, hdirs, nofun⟩
  | c :: rest, made, d, hmade => by
    have hjoin : made ++ c :: rest = (made ++ [c]) ++ rest := by simp
    by_cases hc : c = '/'
    · subst hc
      obtain ⟨r, d₁, hmk, hdirs₁, hex₁⟩ := mkdir_spec d (String.ofList made)
      have hle : (resolve (String.ofList made)).parts.length ≤ (resolve (String.ofList (made ++ '/' :: rest))).parts.length := by
        rw [String.ofList_append]
        exact length_parts_le _ _
      have hdirs₁ : Mkdirs (resolve (String.ofList (made ++ '/' :: rest))).parts.length d d₁ :=
        ⟨hdirs₁.calm, hdirs₁.files, fun p hp => (hdirs₁.dirs p hp).imp_right fun h => Nat.le_trans h hle⟩
      simp only [createDirFrom, hmk]
      by_cases hr : r = .error
      · subst hr
        exact ⟨false, d₁, rfl, hdirs₁, nofun⟩
      · -- The directory that was just made is the path up to and with the `/`.
        have hnext : exists? d₁ (String.ofList (made ++ ['/'])) = true := by
          have hex := hex₁ hr
          have hne : String.ofList made ≠ "" := by
            intro h
            simp [exists?, h] at hex
          have hslash : resolve (String.ofList (made ++ ['/'])) = resolve (String.ofList made) := by
            rw [String.ofList_append]
            exact resolve_slash hne
          have hne' : String.ofList (made ++ ['/']) ≠ "" := by simp
          simp only [exists?, Disk.file?, Disk.isDir, hslash, ne_eq, hne, hne', not_false_eq_true, decide_true,
            Bool.true_and] at hex ⊢
          exact hex
        obtain ⟨ok, d₂, hrest, hdirs₂, hex₂⟩ :=
          createDirFrom_spec rest (made ++ ['/']) d₁ fun _ => hnext
        rw [← hjoin] at hdirs₂ hex₂
        refine ⟨ok, d₂, ?_, hdirs₁.trans hdirs₂, hex₂⟩
        cases r with
        | made => exact hrest
        | eexist => exact hrest
        | error => exact absurd rfl hr
    · obtain ⟨ok, d', hrest, hdirs, hex⟩ := createDirFrom_spec rest (made ++ [c]) d fun h => by
        rw [List.getLast?_concat, Option.some.injEq] at h
        exact absurd h hc
      rw [← hjoin] at hdirs hex
      exact ⟨ok, d', by simpa [createDirFrom, hc] using hrest, hdirs, hex⟩

end FileHelper

/-! ### The constructor -/

namespace MessageMapper
variable {d : Disk} {baseDir qname : String}

theorem files_names (baseDir qname : String) :
    resolve (files baseDir qname).tmpFile ≠ resolve (files baseDir qname).dataFile :=
  resolve_append_ne (by decide) (by decide) (by decide) (by decide) (by decide)

/-- No data file is the temporary file of another queue. -/
theorem dataFile_ne_tmpFile (baseDir baseDir' qname qname' : String) :
    resolve (files baseDir qname).dataFile ≠ resolve (files baseDir' qname').tmpFile := by
  intro h
  obtain ⟨absolute, init, last, hdata⟩ := exists_resolve_append (directory baseDir ++ qname)
  obtain ⟨absolute', init', last', htmp⟩ := exists_resolve_append (directory baseDir' ++ qname')
  rw [files, files, hdata (by decide) (by decide), htmp (by decide) (by decide), Lib.Path.mk.injEq] at h
  obtain ⟨-, hlast⟩ := List.append_inj' h.2 rfl
  have hsuffix : last ++ ".mqd".toList = (last' ++ ".mqd".toList) ++ ".tmp".toList := by
    rw [List.append_assoc]
    exact List.singleton_inj.mp hlast
  exact absurd (List.append_inj' hsuffix rfl).2 (by decide)

theorem exists_directory_eq (baseDir : String) : ∃ name, directory baseDir = name ++ "/" := by
  unfold directory
  split
  · next h =>
    obtain ⟨cs, hcs⟩ := List.getLast?_eq_some_iff.mp h
    refine ⟨String.ofList cs, ?_⟩
    rw [← String.toList_inj, hcs]
    simp
  · exact ⟨baseDir, rfl⟩

theorem directory_ne (baseDir : String) : directory baseDir ≠ "" := by
  obtain ⟨name, hname⟩ := exists_directory_eq baseDir
  rw [hname]
  exact fun h => by simpa using congrArg String.toList h

/-- The data file lies deeper than its directory. -/
theorem parts_directory_lt (baseDir qname : String) :
    (resolve (directory baseDir)).parts.length < (resolve (files baseDir qname).dataFile).parts.length := by
  obtain ⟨name, hname⟩ := exists_directory_eq baseDir
  have hfile : (files baseDir qname).dataFile = name ++ "/" ++ (qname ++ ".mqd") := by
    simp only [files, hname, String.append_assoc]
  have hrest : 0 < (resolve (qname ++ ".mqd")).parts.length := by
    obtain ⟨absolute, init, last, hresolve⟩ := exists_resolve_append qname
    rw [hresolve (by decide) (by decide), List.length_append, List.length_singleton]
    exact Nat.succ_pos _
  have hdir : (resolve (name ++ "/")).parts.length = (resolve name).parts.length := by
    have := length_parts_slash name ""
    rwa [String.append_empty, show (resolve "").parts.length = 0 from by decide, Nat.add_zero] at this
  rw [hfile, hname, length_parts_slash, hdir]
  omega

theorem createMsgFile_of_file {m : MessageMapper} {data : Bytes} (hne : m.dataFile ≠ "") (hf : d.file? m.dataFile = some data) :
    m.createMsgFile d = (true, d) := by
  simp [createMsgFile, FileHelper.exists?, hf, hne]

theorem createMsgFile_of_not_exists {m : MessageMapper} (hd : d.Calm) (h : FileHelper.exists? d m.dataFile = false) :
    m.createMsgFile d = (true, d.put m.dataFile []) := by
  simp [createMsgFile, h, FileHelper.create_eq hd]

theorem dataFile_ne (baseDir qname : String) : (files baseDir qname).dataFile ≠ "" := by
  intro h
  have := parts_directory_lt baseDir qname
  rw [h] at this
  exact absurd this (by simp [show (resolve "").parts.length = 0 from by decide])

theorem new_of_isDir (h : d.isDir (directory baseDir) = true) :
    new d baseDir qname = some (files baseDir qname, ((files baseDir qname).createMsgFile d).2) := by
  simp [new, FileHelper.exists?, h, directory_ne]

/-- No message file yet, and no file in the place of the directory. -/
structure Fresh (d : Disk) (baseDir qname : String) : Prop where
  calm : d.Calm
  absent : FileHelper.exists? d (files baseDir qname).dataFile = false
  dir : d.file? (directory baseDir) = none

/-- A first start creates the directory and the empty data file, unless it aborts. -/
theorem new_fresh (h : Fresh d baseDir qname) {m : MessageMapper} {d' : Disk} (hnew : new d baseDir qname = some (m, d')) :
    m = files baseDir qname ∧ d'.Calm ∧ d'.isDir (directory baseDir) = true ∧
      d'.file? (files baseDir qname).dataFile = some [] := by
  obtain ⟨hname, habsent⟩ : d.file? (files baseDir qname).dataFile = none ∧
      d.isDir (files baseDir qname).dataFile = false := by
    have := h.absent
    simp only [FileHelper.exists?, ne_eq, dataFile_ne, not_false_eq_true, decide_true, Bool.true_and,
      Bool.or_eq_false_iff, Option.isSome_eq_false_iff, Option.isNone_iff_eq_none] at this
    exact this
  by_cases hdir : d.isDir (directory baseDir) = true
  · rw [new_of_isDir hdir, createMsgFile_of_not_exists h.calm h.absent] at hnew
    cases hnew
    exact ⟨rfl, h.calm.put _, hdir, Disk.file?_put_self _⟩
  · have hex : FileHelper.exists? d (directory baseDir) = false := by
      simp [FileHelper.exists?, h.dir, hdir]
    obtain ⟨ok, d₁, hmk, hdirs, hex₁⟩ := FileHelper.createDirFrom_spec (directory baseDir).toList [] d nofun
    have hcreate : FileHelper.createDir d (directory baseDir) = (ok, d₁) := hmk
    simp only [new, hex, Bool.false_eq_true, if_false, hcreate] at hnew
    cases ok with
    | false => cases hnew
    | true =>
      simp only [List.nil_append, String.ofList_toList] at hdirs hex₁
      have hcalm₁ : d₁.Calm := hdirs.calm h.calm
      have hdir₁ : d₁.isDir (directory baseDir) = true := by
        have := hex₁ trivial (by simpa using directory_ne baseDir)
        simpa [FileHelper.exists?, Disk.file?, hdirs.files, show d.files _ = none from h.dir, directory_ne] using this
      -- The new directories are too short to be in the place of the data file.
      have habsent₁ : FileHelper.exists? d₁ (files baseDir qname).dataFile = false := by
        have hlt := parts_directory_lt baseDir qname
        simp only [FileHelper.exists?, Disk.file?, hdirs.files, show d.files _ = none from hname, Disk.isDir, ne_eq,
          dataFile_ne, not_false_eq_true, decide_true, Bool.true_and, Option.isSome_none, Bool.false_or,
          Bool.or_eq_false_iff] at habsent ⊢
        refine ⟨habsent.1, ?_⟩
        by_contra hp
        rcases hdirs.dirs _ (by simpa using hp) with hp' | hp'
        · exact absurd hp' (by simp [habsent.2])
        · omega
      dsimp only at hnew
      rw [createMsgFile_of_not_exists hcalm₁ habsent₁] at hnew
      cases hnew
      exact ⟨rfl, hcalm₁.put _, hdir₁, Disk.file?_put_self _⟩

end MessageMapper

/-! ### `recovery` -/

namespace QueueMessage
variable {pb : PayloadCodec}

/-- The pending messages, oldest first. -/
def pending (q : QueueMessage) : List Message := q.msgs.map q.heap

theorem adopt_lt_next {q : QueueMessage} (h : ∀ r ∈ q.msgs, r < q.next) (msg : Message) :
    ∀ r ∈ (q.adopt msg).msgs, r < (q.adopt msg).next := by
  intro r hr
  rcases List.mem_append.mp hr with hr | hr
  · exact Nat.lt_succ_of_lt (h r hr)
  · exact List.mem_singleton.mp hr ▸ Nat.lt_succ_self _

/-- Adopting a list queues exactly its messages, in order, whatever their ids. -/
theorem pending_foldl_adopt : ∀ (lst : List Message) (q : QueueMessage), (∀ r ∈ q.msgs, r < q.next) →
    (lst.foldl adopt q).pending = q.pending ++ lst
  | [], q, _ => by simp
  | msg :: lst, q, h => by
    have hadopt : (q.adopt msg).pending = q.pending ++ [msg] := by
      show (q.msgs ++ [q.next]).map (Function.update q.heap q.next msg) = _
      rw [List.map_append, List.map_singleton, Function.update_self, pending]
      congr 1
      exact List.map_congr_left fun r hr => Function.update_of_ne (Nat.ne_of_lt (h r hr)) _ _
    rw [List.foldl_cons, pending_foldl_adopt lst _ (adopt_lt_next h msg), hadopt, List.append_assoc, List.singleton_append]

/-- Adopting changes neither the names nor the unacknowledged messages. -/
theorem foldl_adopt_keeps : ∀ (lst : List Message) (q : QueueMessage), (∀ r ∈ q.msgs, r < q.next) →
    (lst.foldl adopt q).mapper = q.mapper ∧ (lst.foldl adopt q).waitAckMsgs = q.waitAckMsgs ∧
      ∀ r ∈ (lst.foldl adopt q).msgs, r < (lst.foldl adopt q).next
  | [], _, h => ⟨rfl, rfl, h⟩
  | msg :: lst, q, h => foldl_adopt_keeps lst (q.adopt msg) (adopt_lt_next h msg)

variable (pb) in
/-- `recovery` queues what `gc` loads. -/
theorem pending_recovery (q : QueueMessage) (d : Disk) : (q.recovery pb d).1.pending = (q.mapper.gc pb d).1 :=
  pending_foldl_adopt (q.mapper.gc pb d).1 { q with msgs := [] } nofun

end QueueMessage

/-- The owners are found when their ids are known and different. -/
theorem Layout.synced {pb : PayloadCodec} {q : QueueMessage} {lay : List Slot} (h : Layout pb q lay)
    (hmem : ∀ r ∈ owners lay, (q.heap r).id ∈ q.durableMsgs)
    (hinj : ∀ r ∈ owners lay, ∀ r' ∈ owners lay, (q.heap r).id = (q.heap r').id → r = r') : Synced q lay := by
  intro r hr
  obtain ⟨r', hr'⟩ := Option.isSome_iff_exists.mp (AList.lookup_isSome.mpr (hmem r hr))
  rw [hr', hinj r' (h.durable hr').1 r hr (h.durable hr').2]

/-- What adopting the records `lay'` behind `lay` gives. -/
structure Adopted (pb : PayloadCodec) (q q' : QueueMessage) (lay lay' : List Slot) : Prop where
  mapper : q'.mapper = q.mapper
  waits : q'.waitAckMsgs = q.waitAckMsgs
  layout : Layout pb q' (lay ++ lay')
  owned : ∀ s ∈ lay', s.owner.isSome = true
  msgs : q'.msgs = q.msgs ++ owners lay'
  old : ∀ id ∈ q.durableMsgs, id ∈ q'.durableMsgs
  ids : ∀ s ∈ lay', s.payload.id ∈ q'.durableMsgs

theorem foldl_adopt {pb : PayloadCodec} : ∀ (ps : List Payload) (q : QueueMessage) (lay : List Slot), Layout pb q lay →
    (∀ p ∈ ps, p.valid = "1" ∧ p.deliveryMode = .durable) → span pb lay + (encode pb ps).length < 2 ^ 32 →
    ∃ lay', lay'.map (·.payload) = ps ∧
      Adopted pb q ((placedFrom pb (span pb lay) ps).foldl QueueMessage.adopt q) lay lay'
  | [], q, lay, h, _, _ => by
    refine ⟨[], rfl, rfl, rfl, ?_, nofun, ?_, fun _ hid => hid, nofun⟩
    · rw [List.append_nil]
      exact h
    · rw [owners_nil, List.append_nil]
      rfl
  | p :: ps, q, lay, h, hflag, hsize => by
    obtain ⟨hvalid, hmode⟩ := hflag p List.mem_cons_self
    rw [encode_cons, List.length_append, length_frame] at hsize
    have hplace : ({ payload := p } : Message).setPlace (span pb lay + 8) (pb.serialize p).length =
        placedAt pb (span pb lay) p := by
      rw [Message.setPlace, Nat.mod_eq_of_lt (by omega), Nat.mod_eq_of_lt (by omega)]
      rfl
    have hlay : Layout pb _ (lay ++ [⟨p, some q.next⟩]) := h.adopt (placedAt pb (span pb lay) p) rfl hvalid hmode
    have hspan : span pb (lay ++ [⟨p, some q.next⟩]) = span pb lay + 8 + (pb.serialize p).length := by
      simp [Nat.add_assoc]
    obtain ⟨lay', hmap, ih⟩ := foldl_adopt ps (q.adopt (placedAt pb (span pb lay) p)) _ hlay
      (fun p' hp' => hflag p' (List.mem_cons_of_mem _ hp')) (by rw [hspan]; omega)
    rw [hspan] at ih
    refine ⟨⟨p, some q.next⟩ :: lay', by simp [hmap], ?_⟩
    rw [placedFrom, List.foldl_cons, hplace]
    refine ⟨ih.mapper, ih.waits, by simpa using ih.layout, ?_, ?_, fun id hid => ih.old id (UMap.mem_emplace.mpr (Or.inr hid)), ?_⟩
    · intro s hs
      rcases List.mem_cons.mp hs with rfl | hs
      · rfl
      · exact ih.owned s hs
    · rw [ih.msgs, owners_cons_some]
      show (q.msgs ++ [q.next]) ++ owners lay' = _
      simp
    · intro s hs
      rcases List.mem_cons.mp hs with rfl | hs
      · exact ih.old _ (UMap.mem_emplace.mpr (Or.inl rfl))
      · exact ih.ids s hs

/-- What `recovery` of a new object finds: the valid records in order, all of them pending. -/
structure Recovered (pb : PayloadCodec) (m : MessageMapper) (ps : List Payload) (q : QueueMessage) (lay : List Slot) : Prop where
  mapper : q.mapper = m
  msgs : q.msgs = owners lay
  waits : q.waitAckMsgs = ∅
  payloads : (owners lay).map (fun r => (q.heap r).payload) = live ps
  ids : ∀ r ∈ owners lay, (q.heap r).id ∈ q.durableMsgs

/-- Every record is durable, and valid or invalid. -/
def Stored (ps : List Payload) : Prop := ∀ p ∈ ps, p.valid = "0" ∨ (p.valid = "1" ∧ p.deliveryMode = .durable)

theorem recovery_eq (pb : PayloadCodec) {m : MessageMapper} {d : Disk} (hd : d.Calm) (hne : resolve m.tmpFile ≠ resolve m.dataFile)
    (ps : List Payload) (hf : d.file? m.dataFile = some (encode pb ps)) (hsize : (encode pb ps).length < 2 ^ 64)
    (hsmall : (encode pb (live ps)).length < 2 ^ 32) (hflag : Stored ps) :
    ∃ q d' lay, ({ mapper := m } : QueueMessage).recovery pb d = (q, d') ∧ Inv pb d' q lay ∧ Recovered pb m ps q lay ∧
      d'.dirs = d.dirs := by
  obtain ⟨d', hgc, hcomp, -⟩ := MessageMapper.gc_eq pb hd hne hf hsize
  have hlive : ∀ p ∈ live ps, p.valid = "1" ∧ p.deliveryMode = .durable := by
    intro p hp
    obtain ⟨hmem, hvalid⟩ := List.mem_filter.mp hp
    exact (hflag p hmem).resolve_left (by simpa using hvalid)
  have hempty : Layout pb ({ mapper := m } : QueueMessage) [] :=
    ⟨trivial, nofun, List.nodup_nil, nofun, fun {id r} hr => by cases hr⟩
  obtain ⟨lay, hmap, had⟩ := foldl_adopt (live ps) { mapper := m } [] hempty hlive (by simpa using hsmall)
  rw [span_nil] at had
  have hkept : kept lay = lay := List.filter_eq_self.mpr had.owned
  have hlayout := had.layout
  rw [List.nil_append] at hlayout
  have hlen : lay.length = (live ps).length := by rw [← hmap, List.length_map]
  refine ⟨{ (placedFrom pb 0 (live ps)).foldl QueueMessage.adopt { mapper := m } with
    validCount := (placedFrom pb 0 (live ps)).length, totalCount := (placedFrom pb 0 (live ps)).length },
    d', lay, by simp only [QueueMessage.recovery, hgc], ⟨⟨?_, ?_, ?_, ?_, ?_, ?_, ?_⟩, ⟨?_, ?_, ?_, ?_⟩⟩,
    ⟨had.mapper, ?_, had.waits, ?_, ?_⟩, hcomp.dirs⟩
  · exact hcomp.fates.trans hd
  · rw [had.mapper]
    exact hne
  · rw [had.mapper, hmap]
    exact hcomp.data
  · rwa [span, hmap]
  · exact hlayout.congr (fun _ _ => rfl) (Nat.le_refl _) rfl
  · rw [hlen, length_placedFrom]
  · rw [← length_kept, hkept, hlen, length_placedFrom]
  · rw [had.msgs]
    exact hlayout.nodup
  · rw [had.msgs]
    exact hlayout.lt_next
  · intro id r hr
    rw [had.waits] at hr
    cases hr
  · rintro r (hr | ⟨id, hr⟩) -
    · rwa [had.msgs] at hr
    · rw [had.waits] at hr
      cases hr
  · exact had.msgs
  · have hpayloads := hlayout.kept_payloads
    rw [hkept, hmap] at hpayloads
    exact hpayloads.symm
  · intro r hr
    obtain ⟨s, hs, hsr⟩ := List.mem_filterMap.mp hr
    have := had.ids s hs
    rwa [← hlayout.laid.mem hs hsr] at this

theorem Layout.stored {pb : PayloadCodec} {q : QueueMessage} {lay : List Slot} (h : Layout pb q lay) :
    Stored (lay.map (·.payload)) := by
  intro p hp
  obtain ⟨s, hs, rfl⟩ := List.mem_map.mp hp
  cases ho : s.owner with
  | none => exact Or.inl ((h.flagged s hs).free ho)
  | some r => exact Or.inr ((h.flagged s hs).owned r ho)

/-! ### Boot -/

namespace Store
variable {pb : PayloadCodec} {s : Store}

/-- A store that was just opened on a data file with the records `ps`. -/
structure Opened (pb : PayloadCodec) (s : Store) (ps : List Payload) (lay : List Slot) : Prop where
  mapper : s.queue.mapper = .files s.baseDir s.qname
  dir : s.disk.isDir (MessageMapper.directory s.baseDir) = true
  inv : Inv pb s.disk s.queue lay
  recovered : Recovered pb (.files s.baseDir s.qname) ps s.queue lay

variable {d : Disk} {baseDir qname : String}

theorem boot_of_fresh (hfresh : MessageMapper.Fresh d baseDir qname) (hboot : boot pb d baseDir qname = some s) :
    ∃ lay, s.Opened pb [] lay := by
  unfold boot at hboot
  cases hnew : MessageMapper.new d baseDir qname with
  | none => simp [hnew] at hboot
  | some p =>
    obtain ⟨m, d₁⟩ := p
    obtain ⟨rfl, hcalm, hdir, hfile⟩ := MessageMapper.new_fresh hfresh hnew
    obtain ⟨q, d₂, lay, hrec, hinv, hr, hdirs⟩ := recovery_eq pb hcalm
      (MessageMapper.files_names baseDir qname) [] hfile (by simp) (by simp) nofun
    rw [hnew] at hboot
    simp only [hrec, Option.some.injEq] at hboot
    subst hboot
    refine ⟨lay, hr.mapper, ?_, hinv, hr⟩
    rw [Disk.isDir_congr hdirs]
    exact hdir

theorem boot_of_file (hd : d.Calm) (hdir : d.isDir (MessageMapper.directory baseDir) = true) {ps : List Payload}
    (hf : d.file? (MessageMapper.files baseDir qname).dataFile = some (encode pb ps))
    (hsize : (encode pb ps).length < 2 ^ 64) (hsmall : (encode pb (live ps)).length < 2 ^ 32) (hstored : Stored ps) :
    ∃ s lay, boot pb d baseDir qname = some s ∧ s.Opened pb ps lay ∧ s.baseDir = baseDir ∧ s.qname = qname := by
  obtain ⟨q, d', lay, hrec, hinv, hr, hdirs⟩ := recovery_eq pb hd (MessageMapper.files_names baseDir qname) ps hf hsize hsmall
    hstored
  refine ⟨{ baseDir, qname, disk := d', queue := q }, lay, ?_, ⟨hr.mapper, ?_, hinv, hr⟩, rfl, rfl⟩
  · unfold boot
    rw [MessageMapper.new_of_isDir hdir,
      MessageMapper.createMsgFile_of_file (MessageMapper.dataFile_ne baseDir qname) hf]
    simp only [hrec]
  · rw [Disk.isDir_congr hdirs]
    exact hdir

/-- A disk on which a queue can be opened: there is no data file yet, or a well-formed one. -/
inductive Openable (pb : PayloadCodec) (d : Disk) (baseDir qname : String) : Prop
  | fresh (h : MessageMapper.Fresh d baseDir qname)
  | existing (ps : List Payload) (calm : d.Calm) (dir : d.isDir (MessageMapper.directory baseDir) = true)
      (file : d.file? (MessageMapper.files baseDir qname).dataFile = some (encode pb ps))
      (size : (encode pb ps).length < 2 ^ 64) (small : (encode pb (live ps)).length < 2 ^ 32) (stored : Stored ps)

theorem Openable.boot (h : Openable pb d baseDir qname) (hboot : Store.boot pb d baseDir qname = some s) :
    ∃ ps lay, s.Opened pb ps lay := by
  cases h with
  | fresh h =>
    obtain ⟨lay, hopen⟩ := boot_of_fresh h hboot
    exact ⟨[], lay, hopen⟩
  | existing ps calm dir file size small stored =>
    obtain ⟨s', lay, hboot', hopen, -, -⟩ := boot_of_file calm dir file size small stored
    rw [hboot, Option.some.injEq] at hboot'
    exact ⟨ps, lay, hboot' ▸ hopen⟩

/-- An empty directory. -/
def vacant : Disk := .ofFiles (fun _ => none) fun p => p = resolve "data"

theorem vacant_fresh : MessageMapper.Fresh vacant "data" "q" := ⟨by decide, by decide +kernel, by decide⟩

theorem below4GiB_head {ops : List StoreOp} (h : s.below4GiB pb ops = true) :
    FileHelper.size s.disk s.queue.mapper.dataFile < 2 ^ 32 := by
  cases ops with
  | nil => simpa only [below4GiB, decide_eq_true_eq] using h
  | cons op ops =>
    simp only [below4GiB, Bool.and_eq_true, decide_eq_true_eq] at h
    exact h.1

end Store
end HareMQ
