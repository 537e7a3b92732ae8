import HareMQ.Theorems.Mapper

/-! # The data file and the messages in memory

A layout says who owns each record of the data file: a live record belongs to one message object, whose
recorded place is the place of the record, and an invalidated record to none. -/

namespace HareMQ
open Lib

/-! ### Slots -/

/-- A record of the data file and the message object it belongs to. -/
structure Slot where
  payload : Payload
  owner : Option Ref

/-- The message objects that own a record, in the order of their records. -/
def owners (lay : List Slot) : List Ref := lay.filterMap (·.owner)

@[simp] theorem owners_nil : owners [] = [] := rfl

@[simp] theorem owners_append (l₁ l₂ : List Slot) : owners (l₁ ++ l₂) = owners l₁ ++ owners l₂ := by
  simp [owners]

@[simp] theorem owners_cons_some (p : Payload) (r : Ref) (lay : List Slot) : owners (⟨p, some r⟩ :: lay) = r :: owners lay := rfl

@[simp] theorem owners_cons_none (p : Payload) (lay : List Slot) : owners (⟨p, none⟩ :: lay) = owners lay := rfl

/-- The slot of an owner splits the layout. -/
theorem exists_slot_of_mem_owners {lay : List Slot} {r : Ref} (h : r ∈ owners lay) :
    ∃ l₁ p l₂, lay = l₁ ++ ⟨p, some r⟩ :: l₂ := by
  obtain ⟨s, hs, hr⟩ := List.mem_filterMap.mp h
  obtain ⟨l₁, l₂, rfl⟩ := List.append_of_mem hs
  obtain ⟨p, owner⟩ := s
  cases hr
  exact ⟨l₁, p, l₂, rfl⟩

/-- The owned records, which a compaction keeps. -/
def kept (lay : List Slot) : List Slot := lay.filter (·.owner.isSome)

theorem owners_kept (lay : List Slot) : owners (kept lay) = owners lay := by
  induction lay with
  | nil => rfl
  | cons s lay ih =>
    obtain ⟨p, owner⟩ := s
    cases owner <;> simp_all [kept]

section
variable (pb : PayloadCodec)

/-- The bytes that the records of a layout take. -/
def span (lay : List Slot) : Nat := (encode pb (lay.map (·.payload))).length

@[simp] theorem span_nil : span pb [] = 0 := rfl

@[simp] theorem span_append (l₁ l₂ : List Slot) : span pb (l₁ ++ l₂) = span pb l₁ + span pb l₂ := by
  simp [span]

@[simp] theorem span_cons (s : Slot) (lay : List Slot) :
    span pb (s :: lay) = 8 + (pb.serialize s.payload).length + span pb lay := by
  simp [span]

/-- The message object that a record at `base` describes. -/
def placedAt (base : Nat) (p : Payload) : Message :=
  { payload := p, offset := base + 8, length := (pb.serialize p).length }

/-- Every owner of a record holds the record's payload and place. -/
def Laid (heap : Ref → Message) : Nat → List Slot → Prop
  | _, [] => True
  | base, s :: lay => (∀ r, s.owner = some r → heap r = placedAt pb base s.payload) ∧
      Laid heap (base + (8 + (pb.serialize s.payload).length)) lay

variable {pb} {heap heap' : Ref → Message} {base : Nat}

theorem laid_append {l₁ l₂ : List Slot} : Laid pb heap base (l₁ ++ l₂) ↔
    Laid pb heap base l₁ ∧ Laid pb heap (base + span pb l₁) l₂ := by
  induction l₁ generalizing base with
  | nil => simp [Laid]
  | cons s l₁ ih =>
    simp only [List.cons_append, Laid, ih, span_cons, and_assoc, Nat.add_assoc]

/-- A heap that agrees on the owners is laid out the same way. -/
theorem Laid.congr {lay : List Slot} (h : Laid pb heap base lay) (heq : ∀ r ∈ owners lay, heap' r = heap r) :
    Laid pb heap' base lay := by
  induction lay generalizing base with
  | nil => trivial
  | cons s lay ih =>
    obtain ⟨p, owner⟩ := s
    refine ⟨fun r hr => ?_, ih h.2 fun r hr => heq r ?_⟩
    · cases hr
      rw [heq r (by simp)]
      exact h.1 r rfl
    · cases owner <;> simp [hr]

theorem Laid.mem {lay : List Slot} (h : Laid pb heap base lay) {s : Slot} (hs : s ∈ lay) {r : Ref} (hr : s.owner = some r) :
    (heap r).payload = s.payload := by
  obtain ⟨l₁, l₂, rfl⟩ := List.append_of_mem hs
  rw [((laid_append.mp h).2).1 r hr]
  rfl

/-- The place of a record that the layout is split at. -/
theorem Laid.at {l₁ l₂ : List Slot} {p : Payload} {r : Ref} (h : Laid pb heap 0 (l₁ ++ ⟨p, some r⟩ :: l₂)) :
    heap r = placedAt pb (span pb l₁) p := by
  have := ((laid_append.mp h).2).1 r rfl
  rwa [Nat.zero_add] at this

end

/-- An owned record is valid and durable, and a record without owner is invalid. -/
structure Slot.Flagged (s : Slot) : Prop where
  free : s.owner = none → s.payload.valid = "0"
  owned : ∀ r, s.owner = some r → s.payload.valid = "1" ∧ s.payload.deliveryMode = .durable

/-- The compacted file holds the owned records. -/
theorem live_map_payload {lay : List Slot} (h : ∀ s ∈ lay, s.Flagged) :
    live (lay.map (·.payload)) = (kept lay).map (·.payload) := by
  induction lay with
  | nil => rfl
  | cons s lay ih =>
    have hs := h s (by simp)
    have ih := ih fun t ht => h t (by simp [ht])
    cases ho : s.owner with
    | none => simpa [kept, ho, live_cons_of_eq (hs.free ho)] using ih
    | some r =>
      have hne : s.payload.valid ≠ "0" := by rw [(hs.owned r ho).1]; decide
      simpa [kept, ho, live_cons_of_ne hne] using ih

/-! ### The layout of a queue -/

/-- The messages in memory agree with the records of the data file. -/
structure Layout (pb : PayloadCodec) (q : QueueMessage) (lay : List Slot) : Prop where
  laid : Laid pb q.heap 0 lay
  flagged : ∀ s ∈ lay, s.Flagged
  nodup : (owners lay).Nodup
  lt_next : ∀ r ∈ owners lay, r < q.next
  durable : ∀ {id r}, q.durableMsgs.lookup id = some r → r ∈ owners lay ∧ (q.heap r).id = id

namespace Layout
variable {pb : PayloadCodec} {q : QueueMessage} {lay : List Slot}

theorem owner_payload (h : Layout pb q lay) {r : Ref} (hr : r ∈ owners lay) :
    (q.heap r).payload.valid = "1" ∧ (q.heap r).payload.deliveryMode = .durable := by
  obtain ⟨s, hs, hsr⟩ := List.mem_filterMap.mp hr
  rw [h.laid.mem hs hsr]
  exact (h.flagged s hs).owned r hsr

theorem owner_isDurable (h : Layout pb q lay) {r : Ref} (hr : r ∈ owners lay) : (q.heap r).isDurable = true := by
  simp [Message.isDurable, (h.owner_payload hr).2]

/-- What the layout reads from a queue. -/
theorem congr {q' : QueueMessage} (h : Layout pb q lay) (hheap : ∀ r ∈ owners lay, q'.heap r = q.heap r)
    (hnext : q.next ≤ q'.next) (hdurable : q'.durableMsgs = q.durableMsgs) : Layout pb q' lay where
  laid := h.laid.congr hheap
  flagged := h.flagged
  nodup := h.nodup
  lt_next r hr := Nat.lt_of_lt_of_le (h.lt_next r hr) hnext
  durable {id r} hr := by
    rw [hdurable] at hr
    rw [hheap r (h.durable hr).1]
    exact h.durable hr

/-- A record at the end belongs to the message that is adopted for it. -/
theorem adopt (h : Layout pb q lay) (msg : Message) (hplace : msg = placedAt pb (span pb lay) msg.payload)
    (hvalid : msg.payload.valid = "1") (hmode : msg.payload.deliveryMode = .durable) :
    Layout pb (q.adopt msg) (lay ++ [⟨msg.payload, some q.next⟩]) := by
  have hold : ∀ r ∈ owners lay, (q.adopt msg).heap r = q.heap r := fun r hr =>
    Function.update_of_ne (Nat.ne_of_lt (h.lt_next r hr)) _ _
  have hnew : (q.adopt msg).heap q.next = msg := Function.update_self _ _ _
  refine ⟨laid_append.mpr ⟨h.laid.congr hold, fun r hr => ?_, trivial⟩, fun s hs => ?_, ?_, fun r hr => ?_, ?_⟩
  · cases hr
    rw [hnew, Nat.zero_add]
    exact hplace
  · rcases List.mem_append.mp hs with hs | hs
    · exact h.flagged s hs
    · obtain rfl := List.mem_singleton.mp hs
      exact ⟨nofun, fun _ _ => ⟨hvalid, hmode⟩⟩
  · rw [owners_append, List.nodup_append]
    refine ⟨h.nodup, by simp, fun r hr r' hr' heq => ?_⟩
    rw [owners_cons_some, owners_nil, List.mem_singleton] at hr'
    exact absurd (heq.trans hr') (Nat.ne_of_lt (h.lt_next r hr))
  · rw [owners_append, List.mem_append] at hr
    rcases hr with hr | hr
    · exact Nat.lt_succ_of_lt (h.lt_next r hr)
    · rw [owners_cons_some, owners_nil, List.mem_singleton] at hr
      rw [hr]
      exact Nat.lt_succ_self _
  · intro id r hr
    rw [owners_append, List.mem_append]
    rcases UMap.lookup_emplace_eq_some hr with hr | ⟨rfl, -, rfl⟩
    · rw [hold r (h.durable hr).1]
      exact ⟨Or.inl (h.durable hr).1, (h.durable hr).2⟩
    · rw [hnew]
      exact ⟨Or.inr (by simp), rfl⟩

/-- Invalidating the record of an owner frees its slot. -/
theorem invalidate (h : Layout pb q lay) {l₁ l₂ : List Slot} {p : Payload} {r : Ref} {id : String}
    (hlay : lay = l₁ ++ ⟨p, some r⟩ :: l₂) (hid : p.id = id)
    (hlen : (pb.serialize (p.setValid "0")).length = (pb.serialize p).length) {msg : Message} {valid : Nat} :
    Layout pb { q with heap := Function.update q.heap r msg, durableMsgs := q.durableMsgs.erase id, validCount := valid }
      (l₁ ++ ⟨p.setValid "0", none⟩ :: l₂) := by
  subst hlay
  have hnodup := h.nodup
  rw [owners_append, owners_cons_some, List.nodup_append, List.nodup_cons] at hnodup
  obtain ⟨hn₁, ⟨hr₂, hn₂⟩, hdisj⟩ := hnodup
  have hr₁ : r ∉ owners l₁ := fun hr => hdisj r hr r (by simp) rfl
  have hold : ∀ r' ∈ owners l₁ ++ owners l₂, Function.update q.heap r msg r' = q.heap r' := by
    intro r' hr'
    refine Function.update_of_ne (fun heq => ?_) _ _
    subst heq
    rcases List.mem_append.mp hr' with hr' | hr'
    · exact hr₁ hr'
    · exact hr₂ hr'
  obtain ⟨hlaid₁, -, hlaid₂⟩ := laid_append.mp h.laid
  refine ⟨laid_append.mpr ⟨hlaid₁.congr fun r' hr' => hold r' (List.mem_append_left _ hr'), ?_, ?_⟩, fun s hs => ?_, ?_,
    fun r' hr' => ?_, ?_⟩
  · intro r' hr'
    cases hr'
  · rw [show (pb.serialize (p.setValid "0")).length = (pb.serialize p).length from hlen]
    exact hlaid₂.congr fun r' hr' => hold r' (List.mem_append_right _ hr')
  · rcases List.mem_append.mp hs with hs | hs
    · exact h.flagged s (List.mem_append_left _ hs)
    · rcases List.mem_cons.mp hs with rfl | hs
      · exact ⟨fun _ => rfl, nofun⟩
      · exact h.flagged s (List.mem_append_right _ (List.mem_cons_of_mem _ hs))
  · rw [owners_append, owners_cons_none, List.nodup_append]
    exact ⟨hn₁, hn₂, fun a ha b hb => hdisj a ha b (List.mem_cons_of_mem _ hb)⟩
  · rw [owners_append, owners_cons_none] at hr'
    refine h.lt_next r' ?_
    rw [owners_append, owners_cons_some]
    rcases List.mem_append.mp hr' with hr' | hr'
    · exact List.mem_append_left _ hr'
    · exact List.mem_append_right _ (List.mem_cons_of_mem _ hr')
  · intro id' r' hr'
    obtain ⟨hne, hr'⟩ := UMap.lookup_erase_eq_some hr'
    obtain ⟨hmem, hid'⟩ := h.durable hr'
    -- The entry is not the owner's: its id is the erased one.
    have hrr : r' ≠ r := by
      rintro rfl
      rw [h.laid.at] at hid'
      exact hne (hid'.symm.trans hid)
    rw [owners_append, owners_cons_some, List.mem_append, List.mem_cons] at hmem
    have hmem' : r' ∈ owners l₁ ++ owners l₂ := by
      rcases hmem with hm | hm | hm
      · exact List.mem_append_left _ hm
      · exact absurd hm hrr
      · exact List.mem_append_right _ hm
    rw [owners_append, owners_cons_none]
    exact ⟨hmem', (congrArg Message.id (hold r' hmem')).trans hid'⟩

end Layout

/-! ### Relocation after a compaction -/

/-- The durable map finds every owner under its id. -/
def Synced (q : QueueMessage) (lay : List Slot) : Prop :=
  ∀ r ∈ owners lay, q.durableMsgs.lookup (q.heap r).id = some r

/-- The loop of `gc` gives every owner the place of its record in the new file, and changes nothing else. -/
theorem foldl_relocate (pb : PayloadCodec) : ∀ (lay : List Slot) (base : Nat) (q : QueueMessage),
    base + span pb lay < 2 ^ 32 → (owners lay).Nodup →
    (∀ s ∈ lay, ∃ r, s.owner = some r ∧ q.durableMsgs.lookup s.payload.id = some r ∧ (q.heap r).payload = s.payload) →
    ∃ heap, (placedFrom pb base (lay.map (·.payload))).foldl QueueMessage.relocate q = { q with heap := heap } ∧
      Laid pb heap base lay ∧ (∀ r, (heap r).payload = (q.heap r).payload) ∧ ∀ r ∉ owners lay, heap r = q.heap r
  | [], base, q, _, _, _ => ⟨q.heap, rfl, trivial, fun _ => rfl, fun _ _ => rfl⟩
  | s :: lay, base, q, hsize, hnodup, hfound => by
    obtain ⟨r, hr, hlookup, hpayload⟩ := hfound s (by simp)
    obtain ⟨p, owner⟩ := s
    cases hr
    rw [owners_cons_some, List.nodup_cons] at hnodup
    rw [span_cons] at hsize
    dsimp only at hsize hlookup hpayload
    -- The first message finds its object and patches it.
    have hfirst : q.relocate (({ payload := p } : Message).setPlace (base + 8) (pb.serialize p).length) =
        { q with heap := Function.update q.heap r (placedAt pb base p) } := by
      have hmsg : (⟨(q.heap r).payload, base + 8, (pb.serialize p).length⟩ : Message) = placedAt pb base p := by
        rw [placedAt, ← hpayload]
      simp only [QueueMessage.relocate, Message.id, hlookup, Message.setPlace]
      rw [Nat.mod_eq_of_lt (by omega), Nat.mod_eq_of_lt (by omega), hmsg]
    have hpatched : ∀ r', (Function.update q.heap r (placedAt pb base p) r').payload = (q.heap r').payload := by
      intro r'
      by_cases hrr : r' = r
      · subst hrr
        rw [Function.update_self, hpayload]
        rfl
      · rw [Function.update_of_ne hrr]
    obtain ⟨heap, hfold, hlaid, hpay, hother⟩ := foldl_relocate pb lay (base + (8 + (pb.serialize p).length))
      { q with heap := Function.update q.heap r (placedAt pb base p) } (by omega) hnodup.2 fun t ht => by
        obtain ⟨r', h₁, h₂, h₃⟩ := hfound t (List.mem_cons_of_mem _ ht)
        exact ⟨r', h₁, h₂, (hpatched r').trans h₃⟩
    refine ⟨heap, ?_, ⟨fun r' hr' => ?_, hlaid⟩, fun r' => (hpay r').trans (hpatched r'), fun r' hr' => ?_⟩
    · rw [List.map_cons, placedFrom, List.foldl_cons, hfirst, Nat.add_assoc]
      exact hfold
    · cases hr'
      exact (hother r hnodup.1).trans (Function.update_self _ _ _)
    · rw [owners_cons_some, List.mem_cons, not_or] at hr'
      rw [hother r' hr'.2]
      exact Function.update_of_ne hr'.1 _ _

end HareMQ
