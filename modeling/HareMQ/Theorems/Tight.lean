import HareMQ.Theorems.Recovery

/-! # Distinct ids

When no two messages have the same id, every durable message is pending or unacknowledged, and every map finds
what it is asked for. `used` collects the ids that were ever inserted. -/

namespace HareMQ
open Lib

/-- The queue still knows the message object. -/
def QueueMessage.Known (q : QueueMessage) (r : Ref) : Prop := r ∈ q.msgs ∨ ∃ id, q.waitAckMsgs.lookup id = some r

structure Tight (q : QueueMessage) (lay : List Slot) (used : List String) : Prop where
  synced : Synced q lay
  backed : ∀ r ∈ owners lay, q.Known r
  unique : ∀ r r', q.Known r → q.Known r' → (q.heap r).id = (q.heap r').id → r = r'
  used : ∀ r, q.Known r → (q.heap r).id ∈ used

section
variable {pb : PayloadCodec} {d : Disk} {q q' : QueueMessage} {lay lay' : List Slot} {used : List String}

theorem Books.known_lt (h : Books q lay) {r : Ref} (hr : q.Known r) : r < q.next :=
  hr.elim (h.lt_next r) fun ⟨_, hid⟩ => (h.waits hid).2.1

/-! ### Insert -/

theorem Inserted.known {msg : Message} (h : Inserted q q' lay lay' msg) {r : Ref} :
    q'.Known r ↔ q.Known r ∨ r = q.next := by
  unfold QueueMessage.Known
  rw [h.msgs, h.waits, List.mem_append, List.mem_singleton, or_right_comm]

theorem Tight.insert (h : Tight q lay used) (hinv : Inv pb d q lay) {msg : Message}
    (hins : Inserted q q' lay lay' msg) (hid : msg.id ∉ used) : Tight q' lay' (msg.id :: used) := by
  have hold : ∀ r, q.Known r → q'.heap r = q.heap r := fun r hr =>
    hins.old r (Nat.ne_of_lt (hinv.books.known_lt hr))
  have hnew : (q'.heap q.next).id = msg.id := by
    rw [Message.id, hins.payload, stored]
    split <;> rfl
  refine ⟨fun r hr => ?_, fun r hr => ?_, fun r r' hr hr' heq => ?_, fun r hr => ?_⟩
  · rw [hins.durable]
    rw [hins.owners] at hr
    split at hr
    · next hmode =>
      rw [if_pos hmode]
      rcases List.mem_append.mp hr with hr | hr
      · have hknown := h.backed r hr
        rw [hold r hknown, UMap.lookup_emplace_ne fun heq => hid (by rw [← heq]; exact h.used r hknown)]
        exact h.synced r hr
      · obtain rfl := List.mem_singleton.mp hr
        rw [hnew]
        refine UMap.lookup_emplace_self (fun hmem => hid ?_) _
        obtain ⟨r, hr⟩ := Option.isSome_iff_exists.mp (AList.lookup_isSome.mpr hmem)
        obtain ⟨howner, heq⟩ := hinv.core.layout.durable hr
        exact heq ▸ h.used r (h.backed r howner)
    · next hmode =>
      rw [if_neg hmode, hold r (h.backed r hr)]
      exact h.synced r hr
  · rw [hins.owners] at hr
    rw [hins.known]
    split at hr
    · exact (List.mem_append.mp hr).imp (h.backed r) List.mem_singleton.mp
    · exact Or.inl (h.backed r hr)
  · rw [hins.known] at hr hr'
    rcases hr with hr | rfl <;> rcases hr' with hr' | rfl
    · rw [hold r hr, hold r' hr'] at heq
      exact h.unique r r' hr hr' heq
    · rw [hold r hr, hnew] at heq
      exact absurd (heq ▸ h.used r hr) hid
    · rw [hold r' hr', hnew] at heq
      exact absurd (heq ▸ h.used r' hr') hid
    · rfl
  · rcases hins.known.mp hr with hr | rfl
    · rw [hold r hr]
      exact List.mem_cons_of_mem _ (h.used r hr)
    · rw [hnew]
      exact List.mem_cons_self

/-! ### Front -/

variable {r : Ref} {rest : List Ref}

/-- The delivered message is a new entry of the unacknowledged map. -/
theorem Tight.front_free (h : Tight q lay used) (hinv : Inv pb d q lay) (hq : q.msgs = r :: rest) :
    (q.heap r).id ∉ q.waitAckMsgs := by
  intro hmem
  obtain ⟨r', hr'⟩ := Option.isSome_iff_exists.mp (AList.lookup_isSome.mpr hmem)
  obtain ⟨heq, -, hnot⟩ := hinv.books.waits hr'
  have hr : r ∈ q.msgs := hq ▸ List.mem_cons_self
  obtain rfl := h.unique r r' (Or.inl hr) (Or.inr ⟨_, hr'⟩) heq.symm
  exact hnot hr

theorem front_eq (hq : q.msgs = r :: rest) : q.front =
    (some r, { q with msgs := rest, waitAckMsgs := q.waitAckMsgs.emplace (q.heap r).id r }) := by
  simp only [QueueMessage.front, hq]

/-- A delivery under a free id forgets no message object. -/
theorem front_known (hq : q.msgs = r :: rest) (hfree : (q.heap r).id ∉ q.waitAckMsgs) {r' : Ref} :
    q.front.2.Known r' ↔ q.Known r' := by
  rw [front_eq hq, QueueMessage.Known, QueueMessage.Known, hq, List.mem_cons]
  simp only [UMap.emplace_of_notMem hfree]
  constructor
  · rintro (hr' | ⟨id, hr'⟩)
    · exact Or.inl (Or.inr hr')
    · rw [← UMap.emplace_of_notMem hfree] at hr'
      rcases UMap.lookup_emplace_eq_some hr' with hr' | ⟨-, -, rfl⟩
      · exact Or.inr ⟨id, hr'⟩
      · exact Or.inl (Or.inl rfl)
  · rintro ((rfl | hr') | ⟨id, hr'⟩)
    · exact Or.inr ⟨_, AList.lookup_insert _⟩
    · exact Or.inl hr'
    · refine Or.inr ⟨id, ?_⟩
      rwa [AList.lookup_insert_ne]
      rintro rfl
      exact hfree (UMap.mem_of_lookup hr')

theorem Tight.front (h : Tight q lay used) (hinv : Inv pb d q lay) : Tight q.front.2 lay used := by
  cases hq : q.msgs with
  | nil => simpa only [QueueMessage.front, hq] using h
  | cons r rest =>
    have hknown : ∀ r', q.front.2.Known r' ↔ q.Known r' := fun r' => front_known hq (h.front_free hinv hq)
    have hheap : q.front.2.heap = q.heap := by rw [front_eq hq]
    refine ⟨?_, fun r' hr' => (hknown r').mpr (h.backed r' hr'), fun r₁ r₂ h₁ h₂ heq => ?_, fun r' hr' => ?_⟩
    · rw [front_eq hq]
      exact h.synced
    · rw [hheap] at heq
      exact h.unique r₁ r₂ ((hknown r₁).mp h₁) ((hknown r₂).mp h₂) heq
    · rw [hheap]
      exact h.used r' ((hknown r').mp hr')

/-! ### Remove -/

/-- Erasing an id forgets the message object that was waiting under it, and no other. -/
theorem Books.known_erase (h : Books q lay) {msgId : String} (hwait : q.waitAckMsgs.lookup msgId = some r)
    (hmsgs : q'.msgs = q.msgs) (hwaits : q'.waitAckMsgs = q.waitAckMsgs.erase msgId) {r' : Ref} :
    q'.Known r' ↔ q.Known r' ∧ r' ≠ r := by
  obtain ⟨hid, -, hnot⟩ := h.waits hwait
  rw [QueueMessage.Known, hmsgs, hwaits]
  constructor
  · rintro (hr' | ⟨id, hr'⟩)
    · exact ⟨Or.inl hr', fun heq => hnot (heq ▸ hr')⟩
    · obtain ⟨hne, hr'⟩ := UMap.lookup_erase_eq_some hr'
      refine ⟨Or.inr ⟨id, hr'⟩, fun heq => hne ?_⟩
      rw [← (h.waits hr').1, heq, hid]
  · rintro ⟨hr' | ⟨id, hr'⟩, hne⟩
    · exact Or.inl hr'
    · refine Or.inr ⟨id, ?_⟩
      rwa [AList.lookup_erase_ne]
      rintro rfl
      rw [hwait, Option.some.injEq] at hr'
      exact hne hr'.symm

theorem Tight.remove (h : Tight q lay used) (hinv : Inv pb d q lay) {msgId : String}
    (hrem : Removed q q' lay lay' msgId) : Tight q' lay' used := by
  cases hrem with
  | absent _ hq hlay =>
    subst hq hlay
    exact h
  | plain r hwait hmode hq hlay =>
    subst hq hlay
    have hknown : ∀ r', ({ q with waitAckMsgs := q.waitAckMsgs.erase msgId } : QueueMessage).Known r' ↔ q.Known r' ∧ r' ≠ r :=
      fun _ => by refine hinv.books.known_erase hwait ?_ ?_ <;> rfl
    refine ⟨h.synced, fun r' hr' => (hknown r').mpr ⟨h.backed r' hr', ?_⟩,
      fun r₁ r₂ h₁ h₂ heq => h.unique r₁ r₂ ((hknown r₁).mp h₁).1 ((hknown r₂).mp h₂).1 heq,
      fun r' hr' => h.used r' ((hknown r').mp hr').1⟩
    rintro rfl
    rw [hinv.core.layout.owner_isDurable hr'] at hmode
    cases hmode
  | durable r hwait howner howners hmapper hmsgs hwaits hdurable hnext hpayload hcontent =>
    have hknown : ∀ r', q'.Known r' ↔ q.Known r' ∧ r' ≠ r := fun _ => hinv.books.known_erase hwait hmsgs hwaits
    have hid : ∀ r' ≠ r, (q'.heap r').id = (q.heap r').id := fun r' hr' => congrArg Payload.id (hpayload r' hr')
    refine ⟨fun r' hr' => ?_, fun r' hr' => ?_, fun r₁ r₂ h₁ h₂ heq => ?_, fun r' hr' => ?_⟩
    · rw [howners, hinv.core.layout.nodup.mem_erase_iff] at hr'
      have hne : (q.heap r').id ≠ msgId := fun heq =>
        hr'.1 (h.synced.inj hr'.2 howner (heq.trans (hinv.books.waits hwait).1.symm))
      rw [hid r' hr'.1, hdurable, AList.lookup_erase_ne hne]
      exact h.synced r' hr'.2
    · rw [howners, hinv.core.layout.nodup.mem_erase_iff] at hr'
      exact (hknown r').mpr ⟨h.backed r' hr'.2, hr'.1⟩
    · obtain ⟨hk₁, hne₁⟩ := (hknown r₁).mp h₁
      obtain ⟨hk₂, hne₂⟩ := (hknown r₂).mp h₂
      rw [hid r₁ hne₁, hid r₂ hne₂] at heq
      exact h.unique r₁ r₂ hk₁ hk₂ heq
    · obtain ⟨hk, hne⟩ := (hknown r').mp hr'
      rw [hid r' hne]
      exact h.used r' hk

/-! ### Restart -/

/-- A queue recovered from the records of a queue with distinct ids has distinct ids. -/
theorem Tight.recovered (h : Tight q lay used) (hlayout : Layout pb q lay) {m : MessageMapper} (hinv : Inv pb d q' lay')
    (hrec : Recovered pb m (lay.map (·.payload)) q' lay') : Tight q' lay' used := by
  have hids : (owners lay').map (fun r => (q'.heap r).id) = (owners lay).map fun r => (q.heap r).id := by
    have := congrArg (List.map Payload.id) hrec.payloads
    rw [live_map_payload hlayout.flagged, hlayout.kept_payloads, List.map_map, List.map_map] at this
    exact this
  have hnodup : ((owners lay').map fun r => (q'.heap r).id).Nodup := by
    rw [hids]
    exact hlayout.nodup.map_on fun r hr r' hr' heq => h.synced.inj hr hr' heq
  have hknown : ∀ r, q'.Known r ↔ r ∈ owners lay' := by
    intro r
    rw [QueueMessage.Known, hrec.msgs, hrec.waits]
    simp
  have hinj : ∀ r ∈ owners lay', ∀ r' ∈ owners lay', (q'.heap r).id = (q'.heap r').id → r = r' :=
    fun r hr r' hr' heq => List.inj_on_of_nodup_map hnodup hr hr' heq
  refine ⟨hinv.core.layout.synced hrec.ids hinj, fun r hr => (hknown r).mpr hr,
    fun r r' hr hr' => hinj r ((hknown r).mp hr) r' ((hknown r').mp hr'), fun r hr => ?_⟩
  have hmem : (q'.heap r).id ∈ (owners lay').map fun r => (q'.heap r).id := List.mem_map_of_mem ((hknown r).mp hr)
  rw [hids] at hmem
  obtain ⟨r₀, hr₀, heq⟩ := List.mem_map.mp hmem
  exact heq ▸ h.used r₀ (h.backed r₀ hr₀)

end
end HareMQ
