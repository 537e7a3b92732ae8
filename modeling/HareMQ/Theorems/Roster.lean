import HareMQ.Consumer

/-! # Registered consumers

What the operations of `consumer_manager` do to the consumers that are registered. A consumer is known by its tag and
its queue. -/

namespace HareMQ
open Lib

/-- A vector without repeated keys holds no second element with an erased key. -/
theorem mem_eraseP_of_nodup {α κ : Type} [DecidableEq κ] (key : α → κ) {l : List α} (h : (l.map key).Nodup) (k : κ)
    {a : α} : a ∈ l.eraseP (key · = k) ↔ a ∈ l ∧ key a ≠ k := by
  induction l with
  | nil => simp
  | cons b l ih =>
    rw [List.map_cons, List.nodup_cons] at h
    by_cases hk : key b = k
    · rw [List.eraseP_cons_of_pos (by simpa using hk), List.mem_cons]
      constructor
      · intro ha
        refine ⟨Or.inr ha, fun heq => h.1 ?_⟩
        rw [hk, ← heq]
        exact List.mem_map_of_mem ha
      · rintro ⟨rfl | ha, hne⟩
        · exact absurd hk hne
        · exact ha
    · rw [List.eraseP_cons_of_neg (by simpa using hk), List.mem_cons, List.mem_cons, ih h.2]
      constructor
      · rintro (rfl | ⟨ha, hne⟩)
        · exact ⟨Or.inl rfl, hk⟩
        · exact ⟨Or.inr ha, hne⟩
      · rintro ⟨rfl | ha, hne⟩
        · exact Or.inl rfl
        · exact Or.inr ⟨ha, hne⟩

namespace ConsumerManager
variable {m : ConsumerManager} {c : Consumer} {ctag qname : String}

/-- All registered consumers. -/
def roster (m : ConsumerManager) : List Consumer := m.queueConsumers.entries.flatMap (·.2.consumers)

def Registered (m : ConsumerManager) (c : Consumer) : Prop :=
  ∃ qname qcp, m.queueConsumers.lookup qname = some qcp ∧ c ∈ qcp.consumers

theorem mem_roster : c ∈ m.roster ↔ m.Registered c := by
  rw [roster, List.mem_flatMap]
  constructor
  · rintro ⟨⟨qname, qcp⟩, hmem, hc⟩
    exact ⟨qname, qcp, UMap.mem_entries_iff.mp hmem, hc⟩
  · rintro ⟨qname, qcp, hlookup, hc⟩
    exact ⟨⟨qname, qcp⟩, UMap.mem_entries_iff.mpr hlookup, hc⟩

/-- A consumer is filed under its queue, and its tag is its own there. -/
structure Filed (m : ConsumerManager) : Prop where
  qname : ∀ {qname qcp}, m.queueConsumers.lookup qname = some qcp → ∀ c ∈ qcp.consumers, c.qname = qname
  tags : ∀ {qname qcp}, m.queueConsumers.lookup qname = some qcp → (qcp.consumers.map Consumer.tag).Nodup

theorem Filed.registered (hm : m.Filed) : m.Registered c ↔
    ∃ qcp, m.queueConsumers.lookup c.qname = some qcp ∧ c ∈ qcp.consumers := by
  constructor
  · rintro ⟨qname, qcp, hlookup, hc⟩
    rw [hm.qname hlookup c hc]
    exact ⟨qcp, hlookup, hc⟩
  · rintro ⟨qcp, hlookup, hc⟩
    exact ⟨c.qname, qcp, hlookup, hc⟩

/-- The consumers of one queue are replaced. -/
theorem registered_insert {qcp : QueueConsumer} (hm : m.Filed) (hq : ∀ c ∈ qcp.consumers, c.qname = qname) :
    ({ m with queueConsumers := m.queueConsumers.insert qname qcp } : ConsumerManager).Registered c ↔
      (c.qname = qname ∧ c ∈ qcp.consumers) ∨ (c.qname ≠ qname ∧ m.Registered c) := by
  rw [hm.registered]
  constructor
  · rintro ⟨qname', qcp', hlookup, hc⟩
    rw [UMap.lookup_insert] at hlookup
    split at hlookup
    · cases hlookup
      exact Or.inl ⟨hq c hc, hc⟩
    · next hne =>
      have hqname := hm.qname hlookup c hc
      subst hqname
      exact Or.inr ⟨hne, qcp', hlookup, hc⟩
  · rintro (⟨hqname, hc⟩ | ⟨hne, qcp', hlookup, hc⟩)
    · exact ⟨qname, qcp, by rw [UMap.lookup_insert, if_pos rfl], hc⟩
    · exact ⟨c.qname, qcp', by rw [UMap.lookup_insert, if_neg hne]; exact hlookup, hc⟩

theorem Filed.insert {qcp : QueueConsumer} (hm : m.Filed) (hq : ∀ c ∈ qcp.consumers, c.qname = qname)
    (htags : (qcp.consumers.map Consumer.tag).Nodup) :
    ({ m with queueConsumers := m.queueConsumers.insert qname qcp } : ConsumerManager).Filed where
  qname {qname' qcp'} hlookup := by
    rw [UMap.lookup_insert] at hlookup
    split at hlookup
    · next heq =>
      cases hlookup
      rw [heq]
      exact hq
    · exact hm.qname hlookup
  tags {qname' qcp'} hlookup := by
    rw [UMap.lookup_insert] at hlookup
    split at hlookup
    · cases hlookup
      exact htags
    · exact hm.tags hlookup

theorem filed_initQueueConsumer (hm : m.Filed) (qname : String) : (m.initQueueConsumer qname).Filed ∧
    ∀ c, (m.initQueueConsumer qname).Registered c ↔ m.Registered c := by
  unfold initQueueConsumer
  by_cases hmem : qname ∈ m.queueConsumers
  · rw [UMap.emplace_of_mem hmem]
    exact ⟨hm, fun _ => Iff.rfl⟩
  · rw [UMap.emplace_of_notMem hmem]
    have hnone : ∀ c ∈ ({ qname } : QueueConsumer).consumers, c.qname = qname := fun _ hc => nomatch hc
    refine ⟨hm.insert hnone List.nodup_nil, fun c => ?_⟩
    rw [registered_insert hm hnone]
    constructor
    · rintro (⟨-, hc⟩ | ⟨-, hc⟩)
      · cases hc
      · exact hc
    · intro hc
      refine Or.inr ⟨fun heq => hmem ?_, hc⟩
      rcases hm.registered.mp hc with ⟨qcp, hlookup, -⟩
      rw [← heq]
      exact UMap.mem_of_lookup hlookup

theorem filed_destroyQueueConsumer (hm : m.Filed) (qname : String) : (m.destroyQueueConsumer qname).Filed ∧
    ∀ c, (m.destroyQueueConsumer qname).Registered c ↔ m.Registered c ∧ c.qname ≠ qname := by
  have hold : ∀ {qname' qcp}, (m.destroyQueueConsumer qname).queueConsumers.lookup qname' = some qcp →
      qname' ≠ qname ∧ m.queueConsumers.lookup qname' = some qcp := UMap.lookup_erase_eq_some
  refine ⟨⟨fun hlookup => hm.qname (hold hlookup).2, fun hlookup => hm.tags (hold hlookup).2⟩, fun c => ?_⟩
  constructor
  · rintro ⟨qname', qcp, hlookup, hc⟩
    rcases hold hlookup with ⟨hne, hlookup⟩
    refine ⟨⟨qname', qcp, hlookup, hc⟩, ?_⟩
    rwa [hm.qname hlookup c hc]
  · rintro ⟨hc, hne⟩
    rcases hm.registered.mp hc with ⟨qcp, hlookup, hc⟩
    refine ⟨c.qname, qcp, ?_, hc⟩
    rw [destroyQueueConsumer, UMap.lookup_erase, if_neg hne]
    exact hlookup

/-- A taken tag or an unknown queue changes nothing; otherwise the new consumer is the only difference. -/
theorem create_cases (hm : m.Filed) (ctag queueName : String) (ackFlag : Bool) (cb : ChannelRef) :
    (m.create ctag queueName ackFlag cb).2.Filed ∧
      ((m.create ctag queueName ackFlag cb).1 = none ∧
        ((queueName ∉ m.queueConsumers) ∨ ∃ c, m.Registered c ∧ c.tag = ctag ∧ c.qname = queueName) ∧
        (∀ c, (m.create ctag queueName ackFlag cb).2.Registered c ↔ m.Registered c) ∨
      (m.create ctag queueName ackFlag cb).1 = some ⟨ctag, queueName, ackFlag, cb⟩ ∧ queueName ∈ m.queueConsumers ∧
        (∀ c, m.Registered c → ¬(c.tag = ctag ∧ c.qname = queueName)) ∧
        ∀ c, (m.create ctag queueName ackFlag cb).2.Registered c ↔ m.Registered c ∨ c = ⟨ctag, queueName, ackFlag, cb⟩) := by
  unfold create
  cases hlookup : m.queueConsumers.lookup queueName with
  | none => exact ⟨hm, Or.inl ⟨rfl, Or.inl (AList.lookup_eq_none.mp hlookup), fun _ => Iff.rfl⟩⟩
  | some qcp =>
    have hq := hm.qname hlookup
    have htags := hm.tags hlookup
    simp only [QueueConsumer.create]
    split
    · next htaken =>
      rw [List.any_eq_true] at htaken
      rcases htaken with ⟨c₀, hc₀, htag⟩
      refine ⟨hm.insert hq htags, Or.inl ⟨rfl, Or.inr ⟨c₀, ⟨queueName, qcp, hlookup, hc₀⟩, of_decide_eq_true htag,
        hq c₀ hc₀⟩, fun c => ?_⟩⟩
      rw [registered_insert hm hq, hm.registered]
      constructor
      · rintro (⟨rfl, hc⟩ | ⟨-, hc⟩)
        · exact ⟨qcp, hlookup, hc⟩
        · exact hc
      · rintro ⟨qcp', hlookup', hc⟩
        by_cases hname : c.qname = queueName
        · rw [hname, hlookup, Option.some.injEq] at hlookup'
          subst hlookup'
          exact Or.inl ⟨hname, hc⟩
        · exact Or.inr ⟨hname, qcp', hlookup', hc⟩
    · next hfree =>
      have hnew : ∀ c ∈ qcp.consumers ++ [(⟨ctag, queueName, ackFlag, cb⟩ : Consumer)], c.qname = queueName := by
        intro c hc
        rcases List.mem_append.mp hc with hc | hc
        · exact hq c hc
        · rw [List.mem_singleton.mp hc]
      have hfree' : ∀ c ∈ qcp.consumers, c.tag ≠ ctag := fun c hc htag =>
        hfree (List.any_eq_true.mpr ⟨c, hc, decide_eq_true htag⟩)
      have hnodup : ((qcp.consumers ++ [(⟨ctag, queueName, ackFlag, cb⟩ : Consumer)]).map Consumer.tag).Nodup := by
        rw [List.map_append, List.map_singleton]
        refine List.nodup_append.mpr ⟨htags, List.nodup_singleton _, fun t ht t' ht' heq => ?_⟩
        rcases List.mem_map.mp ht with ⟨c, hc, rfl⟩
        rw [List.mem_singleton.mp ht'] at heq
        exact hfree' c hc heq
      refine ⟨hm.insert hnew hnodup, Or.inr ⟨rfl, UMap.mem_of_lookup hlookup, ?_, fun c => ?_⟩⟩
      · rintro c hc ⟨htag, hname⟩
        rcases hm.registered.mp hc with ⟨qcp', hlookup', hc⟩
        rw [hname, hlookup, Option.some.injEq] at hlookup'
        subst hlookup'
        exact hfree' c hc htag
      · rw [registered_insert hm hnew, hm.registered, List.mem_append, List.mem_singleton]
        constructor
        · rintro (⟨rfl, hc | hc⟩ | ⟨-, hc⟩)
          · exact Or.inl ⟨qcp, hlookup, hc⟩
          · exact Or.inr hc
          · exact Or.inl hc
        · rintro (⟨qcp', hlookup', hc⟩ | rfl)
          · by_cases hname : c.qname = queueName
            · rw [hname, hlookup, Option.some.injEq] at hlookup'
              subst hlookup'
              exact Or.inl ⟨hname, Or.inl hc⟩
            · exact Or.inr ⟨hname, qcp', hlookup', hc⟩
          · exact Or.inl ⟨rfl, Or.inr rfl⟩

theorem filed_remove (hm : m.Filed) (ctag queueName : String) : (m.remove ctag queueName).Filed ∧
    ∀ c, (m.remove ctag queueName).Registered c ↔ m.Registered c ∧ ¬(c.tag = ctag ∧ c.qname = queueName) := by
  unfold remove
  cases hlookup : m.queueConsumers.lookup queueName with
  | none =>
    refine ⟨hm, fun c => (and_iff_left_of_imp fun hc hkey => ?_).symm⟩
    rcases hm.registered.mp hc with ⟨qcp, hlookup', -⟩
    rw [hkey.2, hlookup] at hlookup'
    cases hlookup'
  | some qcp =>
    have htags := hm.tags hlookup
    have hmem : ∀ c, c ∈ (qcp.remove ctag).consumers ↔ c ∈ qcp.consumers ∧ c.tag ≠ ctag :=
      fun c => mem_eraseP_of_nodup Consumer.tag htags ctag
    have hq : ∀ c ∈ (qcp.remove ctag).consumers, c.qname = queueName := fun c hc => hm.qname hlookup c ((hmem c).mp hc).1
    have hnodup : ((qcp.remove ctag).consumers.map Consumer.tag).Nodup := (List.eraseP_sublist.map _).nodup htags
    refine ⟨hm.insert hq hnodup, fun c => ?_⟩
    dsimp only
    rw [registered_insert hm hq, hmem, hm.registered]
    constructor
    · rintro (⟨rfl, hc, hne⟩ | ⟨hne, hc⟩)
      · exact ⟨⟨qcp, hlookup, hc⟩, fun hkey => hne hkey.1⟩
      · exact ⟨hc, fun hkey => hne hkey.2⟩
    · rintro ⟨⟨qcp', hlookup', hc⟩, hkey⟩
      by_cases hname : c.qname = queueName
      · rw [hname, hlookup, Option.some.injEq] at hlookup'
        subst hlookup'
        exact Or.inl ⟨hname, hc, fun htag => hkey ⟨htag, hname⟩⟩
      · exact Or.inr ⟨hname, qcp', hlookup', hc⟩

/-- The choice moves the counter only, and falls on a registered consumer. -/
theorem choose_cases (hm : m.Filed) (queueName : String) : (m.choose queueName).2.Filed ∧
    (∀ c, (m.choose queueName).2.Registered c ↔ m.Registered c) ∧
    ∀ c, (m.choose queueName).1 = some c → m.Registered c ∧ c.qname = queueName := by
  unfold choose
  cases hlookup : m.queueConsumers.lookup queueName with
  | none => exact ⟨hm, fun _ => Iff.rfl, nofun⟩
  | some qcp =>
    have hq := hm.qname hlookup
    have hsame : qcp.rrChoose.2.consumers = qcp.consumers := by
      unfold QueueConsumer.rrChoose
      split <;> rfl
    have hq' : ∀ c ∈ qcp.rrChoose.2.consumers, c.qname = queueName := by rwa [hsame]
    have htags' : (qcp.rrChoose.2.consumers.map Consumer.tag).Nodup := by
      rw [hsame]
      exact hm.tags hlookup
    refine ⟨hm.insert hq' htags', fun c => ?_, fun c hc => ?_⟩
    · dsimp only
      rw [registered_insert hm hq', hsame, hm.registered]
      constructor
      · rintro (⟨rfl, hc⟩ | ⟨-, hc⟩)
        · exact ⟨qcp, hlookup, hc⟩
        · exact hc
      · rintro ⟨qcp', hlookup', hc⟩
        by_cases hname : c.qname = queueName
        · rw [hname, hlookup, Option.some.injEq] at hlookup'
          subst hlookup'
          exact Or.inl ⟨hname, hc⟩
        · exact Or.inr ⟨hname, qcp', hlookup', hc⟩
    · dsimp only at hc
      unfold QueueConsumer.rrChoose at hc
      split at hc
      · cases hc
      · have hmem := List.mem_of_getElem? hc
        exact ⟨⟨queueName, qcp, hlookup, hmem⟩, hq c hmem⟩

end ConsumerManager

end HareMQ
