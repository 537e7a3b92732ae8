import HareMQ.Codec
import HareMQ.Theorems.Registry

/-! # Subscriptions and their channels

A channel remembers the last consumer that it created, by tag and queue, and its destructor removes whatever is
registered there. So it can leave behind a consumer of its own, and it can remove the consumer of another channel. -/

namespace HareMQ
open Lib

namespace Sys
variable {pb : PayloadCodec} {s s' : Sys} {act : Act}

/-! ### Orphans -/

/-- The channel that created a registered consumer is open. -/
def NoOrphans (s : Sys) : Prop := ∀ c, s.broker.consumers.Registered c → s.broker.registry.Open c.callback

/-- A registered consumer of a channel that closes is in the slot of that channel, or at least of a channel that closes
    with it. -/
def clears (s : Sys) : Act → Bool
  | .request conn (.closeChannel req) =>
    match s.broker.registry.channelAt conn req.cid with
    | none => true
    | some self => s.broker.consumers.roster.all fun c => c.callback != self || s.broker.registry.holds self c
  | .disconnect conn =>
    match s.broker.conns.lookup conn with
    | none => true
    | some channels =>
      s.broker.consumers.roster.all fun c =>
        channels.entries.all (·.2 != c.callback) || channels.entries.any fun e => s.broker.registry.holds e.2 c
  | _ => true

theorem not_closes_channelOp (s : Sys) (conn : ConnRef) (req : Request) (r : Registry) (self : ChannelRef) :
    ¬r.Closes self (s.channelOp pb conn req) := by
  unfold channelOp
  split
  · split <;> exact id
  · exact id
  · split <;> exact id
  · exact id
  · exact id

/-- A request that is not about channels closes none. -/
theorem not_closes_request {conn : ConnRef} {req : Request} (hreq : ∀ req', req ≠ .closeChannel req') (r : Registry)
    (self : ChannelRef) : ¬r.Closes self (s.registryOp pb (.request conn req)) := by
  cases req with
  | openChannel req => exact id
  | closeChannel req => exact absurd rfl (hreq req)
  | _ =>
    unfold registryOp
    dsimp only
    split
    · exact id
    · exact not_closes_channelOp s conn _ r self

/-- What the condition says about the operation. -/
theorem clears_iff (pb : PayloadCodec) (s : Sys) (act : Act) : s.clears act = true ↔
    ∀ c, s.broker.consumers.Registered c → s.broker.registry.Kept c (s.registryOp pb act) →
      ¬s.broker.registry.Closes c.callback (s.registryOp pb act) := by
  cases act with
  | request conn req =>
    by_cases hreq : ∃ req', req = .closeChannel req'
    · rcases hreq with ⟨req, rfl⟩
      simp only [clears, registryOp, Registry.Kept, Registry.Closes]
      cases s.broker.registry.channelAt conn req.cid with
      | none => simp
      | some self =>
        simp only [List.all_eq_true, ConsumerManager.mem_roster, Bool.or_eq_true, bne_iff_ne, Option.some.injEq,
          forall_eq']
        refine forall₂_congr fun c _ => ⟨fun h hkept heq => ?_, fun h => ?_⟩
        · rcases h with hne | hholds
          · exact hne heq.symm
          · rw [hkept] at hholds
            cases hholds
        · cases hholds : s.broker.registry.holds self c with
          | true => exact Or.inr rfl
          | false => exact Or.inl (Ne.symm (h hholds))
    · have hreq' : ∀ req', req ≠ .closeChannel req' := fun req' heq => hreq ⟨req', heq⟩
      have htrue : s.clears (.request conn req) = true := by
        cases req with
        | closeChannel req => exact absurd rfl (hreq' req)
        | _ => rfl
      exact ⟨fun _ c _ _ => not_closes_request hreq' _ _, fun _ => htrue⟩
  | disconnect conn =>
    have hconns : s.broker.registry.conns = s.broker.conns := rfl
    simp only [clears, registryOp, Registry.Kept, Registry.Closes, hconns, Registry.channelAt]
    cases s.broker.conns.lookup conn with
    | none => simp
    | some channels =>
      simp only [List.all_eq_true, ConsumerManager.mem_roster, Bool.or_eq_true, bne_iff_ne, Option.some.injEq,
        forall_eq', Option.bind_some, List.any_eq_true]
      refine forall₂_congr fun c _ => ⟨?_, fun h => ?_⟩
      · rintro (hne | ⟨e, he, hholds⟩) hkept ⟨cid, hcid⟩
        · exact hne ⟨cid, c.callback⟩ (UMap.mem_entries_iff.mpr hcid) rfl
        · rw [hkept e he] at hholds
          cases hholds
      · by_cases hany : ∃ e ∈ channels.entries, s.broker.registry.holds e.2 c = true
        · exact Or.inr hany
        · refine Or.inl fun e he heq => h (fun e' he' => ?_) ⟨e.1, UMap.mem_entries_iff.mp ?_⟩
          · rw [← Bool.not_eq_true]
            exact fun hholds => hany ⟨e', he', hholds⟩
          · rw [← heq]
            exact he
  | work =>
    refine ⟨fun _ c _ _ => ?_, fun _ => rfl⟩
    unfold registryOp
    dsimp only
    split <;> exact id
  | _ => exact ⟨fun _ _ _ _ => id, fun _ => rfl⟩

theorem step_noOrphans (hs : s.broker.registry.Sound ∧ s.NoOrphans) (hstep : s.step pb act = some s')
    (hclear : s.clears act = true) : s'.broker.registry.Sound ∧ s'.NoOrphans := by
  refine ⟨step_registry_sound hs.1 hstep, fun c hc => ?_⟩
  by_cases hact : act = .restart
  · subst hact
    exact absurd hc ((boot_registry hstep).2.2.2.2 c)
  · have hreg := registry_step hstep hact
    have hcons : s'.broker.consumers = (s.broker.registry.apply (s.registryOp pb act)).consumers := congrArg Registry.consumers hreg
    rw [hreg]
    rw [hcons] at hc
    rcases ((Registry.consumers_apply hs.1.filed _).2 c).mp hc with ⟨hc, hkept⟩ | hcreated
    · exact (Registry.open_apply hs.1 (hs.2 c hc)).mpr ((clears_iff pb s act).mp hclear c hc hkept)
    · -- The creator is open, and a subscription closes nothing.
      generalize s.registryOp pb act = op at hcreated
      cases op with
      | subscribe conn cid ctag qname autoAck =>
        rcases hcreated with ⟨-, -, -, hself, -⟩
        exact (Registry.open_apply hs.1 ⟨conn, cid, hself⟩).mpr id
      | _ => exact hcreated.elim

theorem not_noOrphans_of_step (hs : s.broker.registry.Sound ∧ s.NoOrphans) (hstep : s.step pb act = some s')
    (hclear : s.clears act = false) : ¬s'.NoOrphans := by
  intro hnone
  have hact : act ≠ .restart := by
    rintro rfl
    cases hclear
  have hreg := registry_step hstep hact
  refine Bool.false_ne_true (hclear.symm.trans ((clears_iff pb s act).mpr fun c hc hkept => ?_))
  have hcons : s'.broker.consumers = (s.broker.registry.apply (s.registryOp pb act)).consumers := congrArg Registry.consumers hreg
  have hopen := hnone c (by rw [hcons]; exact ((Registry.consumers_apply hs.1.filed _).2 c).mpr (Or.inl ⟨hc, hkept⟩))
  rw [hreg] at hopen
  exact (Registry.open_apply hs.1 (hs.2 c hc)).mp hopen

/-- No state of a run has an orphan exactly when every step clears up. -/
theorem run_noOrphans_iff {basedir : String} {d : Disk} {db : Db} {acts : List Act} {s₀ : Sys}
    (hboot : boot pb basedir d db = some s₀) (hrun : s₀.run pb acts = some s) :
    (∀ pre s₁, pre <+: acts → s₀.run pb pre = some s₁ → s₁.NoOrphans) ↔ always (step pb) clears s₀ acts = true := by
  simp only [run_eq_run] at hrun ⊢
  have hstart : s₀.broker.registry.Sound ∧ s₀.NoOrphans :=
    ⟨(boot_registry hboot).1, fun c hc => absurd hc ((boot_registry hboot).2.2.2.2 c)⟩
  exact always_iff_of_exact (fun _ hs => hs.2) (fun _ _ _ => step_noOrphans) (fun _ _ _ => not_noOrphans_of_step)
    hstart hrun

/-- A connection with a channel and a queue. -/
def opened : List Act :=
  [.connect 1, .request 1 (.openChannel ⟨"1", "a"⟩), .request 1 (.declareQueue ⟨"2", "a", "q", false, true, false, ∅⟩)]

/-- The channel cancels its first subscription, and its slot holds the second one. -/
def resubscribed : List Act :=
  opened ++ [.request 1 (.basicConsume ⟨"3", "a", "t", "q", true⟩), .request 1 (.basicCancel ⟨"4", "a", "t", "q"⟩),
    .request 1 (.basicConsume ⟨"5", "a", "u", "q", true⟩), .request 1 (.closeChannel ⟨"6", "a"⟩)]

theorem run_noOrphans_iff_cancelled : ∃ s₀ s : Sys, boot protobuf "data" Store.vacant {} = some s₀ ∧
    s₀.run protobuf resubscribed = some s ∧
    ∀ pre s₁, pre <+: resubscribed → s₀.run protobuf pre = some s₁ → s₁.NoOrphans := by
  have hrun : (boot protobuf "data" Store.vacant {}).any (fun s₀ =>
      always (step protobuf) clears s₀ resubscribed && (s₀.run protobuf resubscribed).isSome) = true := by
    decide +kernel
  rcases (Option.any_eq_true _ _).mp hrun with ⟨s₀, hboot, hs₀⟩
  rw [Bool.and_eq_true, Option.isSome_iff_exists] at hs₀
  rcases hs₀ with ⟨hclear, s, hs⟩
  exact ⟨s₀, s, hboot, hs, (run_noOrphans_iff hboot hs).mpr hclear⟩

/-- A second subscription takes the place of the first one in the slot. -/
def overwritten : List Act :=
  opened ++ [.request 1 (.basicConsume ⟨"3", "a", "t", "q", true⟩), .request 1 (.basicConsume ⟨"4", "a", "u", "q", true⟩),
    .request 1 (.closeChannel ⟨"5", "a"⟩)]

theorem run_orphan : ∃ s₀ s : Sys, boot protobuf "data" Store.vacant {} = some s₀ ∧
    s₀.run protobuf overwritten = some s ∧
    s.broker.consumers.Registered ⟨"t", "q", true, 0⟩ ∧ ¬s.broker.registry.Open 0 ∧ ¬s.NoOrphans := by
  have hrun : (boot protobuf "data" Store.vacant {}).any (fun s₀ =>
      (s₀.run protobuf overwritten).any fun s =>
        decide (⟨"t", "q", true, 0⟩ ∈ s.broker.consumers.roster) && decide (0 ∉ s.broker.registry.openChannels)) = true := by
    decide +kernel
  rcases (Option.any_eq_true _ _).mp hrun with ⟨s₀, hboot, hs₀⟩
  rcases (Option.any_eq_true _ _).mp hs₀ with ⟨s, hs, horphan⟩
  rw [Bool.and_eq_true, decide_eq_true_eq, decide_eq_true_eq, ConsumerManager.mem_roster,
    Registry.mem_openChannels] at horphan
  exact ⟨s₀, s, hboot, hs, horphan.1, horphan.2, fun hnone => horphan.2 (hnone _ horphan.1)⟩

/-! ### Consumers of other channels -/

/-- Only consumers that the channel created are removed. -/
def OnlyOwn (m m' : ConsumerManager) (self : ChannelRef) : Prop :=
  ∀ c, m.Registered c → c.callback ≠ self → m'.Registered c

/-- A channel that is closed, or that handles `basic_cancel`, removes only consumers of its own. The channels of a
    connection are destroyed one after the other, in an order that is not specified. -/
def Spares (s s' : Sys) : Act → Prop
  | .request conn (.closeChannel req) => ∀ self, s.broker.registry.channelAt conn req.cid = some self →
    OnlyOwn s.broker.consumers s'.broker.consumers self
  | .request conn (.basicCancel req) => ∀ self, s.broker.registry.channelAt conn req.cid = some self →
    OnlyOwn s.broker.consumers s'.broker.consumers self
  | .disconnect conn => ∀ channels, s.broker.conns.lookup conn = some channels →
    ∀ pre e post, (pre ++ e :: post).Perm channels.entries →
      OnlyOwn (pre.foldl (fun b e => b.destroy e.2) s.broker).consumers
        ((pre ++ [e]).foldl (fun b e => b.destroy e.2) s.broker).consumers e.2
  | _ => True

/-- What is registered under the key of the slot, or of the request, is the channel's own. -/
def owns (s : Sys) : Act → Bool
  | .request conn (.closeChannel req) =>
    match s.broker.registry.channelAt conn req.cid with
    | none => true
    | some self => s.broker.consumers.roster.all fun c => !s.broker.registry.holds self c || c.callback == self
  | .request conn (.basicCancel req) =>
    match s.broker.registry.channelAt conn req.cid with
    | none => true
    | some self =>
      s.broker.consumers.roster.all fun c =>
        !(c.tag == req.consumerTag && c.qname == req.queueName) || c.callback == self
  | .disconnect conn =>
    match s.broker.conns.lookup conn with
    | none => true
    | some channels =>
      channels.entries.all fun e =>
        s.broker.consumers.roster.all fun c => !s.broker.registry.holds e.2 c || c.callback == e.2
  | _ => true

/-- A removal by a key spares the others exactly when the key is the channel's own. -/
theorem onlyOwn_iff {m m' : ConsumerManager} {self : ChannelRef} {key : Consumer → Bool}
    (hremove : ∀ c, m'.Registered c ↔ m.Registered c ∧ key c = false) :
    OnlyOwn m m' self ↔ (m.roster.all fun c => !key c || c.callback == self) = true := by
  simp only [OnlyOwn, List.all_eq_true, ConsumerManager.mem_roster, Bool.or_eq_true, Bool.not_eq_true', beq_iff_eq]
  refine forall₂_congr fun c hc => ⟨fun h => ?_, fun h hne => ?_⟩
  · by_cases heq : c.callback = self
    · exact Or.inr heq
    · exact Or.inl ((hremove c).mp (h heq)).2
  · exact (hremove c).mpr ⟨hc, h.resolve_right hne⟩

/-- The consumers after some channels were destroyed. -/
theorem registered_foldl_destroy (hs : s.broker.consumers.Filed) (entries : List (Sigma fun _ : String => ChannelRef))
    (c : Consumer) : (entries.foldl (fun b e => b.destroy e.2) s.broker).consumers.Registered c ↔
      s.broker.consumers.Registered c ∧ ∀ e ∈ entries, s.broker.registry.holds e.2 c = false := by
  have hreg := congrArg Registry.consumers (s.broker.registry_foldl_destroy entries)
  have hcons : (entries.foldl (fun b e => b.destroy e.2) s.broker).consumers =
      (entries.foldl (fun r e => r.destroy e.2) s.broker.registry).consumers := by rw [← hreg]; rfl
  rw [hcons]
  exact (Registry.filed_foldl_destroy entries (r := s.broker.registry) hs).2 c

theorem spares_iff_disconnect (hs : s.broker.consumers.Filed) (channels : ChannelManager) :
    (∀ pre e post, (pre ++ e :: post).Perm channels.entries →
      OnlyOwn (pre.foldl (fun b e => b.destroy e.2) s.broker).consumers
        ((pre ++ [e]).foldl (fun b e => b.destroy e.2) s.broker).consumers e.2) ↔
      ∀ e ∈ channels.entries, (s.broker.consumers.roster.all fun c =>
        !s.broker.registry.holds e.2 c || c.callback == e.2) = true := by
  constructor
  · intro h e he
    -- The channel may be the first one that is destroyed.
    refine (onlyOwn_iff fun c => ?_).mp (h [] e (channels.entries.erase e) (List.perm_cons_erase he).symm)
    rw [registered_foldl_destroy hs]
    simp
  · intro h pre e post hperm c hc hne
    have he : e ∈ channels.entries := hperm.subset (List.mem_append_right pre List.mem_cons_self)
    rw [registered_foldl_destroy hs] at hc ⊢
    refine ⟨hc.1, fun e' he' => ?_⟩
    rcases List.mem_append.mp he' with he' | he'
    · exact hc.2 e' he'
    · rw [List.mem_singleton.mp he']
      have hown := List.all_eq_true.mp (h e he) c (ConsumerManager.mem_roster.mpr hc.1)
      rw [Bool.or_eq_true, Bool.not_eq_true', beq_iff_eq] at hown
      exact hown.resolve_right hne

theorem spares_iff (hs : s.broker.registry.Sound) (hstep : s.step pb act = some s') :
    s.Spares s' act ↔ s.owns act = true := by
  have hafter : act ≠ .restart → ∀ c, s'.broker.consumers.Registered c ↔
      (s.broker.consumers.Registered c ∧ s.broker.registry.Kept c (s.registryOp pb act)) ∨
        s.broker.registry.Created c (s.registryOp pb act) := fun hact c => by
    have hcons : s'.broker.consumers = (s.broker.registry.apply (s.registryOp pb act)).consumers :=
      congrArg Registry.consumers (registry_step hstep hact)
    rw [hcons]
    exact (Registry.consumers_apply hs.filed _).2 c
  cases act with
  | request conn req =>
    have hafter := hafter nofun
    cases req with
    | closeChannel req =>
      simp only [Spares, owns]
      cases hself : s.broker.registry.channelAt conn req.cid with
      | none => simp
      | some self =>
        simp only [Option.some.injEq, forall_eq']
        refine onlyOwn_iff fun c => (hafter c).trans ?_
        simp only [registryOp, Registry.Kept, Registry.Created, hself, Option.some.injEq, forall_eq', or_false]
    | basicCancel req =>
      simp only [Spares, owns]
      cases hself : s.broker.registry.channelAt conn req.cid with
      | none => simp
      | some self =>
        simp only [Option.some.injEq, forall_eq']
        refine onlyOwn_iff fun c => (hafter c).trans ?_
        have hop : s.registryOp pb (.request conn (.basicCancel req)) = .cancel req.consumerTag req.queueName := by
          have hself' : s.broker.registry.channelAt conn (Request.basicCancel req).cid = some self := hself
          simp only [registryOp, hself', channelOp]
        rw [hop]
        simp [Registry.Kept, Registry.Created]
    | _ => exact ⟨fun _ => rfl, fun _ => trivial⟩
  | disconnect conn =>
    simp only [Spares, owns]
    cases s.broker.conns.lookup conn with
    | none => simp
    | some channels =>
      simp only [Option.some.injEq, forall_eq']
      rw [List.all_eq_true]
      exact spares_iff_disconnect hs.filed channels
  | _ => exact ⟨fun _ => rfl, fun _ => trivial⟩

/-- Every closing channel and every `basic_cancel` of a run spares the consumers of the other channels exactly when the
    keys are their own. -/
theorem run_spares_iff {basedir : String} {d : Disk} {db : Db} {acts : List Act} {s₀ : Sys}
    (hboot : boot pb basedir d db = some s₀) (hrun : s₀.run pb acts = some s) :
    (∀ pre act s₁ s₂, pre ++ [act] <+: acts → s₀.run pb pre = some s₁ → s₁.step pb act = some s₂ → s₁.Spares s₂ act) ↔
      always (step pb) (fun s act => s.owns act) s₀ acts = true := by
  simp only [run_eq_run] at hrun ⊢
  rw [always_iff hrun]
  refine forall₃_congr fun pre act s₁ => ?_
  constructor
  · intro h hpre hrun₁
    rcases exists_step_of_run hrun hpre hrun₁ with ⟨s₂, hstep⟩
    have hs := run_induct (fun _ _ _ => step_registry_sound) (boot_registry hboot).1 hrun₁
    exact (spares_iff hs hstep).mp (h s₂ hpre hrun₁ hstep)
  · intro h s₂ hpre hrun₁ hstep
    have hs := run_induct (fun _ _ _ => step_registry_sound) (boot_registry hboot).1 hrun₁
    exact (spares_iff hs hstep).mpr (h hpre hrun₁)

/-- Each of two channels has a consumer of its own. -/
def separate : List Act :=
  opened ++ [.request 1 (.openChannel ⟨"3", "b"⟩), .request 1 (.basicConsume ⟨"4", "a", "t", "q", true⟩),
    .request 1 (.basicConsume ⟨"5", "b", "u", "q", true⟩), .request 1 (.basicCancel ⟨"6", "b", "u", "q"⟩),
    .request 1 (.closeChannel ⟨"7", "b"⟩), .disconnect 1]

theorem run_spares_iff_own : ∃ s₀ s : Sys, boot protobuf "data" Store.vacant {} = some s₀ ∧
    s₀.run protobuf separate = some s ∧ ∀ pre act s₁ s₂, pre ++ [act] <+: separate →
      s₀.run protobuf pre = some s₁ → s₁.step protobuf act = some s₂ → s₁.Spares s₂ act := by
  have hrun : (boot protobuf "data" Store.vacant {}).any (fun s₀ =>
      always (step protobuf) (fun s act => s.owns act) s₀ separate && (s₀.run protobuf separate).isSome) = true := by
    decide +kernel
  rcases (Option.any_eq_true _ _).mp hrun with ⟨s₀, hboot, hs₀⟩
  rw [Bool.and_eq_true, Option.isSome_iff_exists] at hs₀
  rcases hs₀ with ⟨howns, s, hs⟩
  exact ⟨s₀, s, hboot, hs, (run_spares_iff hboot hs).mpr howns⟩

/-- After it cancelled, channel `a` still has the tag in its slot, and channel `b` takes the tag. -/
def taken : List Act :=
  opened ++ [.request 1 (.openChannel ⟨"3", "b"⟩), .request 1 (.basicConsume ⟨"4", "a", "t", "q", true⟩),
    .request 1 (.basicCancel ⟨"5", "a", "t", "q"⟩), .request 1 (.basicConsume ⟨"6", "b", "t", "q", true⟩)]

theorem run_not_spares : ∃ s₀ s₁ s₂ : Sys, boot protobuf "data" Store.vacant {} = some s₀ ∧
    s₀.run protobuf taken = some s₁ ∧
    s₁.step protobuf (.request 1 (.closeChannel ⟨"7", "a"⟩)) = some s₂ ∧
    s₁.broker.registry.channelAt 1 "a" = some 0 ∧ s₁.broker.consumers.Registered ⟨"t", "q", true, 1⟩ ∧
    ¬s₂.broker.consumers.Registered ⟨"t", "q", true, 1⟩ ∧ ¬s₁.Spares s₂ (.request 1 (.closeChannel ⟨"7", "a"⟩)) := by
  have hrun : (boot protobuf "data" Store.vacant {}).any (fun s₀ =>
      (s₀.run protobuf taken).any fun s₁ =>
        (s₁.step protobuf (.request 1 (.closeChannel ⟨"7", "a"⟩))).any fun s₂ =>
          decide (s₁.broker.registry.channelAt 1 "a" = some 0) &&
          decide (⟨"t", "q", true, 1⟩ ∈ s₁.broker.consumers.roster) &&
          decide (⟨"t", "q", true, 1⟩ ∉ s₂.broker.consumers.roster)) = true := by
    decide +kernel
  rcases (Option.any_eq_true _ _).mp hrun with ⟨s₀, hboot, hs₀⟩
  rcases (Option.any_eq_true _ _).mp hs₀ with ⟨s₁, hs₁, hs₁'⟩
  rcases (Option.any_eq_true _ _).mp hs₁' with ⟨s₂, hs₂, hlost⟩
  simp only [Bool.and_eq_true, decide_eq_true_eq, ConsumerManager.mem_roster] at hlost
  rcases hlost with ⟨⟨hself, hbefore⟩, hafter⟩
  refine ⟨s₀, s₁, s₂, hboot, hs₁, hs₂, hself, hbefore, hafter, fun hspares => hafter ?_⟩
  exact hspares 0 hself _ hbefore (by decide)

end Sys
end HareMQ
