import HareMQ.Theorems.Retained
import HareMQ.Theorems.Tied

/-! # The server does not abort

Its assertions concern the directory of a new queue, the file that an acknowledgement compacts, and the names of the
bindings that a query reports. In an existing base directory none of them fails, whatever the clients send, as long as
the statements fit their buffers. -/

namespace HareMQ
open Lib

/-! ### The report -/

namespace VirtualHost
variable {pb : PayloadCodec} {basedir dbfile : String} {h h' : VirtualHost} {d : Disk} {db : Db}

/-- A row is read back under its names. -/
theorem new_filed (hnew : new pb basedir dbfile d db = some h) : h.bmp.Filed := by
  rcases new_stages hnew with ⟨d₁, db₁, d₂, db₂, d₃, db₃, -, -, -, -, -, hbmp, -, -⟩
  intro ename qname bp hbp
  rw [hbmp, getBinding_foldl_select, show ({ bindings := ∅ } : BindingManager).getBinding ename qname = none from rfl,
    Option.none_or] at hbp
  rcases Option.map_eq_some_iff.mp hbp with ⟨row, hrow, rfl⟩
  exact Db.joins_iff.mp (List.find?_some hrow)

theorem bind_filed (hf : h.bmp.Filed) (ename qname key : String) : (h.bind ename qname key).2.bmp.Filed := by
  unfold bind
  split
  · exact hf
  · split
    · exact hf
    · exact hf.bind ..

/-- Every binding is kept under its names. -/
theorem act_filed {act : HostAct} (hf : h.bmp.Filed) (hstep : h.act pb basedir dbfile act = some h') : h'.bmp.Filed := by
  cases act with
  | idle =>
    cases hstep
    exact hf
  | op op =>
    cases op with
    | declareExchange name type durable autoDelete args =>
      cases hstep
      exact hf
    | deleteExchange name =>
      cases hstep
      exact hf.of_shrinks fun e q bp hbp => ((h.bmp.unbindExchange_shrinks name h.db).1 e q bp hbp).2
    | declareQueue name qdurable qexclusive qautoDelete qargs =>
      rcases Option.map_eq_some_iff.mp hstep with ⟨⟨ok, h₁⟩, hdecl, rfl⟩
      unfold declareQueue at hdecl
      split at hdecl
      · cases hdecl
      · cases hdecl
        exact hf
    | deleteQueue name =>
      cases hstep
      exact hf.of_shrinks fun e q bp hbp => ((h.bmp.unbindQueue_shrinks name h.db).1 e q bp hbp).2
    | bind ename qname key =>
      cases hstep
      exact bind_filed hf ename qname key
    | unbind ename qname =>
      cases hstep
      exact hf.of_shrinks (h.bmp.unbind_shrinks ename qname h.db).1
    | restart => exact new_filed hstep
  | publish name bp uuid body =>
    cases hstep
    unfold basicPublish
    split <;> exact hf
  | consume name =>
    cases hstep
    exact hf
  | ack name msgId =>
    rw [act, basicAck] at hstep
    split at hstep
    · cases hstep
    · cases hstep
      exact hf
  | touch name r =>
    cases hstep
    exact hf

/-- The assertion in `basic_query`. -/
theorem basicQuery_of_filed (hf : h.bmp.Filed) : ∃ body, h.basicQuery = some body := by
  have hnames : (h.emp.exchanges.entries.all fun e => (h.exchangeBindings e.1).entries.all (·.2.exchangeName = e.1)) = true := by
    rw [List.all_eq_true]
    intro e _
    rw [List.all_eq_true]
    intro b hb
    rw [decide_eq_true_eq]
    have hlookup := UMap.mem_entries_iff.mp hb
    rw [exchangeBindings, BindingManager.getExchangeBindings] at hlookup
    cases hmap : h.bmp.bindings.lookup e.1 with
    | none =>
      rw [hmap, Option.getD_none, AList.lookup_empty] at hlookup
      cases hlookup
    | some m =>
      rw [hmap, Option.getD_some] at hlookup
      have hget : h.bmp.getBinding e.1 b.1 = some b.2 := by
        rw [BindingManager.getBinding, hmap]
        exact hlookup
      exact (hf hget).1
  unfold basicQuery
  exact ⟨_, if_pos hnames⟩

/-! ### Runs of the host -/

variable {names : List String} {posted : List (String × String)} {w : Warehouse String Content} {acts : List HostAct}

/-- The host runs in its directory, and its bindings are kept under their names. -/
structure Sturdy (basedir : String) (h : VirtualHost) : Prop where
  housed : h.Housed basedir
  filed : h.bmp.Filed

theorem run_sturdy (hnames : Separate basedir names) (hf : h.Fits pb basedir names posted acts)
    (hs : h.Stocks pb basedir names posted w) (hh : h.Sturdy basedir)
    (hrun : Lib.run (act pb basedir (basedir ++ "/meta.db")) h acts = some h') : h'.Sturdy basedir := by
  induction acts generalizing h w posted with
  | nil =>
    cases hrun
    exact hh
  | cons a acts ih =>
    rcases Lib.run_cons_eq_some hrun with ⟨h₁, hstep, hrun⟩
    rcases hf.next hnames hs hstep with ⟨hs₁, hf₁⟩
    rcases act_housed hnames hs hh.housed a with ⟨h₁', hstep', hhoused⟩
    have heq : h₁' = h₁ := Option.some.inj (hstep'.symm.trans hstep)
    exact ih hf₁ hs₁ ⟨heq ▸ hhoused, act_filed hh.filed hstep⟩ hrun

end VirtualHost

/-! ### The server -/

namespace Sys
variable {pb : PayloadCodec} {s s₀ : Sys} {acts : List Act} {basedir : String} {names : List String}

/-- Every request whose statements are clean is served, the worker stops for want of tasks only, and a new process
    starts. -/
structure Serves (pb : PayloadCodec) (s : Sys) : Prop where
  request : ∀ conn req, s.loop = none → (∀ st ∈ (s.hostAct (.request conn req)).statements, st.Clean) →
    ∃ s', s.step pb (.request conn req) = some s'
  work : s.step pb .work = none → s.worker = .idle ∧ s.broker.pool.tmp = [] ∧ s.broker.pool.taskQueue = []
  restart : ∃ s', s.step pb .restart = some s'

end Sys
end HareMQ
