import Walstream.Interaction.Ledger
import Walstream.Log.Interleavings
import Walstream.Log.Reference

/-!
# First runs

A new partition, and clients that call it one after the other. In the first run these are a request
of producer 0, the same request again, a maintenance run without limits and a fetch; in the second
one three requests and a maintenance run with room for two of them; in the third one a request of
producer 0 and one that belongs to no producer.
-/

namespace Walstream.Log

open Interaction PartitionLog

/-- A partition without objects. -/
def Genesis.new (log : PartitionLog) (htopic : validateTopic log.topic = .ok ())
    (hpartition : 0 ≤ log.partition) : Genesis log where
  objects := fun _ => none
  issued := ∅
  live := []
  state := .empty
  past := []
  topic := htopic
  partition := hpartition
  order := fun _ h => nomatch h
  order₀ := fun _ h => nomatch h
  coherent := coherent_empty
  issued_of_named := fun h => absurd rfl h
  path := fun h => absurd rfl h

/-! ## Calls one after the other -/

section Sequence

variable {Client : Type} [DecidableEq Client]

/-- The outcomes of clients that are alone one after the other. -/
def Service.outcomes (Y : Service Client) :
    List Client → Ledger Client Body → Option (List Outcome × Ledger Client Body)
  | [], l => some ([], l)
  | cl :: clients, l =>
    (((Y.op cl).program Y.log).solo (Ledger.reply Y.log.crates.size cl) l).bind fun p =>
      (outcomes Y clients p.2.2).map fun q => (p.2.1 :: q.1, q.2)

omit [DecidableEq Client] in
theorem Service.outcomes_append {Y : Service Client} {clients clients' : List Client}
    {l l' : Ledger Client Body} {outs : List Outcome}
    (h : Y.outcomes (clients ++ clients') l = some (outs, l')) : ∃ outs₁ outs₂ l₁,
      Y.outcomes clients l = some (outs₁, l₁) ∧ Y.outcomes clients' l₁ = some (outs₂, l') ∧
        outs = outs₁ ++ outs₂ := by
  induction clients generalizing l outs with
  | nil => exact ⟨[], outs, l, rfl, h, rfl⟩
  | cons cl clients ih =>
    simp only [List.cons_append, outcomes, Option.bind_eq_some_iff, Option.map_eq_some_iff,
      Prod.mk.injEq] at h
    obtain ⟨p, hsolo, q, hrest, rfl, rfl⟩ := h
    obtain ⟨outs₁, outs₂, l₁, h₁, h₂, hq⟩ := ih hrest
    refine ⟨p.2.1 :: outs₁, outs₂, l₁, ?_, h₂, by rw [hq, List.cons_append]⟩
    simp only [outcomes, Option.bind_eq_some_iff, Option.map_eq_some_iff, Prod.mk.injEq]
    exact ⟨p, hsolo, (outs₁, l₁), h₁, rfl, rfl⟩

/-- Such clients are among the interleavings. -/
theorem Service.steps_outcomes {Y : Service Client} {clients : List Client}
    {l l' : Ledger Client Body} {outs : List Outcome}
    (h : Y.outcomes clients l = some (outs, l')) (hl : l.Balanced) (hnodup : clients.Nodup)
    {cfg : Config Client (Cmd Body) Resp (Bucket Client Body) Outcome}
    (hshared : cfg.shared = l.bucket) (hnew : ∀ cl ∈ clients, cfg.tasks cl = none) :
    ∃ cfg', Relation.ReflTransGen Y.system.Step cfg cfg' ∧ cfg'.shared = l'.bucket ∧ l'.Balanced ∧
      List.Forall₂ (fun cl out => ∃ s, cfg'.tasks cl = some ⟨s, .ret out⟩) clients outs ∧
      ∀ cl ∉ clients, cfg'.tasks cl = cfg.tasks cl := by
  -- one client after the other, each from the bucket that the last one has left
  induction clients generalizing l cfg outs with
  | nil =>
    cases h
    exact ⟨cfg, .refl, hshared, hl, .nil, fun _ _ => rfl⟩
  | cons cl clients ih =>
    obtain ⟨hnot, hnodup⟩ := List.nodup_cons.mp hnodup
    simp only [outcomes, Option.bind_eq_some_iff, Option.map_eq_some_iff, Prod.mk.injEq] at h
    obtain ⟨⟨cs, out, l₁⟩, hsolo, ⟨outs', l₂⟩, hrest, rfl, rfl⟩ := h
    obtain ⟨hrun, hl₁⟩ := Prog.run_ledger (f := Y.faults cl) hl hsolo
    rw [← hshared] at hrun
    have hsteps := System.steps_of_runs (Y := Y.system) (hnew cl List.mem_cons_self) hrun
    -- the first client has returned, and the others have not started
    have hshared₁ : (⟨l₁.bucket, Function.update cfg.tasks cl (some ⟨cfg.shared, .ret out⟩)⟩ :
      Config Client (Cmd Body) Resp (Bucket Client Body) Outcome).shared = l₁.bucket := rfl
    obtain ⟨cfg', hsteps', hshared', hl', houts, hothers⟩ := ih hrest hl₁ hnodup hshared₁
      fun cl' hcl' => by
        have hne : cl' ≠ cl := fun heq => hnot (heq ▸ hcl')
        simpa [Function.update_of_ne hne] using hnew cl' (List.mem_cons_of_mem _ hcl')
    refine ⟨cfg', hsteps.trans hsteps', hshared', hl', .cons ⟨cfg.shared, ?_⟩ houts,
      fun cl' hcl' => ?_⟩
    · rw [hothers cl hnot]
      exact Function.update_self ..
    · rw [List.mem_cons, not_or] at hcl'
      rw [hothers cl' hcl'.2]
      exact Function.update_of_ne hcl'.1 ..

/-- From a new partition on. -/
theorem Service.reachable_outcomes {Y : Service Client} {g : Genesis Y.log} {clients : List Client}
    {outs : List Outcome} {l : Ledger Client Body}
    (h : Y.outcomes clients ⟨g.bucket, [], []⟩ = some (outs, l)) (hempty : g.objects = fun _ => none)
    (hissued : g.issued = ∅) (hnodup : clients.Nodup) :
    ∃ cfg, Y.system.Reachable g.bucket cfg ∧ cfg.shared = l.bucket ∧
      l.Balanced ∧ List.Forall₂ (fun cl out => ∃ s, cfg.tasks cl = some ⟨s, .ret out⟩) clients outs ∧
      ∀ cl ∉ clients, cfg.tasks cl = none := by
  have hbalanced : Ledger.Balanced (⟨g.bucket, [], []⟩ : Ledger Client Body) :=
    ⟨by simp [Genesis.bucket, Bucket.initial, hissued], fun path hpath => by
      simp [Genesis.bucket, Bucket.initial, hempty] at hpath, .nil⟩
  have hstart : (System.initial g.bucket :
    Config Client (Cmd Body) Resp (Bucket Client Body) Outcome).shared = g.bucket := rfl
  obtain ⟨cfg, hreach, hshared, hl, hcalls, hothers⟩ :=
    Service.steps_outcomes h hbalanced hnodup hstart fun _ _ => rfl
  exact ⟨cfg, hreach, hshared, hl, hcalls, hothers⟩

end Sequence

/-! ## The first run -/

namespace Reference

/-- The new partition. -/
def genesis : Genesis log := .new log topic_valid le_rfl

/-- Client 0 sends the first record of producer 0, client 1 sends it again, client 2 runs
maintenance, and everybody else fetches. -/
def service : Service Nat where
  log := log
  op cl :=
    if cl < 2 then .append ⟨1, rfl⟩ (some 0) [[numberedRecord]]
    else if cl = 2 then .maintain ⟨none, none, true, 1000⟩ (some 0)
    else .fetch 0 1000 true
  faults := fun _ => .none

/-- All calls succeed, and both requests get the same offsets. -/
def succeeds : List Outcome → Bool
  | [.appended (.ok r₀), .appended (.ok r₁), .maintained (.ok _), .fetched (.ok _)] =>
    decide (r₀ = ⟨0, 0⟩ ∧ r₁ = ⟨0, 0⟩)
  | _ => false

theorem succeeds_eq_true {outs : List Outcome} (h : succeeds outs = true) : ∃ report fetched,
    outs = [.appended (.ok ⟨0, 0⟩), .appended (.ok ⟨0, 0⟩), .maintained (.ok report),
      .fetched (.ok fetched)] := by
  unfold succeeds at h
  split at h
  · rename_i r₀ r₁ report fetched
    obtain ⟨rfl, rfl⟩ := of_decide_eq_true h
    exact ⟨report, fetched, rfl⟩
  · cases h

/-- The first run: both requests have been answered, and then the others have returned. -/
theorem service_sequence : ∃ cfg cfg', service.system.Reachable genesis.bucket cfg ∧
    Relation.ReflTransGen service.system.Step cfg cfg' ∧
    (∃ s, cfg.tasks 0 = some ⟨s, .ret (.appended (.ok ⟨0, 0⟩))⟩) ∧
    (∃ s, cfg.tasks 1 = some ⟨s, .ret (.appended (.ok ⟨0, 0⟩))⟩) ∧ cfg.tasks 3 = none ∧
    cfg'.tasks 0 = cfg.tasks 0 ∧ cfg'.tasks 1 = cfg.tasks 1 ∧
    (∃ s report, cfg'.tasks 2 = some ⟨s, .ret (.maintained (.ok report))⟩) ∧
    (∃ s fetched, cfg'.tasks 3 = some ⟨s, .ret (.fetched (.ok fetched))⟩) ∧
    ∃ es e es', cfg'.shared.history = es ++ e :: es' ∧ e.client = 0 ∧ e.path = log.manifestPath := by
  have houtcomes : (service.outcomes [0, 1, 2, 3] ⟨genesis.bucket, [], []⟩).any (fun p =>
      succeeds p.1 && p.2.bucket.history.any fun e =>
        decide (e.client = 0 ∧ e.path = log.manifestPath)) = true := by
    decide +kernel
  -- the run is evaluated once, and everything else is read off it
  obtain ⟨⟨outs, l⟩, houts, hcheck⟩ := (Option.any_eq_true _ _).mp houtcomes
  obtain ⟨houtcome, hpublished⟩ := Bool.and_eq_true_iff.mp hcheck
  obtain ⟨report, fetched, rfl⟩ := succeeds_eq_true houtcome
  obtain ⟨e, he, hmanifest⟩ := List.any_eq_true.mp hpublished
  obtain ⟨es, es', hhistory⟩ := List.append_of_mem he
  obtain ⟨hclient, hpath⟩ := of_decide_eq_true hmanifest
  -- split after the two requests
  have hall : service.outcomes ([0, 1] ++ [2, 3]) ⟨genesis.bucket, [], []⟩ = some (_, l) := houts
  obtain ⟨outs₁, outs₂, l₁, houts₁, houts₂, hsplit⟩ := Service.outcomes_append hall
  obtain ⟨cfg, hreach, hshared, hl₁, hcalls, hothers⟩ :=
    Service.reachable_outcomes houts₁ rfl rfl (by decide)
  have hnone : ∀ n ∈ [2, 3], cfg.tasks n = none := by
    intro n hn
    refine hothers n fun hmem => ?_
    simp only [List.mem_cons, List.not_mem_nil, or_false] at hn hmem
    omega
  obtain ⟨cfg', hsteps, hshared', -, hcalls', hothers'⟩ :=
    Service.steps_outcomes houts₂ hl₁ (by decide) hshared hnone
  simp only [List.forall₂_cons_left_iff, List.forall₂_nil_left_iff] at hcalls hcalls'
  obtain ⟨_, _, h₀, ⟨_, _, h₁, rfl, rfl⟩, rfl⟩ := hcalls
  obtain ⟨_, _, ⟨s₂, h₂⟩, ⟨_, _, ⟨s₃, h₃⟩, rfl, rfl⟩, rfl⟩ := hcalls'
  cases hsplit
  exact ⟨cfg, cfg', hreach, hsteps, h₀, h₁, hnone 3 (by decide), hothers' 0 (by decide),
    hothers' 1 (by decide), ⟨s₂, report, h₂⟩, ⟨s₃, fetched, h₃⟩, es, e, es',
    by rw [hshared', hhistory], hclient, hpath⟩

/-- The first run: all clients have returned. -/
theorem service_runs : ∃ cfg, service.system.Reachable genesis.bucket cfg ∧
    (∃ s, cfg.tasks 0 = some ⟨s, .ret (.appended (.ok ⟨0, 0⟩))⟩) ∧
    (∃ s, cfg.tasks 1 = some ⟨s, .ret (.appended (.ok ⟨0, 0⟩))⟩) ∧
    (∃ s report, cfg.tasks 2 = some ⟨s, .ret (.maintained (.ok report))⟩) ∧
    ∃ s fetched, cfg.tasks 3 = some ⟨s, .ret (.fetched (.ok fetched))⟩ := by
  obtain ⟨cfg, cfg', hreach, hsteps, h₀, h₁, -, hkept₀, hkept₁, h₂, h₃, -⟩ := service_sequence
  rw [← hkept₀] at h₀
  rw [← hkept₁] at h₁
  exact ⟨cfg', hreach.trans hsteps, h₀, h₁, h₂, h₃⟩

/-! ## A run with a limit -/

/-- Clients 0, 1 and 2 send one record each, and everybody else runs maintenance with room for the
bytes of two records. -/
def trimming : Service Nat where
  log := log
  op cl :=
    if cl < 3 then .append ⟨1, rfl⟩ (some 0) [[plainRecord]]
    else .maintain ⟨none, some 138, true, 1000⟩ (some 0)
  faults := fun _ => .none

/-- The maintenance succeeds. -/
def trims : List Outcome → Bool
  | [_, _, _, .maintained (.ok _)] => true
  | _ => false

/-- The manifest lists three records, and has no pages. -/
def listsThree (objects : String → Option Body) : Bool :=
  match log.manifestIn objects with
  | .indexed root => root.tree.isNone && decide (root.tail.map (·.byteLength) = [69, 69, 69])
  | .legacy _ => false

/-- The second run: all clients have returned. The manifests of clients 2 and 3 are published, the
latter in place of one that lists all three records, and an object is deleted. -/
theorem trimming_runs : ∃ cfg, trimming.system.Reachable genesis.bucket cfg ∧
    (∃ s report, cfg.tasks 3 = some ⟨s, .ret (.maintained (.ok report))⟩) ∧
    (∃ e ∈ cfg.shared.history, e.client = 3 ∧ e.body = none) ∧
    (∃ e ∈ cfg.shared.history, e.client = 2 ∧ e.path = log.manifestPath) ∧
    (∃ e ∈ cfg.shared.history, e.client = 3 ∧ e.path = log.manifestPath) ∧
    ∀ e ∈ cfg.shared.history, e.client = 3 → e.path = log.manifestPath →
      listsThree e.before = true := by
  have houtcomes : (trimming.outcomes [0, 1, 2, 3] ⟨genesis.bucket, [], []⟩).any (fun p =>
      trims p.1 && p.2.bucket.history.any (fun e => decide (e.client = 3) && e.body.isNone) &&
      p.2.bucket.history.any (fun e => decide (e.client = 2 ∧ e.path = log.manifestPath)) &&
      p.2.bucket.history.any (fun e => decide (e.client = 3 ∧ e.path = log.manifestPath)) &&
      p.2.bucket.history.all fun e =>
        !decide (e.client = 3 ∧ e.path = log.manifestPath) || listsThree e.before) = true := by
    decide +kernel
  -- what the evaluation has checked, part by part
  obtain ⟨⟨outs, l⟩, houts, hcheck⟩ := (Option.any_eq_true _ _).mp houtcomes
  simp only [Bool.and_eq_true, List.any_eq_true, List.all_eq_true, decide_eq_true_eq,
    Option.isNone_iff_eq_none, Bool.or_eq_true, Bool.not_eq_true', decide_eq_false_iff_not] at hcheck
  obtain ⟨⟨⟨⟨htrims, hdeleted⟩, happended⟩, hpublished⟩, hlisted⟩ := hcheck
  obtain ⟨cfg, hreach, hshared, -, hcalls, -⟩ := Service.reachable_outcomes houts rfl rfl (by decide)
  -- the last client has trimmed
  unfold trims at htrims
  split at htrims
  · rename_i report
    simp only [List.forall₂_cons, List.forall₂_nil_left_iff] at hcalls
    obtain ⟨-, -, -, ⟨s, h₃⟩, -⟩ := hcalls
    refine ⟨cfg, hreach, ⟨s, report, h₃⟩, hshared ▸ hdeleted, hshared ▸ happended,
      hshared ▸ hpublished, fun e he hclient hpath => ?_⟩
    exact (hlisted e (hshared ▸ he)).resolve_left fun hother => hother ⟨hclient, hpath⟩
  · cases htrims

/-! ## A run of two appends -/

/-- Client 0 sends the first record of producer 0, and everybody else appends a record that belongs
to no producer. -/
def returning : Service Nat where
  log := log
  op cl := .append ⟨1, rfl⟩ (some 0) [[if cl < 1 then numberedRecord else plainRecord]]
  faults := fun _ => .none

/-- Both calls have appended their record. -/
def acknowledges : List Outcome → Bool
  | [.appended (.ok r₀), .appended (.ok r₁)] => decide (r₀ = ⟨0, 0⟩ ∧ r₁ = ⟨1, 1⟩)
  | _ => false

theorem acknowledges_eq_true {outs : List Outcome} (h : acknowledges outs = true) :
    outs = [.appended (.ok ⟨0, 0⟩), .appended (.ok ⟨1, 1⟩)] := by
  unfold acknowledges at h
  split at h
  · obtain ⟨rfl, rfl⟩ := of_decide_eq_true h
    rfl
  · cases h

end Reference

end Walstream.Log
