import Walstream.Log.Serialization

/-!
# Idempotent production

Whatever happens to the requests, every producer's batches are committed at most once and without
gaps, and the producer directory remembers the latest of them.

- `InSequence`: what holds of one producer.
- `Service.production_idempotent`: it holds of every producer in every interleaving.
-/

namespace Walstream.Log

open Interaction PartitionLog Scene

/-- The batches of the producer among the committed ones are in sequence: epochs do not go back, an
epoch starts with sequence 0, and sequences go on modulo `2 ^ 31`. The state `known` of the producer
is its current epoch with the latest five batches of that epoch, each with the offset it was given
and its fingerprint. -/
structure InSequence (log : PartitionLog) (commits : List (List Record × Int)) (id : Int)
    (known : Option ProducerState) : Prop where
  epochs : (log.entriesOf id commits).Pairwise fun a b => a.epoch ≤ b.epoch
  first : ∀ e ∈ (log.entriesOf id commits).head?, e.identity.sequence = 0
  next : (log.entriesOf id commits).IsChain fun a b : Entry =>
    b.identity.sequence =
      if a.epoch = b.epoch then (a.identity.sequence + a.identity.count) % 2 ^ 31 else 0
  known : known = (log.entriesOf id commits).getLast?.map fun last =>
    ⟨id, last.epoch, lastEntries 5 (ofEpoch last.epoch (log.entriesOf id commits))⟩

/-- The directory of the log `v` remembers what is to be remembered of the batches committed. -/
theorem inSequence_iff {log : PartitionLog} {v : LogState} {commits : List (List Record × Int)} :
    (∀ id, 0 ≤ id → InSequence log commits id (v.producers.find? (·.id = id))) ↔
      log.Remembers (fun id => v.producers.find? (·.id = id)) commits := by
  constructor
  · intro h id hid
    obtain ⟨hepochs, hfirst, hnext, hknown⟩ := h id hid
    refine ⟨⟨hfirst, ?_⟩, hknown⟩
    rw [List.isChain_iff_getElem] at hnext ⊢
    intro i hi
    have hsequence := hnext i hi
    rcases lt_or_eq_of_le (List.pairwise_iff_getElem.mp hepochs i (i + 1) _ _ (Nat.lt_succ_self i))
      with hlt | heq
    · exact .inl ⟨hlt, by rw [hsequence, if_neg hlt.ne]⟩
    · exact .inr ⟨heq, by rw [hsequence, if_pos heq, advance]⟩
  · intro h id hid
    obtain ⟨hsequenced, hfind⟩ := h id hid
    refine ⟨hsequenced.epochs_le, hsequenced.first, hsequenced.chain.imp fun a b hab => ?_, hfind⟩
    rcases hab with ⟨hlt, hzero⟩ | ⟨heq, hadvance⟩
    · rw [if_neg hlt.ne, hzero]
    · rw [if_pos heq, hadvance, advance]

variable {Client : Type} {Y : Service Client} {g : Genesis Y.log} {e : Event Client Body}
  {es : List (Event Client Body)} {v v' : LogState} {commits new : List (List Record × Int)}

/-- A link of the chain keeps every producer in sequence. -/
theorem Publication.remembers (h : Publication Y e v v' new)
    (hv : Y.log.Remembers (fun id => v.producers.find? (·.id = id)) commits) :
    Y.log.Remembers (fun id => v'.producers.find? (·.id = id)) (commits ++ new) := by
  obtain ⟨_, _, _, -, hbefore, -, hadvance⟩ := h.change
  cases hadvance with
  | append hop hadmitted hjudge _ _ _ =>
    obtain ⟨-, -, -, -, hbatches⟩ := admitBatches_eq_ok hadmitted
    exact judge_remembers hbatches hbefore.valid_states hbefore.sorted
      (hbefore.start_nonneg.trans hbefore.tiles.le) hbefore.fits_next hv hjudge
  | retain =>
    rw [List.append_nil]
    exact hv

/-- The chain keeps every producer in sequence. -/
theorem Chronicle.remembers (h : Chronicle Y g es v commits)
    (hstart : Y.log.Remembers (fun id => g.state.producers.find? (·.id = id)) g.past) :
    Y.log.Remembers (fun id => v.producers.find? (·.id = id)) commits := by
  induction h with
  | start => exact hstart
  | other _ _ ih => exact ih
  | publish _ hpath hbody hbefore hafter hadvance ih =>
    exact Publication.remembers ⟨hpath, _, _, _, hbody, hbefore, hafter, hadvance⟩ ih

/-- **Idempotent production**: in every interleaving, whatever the clients are told about their
writes, the batches of every producer are committed in sequence, and the current manifest holds the
state that remembers the latest of them. -/
theorem Service.production_idempotent [DecidableEq Client] (Y : Service Client) (g : Genesis Y.log)
    (hstart : ∀ id, 0 ≤ id → InSequence Y.log g.past id (g.state.producers.find? (·.id = id)))
    {cfg : Config Client (Cmd Body) Resp (Bucket Client Body) Outcome}
    (h : Y.system.Reachable g.bucket cfg) :
    ∃ v commits live, Chronicle Y g cfg.shared.history v commits ∧
      Y.log.Coherent cfg.shared.objects (Y.log.manifestIn cfg.shared.objects) live v ∧
      ∀ id, 0 ≤ id → InSequence Y.log commits id (v.producers.find? (·.id = id)) := by
  obtain ⟨v, commits, live, hchronicle, hcoherent, -⟩ := Service.reachable_chronicle h
  exact ⟨v, commits, live, hchronicle, hcoherent,
    inSequence_iff.mpr (hchronicle.remembers (inSequence_iff.mp hstart))⟩

/-- The producers of the first run. -/
theorem Reference.production_idempotent_first : ∃ cfg, Reference.service.system.Reachable
      Reference.genesis.bucket cfg ∧
    (∃ s, cfg.tasks 1 = some ⟨s, .ret (.appended (.ok ⟨0, 0⟩))⟩) ∧
    ∃ v commits live, Chronicle Reference.service Reference.genesis cfg.shared.history v commits ∧
      Reference.log.Coherent cfg.shared.objects (Reference.log.manifestIn cfg.shared.objects) live v ∧
      ∀ id, 0 ≤ id → InSequence Reference.log commits id (v.producers.find? (·.id = id)) := by
  have hempty : ∀ id, 0 ≤ id → InSequence Reference.log [] id none := fun id _ =>
    ⟨.nil, by simp [entriesOf], .nil, rfl⟩
  obtain ⟨cfg, hreach, -, h₁, -⟩ := Reference.service_runs
  exact ⟨cfg, hreach, h₁, Service.production_idempotent Reference.service Reference.genesis
    hempty hreach⟩

end Walstream.Log
