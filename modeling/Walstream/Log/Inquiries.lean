import Walstream.Interaction.Inquiry
import Walstream.Log.Loading
import Walstream.Log.Selecting

/-!
# What the log finds out

The parts of calls that only read, as inquiries: the look for the topic and its partition, and the
load of the manifest.
-/

namespace Walstream.Log

open Interaction

namespace PartitionLog

variable {self : PartitionLog}

/-! ## Requests that only read -/

theorem loadTopicMetadata_reads : Issues Cmd.Reads self.loadTopicMetadata := by
  unfold loadTopicMetadata
  refine issues_bind (issues_lift (by simp [Cmd.Reads])) ?_
  rintro (e | result)
  · cases e with
    | notFound => exact issues_pure _
    | alreadyExists | precondition | generic => exact issues_throw _
  · exact issues_bind issues_check fun _ => issues_pure _

theorem loadManifestOf_reads (partition : Int) :
    Issues Cmd.Reads (self.loadManifestOf partition) := by
  unfold loadManifestOf
  refine issues_bind (issues_lift (by simp [Cmd.Reads])) ?_
  rintro (e | result)
  · cases e with
    | notFound => exact issues_pure _
    | alreadyExists | precondition | generic => exact issues_throw _
  · exact issues_bind issues_check fun _ => issues_pure _

theorem topicPartitionCount_reads : Issues Cmd.Reads self.topicPartitionCount := by
  unfold topicPartitionCount
  refine issues_bind issues_check fun _ => issues_bind loadTopicMetadata_reads ?_
  rintro (_ | metadata)
  · exact issues_bind (loadManifestOf_reads 0) fun _ => issues_pure _
  · exact issues_pure _

theorem topicExists_reads : Issues Cmd.Reads self.topicExists := by
  unfold topicExists
  refine issues_bind issues_check fun _ => issues_bind topicPartitionCount_reads ?_
  rintro (_ | count)
  · exact issues_pure _
  · exact issues_bind issues_check fun _ => issues_pure _

/-! ## What they find -/

variable {Client α β : Type} {f : Faults} {cl : Client} {b : Bucket Client Body}

theorem inquires_check (r : Except LogError α) :
    Inquires f self.crates.size cl b (Engine.check r).run r := inquires_ret r

theorem inquires_check_bind {r : Except LogError β} {g : β → Engine α} {a : β}
    {outcome : Except LogError α} (hr : r = .ok a)
    (h : Inquires f self.crates.size cl b (g a).run outcome) :
    Inquires f self.crates.size cl b (do g (← Engine.check r)).run outcome := by
  subst hr
  exact inquires_bind (inquires_check _) h

theorem inquires_evaluate (hf : ¬ f.transport) {x : Engine α} (hreads : Issues Cmd.Reads x)
    {r : Except LogError α} (h : self.evaluate b.objects x = r) :
    Inquires f self.crates.size cl b x.run r := h ▸ inquires_eval hf hreads

/-- The manifest is loaded. -/
theorem loadManifest_inquires (cl : Client) (hf : ¬ f.transport) (horder : self.InOrder b.objects) :
    ∃ loaded, Inquires f self.crates.size cl b self.loadManifest.run (.ok loaded) ∧
      (loaded.getD LoadedManifest.empty).manifest = self.manifestIn b.objects := by
  have hreads : Issues Cmd.Reads self.loadManifest := loadManifestOf_reads _
  -- the object is missing, or has a manifest that is accepted
  cases hobject : b.objects self.manifestPath with
  | none =>
    refine ⟨none, inquires_evaluate hf hreads ?_, by simp [manifestIn, hobject, manifestOf,
      LoadedManifest.empty]⟩
    have hnone : b.objects (self.engine.manifestPath self.topic self.partition) = none := hobject
    unfold loadManifest loadManifestOf
    rw [evaluate_bind, evaluate_get]
    simp only [frozen, hnone]
    rfl
  | some body =>
    obtain ⟨m, rfl, haccepted⟩ := horder body hobject
    refine ⟨some ⟨m, some (.manifest m)⟩, inquires_evaluate hf hreads ?_,
      by simp [manifestIn, hobject, manifestOf]⟩
    have hsome : b.objects (self.engine.manifestPath self.topic self.partition) =
      some (.manifest m) := hobject
    have haccept : self.acceptManifest ⟨self.crates.size (.manifest m), .manifest m,
      .ok (.manifest m)⟩ = .ok ⟨m, some (.manifest m)⟩ := haccepted
    unfold loadManifest loadManifestOf
    rw [evaluate_bind, evaluate_get]
    simp only [frozen, hsome]
    refine (evaluate_bind ..).trans ?_
    rw [evaluate_check, haccept]
    rfl

/-- The topic's metadata is loaded. -/
theorem loadTopicMetadata_inquires (hf : ¬ f.transport) {m : TopicMetadata}
    (h : Established self b.objects m) :
    Inquires f self.crates.size cl b self.loadTopicMetadata.run (.ok (some m)) := by
  obtain ⟨hobject, hparse⟩ := h
  refine inquires_evaluate hf loadTopicMetadata_reads ?_
  unfold loadTopicMetadata
  rw [evaluate_bind, evaluate_get]
  simp only [frozen, hobject]
  refine (evaluate_bind ..).trans ?_
  rw [evaluate_check, hparse]
  rfl

/-- A topic that has the partition is left as it is. -/
theorem ensureTopic_inquires (hf : ¬ f.transport) (htopic : validateTopic self.topic = .ok ())
    {m : TopicMetadata} (h : Established self b.objects m)
    (hpartition : validatePartition self.partition m.partitionCount = .ok ())
    (defaultPartitions : PartitionCount) :
    Inquires f self.crates.size cl b (self.ensureTopic defaultPartitions).run
      (.ok m.partitionCount) := by
  unfold ensureTopic
  refine inquires_check_bind htopic ?_
  refine inquires_bind (loadTopicMetadata_inquires hf h) ?_
  refine inquires_bind (inquires_pure _) ?_
  exact inquires_check_bind hpartition (inquires_pure _)

end PartitionLog

end Walstream.Log
