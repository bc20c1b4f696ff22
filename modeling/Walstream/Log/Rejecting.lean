import Walstream.Log.Appending
import Walstream.Log.Pagination

/-!
# Rejected requests

What a rejected append leaves behind. The decision phase reads only, and nothing that comes
after it rejects a request; but the topic is created before the decision, so that a request
which its producer must not append still creates the topic's metadata when there is none.
-/

namespace Walstream.Log

open Interaction

/-- The error rejects the request: it is malformed, or not what its producer may append. -/
def LogError.Rejects : LogError → Prop
  | .emptyBatch | .tooManyRecords _ _ | .batchTooLarge _ _ | .unsupportedRecordSemantics
  | .invalidTimestampRange | .codec _ | .invalidTopic _ | .unsupportedPartition _
  | .outOfOrderSequence | .invalidProducerEpoch | .conflictingSequence => True
  | _ => False

theorem LogError.rejects_mundane : Mundane fun e => ¬ e.Rejects :=
  ⟨fun _ h => h, fun _ h => h, fun h => h, fun _ h => h⟩

theorem LogError.not_rejects_of_missing {e : LogError} (h : e.isMissing = true) : ¬ e.Rejects := by
  unfold LogError.isMissing at h
  split at h
  · exact fun h => h
  · exact fun h => h
  · cases h

namespace PartitionLog

variable {self : PartitionLog}

/-! ## After the decision -/

section Publishing

variable {P : LogError → Prop} {φ : Cmd Body → Prop}

theorem appendAdditions_obeys (hP : Mundane P) (hrevision : P .revisionOverflow)
    (hφ : self.Grants φ) (receivedAtMs : Nat) {additions : List (List Record × Int)}
    (hadditions : ∀ a ∈ additions, ∃ fingerprint, self.Admitted (a.1, fingerprint)) (root : Root) :
    Obeys φ P (self.appendAdditions receivedAtMs additions root) := by
  induction additions generalizing root with
  | nil => exact obeys_pure
  | cons addition additions ih =>
    obtain ⟨records, base⟩ := addition
    obtain ⟨fingerprint, hadmitted⟩ := hadditions _ List.mem_cons_self
    -- what was encoded at offset 0 can be encoded at this one
    have hencode : FailsWith P (do self.crates.encodeRecords (← assignedRecords records base)) := by
      refine failsWith_bind (by simp [assignedRecords, hP.overflow]) fun rs hrs => ?_
      obtain ⟨bytes, hbytes, -, -⟩ := hadmitted.encode_assigned hrs
      rw [encodeRecords_eq_ok.mpr hbytes]
      exact failsWith_ok
    unfold appendAdditions
    refine obeys_bind ((obeys_paginates hP hφ).sealFullTail root) fun root => ?_
    refine obeys_bind (obeys_check hencode) fun encoded => obeys_ask hφ.newV4 fun id => ?_
    refine obeys_bind (obeys_check (failsWith_okOr hrevision)) fun revision => ?_
    refine obeys_ask (hφ.create _ _ ⟨id, self.segmentPath_mem id⟩) fun answer => ?_
    exact obeys_orStore hP.store fun _ =>
      ih (fun a ha => hadditions a (List.mem_cons_of_mem _ ha)) _

/-- What comes after a decision with new batches keeps to the rule. -/
theorem publishing_obeys (hP : Mundane P) (hrevision : P .revisionOverflow) (hφ : self.Grants φ)
    {d : Decision} (hadditions : ∀ a ∈ d.additions, ∃ fingerprint, self.Admitted (a.1, fingerprint))
    (manifest : LogManifest) (receivedAtMs : Nat) : Obeys φ P (do
      let root ← self.appendRoot manifest receivedAtMs
      let root ← self.appendAdditions receivedAtMs d.additions root
      let producers ← self.updateProducers d.nextOffset d.states root.producers
      return (d.result, some { root with producers := producers })) := by
  have hpages := obeys_paginates hP hφ
  apply obeys_bind (hpages.appendRoot manifest receivedAtMs)
  intro root
  apply obeys_bind (appendAdditions_obeys hP hrevision hφ receivedAtMs hadditions root)
  intro root
  exact obeys_bind (hpages.updateProducers _ _ _) fun producers => obeys_pure

end Publishing

/-! ## The decision -/

/-- The decision phase reads pages of the producer directory, and fails with errors of these reads
or with those of `accept`. -/
theorem decideBatches_obeys {P : LogError → Prop} {φ : Cmd Body → Prop} (hP : Mundane P)
    (hempty : P .emptyBatch) (haccept : ∀ (state : ProducerState) epoch sequence count fingerprint
      nextOffset, FailsWith P (state.accept epoch sequence count fingerprint nextOffset))
    (hget : ∀ path, φ (.get path)) (directory : Option ProducerRef) (initialOffset : Int)
    (batches : List (List Record × String)) (d : Decision) :
    Obeys φ P (self.decideBatches directory initialOffset batches d) := by
  induction batches generalizing d with
  | nil => exact obeys_pure
  | cons batch batches ih =>
    refine obeys_bind ?_ fun d => ih d
    unfold decideBatch
    split
    · exact obeys_throw hempty
    · dsimp only
      split
      · refine obeys_bind ?_ fun state => obeys_bind (obeys_check (haccept _ _ _ _ _ _)) fun _ =>
          obeys_pure
        unfold producerSnapshot
        split
        · exact obeys_pure
        · exact obeys_bind ((obeys_consults hP hget).producerState _ _ _) fun known => obeys_pure
      · refine obeys_bind (obeys_check ?_) fun _ => obeys_pure
        simp [anonymousResult, hP.overflow]

theorem mundane_true : Mundane fun _ : LogError => True := by constructor <;> simp

/-- The decision phase reads only. -/
theorem decideBatches_reads (directory : Option ProducerRef) (initialOffset : Int)
    (batches : List (List Record × String)) (d : Decision) :
    Obeys Cmd.Reads (fun _ => True) (self.decideBatches directory initialOffset batches d) :=
  decideBatches_obeys mundane_true trivial (fun _ _ _ _ _ _ _ _ => trivial) (fun _ => trivial)
    directory initialOffset batches d

/-- Whatever the store answers, only batches of the request are added. -/
theorem decideBatches_additions {directory : Option ProducerRef} {initialOffset : Int}
    {batches : List (List Record × String)} {d d' : Decision}
    (h : Yields (self.decideBatches directory initialOffset batches d) d') :
    ∀ a ∈ d'.additions, a ∈ d.additions ∨ ∃ fingerprint, (a.1, fingerprint) ∈ batches := by
  -- over the batches of the request
  induction batches generalizing d with
  | nil =>
    obtain rfl := yields_pure h
    exact fun a ha => .inl ha
  | cons batch batches ih =>
    obtain ⟨d₁, hfirst, hrest⟩ := yields_bind h
    -- what is recorded is the batch itself, or nothing
    have hrecord : ∀ (states : List ProducerState) (result : AppendResult),
        ∀ a ∈ (d.record batch.1 states result).additions, a ∈ d.additions ∨ a.1 = batch.1 := by
      intro states result a ha
      unfold Decision.record at ha
      split at ha
      · rcases List.mem_append.mp ha with ha | ha
        · exact .inl ha
        · exact .inr (by rw [List.mem_singleton.mp ha])
      · exact .inl ha
    -- one batch adds itself at most
    have hone : ∀ a ∈ d₁.additions, a ∈ d.additions ∨ a.1 = batch.1 := by
      unfold decideBatch at hfirst
      split at hfirst
      · exact absurd hfirst not_yields_throw
      · dsimp only at hfirst
        split at hfirst
        · obtain ⟨state, -, hfirst⟩ := yields_bind hfirst
          obtain ⟨out, -, hfirst⟩ := yields_bind hfirst
          obtain rfl := yields_pure hfirst
          exact hrecord _ _
        · obtain ⟨result, -, hfirst⟩ := yields_bind hfirst
          obtain rfl := yields_pure hfirst
          exact hrecord _ _
    intro a ha
    rcases ih hrest a ha with ha | ⟨fingerprint, ha⟩
    · rcases hone a ha with ha | ha
      · exact .inl ha
      · exact .inr ⟨batch.2, by rw [ha]; exact List.mem_cons_self⟩
    · exact .inr ⟨fingerprint, List.mem_cons_of_mem _ ha⟩

/-- The batches that are added were admitted. -/
theorem admitted_additions {directory : Option ProducerRef} {initialOffset next : Int}
    {batches : List (List Record × String)} (hbatches : ∀ batch ∈ batches, self.Admitted batch)
    {d : Decision}
    (h : Yields (self.decideBatches directory initialOffset batches ⟨next, [], [], []⟩) d) :
    ∀ a ∈ d.additions, ∃ fingerprint, self.Admitted (a.1, fingerprint) := by
  intro a ha
  rcases decideBatches_additions h a ha with hnil | ⟨fingerprint, hmem⟩
  · cases hnil
  · exact ⟨fingerprint, hbatches _ hmem⟩

end PartitionLog

end Walstream.Log
