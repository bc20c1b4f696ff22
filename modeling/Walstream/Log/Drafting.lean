import Walstream.Interaction.Draft
import Walstream.Log.Engine
import Walstream.Log.Names
import Walstream.Log.ProducerShape

/-!
# Drafts of the log

The part of an append or of a maintenance pass before its conditional write of the
manifest is a draft in the sense of `Interaction.Draft`. This file instantiates that logic
for the log, says what the results below assume of other crates, and proves the rules for
the steps all drafts are made of.
-/

namespace Walstream.Log

open Interaction Tiling

/-! ## Errors -/

/-- The error is how the engine reports the store's answer. -/
def LogError.Reports (e : StoreError) (x : LogError) : Prop :=
  x = .objectStore e ∨ ∃ object, x = .missingSegment object e

/-- The error says that durable metadata is malformed. -/
def LogError.Malformed : LogError → Prop
  | .invalidManifest _ => True
  | .maintenanceIncomplete _ source => source.Malformed
  | _ => False

/-- The error says that durable data is missing or wrong. -/
def LogError.Damage : LogError → Prop
  | .invalidManifest _ => True
  | .corruptSegment _ _ => True
  | .missingSegment _ _ => True
  | .objectStore .notFound => True
  | .maintenanceIncomplete _ source => source.Damage
  | _ => False

theorem LogError.Malformed.damage : {x : LogError} → x.Malformed → x.Damage
  | .invalidManifest _, _ => trivial
  | .maintenanceIncomplete _ source, h => LogError.Malformed.damage (x := source) h

/-! ## Assumptions -/

/-- The Kafka codec: a batch at other offsets is inspected with the same result, one batch is
of one producer, and decoding gives back the records that were encoded. -/
structure Kafka (crates : Crates) : Prop where
  inspect : ∀ {records : List Record} {delta : Int} {bytes bytes' : List UInt8},
    crates.encode records = .ok bytes →
    crates.encode (records.map (Record.shift delta)) = .ok bytes' →
    crates.inspectRecordBatches bytes' = crates.inspectRecordBatches bytes
  single : ∀ {records : List Record} {bytes : List UInt8} {inspection : BatchInspection},
    crates.encode records = .ok bytes → crates.inspectRecordBatches bytes = .ok inspection →
    inspection.batchCount = 1 → ∀ r ∈ records, ∀ first ∈ records.head?,
      r.producerId = first.producerId
  decode : ∀ {records rs : List Record} {base : Int} {bytes : List UInt8}
    {inspection : BatchInspection}, validateRecords records = .ok () →
    validateTimestampSpan records = .ok () → assignedRecords records base = .ok rs →
    crates.encode rs = .ok bytes → crates.inspectRecordBatches bytes = .ok inspection →
    inspection.batchCount = 1 → ∃ batches, crates.decodeAll bytes = some (batches, []) ∧
      batches.flatten = rs ∧ inspection.recordHeaderCounts = rs.map (·.headers.length)

/-- A producer page of at most 64 valid entries fits into the limit on documents. -/
structure ProducerPagesFit (log : PartitionLog) : Prop where
  producerLeaf : ∀ states, states.length ≤ pageEntries → (∀ p ∈ states, ValidState i64Max p) →
    log.crates.jsonLength (.producerPage (.leaf states)) ≤ maxManifestBytes
  producerBranch : ∀ children, children.length ≤ pageEntries →
    (∀ c ∈ children, log.validateProducerRef c = .ok ()) →
    log.crates.jsonLength (.producerPage (.branch children)) ≤ maxManifestBytes

/-- An index page of at most 64 valid entries fits into the limit on documents. -/
structure IndexPagesFit (log : PartitionLog) : Prop where
  leaf : ∀ segments, segments.length ≤ pageEntries →
    (∀ s ∈ segments, log.ValidSegment s ∧ ∃ id, s.object = log.segmentPath id) →
    log.crates.jsonLength (.page (.leaf segments)) ≤ maxManifestBytes
  branch : ∀ children, children.length ≤ pageEntries →
    (∀ c ∈ children, log.validatePageRef c = .ok ()) →
    log.crates.jsonLength (.page (.branch children)) ≤ maxManifestBytes

/-- A document of at most 64 valid entries fits into the limit on documents. -/
structure Fits (log : PartitionLog) : Prop extends ProducerPagesFit log, IndexPagesFit log where
  root : ∀ root, log.ValidRoot root → (∀ s ∈ root.tail, ∃ id, s.object = log.segmentPath id) →
    log.crates.jsonLength (.manifest (.indexed root)) ≤ maxManifestBytes

/-- The error does not say that the metadata is malformed, as long as documents fit, nor that
any durable data is damaged, as long as the codec can be trusted as well. -/
def Excused (log : PartitionLog) (x : LogError) : Prop :=
  Fits log → ¬ x.Malformed ∧ (Kafka log.crates → ¬ x.Damage)

theorem excused_of_not_damage {log : PartitionLog} {x : LogError} (h : ¬ x.Damage) :
    Excused log x := fun _ => ⟨fun hm => h hm.damage, fun _ => h⟩

/-- A page that is too large is excused by pages that do not fit. -/
theorem excused_of_page {log : PartitionLog} (h : ¬ IndexPagesFit log) (x : LogError) :
    Excused log x := fun fits => absurd fits.toIndexPagesFit h

/-! ## Rules -/

namespace PartitionLog

/-- `Drafting` for the log. -/
abbrev Drafts (self : PartitionLog) {α : Type} (x : Engine α) (n : Notes Body)
    (Q : α → Notes Body → Prop) (F : LogError → Prop) : Prop :=
  Drafting self.names self.crates.size LogError.Reports x n Q F

variable {self : PartitionLog} {α β : Type} {n : Notes Body} {Q : α → Notes Body → Prop}
  {F : LogError → Prop}

theorem drafts_check {r : Except LogError α} (hok : ∀ a, r = .ok a → Q a n)
    (herror : ∀ x, r = .error x → F x) : self.Drafts (Engine.check r) n Q F := by
  cases r with
  | ok a => exact hok a rfl
  | error x => exact herror x rfl

theorem drafts_check_ok {r : Except LogError α} {a : α} (hr : r = .ok a) (h : Q a n) :
    self.Drafts (Engine.check r) n Q F := by
  subst hr
  exact h

theorem drafts_check_bind {r : Except LogError β} {f : β → Engine α}
    (hok : ∀ b, r = .ok b → self.Drafts (f b) n Q F) (herror : ∀ x, r = .error x → F x) :
    self.Drafts (do f (← Engine.check r)) n Q F := by
  cases r with
  | ok b => exact hok b rfl
  | error x => exact herror x rfl

theorem drafts_check_bind_ok {r : Except LogError β} {f : β → Engine α} {b : β} (hr : r = .ok b)
    (h : self.Drafts (f b) n Q F) : self.Drafts (do f (← Engine.check r)) n Q F := by
  subst hr
  exact h

/-- A GET whose answer is checked at once. -/
theorem drafts_get {path : String} {body : Body} {accept : GetResult Body → Except LogError α}
    {a : α} (hbody : n.content path = some body)
    (hok : accept ⟨self.crates.size body, body, .ok body⟩ = .ok a)
    (hbroken : ∀ e, ∃ x, accept ⟨self.crates.size body, body, .error e⟩ = .error x ∧ x.Reports e)
    (h : Q a n) :
    self.Drafts (do
      let result ← Engine.orStore (← Engine.perform (.get path))
      Engine.check (accept result)) n Q F := by
  refine ⟨body, hbody, ?_, fun e => ⟨.objectStore e, rfl, .inl rfl⟩, fun e => ?_⟩
  · have hrun : Drafting self.names self.crates.size LogError.Reports
        (Engine.check (accept ⟨self.crates.size body, body, .ok body⟩)) n Q F :=
      drafts_check_ok hok h
    exact hrun
  · obtain ⟨x, hx, hreports⟩ := hbroken e
    refine ⟨x, ?_, hreports⟩
    change Prog.ret (accept ⟨self.crates.size body, body, .error e⟩) = _
    rw [hx]

/-- A HEAD whose answer is the length of the object. -/
theorem drafts_head {path : String} {body : Body} {f : Nat → Engine α}
    (hbody : n.content path = some body) (h : self.Drafts (f (self.crates.size body)) n Q F) :
    self.Drafts (do
      let size ← Engine.orStore (← Engine.perform (.head path))
      f size) n Q F :=
  ⟨body, hbody, h, fun e => ⟨.objectStore e, rfl, .inl rfl⟩⟩

/-- A fresh name is drawn. -/
theorem drafts_newV4 {f : Uuid → Engine α}
    (h : ∀ id, (∀ path ∈ self.names id, n.content path = none) →
      self.Drafts (f id) (n.draw (self.names id)) Q F) :
    self.Drafts (do
      let id ← Engine.perform .newV4
      f id) n Q F := h

/-- An object is created under one of the draft's own names. -/
theorem drafts_create {path : String} {body : Body} {f : Body → Engine α} (hown : path ∈ n.own)
    (hnone : n.content path = none) (h : self.Drafts (f body) (n.write path body) Q F) :
    self.Drafts (do
      let r ← Engine.orStore (← Engine.perform (.put path body .create))
      f r) n Q F :=
  ⟨hown, hnone, h, fun e => ⟨.objectStore e, rfl, .inl rfl⟩⟩

end PartitionLog

end Walstream.Log
