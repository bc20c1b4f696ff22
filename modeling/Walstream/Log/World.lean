import Walstream.Log.Service

/-!
# Worlds of a partition

A `Scene` is the bucket with what a proof knows about it: the contents that names have been
promised and have got (`promised`, `made`), who drew each name and for a change of which
revision (`owner`), and what the current manifest stands for (`live`, `state`). `Sound` is
the invariant of all runs. Its heart is `Dead`: a name is dead when it was drawn for a
revision before the current one and the current manifest does not reach it. What was made
stays until it is dead, only dead names are ever deleted, and a dead name never comes back.

`Scene.Le` is the order in which worlds may come later.
-/

namespace Walstream.Log

open Interaction PartitionLog

/-- The bucket, and what is known of it. -/
structure Scene (Client : Type) where
  bucket : Bucket Client Body
  /-- The content that a name has got. -/
  made : String → Option Body
  /-- The content that a name will have, if any. -/
  promised : String → Option Body
  /-- Who drew the name, and the revision of the manifest it was to replace. -/
  owner : String → Option (Client × Nat)
  /-- The objects that the current manifest reaches. -/
  live : List String
  /-- The log that the current manifest stands for. -/
  state : LogState
  /-- All batches committed so far. -/
  commits : List (List Record × Int)

/-- The mode of a conditional write that replaces this content. -/
def modeOf : Option Body → PutMode Body
  | none => .create
  | some body => .update body

namespace Scene

variable {Client : Type}

section Notions

variable (log : PartitionLog) (w : Scene Client)

/-- The content of the manifest object. -/
def head : Option Body := w.bucket.objects log.manifestPath

/-- The current manifest. -/
def manifest : LogManifest := log.manifestIn w.bucket.objects

/-- The current revision. -/
def revision : Nat := (w.manifest log).revision

/-- The name will not be drawn any more. -/
def Settled (path : String) : Prop := ∀ id, path ∈ log.names id → id ∈ w.bucket.issued

/-- The revision that the name was drawn for. -/
def rank (path : String) : Nat := (w.owner path).elim 0 Prod.snd

/-- No manifest will ever reach the name again. -/
def Dead (path : String) : Prop :=
  w.Settled log path ∧ w.rank path < w.revision log ∧ path ∉ w.live

/-- The name was drawn by the client, which has not used it yet. -/
def Reserved (cl : Client) (path : String) : Prop :=
  (w.owner path).map Prod.fst = some cl ∧ w.promised path = none ∧ w.bucket.objects path = none

/-- The request is a write of the manifest by the client. -/
def Publishes (cl : Client) : Request Client Body → Prop
  | .put cl' path _ _ => cl' = cl ∧ path = log.manifestPath
  | .delete _ _ => False

open Classical in
/-- The client's writes of the manifest that took effect or still may. -/
noncomputable def tally (cl : Client) : Nat :=
  w.bucket.history.countP (fun e => decide (e.client = cl ∧ e.path = log.manifestPath)) +
    w.bucket.inFlight.countP (fun req => decide (Publishes log cl req))

end Notions

section Invariant

variable (Y : Service Client)

/-- What the client knows when it sends `root` to replace the manifest `base`. -/
structure Ticket (w : Scene Client) (cl : Client) (base : Option Body) (root : Root) : Prop where
  accepted : Y.log.Accepted (.indexed root)
  change : ∃ live v live' v' new, Y.log.Coherent w.made (manifestOf base) live v ∧
    Y.log.Coherent w.made (.indexed root) live' v' ∧
    (∀ o ∈ live', o ∈ live ∨ w.Settled Y.log o ∧ w.rank o = (manifestOf base).revision) ∧
    Advance Y cl w.made (manifestOf base) v root v' new

/-- A request that may take effect at any time. -/
inductive Sanctioned (w : Scene Client) : Request Client Body → Prop where
  | create {cl : Client} {path : String} {body : Body} (hpath : Y.log.Filed path)
      (hbody : w.promised path = some body) : Sanctioned w (.put cl path body .create)
  | publish {cl : Client} {base : Option Body} {root : Root} (h : w.Ticket Y cl base root) :
      Sanctioned w (.put cl Y.log.manifestPath (.manifest (.indexed root)) (modeOf base))
  | metadata {cl : Client} {body : Body} :
      Sanctioned w (.put cl Y.log.topicMetadataPath body .create)
  | delete {cl : Client} {path : String} (hpath : Y.log.Filed path) (h : w.Dead Y.log path) :
      Sanctioned w (.delete cl path)

/-- The client writes the manifest at most once: it appends, and refusals are truthful. -/
def Single (cl : Client) : Prop :=
  ¬ (Y.faults cl).misreport ∧ ∃ defaultPartitions clock batches,
    Y.op cl = .append defaultPartitions clock batches

/-- The invariant of all runs from `g`. -/
structure Sound (g : Genesis Y.log) (w : Scene Client) : Prop where
  order : Y.log.InOrder w.bucket.objects
  order₀ : { Y.log with partition := 0 }.InOrder w.bucket.objects
  coherent : Y.log.Coherent w.made (w.manifest Y.log) w.live w.state
  filed : ∀ {path}, w.promised path ≠ none → Y.log.Filed path ∧
    Y.log.crates.pathFrom path = path ∧ w.Settled Y.log path
  made : ∀ {path body}, w.made path = some body → w.promised path = some body
  agrees : ∀ {path body body'}, w.promised path = some body →
    w.bucket.objects path = some body' → body' = body
  present : ∀ {path body}, w.made path = some body → ¬ w.Dead Y.log path →
    w.bucket.objects path = some body
  held : ∀ {path body}, w.bucket.Held path body → w.Settled Y.log path ∧
    (Y.log.Filed path → Y.log.crates.pathFrom path = path)
  owner : ∀ {path}, w.owner path ≠ none → Y.log.Named path ∧ w.Settled Y.log path
  rank_le : ∀ path, w.rank path ≤ w.revision Y.log
  inFlight : ∀ req ∈ w.bucket.inFlight, w.Sanctioned Y req
  deletions : ∀ e ∈ w.bucket.history, e.body = none → Y.log.Filed e.path
  chronicle : Chronicle Y g w.bucket.history w.state w.commits
  single : ∀ cl, Single Y cl → w.tally Y.log cl ≤ 1

end Invariant

/-! ## The order of worlds -/

/-- `w'` may come later than `w`. -/
structure Le (log : PartitionLog) (w w' : Scene Client) : Prop where
  issued : w.bucket.issued ⊆ w'.bucket.issued
  made : ∀ {path body}, w.made path = some body → w'.made path = some body
  promised : ∀ {path body}, w.promised path = some body → w'.promised path = some body
  owner : ∀ {path}, w.Settled log path → w'.owner path = w.owner path
  head : w'.head log = w.head log ∨ w.revision log < w'.revision log
  dead : ∀ {path}, w.Dead log path → w'.Dead log path
  metadata : ∀ {body}, w.bucket.objects log.topicMetadataPath = some body →
    w'.bucket.objects log.topicMetadataPath = some body
  manifest₀ : w.bucket.objects (log.engine.manifestPath log.topic 0) ≠ none →
    w'.bucket.objects (log.engine.manifestPath log.topic 0) ≠ none
  history : w.bucket.history <+: w'.bucket.history
  moments : w.bucket.moments <+: w'.bucket.moments

variable {log : PartitionLog} {w w' w'' : Scene Client}

theorem manifest_eq (log : PartitionLog) (w : Scene Client) :
    w.manifest log = manifestOf (w.head log) := rfl

theorem Le.refl (log : PartitionLog) (w : Scene Client) : Le log w w where
  issued := subset_rfl
  made := id
  promised := id
  owner := fun _ => rfl
  head := .inl rfl
  dead := id
  metadata := id
  manifest₀ := id
  history := List.prefix_rfl
  moments := List.prefix_rfl

theorem Le.settled (h : Le log w w') {path : String} (hp : w.Settled log path) :
    w'.Settled log path := fun id hid => h.issued (hp id hid)

theorem Le.revision (h : Le log w w') : w.revision log ≤ w'.revision log := by
  rcases h.head with heq | hlt
  · rw [Scene.revision, Scene.revision, manifest_eq, manifest_eq, heq]
  · exact hlt.le

theorem Le.trans (h : Le log w w') (h' : Le log w' w'') : Le log w w'' where
  issued := h.issued.trans h'.issued
  made := fun hm => h'.made (h.made hm)
  promised := fun hm => h'.promised (h.promised hm)
  owner := fun hp => (h'.owner (h.settled hp)).trans (h.owner hp)
  head := by
    rcases h.head with heq | hlt
    · rcases h'.head with heq' | hlt'
      · exact .inl (heq'.trans heq)
      · exact .inr (h.revision.trans_lt hlt')
    · exact .inr (hlt.trans_le h'.revision)
  dead := fun hd => h'.dead (h.dead hd)
  metadata := fun hm => h'.metadata (h.metadata hm)
  manifest₀ := fun hm => h'.manifest₀ (h.manifest₀ hm)
  history := h.history.trans h'.history
  moments := h.moments.trans h'.moments

theorem Le.rank (h : Le log w w') {path : String} (hp : w.Settled log path) :
    w'.rank path = w.rank path := by
  unfold Scene.rank
  rw [h.owner hp]

/-- What a client relies on: nobody else uses its names, or publishes in its name. -/
structure Unharmed (log : PartitionLog) (cl : Client) (w w' : Scene Client) : Prop where
  reserved : ∀ {path}, w.Reserved cl path → w'.Reserved cl path
  tally : w'.tally log cl ≤ w.tally log cl

theorem Unharmed.refl (log : PartitionLog) (cl : Client) (w : Scene Client) : Unharmed log cl w w :=
  ⟨id, le_rfl⟩

theorem Unharmed.trans {cl : Client} (h : Unharmed log cl w w') (h' : Unharmed log cl w' w'') :
    Unharmed log cl w w'' :=
  ⟨fun hr => h'.reserved (h.reserved hr), h'.tally.trans h.tally⟩

end Scene

/-! ## What later worlds keep -/

section Later

variable {Client : Type} {Y : Service Client} {w w' : Scene Client}

theorem Advance.mono {cl : Client} {content content' : String → Option Body} {m : LogManifest}
    {v v' : LogState} {root : Root} {new : List (List Record × Int)}
    (h : Advance Y cl content m v root v' new)
    (hc : ∀ s ∈ v'.segments, content' s.object = content s.object) :
    Advance Y cl content' m v root v' new := by
  cases h with
  | @append defaultPartitions received batches fingerprints d new hop hadmitted hjudge hnew hholds
      hrenewed =>
    refine .append hop hadmitted hjudge hnew ?_ hrenewed
    have hmem : ∀ s ∈ new, content' s.object = content s.object :=
      fun s hs => hc s (List.mem_append_right _ hs)
    clear hc hnew hjudge
    revert hholds
    generalize d.additions = additions
    intro hholds
    induction hholds with
    | nil => exact .nil
    | @cons a s as ss hhead _ ih =>
      obtain ⟨bytes, hsegment, hstored⟩ := hhead
      exact .cons ⟨bytes, hsegment, hstored.mono (hmem s (by simp))⟩ (ih fun t ht => hmem t (by simp [ht]))
  | retain hop happly hretains hrenewed => exact .retain hop happly hretains hrenewed

/-- Every publication has a later revision than the manifest it replaces. -/
theorem Advance.revision_lt {cl : Client} {content : String → Option Body} {m : LogManifest}
    {v v' : LogState} {root : Root} {new : List (List Record × Int)}
    (h : Advance Y cl content m v root v' new) : m.revision < root.revision := by
  cases h with
  | append _ _ _ hnew _ hrenewed =>
    have := List.length_pos_iff.mpr hnew
    rw [hrenewed.revision]
    omega
  | retain _ _ _ hrenewed =>
    rw [hrenewed.revision]
    exact Nat.lt_succ_self _

namespace Scene

theorem Ticket.later {cl : Client} {base : Option Body} {root : Root} (h : w.Ticket Y cl base root)
    (hw : Le Y.log w w') : w'.Ticket Y cl base root := by
  obtain ⟨haccepted, live, v, live', v', new, hbase, hroot, hlive, hadvance⟩ := h
  refine ⟨haccepted, live, v, live', v', new, hbase.extend fun _ _ => hw.made,
    hroot.extend fun _ _ => hw.made, fun o ho => ?_, hadvance.mono fun s hs => ?_⟩
  · exact (hlive o ho).imp_right fun ⟨hsettled, hrank⟩ =>
      ⟨hw.settled hsettled, (hw.rank hsettled).trans hrank⟩
  · obtain ⟨bytes, hbytes⟩ := hroot.stored_segments s hs
    rw [hbytes.body, hw.made hbytes.body]

theorem Sanctioned.later {req : Request Client Body} (h : w.Sanctioned Y req)
    (hw : Le Y.log w w') : w'.Sanctioned Y req := by
  cases h with
  | create hpath hbody => exact .create hpath (hw.promised hbody)
  | publish h => exact .publish (h.later hw)
  | metadata => exact .metadata
  | delete hpath h => exact .delete hpath (hw.dead h)

end Scene

end Later

end Walstream.Log
