import Walstream.Log.Appending
import Walstream.Log.Fetching
import Walstream.Log.Retaining

/-!
# Engines at work on one partition

Any number of clients call the methods of the log on one partition, each with its own
clock, its own default partition count and its own luck with the store (`Service`). The
interleavings of their requests, and of requests that take effect late, are those of
`Interaction.System`.

- `Genesis`: the bucket the clients find, with a partition in order.
- `Advance`: how one publication moves the log: it adds the new batches of one request, or
  keeps a suffix.
- `Chronicle`: the history of the bucket, read as a chain of such publications.
-/

namespace Walstream.Log

open Interaction

/-! ## Calls -/

/-- A call of a method of the log. -/
inductive Op where
  | append (defaultPartitions : PartitionCount) (clock : Option Nat) (batches : List (List Record))
  | fetch (offset : Int) (maximumBytes : Nat) (allowOversizedFirstBatch : Bool)
  | offsets
  | maintain (options : MaintenanceOptions) (clock : Option Nat)

/-- What a call returns. -/
inductive Outcome where
  | appended (result : Except LogError AppendResult)
  | fetched (result : Except LogError BoundedFetch)
  | ranged (result : Except LogError OffsetRange)
  | maintained (result : Except LogError MaintenanceReport)

/-- The call as a program. -/
def Op.program (log : PartitionLog) : Op → Prog (Cmd Body) Resp Outcome
  | .append defaultPartitions clock batches => do
    return .appended (← (log.appendBatches defaultPartitions clock batches).run)
  | .fetch offset maximumBytes allowOversizedFirstBatch => do
    return .fetched (← (log.fetchBounded offset maximumBytes allowOversizedFirstBatch).run)
  | .offsets => do
    return .ranged (← log.offsets.run)
  | .maintain options clock => do
    return .maintained (← (log.maintain options clock).run)

/-- Clients of one partition: what each of them calls, and what may go wrong with its
requests. -/
structure Service (Client : Type) where
  log : PartitionLog
  op : Client → Op
  faults : Client → Faults

/-- The interleavings of the clients' requests. -/
def Service.system {Client : Type} (Y : Service Client) :
    System Client (Cmd Body) Resp (Bucket Client Body) Outcome where
  program cl := (Y.op cl).program Y.log
  exec cl := Bucket.Executes (Y.faults cl) Y.log.crates.size cl
  environment := Bucket.Delivered

namespace PartitionLog

variable (log : PartitionLog)

/-! ## The manifest in a bucket -/

/-- The manifest that an object's content stands for. -/
def manifestOf : Option Body → LogManifest
  | some (.manifest m) => m
  | _ => .indexed Root.empty

/-- The manifest of the partition. -/
def manifestIn (objects : String → Option Body) : LogManifest := manifestOf (objects log.manifestPath)

/-- The manifest is one that `load_manifest` hands out. -/
def Accepted (m : LogManifest) : Prop :=
  log.acceptManifest ⟨log.crates.size (.manifest m), .manifest m, .ok (.manifest m)⟩ =
    .ok ⟨m, some (.manifest m)⟩

/-- There is no manifest at this path, or one that is accepted. -/
def InOrder (objects : String → Option Body) : Prop :=
  ∀ body, objects log.manifestPath = some body → ∃ m, body = .manifest m ∧ log.Accepted m

end PartitionLog

open PartitionLog

/-! ## The beginning -/

/-- A bucket with the partition in order: its manifest stands for `state`, and its names are
those that engines give. `past` are the batches committed so far. -/
structure Genesis (log : PartitionLog) where
  objects : String → Option Body
  issued : Set Uuid
  live : List String
  state : LogState
  past : List (List Record × Int)
  topic : validateTopic log.topic = .ok ()
  partition : 0 ≤ log.partition
  order : log.InOrder objects
  /-- The manifest of partition 0 tells whether a topic without metadata exists. -/
  order₀ : { log with partition := 0 }.InOrder objects
  coherent : log.Coherent objects (log.manifestIn objects) live state
  /-- The UUIDs in names are among those handed out. -/
  issued_of_named : ∀ {path id}, objects path ≠ none → path ∈ log.names id → id ∈ issued
  /-- `Path::from` keeps the names of existing objects. -/
  path : ∀ {path}, objects path ≠ none → log.Filed path → log.crates.pathFrom path = path

/-- The bucket at the beginning. -/
def Genesis.bucket {log : PartitionLog} {Client : Type} (g : Genesis log) : Bucket Client Body :=
  Bucket.initial g.objects g.issued

/-! ## The chain of publications -/

section Chain

variable {Client : Type} (Y : Service Client)

/-- A client moves the log from `v`, as `m` stands for it, by publishing `root`: it adds the
new batches of its request, all of them, behind the log; or it keeps a suffix. `content` is
the store in which the new record objects are. -/
inductive Advance (cl : Client) (content : String → Option Body) (m : LogManifest) (v : LogState)
    (root : Root) : LogState → List (List Record × Int) → Prop where
  | append {defaultPartitions : PartitionCount} {received : Nat} {batches : List (List Record)}
      {fingerprints : List String} {d : Decision} {new : List Segment}
      (hop : Y.op cl = .append defaultPartitions (some received) batches)
      (hadmitted : Y.log.admitBatches batches = .ok fingerprints)
      (hjudge : judge v.producers (batches.zip fingerprints) (.start v.next) = .ok d)
      (hnew : d.additions ≠ [])
      (hholds : List.Forall₂ (Y.log.Holds content received) d.additions new)
      (hrenewed : Renewed m received d.additions.length root) :
      Advance cl content m v root
        ⟨v.start, d.nextOffset, v.segments ++ new, d.directory v.producers⟩ d.additions
  | retain {options : MaintenanceOptions} {now k : Nat}
      (hop : Y.op cl = .maintain options (some now)) (happly : options.apply = true)
      (hretains : Retains options (adoptionTime m now) now v.segments k)
      (hrenewed : Renewed m now 1 root) :
      Advance cl content m v root (v.retain k) []

/-- The changes of the bucket so far, read as one chain of publications: the log they lead
to, and all batches committed, in order. Each publication replaces a manifest that stands
for the log before it by one that stands for the log after it. -/
inductive Chronicle (g : Genesis Y.log) :
    List (Event Client Body) → LogState → List (List Record × Int) → Prop where
  | start : Chronicle g [] g.state g.past
  | other {es : List (Event Client Body)} {v : LogState} {commits : List (List Record × Int)}
      {e : Event Client Body} (h : Chronicle g es v commits) (hpath : e.path ≠ Y.log.manifestPath) :
      Chronicle g (es ++ [e]) v commits
  | publish {es : List (Event Client Body)} {v v' : LogState}
      {commits new : List (List Record × Int)} {e : Event Client Body} {root : Root}
      {live live' : List String} (h : Chronicle g es v commits)
      (hpath : e.path = Y.log.manifestPath) (hbody : e.body = some (.manifest (.indexed root)))
      (hbefore : Y.log.Coherent e.before (Y.log.manifestIn e.before) live v)
      (hafter : Y.log.Coherent e.after (.indexed root) live' v')
      (hadvance : Advance Y e.client e.after (Y.log.manifestIn e.before) v root v' new) :
      Chronicle g (es ++ [e]) v' (commits ++ new)

end Chain

end Walstream.Log
