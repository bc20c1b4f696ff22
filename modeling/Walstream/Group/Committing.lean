import Walstream.Group.OffsetMap
import Walstream.Group.Tasks
import Walstream.Interaction.Alone
import Walstream.Log.Engine
import Walstream.Wire.FetchResponse

/-!
# Answers to OffsetCommit

`protocol.rs`, `offset_commit_response`: the handler looks for the topic of every commit, has the
coordinator commit those that have one, and answers every partition of the request.

The handler is a program that asks the engine and the coordinator. A broker answers it: the engine
by its method on the objects of the topics, and the coordinator by the moves of one call of its
own, with the offsets of the group in their store.
-/

namespace Walstream.Group

open Interaction Log
open Std (ExtTreeMap)

/-! ## Error codes -/

/-- `ResponseError::code`. -/
def ResponseError.code : ResponseError → Int
  | .unknownMemberId => 25
  | .groupMaxSizeReached => 81
  | .inconsistentGroupProtocol => 23
  | .rebalanceInProgress => 27
  | .illegalGeneration => 22
  | .invalidRequest => 42
  | .invalidSessionTimeout => 26
  | .unknownServerError => -1
  | .invalidGroupId => 24
  | .unknownTopicOrPartition => 3
  | .invalidCommitOffsetSize => 28
  | .offsetMetadataTooLarge => 12
  | .kafkaStorageError => 56

/-- `response_error`. -/
def CoordinatorError.responseError : CoordinatorError → ResponseError
  | .kafka error => error
  | .storage (.invalidGroupId _) => .invalidGroupId
  | .storage (.invalidTopic _) | .storage (.unsupportedPartition _) => .unknownTopicOrPartition
  | .storage (.invalidOffset _) => .invalidCommitOffsetSize
  | .storage (.metadataTooLarge _) => .offsetMetadataTooLarge
  | .storage (.duplicateCommit _ _) | .storage (.duplicateFetch _ _) | .storage (.offsetLimit _)
  | .storage (.manifestTooLarge _ _) => .invalidRequest
  | .storage .invalidPrefix | .storage .revisionOverflow | .storage (.invalidManifest _)
  | .storage (.objectStore _) | .storage (.contentionExhausted _) => .kafkaStorageError

/-! ## Requests and responses -/

structure OffsetCommitRequestPartition where
  partitionIndex : Int
  committedOffset : Int
  committedMetadata : Option String
  offset_i64 : committedOffset ≤ i64Max

structure OffsetCommitRequestTopic where
  name : String
  partitions : List OffsetCommitRequestPartition

structure OffsetCommitRequest where
  groupId : String
  generationIdOrMemberEpoch : Int
  memberId : String
  retentionTimeMs : Int
  topics : List OffsetCommitRequestTopic

structure OffsetCommitResponsePartition where
  partitionIndex : Int
  errorCode : Int
  deriving DecidableEq, Repr

structure OffsetCommitResponseTopic where
  name : String
  partitions : List OffsetCommitResponsePartition
  deriving DecidableEq, Repr

structure OffsetCommitResponse where
  topics : List OffsetCommitResponseTopic
  deriving DecidableEq, Repr

namespace OffsetCommitRequest

variable (request : OffsetCommitRequest)

/-- The commits of the request, in its order. -/
def commits : List OffsetCommit :=
  request.topics.flatMap fun topic => topic.partitions.map fun partition =>
    ⟨topic.name, partition.partitionIndex, partition.committedOffset,
      partition.committedMetadata, partition.offset_i64⟩

/-- The response with these error codes: one entry for each one of the request. -/
def respond (errorCode : TopicPartition → Int) : OffsetCommitResponse :=
  ⟨request.topics.map fun topic => ⟨topic.name, topic.partitions.map fun partition =>
    ⟨partition.partitionIndex, errorCode ⟨topic.name, partition.partitionIndex⟩⟩⟩⟩

end OffsetCommitRequest

/-! ## The handler -/

/-- What the handlers ask of the engine and of the coordinator. -/
inductive Ask where
  | topicExists (key : TopicPartition)
  | commit (group : String) (generationId : Int) (memberId : String) (commits : List OffsetCommit)
  | fetch (group : String) (selection : Option (List TopicPartition))

@[reducible] def Ask.Reply : Ask → Type
  | .topicExists _ => Except LogError Bool
  | .commit _ _ _ _ => Except CoordinatorError Unit
  | .fetch _ _ => Except CoordinatorError (List FetchedOffset)

abbrev LocalErrors := ExtTreeMap TopicPartition Int compare

/-- Why a commit is not for the coordinator, after the look for its topic. -/
def lookupError : Except LogError Bool → Option Int
  | .ok true => none
  | .ok false => some ResponseError.unknownTopicOrPartition.code
  | .error error => some (Wire.logErrorCode error)

/-- The loop over the commits, with the local errors and the valid commits so far. -/
def lookUp : List OffsetCommit → LocalErrors → List OffsetCommit →
    Prog Ask Ask.Reply (LocalErrors × List OffsetCommit)
  | [], localErrors, validCommits => return (localErrors, validCommits)
  | commit :: commits, localErrors, validCommits => do
    match lookupError (← Prog.perform (.topicExists commit.key)) with
    | some errorCode => lookUp commits (localErrors.insert commit.key errorCode) validCommits
    | none => lookUp commits localErrors (validCommits ++ [commit])

/-- `.err().map_or(0, |error| error.response_error().code())`. -/
def coordinatorCode : Except CoordinatorError Unit → Int
  | .ok () => 0
  | .error error => error.responseError.code

def offsetCommitResponse (request : OffsetCommitRequest) :
    Prog Ask Ask.Reply OffsetCommitResponse := do
  let requestError := if request.retentionTimeMs ≠ -1 then ResponseError.invalidRequest.code else 0
  let (localErrors, validCommits) ←
    if requestError = 0 then lookUp request.commits ∅ [] else pure (∅, [])
  let coordinatorError ←
    if requestError = 0 then do
      let result ← Prog.perform (.commit request.groupId request.generationIdOrMemberEpoch
        request.memberId validCommits)
      pure (coordinatorCode result)
    else pure 0
  return request.respond fun key =>
    if requestError ≠ 0 then requestError
    else if coordinatorError ≠ 0 then coordinatorError
    else localErrors[key]?.getD 0

/-! ## Brokers -/

/-- What a broker works with. -/
structure Broker where
  crates : Crates
  engine : LogEngine
  json : OffsetJson
  offsets : GroupStore

/-- What the requests to a broker read and write: the objects of the topics, and the groups with
the objects of their offsets. -/
@[ext] structure BrokerState (Client : Type) where
  topics : Bucket Client Body
  groups : Shared (Bucket Client Document)

/-- The store of committed offsets for the coordinator: a commit goes on by one request. -/
def GroupStore.offsetStore (self : GroupStore) (json : OffsetJson) (f : Faults) {Client : Type}
    (cl : Client) : OffsetStore where
  Content := Bucket Client Document
  Work := Prog (Cmd Document) Resp (Except GroupError Unit)
  commit group commits := (self.commit json group commits).run
  Step b work b' next := match work with
    | .ret result => b' = b ∧ next = .inr result
    | .call c k => ∃ r, Bucket.Executes f List.length cl c b r b' ∧ next = .inl (k r)

/-- A call of the coordinator goes on, and so does the time, while nobody else moves. -/
inductive Proceeds (store : OffsetStore) : Shared store.Content × Task store.Work →
    Shared store.Content × Task store.Work → Prop where
  | move {w w' : Shared store.Content} {t t' : Task store.Work} {e : Event}
      (moves : Moves store w t e w' t') : Proceeds store (w, t) (w', t')
  | tick {w : Shared store.Content} {t : Task store.Work} (clock : Nat)
      (later : w.clock ≤ clock) : Proceeds store (w, t) ({ w with clock }, t)

namespace Broker

variable (self : Broker) {Client : Type} (cl : Client)

/-- The engine at work on a partition. -/
def log (key : TopicPartition) : PartitionLog := ⟨self.crates, self.engine, key.topic, key.partition⟩

abbrev offsetStore : OffsetStore := self.offsets.offsetStore self.json Faults.none cl

/-- How a broker answers its handlers, when its stores have no faults. -/
def Replies : Exec Ask Ask.Reply (BrokerState Client)
  | .topicExists key, s, r, s' => s'.groups = s.groups ∧
    ∃ cs, Runs (Bucket.Executes Faults.none (self.log key).crates.size cl) s.topics
      (self.log key).topicExists.run cs r s'.topics
  | .commit group generationId memberId commits, s, r, s' => s'.topics = s.topics ∧
    ∃ generated, Relation.ReflTransGen (Proceeds (self.offsetStore cl))
      (s.groups, ⟨.commit group generationId memberId commits, none, .called⟩)
      (s'.groups, ⟨.commit group generationId memberId commits, generated,
        .returned ((r.map fun _ => .done).mapError .error)⟩)
  | .fetch group selection, s, r, s' => s'.topics = s.topics ∧ ∃ content cs result,
    s'.groups = { s.groups with content } ∧ r = result.mapError .storage ∧
      Runs (Bucket.Executes Faults.none List.length cl) s.groups.content
        (self.offsets.fetch self.json group selection).run cs result content

/-- The object of a group's offsets. -/
def offsetObject (group : String) (s : BrokerState Client) : Option Document :=
  s.groups.content.objects (self.offsets.offsetPath group)

end Broker

end Walstream.Group
