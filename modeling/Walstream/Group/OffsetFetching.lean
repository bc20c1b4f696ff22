import Std.Data.ExtTreeSet
import Walstream.Group.Truthful

/-!
# Answers to OffsetFetch

`protocol.rs`, `offset_fetch_response`: the handler looks for the topic of every requested key,
fetches the positions of those that have one, and answers every partition of the request; without
a list of topics it answers every position of the group.
-/

namespace Walstream.Group

open Interaction Log
open Std (ExtTreeMap ExtTreeSet)

/-! ## Requests and responses -/

structure OffsetFetchRequestTopic where
  name : String
  partitionIndexes : List Int
  deriving DecidableEq, Repr

structure OffsetFetchRequest where
  groupId : String
  topics : Option (List OffsetFetchRequestTopic)
  deriving DecidableEq, Repr

structure OffsetFetchResponsePartition where
  partitionIndex : Int
  committedOffset : Int
  metadata : Option String
  errorCode : Int
  deriving DecidableEq, Repr

structure OffsetFetchResponseTopic where
  name : String
  partitions : List OffsetFetchResponsePartition
  deriving DecidableEq, Repr

structure OffsetFetchResponse where
  errorCode : Int
  topics : List OffsetFetchResponseTopic
  deriving DecidableEq, Repr

/-- The requested keys, in the order of the request. -/
def keysOf (topics : List OffsetFetchRequestTopic) : List TopicPartition :=
  topics.flatMap fun topic => topic.partitionIndexes.map fun partition => ⟨topic.name, partition⟩

/-- The answer with this entry for each requested key. -/
def answerWith (topics : List OffsetFetchRequestTopic)
    (entry : TopicPartition → OffsetFetchResponsePartition) : List OffsetFetchResponseTopic :=
  topics.map fun topic =>
    ⟨topic.name, topic.partitionIndexes.map fun partition => entry ⟨topic.name, partition⟩⟩

def offsetFetchPartition (partition : Int) (committed : Option CommittedOffset) (errorCode : Int) :
    OffsetFetchResponsePartition where
  partitionIndex := partition
  committedOffset := committed.elim (-1) (·.offset)
  metadata := committed.bind (·.metadata)
  errorCode := errorCode

def offsetFetchGlobalError (topics : Option (List OffsetFetchRequestTopic)) (error : ResponseError) :
    OffsetFetchResponse where
  errorCode := error.code
  topics := answerWith (topics.getD []) fun key => offsetFetchPartition key.partition none 0

/-! ## The handler -/

/-- `GroupCoordinator::validate_topic_partition`. -/
def validateTopicPartition (key : TopicPartition) : Except CoordinatorError Unit :=
  (do
    validateComponent key.topic .topic
    validatePartition key.partition).mapError .storage

/-- What is wrong with a requested key. -/
def keyError (key : TopicPartition) : Prog Ask Ask.Reply (Option Int) := do
  match validateTopicPartition key with
  | .ok () => return lookupError (← Prog.perform (.topicExists key))
  | .error error => return some error.responseError.code

/-- The loop over the requested keys, with the selection and the local errors so far. -/
def selectKeys : List TopicPartition → ExtTreeSet TopicPartition compare → LocalErrors →
    Prog Ask Ask.Reply (ExtTreeSet TopicPartition compare × LocalErrors)
  | [], selection, localErrors => return (selection, localErrors)
  | key :: keys, selection, localErrors => do
    match ← keyError key with
    | none => selectKeys keys (selection.insert key) localErrors
    | some errorCode => selectKeys keys selection (localErrors.insert key errorCode)

abbrev ByTopic := ExtTreeMap String (List OffsetFetchResponsePartition) compare

/-- `by_topic.entry(topic).or_default().push(entry)`. -/
def ByTopic.push (byTopic : ByTopic) (topic : String) (entry : OffsetFetchResponsePartition) :
    ByTopic := byTopic.alter topic fun entries => some (entries.getD [] ++ [entry])

/-- The loop over all positions of a group, with the entries so far; it panics on an absence. -/
def groupByTopic : List FetchedOffset → ByTopic → Except String ByTopic
  | [], byTopic => .ok byTopic
  | offset :: fetched, byTopic => do
    let committed ← okOr offset.committed "all-offset fetches only return committed entries"
    groupByTopic fetched (byTopic.push offset.topicPartition.topic
      (offsetFetchPartition offset.topicPartition.partition (some committed) 0))

/-- `fetched.into_iter().map(..).collect::<BTreeMap<_, _>>()`. -/
def committedByKey (fetched : List FetchedOffset) :
    ExtTreeMap TopicPartition (Option CommittedOffset) compare :=
  fetched.foldl (fun m offset => m.insert offset.topicPartition offset.committed) ∅

/-- The answer to OffsetFetch, or the text of a panic. -/
def offsetFetchResponse (request : OffsetFetchRequest) :
    Prog Ask Ask.Reply (Except String OffsetFetchResponse) := do
  match (validateComponent request.groupId .group).mapError CoordinatorError.storage with
  | .error error => return .ok (offsetFetchGlobalError request.topics error.responseError)
  | .ok () =>
    match request.topics with
    | none => do
      match ← Prog.perform (Ask.fetch request.groupId none) with
      | .ok fetched => return (groupByTopic fetched ∅).map fun byTopic =>
        ⟨0, byTopic.toList.map fun p => ⟨p.1, p.2⟩⟩
      | .error error => return .ok (offsetFetchGlobalError none error.responseError)
    | some topics => do
      let (selection, localErrors) ← selectKeys (keysOf topics) ∅ ∅
      match ← Prog.perform (Ask.fetch request.groupId (some selection.toList)) with
      | .error error => return .ok (offsetFetchGlobalError (some topics) error.responseError)
      | .ok fetched => return .ok ⟨0, answerWith topics fun key =>
        offsetFetchPartition key.partition ((committedByKey fetched)[key]?.join)
          (localErrors[key]?.getD 0)⟩

/-! ## The selected positions -/

theorem mem_keysOf {topics : List OffsetFetchRequestTopic} {key : TopicPartition} :
    key ∈ keysOf topics ↔
      ∃ topic ∈ topics, topic.name = key.topic ∧ key.partition ∈ topic.partitionIndexes := by
  simp only [keysOf, List.mem_flatMap, List.mem_map]
  constructor
  · rintro ⟨topic, htopic, partition, hpartition, rfl⟩
    exact ⟨topic, htopic, rfl, hpartition⟩
  · rintro ⟨topic, htopic, hname, hpartition⟩
    exact ⟨topic, htopic, key.partition, hpartition, by rw [hname]⟩

theorem answerWith_congr {topics : List OffsetFetchRequestTopic}
    {entry entry' : TopicPartition → OffsetFetchResponsePartition}
    (h : ∀ key ∈ keysOf topics, entry key = entry' key) :
    answerWith topics entry = answerWith topics entry' := by
  refine List.map_congr_left fun topic htopic => ?_
  refine congrArg _ (List.map_congr_left fun partition hpartition => ?_)
  exact h _ (mem_keysOf.mpr ⟨topic, htopic, rfl, hpartition⟩)

theorem committedByKey_select {selection : List TopicPartition} {offsets : Offsets}
    {key : TopicPartition} : (committedByKey (GroupStore.select (some selection) offsets))[key]? =
      if key ∈ selection then some offsets[key]? else none := by
  suffices ∀ m : ExtTreeMap TopicPartition (Option CommittedOffset) compare,
      ((GroupStore.select (some selection) offsets).foldl
        (fun m offset => m.insert offset.topicPartition offset.committed) m)[key]? =
      if key ∈ selection then some offsets[key]? else m[key]? by
    simpa [committedByKey] using this ∅
  induction selection with
  | nil => simp [GroupStore.select]
  | cons first selection ih =>
    intro m
    have hstep := ih (m.insert first offsets[first]?)
    simp only [GroupStore.select, List.map_cons, List.foldl_cons] at hstep ⊢
    rw [hstep, ExtTreeMap.getElem?_insert_ite]
    by_cases hmem : key ∈ selection
    · simp [hmem]
    · by_cases heq : key = first
      · subst heq
        simp
      · simp [hmem, heq]

/-! ## All positions -/

/-- The entry of one position. -/
def positionEntry (p : TopicPartition × CommittedOffset) : OffsetFetchResponsePartition :=
  offsetFetchPartition p.1.partition (some p.2) 0

/-- The loop over all positions collects those of each topic, in their order, and does not panic. -/
theorem groupByTopic_ok {entries : List (TopicPartition × CommittedOffset)} {byTopic : ByTopic} :
    ∃ byTopic', groupByTopic (entries.map fun p => ⟨p.1, some p.2⟩) byTopic = .ok byTopic' ∧
      ∀ topic, byTopic'[topic]? = if ∃ p ∈ entries, p.1.topic = topic
        then some (byTopic[topic]?.getD [] ++
          (entries.filter fun p => p.1.topic = topic).map positionEntry)
        else byTopic[topic]? := by
  induction entries generalizing byTopic with
  | nil => exact ⟨byTopic, rfl, fun topic => by simp⟩
  | cons p entries ih =>
    obtain ⟨byTopic', hgroup, hlookup⟩ := @ih (byTopic.push p.1.topic (positionEntry p))
    refine ⟨byTopic', hgroup, fun topic => ?_⟩
    rw [hlookup, ByTopic.push, ExtTreeMap.getElem?_alter]
    by_cases heq : p.1.topic = topic
    · subst heq
      simp
    · have hiff : (∃ q ∈ p :: entries, q.1.topic = topic) ↔ ∃ q ∈ entries, q.1.topic = topic := by
        simp [heq]
      have hcompare : compare p.1.topic topic ≠ .eq := fun h =>
        heq (Std.LawfulEqOrd.eq_of_compare h)
      simp only [heq, hiff, hcompare, if_false, decide_false, List.filter_cons, Bool.false_eq_true]

/-- The entries are all positions, by topic and partition. -/
structure Lists (p : Positions) (entries : List OffsetFetchResponseTopic) : Prop where
  sorted : entries.Pairwise fun a b => compare a.name b.name = .lt
  partitions : ∀ topic ∈ entries, topic.partitions ≠ [] ∧
    topic.partitions.Pairwise fun a b => a.partitionIndex < b.partitionIndex
  exact : ∀ name entry, (∃ topic ∈ entries, topic.name = name ∧ entry ∈ topic.partitions) ↔
    ∃ position, p ⟨name, entry.partitionIndex⟩ = some position ∧
      entry = offsetFetchPartition entry.partitionIndex (some position) 0

/-- Within a topic the positions of a map come in the order of their partitions. -/
theorem partitions_sorted {offsets : Offsets} {topic : String} :
    ((offsets.toList.filter fun p => p.1.topic = topic).map positionEntry).Pairwise
      fun a b => a.partitionIndex < b.partitionIndex := by
  rw [List.pairwise_map]
  refine List.Pairwise.imp_of_mem ?_ (ExtTreeMap.ordered_keys_toList.filter _)
  intro a b ha hb hlt
  have hta : a.1.topic = topic := of_decide_eq_true (List.mem_filter.mp ha).2
  have htb : b.1.topic = topic := of_decide_eq_true (List.mem_filter.mp hb).2
  have hlex : compareLex (compareOn TopicPartition.topic) (compareOn TopicPartition.partition)
    a.1 b.1 = .lt := hlt
  simp only [compareLex, compareOn, hta, htb, Std.ReflOrd.compare_self, Ordering.eq_then] at hlex
  exact compare_lt_iff_lt.mp hlex

theorem groupByTopic_lists {offsets : Offsets} : ∃ byTopic,
    groupByTopic (GroupStore.select none offsets) ∅ = .ok byTopic ∧
      Lists offsets.positions (byTopic.toList.map fun q => ⟨q.1, q.2⟩) := by
  obtain ⟨byTopic, hgroup, hlookup⟩ := @groupByTopic_ok offsets.toList ∅
  -- a topic is in the map when it has a position, with all its entries
  have hfound : ∀ name partitions, (name, partitions) ∈ byTopic.toList ↔ partitions ≠ [] ∧
      partitions = (offsets.toList.filter fun p => p.1.topic = name).map positionEntry := by
    intro name partitions
    rw [ExtTreeMap.mem_toList_iff_getElem?_eq_some, hlookup]
    by_cases hsome : ∃ p ∈ offsets.toList, p.1.topic = name
    · obtain ⟨p, hp, htopic⟩ := hsome
      have hmem : p ∈ offsets.toList.filter fun p => p.1.topic = name :=
        List.mem_filter.mpr ⟨hp, by simpa using htopic⟩
      rw [if_pos ⟨p, hp, htopic⟩]
      simp only [ExtTreeMap.getElem?_empty, Option.getD_none, List.nil_append, Option.some.injEq]
      refine ⟨fun heq => ⟨?_, heq.symm⟩, fun h => h.2.symm⟩
      rintro rfl
      rw [List.map_eq_nil_iff] at heq
      rw [heq] at hmem
      cases hmem
    · have hnone : (offsets.toList.filter fun p => p.1.topic = name) = [] := by
        rw [List.filter_eq_nil_iff]
        intro p hp htopic
        exact hsome ⟨p, hp, by simpa using htopic⟩
      rw [if_neg hsome, hnone]
      simp
  refine ⟨byTopic, hgroup, ?_, ?_, ?_⟩
  -- the topics come in the order of the map
  · rw [List.pairwise_map]
    exact ExtTreeMap.ordered_keys_toList
  -- no topic is listed without a partition
  · rintro _ htopic
    obtain ⟨⟨name, partitions⟩, hmem, rfl⟩ := List.mem_map.mp htopic
    obtain ⟨hne, rfl⟩ := (hfound _ _).mp hmem
    exact ⟨hne, partitions_sorted⟩
  -- an entry stands for a position, and a position has its entry
  · intro name entry
    constructor
    · rintro ⟨_, htopic, rfl, hentry⟩
      obtain ⟨⟨name, partitions⟩, hmem, rfl⟩ := List.mem_map.mp htopic
      obtain ⟨-, rfl⟩ := (hfound _ _).mp hmem
      obtain ⟨⟨⟨topic, partition⟩, position⟩, hp, rfl⟩ := List.mem_map.mp hentry
      obtain ⟨hlisted, htopic⟩ := List.mem_filter.mp hp
      obtain rfl : topic = name := of_decide_eq_true htopic
      exact ⟨position, ExtTreeMap.mem_toList_iff_getElem?_eq_some.mp hlisted, rfl⟩
    · rintro ⟨position, hposition, hentry⟩
      have hp : (⟨⟨name, entry.partitionIndex⟩, position⟩ : TopicPartition × CommittedOffset) ∈
          offsets.toList.filter fun p => p.1.topic = name :=
        List.mem_filter.mpr ⟨ExtTreeMap.mem_toList_iff_getElem?_eq_some.mpr hposition, by simp⟩
      have hmem := List.mem_map_of_mem (f := positionEntry) hp
      refine ⟨⟨name, _⟩, List.mem_map_of_mem ((hfound name _).mpr ⟨List.ne_nil_of_mem hmem, rfl⟩),
        rfl, ?_⟩
      rw [hentry]
      exact hmem

/-! ## Answers -/

theorem validateSelectionFrom_ok {selection keys : List TopicPartition} (hnodup : selection.Nodup)
    (hnew : ∀ key ∈ selection, key ∉ keys)
    (hvalid : ∀ key ∈ selection, validateTopicPartition key = .ok ()) :
    validateSelectionFrom selection keys = .ok () := by
  induction selection generalizing keys with
  | nil => rfl
  | cons first selection ih =>
    obtain ⟨hfirst, hrest⟩ := List.nodup_cons.mp hnodup
    have hkey := hvalid first (by simp)
    simp only [validateTopicPartition, mapError_eq_ok, bind_eq_ok] at hkey
    obtain ⟨_, htopic, hpartition⟩ := hkey
    simp only [validateSelectionFrom, htopic, hpartition, bind_eq_ok, rejectIf_eq_ok]
    refine ⟨(), trivial, (), trivial, (), hnew first (by simp), ih hrest (fun key hkey hmem => ?_)
      fun key hkey => hvalid key (by simp [hkey])⟩
    rcases List.mem_cons.mp hmem with rfl | hmem
    · exact hfirst hkey
    · exact hnew key (by simp [hkey]) hmem

namespace Broker

variable {self : Broker} {Client : Type} {cl : Client} {s s' : BrokerState Client}

/-- What is wrong with a requested key. -/
def refusal (self : Broker) (topics : Bucket Client Body) (key : TopicPartition) : Option Int :=
  match validateTopicPartition key with
  | .ok () => self.missing topics key
  | .error error => some error.responseError.code

theorem keyError_runs {key : TopicPartition} {asks : List Ask} {r : Option Int}
    (h : Runs (self.Replies cl) s (keyError key) asks r s') :
    s' = s ∧ r = self.refusal s.topics key := by
  unfold keyError at h
  unfold refusal
  split at h
  · cases h with
    | @call _ s₁ _ _ _ _ _ _ hexec hrest =>
      cases hrest
      obtain ⟨hgroups, cs, hruns⟩ := hexec
      obtain ⟨htopics, rfl⟩ := hruns.eq_eval PartitionLog.topicExists_reads
      exact ⟨BrokerState.ext htopics hgroups, rfl⟩
  · cases h
    exact ⟨rfl, rfl⟩

/-- The loop over the requested keys selects those that nothing is wrong with, and changes nothing. -/
theorem selectKeys_runs {keys : List TopicPartition} {selection : ExtTreeSet TopicPartition compare}
    {errors : LocalErrors} {asks : List Ask}
    {result : ExtTreeSet TopicPartition compare × LocalErrors}
    (h : Runs (self.Replies cl) s (selectKeys keys selection errors) asks result s') :
    s' = s ∧
      (∀ key, key ∈ result.1 ↔ key ∈ selection ∨ key ∈ keys ∧ self.refusal s.topics key = none) ∧
      ∀ key, result.2[key]? = if key ∈ keys then (self.refusal s.topics key).or errors[key]?
        else errors[key]? := by
  -- each key is selected or refused, and a refusal is the same wherever the key comes again
  induction keys generalizing selection errors s asks with
  | nil =>
    cases h
    simp
  | cons first keys ih =>
    unfold selectKeys at h
    obtain ⟨_, _, r, s₁, -, hfirst, hrest⟩ := runs_bind h
    obtain ⟨heq, rfl⟩ := keyError_runs hfirst
    obtain rfl : s = s₁ := heq.symm
    -- nothing is wrong with the key: it is added to the selection
    cases hrefusal : self.refusal s.topics first with
    | none =>
      rw [hrefusal] at hrest
      obtain ⟨rfl, hselection, herrors⟩ := ih hrest
      refine ⟨rfl, fun key => ?_, fun key => ?_⟩
      · rw [hselection, ExtTreeSet.mem_insert]
        by_cases heq : key = first
        · subst heq
          simp [hrefusal]
        · simp [heq, Ne.symm heq]
      · rw [herrors]
        by_cases heq : key = first
        · subst heq
          simp [hrefusal]
        · simp [heq]
    -- the key is refused: only the errors grow
    | some code =>
      rw [hrefusal] at hrest
      obtain ⟨rfl, hselection, herrors⟩ := ih hrest
      refine ⟨rfl, fun key => ?_, fun key => ?_⟩
      · rw [hselection]
        by_cases heq : key = first
        · subst heq
          simp [hrefusal]
        · simp [heq]
      · rw [herrors, ExtTreeMap.getElem?_insert_ite]
        by_cases heq : key = first
        · subst heq
          simp [hrefusal]
        · simp [heq]

/-- The entry for a requested key, in a group with these positions. -/
def entryFor (self : Broker) (topics : Bucket Client Body) (p : Positions) (key : TopicPartition) :
    OffsetFetchResponsePartition :=
  match self.refusal topics key with
  | none => offsetFetchPartition key.partition (p key) 0
  | some code => offsetFetchPartition key.partition none code

/-- The distinct keys among these that nothing is wrong with. -/
def selected (self : Broker) (topics : Bucket Client Body) (keys : List TopicPartition) :
    List TopicPartition :=
  (keys.filter fun key => (self.refusal topics key).isNone).dedup

/-- The answers to OffsetFetch. -/
inductive Fetches (self : Broker) (request : OffsetFetchRequest) (s : BrokerState Client) :
    OffsetFetchResponse → Prop where
  /-- An error of the whole request: the group is not valid, too many keys are selected, or the
  offsets cannot be read. -/
  | failed (error : ResponseError)
      (why : validateComponent request.groupId .group ≠ .ok () ∨
        maxGroupOffsets < (self.selected s.topics (keysOf (request.topics.getD []))).length ∨
          ∀ p, ¬ Holds self.json (self.offsetObject request.groupId s) p) :
      Fetches self request s (offsetFetchGlobalError request.topics error)
  /-- One entry for each requested key, in the order of the request. -/
  | selected (topics : List OffsetFetchRequestTopic) (p : Positions)
      (requested : request.topics = some topics)
      (holds : Holds self.json (self.offsetObject request.groupId s) p) :
      Fetches self request s ⟨0, answerWith topics (self.entryFor s.topics p)⟩
  /-- All positions of the group. -/
  | listed (entries : List OffsetFetchResponseTopic) (p : Positions)
      (requested : request.topics = none)
      (holds : Holds self.json (self.offsetObject request.groupId s) p) (lists : Lists p entries) :
      Fetches self request s ⟨0, entries⟩

/-- A selection of requested keys passes its checks, unless there are too many. -/
theorem validateSelection_ok {topics : Bucket Client Body} {keys : List TopicPartition}
    {selection : ExtTreeSet TopicPartition compare}
    (hselection : ∀ key, key ∈ selection ↔ key ∈ keys ∧ self.refusal topics key = none)
    (hlength : (self.selected topics keys).length ≤ maxGroupOffsets) :
    validateSelection selection.toList = .ok () := by
  have hnodup : selection.toList.Nodup := selection.distinct_toList.imp fun h heq => h (by simp [heq])
  have hsubset : selection.toList ⊆ self.selected topics keys := by
    intro key hkey
    obtain ⟨hmem, hrefusal⟩ := (hselection key).mp (ExtTreeSet.mem_toList.mp hkey)
    exact List.mem_dedup.mpr (List.mem_filter.mpr ⟨hmem, by rw [hrefusal]; rfl⟩)
  have hle := (List.subperm_of_subset hnodup hsubset).length_le
  simp only [validateSelection, bind_eq_ok, rejectIf_eq_ok]
  refine ⟨(), not_lt.mpr (hle.trans hlength), validateSelectionFrom_ok hnodup (by simp) ?_⟩
  intro key hkey
  obtain ⟨-, hrefusal⟩ := (hselection key).mp (ExtTreeSet.mem_toList.mp hkey)
  unfold refusal at hrefusal
  split at hrefusal
  · assumption
  · cases hrefusal

/-- What the coordinator answers to a fetch. -/
theorem fetch_replies {group : String} {selection : Option (List TopicPartition)}
    {r : Except CoordinatorError (List FetchedOffset)}
    (h : self.Replies cl (.fetch group selection) s r s') : s' = s ∧
      ((∃ e, r = .error e ∧ (validateComponent group .group ≠ .ok () ∨
        selection.elim (.ok ()) validateSelection ≠ .ok () ∨
          ∀ p, ¬ Holds self.json (self.offsetObject group s) p)) ∨
      ∃ offsets : Offsets, Holds self.json (self.offsetObject group s) offsets.positions ∧
        r = .ok (GroupStore.select selection offsets)) := by
  obtain ⟨htopics, content, cs, result, hgroups, rfl, hruns⟩ := h
  obtain ⟨hok, herror⟩ := GroupStore.fetch_alone cs result content hruns
  cases result with
  | ok fetched =>
    obtain ⟨rfl, offsets, hholds, rfl⟩ := hok fetched rfl
    exact ⟨BrokerState.ext htopics hgroups, .inr ⟨offsets, hholds, rfl⟩⟩
  | error e =>
    obtain ⟨rfl, hwhy⟩ := herror e rfl
    exact ⟨BrokerState.ext htopics hgroups, .inl ⟨_, rfl, hwhy⟩⟩

/-- **Answers to OffsetFetch are exact**, whatever is requested, and whatever the topics and the
offsets of the group are. -/
theorem offsetFetchResponse_exact {request : OffsetFetchRequest} {asks : List Ask}
    {result : Except String OffsetFetchResponse}
    (h : Runs (self.Replies cl) s (offsetFetchResponse request) asks result s') :
    s' = s ∧ ∃ response, result = .ok response ∧ self.Fetches request s response := by
  unfold offsetFetchResponse at h
  -- the group is checked first
  cases hgroup : validateComponent request.groupId .group with
  | error e =>
    simp only [hgroup, Except.mapError] at h
    cases h
    exact ⟨rfl, _, rfl, .failed _ (.inl (by simp [hgroup]))⟩
  | ok u =>
    simp only [hgroup, Except.mapError] at h
    cases htopics : request.topics with
    -- all positions of the group are asked for
    | none =>
      simp only [htopics] at h
      cases h with
      | @call _ s₁ _ _ _ r _ _ hexec hrest =>
        obtain ⟨heq, hfetched⟩ := fetch_replies hexec
        obtain rfl : s = s₁ := heq.symm
        -- the fetch fails, or the positions are listed topic by topic
        rcases hfetched with ⟨e, rfl, hwhy⟩ | ⟨offsets, hholds, rfl⟩
        · cases hrest
          refine ⟨rfl, _, rfl, htopics ▸ .failed e.responseError ?_⟩
          rcases hwhy with hinvalid | hinvalid | hnone
          · exact .inl hinvalid
          · exact absurd rfl hinvalid
          · exact .inr (.inr hnone)
        · obtain ⟨byTopic, hbyTopic, hlists⟩ := @groupByTopic_lists offsets
          cases hrest
          exact ⟨rfl, _, by rw [hbyTopic]; rfl, .listed _ _ htopics hholds hlists⟩
    -- certain keys are asked for, and those that nothing is wrong with are selected
    | some topics =>
      simp only [htopics] at h
      obtain ⟨_, _, ⟨selection, errors⟩, s₁, -, hselect, hfetch⟩ := runs_bind h
      obtain ⟨heq, hselection, herrors⟩ := selectKeys_runs hselect
      obtain rfl : s = s₁ := heq.symm
      simp only [ExtTreeSet.not_mem_empty, false_or, ExtTreeMap.getElem?_empty, Option.or_none]
        at hselection herrors
      cases hfetch with
      | @call _ s₂ _ _ _ r _ _ hexec hrest =>
        obtain ⟨heq, hfetched⟩ := fetch_replies hexec
        obtain rfl : s = s₂ := heq.symm
        rcases hfetched with ⟨e, rfl, hwhy⟩ | ⟨offsets, hholds, rfl⟩
        · cases hrest
          refine ⟨rfl, _, rfl, htopics ▸ .failed e.responseError ?_⟩
          -- the selection has as many keys as the request has distinct valid ones
          rcases hwhy with hinvalid | hinvalid | hnone
          · exact .inl hinvalid
          · refine .inr (.inl (not_le.mp fun hle => hinvalid (validateSelection_ok hselection ?_)))
            simpa [htopics] using hle
          · exact .inr (.inr hnone)
        -- each entry is that of its own key, selected or not
        · cases hrest
          refine ⟨rfl, _, rfl, ?_⟩
          have hsame : answerWith topics (fun key => offsetFetchPartition key.partition
              ((committedByKey (GroupStore.select (some selection.toList) offsets))[key]?.join)
              (errors[key]?.getD 0)) = answerWith topics (self.entryFor s.topics offsets.positions) := by
            refine answerWith_congr fun key hkey => ?_
            have hmem : key ∈ selection.toList ↔ self.refusal s.topics key = none := by
              simp [ExtTreeSet.mem_toList, hselection, hkey]
            rw [committedByKey_select, herrors, if_pos hkey, entryFor]
            cases hrefusal : self.refusal s.topics key with
            | none =>
              rw [if_pos (hmem.mpr hrefusal)]
              rfl
            | some code =>
              rw [if_neg fun hkey => by simp [hmem.mp hkey] at hrefusal]
              rfl
          rw [hsame]
          exact .selected topics _ htopics hholds

end Broker

/-- The positions of the first group. -/
def Reference.firstFetch : OffsetFetchRequest := ⟨"g", some [⟨"t", [0, 7]⟩]⟩

/-- Partition 7 is not there, and partition 0 has no position. -/
theorem Reference.offsetFetchResponse_exact_first : ∃ response : OffsetFetchResponse,
    response.topics = [⟨"t", [⟨0, -1, none, 0⟩, ⟨7, -1, none, 3⟩]⟩] ∧
      firstBroker.Fetches firstFetch firstState response := by
  have hsolo : ((offsetFetchResponse firstFetch).solo (firstBroker.answer () "new" 0)
      firstState).any (fun q => q.2.1.toOption.any fun response =>
        decide (response.topics = [⟨"t", [⟨0, -1, none, 0⟩, ⟨7, -1, none, 3⟩]⟩])) = true := by
    decide +kernel
  obtain ⟨⟨asks, result, s'⟩, hrun, hresult⟩ := (Option.any_eq_true _ _).mp hsolo
  obtain ⟨-, response, rfl, hfetches⟩ := Broker.offsetFetchResponse_exact (Broker.solo_runs hrun)
  exact ⟨response, of_decide_eq_true hresult, hfetches⟩

namespace Broker

variable {self : Broker} {Client : Type} {cl : Client} {s s' : BrokerState Client}

/-! ## After a commit -/

/-- What a group holds has a valid topic and partition. -/
theorem validateTopicPartition_of_holds {content : Option Document} {p : Positions}
    {key : TopicPartition} {position : CommittedOffset} (h : Holds self.json content p)
    (hkey : p key = some position) : validateTopicPartition key = .ok () := by
  obtain ⟨m, offsets, -, hmap, rfl⟩ := h
  have hacceptable := m.acceptable hmap hkey
  simp only [Acceptable, validatePosition, bind_eq_ok] at hacceptable
  obtain ⟨_, htopic, _, hpartition, -⟩ := hacceptable
  simp only [validateTopicPartition, mapError_eq_ok, bind_eq_ok]
  exact ⟨_, htopic, hpartition⟩

/-- The answer has an entry for the key of this commit. -/
def Covers (request : OffsetFetchRequest) (commit : OffsetCommit) : Prop :=
  ∀ topics, request.topics = some topics → commit.key ∈ keysOf topics

/-- **What is acknowledged is found**: after an answer to OffsetCommit, an OffsetFetch for the group
answers, for every key with code 0 that it covers, the offset and the metadata of the commit, unless
the positions of the group were changed or its topics removed in between. -/
theorem offsetFetch_after_offsetCommit {cl' : Client} {s₁ s'' : BrokerState Client}
    {request : OffsetCommitRequest} {request' : OffsetFetchRequest} {asks asks' : List Ask}
    {response : OffsetCommitResponse} {result : Except String OffsetFetchResponse}
    (hcommit : Runs (self.Replies cl) s (offsetCommitResponse request) asks response s')
    (hfetch : Runs (self.Replies cl') s₁ (offsetFetchResponse request') asks' result s'')
    (hgroup : request'.groupId = request.groupId)
    (hkept : self.offsetObject request.groupId s₁ = self.offsetObject request.groupId s')
    (htopics : ∀ key, self.missing s'.topics key = none → self.missing s₁.topics key = none)
    (hlength : (self.selected s₁.topics (keysOf (request'.topics.getD []))).length ≤ maxGroupOffsets) :
    ∃ errorCode response', response = request.respond errorCode ∧ result = .ok response' ∧
      ∀ commit ∈ request.commits, errorCode commit.key = 0 → Covers request' commit →
        response'.errorCode = 0 ∧ ∃ topic ∈ response'.topics, topic.name = commit.topic ∧
          ⟨commit.partition, commit.offset, commit.metadata, 0⟩ ∈ topic.partitions := by
  -- the acknowledged positions are in the object, and the fetch finds them there
  obtain ⟨errorCode, htruthful⟩ := offsetCommitResponse_truthful hcommit
  obtain ⟨rfl, response', rfl, hfetches⟩ := offsetFetchResponse_exact hfetch
  refine ⟨errorCode, response', htruthful.entries, rfl, fun commit hmem hzero hcovers => ?_⟩
  obtain ⟨hvalid, hthere, -, p', hp', hposition⟩ := htruthful.stored commit hmem hzero
  rw [← hkept, ← hgroup] at hp'
  rw [← hgroup] at hvalid
  -- the topic was there for the commit, so that the key is not refused now
  have hrefusal : self.refusal s''.topics commit.key = none := by
    rw [refusal, validateTopicPartition_of_holds hp' hposition]
    exact htopics _ (htruthful.others.1 ▸ hthere)
  -- the fetch has no reason to fail
  cases hfetches with
  | failed error why =>
    rcases why with hinvalid | hmany | hnone
    · exact absurd hvalid hinvalid
    · exact absurd hlength (not_le.mpr hmany)
    · exact absurd hp' (hnone p')
  -- the entry of the key says what is held
  | selected topics p requested holds =>
    obtain rfl := holds.unique hp'
    obtain ⟨topic, htopic, hname, hpartition⟩ := mem_keysOf.mp (hcovers topics requested)
    refine ⟨rfl, _, List.mem_map_of_mem htopic, hname, List.mem_map.mpr ⟨_, hpartition, ?_⟩⟩
    rw [entryFor, hname, show (⟨commit.key.topic, commit.key.partition⟩ : TopicPartition) = commit.key
      from rfl, hrefusal, hposition]
    rfl
  -- every position is listed, that of the commit as well
  | listed entries p requested holds lists =>
    obtain rfl := holds.unique hp'
    obtain ⟨topic, htopic, hname, hentry⟩ := (lists.exact commit.topic
      ⟨commit.partition, commit.offset, commit.metadata, 0⟩).mpr ⟨commit.position, hposition, rfl⟩
    exact ⟨rfl, topic, htopic, hname, hentry⟩

end Broker

/-- The first position is committed, and all positions are fetched. -/
theorem Reference.offsetFetch_after_offsetCommit_first :
    ∃ (errorCode : TopicPartition → Int) (response' : OffsetFetchResponse),
      firstResponse = firstRequest.respond errorCode ∧
      response'.topics = [⟨"t", [⟨0, 5, none, 0⟩]⟩] ∧
      ∀ commit ∈ firstRequest.commits, errorCode commit.key = 0 → Broker.Covers ⟨"g", none⟩ commit →
        response'.errorCode = 0 ∧ ∃ topic ∈ response'.topics, topic.name = commit.topic ∧
          ⟨commit.partition, commit.offset, commit.metadata, 0⟩ ∈ topic.partitions := by
  have hsolo : ((offsetCommitResponse firstRequest).solo (firstBroker.answer () "new" 16)
      firstState).any (fun q => decide (q.2.1 = firstResponse) &&
        ((offsetFetchResponse ⟨"g", none⟩).solo (firstBroker.answer () "new" 0) q.2.2).any fun q' =>
          q'.2.1.toOption.any fun response =>
            decide (response.topics = [⟨"t", [⟨0, 5, none, 0⟩]⟩])) = true := by
    decide +kernel
  obtain ⟨⟨asks, response, s'⟩, hcommit, hsecond⟩ := (Option.any_eq_true _ _).mp hsolo
  obtain ⟨hresponse, hsecond⟩ := (Bool.and_eq_true _ _).mp hsecond
  obtain ⟨⟨asks', result, s''⟩, hfetch, hresult⟩ := (Option.any_eq_true _ _).mp hsecond
  obtain rfl : response = firstResponse := of_decide_eq_true hresponse
  obtain ⟨errorCode, response', hentries, rfl, hfound⟩ :=
    Broker.offsetFetch_after_offsetCommit (Broker.solo_runs hcommit) (Broker.solo_runs hfetch) rfl
      rfl (fun _ h => h) (Nat.zero_le _)
  exact ⟨errorCode, response', hentries, of_decide_eq_true hresult, hfound⟩

end Walstream.Group
