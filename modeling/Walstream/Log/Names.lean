import Walstream.Log.Records
import Mathlib.Data.List.Basic

/-!
# The names of a partition's objects

Different objects have different names: the names made from different UUIDs, the three
kinds of names made from one UUID, the manifests of the partitions and the metadata.
-/

namespace Walstream.Log

open Interaction

/-! ## Strings -/

theorem stripStart_append (a b : String) : stripStart (a ++ b) a = some b := by
  have h : startsWith (a ++ b) a := by
    unfold startsWith
    rw [String.toList_append]
    exact List.prefix_append _ _
  simp [stripStart, h]

theorem stripEnd_append (a b : String) : stripEnd (a ++ b) b = some a := by
  have h : endsWith (a ++ b) b := by
    unfold endsWith
    rw [String.toList_append]
    exact List.suffix_append _ _
  simp [stripEnd, h]

theorem stripStart_eq_some {s start rest : String} (h : stripStart s start = some rest) :
    s = start ++ rest := by
  unfold stripStart at h
  split at h
  · rename_i hstart
    obtain ⟨t, ht⟩ := hstart
    cases h
    apply String.toList_inj.mp
    rw [String.toList_append, String.toList_ofList, ← ht, List.drop_left]
  · cases h

theorem stripEnd_eq_some {s tail rest : String} (h : stripEnd s tail = some rest) :
    s = rest ++ tail := by
  unfold stripEnd at h
  split at h
  · rename_i hend
    obtain ⟨t, ht⟩ := hend
    cases h
    apply String.toList_inj.mp
    rw [String.toList_append, String.toList_ofList, ← ht, List.length_append,
      Nat.add_sub_cancel, List.take_left]
  · cases h

theorem slash_notMem_toString (p : Int) : '/' ∉ (toString p).toList := by
  have hdigits : ∀ n : Nat, '/' ∉ n.repr.toList := fun n hmem => by
    rw [Nat.toList_repr] at hmem
    have := Nat.isDigit_of_mem_toDigits (by decide) (by decide) hmem
    simp at this
  cases p with
  | ofNat n => exact hdigits n
  | negSucc n =>
    have h : toString (Int.negSucc n) = "-" ++ (n + 1).repr := rfl
    rw [h, String.toList_append]
    simpa using hdigits (n + 1)

theorem toString_natCast_inj {m n : Nat} (h : toString (m : Int) = toString (n : Int)) :
    m = n := by
  have hlist : m.repr.toList = n.repr.toList := congrArg String.toList h
  rw [Nat.toList_repr, Nat.toList_repr] at hlist
  simpa using congrArg (Nat.ofDigitChars 10 · 0) hlist

/-- What stands before the first slash, and what stands after it. -/
private theorem split_at_slash {xs ys as bs : List Char} (hx : '/' ∉ xs) (hy : '/' ∉ ys)
    (h : xs ++ '/' :: as = ys ++ '/' :: bs) : xs = ys ∧ as = bs := by
  induction xs generalizing ys with
  | nil =>
    cases ys with
    | nil => exact ⟨rfl, List.tail_eq_of_cons_eq h⟩
    | cons y ys => exact absurd (List.head_eq_of_cons_eq h ▸ List.mem_cons_self) hy
  | cons x xs ih =>
    cases ys with
    | nil => exact absurd (List.head_eq_of_cons_eq h ▸ List.mem_cons_self) hx
    | cons y ys =>
      simp only [List.mem_cons, not_or] at hx hy
      simp only [List.cons_append, List.cons.injEq] at h
      obtain ⟨heq, htail⟩ := ih hx.2 hy.2 h.2
      exact ⟨by rw [h.1, heq], htail⟩

/-- The directory of a partition determines its number. -/
theorem partition_inj {p q : Int} (hp : 0 ≤ p) (hq : 0 ≤ q) {space topic a b : String}
    (h : partitionPath space topic p ++ a = partitionPath space topic q ++ b) :
    p = q ∧ a = b := by
  have hlist := congrArg String.toList h
  simp only [partitionPath, String.toList_append, List.append_assoc, List.append_cancel_left_eq]
    at hlist
  obtain ⟨heq, htail⟩ := split_at_slash (slash_notMem_toString p) (slash_notMem_toString q)
    (by simpa using hlist)
  refine ⟨?_, String.toList_inj.mp htail⟩
  lift p to Nat using hp
  lift q to Nat using hq
  exact congrArg _ (toString_natCast_inj (String.toList_inj.mp heq))

/-! ## Names made from UUIDs -/

namespace Crates

variable (crates : Crates)

theorem uuidToString_inj {id id' : Uuid} (h : crates.uuidToString id = crates.uuidToString id') :
    id = id' := by
  have := congrArg crates.uuidParseStr h
  simpa [crates.uuid_parse_toString] using this

theorem namesUuid_self (space suffix : String) (id : Uuid) :
    crates.namesUuid space suffix (space ++ crates.uuidToString id ++ suffix) = true := by
  simp [namesUuid, String.append_assoc, stripStart_append, stripEnd_append,
    crates.uuid_parse_toString]

end Crates

namespace PartitionLog

variable (self : PartitionLog)

/-- The names that the engine can make from one UUID. -/
def names (id : Uuid) : Set String :=
  {path | path = self.segmentPath id ∨ path = self.indexPath id ∨ path = self.producerPath id}

/-- The name is made from a UUID. -/
def Named (path : String) : Prop := ∃ id, path ∈ self.names id

theorem segmentPath_starts (id : Uuid) : startsWith (self.segmentPath id)
    (segmentsNamespace self.keyPrefix self.topic self.partition) := by
  simp only [startsWith, segmentPath, Crates.segmentPath, String.toList_append, List.append_assoc]
  exact List.prefix_append _ _

theorem segmentPath_ends (id : Uuid) : endsWith (self.segmentPath id) ".batch" := by
  simp only [endsWith, segmentPath, Crates.segmentPath, String.toList_append]
  exact List.suffix_append _ _

theorem segmentPath_mem (id : Uuid) : self.segmentPath id ∈ self.names id := .inl rfl
theorem indexPath_mem (id : Uuid) : self.indexPath id ∈ self.names id := .inr (.inl rfl)
theorem producerPath_mem (id : Uuid) : self.producerPath id ∈ self.names id := .inr (.inr rfl)

private theorem directory_cases {path : String} {id : Uuid} (h : path ∈ self.names id) :
    ∃ space suffix, path = partitionPath self.keyPrefix self.topic self.partition ++
        (space ++ (self.crates.uuidToString id ++ suffix)) ∧
      (space = "segments/" ∧ suffix = ".batch" ∨ space = "index/" ∧ suffix = ".json" ∨
        space = "producer-state/" ∧ suffix = ".json") := by
  rcases h with rfl | rfl | rfl
  · exact ⟨"segments/", ".batch", by
      simp [segmentPath, Crates.segmentPath, segmentsNamespace, String.append_assoc], by simp⟩
  · exact ⟨"index/", ".json", by
      simp [indexPath, Crates.indexPath, indexNamespace, String.append_assoc], by simp⟩
  · exact ⟨"producer-state/", ".json", by
      simp [producerPath, Crates.producerPath, producerNamespace, String.append_assoc], by simp⟩

/-- Names made from different UUIDs are different. -/
theorem names_disjoint {path : String} {id id' : Uuid} (h : path ∈ self.names id)
    (h' : path ∈ self.names id') : id = id' := by
  obtain ⟨space, suffix, hpath, hkind⟩ := self.directory_cases h
  obtain ⟨space', suffix', hpath', hkind'⟩ := self.directory_cases h'
  rw [hpath] at hpath'
  have htail := (String.append_right_inj _).mp hpath'
  have hlist := congrArg String.toList htail
  -- the first letter of the directory tells the kind of the name
  have hsame : space = space' ∧ suffix = suffix' := by
    rcases hkind with ⟨rfl, rfl⟩ | ⟨rfl, rfl⟩ | ⟨rfl, rfl⟩ <;>
      rcases hkind' with ⟨rfl, rfl⟩ | ⟨rfl, rfl⟩ | ⟨rfl, rfl⟩ <;> simp at hlist ⊢
  obtain ⟨rfl, rfl⟩ := hsame
  have hid := (String.append_right_inj _).mp htail
  exact self.crates.uuidToString_inj ((String.append_left_inj _).mp hid)

theorem segmentPath_ne_indexPath (id id' : Uuid) : self.segmentPath id ≠ self.indexPath id' := by
  intro h
  have hlist := congrArg String.toList h
  simp [segmentPath, Crates.segmentPath, segmentsNamespace, indexPath, Crates.indexPath,
    indexNamespace] at hlist

/-- The name is a UUID in one of the partition's directories for records, index pages and
producer pages. -/
def Filed (path : String) : Prop :=
  self.crates.namesUuid (segmentsNamespace self.keyPrefix self.topic self.partition) ".batch" path =
      true ∨
    self.crates.namesUuid (indexNamespace self.keyPrefix self.topic self.partition) ".json" path =
      true ∨
    self.crates.namesUuid (producerNamespace self.keyPrefix self.topic self.partition) ".json" path =
      true

theorem Named.filed {path : String} (h : self.Named path) : self.Filed path := by
  obtain ⟨id, rfl | rfl | rfl⟩ := h
  · exact .inl (self.crates.namesUuid_self _ _ id)
  · exact .inr (.inl (self.crates.namesUuid_self _ _ id))
  · exact .inr (.inr (self.crates.namesUuid_self _ _ id))

private theorem filed_cases {path : String} (h : self.Filed path) :
    ∃ space rest, path = partitionPath self.keyPrefix self.topic self.partition ++ (space ++ rest) ∧
      (space = "segments/" ∨ space = "index/" ∨ space = "producer-state/") := by
  have key : ∀ {space suffix : String}, self.crates.namesUuid space suffix path = true →
      ∃ rest, path = space ++ rest := by
    intro space suffix h
    unfold Crates.namesUuid at h
    cases hstrip : stripStart path space with
    | none => simp [hstrip] at h
    | some rest => exact ⟨rest, stripStart_eq_some hstrip⟩
  rcases h with h | h | h
  · obtain ⟨rest, hpath⟩ := key h
    exact ⟨_, rest, by rw [hpath, segmentsNamespace, String.append_assoc], .inl rfl⟩
  · obtain ⟨rest, hpath⟩ := key h
    exact ⟨_, rest, by rw [hpath, indexNamespace, String.append_assoc], .inr (.inl rfl)⟩
  · obtain ⟨rest, hpath⟩ := key h
    exact ⟨_, rest, by rw [hpath, producerNamespace, String.append_assoc], .inr (.inr rfl)⟩

/-- `Path::from` keeps the names that the engine makes. -/
theorem pathFrom_named (htopic : validateTopic self.topic = .ok ()) {path : String}
    (h : self.Named path) : self.crates.pathFrom path = path := by
  obtain ⟨id, rfl | rfl | rfl⟩ := h
  · exact self.crates.pathFrom_segment _ _ _ id self.engine.prefix_safe htopic
  · exact self.crates.pathFrom_index _ _ _ id self.engine.prefix_safe htopic
  · exact self.crates.pathFrom_producer _ _ _ id self.engine.prefix_safe htopic

/-- A manifest, of whatever partition, is not named by a UUID. -/
theorem manifestPath_not_filed (hp : 0 ≤ self.partition) {q : Int} (hq : 0 ≤ q) :
    ¬ self.Filed (self.engine.manifestPath self.topic q) := by
  intro h
  obtain ⟨space, rest, hpath, hspace⟩ := self.filed_cases h
  obtain ⟨-, htail⟩ := partition_inj hq hp hpath
  have hlist := congrArg String.toList htail
  rcases hspace with rfl | rfl | rfl <;> simp at hlist

/-- Nothing below a partition's directory is the topic metadata. -/
theorem topicMetadataPath_ne {space topic rest : String} {p : Int} (hp : 0 ≤ p) :
    partitionPath space topic p ++ rest ≠ space ++ "/topics/" ++ topic ++ "/metadata.json" := by
  intro h
  have hlist := congrArg String.toList h
  lift p to Nat using hp
  have hrepr : toString (p : Int) = p.repr := rfl
  simp only [partitionPath, String.toList_append, List.append_assoc, List.append_cancel_left_eq,
    hrepr, Nat.toList_repr] at hlist
  obtain ⟨c, digits, hdigits⟩ := List.exists_cons_of_ne_nil (Nat.toDigits_ne_nil (n := p) (b := 10))
  have hdigit : c.isDigit = true :=
    Nat.isDigit_of_mem_toDigits (b := 10) (n := p) (by decide) (by decide) (by simp [hdigits])
  rw [hdigits] at hlist
  simp at hlist
  rw [hlist.1] at hdigit
  simp at hdigit

theorem topicMetadataPath_not_filed (hp : 0 ≤ self.partition) :
    ¬ self.Filed self.topicMetadataPath := by
  intro h
  obtain ⟨space, rest, hpath, -⟩ := self.filed_cases h
  exact topicMetadataPath_ne hp hpath.symm

theorem manifestPath_ne_topicMetadataPath {q : Int} (hq : 0 ≤ q) :
    self.engine.manifestPath self.topic q ≠ self.topicMetadataPath := topicMetadataPath_ne hq

end PartitionLog

end Walstream.Log
