import Walstream.Interaction.Register
import Walstream.Log.Documents
import Walstream.Log.Records

/-!
# Producer ids

`allocate_producer_id` of `log/producer.rs`: one object per cluster counts the producer
ids, and an allocation raises it by a conditional write. The object is a register of
`Interaction.Register` whose rank is the next id.
-/

namespace Walstream.Log

open Interaction

/-- `Allocator`. -/
structure Allocator where
  schema : Nat
  nextId : Int
  deriving DecidableEq, Repr

/-- What the allocator uses of `serde_json`, which reads back what it writes. -/
structure AllocatorJson where
  /-- `serde_json::to_vec`. -/
  toVec : Allocator → Document
  /-- `serde_json::from_slice`. -/
  fromSlice : Document → Except String Allocator
  fromSlice_toVec : ∀ nextId, 0 ≤ nextId → nextId ≤ i64Max →
    fromSlice (toVec ⟨1, nextId⟩) = .ok ⟨1, nextId⟩

/-- `collect_bounded`, of a document. -/
def collectDocument (result : GetResult Document) (maximumBytes : Nat) :
    Except BoundedReadError Document :=
  match result.body with
  | .error e => .error (.store e)
  | .ok bytes => if bytes.length > maximumBytes then .error .tooLarge else .ok bytes

namespace LogEngine

variable (self : LogEngine) (json : AllocatorJson)

def producerIdsPath : String := self.keyPrefix ++ "/producer-ids.json"

/-- The next id that the object holds. -/
def acceptAllocator (result : GetResult Document) : Except LogError Int := do
  let bytes ← (collectDocument result maxTopicMetadataBytes).mapError fun
    | .store e => .objectStore e
    | .tooLarge => invalid "producer allocator exceeds byte limit"
  let state ← (json.fromSlice bytes).mapError invalid
  if state.schema ≠ 1 ∨ state.nextId < 0 then
    throw (invalid "invalid producer allocator")
  return state.nextId

/-- The id that an attempt takes, and the condition of its write. -/
def nextProducerId : ExceptT LogError (Prog (Cmd Document) Resp) (Int × PutMode Document) := do
  match ← request (.get self.producerIdsPath) with
  | .ok result =>
    let id ← ofResult (acceptAllocator json result)
    return (id, .update result.version)
  | .error .notFound => return (0, .create)
  | .error e => throw (.objectStore e)

/-- The loop of `allocate_producer_id` with `attempts` to go. -/
def allocateAttempts : (attempts : Nat) → ExceptT LogError (Prog (Cmd Document) Resp) Int
  | 0 => throw (.contentionExhausted maxCasAttempts)
  | attempts + 1 => do
    let (id, mode) ← self.nextProducerId json
    let nextId ← ofResult (okOr (checkedAddI64 id 1) .offsetOverflow)
    match ← request (.put self.producerIdsPath (json.toVec ⟨1, nextId⟩) mode) with
    | .ok _ => return id
    | .error .precondition | .error .alreadyExists => allocateAttempts attempts
    | .error e => throw (.objectStore e)

/-- `allocate_producer_id`. -/
def allocateProducerId : ExceptT LogError (Prog (Cmd Document) Resp) Int :=
  self.allocateAttempts json maxCasAttempts

/-! ## The allocator as a register -/

/-- The next id of a content; 0 where there is none. -/
def nextIdOf (content : Option Document) : Int :=
  match content with
  | none => 0
  | some bytes =>
    match json.fromSlice bytes with
    | .ok state => state.nextId
    | .error _ => 0

/-- An allocation raises the next id by one. -/
def Allocates (Client : Type) (_ : Client) (old : Option Document) (new : Document) : Prop :=
  0 ≤ nextIdOf json old ∧ nextIdOf json old < i64Max ∧ new = json.toVec ⟨1, nextIdOf json old + 1⟩

variable {Client : Type} {cl : Client} {old : Option Document} {new : Document} {json}

theorem Allocates.reads (h : Allocates json Client cl old new) :
    json.fromSlice new = .ok ⟨1, nextIdOf json old + 1⟩ := by
  obtain ⟨hnonneg, hmax, rfl⟩ := h
  exact json.fromSlice_toVec _ (by omega) (by omega)

theorem Allocates.nextId (h : Allocates json Client cl old new) :
    nextIdOf json (some new) = nextIdOf json old + 1 := by
  simp [nextIdOf, h.reads]

theorem Allocates.rank_lt (cl : Client) (old : Option Document) (new : Document)
    (h : Allocates json Client cl old new) : nextIdOf json old < nextIdOf json (some new) := by
  rw [h.nextId]
  omega

/-- The id that a call has taken: it is not below the next id when the call began, and the
call has raised the counter from it. -/
def Took (json : AllocatorJson) (cl : Client) (atStart : Option Document) (id : Int)
    (history : List (Event Client Document)) : Prop :=
  0 ≤ id ∧ nextIdOf json atStart ≤ id ∧ ∃ e ∈ history, e.client = cl ∧ nextIdOf json e.body = id + 1

variable {self} {start : Option Document} {f : Faults}
  {w : RegisterWorld self.producerIdsPath (Allocates json Client) start}
  [DecidableEq Client]

theorem acceptAllocator_ok {size : Nat} {version : Document} {body : Except StoreError Document}
    {id : Int} (h : acceptAllocator json ⟨size, version, body⟩ = .ok id) :
    ∃ bytes, body = .ok bytes ∧ 0 ≤ id ∧ nextIdOf json (some bytes) = id := by
  simp only [acceptAllocator, bind_eq_ok] at h
  obtain ⟨bytes, hbytes, state, hstate, hrest⟩ := h
  have hbody : body = .ok bytes := by
    rcases body with e | bytes'
    · cases hbytes
    · by_cases hsize : bytes'.length > maxTopicMetadataBytes
      · simp [collectDocument, hsize, Except.mapError] at hbytes
      · simpa [collectDocument, hsize, Except.mapError] using hbytes
  have hread : json.fromSlice bytes = .ok state := by
    cases hslice : json.fromSlice bytes <;> simp_all [Except.mapError]
  by_cases hbad : state.schema ≠ 1 ∨ state.nextId < 0
  · rw [if_pos hbad] at hrest
    cases hrest
  · rw [if_neg hbad] at hrest
    cases hrest
    exact ⟨bytes, hbody, by omega, by simp [nextIdOf, hread]⟩

omit [DecidableEq Client] in
/-- The counter never goes back. -/
theorem nextIdOf_mono {w w' : RegisterWorld self.producerIdsPath (Allocates json Client) start}
    (h : w ≤ w') : nextIdOf json w.content ≤ nextIdOf json w'.content := by
  obtain ⟨es, -, hlinked⟩ := RegisterWorld.linked_of_le h
  exact hlinked.rank_le Allocates.rank_lt

/-- What an attempt takes is the next id of the content that its write asks for, and not
below the next id when the call began. -/
theorem ends_nextProducerId {atStart : Option Document}
    (h : nextIdOf json atStart ≤ nextIdOf json w.content) :
    (registerArena _ _ start f List.length cl).Ends (self.nextProducerId json) w
      (fun next w' => nextIdOf json atStart ≤ nextIdOf json w'.content ∧ 0 ≤ next.1 ∧
        nextIdOf json atStart ≤ next.1 ∧ ∀ old, next.2.Allows old → nextIdOf json old = next.1)
      (fun _ _ => True) := by
  -- what is found when the object is asked for
  refine Arena.ends_bind (P := fun r w' => nextIdOf json atStart ≤ nextIdOf json w'.content ∧
    Got f List.length w'.bucket self.producerIdsPath r) (ends_request trivial ?_) ?_
  · rintro w₁ hw₁ - r w₂ hw₂ ⟨hgot, hbucket⟩
    exact ⟨h.trans (nextIdOf_mono (hw₁.trans hw₂)), hbucket ▸ hgot⟩
  · rintro r w' - ⟨hle, hgot⟩
    cases hgot with
    -- without an object the ids begin with 0
    | missing hnone =>
      refine Arena.ends_pure ⟨hle, le_rfl, ?_, ?_⟩
      · rwa [RegisterWorld.content, hnone] at hle
      · rintro old rfl
        rfl
    -- the stored id is a number that was accepted
    | @found body hbody =>
      refine Arena.ends_bind (P := fun id w' => nextIdOf json atStart ≤ nextIdOf json w'.content ∧
        0 ≤ id ∧ nextIdOf json (some body) = id) (ends_ofResult ?_ fun _ _ => trivial) ?_
      · intro id hid
        obtain ⟨bytes, hbytes, hnonneg, hnext⟩ := acceptAllocator_ok hid
        cases hbytes
        exact ⟨hle, hnonneg, hnext⟩
      · rintro id w'' - ⟨hle', hnonneg, hnext⟩
        refine Arena.ends_pure ⟨hle', hnonneg, ?_, ?_⟩
        · rwa [RegisterWorld.content, hbody, hnext] at hle
        · rintro old rfl
          exact hnext
    -- a body that was cut off is no document
    | interrupted =>
      refine Arena.ends_bind (P := fun _ _ => False) (ends_ofResult ?_ fun _ _ => trivial) ?_
      · intro id hid
        obtain ⟨bytes, hbytes, -⟩ := acceptAllocator_ok hid
        cases hbytes
      · rintro _ _ - ⟨⟩
    | failed => exact Arena.ends_throw trivial

theorem ends_allocateAttempts (attempts : Nat) {atStart : Option Document}
    (h : nextIdOf json atStart ≤ nextIdOf json w.content) :
    (registerArena _ _ start f List.length cl).Ends (self.allocateAttempts json attempts) w
      (fun id w' => Took json cl atStart id w'.bucket.history) (fun _ _ => True) := by
  -- over the attempts that are left
  induction attempts generalizing w with
  | zero => exact Arena.ends_throw trivial
  | succ attempts ih =>
    refine Arena.ends_bind (ends_nextProducerId h) ?_
    rintro ⟨id, mode⟩ w₁ - ⟨hle₁, hnonneg, hstart, hmode⟩
    -- there is a next id, unless the ids are used up
    refine Arena.ends_bind (P := fun nextId w' => nextId = id + 1 ∧ id < i64Max ∧
      nextIdOf json atStart ≤ nextIdOf json w'.content) (ends_ofResult ?_ fun _ _ => trivial) ?_
    · intro nextId hnext
      rw [okOr_eq_ok, checkedAddI64_eq_some] at hnext
      exact ⟨hnext.2.symm, by omega, hle₁⟩
    rintro _ w₂ - ⟨rfl, hmax, hle₂⟩
    -- the write adds one to whatever it is accepted over
    have hstep : ∀ old, mode.Allows old → Allocates json Client cl old (json.toVec ⟨1, id + 1⟩) := by
      intro old hold
      rw [Allocates, hmode old hold]
      exact ⟨hnonneg, hmax, rfl⟩
    refine Arena.ends_bind (P := fun r w' => nextIdOf json atStart ≤ nextIdOf json w'.content ∧
      ∀ body, r = .ok body → Took json cl atStart id w'.bucket.history)
      (ends_request ⟨rfl, hstep⟩ ?_) ?_
    -- an acknowledged write has taken the id
    · rintro w₃ hw₃ - r w₄ hw₄ hput
      refine ⟨hle₂.trans (nextIdOf_mono (hw₃.trans hw₄)), ?_⟩
      rintro body rfl
      obtain ⟨hadm, hbucket⟩ := Put.acknowledged hput
      obtain ⟨-, halloc⟩ := step_of_admits ⟨rfl, hstep⟩ hadm
      have hid : nextIdOf json w₃.content = id := hmode _ (by cases mode <;> exact hadm)
      refine ⟨hnonneg, hstart, ⟨cl, self.producerIdsPath, w₃.bucket.objects,
        some (json.toVec ⟨1, id + 1⟩)⟩, ?_, rfl, ?_⟩
      · rw [hbucket, Bucket.change_history]
        exact List.mem_append_right _ (List.mem_singleton_self _)
      · rw [halloc.nextId]
        exact congrArg (· + 1) hid
    -- a write that was refused is tried again
    · rintro r w₃ - ⟨hle₃, htook⟩
      rcases r with (_ | _ | _ | _) | body
      · exact Arena.ends_throw trivial
      · exact ih hle₃
      · exact ih hle₃
      · exact Arena.ends_throw trivial
      · exact Arena.ends_pure (htook body rfl)

/-! ## Allocations in company -/

section System

variable (self json)

/-- Any number of allocations, on a store where writes that are not acknowledged may take
effect at once, later or never, whatever their clients are told. -/
def allocations (Client : Type) :
    System Client (Cmd Document) Resp (Bucket Client Document) (Except LogError Int) :=
  storeSystem .any List.length fun _ => (self.allocateProducerId json).run

/-- The call has returned the id. -/
def Allocated (cfg : Config Client (Cmd Document) Resp (Bucket Client Document) (Except LogError Int))
    (cl : Client) (id : Int) : Prop :=
  ∃ s, cfg.tasks cl = some ⟨s, .ret (.ok id)⟩

/-- The next id that the store holds. -/
def StoredNextId (cfg : Config Client (Cmd Document) Resp (Bucket Client Document) (Except LogError Int))
    (nextId : Int) : Prop :=
  ∃ bytes, cfg.shared.objects self.producerIdsPath = some bytes ∧
    json.fromSlice bytes = .ok ⟨1, nextId⟩

/-- What a call promises. -/
def AllocationPost (start : Option Document) (cl : Client) (s : Bucket Client Document)
    (r : Except LogError Int)
    (w : RegisterWorld self.producerIdsPath (Allocates json Client) start) : Prop :=
  ∀ id, r = .ok id → Took json cl (s.objects self.producerIdsPath) id w.bucket.history

end System

/-- The configuration is that of the register `w`, and every call keeps its promise. -/
abbrev AllocationsVerified (self : LogEngine) (json : AllocatorJson) {start : Option Document}
    (cfg : Config Client (Cmd Document) Resp (Bucket Client Document) (Except LogError Int))
    (w : RegisterWorld self.producerIdsPath (Allocates json Client) start) : Prop :=
  System.Verified (self.allocations json Client) RegisterWorld.bucket
    (registerArena self.producerIdsPath (Allocates json Client) start .any List.length)
    (fun cl w => w.bucket.uses cl = 0) (self.AllocationPost json start) cfg w

variable {cfg cfg' : Config Client (Cmd Document) Resp (Bucket Client Document) (Except LogError Int)}

theorem allocations_steps (h : AllocationsVerified self json cfg w)
    (hsteps : Relation.ReflTransGen (self.allocations json Client).Step cfg cfg') :
    ∃ w', w ≤ w' ∧ AllocationsVerified self json cfg' w' := by
  apply register_steps _ _ h hsteps
  · intro cl w _
    apply Arena.wp_mono (ends_allocateAttempts maxCasAttempts le_rfl)
    rintro (e | id) w' - hQ id' hid
    · cases hid
    · cases hid
      exact hQ
  · rintro cl s r w w' hle - hpost id hid
    obtain ⟨hnonneg, hstart, e, he, hrest⟩ := hpost id hid
    exact ⟨hnonneg, hstart, e, List.IsPrefix.subset hle he, hrest⟩

theorem allocations_initial (objects : String → Option Document) (issued : Set Uuid) :
    AllocationsVerified self json
      (System.initial (Bucket.initial objects issued : Bucket Client Document))
      ⟨_, register_initial objects issued⟩ := by
  have h : ∀ w₀ : RegisterWorld self.producerIdsPath (Allocates json Client)
      (objects self.producerIdsPath), (∀ cl, w₀.bucket.uses cl = 0) →
      AllocationsVerified self json (System.initial w₀.bucket) w₀ :=
    fun w₀ hzero => System.verified_initial hzero
  exact h ⟨_, register_initial objects issued⟩ fun _ => rfl

theorem AllocationsVerified.took (h : AllocationsVerified self json cfg w) {id : Int}
    (hid : Allocated cfg cl id) : ∃ s, cfg.tasks cl = some ⟨s, .ret (.ok id)⟩ ∧
      Took json cl (s.objects self.producerIdsPath) id w.bucket.history := by
  obtain ⟨s, hs⟩ := hid
  exact ⟨s, hs, h.tasks cl _ hs id rfl⟩

theorem AllocationsVerified.below (h : AllocationsVerified self json cfg w) {id : Int}
    (hid : Allocated cfg cl id) : id < nextIdOf json w.content := by
  obtain ⟨s, hs, -, -, e, he, -, hnext⟩ := h.took hid
  have := (w.sound.linked.rank_mem Allocates.rank_lt he).2
  rw [hnext] at this
  exact Int.lt_iff_add_one_le.mpr this

/-- Producer ids are never reused: at every moment the ids that calls have returned are
pairwise distinct, non-negative and below the stored next id, and a call returns a larger
one than every call that had returned before it began. -/
theorem allocations_never_reuse {objects : String → Option Document} {issued : Set Uuid}
    (hreach : (self.allocations json Client).Reachable (Bucket.initial objects issued) cfg)
    (hlater : Relation.ReflTransGen (self.allocations json Client).Step cfg cfg') :
    (∀ cl cl' id, Allocated cfg' cl id → Allocated cfg' cl' id → cl = cl') ∧
    (∀ cl id, Allocated cfg' cl id →
      0 ≤ id ∧ ∃ nextId, StoredNextId self json cfg' nextId ∧ id < nextId) ∧
    (∀ cl cl' id id', Allocated cfg cl id → cfg.tasks cl' = none → Allocated cfg' cl' id' →
      id < id') := by
  -- the worlds of the two configurations
  obtain ⟨w, -, hver⟩ := allocations_steps (allocations_initial objects issued) hreach
  obtain ⟨w', hle, hver'⟩ := allocations_steps hver hlater
  refine ⟨?_, ?_, ?_⟩
  -- two calls with one id have made the same change
  · intro cl cl' id hcl hcl'
    obtain ⟨-, -, -, -, e, he, rfl, hnext⟩ := hver'.took hcl
    obtain ⟨-, -, -, -, e', he', rfl, hnext'⟩ := hver'.took hcl'
    rw [w'.sound.linked.rank_inj Allocates.rank_lt he he' (hnext.trans hnext'.symm)]
  -- the last change has stored an id above all that were taken
  · intro cl id hid
    obtain ⟨-, -, hnonneg, -, e, he, -⟩ := hver'.took hid
    refine ⟨hnonneg, nextIdOf json w'.content, ?_, hver'.below hid⟩
    obtain ⟨cl', before, body, hbody, halloc⟩ := w'.sound.linked.last (List.ne_nil_of_mem he)
    refine ⟨body, ?_, ?_⟩
    · rw [← hver'.shared]
      exact hbody
    · rw [halloc.reads, RegisterWorld.content, hbody, halloc.nextId]
  -- the later call starts from a content that is no earlier
  · intro cl cl' id id' hid hnone hid'
    obtain ⟨s, hs, -, hstart, -⟩ := hver'.took hid'
    obtain ⟨cfg₁, hsteps, hstarted⟩ := System.started_after hlater hnone hs
    obtain ⟨w₁, hle₁, hver₁⟩ := allocations_steps hver hsteps
    have hcontent : s.objects self.producerIdsPath = w₁.content := by
      rw [RegisterWorld.content, hver₁.shared, ← hstarted]
    calc id < nextIdOf json w.content := hver.below hid
      _ ≤ nextIdOf json w₁.content := nextIdOf_mono hle₁
      _ ≤ id' := hcontent ▸ hstart

end LogEngine

/-! ## Two allocations -/

namespace Reference

def readDecimal (digits : Document) : Nat := digits.foldl (fun n b => n * 10 + (b.toNat - 48)) 0

theorem readDecimal_decimal {width n : Nat} (hwidth : 0 < width) (h : n < 10 ^ width) :
    readDecimal (decimal width n) = n := by
  induction width generalizing n with
  | zero => cases hwidth
  | succ width ih =>
    have hdigit : (UInt8.ofNat (48 + n % 10)).toNat = 48 + n % 10 := by
      rw [UInt8.toNat_ofNat']
      omega
    rw [decimal, readDecimal, List.foldl_append]
    by_cases hn : n < 10
    · simp only [if_pos hn, List.foldl_nil, List.foldl_cons, hdigit]
      omega
    · have hwidth' : 0 < width := by
        by_contra hzero
        obtain rfl : width = 0 := by omega
        omega
      have hrest := ih hwidth' (n := n / 10) (by rw [Nat.pow_succ] at h; omega)
      rw [readDecimal] at hrest
      simp only [if_neg hn, hrest, List.foldl_nil, List.foldl_cons, hdigit]
      omega

/-- The text before the next id. -/
def allocatorHead : Document := ascii "\x7b\"schema\":1,\"next_id\":"

/-- The allocator object as JSON. -/
def allocatorJson : AllocatorJson where
  toVec state := allocatorHead ++ decimal 20 state.nextId.toNat ++ ascii "\x7d"
  fromSlice bytes :=
    if allocatorHead <+: bytes ∧ bytes.getLast? = some 125 then
      .ok ⟨1, readDecimal (bytes.drop allocatorHead.length).dropLast⟩
    else .error "expected value"
  fromSlice_toVec nextId hnonneg hmax := by
    have hread : readDecimal (decimal 20 nextId.toNat) = nextId.toNat :=
      readDecimal_decimal (by decide) (by simp only [i64Max] at hmax; omega)
    have hlast : (allocatorHead ++ decimal 20 nextId.toNat ++ ascii "\x7d").getLast? = some 125 := by
      rw [List.getLast?_append]
      rfl
    rw [if_pos ⟨by rw [List.append_assoc]; exact List.prefix_append .., hlast⟩, List.append_assoc,
      List.drop_left, show ascii "\x7d" = [125] from rfl, List.dropLast_concat, hread,
      Int.toNat_of_nonneg hnonneg]

/-- An allocation that nobody disturbs. -/
theorem runs_allocateProducerId (self : LogEngine) (json : AllocatorJson) {Client : Type}
    (cl : Client) {b : Bucket Client Document} {f : Faults} {body : Document} {id : Int}
    (hbody : b.objects self.producerIdsPath = some body)
    (haccept : LogEngine.acceptAllocator json ⟨body.length, body, .ok body⟩ = .ok id)
    (hid : 0 ≤ id ∧ id < i64Max) :
    ∃ cs, Runs (Bucket.Executes f List.length cl) b (self.allocateProducerId json).run cs (.ok id)
      (b.change cl self.producerIdsPath (some (json.toVec ⟨1, id + 1⟩))) := by
  have hnext : okOr (checkedAddI64 id 1) LogError.offsetOverflow = .ok (id + 1) := by
    rw [okOr_eq_ok, checkedAddI64_eq_some]
    exact ⟨⟨by simp only [i64Min]; omega, by omega⟩, rfl⟩
  refine ⟨[.get self.producerIdsPath, .put self.producerIdsPath (json.toVec ⟨1, id + 1⟩) (.update body)],
    .call (r := .ok ⟨body.length, body, .ok body⟩) ⟨.found hbody, rfl⟩ ?_⟩
  have haccepted : (ofResult (LogEngine.acceptAllocator json ⟨body.length, body, .ok body⟩) :
      ExceptT LogError (Prog (Cmd Document) Resp) Int) = pure id := by rw [haccept]; rfl
  have hraised : (ofResult (okOr (checkedAddI64 id 1) LogError.offsetOverflow) :
      ExceptT LogError (Prog (Cmd Document) Resp) Int) = pure (id + 1) := by rw [hnext]; rfl
  simp only [Prog.bind, Function.comp_apply, ExceptT.bindCont, haccepted, pure_bind]
  show Runs _ b (ExceptT.run (ofResult (okOr (checkedAddI64 id 1) LogError.offsetOverflow) >>= _)) _ _ _
  rw [hraised]
  exact .call (.written hbody) (.ret ..)

/-- An engine of its own. -/
def idEngine : LogEngine where
  keyPrefix := "c"
  prefix_safe := by
    intro component hcomponent
    have hall : ∀ c ∈ "c".toList.splitOn '/', c = ['c'] := by decide
    rw [hall component hcomponent]
    decide

/-- Two brokers allocate one after the other. -/
theorem allocations_never_reuse_twice : ∃ cfg cfg' : Config Bool (Cmd Document) Resp
      (Bucket Bool Document) (Except LogError Int),
    LogEngine.Allocated cfg false 0 ∧ LogEngine.Allocated cfg' true 1 ∧
    (∀ cl cl' id, LogEngine.Allocated cfg' cl id → LogEngine.Allocated cfg' cl' id → cl = cl') ∧
    (∀ cl id, LogEngine.Allocated cfg' cl id → 0 ≤ id ∧
      ∃ nextId, idEngine.StoredNextId allocatorJson cfg' nextId ∧ id < nextId) ∧
    (∀ cl cl' id id', LogEngine.Allocated cfg cl id → cfg.tasks cl' = none →
      LogEngine.Allocated cfg' cl' id' → id < id') := by
  let b₀ : Bucket Bool Document := .initial (fun _ => none) ∅
  let b₁ := b₀.change false idEngine.producerIdsPath (some (allocatorJson.toVec ⟨1, 1⟩))
  have hfirst : Runs (Bucket.Executes .any List.length false) b₀
      (idEngine.allocateProducerId allocatorJson).run _ (.ok 0) b₁ :=
    .call ⟨.missing rfl, rfl⟩ (.call (.written rfl) (.ret ..))
  have hbody : b₁.objects idEngine.producerIdsPath = some (allocatorJson.toVec ⟨1, 1⟩) := by
    simp [b₁]
  have haccept : LogEngine.acceptAllocator allocatorJson ⟨(allocatorJson.toVec ⟨1, 1⟩).length,
      allocatorJson.toVec ⟨1, 1⟩, .ok (allocatorJson.toVec ⟨1, 1⟩)⟩ = .ok 1 := by decide +kernel
  obtain ⟨cs, hsecond⟩ := runs_allocateProducerId idEngine allocatorJson true hbody haccept (by decide)
  let cfg : Config Bool (Cmd Document) Resp (Bucket Bool Document) (Except LogError Int) :=
    ⟨b₁, Function.update (fun _ => none) false (some ⟨b₀, .ret (.ok 0)⟩)⟩
  have hreach : (idEngine.allocations allocatorJson Bool).Reachable b₀ cfg :=
    System.steps_of_runs rfl hfirst
  have hnone : cfg.tasks true = none := rfl
  have hlater := System.steps_of_runs (Y := idEngine.allocations allocatorJson Bool) hnone hsecond
  exact ⟨cfg, _, ⟨_, rfl⟩, ⟨_, rfl⟩, LogEngine.allocations_never_reuse hreach hlater⟩

end Reference

end Walstream.Log
