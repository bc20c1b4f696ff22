import Walstream.Log.Collecting
import Walstream.Log.Rejecting

/-!
# The conduct of calls

What a call does once the partition was found to exist, whatever the store answers: it reads,
creates new objects under names of its own, writes the manifest of its own partition, and
deletes objects of its own partition; and no error of it denies the topic or the partition.
-/

namespace Walstream.Log

open Interaction

/-- The error says that the topic, or the partition, is not there. -/
def LogError.Denies : LogError → Prop
  | .unknownTopic _ | .unsupportedPartition _ => True
  | .maintenanceIncomplete _ source => source.Denies
  | _ => False

theorem LogError.denies_mundane : Mundane fun e => ¬ e.Denies :=
  ⟨fun _ h => h, fun _ h => h, fun h => h, fun _ h => h⟩

theorem failsWith_mapM_of {ε α β : Type} {P : ε → Prop} {f : α → Except ε β}
    (h : ∀ a, FailsWith P (f a)) (xs : List α) : FailsWith P (xs.mapM f) := by
  induction xs with
  | nil => exact failsWith_ok
  | cons x xs ih =>
    rw [List.mapM_cons]
    exact failsWith_bind (h x) fun _ _ => failsWith_bind ih fun _ _ => failsWith_ok

/-- A sequence whose second part is looked at only for values that the first one returns. -/
theorem obeys_bind_post {φ : Cmd Body → Prop} {F : LogError → Prop} {α β : Type} {Q : α → Prop}
    {x : Engine α} {f : α → Engine β} (hx : Obeys φ F x)
    (hQ : ∀ log a, x.run.Talks log (.ok a) → Q a) (hf : ∀ a, Q a → Obeys φ F (f a)) :
    Obeys φ F (x >>= f) := by
  intro log r h
  rcases talks_run_bind h with ⟨e, hfirst, rfl⟩ | ⟨before, after, a, rfl, hbefore, hafter⟩
  · exact ⟨(hx log _ hfirst).1, fun e' he => Except.error.inj he ▸ (hx log _ hfirst).2 e rfl⟩
  · obtain ⟨hφ, hF⟩ := hf a (hQ before a hbefore) after _ hafter
    exact ⟨List.forall_mem_append.mpr ⟨(hx before _ hbefore).1, hφ⟩, hF⟩

theorem obeys_bind_of_yields {φ : Cmd Body → Prop} {F : LogError → Prop} {α β : Type}
    {x : Engine α} {f : α → Engine β} (hx : Obeys φ F x)
    (hf : ∀ a, Yields x a → Obeys φ F (f a)) : Obeys φ F (x >>= f) :=
  obeys_bind_post hx (fun _ _ h => h.returns) hf

/-- The outcome of an attempt is a value, or one of the errors of the program. -/
theorem obeys_attempt_bind {φ : Cmd Body → Prop} {F G : LogError → Prop} {α β : Type}
    {x : Engine α} {f : Except LogError α → Engine β} (hx : Obeys φ G x)
    (hok : ∀ a, Obeys φ F (f (.ok a))) (herror : ∀ e, G e → Obeys φ F (f (.error e))) :
    Obeys φ F (attempt x >>= f) := by
  intro log r h
  obtain ⟨before, after, outcome, rfl, hbefore, hafter⟩ := talks_run_attempt h
  have hrest : Obeys φ F (f outcome) := by
    cases outcome with
    | ok a => exact hok a
    | error e => exact herror e ((hx before _ hbefore).2 e rfl)
  exact ⟨List.forall_mem_append.mpr ⟨(hx before _ hbefore).1, (hrest after r hafter).1⟩,
    (hrest after r hafter).2⟩

namespace PartitionLog

/-- `φ` admits the commands of a call: reads, new objects named by a UUID, writes of the
manifest, and deletions of the partition's objects. -/
structure Admits (log : PartitionLog) (φ : Cmd Body → Prop) : Prop extends log.Grants φ where
  head : ∀ path, φ (.head path)
  list : ∀ directory, φ (.list directory)
  publish : ∀ body mode, φ (.put log.manifestPath body mode)
  delete : ∀ path, log.Filed path → φ (.delete (log.crates.pathFrom path))

variable {self : PartitionLog} {φ : Cmd Body → Prop}

/-! ## Appends -/

theorem accept_fails (state : ProducerState) (epoch sequence : Int) (count : Nat)
    (fingerprint : String) (nextOffset : Int) :
    FailsWith (fun e => ¬ e.Denies) (state.accept epoch sequence count fingerprint nextOffset) := by
  unfold ProducerState.accept
  simp only [failsWith_bind_iff, failsWith_rejectIf_iff]
  refine ⟨fun _ h => h, fun _ _ => ⟨fun _ h => h, fun _ _ => ?_⟩⟩
  split
  · simp [LogError.Denies]
  · simp [LogError.Denies]

theorem inspectBatch_fails (records : List Record) :
    FailsWith (fun e => ¬ e.Denies) (self.inspectBatch records) := by
  unfold inspectBatch
  refine failsWith_bind ?_ fun _ _ => failsWith_bind ?_ fun _ _ => failsWith_bind ?_ fun _ _ =>
    failsWith_bind ?_ fun _ _ => ?_
  · unfold validateRecords
    split
    · exact failsWith_error fun h => h
    · exact failsWith_bind (failsWith_rejectIf fun _ h => h) fun _ _ =>
        failsWith_rejectIf fun _ h => h
  · unfold validateTimestampSpan
    split <;> simp [LogError.Denies]
  · simp [assignedRecords, LogError.Denies]
  · unfold Crates.encodeRecords
    split <;> simp [LogError.Denies]
  · exact failsWith_bind (failsWith_mapError fun _ _ h => h) fun _ _ =>
      failsWith_bind (failsWith_rejectIf fun _ h => h) fun _ _ => failsWith_ok

theorem prepareAppend_obeys (hφ : self.Grants φ) {batches : List (List Record × String)}
    (hbatches : ∀ batch ∈ batches, self.Admitted batch) (manifest : LogManifest)
    (receivedAtMs : Nat) :
    Obeys φ (fun e => ¬ e.Denies) (self.prepareAppend manifest batches receivedAtMs) := by
  have hP := LogError.denies_mundane
  unfold prepareAppend
  refine obeys_bind_of_yields (decideBatches_obeys hP (fun h => h) accept_fails hφ.get _ _ _ _)
    fun d hd => ?_
  split
  · exact obeys_pure
  · exact publishing_obeys hP (fun h => h) hφ (admitted_additions hbatches hd) manifest receivedAtMs

theorem appendAttempts_obeys (hφ : self.Admits φ) {batches : List (List Record × String)}
    (hbatches : ∀ batch ∈ batches, self.Admitted batch) (receivedAtMs attempts : Nat) :
    Obeys φ (fun e => ¬ e.Denies) (self.appendAttempts batches receivedAtMs attempts) := by
  have hP := LogError.denies_mundane
  -- over the attempts that are left
  induction attempts with
  | zero => exact obeys_throw fun h => h
  | succ attempts ih =>
    rw [appendAttempts]
    -- each attempt loads the manifest and prepares the next root
    refine obeys_bind (self.loadManifestOf_obeys hP hφ.get _) fun loaded => ?_
    dsimp only
    refine obeys_attempt_bind (prepareAppend_obeys hφ.toGrants hbatches _ receivedAtMs) ?_ ?_
    · rintro ⟨result, _ | next⟩
      -- every batch was stored before, so that nothing is published
      · exact obeys_pure
      · dsimp only
        refine obeys_bind (obeys_check (self.validateRoot_failsWith hP next)) fun _ => ?_
        -- the root is checked and published in place of what was loaded
        split
        · exact obeys_throw_bind fun h => h
        refine obeys_ask (hφ.publish _ _) fun answer => ?_
        -- published, or lost to another append, or failed
        split
        · exact obeys_pure
        · exact ih
        · exact ih
        · exact obeys_throw fun h => h
    -- the preparation has failed, and a stale view is tried again
    · intro error herror
      dsimp only
      refine obeys_bind (self.staleMissing_obeys hP hφ.get _ _) fun stale => ?_
      split
      · exact ih
      · exact obeys_throw herror

/-! ## Fetches -/

theorem pushAll_failsWith (selection : Selection) (segments : List Segment) :
    FailsWith (fun e => ¬ e.Denies) (selection.pushAll segments) := by
  induction segments generalizing selection with
  | nil => simp [Selection.pushAll]
  | cons segment segments ih =>
    simp only [Selection.pushAll, failsWith_bind_iff]
    refine ⟨?_, fun out _ => ?_⟩
    · simp only [Selection.push, Segment.lastOffset, failsWith_bind_iff, failsWith_okOr_iff]
      refine ⟨by simp [LogError.Denies], fun _ _ => ?_⟩
      split
      · simp
      · split
        · split <;> simp
        · simp
    · split
      · exact ih _
      · simp

theorem selectIndexLoop_obeys (hget : ∀ path, φ (.get path)) (stack : List PageRef)
    (selection : Selection) :
    Obeys φ (fun e => ¬ e.Denies) (self.selectIndexLoop stack selection) := by
  -- on the weight of the stack, which every step lowers
  induction hweight : stackWeight (stack.map (·.level)) using Nat.strong_induction_on
    generalizing stack selection with
  | _ weight ih =>
  subst hweight
  cases stack with
  | nil =>
    rw [selectIndexLoop]
    exact obeys_pure
  | cons r stack =>
    rw [selectIndexLoop]
    -- an exhausted page is dropped
    split
    · exact ih _ (stackWeight_lt_cons r.level _) stack _ rfl
    refine obeys_bind (self.readPage_obeys LogError.denies_mundane hget r) ?_
    rintro ⟨segments | children, hpage⟩
    -- the segments of a leaf are pushed until the budget ends
    · refine obeys_bind (obeys_check (pushAll_failsWith _ _)) ?_
      rintro ⟨selection, _ | _⟩
      · exact obeys_pure
      · exact ih _ (stackWeight_lt_cons r.level _) stack _ rfl
    · -- the children weigh less than the page
      have hlt := stackWeight_children (self.checkPage_levels hpage).1
        (self.checkPage_levels hpage).2
      have hfilter := stackWeight_sublist ((List.filter_sublist
        (p := fun r => decide (r.nextOffset > selection.offset)) (l := children)).map (·.level))
      refine ih _ ?_ (children.filter (fun r => r.nextOffset > selection.offset) ++ stack) _ rfl
      rw [List.map_append, stackWeight_append, List.map_cons, stackWeight_cons]
      omega

theorem acceptSegment_failsWith (segment : Segment) (result : GetResult Body) :
    FailsWith (fun e => ¬ e.Denies) (self.acceptSegment segment result) := by
  unfold acceptSegment
  refine failsWith_bind (by simp [LogError.Denies]) fun _ _ => ?_
  refine failsWith_bind ?_ fun body _ => ?_
  · simp only [failsWith_mapError_iff]
    rintro (e | _) - <;> exact fun h => h
  refine failsWith_bind (by simp [LogError.Denies]) fun _ _ => ?_
  refine failsWith_bind (by simp [LogError.Denies]) fun bytes _ => ?_
  refine failsWith_bind (failsWith_mapError fun _ _ h => h) fun decoded _ => ?_
  refine failsWith_bind (by simp [LogError.Denies]) fun _ _ => ?_
  refine failsWith_bind (by simp [validateSegmentRecords, LogError.Denies]) fun _ _ => ?_
  refine failsWith_bind ?_ fun _ _ => ?_
  · unfold validateCanonicalSegmentRecords
    refine failsWith_bind (failsWith_mapError fun _ _ h => h) fun _ _ => ?_
    exact failsWith_bind (failsWith_mapError fun _ _ h => h) fun _ _ =>
      failsWith_rejectIf fun _ h => h
  refine failsWith_bind (failsWith_mapError fun _ _ h => h) fun canonical _ => ?_
  exact failsWith_bind (by simp [LogError.Denies]) fun _ _ => by simp

theorem fetchSnapshot_obeys (hget : ∀ path, φ (.get path)) (manifest : LogManifest) (offset : Int)
    (maximumBytes : Nat) (allowOversizedFirstBatch : Bool) :
    Obeys φ (fun e => ¬ e.Denies)
      (self.fetchSnapshot manifest offset maximumBytes allowOversizedFirstBatch) := by
  -- the segments are read one after the other
  have hreads : ∀ segments, Obeys φ (fun e => ¬ e.Denies) (self.readSegments segments) := by
    intro segments
    induction segments with
    | nil => exact obeys_pure
    | cons segment segments ih =>
      refine obeys_bind ?_ fun bytes => obeys_bind ih fun rest => obeys_pure
      unfold readSegment
      -- the bytes are accepted or found corrupt
      refine obeys_bind (obeys_check (failsWith_mapError fun _ _ h => h)) fun path => ?_
      refine obeys_ask (hget _) fun answer => ?_
      split
      · exact obeys_check (acceptSegment_failsWith segment _)
      · exact obeys_throw fun h => h
  unfold fetchSnapshot
  dsimp only
  -- an offset outside the log is refused, and at its end nothing is read
  split
  · exact obeys_throw_bind fun h => h
  split
  · exact obeys_pure
  refine obeys_bind ?_ fun selection => obeys_bind (hreads _) fun encoded => obeys_pure
  -- a legacy manifest lists its segments, and an indexed one has a tree before its tail
  cases manifest with
  | legacy m => exact obeys_bind (obeys_check (pushAll_failsWith _ _)) fun _ => obeys_pure
  | indexed root =>
    refine obeys_bind (selectIndexLoop_obeys hget _ _) ?_
    rintro ⟨selection, _ | _⟩
    · exact obeys_pure
    · exact obeys_bind (obeys_check (pushAll_failsWith _ _)) fun _ => obeys_pure

theorem fetchAttempts_obeys (hget : ∀ path, φ (.get path)) (offset : Int) (maximumBytes : Nat)
    (allowOversizedFirstBatch : Bool) (attempts : Nat) :
    Obeys φ (fun e => ¬ e.Denies)
      (self.fetchAttempts offset maximumBytes allowOversizedFirstBatch attempts) := by
  have hP := LogError.denies_mundane
  induction attempts with
  | zero => exact obeys_throw fun h => h
  | succ attempts ih =>
    rw [fetchAttempts]
    refine obeys_bind (self.loadManifestOf_obeys hP hget _) fun loaded => ?_
    refine obeys_attempt_bind (fetchSnapshot_obeys hget _ _ _ _) (fun _ => obeys_pure) ?_
    intro error herror
    dsimp only
    refine obeys_bind (self.staleMissing_obeys hP hget _ _) fun stale => ?_
    split
    · exact ih
    · exact obeys_throw herror

/-! ## Maintenance -/

/-- Only names of the partition are in an inventory. -/
theorem inventory_filed {maximum : Nat} {inventory : Inventory}
    (h : Yields (self.inventory maximum) inventory) : ∀ entry ∈ inventory, self.Filed entry.1 := by
  have hgo : ∀ (directories : List (String × String)) (scanned : Nat) (objects : Inventory),
      (∀ d ∈ directories, Files self d) → (∀ entry ∈ objects, self.Filed entry.1) →
      Yields (self.inventoryOf maximum directories scanned objects) inventory →
      ∀ entry ∈ inventory, self.Filed entry.1 := by
    intro directories
    induction directories with
    | nil =>
      intro scanned objects _ hobjects h
      exact yields_pure h ▸ hobjects
    | cons directory directories ih =>
      intro scanned objects hfiles hobjects h
      rw [inventoryOf] at h
      obtain ⟨listed, -, h⟩ := yields_bind h
      obtain ⟨⟨scanned', objects'⟩, hscan, h⟩ := yields_bind h
      have hscan := yields_check hscan
      refine ih scanned' objects' (fun d hd => hfiles d (List.mem_cons_of_mem _ hd)) ?_ h
      intro entry hentry
      rcases mem_scanListing hscan entry hentry with hmem | ⟨object, -, hlocation, hnames⟩
      · exact hobjects entry hmem
      · exact hlocation ▸ hfiles directory List.mem_cons_self _ hnames
  exact hgo _ _ _ (files_collected self) (fun _ h => absurd h List.not_mem_nil) h

theorem collect_obeys (hφ : self.Admits φ) (live : LiveGraph) {removable : Inventory}
    (hfiled : ∀ entry ∈ removable, self.Filed entry.1) (report : MaintenanceReport) :
    Obeys φ (fun e => ¬ e.Denies) (self.collect live removable report) := by
  induction removable generalizing report with
  | nil => exact obeys_pure
  | cons entry removable ih =>
    obtain ⟨object, size⟩ := entry
    have hrest := ih fun entry hentry => hfiled entry (List.mem_cons_of_mem _ hentry)
    have hobject : self.Filed object := hfiled (object, size) List.mem_cons_self
    rw [collect]
    split
    · exact hrest report
    refine obeys_ask (hφ.delete object hobject) fun answer => ?_
    split
    · exact hrest _
    · exact hrest _
    · exact obeys_throw fun h => h

theorem maintainPass_obeys (hφ : self.Admits φ) (options : MaintenanceOptions) (nowMs : Nat) :
    Obeys φ (fun e => ¬ e.Denies) (self.maintainPass options nowMs) := by
  have hP := LogError.denies_mundane
  have hbudget : ¬ (LogError.maintenanceBudget options.maxObjects).Denies := fun h => h
  unfold maintainPass
  -- the pass lists the partition, loads the manifest and traces it
  refine obeys_bind_of_yields (self.inventory_obeys hP hbudget hφ.list) fun inventory hyields => ?_
  have hfiled := inventory_filed hyields
  refine obeys_bind (self.loadManifestOf_obeys hP hφ.get _) fun loaded => ?_
  dsimp only
  refine obeys_attempt_bind (self.traceManifest_obeys hP hbudget hφ.get hφ.head _) ?_ ?_
  · intro graph
    refine obeys_bind_of_yields (obeys_check ?_) fun plan hplan => ?_
    · exact fun e he => planRetention_eq_error he ▸ fun h => h
    obtain ⟨k, hplanned⟩ := planRetention_eq_ok (yields_check hplan)
    -- without `apply` the plan is reported only
    split
    · exact obeys_pure
    refine obeys_bind (self.maintenanceRoot_obeys hP hbudget hφ.toGrants (fun h => h) _ _)
      fun root => ?_
    -- the root of the plan is published in place of what was loaded
    refine obeys_ask (hφ.publish _ _) fun answer => ?_
    split
    -- published: what the new root does not reach is deleted
    · unfold collectPublished
      dsimp only
      refine obeys_attempt_bind (self.traceManifest_obeys hP hbudget hφ.get hφ.head _) ?_ ?_
      · intro live
        exact obeys_bind (collect_obeys hφ live
          (fun entry hentry => hfiled entry (hplanned.removable entry hentry)) _) fun _ => obeys_pure
      -- the new root cannot be traced any more
      · intro error herror
        dsimp only
        refine obeys_attempt_bind (self.staleMissing_obeys hP hφ.get _ _) ?_ ?_
        · rintro (_ | _)
          · exact obeys_throw herror
          · exact obeys_pure
        · exact fun e he => obeys_throw he
    -- lost to another client, or failed
    · exact obeys_pure
    · exact obeys_pure
    · exact obeys_throw fun h => h
  -- the first trace has failed
  · intro error herror
    dsimp only
    refine obeys_bind (self.staleMissing_obeys hP hφ.get _ _) fun stale => ?_
    split
    · exact obeys_pure
    · exact obeys_throw herror

/-- The attempts hand over the error of a pass as a value. -/
theorem maintainAttempts_obeys (hφ : self.Admits φ) {options : MaintenanceOptions} {nowMs : Nat}
    {attempts : Nat} {last : Option MaintenanceReport} {log : List (Exchange (Cmd Body) Resp)}
    {r : Except LogError (Except LogError MaintenanceReport × Option MaintenanceReport)}
    (h : (self.maintainAttempts options nowMs attempts last).run.Talks log r) :
    (∀ t ∈ log, φ t.command) ∧ ∃ out, r = .ok out ∧ ∀ e, out.1 = .error e → ¬ e.Denies := by
  -- over the passes that are left, each of which hands on its report
  induction attempts generalizing last log with
  | zero =>
    obtain ⟨rfl, rfl⟩ := talks_run_pure h
    refine ⟨by simp, _, rfl, fun e he => ?_⟩
    cases he
    exact fun h => h
  | succ attempts ih =>
    rw [maintainAttempts] at h
    obtain ⟨before, after, outcome, rfl, hbefore, hafter⟩ := talks_run_attempt h
    obtain ⟨hφs, hF⟩ := maintainPass_obeys hφ options nowMs before _ hbefore
    -- a failed pass ends the call
    cases outcome with
    | error e =>
      obtain ⟨rfl, rfl⟩ := talks_run_pure hafter
      refine ⟨by simpa using hφs, _, rfl, fun e' he' => ?_⟩
      cases he'
      exact hF e rfl
    -- a finished pass ends it, and another is followed by the next
    | ok pass =>
      cases pass with
      | finished report =>
        obtain ⟨rfl, rfl⟩ := talks_run_pure hafter
        refine ⟨by simpa using hφs, _, rfl, fun e' he' => ?_⟩
        cases he'
      | retry published =>
        obtain ⟨hφs', out, hout⟩ := ih hafter
        exact ⟨List.forall_mem_append.mpr ⟨hφs, hφs'⟩, out, hout⟩

theorem maintainAt_obeys (hφ : self.Admits φ) (options : MaintenanceOptions) (nowMs : Nat) :
    Obeys φ (fun e => ¬ e.Denies) (self.maintainAt options nowMs) := by
  unfold maintainAt
  refine obeys_bind_post (Q := fun out => ∀ e, out.1 = .error e → ¬ e.Denies) ?_ ?_ ?_
  · intro log r h
    obtain ⟨hφs, out, rfl, -⟩ := maintainAttempts_obeys hφ h
    exact ⟨hφs, fun e he => by cases he⟩
  · intro log out h
    obtain ⟨-, out', hout, hF⟩ := maintainAttempts_obeys hφ h
    cases hout
    exact hF
  · rintro ⟨result, last⟩ hF
    split
    · rename_i heq
      exact obeys_throw (hF _ (congrArg Prod.fst heq))
    · rename_i error _ _ heq
      have herror : ¬ error.Denies := hF _ (congrArg Prod.fst heq)
      exact obeys_throw herror
    · rename_i heq
      exact obeys_throw (hF _ (congrArg Prod.fst heq))
    · exact obeys_pure

end PartitionLog

end Walstream.Log
