import Walstream.Group.Brokers
import Walstream.Group.OffsetRegister
import Walstream.Group.Rounds
import Walstream.Log.Inquiries
import Walstream.Log.Reference

/-!
# Answers and positions

What the answers to an OffsetCommit say of the group's positions, when the stores have no faults
and nobody else is at work: the positions with code 0 are there, and nothing else has changed.
-/

namespace Walstream.Group

open Interaction Log
open Std (ExtTreeMap)

/-! ## A commit at the store -/

/-- A result that is looked at. -/
theorem alone_ofResult_bind {S ε α β : Type} {exec : Exec (Cmd Document) Resp S} {r : Except ε α}
    {f : α → ExceptT ε (Prog (Cmd Document) Resp) β} {s : S} {Q : β → S → Prop} {E : ε → S → Prop}
    (hok : ∀ a, r = .ok a → Alone exec (f a) s Q E) (herror : ∀ e, r = .error e → E e s) :
    Alone exec (ofResult r >>= f) s Q E := by
  cases r with
  | ok a => exact hok a rfl
  | error e => exact alone_throw (herror e rfl)

namespace GroupStore

variable {self : GroupStore} {json : OffsetJson} {group : String} {Client : Type} {cl : Client}
  {b : Bucket Client Document} {commits : List OffsetCommit}

/-- What a commit that succeeds has done: it has overridden the positions in one write. -/
def Commits (self : GroupStore) (json : OffsetJson) (group : String) (cl : Client)
    (b : Bucket Client Document) (commits : List OffsetCommit) (b' : Bucket Client Document) : Prop :=
  commits ≠ [] ∧ validateComponent group .group = .ok () ∧ (commits.map (·.key)).Nodup ∧
    ∃ p bytes m offsets, Holds json (b.objects (self.offsetPath group)) p ∧
      Writes json p commits bytes m offsets ∧
        b' = b.change cl (self.offsetPath group) (some bytes)

theorem load_alone :
    Alone (Bucket.Executes Faults.none List.length cl) (self.load json group) b
      (fun loaded b' => b' = b ∧
        manifestOf json (b.objects (self.offsetPath group)) = some (loaded.getD .empty).manifest ∧
        (loaded.getD .empty).version = b.objects (self.offsetPath group))
      (fun _ b' => b' = b ∧ manifestOf json (b.objects (self.offsetPath group)) = none) := by
  apply alone_ask
  intro r b' hexec
  -- a get is answered with what the object holds, as the store does not fail
  obtain ⟨hgot, rfl⟩ := hexec
  cases hgot with
  -- the object is accepted, or the load fails
  | @found bytes hbody =>
    cases haccept : acceptOffsets json ⟨bytes.length, bytes, .ok bytes⟩ with
    | error e =>
      simp only [haccept, ofResult]
      rw [hbody]
      exact alone_throw ⟨rfl, by simp [manifestOf, haccept, Except.toOption]⟩
    | ok loaded =>
      obtain ⟨-, -, -, -, -, -, hversion⟩ := acceptOffsets_eq_ok.mp haccept
      simp only [haccept, ofResult]
      apply alone_pure
      rw [hbody]
      exact ⟨rfl, manifestOf_accepted haccept, hversion⟩
  -- an absent object is loaded as the empty manifest
  | missing hbody =>
    apply alone_pure
    rw [hbody]
    exact ⟨rfl, rfl, rfl⟩
  | interrupted hf => exact hf.elim
  | failed hf => exact hf.elim

/-- A fetch alone: it only reads, and answers what the object holds. -/
theorem fetch_alone {selection : Option (List TopicPartition)} :
    Alone (Bucket.Executes Faults.none List.length cl) (self.fetch json group selection) b
      (fun fetched b' => b' = b ∧ ∃ offsets : Offsets,
        Holds json (b.objects (self.offsetPath group)) offsets.positions ∧
          fetched = select selection offsets)
      (fun _ b' => b' = b ∧ (validateComponent group .group ≠ .ok () ∨
        selection.elim (.ok ()) validateSelection ≠ .ok () ∨
          ∀ p, ¬ Holds json (b.objects (self.offsetPath group)) p)) := by
  unfold fetch
  -- the group and the selection are checked before the store is asked
  refine alone_ofResult_bind (fun _ _ => ?_) fun e he => ⟨rfl, .inl (by simp [he])⟩
  refine alone_ofResult_bind (fun _ _ => ?_) fun e he => ⟨rfl, .inr (.inl (by simp [he]))⟩
  unfold loadOffsets
  rw [bind_assoc]
  -- a failed load means that the object holds no positions
  refine alone_bind (load_alone.mono (fun _ _ h => h) ?_) ?_
  · rintro e b' ⟨rfl, hnone⟩
    refine ⟨rfl, .inr (.inr ?_)⟩
    rintro p ⟨m, offsets, hm, -, -⟩
    rw [hnone] at hm
    cases hm
  rintro loaded b₁ ⟨rfl, hmanifest, -⟩
  obtain ⟨-, offsets, hmap⟩ := manifestOf_valid hmanifest
  have hholds : Holds json (b₁.objects (self.offsetPath group)) offsets.positions :=
    ⟨_, offsets, hmanifest, hmap, rfl⟩
  -- what is loaded is selected from
  cases loaded with
  | none =>
    obtain rfl : ∅ = offsets := Except.ok.inj hmap
    exact alone_pure ⟨rfl, ∅, hholds, rfl⟩
  | some loaded =>
    simp only [show loaded.manifest.offsetMap json = .ok offsets from hmap]
    exact alone_pure ⟨rfl, offsets, hholds, rfl⟩

theorem commitAttempts_alone (hne : commits ≠ []) (hgroup : validateComponent group .group = .ok ())
    (hcommits : validateCommits commits = .ok ()) {attempts : Nat} :
    Alone (Bucket.Executes Faults.none List.length cl) (self.commitAttempts json group commits attempts)
      b (fun _ b' => self.Commits json group cl b commits b') (fun _ b' => b' = b) := by
  induction attempts with
  | zero => exact alone_throw rfl
  | succ attempts ih =>
    refine alone_bind (load_alone.mono (fun _ _ h => h) fun _ _ h => h.1) ?_
    rintro loaded b₁ ⟨rfl, hmanifest, hversion⟩
    refine alone_ofResult_bind (fun bytes hrewrite => ?_) fun _ _ => rfl
    apply alone_ask
    intro r b' hexec
    cases hexec with
    | written hadmits =>
      obtain ⟨hschema, offsets, hmap⟩ := manifestOf_valid hmanifest
      obtain ⟨m', offsets', hwrites⟩ := OffsetManifest.rewrite_spec hschema hmap hcommits hrewrite
      obtain ⟨-, -, hnodup⟩ := validateCommits_eq_ok.mp hcommits
      exact alone_pure
        ⟨hne, hgroup, hnodup, _, bytes, m', offsets', ⟨_, _, hmanifest, hmap, rfl⟩, hwrites, rfl⟩
    | refused he hrefused =>
      -- nobody has changed the object since it was loaded
      refine absurd ?_ hrefused
      rw [hversion]
      cases hbody : b₁.objects (self.offsetPath group) with
      | none => exact hbody
      | some body => exact hbody
    | lost hf => exact hf.elim
    | unacknowledged hf hadmits => exact hf.elim
    | delayed hf => exact hf.elim
    | misreported hf he hadmits => exact hf.elim
    | spurious hf he => exact hf.elim

/-- A commit alone: it has set its positions in one write, or it has changed nothing. -/
theorem commit_alone (hne : commits ≠ []) :
    Alone (Bucket.Executes Faults.none List.length cl) (self.commit json group commits) b
      (fun _ b' => self.Commits json group cl b commits b') (fun _ b' => b' = b) := by
  unfold commit
  refine alone_ofResult_bind (fun _ hgroup => ?_) fun _ _ => rfl
  refine alone_ofResult_bind (fun _ hcommits => ?_) fun _ _ => rfl
  simp only [if_neg hne]
  exact commitAttempts_alone hne hgroup hcommits

end GroupStore

/-! ## A commit at the coordinator -/

/-- The caller is a member of this generation of the group, which is stable. -/
def GroupState.Lets (g : GroupState) (generationId : Int) (memberId : String) : Prop :=
  activeGroup (some g) generationId memberId = .ok g ∧ g.phase = .stable

/-- The slot of the group lets the caller commit. -/
def Shared.Lets {Content : Type} (w : Shared Content) (group : String) (generationId : Int)
    (memberId : String) : Prop :=
  ∃ slot g, w.groups[group]? = some slot ∧ (w.slots slot).state = some g ∧
    g.Lets generationId memberId

theorem Shared.Lets.congr {Content : Type} {w w' : Shared Content} {group : String}
    {generationId : Int} {memberId : String} (h : w.Lets group generationId memberId)
    (hgroups : w'.groups = w.groups) (hslots : ∀ s, (w'.slots s).state = (w.slots s).state) :
    w'.Lets group generationId memberId := by
  obtain ⟨slot, g, hslot, hstate, hlets⟩ := h
  exact ⟨slot, g, hgroups ▸ hslot, (hslots slot).trans hstate, hlets⟩

/-- What a section of `commit` goes on with: it refuses, it has nothing to commit, or it goes to the
store. -/
inductive CommitNext (commits : List OffsetCommit) (lets : Prop) : Next → Prop where
  | refused (e : CoordinatorError) (reclaim : Bool) : CommitNext commits lets (.reply (.error e) reclaim)
  | empty (hlets : lets) (nothing : commits = []) : CommitNext commits lets (.reply (.ok .done) false)
  | stored (hlets : lets) (something : commits ≠ []) : CommitNext commits lets (.store commits)

theorem commitRound_next {generationId : Int} {memberId : String} {commits : List OffsetCommit}
    {s : Option GroupState} : Section.Gives (commitRound generationId memberId commits) s
      (fun next s' => CommitNext commits (∃ g, s' = some g ∧ g.Lets generationId memberId) next)
      fun _ _ => True := by
  unfold commitRound
  simp only [Section.gives_bind, Section.gives_get]
  cases hactive : activeGroup s generationId memberId with
  | error e => exact .refused e _
  | ok g =>
    obtain ⟨rfl, hmember, -⟩ := activeGroup_spec hactive
    obtain ⟨m, hm⟩ := ExtTreeMap.mem_iff_exists.mp hmember
    simp only [hm, expect, Section.gives_bind, Section.gives_orStop_some]
    split
    · exact .refused _ false
    rename_i hphase
    have hlets : ∃ g', some g = some g' ∧ g'.Lets generationId memberId :=
      ⟨g, rfl, hactive, not_not.mp fun hne => hphase (.inl hne)⟩
    split
    · rename_i hnothing
      exact .empty hlets hnothing
    · rename_i hsomething
      exact .stored hlets hsomething

theorem commit_next {now : Nat} {assigned : String} {generationId : Int} {memberId : String}
    {commits : List OffsetCommit} {s : Option GroupState} :
    Section.Gives ((Stage.commit generationId memberId commits).run now assigned) s
      (fun next s' => CommitNext commits (∃ g, s' = some g ∧ g.Lets generationId memberId) next)
      fun _ _ => True := by
  unfold Stage.run
  rw [Section.gives_bind]
  exact Section.gives_def.mpr ⟨fun _ _ _ => commitRound_next, fun _ _ _ => trivial⟩

section Coordinator

variable {self : GroupStore} {json : OffsetJson} {Client : Type} {cl : Client} {group : String}
  {generationId : Int} {memberId : String} {commits : List OffsetCommit}
  {start : Bucket Client Document}

/-- What a call of `commit` that ended so has made of the offsets. -/
def Ended (self : GroupStore) (json : OffsetJson) (group : String) (generationId : Int)
    (memberId : String) (commits : List OffsetCommit) (cl : Client) (start : Bucket Client Document)
    (w : Shared (Bucket Client Document)) (outcome : Outcome) : Prop :=
  (outcome = .ok .done → w.Lets group generationId memberId ∧
    (commits = [] ∧ w.content = start ∨ self.Commits json group cl start commits w.content)) ∧
  (outcome ≠ .ok .done → w.content = start)

/-- What a call of `commit` has made of the offsets at each of its points. -/
def Underway (self : GroupStore) (json : OffsetJson) (group : String) (generationId : Int)
    (memberId : String) (commits : List OffsetCommit) (cl : Client) (start : Bucket Client Document)
    (w : Shared (Bucket Client Document)) :
    Point (Prog (Cmd Document) Resp (Except GroupError Unit)) → Prop
  | .called => w.content = start
  | .sweeping _ _ | .found _ => False
  | .locking slot _ stage | .running slot _ stage => w.content = start ∧
    stage = .commit generationId memberId commits ∧ w.groups[group]? = some slot
  | .storing slot work => w.groups[group]? = some slot ∧
    (∃ g, (w.slots slot).state = some g ∧ g.Lets generationId memberId) ∧
    Alone (Bucket.Executes Faults.none List.length cl) (ExceptT.mk work) w.content
      (fun _ b => self.Commits json group cl start commits b) fun _ b => b = start
  | .reclaiming _ outcome => outcome ≠ .ok .done ∧ w.content = start
  | .dropping _ outcome | .returned outcome =>
    Ended self json group generationId memberId commits cl start w outcome

theorem ended_error {w : Shared (Bucket Client Document)} {halt : Halt} (h : w.content = start) :
    Ended self json group generationId memberId commits cl start w (.error halt) :=
  ⟨fun heq => (by cases heq), fun _ => h⟩

theorem Ended.congr {w w' : Shared (Bucket Client Document)} {outcome : Outcome}
    (h : Ended self json group generationId memberId commits cl start w outcome)
    (hcontent : w'.content = w.content) (hgroups : w'.groups = w.groups)
    (hslots : ∀ s, (w'.slots s).state = (w.slots s).state) :
    Ended self json group generationId memberId commits cl start w' outcome := by
  refine ⟨fun hdone => ?_, fun hne => hcontent.trans (h.2 hne)⟩
  obtain ⟨hlets, hcommits⟩ := h.1 hdone
  exact ⟨hlets.congr hgroups hslots, hcontent ▸ hcommits⟩

theorem Underway.tick {w : Shared (Bucket Client Document)}
    {point : Point (Prog (Cmd Document) Resp (Except GroupError Unit))}
    (h : Underway self json group generationId memberId commits cl start w point) (clock : Nat) :
    Underway self json group generationId memberId commits cl start { w with clock } point := by
  cases point <;> exact h

/-- What a call of `commit` has made of the offsets after one move more. -/
theorem Moves.underway {w w' : Shared (self.offsetStore json Faults.none cl).Content} {e : Event}
    {t t' : Task (self.offsetStore json Faults.none cl).Work}
    (h : Moves (self.offsetStore json Faults.none cl) w t e w' t')
    (hcall : t.call = .commit group generationId memberId commits)
    (ht : Underway self json group generationId memberId commits cl start w t.point) :
    t'.call = t.call ∧
      Underway self json group generationId memberId commits cl start w' t'.point := by
  -- a commit finds its slot or is refused; it never sweeps
  cases h with
  | refuse e here why =>
    rw [here] at ht
    -- the call ends before it has done anything
    exact ⟨rfl, ended_error ht⟩
  | find slot here valid free there =>
    rw [here] at ht
    rw [hcall] at there
    refine ⟨rfl, ?_⟩
    simp only [hcall]
    -- the map gives the slot of the group, which the section will use
    exact ⟨ht, rfl, there⟩
  | absent here valid free absent old =>
    rw [here] at ht
    exact ⟨rfl, ended_error ht⟩
  -- only a first join founds a slot
  | sweep left here valid free absent first all =>
    rw [hcall] at first
    cases first
  -- the points of a sweep, and of a join that reads the clock, are not those of a commit
  | skip now slot name left here there used
  | keep now slot name left r state here there unused unlocked exec stays
  | discard now slot name left changed here there unused unlocked exec
  | crash now slot name text left state here there unused unlocked exec
  | full now here why
  | create now here room
  | read slot here =>
    rw [here] at ht
    exact ht.elim
  | lock slot reading stage here unlocked =>
    rw [here] at ht
    exact ⟨rfl, ht⟩
  | run slot reading stage assigned r state here new exec =>
    -- the section decides whether anything is written
    rw [here] at ht
    obtain ⟨hcontent, rfl, hslot⟩ := ht
    have hsame : ((w.settled slot state (holdsLock r) assigned).slots slot).state = state := by
      simp [Shared.settled]
    refine ⟨rfl, ?_⟩
    cases r with
    | error halt => exact ended_error hcontent
    | ok next =>
      cases (Section.gives_def.mp commit_next).1 next state exec with
      | refused e reclaim =>
        cases reclaim with
        | true => exact ⟨fun hdone => (by cases hdone), hcontent⟩
        | false => exact ended_error hcontent
      -- there is nothing to write, and the call has succeeded already
      | empty hlets hnothing =>
        obtain ⟨g, rfl, hlets⟩ := hlets
        exact ⟨fun _ => ⟨⟨slot, g, hslot, hsame, hlets⟩, .inl ⟨hnothing, hcontent⟩⟩,
          fun hne => absurd rfl hne⟩
      -- the commit goes to the store, while the group stays as it is
      | stored hlets hsomething =>
        obtain ⟨g, rfl, hlets⟩ := hlets
        refine ⟨hslot, ⟨g, hsame, hlets⟩, ?_⟩
        obtain rfl := hcontent
        rw [hcall]
        exact GroupStore.commit_alone hsomething
  | work slot work work' content here step =>
    -- one request of the commit, which goes on with the rest of its run
    rw [here] at ht
    obtain ⟨hslot, hlets, halone⟩ := ht
    cases work with
    | ret result => cases step.2
    | call c k =>
      obtain ⟨r, hexec, hnext⟩ := step
      cases hnext
      exact ⟨rfl, hslot, hlets, fun cs result b hruns => halone (c :: cs) result b (.call hexec hruns)⟩
  | stored slot work content result here step =>
    -- the commit is done: what it has returned is what it has done to the object
    rw [here] at ht
    obtain ⟨hslot, ⟨g, hstate, hlets⟩, halone⟩ := ht
    cases work with
    | call c k =>
      obtain ⟨r, -, hnext⟩ := step
      cases hnext
    | ret returned =>
      obtain ⟨rfl, hnext⟩ := step
      cases hnext
      obtain ⟨hok, herror⟩ := halone [] result w.content (.ret _ _)
      refine ⟨rfl, ?_⟩
      cases result with
      | error e => exact ended_error (herror e rfl)
      | ok _ =>
        refine ⟨fun _ => ⟨⟨slot, g, hslot, ?_, hlets⟩, .inr (hok _ rfl)⟩, fun hne => absurd rfl hne⟩
        simp [Shared.unlock, hstate]
  | reclaim slot outcome here free same idle =>
    -- the last two steps have the outcome, and change no offsets
    rw [here] at ht
    exact ⟨rfl, fun hdone => absurd hdone ht.1, fun _ => ht.2⟩
  | leaveSlot slot outcome here free why =>
    rw [here] at ht
    exact ⟨rfl, fun hdone => absurd hdone ht.1, fun _ => ht.2⟩
  | drop slot outcome here =>
    rw [here] at ht
    exact ⟨rfl, ht.congr rfl rfl fun s => by by_cases hs : s = slot <;> simp [Shared.release, hs]⟩

/-- **One call of `commit`** that nobody interrupts. -/
theorem Proceeds.underway
    {x x' : Shared (self.offsetStore json Faults.none cl).Content ×
      Task (self.offsetStore json Faults.none cl).Work}
    (h : Relation.ReflTransGen (Proceeds (self.offsetStore json Faults.none cl)) x x')
    (hcall : x.2.call = .commit group generationId memberId commits)
    (hx : Underway self json group generationId memberId commits cl start x.1 x.2.point) :
    x'.2.call = x.2.call ∧
      Underway self json group generationId memberId commits cl start x'.1 x'.2.point := by
  induction h with
  | refl => exact ⟨rfl, hx⟩
  | tail _ hproceeds ih =>
    obtain ⟨hsame, hbefore⟩ := ih
    cases hproceeds with
    | move hmoves =>
      obtain ⟨hsame', hafter⟩ := hmoves.underway (hsame.trans hcall) hbefore
      exact ⟨hsame'.trans hsame, hafter⟩
    | tick clock later => exact ⟨hsame, hbefore.tick clock⟩

end Coordinator

/-! ## The handler -/

theorem ResponseError.code_ne_zero (e : ResponseError) : e.code ≠ 0 := by
  cases e <;> decide

theorem logErrorCode_ne_zero (e : LogError) : Wire.logErrorCode e ≠ 0 := by
  cases e <;> simp [Wire.logErrorCode, Wire.invalidRequest]

theorem lookupError_ne_zero {r : Except LogError Bool} {code : Int}
    (h : lookupError r = some code) : code ≠ 0 := by
  rcases r with e | _ | _ <;> cases h
  · exact logErrorCode_ne_zero e
  · exact ResponseError.code_ne_zero _

theorem coordinatorCode_eq_zero {r : Except CoordinatorError Unit} :
    coordinatorCode r = 0 ↔ r = .ok () := by
  rcases r with e | ⟨⟨⟩⟩
  · simpa [coordinatorCode] using ResponseError.code_ne_zero _
  · simp [coordinatorCode]

/-- The position of a key that is committed once. -/
theorem positionIn_mem {commits : List OffsetCommit} {commit : OffsetCommit}
    (hnodup : (commits.map (·.key)).Nodup) (h : commit ∈ commits) :
    positionIn commits commit.key = some commit.position := by
  induction commits with
  | nil => cases h
  | cons first commits ih =>
    obtain ⟨hnew, hrest⟩ := List.nodup_cons.mp hnodup
    rw [positionIn_cons]
    rcases List.mem_cons.mp h with rfl | hmem
    · rw [if_pos rfl]
    · have hne : first.key ≠ commit.key := fun heq =>
        hnew (List.mem_map.mpr ⟨commit, hmem, heq.symm⟩)
      rw [if_neg hne]
      exact ih hrest hmem

namespace Broker

variable {self : Broker} {Client : Type} {cl : Client} {s s' : BrokerState Client}

/-- What the look for the topic of a key finds wrong. -/
def missing (self : Broker) (topics : Bucket Client Body) (key : TopicPartition) : Option Int :=
  lookupError ((self.log key).topicExists.run.eval (frozen (self.log key).crates.size topics.objects))

/-- The loop over the commits sorts them by what is found of their topics, and changes nothing. -/
theorem lookUp_runs {commits valid : List OffsetCommit} {errors : LocalErrors} {asks : List Ask}
    {result : LocalErrors × List OffsetCommit}
    (h : Runs (self.Replies cl) s (lookUp commits errors valid) asks result s') :
    s' = s ∧
      result.2 = valid ++ commits.filter (fun commit => self.missing s.topics commit.key = none) ∧
      ∀ key, result.1[key]? = if key ∈ commits.map (·.key)
        then (self.missing s.topics key).or errors[key]? else errors[key]? := by
  -- each commit is valid or has an error of its own, which the map keeps
  induction commits generalizing errors valid s asks with
  | nil =>
    cases h
    simp
  | cons commit commits ih =>
    simp only [lookUp, Prog.perform_bind] at h
    cases h with
    | @call _ s₁ _ _ _ r _ _ hexec hrest =>
      -- looking up a topic reads, so that the state stays
      obtain ⟨hgroups, cs, hruns⟩ := hexec
      obtain ⟨htopics, rfl⟩ := hruns.eq_eval PartitionLog.topicExists_reads
      obtain rfl : s = s₁ := (BrokerState.ext htopics hgroups).symm
      cases hmissing : self.missing s.topics commit.key with
      | none =>
        simp only [show lookupError _ = none from hmissing] at hrest
        obtain ⟨rfl, hvalid, herrors⟩ := ih hrest
        refine ⟨rfl, ?_, fun key => ?_⟩
        · simp [hvalid, hmissing]
        · rw [herrors]
          by_cases heq : commit.key = key
          · subst heq
            simp [hmissing]
          · simp [Ne.symm heq]
      | some code =>
        -- a later commit for the same key finds the same error
        simp only [show lookupError _ = some code from hmissing] at hrest
        obtain ⟨rfl, hvalid, herrors⟩ := ih hrest
        refine ⟨rfl, ?_, fun key => ?_⟩
        · simp [hvalid, hmissing]
        · rw [herrors, ExtTreeMap.getElem?_insert]
          by_cases heq : commit.key = key
          · subst heq
            simp [hmissing]
          · simp [Ne.symm heq, heq]

/-- What an answer to OffsetCommit says of the group. -/
structure Truthful (broker : Broker) (request : OffsetCommitRequest) (s s' : BrokerState Client)
    (response : OffsetCommitResponse) (errorCode : TopicPartition → Int) : Prop where
  /-- There is one entry for each one of the request, in its order, and one code for each key. -/
  entries : response = request.respond errorCode
  /-- Only the object of the group's offsets can change. -/
  others : s'.topics = s.topics ∧ ∀ path, path ≠ broker.offsets.offsetPath request.groupId →
    s'.groups.content.objects path = s.groups.content.objects path
  /-- Code 0: the names are valid, the topic is there, the caller is a member of the stable
  generation, and the position is stored. -/
  stored : ∀ commit ∈ request.commits, errorCode commit.key = 0 →
    validateComponent request.groupId .group = .ok () ∧ broker.missing s.topics commit.key = none ∧
      s'.groups.Lets request.groupId request.generationIdOrMemberEpoch request.memberId ∧
      ∃ p', Holds broker.json (broker.offsetObject request.groupId s') p' ∧
        p' commit.key = some commit.position
  /-- Everything else stays. -/
  kept : ∀ p, Holds broker.json (broker.offsetObject request.groupId s) p →
    ∃ p', Holds broker.json (broker.offsetObject request.groupId s') p' ∧
      ∀ key, key ∉ request.commits.map (·.key) ∨ errorCode key ≠ 0 → p' key = p key
  /-- Without any code 0 nothing has been written. -/
  silent : (∀ commit ∈ request.commits, errorCode commit.key ≠ 0) →
    s'.groups.content = s.groups.content

/-- An answer without any code 0, after a call that has written nothing. -/
theorem truthful_unchanged {request : OffsetCommitRequest} {errorCode : TopicPartition → Int}
    (htopics : s'.topics = s.topics) (hcontent : s'.groups.content = s.groups.content)
    (hcodes : ∀ commit ∈ request.commits, errorCode commit.key ≠ 0) :
    self.Truthful request s s' (request.respond errorCode) errorCode where
  entries := rfl
  others := ⟨htopics, fun path _ => by rw [hcontent]⟩
  stored := fun commit hcommit hcode => absurd hcode (hcodes commit hcommit)
  kept := fun p hp => ⟨p, by rwa [offsetObject, hcontent], fun _ _ => rfl⟩
  silent := fun _ => hcontent

/-- The answer after a call that has committed what has a topic. -/
theorem truthful_committed {request : OffsetCommitRequest} {errors : LocalErrors}
    {valid : List OffsetCommit} (htopics : s'.topics = s.topics)
    (hvalid : valid = request.commits.filter fun commit => self.missing s.topics commit.key = none)
    (herrors : ∀ key, errors[key]? =
      if key ∈ request.commits.map (·.key) then self.missing s.topics key else none)
    (hlets : s'.groups.Lets request.groupId request.generationIdOrMemberEpoch request.memberId)
    (hcontent : valid = [] ∧ s'.groups.content = s.groups.content ∨
      self.offsets.Commits self.json request.groupId cl s.groups.content valid s'.groups.content) :
    self.Truthful request s s' (request.respond fun key => errors[key]?.getD 0)
      fun key => errors[key]?.getD 0 := by
  -- the code is 0 just for what was handed on
  have hcode : ∀ commit ∈ request.commits, errors[commit.key]?.getD 0 = 0 ↔ commit ∈ valid := by
    intro commit hcommit
    rw [herrors, if_pos (List.mem_map_of_mem hcommit), hvalid, List.mem_filter]
    cases hmissing : self.missing s.topics commit.key with
    | none => simp [hcommit]
    | some code => simp [lookupError_ne_zero hmissing]
  have hnone : (∀ commit ∈ request.commits, errors[commit.key]?.getD 0 ≠ 0) → valid = [] := by
    intro hcodes
    refine List.eq_nil_iff_forall_not_mem.mpr fun commit hmem => ?_
    have hcommit : commit ∈ request.commits := (List.mem_filter.mp (hvalid ▸ hmem)).1
    exact hcodes commit hcommit ((hcode commit hcommit).mpr hmem)
  -- with nothing handed on the object stays as it is, and otherwise it is written once
  rcases hcontent with
    ⟨rfl, hcontent⟩ | ⟨hne, hgroup, hnodup, p, bytes, m, offsets, hp, hwrites, hchange⟩
  · refine truthful_unchanged htopics hcontent fun commit hcommit hzero => ?_
    cases (hcode commit hcommit).mp hzero
  have hafter : Holds self.json (self.offsetObject request.groupId s') (p.override valid) := by
    rw [offsetObject, hchange, Bucket.change]
    simpa using hwrites.holds
  -- the five parts of a truthful answer
  refine ⟨rfl, ⟨htopics, fun path hpath => ?_⟩, fun commit hcommit hzero => ?_, fun p' hp' => ?_,
    fun hcodes => absurd (hnone hcodes) hne⟩
  · rw [hchange, Bucket.change]
    exact Function.update_of_ne hpath ..
  -- an entry with code 0 was written, under the lock of a group that lets the commit through
  · have hmem := (hcode commit hcommit).mp hzero
    have hfiltered := hmem
    rw [hvalid, List.mem_filter] at hfiltered
    have hthere : self.missing s.topics commit.key = none := of_decide_eq_true hfiltered.2
    refine ⟨hgroup, hthere, hlets, _, hafter, ?_⟩
    rw [Positions.override, positionIn_mem hnodup hmem]
    rfl
  -- the positions of the others are kept
  · obtain rfl := hp'.unique hp
    refine ⟨_, hafter, fun key hkey => ?_⟩
    have hother : key ∉ valid.map (·.key) := by
      intro hmem
      obtain ⟨commit, hcommit, rfl⟩ := List.mem_map.mp hmem
      have hrequested : commit ∈ request.commits := (List.mem_filter.mp (hvalid ▸ hcommit)).1
      rcases hkey with hnot | hnonzero
      · exact hnot (List.mem_map_of_mem hrequested)
      · exact hnonzero ((hcode commit hrequested).mpr hcommit)
    rw [Positions.override, positionIn_eq_none hother]
    rfl

/-- **Answers to OffsetCommit are truthful**, whatever is requested, whoever asks, and whatever the
topics, the groups and their offsets are. -/
theorem offsetCommitResponse_truthful {request : OffsetCommitRequest} {asks : List Ask}
    {response : OffsetCommitResponse}
    (h : Runs (self.Replies cl) s (offsetCommitResponse request) asks response s') :
    ∃ errorCode, self.Truthful request s s' response errorCode := by
  unfold offsetCommitResponse at h
  -- an explicit retention time is refused before anything is looked up
  by_cases hretention : request.retentionTimeMs ≠ -1
  · have hcode := ResponseError.code_ne_zero .invalidRequest
    simp only [if_pos hretention, if_neg hcode] at h
    cases h
    refine ⟨fun _ => ResponseError.invalidRequest.code, ?_⟩
    simp only [if_pos hcode]
    exact truthful_unchanged rfl rfl fun _ _ => hcode
  simp only [if_neg hretention, if_true, ne_eq, not_true_eq_false, if_false] at h
  replace h : Runs (self.Replies cl) s (lookUp request.commits ∅ [] >>= fun p => .call
      (.commit request.groupId request.generationIdOrMemberEpoch request.memberId p.2) fun r =>
        .ret (request.respond fun key => if coordinatorCode r ≠ 0 then coordinatorCode r
          else p.1[key]?.getD 0)) asks response s' := h
  -- the loop over the commits comes first, and the coordinator is asked once
  obtain ⟨_, _, ⟨errors, valid⟩, s₀, -, hlook, hcommit⟩ := runs_bind h
  obtain ⟨heq, hvalid, herrors⟩ := lookUp_runs hlook
  obtain rfl : s = s₀ := heq.symm
  simp only [List.nil_append] at hvalid
  cases hcommit with
  | @call _ s₁ _ _ _ r _ _ hexec hrest =>
  cases hrest
  obtain ⟨htopics, generated, hproceeds⟩ := hexec
  obtain ⟨-, hdone, hfailed⟩ :=
    Proceeds.underway hproceeds rfl (rfl : s.groups.content = s.groups.content)
  -- a failure of the coordinator is the code of every entry
  cases r with
  | error e =>
    have hne : coordinatorCode (.error e) ≠ 0 := by simp [coordinatorCode_eq_zero]
    refine ⟨fun _ => coordinatorCode (.error e), ?_⟩
    simp only [if_pos hne]
    exact truthful_unchanged htopics (hfailed fun heq => by cases heq) fun _ _ => hne
  -- the others have the code that the loop has given them
  | ok u =>
    obtain ⟨hlets, hcontent⟩ := hdone rfl
    exact ⟨fun key => errors[key]?.getD 0,
      truthful_committed htopics hvalid (by simpa using herrors) hlets hcontent⟩

end Broker

/-! ## A first answer -/

namespace Reference

def firstBroker : Broker := ⟨Log.Reference.crates, Log.Reference.engine, offsetJson, offsetStore⟩

def firstMember : MemberState where
  protocols := [⟨"range", []⟩]
  assignment := some []
  sessionTimeout := 10
  rebalanceTimeout := 10
  deadline := 10
  joinedRebalance := 1
  joinResult := none

/-- A stable group of one member. -/
def firstGroup : GroupState where
  generationId := 1
  rebalanceId := 1
  phase := .stable
  phaseDeadline := 0
  protocolType := "consumer"
  protocolName := some "range"
  leaderId := "m"
  members := (∅ : Members).insert "m" firstMember

/-- One topic, and that group without positions. -/
def firstState : BrokerState Unit where
  topics := .initial (fun path => if path = Log.Reference.log.topicMetadataPath
    then some (.metadata ⟨topicMetadataSchema, 1⟩) else none) ∅
  groups :=
    { clock := 0, groups := (∅ : ExtTreeMap String Nat compare).insert "g" 0, mapLocked := false,
      slots := fun _ => ⟨"g", some firstGroup, false, 1⟩, fresh := 1, issued := [""],
      content := .initial (fun _ => none) ∅ }

theorem five_le_i64Max : 5 ≤ i64Max := by decide

theorem seven_le_i64Max : 7 ≤ i64Max := by decide

def firstRequest : OffsetCommitRequest where
  groupId := "g"
  generationIdOrMemberEpoch := 1
  memberId := "m"
  retentionTimeMs := -1
  topics := [⟨"t", [⟨0, 5, none, five_le_i64Max⟩]⟩, ⟨"u", [⟨0, 7, none, seven_le_i64Max⟩]⟩]

/-- The topic `u` is not there. -/
def firstResponse : OffsetCommitResponse := ⟨[⟨"t", [⟨0, 0⟩]⟩, ⟨"u", [⟨0, 3⟩]⟩]⟩

theorem firstResponse_runs : ∃ asks s', Runs (firstBroker.Replies ()) firstState
    (offsetCommitResponse firstRequest) asks firstResponse s' := by
  have hsolo : ((offsetCommitResponse firstRequest).solo (firstBroker.answer () "new" 16)
      firstState).any (fun q => decide (q.2.1 = firstResponse)) = true := by
    decide +kernel
  obtain ⟨⟨asks, response, s'⟩, hrun, hresponse⟩ := (Option.any_eq_true _ _).mp hsolo
  obtain rfl : response = firstResponse := of_decide_eq_true hresponse
  exact ⟨asks, s', Broker.solo_runs hrun⟩

/-- One position is committed, and the other one is refused. -/
theorem offsetCommitResponse_truthful_first : ∃ s' errorCode,
    firstBroker.Truthful firstRequest firstState s' firstResponse errorCode := by
  obtain ⟨asks, s', hrun⟩ := firstResponse_runs
  exact ⟨s', Broker.offsetCommitResponse_truthful hrun⟩

end Reference

end Walstream.Group
