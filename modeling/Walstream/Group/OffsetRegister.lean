import Walstream.Group.OffsetMap
import Walstream.Interaction.Alone
import Mathlib.Data.List.Nodup
import Mathlib.Logic.Equiv.List

/-!
# Commits in company

Any number of calls of `commit`, `offsets` and `fetch` on one group. The group's object is a
register: every change of it overrides the positions that were there by those of one whole
commit.
-/

namespace Walstream.Group

open Interaction Log
open Std (ExtTreeMap)

namespace GroupStore

/-! ## Calls -/

/-- A call of a method of the store. -/
inductive Call where
  | commit (commits : List OffsetCommit)
  | offsets
  | fetch (selection : Option (List TopicPartition))

/-- What a call returns. -/
inductive Answer where
  | committed (result : Except GroupError Unit)
  | listed (result : Except GroupError Offsets)
  | fetched (result : Except GroupError (List FetchedOffset))

/-- What a call is to commit. -/
def Call.commits : Call → List OffsetCommit
  | .commit commits => commits
  | .offsets | .fetch _ => []

/-- The call as a program. -/
def Call.program (self : GroupStore) (json : OffsetJson) (group : String) :
    Call → Prog (Cmd Document) Resp Answer
  | .commit commits => do return .committed (← (self.commit json group commits).run)
  | .offsets => do return .listed (← (self.offsets json group).run)
  | .fetch selection => do return .fetched (← (self.fetch json group selection).run)

/-- The positions after the commits of these clients, one after the other. -/
def after {Client : Type} (calls : Client → Call) (p : Positions) (clients : List Client) :
    Positions := clients.foldl (fun p cl => p.override (calls cl).commits) p

/-- A change of the object: the client's commit over what was there. -/
def Overrides {Client : Type} (json : OffsetJson) (calls : Client → Call) (cl : Client)
    (old : Option Document) (new : Document) : Prop :=
  validateCommits (calls cl).commits = .ok () ∧ (calls cl).commits ≠ [] ∧
    ∃ p, Holds json old p ∧ ∃ m offsets, Writes json p (calls cl).commits new m offsets

/-! ## Contents -/

section Contents

variable {Client : Type} {json : OffsetJson} {calls : Client → Call} {path : String}

/-- The content after some changes holds the positions after the commits of their clients. -/
theorem holds_of_linked {es : List (Event Client Document)} {old new : Option Document}
    {p : Positions} (h : Linked path (Overrides json calls) old es new) (hp : Holds json old p) :
    Holds json new (after calls p (es.map (·.client))) := by
  induction es generalizing old p with
  | nil =>
    obtain rfl : old = new := h
    exact hp
  | cons e es ih =>
    obtain ⟨-, -, body, -, ⟨-, -, p', hp', m, offsets, hwrites⟩, hrest⟩ := h
    obtain rfl := hp.unique hp'
    exact ih hrest hwrites.holds

end Contents

/-! ## Calls among others -/

variable {self : GroupStore} {json : OffsetJson} {group : String} {Client : Type}
  {calls : Client → Call} {start : Option Document}

/-- The group's object as a register. -/
abbrev OffsetWorld (self : GroupStore) (json : OffsetJson) (group : String)
    (calls : Client → Call) (start : Option Document) :=
  RegisterWorld (self.offsetPath group) (Overrides json calls) start

/-- Between the worlds `w` and `w'` the object had a content with this manifest. -/
def Met (w w' : OffsetWorld self json group calls start) (loaded : LoadedOffsetManifest) : Prop :=
  ∃ w₁, w ≤ w₁ ∧ w₁ ≤ w' ∧ manifestOf json w₁.content = some loaded.manifest ∧
    loaded.version = w₁.content

/-- Since `s` the object had a content with these offsets. -/
def Seen (s : Bucket Client Document) (w : OffsetWorld self json group calls start)
    (offsets : Offsets) : Prop :=
  ∃ es rest content, w.bucket.history = s.history ++ es ++ rest ∧
    Linked (self.offsetPath group) (Overrides json calls) start (s.history ++ es) content ∧
      Holds json content offsets.positions

theorem Seen.later {s : Bucket Client Document} {w w' : OffsetWorld self json group calls start}
    {offsets : Offsets} (h : Seen s w offsets) (hle : w ≤ w') : Seen s w' offsets := by
  obtain ⟨es, rest, content, hhistory, hlinked⟩ := h
  obtain ⟨more, hmore⟩ := hle
  refine ⟨es, rest ++ more, content, ?_, hlinked⟩
  rw [← hmore, hhistory, List.append_assoc]

theorem Met.seen {w w' : OffsetWorld self json group calls start} {loaded : LoadedOffsetManifest}
    (h : Met w w' loaded) {offsets : Offsets} (hmap : loaded.manifest.offsetMap json = .ok offsets) :
    Seen w.bucket w' offsets := by
  obtain ⟨w₁, ⟨es, hes⟩, ⟨rest, hrest⟩, hm, -⟩ := h
  refine ⟨es, rest, w₁.content, ?_, ?_, _, _, hm, hmap, rfl⟩
  · rw [hes, hrest]
  · rw [hes]
    exact w₁.sound.linked

variable [DecidableEq Client] {f : Faults} {cl : Client}
  {w : OffsetWorld self json group calls start}

/-- Loading meets one content of the object, and uses nothing. -/
theorem ends_load {n : Nat} (hn : w.bucket.uses cl ≤ n) :
    (registerArena _ _ start f List.length cl).Ends (self.load json group) w
      (fun loaded w' => w'.bucket.uses cl ≤ n ∧ Met w w' (loaded.getD .empty))
      (fun _ w' => w'.bucket.uses cl ≤ n) := by
  refine Arena.ends_bind (P := fun r w' => w ≤ w' ∧ w'.bucket.uses cl ≤ n ∧
    Got f List.length w'.bucket (self.offsetPath group) r) (ends_request trivial ?_) ?_
  · rintro w₁ hw₁ huses r w₂ hw₂ ⟨hgot, hbucket⟩
    rw [hbucket]
    exact ⟨hw₁.trans hw₂, huses.trans hn, hgot⟩
  · rintro r w' - ⟨hle, huses, hgot⟩
    -- a body that arrived whole is the content
    have haccept : ∀ {size : Nat} {version : Document} {body : Except StoreError Document},
        (∀ bytes, body = .ok bytes → size = bytes.length ∧ version = bytes ∧
          w'.content = some bytes) →
        (registerArena _ _ start f List.length cl).Ends
          (do return some (← ofResult (acceptOffsets json ⟨size, version, body⟩))) w'
          (fun loaded w' => w'.bucket.uses cl ≤ n ∧ Met w w' (loaded.getD .empty))
          (fun _ w' => w'.bucket.uses cl ≤ n) := by
      intro size version body hbody
      refine Arena.ends_bind (P := fun loaded w' => w'.bucket.uses cl ≤ n ∧ Met w w' loaded)
        (ends_ofResult ?_ fun _ _ => huses) fun loaded w'' _ h => Arena.ends_pure h
      intro loaded hloaded
      have hfacts := acceptOffsets_eq_ok.mp hloaded
      obtain ⟨-, bytes, rfl, -, -, -, hversion⟩ := hfacts
      obtain ⟨rfl, rfl, hcontent⟩ := hbody bytes rfl
      refine ⟨huses, w', hle, le_rfl, ?_, ?_⟩
      · rw [hcontent]
        exact manifestOf_accepted hloaded
      · rw [hcontent, hversion]
    cases hgot with
    | found h =>
      apply haccept
      intro bytes hbytes
      cases hbytes
      exact ⟨rfl, rfl, h⟩
    | missing h => exact Arena.ends_pure ⟨huses, w', hle, le_rfl, congrArg (manifestOf json) h, h.symm⟩
    | interrupted _ h =>
      apply haccept
      intro bytes hbytes
      cases hbytes
    | failed => exact Arena.ends_throw huses

/-- The attempts of a commit: at most one of them writes, an acknowledged one has, and an error
that is not the store's means that none has. -/
theorem ends_commitAttempts (hf : ¬ f.misreport)
    (hcommits : validateCommits (calls cl).commits = .ok ()) (hne : (calls cl).commits ≠ [])
    (attempts : Nat) (hzero : w.bucket.uses cl = 0) :
    (registerArena _ _ start f List.length cl).Ends
      (self.commitAttempts json group (calls cl).commits attempts) w
      (fun _ w' => w'.bucket.uses cl ≤ 1 ∧ ∃ e ∈ w'.bucket.history, e.client = cl)
      (fun e w' => w'.bucket.uses cl ≤ 1 ∧
        ((∃ source, e = .objectStore source) ∨ w'.bucket.uses cl = 0)) := by
  have hstop : ∀ {w' : OffsetWorld self json group calls start} {e : GroupError},
      w'.bucket.uses cl ≤ 0 → w'.bucket.uses cl ≤ 1 ∧
        ((∃ source, e = .objectStore source) ∨ w'.bucket.uses cl = 0) :=
    fun h => ⟨h.trans (Nat.zero_le 1), .inr (Nat.le_zero.mp h)⟩
  induction attempts generalizing w with
  | zero => exact Arena.ends_throw (hstop hzero.le)
  | succ attempts ih =>
    rw [commitAttempts]
    refine Arena.ends_bind (Arena.ends_mono (ends_load hzero.le) (fun _ _ _ h => h)
      fun _ _ _ h => hstop h) ?_
    rintro loaded w₁ - ⟨huses₁, hmet⟩
    obtain ⟨w₀, -, -, hmanifest, hversion⟩ := hmet
    dsimp only
    generalize loaded.getD .empty = loaded at hmanifest hversion
    refine Arena.ends_bind (P := fun bytes w' => loaded.manifest.rewrite json (calls cl).commits =
      .ok bytes ∧ w'.bucket.uses cl ≤ 0) (ends_ofResult (fun bytes h => ⟨h, huses₁⟩)
        fun _ _ => hstop huses₁) ?_
    rintro bytes w₂ - ⟨hbytes, huses₂⟩
    -- wherever the condition holds, the bytes override what is there
    have hstep : ∀ old, (loaded.version.elim .create .update : PutMode Document).Allows old →
        Overrides json calls cl old bytes := by
      intro old hallows
      have hold : old = w₀.content := by
        rw [← hversion]
        cases hloaded : loaded.version with
        | none =>
          rw [hloaded] at hallows
          exact hallows
        | some version =>
          rw [hloaded] at hallows
          exact hallows
      obtain ⟨hschema, offsets, hmap⟩ := manifestOf_valid hmanifest
      obtain ⟨m', offsets', hwrites⟩ := OffsetManifest.rewrite_spec hschema hmap hcommits hbytes
      exact ⟨hcommits, hne, _, ⟨_, _, hold ▸ hmanifest, hmap, rfl⟩, m', offsets', hwrites⟩
    refine Arena.ends_bind (P := fun r w' => w'.bucket.uses cl ≤ 1 ∧
      (∀ body, r = .ok body → ∃ e ∈ w'.bucket.history, e.client = cl) ∧
        ∀ e, r = .error e → e.IsRefusal → w'.bucket.uses cl = 0) (ends_request ⟨rfl, hstep⟩ ?_) ?_
    · rintro w₃ - huses₃ r w₄ - hexec
      have hput : Put f cl w₃.bucket (self.offsetPath group) bytes _ r w₄.bucket := hexec
      have hbefore : w₃.bucket.uses cl = 0 := Nat.le_zero.mp (huses₃.trans huses₂)
      generalize w₄.bucket = b at hput
      cases hput with
      | written _ =>
        refine ⟨?_, fun _ _ =>
          ⟨⟨cl, self.offsetPath group, w₃.bucket.objects, some bytes⟩, by simp, rfl⟩, fun e he => (nomatch he)⟩
        rw [uses_change, hbefore, if_pos rfl]
      | refused _ _ => exact ⟨by omega, fun _ hr => (nomatch hr), fun _ _ _ => hbefore⟩
      | lost _ => exact ⟨by omega, fun _ hr => (nomatch hr), fun _ _ _ => hbefore⟩
      | unacknowledged _ _ =>
        refine ⟨?_, fun _ hr => (nomatch hr), fun e he hrefused => ?_⟩
        · rw [uses_change, hbefore, if_pos rfl]
        · cases he
          exact hrefused.elim
      | delayed _ =>
        refine ⟨?_, fun _ hr => (nomatch hr), fun e he hrefused => ?_⟩
        · rw [uses_send, hbefore]
          split <;> omega
        · cases he
          exact hrefused.elim
      | misreported hmis _ _ => exact absurd hmis hf
      | spurious hmis _ => exact absurd hmis hf
    · rintro (e | body) w₃ - ⟨huses₃, hok, herror⟩
      · cases e with
        | alreadyExists => exact ih (herror _ rfl trivial)
        | precondition => exact ih (herror _ rfl trivial)
        | notFound => exact Arena.ends_throw ⟨huses₃, .inl ⟨_, rfl⟩⟩
        | generic => exact Arena.ends_throw ⟨huses₃, .inl ⟨_, rfl⟩⟩
      · exact Arena.ends_pure ⟨huses₃, hok body rfl⟩

/-- The offsets that are loaded are those of one content. -/
theorem ends_loadOffsets {n : Nat} (hn : w.bucket.uses cl ≤ n) :
    (registerArena _ _ start f List.length cl).Ends (self.loadOffsets json group) w
      (fun offsets w' => w'.bucket.uses cl ≤ n ∧ Seen w.bucket w' offsets)
      (fun _ w' => w'.bucket.uses cl ≤ n) := by
  refine Arena.ends_bind (ends_load hn) ?_
  rintro (_ | loaded) w₁ - ⟨huses, hmet⟩
  · exact Arena.ends_pure ⟨huses, hmet.seen rfl⟩
  · exact ends_ofResult (fun offsets hmap => ⟨huses, hmet.seen hmap⟩) fun _ _ => huses

/-! ## What a call promises -/

/-- What a call that began in `s` has done when it returns. -/
structure Kept {store : GroupStore} {json : OffsetJson} {group : String}
    {start : Option Document} (calls : Client → Call) (cl : Client) (s : Bucket Client Document)
    (answer : Answer) (w : OffsetWorld store json group calls start) : Prop where
  uses_le : w.bucket.uses cl ≤ 1
  acknowledged : answer = .committed (.ok ()) → (calls cl).commits ≠ [] →
    ∃ e ∈ w.bucket.history, e.client = cl
  failed : ∀ e, answer = .committed (.error e) →
    (∃ source, e = .objectStore source) ∨ w.bucket.uses cl = 0
  listed : ∀ offsets, answer = .listed (.ok offsets) → Seen s w offsets
  fetched : ∀ entries, answer = .fetched (.ok entries) → ∃ selection offsets,
    calls cl = .fetch selection ∧ Seen s w offsets ∧ entries = select selection offsets

theorem Kept.later {s : Bucket Client Document} {answer : Answer}
    {w w' : OffsetWorld self json group calls start} (h : Kept calls cl s answer w) (hle : w ≤ w')
    (huses : w'.bucket.uses cl ≤ w.bucket.uses cl) : Kept calls cl s answer w' where
  uses_le := huses.trans h.uses_le
  acknowledged := fun hanswer hne => by
    obtain ⟨e, he, hcl⟩ := h.acknowledged hanswer hne
    exact ⟨e, List.IsPrefix.subset hle he, hcl⟩
  failed := fun e he => (h.failed e he).imp_right fun hzero =>
    Nat.le_zero.mp (huses.trans hzero.le)
  listed := fun offsets ho => (h.listed offsets ho).later hle
  fetched := fun entries he => by
    obtain ⟨selection, offsets, hcall, hseen, hentries⟩ := h.fetched entries he
    exact ⟨selection, offsets, hcall, hseen.later hle, hentries⟩

/-- Every call keeps its promise. -/
theorem wp_program (hf : ¬ f.misreport) (hzero : w.bucket.uses cl = 0) :
    (registerArena _ _ start f List.length cl).wp ((calls cl).program self json group)
      (Kept calls cl w.bucket) w := by
  have hle : w.bucket.uses cl ≤ 0 := hzero.le
  cases hcall : calls cl with
  | commit commits =>
    have hcommits : (calls cl).commits = commits := by rw [hcall]; rfl
    -- a commit that stops before the store has not used it
    have hstop : ∀ {e : GroupError} {w' : OffsetWorld self json group calls start},
        w'.bucket.uses cl ≤ 0 → w'.bucket.uses cl ≤ 1 ∧
          ((∃ source, e = .objectStore source) ∨ w'.bucket.uses cl = 0) :=
      fun h => ⟨h.trans (Nat.zero_le 1), .inr (Nat.le_zero.mp h)⟩
    have hends : (registerArena _ _ start f List.length cl).Ends (self.commit json group commits) w
        (fun _ w' => w'.bucket.uses cl ≤ 1 ∧
          (commits ≠ [] → ∃ e ∈ w'.bucket.history, e.client = cl))
        (fun e w' => w'.bucket.uses cl ≤ 1 ∧
          ((∃ source, e = .objectStore source) ∨ w'.bucket.uses cl = 0)) := by
      unfold commit
      refine Arena.ends_bind (P := fun _ w' => w'.bucket.uses cl = 0)
        (ends_ofResult (fun _ _ => hzero) fun _ _ => hstop hle) fun _ w₁ _ hzero₁ => ?_
      refine Arena.ends_bind (P := fun _ w' => w'.bucket.uses cl = 0 ∧
        validateCommits commits = .ok ()) (ends_ofResult (fun _ hvalid => ⟨hzero₁, hvalid⟩)
          fun _ _ => hstop hzero₁.le) ?_
      rintro _ w₂ - ⟨hzero₂, hvalid⟩
      split
      · rename_i hnil
        exact Arena.ends_pure ⟨hzero₂.le.trans (Nat.zero_le 1), fun hne => absurd hnil hne⟩
      · rename_i hne
        rw [← hcommits] at hvalid hne ⊢
        exact Arena.ends_mono (ends_commitAttempts hf hvalid hne _ hzero₂)
          (fun _ _ _ h => ⟨h.1, fun _ => h.2⟩) fun _ _ _ h => h
    refine Arena.wp_bind (p := (self.commit json group commits).run) (Arena.wp_mono hends ?_)
    rintro (e | _) w' - ⟨huses, hrest⟩
    · refine ⟨huses, fun h => (nomatch h), fun e' he' => ?_, fun _ h => (nomatch h),
        fun _ h => (nomatch h)⟩
      cases he'
      exact hrest
    · exact ⟨huses, fun _ hne => hrest (hcommits ▸ hne), fun _ h => (nomatch h),
        fun _ h => (nomatch h), fun _ h => (nomatch h)⟩
  | offsets =>
    have hends : (registerArena _ _ start f List.length cl).Ends (self.offsets json group) w
        (fun offsets w' => w'.bucket.uses cl ≤ 0 ∧ Seen w.bucket w' offsets)
        (fun _ w' => w'.bucket.uses cl ≤ 0) := by
      refine Arena.ends_bind (P := fun _ w' => w' = w) (ends_ofResult (fun _ _ => rfl) fun _ _ => hle) ?_
      intro _ w₁ _ hw₁
      rw [hw₁]
      exact ends_loadOffsets hle
    refine Arena.wp_bind (p := (self.offsets json group).run) (Arena.wp_mono hends ?_)
    rintro (e | offsets) w' - h
    · exact ⟨h.trans (Nat.zero_le 1), fun h => (nomatch h), fun _ h => (nomatch h),
        fun _ h => (nomatch h), fun _ h => (nomatch h)⟩
    · refine ⟨h.1.trans (Nat.zero_le 1), fun h => (nomatch h), fun _ h => (nomatch h),
        fun offsets' ho => ?_, fun _ h => (nomatch h)⟩
      cases ho
      exact h.2
  | fetch selection =>
    have hends : (registerArena _ _ start f List.length cl).Ends (self.fetch json group selection) w
        (fun entries w' => w'.bucket.uses cl ≤ 0 ∧ ∃ offsets, Seen w.bucket w' offsets ∧
          entries = select selection offsets)
        (fun _ w' => w'.bucket.uses cl ≤ 0) := by
      refine Arena.ends_bind (P := fun _ w' => w' = w) (ends_ofResult (fun _ _ => rfl) fun _ _ => hle) ?_
      intro _ w₁ _ hw₁
      rw [hw₁]
      refine Arena.ends_bind (P := fun _ w' => w' = w) (ends_ofResult (fun _ _ => rfl) fun _ _ => hle) ?_
      intro _ w₂ _ hw₂
      rw [hw₂]
      refine Arena.ends_bind (ends_loadOffsets hle) fun offsets w' _ h => ?_
      exact Arena.ends_pure ⟨h.1, offsets, h.2, rfl⟩
    refine Arena.wp_bind (p := (self.fetch json group selection).run) (Arena.wp_mono hends ?_)
    rintro (e | entries) w' - h
    · exact ⟨h.trans (Nat.zero_le 1), fun h => (nomatch h), fun _ h => (nomatch h),
        fun _ h => (nomatch h), fun _ h => (nomatch h)⟩
    · obtain ⟨huses, offsets, hseen, rfl⟩ := h
      refine ⟨huses.trans (Nat.zero_le 1), fun h => (nomatch h), fun _ h => (nomatch h),
        fun _ h => (nomatch h), fun entries' he => ?_⟩
      cases he
      exact ⟨selection, offsets, hcall, hseen, rfl⟩

/-! ## Calls in company -/

section System

variable (self json group calls)

/-- Calls of the store on one group, in any order of their requests. -/
def service (f : Faults) :
    System Client (Cmd Document) Resp (Bucket Client Document) Answer :=
  storeSystem f List.length fun cl => (calls cl).program self json group

end System

/-- The calls of the store, each with what is left of it. -/
abbrev Calls (Client : Type) := Config Client (Cmd Document) Resp (Bucket Client Document) Answer

/-- The call has returned this. -/
def Returned (cfg : Calls Client) (cl : Client) (answer : Answer) : Prop :=
  ∃ s, cfg.tasks cl = some ⟨s, .ret answer⟩

/-- The clients whose commits have been applied, in this order. -/
def applied (cfg : Calls Client) : List Client := cfg.shared.history.map (·.client)

/-- The configuration is that of the register `w`, and every call keeps its promise. -/
abbrev CallsVerified (self : GroupStore) (json : OffsetJson) (group : String)
    (calls : Client → Call) (f : Faults) (cfg : Calls Client)
    (w : OffsetWorld self json group calls start) : Prop :=
  System.Verified (service self json group calls f) RegisterWorld.bucket
    (registerArena (self.offsetPath group) (Overrides json calls) start f List.length)
    (fun cl w => w.bucket.uses cl = 0) (fun cl s answer w => Kept calls cl s answer w) cfg w

variable {cfg cfg' : Calls Client}

theorem service_steps (hf : ¬ f.misreport) (h : CallsVerified self json group calls f cfg w)
    (hsteps : Relation.ReflTransGen (service self json group calls f).Step cfg cfg') :
    ∃ w', w ≤ w' ∧ CallsVerified self json group calls f cfg' w' := by
  apply register_steps _ _ h hsteps
  · exact fun cl w hzero => wp_program hf hzero
  · exact fun cl s answer w w' hle huses hkept => hkept.later hle huses

theorem service_initial (objects : String → Option Document) (issued : Set Uuid) :
    CallsVerified self json group calls f
      (System.initial (Bucket.initial objects issued : Bucket Client Document))
      ⟨_, register_initial objects issued⟩ := by
  have h : ∀ w₀ : OffsetWorld self json group calls (objects (self.offsetPath group)),
      (∀ cl, w₀.bucket.uses cl = 0) →
      CallsVerified self json group calls f (System.initial w₀.bucket) w₀ :=
    fun w₀ hzero => System.verified_initial hzero
  exact h ⟨_, register_initial objects issued⟩ fun _ => rfl

/-- The store's programs read and write only. -/
theorem program_plain (call : Call) : (call.program self json group).All Cmd.Plain := by
  have hload : Issues Cmd.Plain (self.load json group) := by
    unfold load
    refine issues_bind (issues_lift (Prog.all_perform.mpr trivial)) ?_
    rintro (e | result)
    · cases e <;> trivial
    · exact issues_bind trivial fun _ => trivial
  have hoffsets : Issues Cmd.Plain (self.loadOffsets json group) := by
    -- an attempt reads once and writes once
    refine issues_bind hload ?_
    rintro (_ | loaded) <;> trivial
  have hattempts : ∀ commits attempts,
      Issues Cmd.Plain (self.commitAttempts json group commits attempts) := by
    intro commits attempts
    induction attempts with
    | zero => trivial
    | succ attempts ih =>
      refine issues_bind hload fun loaded => issues_bind trivial fun bytes => ?_
      refine issues_bind (issues_lift (Prog.all_perform.mpr trivial)) ?_
      rintro (e | _)
      -- a refused write is tried again, and any other failure ends the commit
      · cases e
        · trivial
        · exact ih
        · exact ih
        · trivial
      · trivial
  -- what comes before the attempts is decided without the store
  cases call with
  | commit commits =>
    have hcommit : Issues Cmd.Plain (self.commit json group commits) := by
      refine issues_bind trivial fun _ => issues_bind trivial fun _ => ?_
      split
      · trivial
      · exact hattempts commits maxCasAttempts
    exact Prog.all_bind (p := (self.commit json group commits).run) hcommit fun _ => trivial
  | offsets =>
    have hlist : Issues Cmd.Plain (self.offsets json group) := issues_bind trivial fun _ => hoffsets
    exact Prog.all_bind (p := (self.offsets json group).run) hlist fun _ => trivial
  | fetch selection =>
    have hfetch : Issues Cmd.Plain (self.fetch json group selection) :=
      issues_bind trivial fun _ => issues_bind trivial fun _ => issues_bind hoffsets fun _ => trivial
    exact Prog.all_bind (p := (self.fetch json group selection).run) hfetch fun _ => trivial

/-- Nobody's commit is applied twice, and nobody's before its call. -/
theorem CallsVerified.count_le {s : Bucket Client Document}
    (h : CallsVerified self json group calls f cfg w)
    (hreach : (service self json group calls f).Reachable s cfg) (cl : Client) :
    w.bucket.history.countP (·.client = cl) ≤ 1 ∧
      (cfg.tasks cl = none → w.bucket.history.countP (·.client = cl) = 0) := by
  have hmono : ∀ w w' : OffsetWorld self json group calls start, w ≤ w' →
      w'.bucket.history.countP (·.client = cl) ≤ 1 →
        w.bucket.history.countP (·.client = cl) ≤ 1 :=
    fun w w' hle hcount => (List.IsPrefix.sublist hle).countP_le.trans hcount
  cases htask : cfg.tasks cl with
  | none =>
    have hzero : w.bucket.uses cl = 0 := h.pending cl htask
    unfold Bucket.uses at hzero
    exact ⟨by omega, fun _ => by omega⟩
  | some t =>
    refine ⟨?_, fun hnone => (nomatch hnone)⟩
    have hplain := System.reachable_issues (φ := fun _ => Cmd.Plain)
      (fun cl => program_plain (calls cl)) hreach cl t htask
    refine Arena.wp_before (fun c s hc => exists_executes s hc) hmono hplain ?_ (h.tasks cl t htask)
    intro answer w' hkept
    exact (Nat.le_add_right _ _).trans hkept.uses_le

/-! ## One order -/

/-- A read that returns in `cfg'` has taken place after this many commits: not before its call. -/
def Within (cfg cfg' : Calls Client) (cl : Client) (n : Nat) : Prop :=
  n ≤ (applied cfg').length ∧ (cfg.tasks cl = none → (applied cfg).length ≤ n)

/-- What `fetch` is to answer when these are the positions: each selected key in turn, or every
position in key order. -/
def Selects (p : Positions) (entries : List FetchedOffset) :
    Option (List TopicPartition) → Prop
  | some selection => entries = selection.map fun key => ⟨key, p key⟩
  | none => entries.Pairwise (fun a b => compare a.topicPartition b.topicPartition = .lt) ∧
    ∀ entry, entry ∈ entries ↔
      ∃ position, entry.committed = some position ∧ p entry.topicPartition = some position

theorem select_selects (selection : Option (List TopicPartition)) (offsets : Offsets) :
    Selects offsets.positions (select selection offsets) selection := by
  cases selection with
  | some selection => rfl
  | none =>
    refine ⟨?_, ?_⟩
    · rw [select, List.pairwise_map]
      exact ExtTreeMap.ordered_keys_toList
    · rintro ⟨key, committed⟩
      simp only [select, List.mem_map, FetchedOffset.mk.injEq]
      constructor
      · rintro ⟨⟨key', position⟩, hmem, rfl, rfl⟩
        exact ⟨position, rfl, ExtTreeMap.mem_toList_iff_getElem?_eq_some.mp hmem⟩
      · rintro ⟨position, rfl, hposition⟩
        exact ⟨(key, position), ExtTreeMap.mem_toList_iff_getElem?_eq_some.mpr hposition, rfl, rfl⟩

/-- The commits take effect one after the other: `cfg` is a configuration, `cfg'` a later one,
and `p` are the positions before all of them. -/
structure Linear (store : GroupStore) (json : OffsetJson) (group : String)
    (calls : Client → Call) (p : Positions) (cfg cfg' : Calls Client) : Prop where
  /-- The order only grows, by calls that have begun, each once. -/
  grows : applied cfg <+: applied cfg'
  once : (applied cfg').Nodup
  begun : ∀ cl, cfg.tasks cl = none → cl ∉ applied cfg
  /-- Only valid commits are in it. -/
  valid : ∀ cl ∈ applied cfg', (calls cl).commits ≠ [] ∧
    validateCommits (calls cl).commits = .ok ()
  /-- The stored map is that of the commits in this order. -/
  content : Holds json (cfg'.shared.objects (store.offsetPath group))
    (after calls p (applied cfg'))
  /-- Every manifest that was written is accepted, as the map it was to be. -/
  written : ∀ es e rest, cfg'.shared.history = es ++ e :: rest →
    ∃ bytes m offsets, e.path = store.offsetPath group ∧ e.body = some bytes ∧
      Writes json (after calls p (es.map (·.client))) (calls e.client).commits bytes m offsets
  /-- A commit that was acknowledged is in the order. -/
  acknowledged : ∀ cl, Returned cfg' cl (.committed (.ok ())) → (calls cl).commits ≠ [] →
    cl ∈ applied cfg'
  /-- One that failed otherwise than by an error of the store is not. -/
  failed : ∀ cl e, Returned cfg' cl (.committed (.error e)) → cl ∈ applied cfg' →
    ∃ source, e = .objectStore source
  /-- A read is one of the map between its call and its return. -/
  listed : ∀ cl offsets, Returned cfg' cl (.listed (.ok offsets)) →
    ∃ n, Within cfg cfg' cl n ∧ offsets.positions = after calls p ((applied cfg').take n)
  fetched : ∀ cl entries, Returned cfg' cl (.fetched (.ok entries)) →
    ∃ selection n, calls cl = .fetch selection ∧ Within cfg cfg' cl n ∧
      Selects (after calls p ((applied cfg').take n)) entries selection

section Order

variable {w' : OffsetWorld self json group calls start} {p : Positions}

theorem CallsVerified.history_eq (h : CallsVerified self json group calls f cfg w) :
    applied cfg = w.bucket.history.map (·.client) := by
  rw [applied, ← h.shared]

theorem CallsVerified.kept (h : CallsVerified self json group calls f cfg w) {answer : Answer}
    (hreturned : Returned cfg cl answer) :
    ∃ t, cfg.tasks cl = some t ∧ Kept calls cl t.started answer w := by
  obtain ⟨s, hs⟩ := hreturned
  exact ⟨_, hs, h.tasks cl _ hs⟩

/-- What was seen since the call are the positions after some of the commits. -/
theorem CallsVerified.within (hf : ¬ f.misreport) (hstart : Holds json start p)
    (h : CallsVerified self json group calls f cfg w)
    (h' : CallsVerified self json group calls f cfg' w')
    (hlater : Relation.ReflTransGen (service self json group calls f).Step cfg cfg')
    {t : Task (Cmd Document) Resp (Bucket Client Document) Answer}
    (ht : cfg'.tasks cl = some t) {offsets : Offsets} (hseen : Seen t.started w' offsets) :
    ∃ n, Within cfg cfg' cl n ∧ offsets.positions = after calls p ((applied cfg').take n) := by
  obtain ⟨es, rest, content, hhistory, hlinked, hholds⟩ := hseen
  refine ⟨(t.started.history ++ es).length, ⟨?_, ?_⟩, ?_⟩
  · rw [h'.history_eq, hhistory]
    simp
  · intro hnone
    obtain ⟨cfg₁, hsteps, hstarted⟩ := System.started_after hlater hnone ht
    obtain ⟨w₁, hle, h₁⟩ := service_steps hf h hsteps
    have hprefix : w.bucket.history <+: t.started.history := by
      rw [hstarted, ← h₁.shared]
      exact hle
    rw [h.history_eq, List.length_map, List.length_append]
    exact hprefix.length_le.trans (Nat.le_add_right _ _)
  · rw [h'.history_eq, hhistory, List.map_append, List.take_left' (by simp)]
    exact hholds.unique (holds_of_linked hlinked hstart)

end Order

/-- **Committed offsets are a linearizable map**: whatever the order of the requests, and
whatever requests fail, the commits that take effect do so whole and one after the other,
between their calls and their returns, and every read is one of the map at such a moment. -/
theorem offsets_linearizable {objects : String → Option Document} {issued : Set Uuid}
    {p : Positions} (hf : ¬ f.misreport)
    (hstart : Holds json (objects (self.offsetPath group)) p)
    (hreach : (service self json group calls f).Reachable (Bucket.initial objects issued) cfg)
    (hlater : Relation.ReflTransGen (service self json group calls f).Step cfg cfg') :
    Linear self json group calls p cfg cfg' := by
  obtain ⟨w, -, hver⟩ := service_steps hf (service_initial objects issued) hreach
  obtain ⟨w', hle, hver'⟩ := service_steps hf hver hlater
  have hreach' := hreach.trans hlater
  have happlied := hver.history_eq
  have happlied' := hver'.history_eq
  have hlinked := w'.sound.linked
  refine ⟨?_, ?_, ?_, ?_, ?_, ?_, ?_, ?_, ?_, ?_⟩
  -- the history of the later configuration begins with that of the earlier one
  · rw [happlied, happlied']
    exact hle.map _
  -- a commit changes the object at most once
  · rw [happlied', List.nodup_iff_count_le_one]
    intro cl
    have hcount := (hver'.count_le hreach' cl).1
    rw [List.count, List.countP_map]
    exact (List.countP_congr fun e _ => by simp).le.trans hcount
  -- who has not been called has changed nothing
  · intro cl hnone hmem
    have hcount := (hver.count_le hreach cl).2 hnone
    rw [List.countP_eq_zero] at hcount
    rw [happlied] at hmem
    obtain ⟨e, he, rfl⟩ := List.mem_map.mp hmem
    exact hcount e he (by simp)
  -- what is committed was valid, and not empty
  · intro cl hmem
    rw [happlied'] at hmem
    obtain ⟨e, he, rfl⟩ := List.mem_map.mp hmem
    obtain ⟨body, -, hvalid, hne, -⟩ := hlinked.step he
    exact ⟨hne, hvalid⟩
  -- the object holds what the commits so far have made of the start
  · rw [← hver'.shared, happlied']
    exact holds_of_linked hlinked hstart
  -- every change writes the positions of the one before it together with its own
  · intro es e rest hhistory
    rw [← hver'.shared] at hhistory
    rw [hhistory, linked_append] at hlinked
    obtain ⟨mid, hbefore, hpath, -, bytes, hbytes, ⟨-, -, p', hp', m, offsets, hwrites⟩, -⟩ := hlinked
    obtain rfl := (holds_of_linked hbefore hstart).unique hp'
    exact ⟨bytes, m, offsets, hpath, hbytes, hwrites⟩
  -- an acknowledged commit is among the changes
  · intro cl hreturned hne
    obtain ⟨t, -, hkept⟩ := hver'.kept hreturned
    obtain ⟨e, he, rfl⟩ := hkept.acknowledged rfl hne
    rw [happlied']
    exact List.mem_map_of_mem he
  -- a commit that failed for its own reasons is not
  · intro cl e hreturned hmem
    obtain ⟨t, -, hkept⟩ := hver'.kept hreturned
    refine (hkept.failed e rfl).resolve_right fun hzero => ?_
    rw [happlied'] at hmem
    obtain ⟨e', he', rfl⟩ := List.mem_map.mp hmem
    have hcount : w'.bucket.history.countP (·.client = e'.client) = 0 := by
      unfold Bucket.uses at hzero
      omega
    rw [List.countP_eq_zero] at hcount
    exact hcount e' he' (by simp)
  -- reads tell what the map was at a moment of their call
  · intro cl offsets hreturned
    obtain ⟨t, ht, hkept⟩ := hver'.kept hreturned
    exact CallsVerified.within hf hstart hver hver' hlater ht (hkept.listed offsets rfl)
  · intro cl entries hreturned
    obtain ⟨t, ht, hkept⟩ := hver'.kept hreturned
    obtain ⟨selection, offsets, hcall, hseen, rfl⟩ := hkept.fetched entries rfl
    obtain ⟨n, hwithin, hpositions⟩ := CallsVerified.within hf hstart hver hver' hlater ht hseen
    refine ⟨selection, n, hcall, hwithin, ?_⟩
    rw [← hpositions]
    exact select_selects selection offsets

end GroupStore

/-! ## A commit and a fetch -/

namespace Reference

open Walstream.Log.Reference (ascii)

/-- The data of a manifest, without texts. -/
abbrev ManifestData := ℕ × ℕ × List (List ℕ × ℤ × ℤ × Option (List ℕ))

def codes (text : String) : List ℕ := text.toList.map Char.toNat

def fromCodes (codes : List ℕ) : String := String.ofList (codes.map Char.ofNat)

theorem fromCodes_codes (text : String) : fromCodes (codes text) = text := by
  simp [fromCodes, codes, Function.comp_def]

def manifestData (m : OffsetManifest) : ManifestData :=
  (m.schema, m.revision, m.offsets.map fun entry =>
    (codes entry.topic, entry.partition, entry.offset, entry.metadata.map codes))

def entryFrom (data : List ℕ × ℤ × ℤ × Option (List ℕ)) : Except String OffsetEntry :=
  if h : data.2.2.1 ≤ i64Max then
    .ok ⟨fromCodes data.1, data.2.1, data.2.2.1, data.2.2.2.map fromCodes, h⟩
  else .error "invalid value"

def parsedFrom (data : ManifestData) : ParsedManifest :=
  ⟨data.1, data.2.1, none, data.2.2.map entryFrom⟩

theorem parsedFrom_manifestData (m : OffsetManifest) :
    parsedFrom (manifestData m) = ⟨m.schema, m.revision, none, m.offsets.map .ok⟩ := by
  have hentry : ∀ entry : OffsetEntry, entryFrom (codes entry.topic, entry.partition,
      entry.offset, entry.metadata.map codes) = .ok entry := by
    intro entry
    have hmetadata : (entry.metadata.map codes).map fromCodes = entry.metadata := by
      rw [Option.map_map, show fromCodes ∘ codes = id from funext fromCodes_codes, Option.map_id]
      rfl
    simp only [entryFrom, dif_pos entry.offset_i64, fromCodes_codes, hmetadata]
  simp only [parsedFrom, manifestData, List.map_map]
  congr 1
  exact List.map_congr_left fun entry _ => hentry entry

/-- The manifest after the first commit. -/
def firstManifest : OffsetManifest := ⟨1, 1, [⟨"t", 0, 5, none, by decide⟩]⟩

/-- That manifest as JSON. -/
def firstText : Document := ascii
  "\x7b\"schema\":1,\"revision\":1,\"offsets\":[\x7b\"topic\":\"t\",\"partition\":0,\"offset\":5,\"metadata\":null\x7d]\x7d"

/-- A writer that is `serde_json` on the first manifest. Any other one it numbers, and counts
the number out in bytes that no text begins with. -/
def offsetJson : OffsetJson where
  toVec m :=
    if m = firstManifest then firstText
    else List.replicate (Encodable.encode (manifestData m)) 0
  parse bytes :=
    if bytes = firstText then .ok (parsedFrom (manifestData firstManifest))
    else match (Encodable.decode bytes.length : Option ManifestData) with
      | some data => .ok (parsedFrom data)
      | none => .error "expected value"
  located _ message := message
  debug text := "\"" ++ text ++ "\""
  parse_toVec m _ _ _ := by
    by_cases hm : m = firstManifest
    · rw [if_pos hm, if_pos rfl, hm, parsedFrom_manifestData]
    · have hne : List.replicate (Encodable.encode (manifestData m)) 0 ≠ firstText := by
        intro heq
        have hfirst : (123 : UInt8) ∈ firstText := by decide
        rw [← heq] at hfirst
        exact absurd (List.eq_of_mem_replicate hfirst) (by decide)
      rw [if_neg hm, if_neg hne, List.length_replicate, Encodable.encodek]
      exact congrArg Except.ok (parsedFrom_manifestData m)

def offsetStore : GroupStore where
  keyPrefix := "c"
  prefix_valid := by decide +kernel

/-- One client commits a position, the other one reads all of them. -/
def offsetCalls : Bool → GroupStore.Call
  | false => .commit [⟨"t", 0, 5, none, by decide⟩]
  | true => .fetch none

def acknowledges : GroupStore.Answer → Bool
  | .committed (.ok _) => true
  | _ => false

def entriesOf : GroupStore.Answer → Option (List FetchedOffset)
  | .fetched (.ok entries) => some entries
  | _ => none

/-- What a call of these does alone. -/
abbrev soloCall (cl : Bool) (b : Bucket Bool Document) :=
  ((offsetCalls cl).program offsetStore offsetJson "g").solo (Bucket.reply List.length cl) b

theorem soloCall_runs {cl : Bool} {b b' : Bucket Bool Document} {cs : List (Cmd Document)}
    {answer : GroupStore.Answer} (h : soloCall cl b = some (cs, answer, b')) :
    Runs (Bucket.Executes Faults.none List.length cl) b
      ((offsetCalls cl).program offsetStore offsetJson "g") cs answer b' := by
  have hreply : ∀ (c : Cmd Document) b r b', Bucket.reply List.length cl c b = some (r, b') →
      Bucket.Executes Faults.none List.length cl c b r b' :=
    fun _ _ _ _ => Bucket.executes_of_reply
  exact Prog.solo_runs hreply h

/-- The position that is committed and found. -/
def firstEntry : FetchedOffset := ⟨⟨"t", 0⟩, some ⟨5, none, by decide⟩⟩

/-- A commit, and then a fetch that finds it. -/
theorem offsets_linearizable_pair : ∃ cfg cfg' : GroupStore.Calls Bool,
    GroupStore.Returned cfg false (.committed (.ok ())) ∧
    GroupStore.Returned cfg' true (.fetched (.ok [firstEntry])) ∧
    GroupStore.Linear offsetStore offsetJson "g" offsetCalls (fun _ => none) cfg cfg' := by
  let b₀ : Bucket Bool Document := .initial (fun _ => none) ∅
  -- one client after the other, evaluated
  have hsolo : (soloCall false b₀).any (fun first => acknowledges first.2.1 &&
      (soloCall true first.2.2).any fun second => decide (entriesOf second.2.1 = some [firstEntry]))
        = true := by
    decide +kernel
  obtain ⟨⟨cs, answer, b₁⟩, hcommit, hcheck⟩ := (Option.any_eq_true _ _).mp hsolo
  obtain ⟨hacknowledged, hsecond⟩ := (Bool.and_eq_true _ _).mp hcheck
  obtain ⟨⟨cs', answer', b₂⟩, hfetch, hentries⟩ := (Option.any_eq_true _ _).mp hsecond
  obtain rfl : answer = .committed (.ok ()) := by
    cases answer with
    | committed result =>
      cases result with
      | ok _ => rfl
      | error e => cases hacknowledged
    | listed result => cases hacknowledged
    | fetched result => cases hacknowledged
  obtain rfl : answer' = .fetched (.ok [firstEntry]) := by
    have hentries := of_decide_eq_true hentries
    cases answer' with
    | committed result => cases hentries
    | listed result => cases hentries
    | fetched result =>
      cases result with
      | ok entries =>
        obtain rfl := Option.some.inj hentries
        rfl
      | error e => cases hentries
  -- the two runs make up two configurations of the service
  let cfg : GroupStore.Calls Bool :=
    ⟨b₁, Function.update (fun _ => none) false (some ⟨b₀, .ret (.committed (.ok ()))⟩)⟩
  have hreach : (GroupStore.service offsetStore offsetJson "g" offsetCalls Faults.none).Reachable b₀ cfg :=
    System.steps_of_runs rfl (soloCall_runs hcommit)
  have hnone : cfg.tasks true = none := rfl
  have hlater := System.steps_of_runs
    (Y := GroupStore.service offsetStore offsetJson "g" offsetCalls Faults.none) hnone
    (soloCall_runs hfetch)
  have hstart : Holds offsetJson (none : Option Document) (fun _ => none) := ⟨_, ∅, rfl, rfl, rfl⟩
  exact ⟨cfg, _, ⟨_, rfl⟩, ⟨_, rfl⟩,
    GroupStore.offsets_linearizable (fun h => h) hstart hreach hlater⟩

end Reference

end Walstream.Group
