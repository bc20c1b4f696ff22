import Walstream.Group.Invariants
import Mathlib.Data.List.Nodup

/-!
# Generations

What a group is for: its members agree on one generation after the other, and in each of them a
leader gives every member an assignment. An `Era` is a group from its first join until nobody is
left, as clients see it: the generations that were completed, the submissions that were taken, and
what joins and syncs were answered. `Era.Agrees` says that the answers fit together.

Below are the steps that a group takes from one state to the next (`Follows`), and that the era
keeps up with each of them (`Era.Reflects`).
-/

namespace Walstream.Group

open Interaction Log
open Std (ExtTreeMap)

/-! ## Eras -/

/-- A generation: its members with what they offer, their leader, and the protocol selected. -/
structure Generation where
  number : Int
  leader : String
  protocol : String
  members : ExtTreeMap String (List JoinProtocol) compare

namespace Generation

/-- Every member, with its metadata for the protocol. -/
def roster (γ : Generation) : List JoinMember :=
  γ.members.toList.map fun p =>
    ⟨p.1, ((p.2.find? fun protocol => protocol.name == γ.protocol).map (·.metadata)).getD []⟩

/-- What a member is told of its generation: only the leader is told of the others. -/
def outcome (γ : Generation) (id : String) : JoinOutcome where
  generationId := γ.number
  protocolName := γ.protocol
  leaderId := γ.leader
  memberId := id
  members := if id = γ.leader then γ.roster else []

end Generation

/-- The assignments that a leader has given to its generation. -/
structure Submission where
  number : Int
  leader : String
  assignments : List SyncAssignment

/-- A group as its clients see it, the latest first. -/
structure Era where
  generations : List Generation
  submissions : List Submission
  /-- Who has joined, and what it was told. -/
  joins : List (String × JoinOutcome)
  /-- Who has synced with which generation, and what it was assigned. -/
  syncs : List (Int × SyncAssignment)

namespace Era

/-- Nothing has happened yet. -/
def start : Era := ⟨[], [], [], []⟩

/-- The answers of an era fit together. -/
structure Agrees (era : Era) : Prop where
  /-- Generation numbers increase. -/
  increasing : era.generations.Pairwise fun later earlier => earlier.number < later.number
  leads : ∀ γ ∈ era.generations, γ.leader ∈ γ.members
  /-- Every member of a generation offers its protocol. -/
  offered : ∀ γ ∈ era.generations, ∀ (id : String) protocols, γ.members[id]? = some protocols →
    offers protocols γ.protocol = true
  /-- A join is told the outcome of a generation for a member of it, the caller. -/
  joined : ∀ p ∈ era.joins, ∃ γ ∈ era.generations, p.1 ∈ γ.members ∧ p.2 = γ.outcome p.1
  /-- A generation has at most one submission. -/
  once : era.submissions.Pairwise fun later earlier => earlier.number < later.number
  /-- It comes from the leader, with exactly one assignment for each member. -/
  exact : ∀ x ∈ era.submissions, ∃ γ ∈ era.generations, γ.number = x.number ∧
    γ.leader = x.leader ∧ (x.assignments.map (·.memberId)).Nodup ∧
      ∀ id, id ∈ x.assignments.map (·.memberId) ↔ id ∈ γ.members
  /-- A sync is told what the submission to its generation assigns to the caller. -/
  synced : ∀ q ∈ era.syncs, ∃ x ∈ era.submissions, x.number = q.1 ∧ q.2 ∈ x.assignments

variable {era : Era}

/-- A generation is known by its number. -/
theorem Agrees.generation_eq (h : era.Agrees) {γ δ : Generation} (hγ : γ ∈ era.generations)
    (hδ : δ ∈ era.generations) (heq : γ.number = δ.number) : γ = δ := by
  have hnodup : (era.generations.map (·.number)).Nodup :=
    List.pairwise_map.mpr (h.increasing.imp fun hlt => (ne_of_lt hlt).symm)
  exact List.inj_on_of_nodup_map hnodup hγ hδ heq

/-- So is its submission. -/
theorem Agrees.submission_eq (h : era.Agrees) {x y : Submission} (hx : x ∈ era.submissions)
    (hy : y ∈ era.submissions) (heq : x.number = y.number) : x = y := by
  have hnodup : (era.submissions.map (·.number)).Nodup :=
    List.pairwise_map.mpr (h.once.imp fun hlt => (ne_of_lt hlt).symm)
  exact List.inj_on_of_nodup_map hnodup hx hy heq

/-- What two joins of one generation are told is the same, but for the list of the members. -/
theorem Agrees.joins_agree (h : era.Agrees) {p q : String × JoinOutcome} (hp : p ∈ era.joins)
    (hq : q ∈ era.joins) (heq : p.2.generationId = q.2.generationId) :
    p.2.leaderId = q.2.leaderId ∧ p.2.protocolName = q.2.protocolName := by
  obtain ⟨γ, hγ, -, houtcome⟩ := h.joined p hp
  obtain ⟨δ, hδ, -, houtcome'⟩ := h.joined q hq
  rw [houtcome, houtcome'] at heq ⊢
  rw [h.generation_eq hγ hδ heq]
  exact ⟨rfl, rfl⟩

/-- What two syncs of one generation are told comes from one submission. -/
theorem Agrees.syncs_agree (h : era.Agrees) {q q' : Int × SyncAssignment} (hq : q ∈ era.syncs)
    (hq' : q' ∈ era.syncs) (heq : q.1 = q'.1) :
    ∃ x ∈ era.submissions, q.2 ∈ x.assignments ∧ q'.2 ∈ x.assignments := by
  obtain ⟨x, hx, hnumber, hmem⟩ := h.synced q hq
  obtain ⟨y, hy, hnumber', hmem'⟩ := h.synced q' hq'
  obtain rfl := h.submission_eq hx hy (hnumber.trans (heq.trans hnumber'.symm))
  exact ⟨x, hx, hmem, hmem'⟩

/-! ### What happens in an era -/

/-- A generation is completed. -/
def complete (era : Era) (γ : Generation) : Era :=
  { era with generations := γ :: era.generations }

/-- The submission of a leader is taken. -/
def submit (era : Era) : Option Submission → Era
  | none => era
  | some x => { era with submissions := x :: era.submissions }

/-- An operation answers its client after this section. -/
def answer (era : Era) : Stage → Except Halt Next → Era
  | .await id _, .ok (.reply (.ok (.joined outcome)) _) =>
    { era with joins := (id, outcome) :: era.joins }
  | .sync number id _ _, .ok (.reply (.ok (.synced assignment)) _) =>
    { era with syncs := (number, ⟨id, assignment⟩) :: era.syncs }
  | _, _ => era

end Era

/-! ## Groups -/

/-- The generation of a group that has completed its rebalance. -/
def GroupState.charter (g : GroupState) : Generation where
  number := g.generationId
  leader := g.leaderId
  protocol := g.protocolName.getD ""
  members := g.members.map fun _ member => member.protocols

/-- The era shows the group as it is now. -/
structure Era.Reflects (era : Era) (g : GroupState) : Prop where
  past : ∀ γ ∈ era.generations, γ.number ≤ g.generationId
  current : g.phase ≠ .joining → g.charter ∈ era.generations
  awaiting : g.phase = .awaitingSync → ∀ x ∈ era.submissions, x.number < g.generationId
  stable : g.phase = .stable → ∃ x ∈ era.submissions, x.number = g.generationId ∧
    ∀ (id : String) m, g.members[id]? = some m → ∃ assignment, m.assignment = some assignment ∧
      ⟨id, assignment⟩ ∈ x.assignments

/-- How the group of a slot goes on, with the submission that it takes. -/
inductive Follows : Option Submission → GroupState → GroupState → Prop where
  /-- Members are heard of, and nothing else. -/
  | same {g k : GroupState} (generation : k.generationId = g.generationId)
      (phase : k.phase = g.phase) (charter : k.charter = g.charter)
      (assigned : ∀ (id : String) m, k.members[id]? = some m →
        ∃ m', g.members[id]? = some m' ∧ m.assignment = m'.assignment) : Follows none g k
  /-- There is a rebalance. -/
  | joining {g k : GroupState} (generation : k.generationId = g.generationId)
      (phase : k.phase = .joining) : Follows none g k
  /-- The rebalance is complete. -/
  | completed {g k : GroupState} (generation : k.generationId = g.generationId + 1)
      (before : g.phase = .joining) (phase : k.phase = .awaitingSync) : Follows none g k
  /-- The leader has submitted the assignments. -/
  | installed {g k : GroupState} (assignments : List SyncAssignment)
      (generation : k.generationId = g.generationId) (before : g.phase = .awaitingSync)
      (phase : k.phase = .stable) (charter : k.charter = g.charter)
      (nodup : (assignments.map (·.memberId)).Nodup)
      (exact : ∀ id, id ∈ assignments.map (·.memberId) ↔ id ∈ g.members)
      (assigned : ∀ (id : String) m, k.members[id]? = some m → ∃ assignment,
        m.assignment = some assignment ∧ ⟨id, assignment⟩ ∈ assignments) :
      Follows (some ⟨g.generationId, g.leaderId, assignments⟩) g k

theorem Follows.refl (g : GroupState) : Follows none g g :=
  .same rfl rfl rfl fun _ m hid => ⟨m, hid, rfl⟩

variable {now : Nat} {assigned : String} {stage : Stage} {g k : GroupState} {r : Except Halt Next}

/-- A change of the members that keeps who they are and what they offer. -/
theorem GroupState.Mapped.charter {f : String → MemberState → MemberState} (hmap : g.Mapped k f)
    (hgeneration : k.generationId = g.generationId) (hname : k.protocolName = g.protocolName) :
    k.charter = g.charter := by
  have hmembers : (k.members.map fun _ member => member.protocols) =
      g.members.map fun _ member => member.protocols := by
    apply ExtTreeMap.ext_getElem?
    intro id
    rw [ExtTreeMap.getElem?_map, ExtTreeMap.getElem?_map, hmap.members, ExtTreeMap.getElem?_map,
      Option.map_map]
    congr 1
    funext m
    exact hmap.protocols id m
  unfold GroupState.charter
  rw [hmembers, hmap.leaderId, hgeneration, hname]

/-! ### Sections -/

theorem Follows.touch (id : String) : Follows none g (g.touch now id) := by
  refine .same rfl rfl (GroupState.touch_mapped.charter rfl rfl) fun id' m hid => ?_
  obtain ⟨m', hm', rfl⟩ := GroupState.touch_getElem?.mp hid
  refine ⟨m', hm', ?_⟩
  split <;> rfl

/-- The leader is heard of when its submission is taken. -/
theorem Follows.installed_touch {id : String} {assignments : List SyncAssignment}
    {installed : ExtTreeMap String (List UInt8) compare} (hphase : g.phase = .awaitingSync)
    (hexact : exactAssignments g assignments = .ok installed) :
    Follows (some ⟨g.generationId, g.leaderId, assignments⟩) g
      ((g.install now installed).touch now id) := by
  obtain ⟨hnodup, hmem⟩ := exactAssignments_exact hexact
  have hcharter : ((g.install now installed).touch now id).charter = g.charter :=
    (GroupState.touch_mapped.charter rfl rfl).trans (GroupState.install_mapped.charter rfl rfl)
  refine .installed assignments rfl hphase rfl hcharter hnodup (fun id' => ?_) fun id' m hid => ?_
  · rw [← exactAssignments_getElem? hexact, ExtTreeMap.mem_iff_exists, List.mem_map]
    constructor
    · rintro ⟨a, ha, rfl⟩
      exact ⟨a.assignment, (hmem _ _).mpr ha⟩
    · rintro ⟨assignment, ha⟩
      exact ⟨⟨id', assignment⟩, (hmem _ _).mp ha, rfl⟩
  · obtain ⟨m₁, hm₁, rfl⟩ := GroupState.touch_getElem?.mp hid
    obtain ⟨m₀, assignment, -, hassignment, rfl⟩ := (GroupState.install_getElem? hexact).mp hm₁
    refine ⟨assignment, ?_, (hmem _ _).mp hassignment⟩
    split <;> rfl

/-- `advance_group` takes no submission. -/
theorem Advanced.follows {r : Except Halt Bool} (h : Advanced now g r (some k)) :
    Follows none g k := by
  cases h with
  | idle phase live time => exact .refl g
  | restarted phase left why => exact .joining (by simp [GroupState.restarted]) rfl
  | waiting changed phase laggard => exact .joining (by simp) (by simpa using phase)
  | completed name phase left joined room offered =>
    exact .completed (by simp [GroupState.finalized, GroupState.announce, GroupState.generation])
      phase rfl
  | exhausted phase left joined full => exact .joining (by simp) (by simpa using phase)

/-- The submission that is taken by a section after its `advance_group`. -/
def Stage.submission (stage : Stage) (g k : GroupState) : Option Submission :=
  match stage with
  | sync number id assignments _ =>
    if g.phase = .awaitingSync ∧ k.phase = .stable then some ⟨number, id, assignments⟩ else none
  | _ => none

theorem Stage.submission_of_phase (h : k.phase = g.phase) : stage.submission g k = none := by
  unfold submission
  split
  · rw [h, if_neg]
    intro ⟨hawaiting, hstable⟩
    rw [hawaiting] at hstable
    cases hstable
  · rfl

theorem Stage.submission_taken {number : Int} {id : String} {assignments : List SyncAssignment}
    {submitted : Bool} (hbefore : g.phase = .awaitingSync) (hphase : k.phase = .stable) :
    (Stage.sync number id assignments submitted).submission g k =
      some ⟨number, id, assignments⟩ := if_pos ⟨hbefore, hphase⟩

/-- How a section changes a group after its `advance_group`. -/
theorem Stage.Done.follows (h : Done now assigned stage (some g) r (some k)) :
    Follows (stage.submission g k) g k := by
  -- a section that leaves the group alone takes no submission
  have hsame : Follows (stage.submission g g) g g := by
    rw [submission_of_phase rfl]
    exact .refl g
  cases h with
  -- a join leads into a rebalance of the same generation
  | enter entered =>
    cases entered with
    | rejected e why => exact hsame
    | full new why => exact hsame
    | accepted fits room =>
      refine .joining ?_ GroupState.rejoining_phase
      show (g.rejoining now).generationId = g.generationId
      unfold GroupState.rejoining
      split <;> rfl
  | settle => exact hsame
  | await awaited => exact hsame
  | sync synced =>
    cases synced with
    | rejected e => exact hsame
    -- the leader's assignments are the one submission of the generation
    | installed installed first active phase leader exact told =>
      obtain ⟨-, -, hgeneration⟩ := activeGroup_spec active
      subst hgeneration leader
      have hstable : ((g.install now installed).touch now g.leaderId).phase = .stable := rfl
      rw [submission_taken phase hstable]
      exact .installed_touch phase exact
    | heard first active phase told =>
      rw [submission_of_phase (show (g.touch now _).phase = g.phase from rfl)]
      exact .touch _
    | looked again active phase told => exact hsame
  | heartbeat beaten =>
    cases beaten with
    | rejected e why => exact hsame
    | heard active => exact .touch _
  | leave left =>
    -- whoever leaves leads into a rebalance, or completes it for the others
    cases left with
    | stranger absent => exact hsame
    | waiting member phase laggard =>
      exact .joining (by simp [GroupState.without]) (by simpa [GroupState.without] using phase)
    | completed name member phase left joined room offered =>
      exact .completed (by simp [GroupState.finalized, GroupState.announce, GroupState.generation,
        GroupState.without]) phase rfl
    | exhausted member phase left joined full =>
      exact .joining (by simp [GroupState.without]) (by simpa [GroupState.without] using phase)
    | restarted member phase left =>
      exact .joining (by simp [GroupState.restarted, GroupState.without]) rfl
  | commit committing => exact hsame

/-! ## The era goes on -/

/-- The group goes on from one state to the next. -/
def Era.pass (era : Era) (x : Option Submission) (g k : GroupState) : Era :=
  Era.submit (if g.phase = .joining ∧ k.phase ≠ .joining then era.complete k.charter else era) x

section Passing

variable {era : Era} {x : Option Submission}

theorem Era.pass_of_same (h : ¬ (g.phase = .joining ∧ k.phase ≠ .joining)) :
    era.pass x g k = era.submit x := by
  rw [pass, if_neg h]

/-- A new generation fits the older ones. -/
theorem Era.Agrees.complete (h : era.Agrees) (hreflects : era.Reflects g)
    (hgeneration : k.generationId = g.generationId + 1) (hk : k.Valid)
    (hphase : k.phase ≠ .joining) : (era.complete k.charter).Agrees where
  increasing := List.pairwise_cons.mpr ⟨fun γ hγ => by
    have hle := hreflects.past γ hγ
    show γ.number < k.generationId
    omega, h.increasing⟩
  leads := fun γ hγ => by
    -- the new generation is led by a member, as the state that completed says
    rcases List.mem_cons.mp hγ with rfl | hγ
    · exact ExtTreeMap.mem_map.mpr hk.leader
    · exact h.leads γ hγ
  offered := fun γ hγ id protocols hid => by
    rcases List.mem_cons.mp hγ with rfl | hγ
    -- the protocol chosen for the new generation is one that every member announced
    · obtain ⟨name, hname⟩ := hk.announced hphase
      obtain ⟨m, hm, rfl⟩ := Option.map_eq_some_iff.mp (ExtTreeMap.getElem?_map.symm.trans hid)
      show offers m.protocols (k.protocolName.getD "") = true
      rw [hname.name]
      exact hname.offered id m hm
    · exact h.offered γ hγ id protocols hid
  -- what was recorded of older generations stays
  joined := fun p hp => by
    obtain ⟨γ, hγ, hrest⟩ := h.joined p hp
    exact ⟨γ, List.mem_cons_of_mem _ hγ, hrest⟩
  once := h.once
  exact := fun y hy => by
    obtain ⟨γ, hγ, hrest⟩ := h.exact y hy
    exact ⟨γ, List.mem_cons_of_mem _ hγ, hrest⟩
  synced := h.synced

/-- No submission is for a later generation than the last one. -/
theorem Era.Reflects.submissions_le (h : era.Reflects g) (hagrees : era.Agrees) :
    ∀ y ∈ era.submissions, y.number ≤ g.generationId := by
  intro y hy
  obtain ⟨γ, hγ, hnumber, -⟩ := hagrees.exact y hy
  rw [← hnumber]
  exact h.past γ hγ

/-- The first submission to a generation. -/
theorem Era.Agrees.submit (h : era.Agrees) (hreflects : era.Reflects g)
    (hphase : g.phase = .awaitingSync) {assignments : List SyncAssignment}
    (hnodup : (assignments.map (·.memberId)).Nodup)
    (hexact : ∀ id, id ∈ assignments.map (·.memberId) ↔ id ∈ g.members) :
    (era.submit (some ⟨g.generationId, g.leaderId, assignments⟩)).Agrees where
  increasing := h.increasing
  leads := h.leads
  offered := h.offered
  joined := h.joined
  once := List.pairwise_cons.mpr ⟨hreflects.awaiting hphase, h.once⟩
  exact := fun y hy => by
    rcases List.mem_cons.mp hy with rfl | hy
    · refine ⟨g.charter, hreflects.current (by simp [hphase]), rfl, rfl, hnodup, fun id => ?_⟩
      exact (hexact id).trans ExtTreeMap.mem_map.symm
    · exact h.exact y hy
  synced := fun q hq => by
    obtain ⟨y, hy, hrest⟩ := h.synced q hq
    exact ⟨y, List.mem_cons_of_mem _ hy, hrest⟩

/-- **The era keeps up with its group.** -/
theorem Follows.pass (h : Follows x g k) (hagrees : era.Agrees) (hreflects : era.Reflects g)
    (hk : k.Valid) : (era.pass x g k).Agrees ∧ (era.pass x g k).Reflects k := by
  cases h with
  -- nothing was recorded, and the record still says what the group is
  | same generation phase charter assigned =>
    rw [Era.pass_of_same (by rw [phase]; exact fun h => h.2 h.1)]
    refine ⟨hagrees, ⟨?_, ?_, ?_, ?_⟩⟩
    · rw [generation]
      exact hreflects.past
    · rw [phase, charter]
      exact hreflects.current
    · rw [phase, generation]
      exact hreflects.awaiting
    · intro hstable
      obtain ⟨y, hy, hnumber, hassigned⟩ := hreflects.stable (phase ▸ hstable)
      refine ⟨y, hy, hnumber.trans generation.symm, fun id m hid => ?_⟩
      obtain ⟨m', hm', heq⟩ := assigned id m hid
      rw [heq]
      exact hassigned id m' hm'
  -- while the group rebalances the record is that of the past
  | joining generation phase =>
    rw [Era.pass_of_same fun h => h.2 phase]
    refine ⟨hagrees, ⟨?_, fun hne => absurd phase hne, ?_, ?_⟩⟩
    · rw [generation]
      exact hreflects.past
    · rw [phase]
      exact nofun
    · rw [phase]
      exact nofun
  -- a new generation is recorded as the latest one
  | completed generation before phase =>
    have hnot : k.phase ≠ .joining := by simp [phase]
    unfold Era.pass
    rw [if_pos ⟨before, hnot⟩]
    refine ⟨hagrees.complete hreflects generation hk hnot, ⟨?_, ?_, ?_, ?_⟩⟩
    · intro γ hγ
      rcases List.mem_cons.mp hγ with rfl | hγ
      · exact le_rfl
      · have hle := hreflects.past γ hγ
        omega
    · exact fun _ => List.mem_cons_self
    · intro _ y hy
      have hle := hreflects.submissions_le hagrees y hy
      omega
    · rw [phase]
      exact nofun
  -- the submission is recorded for the latest generation
  | installed assignments generation before phase charter nodup exact assigned =>
    rw [Era.pass_of_same fun h => by rw [before] at h; cases h.1]
    refine ⟨hagrees.submit hreflects before nodup exact, ⟨?_, ?_, ?_, ?_⟩⟩
    · rw [generation]
      exact hreflects.past
    · rw [charter]
      exact fun _ => hreflects.current (by simp [before])
    · rw [phase]
      exact nofun
    · exact fun _ => ⟨_, List.mem_cons_self, generation.symm, assigned⟩

/-! ### Answers -/

@[simp] theorem Era.answer_generations : (era.answer stage r).generations = era.generations := by
  unfold answer
  split <;> rfl

@[simp] theorem Era.answer_submissions : (era.answer stage r).submissions = era.submissions := by
  unfold answer
  split <;> rfl

theorem Era.Reflects.answer (h : era.Reflects k) : (era.answer stage r).Reflects k where
  past := by simpa using h.past
  current := by simpa using h.current
  awaiting := by simpa using h.awaiting
  stable := by simpa using h.stable

theorem GroupState.charter_roster {name : String} (hname : g.protocolName = some name) :
    g.charter.roster = g.roster name := by
  unfold Generation.roster GroupState.charter GroupState.roster
  rw [hname, ExtTreeMap.toList_map, List.map_map]
  rfl

/-- What a member has been told is the outcome of the current generation. -/
theorem GroupState.Valid.joinResult_eq (h : g.Valid) {id : String} {m : MemberState}
    {outcome : JoinOutcome} (hid : g.members[id]? = some m) (hresult : m.joinResult = some outcome) :
    g.phase ≠ .joining ∧ outcome = g.charter.outcome id := by
  have hphase : g.phase ≠ .joining := by
    intro hjoining
    rw [((h.joining hjoining).2 id m hid).2] at hresult
    cases hresult
  obtain ⟨name, hname⟩ := h.announced hphase
  rw [hname.result id m hid] at hresult
  cases hresult
  refine ⟨hphase, ?_⟩
  unfold outcomeOf Generation.outcome
  rw [GroupState.charter_roster hname.name]
  show JoinOutcome.mk _ _ _ _ _ = JoinOutcome.mk _ (g.protocolName.getD "") _ _ _
  rw [hname.name]
  rfl

/-- A join is told the outcome of the current generation. -/
theorem Era.Agrees.tell (h : era.Agrees) (hreflects : era.Reflects k) (hk : k.Valid) {id : String}
    {m : MemberState} {outcome : JoinOutcome} (hid : k.members[id]? = some m)
    (hresult : m.joinResult = some outcome) :
    Era.Agrees { era with joins := (id, outcome) :: era.joins } where
  increasing := h.increasing
  leads := h.leads
  offered := h.offered
  joined := fun p hp => by
    rcases List.mem_cons.mp hp with rfl | hp
    · obtain ⟨hphase, houtcome⟩ := hk.joinResult_eq hid hresult
      refine ⟨k.charter, hreflects.current hphase, ExtTreeMap.mem_map.mpr ?_, houtcome⟩
      exact ExtTreeMap.mem_iff_exists.mpr ⟨m, hid⟩
    · exact h.joined p hp
  once := h.once
  exact := h.exact
  synced := h.synced

/-- A sync is told what the member is assigned in the current generation. -/
theorem Era.Agrees.assign (h : era.Agrees) (hreflects : era.Reflects k) {id : String}
    {round : SyncRound} (htold : Told k id round) {assignment : List UInt8}
    (hround : round = .assigned assignment) :
    Era.Agrees { era with syncs := (k.generationId, ⟨id, assignment⟩) :: era.syncs } where
  increasing := h.increasing
  leads := h.leads
  offered := h.offered
  joined := h.joined
  once := h.once
  exact := h.exact
  synced := fun q hq => by
    rcases List.mem_cons.mp hq with rfl | hq
    · subst hround
      cases htold with
      | assigned m _ phase member has =>
        obtain ⟨y, hy, hnumber, hassigned⟩ := hreflects.stable phase
        obtain ⟨assignment', hassignment', hmem⟩ := hassigned id m member
        rw [has] at hassignment'
        cases hassignment'
        exact ⟨y, hy, hnumber, hmem⟩
    · exact h.synced q hq

/-- What a round of `sync` answers is what the group assigns. -/
theorem Era.Agrees.round (h : era.Agrees) (hreflects : era.Reflects k) {number : Int} {id : String}
    {assignments : List SyncAssignment} {submitted : Bool} {round : SyncRound}
    (htold : Told k id round) (hnumber : k.generationId = number) :
    (era.answer (.sync number id assignments submitted)
      (.ok (round.next number id assignments))).Agrees := by
  cases hround : round with
  | gone => exact h
  | waiting => exact h
  | assigned assignment =>
    rw [← hnumber]
    exact h.assign hreflects htold hround

/-- **Answers fit the era.** -/
theorem Stage.Done.answer {s : Option GroupState} (hdone : Done now assigned stage s r (some k))
    (h : era.Agrees) (hreflects : era.Reflects k) (hk : k.Valid) : (era.answer stage r).Agrees := by
  cases hdone with
  | enter entered => exact h
  | settle => exact h
  | await awaited =>
    cases awaited with
    | told m outcome same member result => exact h.tell hreflects hk member result
    | superseded other => exact h
    | removed same absent => exact h
    | waiting m same member result => exact h
  | sync synced =>
    cases synced with
    | rejected e => exact h
    | installed installed first active phase leader exact told =>
      exact h.round hreflects told (activeGroup_spec active).2.2
    | heard first active phase told => exact h.round hreflects told (activeGroup_spec active).2.2
    | looked again active phase told => exact h.round hreflects told (activeGroup_spec active).2.2
  | heartbeat beaten => exact h
  | leave left => exact h
  | commit committing => exact h

/-- A section that leaves no group has nothing to tell. -/
theorem Stage.Done.answer_none {s : Option GroupState} (hdone : Done now assigned stage s r none) :
    era.answer stage r = era := by
  cases hdone with
  | enter entered => rfl
  | settle => rfl
  | await awaited =>
    cases awaited
    rfl
  | sync synced =>
    cases synced
    rfl
  | heartbeat beaten => rfl
  | leave left => rfl
  | commit committing => rfl

end Passing

/-! ## Slots -/

/-- The groups that a slot has had, the latest first. -/
abbrev Annals := List Era

namespace Annals

variable {s s' : Option GroupState} {annals : Annals}

/-- The slot goes from one state to the next, with the submission that is taken between them. -/
def turn (annals : Annals) (taken : GroupState → GroupState → Option Submission) :
    Option GroupState → Option GroupState → Annals
  | some g, some k => annals.modifyHead fun era => era.pass (taken g k) g k
  | none, some _ => Era.start :: annals
  | _, none => annals

/-- An operation answers its client after this section. -/
def answer (annals : Annals) (stage : Stage) (r : Except Halt Next) : Annals :=
  annals.modifyHead (·.answer stage r)

/-- The annals after `advance_group` with this reading of the clock. -/
def swept (annals : Annals) (now : Nat) (s : Option GroupState) : Annals :=
  annals.turn (fun _ _ => none) s ((advanceGroup now).exec s).2

/-- The annals after a section with this reading of the clock. -/
def ran (annals : Annals) (now : Nat) (assigned : String) (stage : Stage) (s : Option GroupState) :
    Annals :=
  let s₁ := ((advanceGroup now).exec s).2
  let result := (stage.run now assigned).exec s
  ((annals.swept now s).turn stage.submission s₁ result.2).answer stage result.1

/-- Every era agrees, and the last one shows the group of the slot. -/
structure Tell (annals : Annals) (s : Option GroupState) : Prop where
  agrees : ∀ era ∈ annals, era.Agrees
  reflects : ∀ g, s = some g → ∃ era rest, annals = era :: rest ∧ era.Reflects g

/-! ### Steps of a slot -/

theorem answer_error {e : Halt} : annals.answer stage (.error e) = annals := by
  have hsame : ∀ era : Era, era.answer stage (.error e) = era := fun era => by cases stage <;> rfl
  unfold answer
  cases annals with
  | nil => rfl
  | cons era rest => exact congrArg (· :: rest) (hsame era)

/-- The annals keep up with a slot whose group goes on as `Follows` says, ends, or begins. -/
theorem Tell.turn {taken : GroupState → GroupState → Option Submission} (h : annals.Tell s)
    (hfollows : ∀ g k, s = some g → s' = some k → Follows (taken g k) g k)
    (hfounded : s = none → ∀ k, s' = some k → k.phase = .joining) (hvalid : ValidSlot s') :
    (annals.turn taken s s').Tell s' := by
  cases s' with
  -- the era of a group that has ended stays as it is
  | none =>
    have hsame : annals.turn taken s none = annals := by cases s <;> rfl
    rw [hsame]
    exact ⟨h.agrees, nofun⟩
  | some k =>
    cases s with
    -- a founded group opens an era of its own
    | none =>
      have hphase : k.phase = .joining := hfounded rfl k rfl
      refine ⟨fun era hera => ?_, fun g hg => ?_⟩
      · rcases List.mem_cons.mp hera with rfl | hera
        · exact ⟨.nil, nofun, nofun, nofun, .nil, nofun, nofun⟩
        · exact h.agrees era hera
      · cases hg
        refine ⟨_, annals, rfl, nofun, fun hne => absurd hphase hne, ?_, ?_⟩
        · rw [hphase]
          exact nofun
        · rw [hphase]
          exact nofun
    -- the first era is that of the group
    | some g =>
      obtain ⟨era, rest, rfl, hreflects⟩ := h.reflects g rfl
      obtain ⟨hagrees, hreflects'⟩ := (hfollows g k rfl rfl).pass (h.agrees era List.mem_cons_self)
        hreflects (hvalid k rfl)
      refine ⟨fun era' hera => ?_, fun g' hg' => ?_⟩
      · rcases List.mem_cons.mp hera with rfl | hera
        · exact hagrees
        · exact h.agrees era' (List.mem_cons_of_mem _ hera)
      · cases hg'
        exact ⟨_, rest, rfl, hreflects'⟩

/-- `advance_group` founds no group. -/
theorem Tell.swept (h : annals.Tell s) (hvalid : ValidSlot s) :
    (annals.swept now s).Tell ((advanceGroup now).exec s).2 := by
  have hadvanced := advanceGroup_slot now hvalid
  apply h.turn
  · rintro g k rfl hk
    rw [hk] at hadvanced
    cases hadvanced with
    | group advanced => exact advanced.follows
  · rintro rfl k hk
    cases hk
  · exact hadvanced.valid hvalid

/-- A section, before it answers. -/
theorem Tell.turn_done {s₁ : Option GroupState} (h : annals.Tell s₁)
    (hdone : Stage.Done now assigned stage s₁ r s') (hvalid : ValidSlot s') :
    (annals.turn stage.submission s₁ s').Tell s' := by
  refine h.turn ?_ ?_ hvalid
  · rintro g k rfl rfl
    exact hdone.follows
  · rintro rfl k rfl
    -- only a join founds a group
    cases hdone with
    | enter entered =>
      cases entered
      rfl
    | sync synced => cases synced
    | heartbeat beaten => cases beaten
    | leave left => cases left

/-- A section that answers. -/
theorem Tell.done {s₁ : Option GroupState} (h : annals.Tell s₁)
    (hdone : Stage.Done now assigned stage s₁ r s') (hvalid : ValidSlot s') :
    ((annals.turn stage.submission s₁ s').answer stage r).Tell s' := by
  have hturn := h.turn_done hdone hvalid
  cases s' with
  -- a slot without a state records no answer
  | none =>
    have hsame : (annals.turn stage.submission s₁ none).answer stage r =
        annals.turn stage.submission s₁ none := by
      unfold Annals.answer
      cases annals.turn stage.submission s₁ none with
      | nil => rfl
      | cons era rest => exact congrArg (· :: rest) hdone.answer_none
    rw [hsame]
    exact hturn
  | some k =>
    obtain ⟨era, rest, heq, hreflects⟩ := hturn.reflects k rfl
    rw [heq] at hturn ⊢
    refine ⟨fun era' hera => ?_, fun g hg => ?_⟩
    -- only the last era takes the answer
    · rcases List.mem_cons.mp hera with rfl | hera
      · exact hdone.answer (hturn.agrees era List.mem_cons_self) hreflects (hvalid k rfl)
      · exact hturn.agrees era' (List.mem_cons_of_mem _ hera)
    · cases hg
      exact ⟨_, rest, rfl, hreflects.answer⟩

/-- **A section keeps the annals true.** -/
theorem Tell.ran (h : annals.Tell s) (hvalid : ValidSlot s) (hchecked : stage.Checked)
    (hassigned : assigned ≠ "") :
    (annals.ran now assigned stage s).Tell ((stage.run now assigned).exec s).2 := by
  have hswept : (annals.swept now s).Tell ((advanceGroup now).exec s).2 := h.swept hvalid
  have hadvanced := advanceGroup_slot now hvalid
  unfold Annals.ran Stage.run
  rw [Section.exec_bind]
  cases hexec : (advanceGroup now).exec s with
  | mk r s₁ =>
    rw [hexec] at hadvanced hswept
    have hvalid₁ := hadvanced.valid hvalid
    cases r with
    | error e =>
      -- the section ends with `advance_group`
      show (((annals.swept now s).turn stage.submission s₁ s₁).answer stage (.error e)).Tell s₁
      rw [answer_error]
      apply hswept.turn _ _ hvalid₁
      · rintro g k rfl hk
        cases hk
        rw [Stage.submission_of_phase rfl]
        exact .refl g
      · rintro rfl k hk
        cases hk
    | ok changed =>
      have hdone : Stage.Done now assigned stage s₁ ((stage.body now assigned).exec s₁).1
          ((stage.body now assigned).exec s₁).2 := Stage.body_done hvalid₁ hchecked
      exact hswept.done hdone (hdone.valid hvalid₁ hchecked hassigned)

end Annals

end Walstream.Group
