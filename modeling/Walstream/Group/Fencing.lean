import Walstream.Group.Admissions
import Walstream.Group.Desk

/-!
# Commits of old generations are fenced off

Requests of a commit that has failed may still arrive much later, when the group has gone on to
other generations, or has ended and begun again. They cannot undo what a later generation has
committed: the changes of a group's offsets come in the order of the generations that the commits
were let through in.

- `Counter`: the invariant of the store, where commits of a group come one after the other.
- `Docketed`: runs of the coordinator and the object store, where requests arrive at any time.
- `Fences`: the invariant of such runs.
-/

namespace Walstream.Group

open Interaction Log
open Std (ExtTreeMap)

/-! ## Commits at the store -/

theorem Docket.getElem?_of_prefix {docket docket' : Docket} {group : String} {number : Nat}
    {x : Admission} (hgrows : ∀ group, docket group <+: docket' group)
    (hx : (docket group)[number]? = some x) : (docket' group)[number]? = some x := by
  obtain ⟨hlt, rfl⟩ := List.getElem?_eq_some_iff.mp hx
  exact (List.prefix_iff_getElem?.mp (hgrows group) number hlt)

/-- The commit with this number is one that was let through. -/
def Ticket.Admitted (ticket : Ticket) (docket : Docket) : Prop :=
  ∃ x, (docket ticket.group)[ticket.number]? = some x ∧ x.commits = ticket.commits

theorem Ticket.Admitted.lt {ticket : Ticket} {docket : Docket} (h : ticket.Admitted docket) :
    ticket.number < (docket ticket.group).length := by
  obtain ⟨x, hx, -⟩ := h
  exact (List.getElem?_eq_some_iff.mp hx).1

theorem Ticket.Admitted.mono {ticket : Ticket} {docket docket' : Docket}
    (h : ticket.Admitted docket) (hgrows : ∀ group, docket group <+: docket' group) :
    ticket.Admitted docket' := by
  obtain ⟨x, hx, hcommits⟩ := h
  exact ⟨x, Docket.getElem?_of_prefix hgrows hx, hcommits⟩

/-- The commit with this number is that of the call. -/
def Ticket.AdmittedFor (ticket : Ticket) (call : Call) (docket : Docket) : Prop :=
  ∃ x, (docket ticket.group)[ticket.number]? = some x ∧ x.commits = ticket.commits ∧
    call = .commit ticket.group x.generationId x.memberId ticket.commits

theorem Ticket.AdmittedFor.admitted {ticket : Ticket} {call : Call} {docket : Docket}
    (h : ticket.AdmittedFor call docket) : ticket.Admitted docket := by
  obtain ⟨x, hx, hcommits, -⟩ := h
  exact ⟨x, hx, hcommits⟩

theorem Ticket.AdmittedFor.mono {ticket : Ticket} {call : Call} {docket docket' : Docket}
    (h : ticket.AdmittedFor call docket) (hgrows : ∀ group, docket group <+: docket' group) :
    ticket.AdmittedFor call docket' := by
  obtain ⟨x, hx, hrest⟩ := h
  exact ⟨x, Docket.getElem?_of_prefix hgrows hx, hrest⟩

namespace GroupStore

variable {self : GroupStore} {json : OffsetJson} {f : Faults}
  {objects : String → Option Document}

theorem offsetPath_injective {group group' : String}
    (h : self.offsetPath group = self.offsetPath group') : group = group' := by
  unfold offsetPath at h
  have hchars := congrArg String.toList h
  simp only [String.toList_append, List.append_assoc] at hchars
  -- the same prefix stands before both names, and the same ending after them
  have hname := List.append_cancel_right (List.append_cancel_left (List.append_cancel_left hchars))
  exact String.toList_inj.mp hname

/-- What is known of a commit at the store: it is the last one of its group that was let through. -/
def AtDesk (self : GroupStore) (json : OffsetJson) (f : Faults) (d : Desk) (docket : Docket)
    (t : Task DeskWork) : Prop :=
  match t.point with
  | .storing _ (.begin group commits) =>
    group = t.call.group ∧ commits ≠ [] ∧ (docket group).length = d.begun group + 1 ∧
      Ticket.AdmittedFor ⟨group, d.begun group, commits⟩ t.call docket
  | .storing _ (.busy ticket code) =>
    ticket.group = t.call.group ∧ (docket ticket.group).length = ticket.number + 1 ∧
      d.begun ticket.group = ticket.number + 1 ∧ ticket.AdmittedFor t.call docket ∧
        (self.deskArena json f ticket).wp code
          (fun r w => r = .ok () → self.Landed ticket w.bucket) ⟨d.bucket⟩
  | _ => True

/-- A commit that is acknowledged has changed the object of its group. -/
def Acknowledged (d : Desk) (docket : Docket) (t : Task DeskWork) : Prop :=
  t.point.outcome = some (.ok .done) → t.call.commits ≠ [] →
    ∃ e ∈ d.bucket.history, e.client.AdmittedFor t.call docket

theorem Acknowledged.mono {d d' : Desk} {docket docket' : Docket} {t : Task DeskWork}
    (h : Acknowledged d docket t) (hprecedes : d.bucket.Precedes d'.bucket)
    (hgrows : ∀ group, docket group <+: docket' group) : Acknowledged d' docket' t := by
  intro houtcome hne
  obtain ⟨e, he, hadmitted⟩ := h houtcome hne
  exact ⟨e, hprecedes.subset he, hadmitted.mono hgrows⟩

theorem acknowledged_of_outcome_ne {d : Desk} {docket : Docket} {t : Task DeskWork}
    (h : t.point.outcome ≠ some (.ok .done)) : Acknowledged d docket t :=
  fun houtcome => absurd houtcome h

/-- The operation is a commit of the group, at the store. -/
def Serves (t : Task DeskWork) (group : String) : Prop :=
  ∃ slot work, t.point = .storing slot work ∧ t.call.group = group

/-- The invariant of the store, with the objects that were there at first. -/
structure Counter (offsets : GroupStore) (json : OffsetJson) (f : Faults)
    (objects : String → Option Document) (d : Desk) (tasks : List (Task DeskWork))
    (docket : Docket) : Prop where
  orderly : Orderly Ticket.number (revisionOf json) (Revises json) objects d.bucket
  authored : ∀ e ∈ d.bucket.history,
    e.path = offsets.offsetPath e.client.group ∧ e.client.Admitted docket
  underway : ∀ req ∈ d.bucket.inFlight, ∃ ticket body mode,
    req = .put ticket (offsets.offsetPath ticket.group) body mode ∧ ticket.Admitted docket
  /-- Of a group that no operation serves, all commits have come to the store. -/
  idle : ∀ group, (∀ t ∈ tasks, ¬ Serves t group) → (docket group).length = d.begun group
  served : ∀ t ∈ tasks, AtDesk offsets json f d docket t
  acknowledged : ∀ t ∈ tasks, Acknowledged d docket t

section Counter

variable {d : Desk} {docket : Docket} {t t' : Task DeskWork}
  {others tasks tasks' : List (Task DeskWork)} {group : String} {ticket : Ticket}

theorem Counter.perm (hperm : tasks.Perm tasks') (h : Counter self json f objects d tasks docket) :
    Counter self json f objects d tasks' docket :=
  ⟨h.orderly, h.authored, h.underway,
    fun group hnone => h.idle group fun t ht => hnone t (hperm.mem_iff.mp ht),
    fun t ht => h.served t (hperm.mem_iff.mpr ht),
    fun t ht => h.acknowledged t (hperm.mem_iff.mpr ht)⟩

theorem atDesk_of_not_serves (h : ∀ group, ¬ Serves t group) : AtDesk self json f d docket t := by
  unfold AtDesk
  split
  · rename_i slot group commits here
    exact absurd ⟨slot, _, here, rfl⟩ (h t.call.group)
  · rename_i slot ticket code here
    exact absurd ⟨slot, _, here, rfl⟩ (h t.call.group)
  · trivial

/-- All commits have come to the store of a group that is not the one of this operation, and that
no other operation serves. -/
theorem Counter.idle_of_ne (h : Counter self json f objects d (t :: others) docket)
    (hne : t.call.group ≠ group) (hnone : ∀ u ∈ others, ¬ Serves u group) :
    (docket group).length = d.begun group := by
  apply h.idle
  intro u hu
  rcases List.mem_cons.mp hu with rfl | hu
  · rintro ⟨_, _, _, heq⟩
    exact hne heq
  · exact hnone u hu

/-- A step away from the store. -/
theorem Counter.stay (h : Counter self json f objects d (t :: others) docket)
    (hbefore : ∀ group, ¬ Serves t group) (hafter : ∀ group, ¬ Serves t' group)
    (hdone : Acknowledged d docket t') : Counter self json f objects d (t' :: others) docket where
  orderly := h.orderly
  authored := h.authored
  underway := h.underway
  idle := fun group hnone => h.idle group fun u hu => by
    rcases List.mem_cons.mp hu with rfl | hu
    · exact hbefore group
    · exact hnone u (List.mem_cons_of_mem _ hu)
  served := fun u hu => by
    rcases List.mem_cons.mp hu with rfl | hu
    · exact atDesk_of_not_serves hafter
    · exact h.served u (List.mem_cons_of_mem _ hu)
  acknowledged := List.forall_mem_cons.mpr ⟨hdone, (List.forall_mem_cons.mp h.acknowledged).2⟩

/-- What is known of a commit does not depend on the other groups. -/
theorem AtDesk.congr {d' : Desk} {docket' : Docket} (h : AtDesk self json f d docket t)
    (hrises : d.bucket.Rises (revisionOf json) d'.bucket)
    (hbegun : ∀ group, Serves t group → d'.begun group = d.begun group)
    (hdocket : ∀ group, Serves t group → docket' group = docket group) :
    AtDesk self json f d' docket' t := by
  unfold AtDesk at h ⊢
  split at h
  -- a commit that has not begun
  · rename_i slot group commits here
    obtain ⟨rfl, hne, hlength, x, hx, hrest⟩ := h
    have hserves : Serves t t.call.group := ⟨slot, _, here, rfl⟩
    rw [hbegun _ hserves, hdocket _ hserves]
    refine ⟨rfl, hne, hlength, x, ?_, hrest⟩
    show (docket' t.call.group)[_]? = _
    rw [hdocket _ hserves]
    exact hx
  -- a commit at work, whose next request does not depend on the others either
  · rename_i slot ticket code here
    obtain ⟨hgroup, hlength, hnumber, ⟨x, hx, hrest⟩, hwp⟩ := h
    have hserves : Serves t ticket.group := ⟨slot, _, here, hgroup.symm⟩
    rw [hbegun _ hserves, hdocket _ hserves]
    refine ⟨hgroup, hlength, hnumber, ⟨x, ?_, hrest⟩, ?_⟩
    · rw [hdocket _ hserves]
      exact hx
    · exact Arena.wp_rely (fun _ _ _ hle hlanded hr => (hlanded hr).later hle.precedes) hwp hrises
  · trivial

/-- A commit is let through. -/
theorem Counter.admit {slot : Nat} {x : Admission}
    (h : Counter self json f objects d (t :: others) docket)
    (halone : ∀ u ∈ others, ¬ Serves u t.call.group) (hbefore : ∀ group, ¬ Serves t group)
    (hcall : t'.call = t.call) (hpoint : t'.point = .storing slot (.begin t.call.group x.commits))
    (hne : x.commits ≠ [])
    (hcommit : t.call = .commit t.call.group x.generationId x.memberId x.commits) :
    Counter self json f objects d (t' :: others)
      (Function.update docket t.call.group (docket t.call.group ++ [x])) := by
  have hgrows : ∀ group, docket group <+:
      Function.update docket t.call.group (docket t.call.group ++ [x]) group := by
    intro group
    rw [Function.update_apply]
    split
    · rename_i heq
      rw [heq]
      exact List.prefix_append _ _
    · exact List.prefix_rfl
  have hserves : Serves t' t.call.group := ⟨slot, _, hpoint, by rw [hcall]⟩
  -- all earlier commits of the group have come to the store
  have hidle : (docket t.call.group).length = d.begun t.call.group := by
    apply h.idle
    intro u hu
    rcases List.mem_cons.mp hu with rfl | hu
    · exact hbefore _
    · exact halone u hu
  exact
  { orderly := h.orderly
    authored := fun e he => ⟨(h.authored e he).1, (h.authored e he).2.mono hgrows⟩
    underway := fun req hreq => by
      obtain ⟨ticket, body, mode, heq, hadmitted⟩ := h.underway req hreq
      exact ⟨ticket, body, mode, heq, hadmitted.mono hgrows⟩
    idle := fun group hnone => by
      have hgroup : group ≠ t.call.group := by
        rintro rfl
        exact hnone t' List.mem_cons_self hserves
      rw [Function.update_of_ne hgroup]
      apply h.idle
      intro u hu
      rcases List.mem_cons.mp hu with rfl | hu
      · exact hbefore _
      · exact hnone u (List.mem_cons_of_mem _ hu)
    served := fun u hu => by
      rcases List.mem_cons.mp hu with rfl | hu
      · unfold AtDesk
        rw [hpoint]
        refine ⟨by rw [hcall], hne, ?_, x, ?_, rfl, hcall.trans hcommit⟩
        · rw [Function.update_self, List.length_append, hidle]
          rfl
        · show (Function.update docket t.call.group _ t.call.group)[d.begun t.call.group]? = some x
          rw [Function.update_self, ← hidle, List.getElem?_concat_length]
      · apply (h.served u (List.mem_cons_of_mem _ hu)).congr (Bucket.rises_of_eq rfl rfl)
        · exact fun _ _ => rfl
        · intro group hgroup
          apply Function.update_of_ne
          rintro rfl
          exact halone u hu hgroup
    acknowledged := fun u hu => by
      rcases List.mem_cons.mp hu with rfl | hu
      · exact acknowledged_of_outcome_ne (by rw [hpoint]; nofun)
      · exact (h.acknowledged u (List.mem_cons_of_mem _ hu)).mono List.prefix_rfl hgrows }

/-- A commit comes to the store. -/
theorem Counter.begin {slot : Nat} {commits : List OffsetCommit}
    (h : Counter self json f objects d (t :: others) docket)
    (halone : ∀ u ∈ others, ¬ Serves u t.call.group)
    (hbefore : t.point = .storing slot (.begin group commits)) (hcall : t'.call = t.call)
    (hpoint : t'.point = .storing slot
      (.busy ⟨group, d.begun group, commits⟩ (self.commit json group commits).run)) :
    Counter self json f objects ⟨d.bucket, Function.update d.begun group (d.begun group + 1)⟩
      (t' :: others) docket := by
  have hat := h.served t List.mem_cons_self
  unfold AtDesk at hat
  rw [hbefore] at hat
  obtain ⟨rfl, hne, hlength, hadmitted⟩ := hat
  have hserves : Serves t' t.call.group := ⟨slot, _, hpoint, by rw [hcall]⟩
  exact
  { orderly := h.orderly
    authored := h.authored
    underway := h.underway
    -- the group of this commit is not idle, and the others are as before
    idle := fun group hnone => by
      have hgroup : group ≠ t.call.group := by
        rintro rfl
        exact hnone t' List.mem_cons_self hserves
      show _ = Function.update d.begun t.call.group _ group
      rw [Function.update_of_ne hgroup]
      exact h.idle_of_ne (Ne.symm hgroup) fun u hu => hnone u (List.mem_cons_of_mem _ hu)
    served := fun u hu => by
      rcases List.mem_cons.mp hu with rfl | hu
      · unfold AtDesk
        -- the commit has just begun, so that its whole program is ahead
        rw [hpoint]
        rw [hcall]
        exact ⟨rfl, hlength, Function.update_self .., hadmitted, wp_commit hne _⟩
      -- the lock keeps the others away from this group
      · refine (h.served u (List.mem_cons_of_mem _ hu)).congr ?_ ?_ fun _ _ => rfl
        · exact Bucket.rises_of_eq rfl rfl
        · intro group hgroup
          apply Function.update_of_ne
          rintro rfl
          exact halone u hu hgroup
    acknowledged := fun u hu => by
      rcases List.mem_cons.mp hu with rfl | hu
      · exact acknowledged_of_outcome_ne (by rw [hpoint]; nofun)
      · exact h.acknowledged u (List.mem_cons_of_mem _ hu) }

/-- A commit sends a request. -/
theorem Counter.act {slot : Nat} {c : Cmd Document}
    {k : Resp c → Prog (Cmd Document) Resp (Except GroupError Unit)} {r : Resp c}
    {b : Bucket Ticket Document} (h : Counter self json f objects d (t :: others) docket)
    (hbefore : t.point = .storing slot (.busy ticket (.call c k)))
    (hexec : Bucket.Executes f List.length ticket c d.bucket r b) (hcall : t'.call = t.call)
    (hpoint : t'.point = .storing slot (.busy ticket (k r))) :
    Counter self json f objects ⟨b, d.begun⟩ (t' :: others) docket := by
  have hat := h.served t List.mem_cons_self
  unfold AtDesk at hat
  rw [hbefore] at hat
  obtain ⟨hgroup, hlength, hnumber, hadmitted, hwp⟩ := hat
  obtain ⟨⟨b'⟩, hturn, hview, hrest⟩ := hwp ⟨d.bucket⟩ le_rfl r b hexec
  obtain rfl : b' = b := hview
  have hrises : d.bucket.Rises (revisionOf json) b' := hturn.rises (revises_lt json)
  have hserves : ∀ group, Serves t group → Serves t' group := by
    rintro group ⟨_, _, _, rfl⟩
    exact ⟨slot, _, hpoint, by rw [hcall]⟩
  exact
  { orderly := by
      apply h.orderly.turn (revises_lt json) hturn
      -- it is the turn of the last commit of the group
      intro e he hpath
      obtain ⟨hauthor, hearlier⟩ := h.authored e he
      have hsame := offsetPath_injective (hauthor.symm.trans hpath)
      have hlt := hearlier.lt
      rw [hsame, hlength] at hlt
      exact Nat.lt_succ_iff.mp hlt
    authored := fun e he => by
      rcases hturn.history_of he with he | ⟨hclient, hpath⟩
      · exact h.authored e he
      · rw [hclient]
        exact ⟨hpath, hadmitted.admitted⟩
    underway := fun req hreq => by
      rcases hturn.inFlight_of hreq with hreq | ⟨body, mode, heq⟩
      · exact h.underway req hreq
      · exact ⟨ticket, body, mode, heq, hadmitted.admitted⟩
    idle := fun group hnone => h.idle group fun u hu => by
      rcases List.mem_cons.mp hu with rfl | hu
      · exact fun hserving => hnone t' List.mem_cons_self (hserves group hserving)
      · exact hnone u (List.mem_cons_of_mem _ hu)
    served := fun u hu => by
      rcases List.mem_cons.mp hu with rfl | hu
      · unfold AtDesk
        rw [hpoint]
        rw [hcall]
        exact ⟨hgroup, hlength, hnumber, hadmitted, hrest⟩
      · exact (h.served u (List.mem_cons_of_mem _ hu)).congr hrises (fun _ _ => rfl) fun _ _ => rfl
    acknowledged := fun u hu => by
      rcases List.mem_cons.mp hu with rfl | hu
      · exact acknowledged_of_outcome_ne (by rw [hpoint]; nofun)
      · have hbefore := h.acknowledged u (List.mem_cons_of_mem _ hu)
        exact hbefore.mono hrises.precedes fun _ => List.prefix_rfl }

/-- The store is done with a commit. -/
theorem Counter.done {slot : Nat} {result : Except GroupError Unit}
    (h : Counter self json f objects d (t :: others) docket)
    (hbefore : t.point = .storing slot (.busy ticket (.ret result))) (hcall : t'.call = t.call)
    (hpoint : t'.point = .dropping slot (committed result)) :
    Counter self json f objects d (t' :: others) docket where
  orderly := h.orderly
  authored := h.authored
  underway := h.underway
  idle := fun group hnone => by
    have hat := h.served t List.mem_cons_self
    unfold AtDesk at hat
    rw [hbefore] at hat
    obtain ⟨hgroup, hlength, hnumber, -⟩ := hat
    by_cases hsame : group = ticket.group
    · -- the commit was the last one of its group
      rw [hsame, hlength, hnumber]
    · rw [hgroup] at hsame
      exact h.idle_of_ne (Ne.symm hsame) fun u hu => hnone u (List.mem_cons_of_mem _ hu)
  served := fun u hu => by
    rcases List.mem_cons.mp hu with rfl | hu
    · apply atDesk_of_not_serves
      rintro group ⟨slot', work, here, -⟩
      rw [hpoint] at here
      cases here
    · exact h.served u (List.mem_cons_of_mem _ hu)
  -- only a commit that succeeded is acknowledged, and it has landed
  acknowledged := fun u hu => by
    rcases List.mem_cons.mp hu with rfl | hu
    · intro houtcome _
      rw [hpoint] at houtcome
      have hresult : result = .ok () := by
        cases result with
        | ok _ => rfl
        | error e => cases houtcome
      have hat := h.served t List.mem_cons_self
      unfold AtDesk at hat
      rw [hbefore] at hat
      obtain ⟨-, -, -, hadmitted, hlanded⟩ := hat
      obtain ⟨e, he, hclient, -⟩ := hlanded hresult
      rw [hcall]
      exact ⟨e, he, hclient ▸ hadmitted⟩
    · exact h.acknowledged u (List.mem_cons_of_mem _ hu)

/-- A request arrives. -/
theorem Counter.delivered {b : Bucket Ticket Document}
    (h : Counter self json f objects d tasks docket) (hdelivered : d.bucket.Delivered b) :
    Counter self json f objects ⟨b, d.begun⟩ tasks docket where
  orderly := h.orderly.delivered (revises_lt json) hdelivered
  authored := fun e he => by
    cases hdelivered with
    | @put cl p body mode l₁ l₂ hreq hadm =>
      rcases List.mem_append.mp he with he | he
      · exact h.authored e he
      · obtain rfl := List.mem_singleton.mp he
        obtain ⟨ticket, body', mode', heq, hadmitted⟩ :=
          h.underway _ (hreq ▸ List.mem_append_right _ List.mem_cons_self)
        cases heq
        exact ⟨rfl, hadmitted⟩
    | refused hreq => exact h.authored e he
    | delete hreq =>
      -- commits delete nothing
      obtain ⟨ticket, body', mode', heq, -⟩ :=
        h.underway _ (hreq ▸ List.mem_append_right _ List.mem_cons_self)
      cases heq
  underway := fun req hreq => by
    apply h.underway
    have hsub : ∀ {l₁ l₂ : List (Request Ticket Document)} {sent : Request Ticket Document},
        d.bucket.inFlight = l₁ ++ sent :: l₂ → req ∈ l₁ ++ l₂ → req ∈ d.bucket.inFlight := by
      intro l₁ l₂ sent heq hmem
      rw [heq]
      rcases List.mem_append.mp hmem with hmem | hmem
      · exact List.mem_append_left _ hmem
      · exact List.mem_append_right _ (List.mem_cons_of_mem _ hmem)
    cases hdelivered with
    | put hsent hadm => exact hsub hsent hreq
    | refused hsent => exact hsub hsent hreq
    | delete hsent => exact hsub hsent hreq
  idle := h.idle
  served := fun t ht => (h.served t ht).congr (h.orderly.rises (revises_lt json) hdelivered)
    (fun _ _ => rfl) fun _ _ => rfl
  acknowledged := fun t ht => by
    have hrises := h.orderly.rises (revises_lt json) hdelivered
    exact (h.acknowledged t ht).mono hrises.precedes fun _ => List.prefix_rfl

end Counter

/-! ## Runs -/

/-- The runs of the coordinator with an object store of these objects, where requests that are
under way arrive at any time. The annals and the docket are kept beside them. -/
inductive Docketed (self : GroupStore) (json : OffsetJson) (f : Faults)
    (objects : String → Option Document) :
    System (self.desk json f) → (Nat → Annals) → Docket → Prop where
  | init (clock : Nat) (issued : Set Uuid) : Docketed self json f objects
      (System.init clock ⟨.initial objects issued, fun _ => 0⟩) (fun _ => []) fun _ => []
  | step {w w' : System (self.desk json f)} {annals : Nat → Annals} {docket : Docket} {e : Event}
      (run : Docketed self json f objects w annals docket) (step : Step (self.desk json f) w e w') :
      Docketed self json f objects w' (Annals.next annals w.shared e)
        (docket.next annals w.shared e)
  | deliver {w : System (self.desk json f)} {annals : Nat → Annals} {docket : Docket}
      {b : Bucket Ticket Document} (run : Docketed self json f objects w annals docket)
      (delivered : w.shared.content.bucket.Delivered b) :
      Docketed self json f objects
        ⟨{ w.shared with content := ⟨b, w.shared.content.begun⟩ }, w.tasks⟩ annals docket

/-- The invariant of these runs. -/
structure Fences (offsets : GroupStore) (json : OffsetJson) (f : Faults)
    (objects : String → Option Document) (w : Shared Desk) (tasks : List (Task DeskWork))
    (annals : Nat → Annals) (docket : Docket) : Prop where
  shape : @Shape (offsets.desk json f) w tasks
  exclusive : @Exclusive (offsets.desk json f) w tasks
  groups : @ValidGroups (offsets.desk json f) w
  sane : ∀ t ∈ tasks,
    @Task.Sane (offsets.desk json f) t ∧ @Task.Past (offsets.desk json f) t w.clock
  fits : ∀ t ∈ tasks, @Task.Fits (offsets.desk json f) t
  dated : ∀ group, ∀ x ∈ docket group, x.Dated w annals group
  ordered : ∀ group, (docket group).Pairwise Admission.Le
  counter : Counter offsets json f objects w.content tasks docket

section Steps

variable {w w' : Shared (self.desk json f).Content} {t t' : Task (self.desk json f).Work}
  {others tasks tasks' : List (Task (self.desk json f).Work)} {annals : Nat → Annals}
  {docket : Docket}

theorem not_serves (h : ∀ slot work, t.point ≠ .storing slot work) (group : String) :
    ¬ Serves t group := by
  rintro ⟨slot, work, here, -⟩
  exact h slot work here

/-- While an operation holds the lock of its slot, no other one serves the group. -/
theorem Fences.alone (h : Fences self json f objects w (t :: others) annals docket) {slot : Nat}
    (hlocks : t.point.locks = some slot) : ∀ u ∈ others, ¬ Serves u t.call.group := by
  rintro u hu ⟨slot', work, here, hgroup⟩
  have hmap := h.shape.used t List.mem_cons_self slot (Point.used_of_locks hlocks)
  have hmap' := h.shape.used u (List.mem_cons_of_mem _ hu) slot' (by rw [here]; rfl)
  rw [hgroup, hmap] at hmap'
  obtain rfl := Option.some.inj hmap'
  apply h.exclusive.alone hlocks u hu
  rw [here]
  rfl

/-- A section that lets a commit through, or none. -/
theorem Fences.run {slot now : Nat} {assigned : String} {stage : Stage} {r : Except Halt Next}
    {state : Option GroupState} (h : Fences self json f objects w (t :: others) annals docket)
    {reading : Option Nat} (here : t.point = .running slot reading stage) (era : Nat)
    (hran : Stage.Ran now assigned stage (w.slots slot).state r state) (hcall : t'.call = t.call)
    (hpoint : t'.point = (self.desk json f).resume t.call.group slot r) :
    Counter self json f objects w.content (t' :: others)
      (Function.update docket t.call.group
        (docket t.call.group ++ stage.admits slot era r)) := by
  have hbefore : ∀ group, ¬ Serves t group := not_serves (by rw [here]; nofun)
  have hfits := h.fits t List.mem_cons_self
  unfold Task.Fits at hfits
  rw [here] at hfits
  by_cases hstore : ∃ commits, r = .ok (.store commits)
  · -- the commit is the next one of its group, as the lock keeps all others away
    obtain ⟨commits, rfl⟩ := hstore
    obtain ⟨hne, generationId, memberId, g, rfl, -, -⟩ := hran.stored
    have hlocks : t.point.locks = some slot := by
      rw [here]
      rfl
    exact h.counter.admit (x := ⟨slot, era, generationId, memberId, commits⟩) (h.alone hlocks)
      hbefore hcall hpoint hne ((hfits _ _ _).mp rfl)
  · -- nothing goes to the store
    have hother : ∀ commits, r ≠ .ok (.store commits) := fun commits heq => hstore ⟨commits, heq⟩
    rw [Stage.admits_eq_nil hother, List.append_nil, Function.update_eq_self]
    apply h.counter.stay hbefore
    -- a section that ends otherwise does not go to the store
    · apply not_serves
      intro slot' work heq
      rw [hpoint] at heq
      unfold OffsetStore.resume at heq
      split at heq
      · cases heq
      · rename_i commits
        exact hother commits rfl
      · cases heq
      · cases heq
      · cases heq
    -- nor is what it replies an acknowledged commit
    · intro houtcome hne
      rw [hpoint] at houtcome
      rw [hcall] at hne
      exact absurd houtcome (hran.unacknowledged hfits hne)

/-- A step of an operation keeps the invariant of the store. -/
theorem Fences.counter_moves {e : Event}
    (h : Fences self json f objects w (t :: others) annals docket)
    (hmoves : Moves (self.desk json f) w t e w' t') :
    Counter self json f objects w'.content (t' :: others) (docket.next annals w e) := by
  cases hmoves with
  -- no commit is at the store, before the step or after it
  | refuse e here why
  | absent here valid free absent old
  | sweep left here valid free absent first all
  | skip now slot name left here there used
  | keep now slot name left r state here there unused unlocked exec stays
  | discard now slot name left changed here there unused unlocked exec
  | crash now slot name text left state here there unused unlocked exec
  | full now here why
  | create now here room
  | read slot here
  | lock slot reading stage here unlocked =>
    exact h.counter.stay (not_serves (by rw [here]; nofun)) (not_serves nofun)
      (acknowledged_of_outcome_ne nofun)
  | find slot here valid free there =>
    -- an operation that takes its slot is not at the store yet
    apply h.counter.stay (not_serves (by rw [here]; nofun))
    · apply not_serves
      intro slot' work
      show (match t.call with | _ => _) ≠ _
      cases t.call <;> nofun
    · apply acknowledged_of_outcome_ne
      show Point.outcome (match t.call with | _ => _) ≠ _
      cases t.call <;> nofun
  -- the section decides whether a commit is let through
  | run slot reading stage assigned r state here new exec =>
    have hsane := (h.sane t List.mem_cons_self).1
    unfold Task.Sane at hsane
    rw [here] at hsane
    have hran := Stage.run_ran (reading.getD w.clock) assigned stage (h.groups.valid slot) hsane
    rw [exec] at hran
    have hgroup : (w.slots slot).group = t.call.group :=
      h.shape.named _ _ (h.shape.used t List.mem_cons_self slot (by rw [here]; rfl))
    unfold Docket.next
    dsimp only
    rw [exec, hgroup]
    exact h.run here _ hran rfl rfl
  -- at the store
  | work slot work work' content here step =>
    have hlocks : t.point.locks = some slot := by
      rw [here]
      rfl
    have halone := h.alone hlocks
    cases step with
    | begin group commits => exact h.counter.begin halone here rfl rfl
    | act exec => exact h.counter.act here exec rfl rfl
  | stored slot work content result here step =>
    cases step with
    | done result => exact h.counter.done here rfl rfl
  -- what remains does not change what was acknowledged
  | reclaim slot outcome here free same idle
  | leaveSlot slot outcome here free why
  | drop slot outcome here =>
    refine h.counter.stay (not_serves (by rw [here]; nofun)) (not_serves nofun) fun houtcome => ?_
    apply h.counter.acknowledged t List.mem_cons_self
    rw [here]
    exact houtcome

/-- The docket grows only when a section lets a commit through, in the present generation. -/
theorem Fences.entry {e : Event} (h : Fences self json f objects w (t :: others) annals docket)
    (hmoves : Moves (self.desk json f) w t e w' t') (group : String) :
    docket.next annals w e group = docket group ∨ ∃ x slot g,
      docket.next annals w e group = docket group ++ [x] ∧ x.slot = slot ∧
        w.groups[group]? = some slot ∧ w'.groups[group]? = some slot ∧
        x.era = (Annals.next annals w e slot).length ∧ (w'.slots slot).state = some g ∧
          x.generationId = g.generationId := by
  cases e with
  -- only a section lets a commit through
  | quiet => exact .inl rfl
  | swept slot now => exact .inl rfl
  | ran slot now assigned generated stage =>
    have hstate := hmoves.ran_state slot
    rw [if_pos rfl] at hstate
    -- the slot that the section runs on is the slot of its group
    have hmapped : w.groups[(w.slots slot).group]? = some slot ∧ w'.groups = w.groups := by
      cases hmoves with
      | run slot reading stage assigned r state here new exec =>
        have hmap := h.shape.used t List.mem_cons_self slot (by rw [here]; rfl)
        refine ⟨?_, rfl⟩
        rw [h.shape.named _ _ hmap]
        exact hmap
    obtain ⟨hmap, hgroups⟩ := hmapped
    obtain ⟨hsane, hpast⟩ := h.sane t List.mem_cons_self
    obtain ⟨-, -, hchecked, -⟩ := hmoves.ran_spec h.groups hsane hpast
    have hran := Stage.run_ran now assigned stage (h.groups.valid slot) hchecked
    unfold Docket.next
    dsimp only
    by_cases hgroup : group = (w.slots slot).group
    · subst hgroup
      rw [Function.update_self]
      by_cases hstore : ∃ commits, ((stage.run now assigned).exec (w.slots slot).state).1 =
          .ok (.store commits)
      · obtain ⟨commits, hr⟩ := hstore
        rw [hr] at hran ⊢
        obtain ⟨-, generationId, memberId, g, rfl, hg, hgeneration⟩ := hran.stored
        exact .inr ⟨_, slot, g, rfl, rfl, hmap, hgroups ▸ hmap, rfl, hstate.trans hg,
          hgeneration.symm⟩
      · rw [Stage.admits_eq_nil fun commits hr => hstore ⟨commits, hr⟩, List.append_nil]
        exact .inl rfl
    -- the other groups are as before
    · rw [Function.update_of_ne hgroup]
      exact .inl rfl

/-- **A step of an operation keeps the invariant.** -/
theorem Fences.moves {e : Event} (h : Fences self json f objects w (t :: others) annals docket)
    (hmoves : Moves (self.desk json f) w t e w' t') :
    Fences self json f objects w' (t' :: others) (Annals.next annals w e)
      (docket.next annals w e) := by
  obtain ⟨hsane, hpast⟩ := h.sane t List.mem_cons_self
  obtain ⟨hgroups, hsane'⟩ := h.groups.moves hsane hmoves
  have hold : ∀ group, ∀ x ∈ docket group, x.Dated w' (Annals.next annals w e) group :=
    fun group x hx => (h.dated group x hx).moves hmoves h.groups hsane hpast
  exact
  { shape := h.shape.moves hmoves
    exclusive := h.exclusive.moves h.shape hmoves
    groups := hgroups
    sane := fun u hu => by
      rcases List.mem_cons.mp hu with rfl | hu
      · exact ⟨hsane', hpast.moves hmoves⟩
      · obtain ⟨husane, hupast⟩ := h.sane u (List.mem_cons_of_mem _ hu)
        exact ⟨husane, hmoves.clock_eq ▸ hupast⟩
    fits := fun u hu => by
      rcases List.mem_cons.mp hu with rfl | hu
      · exact (h.fits t List.mem_cons_self).moves hmoves h.groups hsane
      · exact h.fits u (List.mem_cons_of_mem _ hu)
    dated := fun group x hx => by
      rcases h.entry hmoves group with heq | ⟨y, slot, g, heq, hslot, -, hmap, hera, hg, hgen⟩
      · exact hold group x (heq ▸ hx)
      · rw [heq] at hx
        rcases List.mem_append.mp hx with hx | hx
        · exact hold group x hx
        · obtain rfl := List.mem_singleton.mp hx
          subst hslot
          refine ⟨?_, ?_, hera.le, ?_⟩
          · exact (h.shape.moves hmoves).mapped_lt _ _ hmap
          · intro slot hslot
            rw [hmap] at hslot
            exact (Option.some.inj hslot).le
          · intro _ k hk
            rw [hg] at hk
            exact hgen.le.trans (congrArg GroupState.generationId (Option.some.inj hk)).le
    ordered := fun group => by
      rcases h.entry hmoves group with heq | ⟨y, slot, g, heq, hslot, -, hmap, hera, hg, hgen⟩
      · rw [heq]
        exact h.ordered group
      · rw [heq]
        apply List.pairwise_append.mpr
        refine ⟨h.ordered group, List.pairwise_singleton _ _, fun x hx z hz => ?_⟩
        obtain rfl := List.mem_singleton.mp hz
        have hdated := hold group x hx
        -- the commit before is of no later slot, era and generation
        unfold Admission.Le
        rw [hslot, hera, hgen]
        rcases (hdated.mapped slot hmap).lt_or_eq with hlt | rfl
        · exact .inl hlt
        · refine .inr ⟨rfl, ?_⟩
          rcases hdated.era_le.lt_or_eq with hlt | heq
          · exact .inl hlt
          · exact .inr ⟨heq, hdated.generation_le heq g hg⟩
    counter := h.counter_moves hmoves }

theorem Fences.perm (hperm : tasks.Perm tasks')
    (h : Fences self json f objects w tasks annals docket) :
    Fences self json f objects w tasks' annals docket :=
  ⟨h.shape.perm hperm, h.exclusive.perm hperm, h.groups,
    fun t ht => h.sane t (hperm.mem_iff.mpr ht), fun t ht => h.fits t (hperm.mem_iff.mpr ht),
    h.dated, h.ordered, h.counter.perm hperm⟩

end Steps

/-- **The invariant holds in every run.** -/
theorem Docketed.fences {w : System (self.desk json f)} {annals : Nat → Annals} {docket : Docket}
    (h : Docketed self json f objects w annals docket) :
    Fences self json f objects w.shared w.tasks annals docket := by
  induction h with
  -- nothing has been let through, and nothing is at the store
  | init clock issued =>
    exact
    { shape := Shape.init
      exclusive := fun _ => rfl
      groups := ⟨fun _ => nofun, List.mem_singleton_self _⟩
      sane := fun t ht => absurd ht List.not_mem_nil
      fits := fun t ht => absurd ht List.not_mem_nil
      dated := fun _ x hx => absurd hx List.not_mem_nil
      ordered := fun _ => .nil
      counter :=
        { orderly := orderly_initial objects issued
          authored := fun e he => absurd he List.not_mem_nil
          underway := fun req hreq => absurd hreq List.not_mem_nil
          idle := fun _ _ => rfl
          served := fun t ht => absurd ht List.not_mem_nil
          acknowledged := fun t ht => absurd ht List.not_mem_nil } }
  | step run hstep ih =>
    cases hstep with
    -- the clock changes nothing
    | tick clock later =>
      exact
      { shape := ih.shape.tick clock
        exclusive := ih.exclusive
        groups := ⟨ih.groups.valid, ih.groups.issued⟩
        sane := fun t ht => ⟨(ih.sane t ht).1, (ih.sane t ht).2.later later⟩
        fits := ih.fits
        dated := fun group x hx =>
          let hx := ih.dated group x hx
          ⟨hx.slot_lt, hx.mapped, hx.era_le, hx.generation_le⟩
        ordered := ih.ordered
        counter := ih.counter }
    -- a call has not come to its slot yet
    | call call =>
      exact
      { shape := ih.shape.call call
        exclusive := fun slot => lockers_cons.trans (ih.exclusive slot)
        groups := ih.groups
        sane := fun t ht => by
          rcases List.mem_cons.mp ht with rfl | ht
          · exact ⟨trivial, trivial⟩
          · exact ih.sane t ht
        fits := fun t ht => by
          rcases List.mem_cons.mp ht with rfl | ht
          · trivial
          · exact ih.fits t ht
        dated := ih.dated
        ordered := ih.ordered
        counter :=
          { orderly := ih.counter.orderly
            authored := ih.counter.authored
            underway := ih.counter.underway
            idle := fun group hnone =>
              ih.counter.idle group fun t ht => hnone t (List.mem_cons_of_mem _ ht)
            served := fun t ht => by
              rcases List.mem_cons.mp ht with rfl | ht
              · trivial
              · exact ih.counter.served t ht
            acknowledged := fun t ht => by
              rcases List.mem_cons.mp ht with rfl | ht
              · exact acknowledged_of_outcome_ne nofun
              · exact ih.counter.acknowledged t ht } }
    | move before after moves =>
      exact ((ih.perm List.perm_middle).moves moves).perm List.perm_middle.symm
  | deliver run delivered ih =>
    -- a late request changes only the store
    exact
    { shape := ⟨ih.shape.named, ih.shape.mapped_lt, ih.shape.held_lt, ih.shape.refs, ih.shape.live,
        ih.shape.used, ih.shape.locked, ih.shape.absent, ih.shape.size⟩
      exclusive := ih.exclusive
      groups := ⟨ih.groups.valid, ih.groups.issued⟩
      sane := ih.sane
      fits := ih.fits
      dated := fun group x hx =>
        let hx := ih.dated group x hx
        ⟨hx.slot_lt, hx.mapped, hx.era_le, hx.generation_le⟩
      ordered := ih.ordered
      counter := ih.counter.delivered delivered }

/-! ## Fencing -/

/-- What clients can rely on about commits of old generations. -/
structure CommitsFenced (objects : String → Option Document) (w : System (self.desk json f))
    (annals : Nat → Annals) (docket : Docket) : Prop where
  /-- No commit was let through in a later generation than the present one. -/
  dated : ∀ group, ∀ x ∈ docket group, x.Dated w.shared annals group
  /-- Commits of a group are let through in the order of its generations. -/
  ordered : ∀ group, (docket group).Pairwise Admission.Le
  /-- Nothing but such commits changes an object, each the one of its group. -/
  admitted : ∀ e ∈ w.shared.content.bucket.history,
    e.path = self.offsetPath e.client.group ∧ e.client.Admitted docket
  /-- The changes of an object come in the order in which the commits were let through. -/
  fenced : w.shared.content.bucket.history.Pairwise fun e e' => e.path = e'.path →
    e.client.number ≤ e'.client.number ∧
      ∀ x x', (docket e.client.group)[e.client.number]? = some x →
        (docket e'.client.group)[e'.client.number]? = some x' → x.Le x'
  /-- A commit that is acknowledged has changed the object of its group. -/
  acknowledged : ∀ t ∈ w.tasks, t.point.outcome = some (.ok .done) → t.call.commits ≠ [] →
    ∃ e ∈ w.shared.content.bucket.history, e.client.AdmittedFor t.call docket
  /-- The positions of a group are those of the commits that have changed them, in this order. -/
  positions : ∀ group p, Holds json (objects (self.offsetPath group)) p →
    Holds json (w.shared.content.bucket.objects (self.offsetPath group))
      (after (fun ticket : Ticket => .commit ticket.commits) p
        ((w.shared.content.bucket.history.filter (·.path = self.offsetPath group)).map (·.client)))

/-- **Commits of old generations are fenced off**: whenever their requests arrive, the offsets of a
group change in the order of the generations that the commits were let through in. -/
theorem commits_fenced {w : System (self.desk json f)} {annals : Nat → Annals} {docket : Docket}
    (h : Docketed self json f objects w annals docket) : CommitsFenced objects w annals docket := by
  have hfences := h.fences
  have horderly := hfences.counter.orderly
  exact
  { dated := hfences.dated
    ordered := hfences.ordered
    admitted := hfences.counter.authored
    fenced := by
      apply horderly.ordered.imp_of_mem
      intro e e' he he' hnumbers hpath
      have hle := hnumbers hpath
      refine ⟨hle, fun x x' hx hx' => ?_⟩
      -- both are commits of one group
      have hgroup : e.client.group = e'.client.group := by
        apply @offsetPath_injective self
        rw [← (hfences.counter.authored e he).1, ← (hfences.counter.authored e' he').1, hpath]
      rw [← hgroup] at hx'
      rcases hle.lt_or_eq with hlt | heq
      · obtain ⟨hi, rfl⟩ := List.getElem?_eq_some_iff.mp hx
        obtain ⟨hj, rfl⟩ := List.getElem?_eq_some_iff.mp hx'
        exact List.pairwise_iff_getElem.mp (hfences.ordered _) _ _ hi hj hlt
      · rw [heq, hx'] at hx
        obtain rfl := Option.some.inj hx
        exact .refl x'
    acknowledged := hfences.counter.acknowledged
    positions := fun group p hp =>
      holds_of_linked ((horderly.linked _).mono fun _ _ _ hstep => hstep.1) hp }

/-! ## Schedules -/

/-- What one turn after another leads to is such a run. -/
theorem Docketed.follow
    {serve : Desk → DeskWork → Option (Desk × Except GroupError Unit)}
    (hserve : ∀ d work d' result, serve d work = some (d', result) →
      self.DeskStep json f d work d' (.inr result))
    {check : System (self.desk json f) → Ledger → Event → Bool} {w w' : System (self.desk json f)}
    {annals : Nat → Annals} {docket : Docket} {l l' : Ledger} {turns : List Turn}
    (h : Docketed self json f objects w annals docket)
    (hfollow : w.follow serve check l turns = some (w', l')) :
    ∃ annals' docket', Docketed self json f objects w' annals' docket' := by
  induction turns generalizing w annals docket l with
  | nil =>
    cases hfollow
    exact ⟨annals, docket, h⟩
  | cons turn turns ih =>
    simp only [System.follow, Option.bind_eq_bind, Option.bind_eq_some_iff] at hfollow
    obtain ⟨⟨e, w₁⟩, hturn, hrest⟩ := hfollow
    split at hrest
    · exact ih (h.step (System.turn_step hserve hturn)) hrest
    · cases hrest

/-- A commit that is busy sends all its requests. -/
theorem Docketed.busy {w : Shared (self.desk json f).Content} {call : Group.Call}
    {generated : Option String} {slot : Nat} {ticket : Ticket}
    {code : Prog (Cmd Document) Resp (Except GroupError Unit)} {cs : List (Cmd Document)}
    {result : Except GroupError Unit} {b b' : Bucket Ticket Document} {begun : String → Nat}
    {others : List (Task (self.desk json f).Work)} {annals : Nat → Annals} {docket : Docket}
    (hruns : Runs (Bucket.Executes f List.length ticket) b code cs result b')
    (h : Docketed self json f objects
      ⟨{ w with content := ⟨b, begun⟩ },
        ⟨call, generated, .storing slot (.busy ticket code)⟩ :: others⟩ annals docket) :
    Docketed self json f objects
      ⟨{ w with content := ⟨b', begun⟩ },
        ⟨call, generated, .storing slot (.busy ticket (.ret result))⟩ :: others⟩ annals docket := by
  induction hruns with
  | ret b result => exact h
  | call hexec hrest ih =>
    exact ih (h.step (.move [] others (.work slot _ _ (Desk.mk _ begun) rfl (.act hexec))))

/-- A commit comes to the store, and goes on until the store is done with it. -/
theorem Docketed.serve {w : Shared (self.desk json f).Content} {call : Group.Call}
    {generated : Option String} {slot : Nat} {group : String} {commits : List OffsetCommit}
    {cs : List (Cmd Document)} {result : Except GroupError Unit} {b : Bucket Ticket Document}
    {others : List (Task (self.desk json f).Work)} {annals : Nat → Annals} {docket : Docket}
    (h : Docketed self json f objects
      ⟨w, ⟨call, generated, .storing slot (.begin group commits)⟩ :: others⟩ annals docket)
    (hruns : Runs (Bucket.Executes f List.length ⟨group, w.content.begun group, commits⟩)
      w.content.bucket (self.commit json group commits).run cs result b) :
    ∃ w', Docketed self json f objects
      ⟨w', ⟨call, generated, .dropping slot (committed result)⟩ :: others⟩ annals docket := by
  have hbegun := h.step (.move [] others (.work slot _ _ _ rfl (.begin group commits)))
  have hbusy := Docketed.busy hruns hbegun
  exact ⟨_, hbusy.step (.move [] others (.stored slot _ _ result rfl (.done result)))⟩

end GroupStore

/-! ## An example -/

namespace Reference

/-- The coordinator after a schedule, with an object store that has no objects. No commit gets to
work at the store. -/
def deskRun (turns : List Turn) :
    Option (System (offsetStore.desk offsetJson Faults.none) × Ledger) :=
  let w : System (offsetStore.desk offsetJson Faults.none) :=
    System.init 0 (Desk.mk (.initial (fun _ => none) ∅) fun _ => 0)
  w.follow (fun _ _ => none) (fun _ _ _ => true) (fun _ => ⟨fun _ => 0, 0⟩) turns

/-- A member has joined and synced, and commits a position. -/
def arriving : List Turn :=
  committing.take 16 ++
    [.call (.commit "group" 1 "first" (offsetCalls false).commits), .move 0 "", .move 0 "",
      .move 0 "u4"]

/-- What this operation does at the store, if it is a commit that comes there. -/
def atStore (d : Desk) (t : Task DeskWork) :
    Option (List (Cmd Document) × Except GroupError Unit × Bucket Ticket Document) :=
  match t.point with
  | .storing _ (.begin group commits) =>
    (offsetStore.commit offsetJson group commits).run.solo
      (Bucket.reply List.length ⟨group, d.begun group, commits⟩) d.bucket
  | _ => none

/-- A commit that is acknowledged, say. -/
theorem commits_fenced_first : ∃ (w : System (offsetStore.desk offsetJson Faults.none))
    (annals : Nat → Annals) (docket : Docket),
    GroupStore.Docketed offsetStore offsetJson Faults.none (fun _ => none) w annals docket ∧
      (∃ t ∈ w.tasks, t.point.outcome = some (.ok .done) ∧ t.call.commits ≠ []) ∧
      GroupStore.CommitsFenced (fun _ => none) w annals docket := by
  -- the run is evaluated up to the commit that is at the store
  have hrun : (deskRun arriving).any (fun p => p.1.tasks.head?.any fun t =>
      !t.call.commits.isEmpty &&
        (atStore p.1.shared.content t).any fun q => q.2.1.toOption.isSome) = true := by
    decide +kernel
  obtain ⟨⟨w, l⟩, hfollow, htask⟩ := (Option.any_eq_true _ _).mp hrun
  have hserve : ∀ (d : Desk) (work : DeskWork) (d' : Desk) (result : Except GroupError Unit),
      none = some (d', result) →
        offsetStore.DeskStep offsetJson Faults.none d work d' (.inr result) := nofun
  obtain ⟨annals, docket, h⟩ := GroupStore.Docketed.follow hserve (.init 0 ∅) hfollow
  obtain ⟨t, hhead, hcheck⟩ := (Option.any_eq_true _ _).mp htask
  obtain ⟨hne, hsome⟩ := (Bool.and_eq_true _ _).mp hcheck
  obtain ⟨⟨cs, result, b⟩, hsolo, hok⟩ := (Option.any_eq_true _ _).mp hsome
  obtain ⟨others, htasks⟩ := List.head?_eq_some_iff.mp hhead
  obtain ⟨shared, tasks⟩ := w
  obtain rfl : tasks = t :: others := htasks
  obtain ⟨call, generated, point⟩ := t
  unfold atStore at hsolo
  split at hsolo
  · rename_i slot group commits here
    obtain rfl : point = .storing slot (.begin group commits) := here
    -- the requests of that commit are answered without faults
    have hreply : ∀ (c : Cmd Document) (b : Bucket Ticket Document) r b',
        Bucket.reply List.length ⟨group, shared.content.begun group, commits⟩ c b = some (r, b') →
          Bucket.Executes Faults.none List.length _ c b r b' :=
      fun _ _ _ _ => Bucket.executes_of_reply
    obtain ⟨w', hserved⟩ := h.serve (Prog.solo_runs hreply hsolo)
    obtain rfl : result = .ok () := by
      cases result with
      | ok _ => rfl
      | error e => cases hok
    refine ⟨_, annals, docket, hserved, ⟨_, List.mem_cons_self, rfl, ?_⟩,
      GroupStore.commits_fenced hserved⟩
    rintro heq
    rw [show call.commits = [] from heq] at hne
    cases hne
  · cases hsolo

end Reference

end Walstream.Group
