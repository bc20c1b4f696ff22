import Walstream.Group.Committing
import Walstream.Group.Schedules

/-!
# A broker at work

Where the stores have a choice of answers, one of them is taken. What a handler is answered so is
computed (`Broker.answer`), and it is one of the answers that the broker can give.
-/

namespace Walstream.Group

open Interaction Log

section Calls

variable {self : GroupStore} {json : OffsetJson} {Client : Type} {cl : Client}

theorem Moves.call_eq {store : OffsetStore} {w w' : Shared store.Content} {t t' : Task store.Work}
    {e : Event} (h : Moves store w t e w' t') : t'.call = t.call := by
  cases h <;> rfl

/-- A commit that is done with the store. -/
def served (self : GroupStore) (json : OffsetJson) (cl : Client) :
    (self.offsetStore json Faults.none cl).Content → (self.offsetStore json Faults.none cl).Work →
      Option ((self.offsetStore json Faults.none cl).Content × Except GroupError Unit)
  | content, .ret result => some (content, result)
  | _, .call _ _ => none

/-- One step of a call of the coordinator. -/
def proceed (self : GroupStore) (json : OffsetJson) (cl : Client) (assigned : String)
    (x : Shared (Bucket Client Document) × Task (Prog (Cmd Document) Resp (Except GroupError Unit))) :
    Option (Shared (Bucket Client Document) ×
      Task (Prog (Cmd Document) Resp (Except GroupError Unit))) :=
  match x.2.point with
  | .storing slot (.call c k) => (Bucket.reply List.length cl c x.1.content).map fun p =>
    ({ x.1 with content := p.2 }, { x.2 with point := .storing slot (k p.1) })
  | _ => (@Shared.move (self.offsetStore json Faults.none cl) (served self json cl) x.1 x.2
    assigned).map (·.2)

/-- A call of the coordinator until it has returned, in at most so many steps. -/
def drive (self : GroupStore) (json : OffsetJson) (cl : Client) (assigned : String) :
    (steps : Nat) → Shared (Bucket Client Document) ×
      Task (Prog (Cmd Document) Resp (Except GroupError Unit)) →
        Option (Shared (Bucket Client Document) ×
          Task (Prog (Cmd Document) Resp (Except GroupError Unit)))
  | 0, x => some x
  | steps + 1, x => match x.2.point with
    | .returned _ => some x
    | _ => (proceed self json cl assigned x).bind (drive self json cl assigned steps)

theorem proceed_proceeds {assigned : String}
    {x x' : Shared (Bucket Client Document) ×
      Task (Prog (Cmd Document) Resp (Except GroupError Unit))}
    (h : proceed self json cl assigned x = some x') :
    Proceeds (self.offsetStore json Faults.none cl) x x' ∧ x'.2.call = x.2.call := by
  unfold proceed at h
  -- one request of a commit, or any other move
  split at h
  · rename_i slot c k hpoint
    obtain ⟨p, hreply, rfl⟩ := Option.map_eq_some_iff.mp h
    have hstep : (self.offsetStore json Faults.none cl).Step x.1.content
        (Prog.call c k) p.2 (.inl (k p.1)) := ⟨p.1, Bucket.executes_of_reply hreply, rfl⟩
    have hmoves := @Moves.work (self.offsetStore json Faults.none cl) x.1 x.2 slot (Prog.call c k)
      (k p.1) p.2 hpoint hstep
    exact ⟨.move hmoves, rfl⟩
  · obtain ⟨⟨e, w', t'⟩, hmove, rfl⟩ := Option.map_eq_some_iff.mp h
    have hmoves : Moves (self.offsetStore json Faults.none cl) x.1 x.2 e w' t' := by
      refine Shared.move_moves ?_ hmove
      intro content work content' result hserved
      cases work with
      | ret r =>
        cases hserved
        exact ⟨rfl, rfl⟩
      | call c k => cases hserved
    exact ⟨.move hmoves, hmoves.call_eq⟩

theorem drive_proceeds {assigned : String} {steps : Nat}
    {x x' : Shared (Bucket Client Document) ×
      Task (Prog (Cmd Document) Resp (Except GroupError Unit))}
    (h : drive self json cl assigned steps x = some x') :
    Relation.ReflTransGen (Proceeds (self.offsetStore json Faults.none cl)) x x' ∧
      x'.2.call = x.2.call := by
  induction steps generalizing x with
  | zero =>
    cases h
    exact ⟨.refl, rfl⟩
  | succ steps ih =>
    unfold drive at h
    split at h
    · cases h
      exact ⟨.refl, rfl⟩
    · obtain ⟨x₁, hfirst, hrest⟩ := Option.bind_eq_some_iff.mp h
      obtain ⟨hproceeds, hcall⟩ := proceed_proceeds hfirst
      obtain ⟨hsteps, hcall'⟩ := ih hrest
      exact ⟨.head hproceeds hsteps, hcall'.trans hcall⟩

end Calls

namespace Broker

variable {self : Broker} {Client : Type} {cl : Client}

/-- What a call has returned. -/
def returnedFrom {Work : Type} : Point Work → Option (Except CoordinatorError Unit)
  | .returned (.ok .done) => some (.ok ())
  | .returned (.error (.error e)) => some (.error e)
  | _ => none

/-- An answer of the broker, if it comes within so many steps of the coordinator. -/
def answer (self : Broker) (cl : Client) (assigned : String) (steps : Nat) :
    (c : Ask) → BrokerState Client → Option (c.Reply × BrokerState Client)
  | .topicExists key, s =>
    ((self.log key).topicExists.run.solo (Bucket.reply (self.log key).crates.size cl) s.topics).map
      fun q => (q.2.1, { s with topics := q.2.2 })
  | .commit group generationId memberId commits, s =>
    (drive self.offsets self.json cl assigned steps
      (s.groups, ⟨.commit group generationId memberId commits, none, .called⟩)).bind fun x =>
        (returnedFrom x.2.point).map fun r => (r, { s with groups := x.1 })
  | .fetch group selection, s =>
    ((self.offsets.fetch self.json group selection).run.solo (Bucket.reply List.length cl)
      s.groups.content).map fun q =>
        (q.2.1.mapError .storage, { s with groups := { s.groups with content := q.2.2 } })

theorem solo_executes {Body α : Type} [DecidableEq Body] {size : Body → Nat}
    {p : Prog (Cmd Body) Resp α} {b b' : Bucket Client Body} {cs : List (Cmd Body)} {a : α}
    (h : p.solo (Bucket.reply size cl) b = some (cs, a, b')) :
    Runs (Bucket.Executes Faults.none size cl) b p cs a b' := by
  have hreply : ∀ (c : Cmd Body) b r b', Bucket.reply size cl c b = some (r, b') →
      Bucket.Executes Faults.none size cl c b r b' := fun _ _ _ _ => Bucket.executes_of_reply
  exact Prog.solo_runs hreply h

theorem answer_replies {assigned : String} {steps : Nat} {c : Ask} {s s' : BrokerState Client}
    {r : c.Reply} (h : self.answer cl assigned steps c s = some (r, s')) :
    self.Replies cl c s r s' := by
  -- one case for each question of a handler
  cases c with
  | topicExists key =>
    obtain ⟨⟨cs, a, b'⟩, hrun, heq⟩ := Option.map_eq_some_iff.mp h
    cases heq
    exact ⟨rfl, cs, solo_executes hrun⟩
  | commit group generationId memberId commits =>
    obtain ⟨⟨w, t⟩, hdrive, hreturned⟩ := Option.bind_eq_some_iff.mp h
    obtain ⟨r', hpoint, heq⟩ := Option.map_eq_some_iff.mp hreturned
    cases heq
    obtain ⟨hsteps, hcall⟩ := drive_proceeds hdrive
    refine ⟨rfl, t.generated, ?_⟩
    obtain ⟨call, generated, point⟩ := t
    obtain rfl : call = .commit group generationId memberId commits := hcall
    -- the operation has returned with this answer
    have houtcome : point = .returned ((r.map fun _ => .done).mapError .error) := by
      unfold returnedFrom at hpoint
      split at hpoint <;> cases hpoint <;> rename_i heq <;> exact heq
    exact houtcome ▸ hsteps
  | fetch group selection =>
    obtain ⟨⟨cs, a, b'⟩, hrun, heq⟩ := Option.map_eq_some_iff.mp h
    cases heq
    exact ⟨rfl, b', cs, a, rfl, rfl, solo_executes hrun⟩

/-- A handler that is answered so. -/
theorem solo_runs {α : Type} {assigned : String} {steps : Nat} {p : Prog Ask Ask.Reply α}
    {s s' : BrokerState Client} {asks : List Ask} {a : α}
    (h : p.solo (self.answer cl assigned steps) s = some (asks, a, s')) :
    Runs (self.Replies cl) s p asks a s' := by
  have hreply : ∀ (c : Ask) s r s', self.answer cl assigned steps c s = some (r, s') →
      self.Replies cl c s r s' := fun _ _ _ _ => answer_replies
  exact Prog.solo_runs hreply h

end Broker

end Walstream.Group
