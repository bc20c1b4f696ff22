import Walstream.Group.Tasks

/-!
# Runs by schedule

A schedule says which operation moves next, when time goes on and what clients call. Following
it is a computation (`System.follow`), and what it reaches is reached by a run
(`System.follow_run`).
-/

namespace Walstream.Group

open Interaction Log
open Std (ExtTreeMap)

/-- What a schedule lets happen next. -/
inductive Turn where
  | tick (clock : Nat)
  | call (call : Call)
  /-- The operation at this place moves; its section gives this id to a new member. -/
  | move (place : Nat) (assigned : String)

variable {store : OffsetStore}
  (serve : store.Content → store.Work → Option (store.Content × Except GroupError Unit))

/-- The move of one operation, if it can move. A sweep over other groups is left out. -/
def Shared.move (w : Shared store.Content) (t : Task store.Work) (assigned : String) :
    Option (Event × Shared store.Content × Task store.Work) :=
  match t.point with
  | .called =>
    -- a refused call never takes a lock
    match t.call.validate with
    | .error e => some (.quiet, w, { t with point := .returned (.error (.error e)) })
    | .ok () =>
      if w.mapLocked then none
      else match w.groups[t.call.group]? with
        | some slot => some (.quiet, w.retain slot, { t with point := match t.call with
            | .join _ _ => .found slot
            | call => .locking slot none call.stage })
        | none =>
          -- only a first join may make room for a group
          if t.call.isFirstJoin then
            some (.quiet, { w with mapLocked := true },
              { t with point := .sweeping w.clock w.groups.keys })
          else some (.quiet, w, { t with point := .returned (.error (.kafka .unknownMemberId)) })
  | .sweeping _ [] =>
    -- the sweep is over
    if maxGroupSlots ≤ w.groups.size then
      some (.quiet, { w with mapLocked := false },
        { t with point := .returned (.error (.kafka .groupMaxSizeReached)) })
    else some (.quiet, w.create t.call.group, { t with point := .found w.fresh })
  | .sweeping _ (_ :: _) => none
  | .found slot =>
    some (.quiet, w, { t with point := .locking slot (some w.clock) t.call.stage })
  | .locking slot reading stage =>
    -- the lock is waited for
    if (w.slots slot).locked then none
    else some (.quiet, w.lock slot, { t with point := .running slot reading stage })
  | .running slot reading stage =>
    -- an id is given out once
    if assigned ∈ w.issued then none
    else
      let result := (stage.run (reading.getD w.clock) assigned).exec (w.slots slot).state
      some (.ran slot (reading.getD w.clock) assigned t.generated stage,
        w.settled slot result.2 (holdsLock result.1) assigned,
        { t with
          generated := if stage.generates then some assigned else t.generated
          point := store.resume t.call.group slot result.1 })
  | .storing slot work =>
    (serve w.content work).map fun served =>
      (.quiet, { w.unlock slot with content := served.1 },
        { t with point := .dropping slot (committed served.2) })
  | .reclaiming slot outcome =>
    -- the slot is reclaimed under the lock of the map
    if w.mapLocked then none
    else if w.groups[t.call.group]? = some slot ∧ (w.slots slot).reclaimable then
      some (.quiet, w.remove t.call.group slot, { t with point := .dropping slot outcome })
    else some (.quiet, w, { t with point := .dropping slot outcome })
  | .dropping slot outcome => some (.quiet, w.release slot, { t with point := .returned outcome })
  | .returned _ => none

variable {serve}

theorem Shared.move_moves
    (hserve : ∀ content work content' result, serve content work = some (content', result) →
      store.Step content work content' (.inr result))
    {w w' : Shared store.Content} {t t' : Task store.Work} {assigned : String} {e : Event}
    (h : w.move serve t assigned = some (e, w', t')) : Moves store w t e w' t' := by
  -- one branch of `move` for each point, and one constructor for each way out of it
  unfold Shared.move at h
  split at h
  · rename_i here
    split at h
    · rename_i e' hvalidate
      cases h
      exact .refuse e' here hvalidate
    · rename_i hvalidate
      split at h
      · cases h
      · rename_i hfree
        have hfree : w.mapLocked = false := by simpa using hfree
        -- the name is in the map, or the map has to be searched for an idle slot
        split at h
        · rename_i slot hthere
          cases h
          exact .find slot here hvalidate hfree hthere
        · rename_i hnone
          -- a full map is swept from its first slot on
          split at h
          · rename_i hfirst
            cases h
            exact .sweep _ here hvalidate hfree hnone hfirst (List.Perm.refl _)
          · rename_i hold
            cases h
            exact .absent here hvalidate hfree hnone (by simpa using hold)
  · rename_i now here
    -- the sweep has come to an end without a slot
    split at h
    · rename_i hfull
      cases h
      exact .full now here hfull
    · rename_i hroom
      cases h
      exact .create now here (not_le.mp hroom)
  · cases h
  · rename_i slot here
    cases h
    exact .read slot here
  · rename_i slot reading stage here
    -- a locked slot blocks, and so does a name that is taken
    split at h
    · cases h
    · rename_i hunlocked
      cases h
      exact .lock slot reading stage here (by simpa using hunlocked)
  · rename_i slot reading stage here
    split at h
    · cases h
    · rename_i hnew
      cases h
      exact .run slot reading stage assigned _ _ here hnew rfl
  · rename_i slot work here
    -- the store decides whether its request is served
    obtain ⟨⟨content, result⟩, hserved, heq⟩ := Option.map_eq_some_iff.mp h
    cases heq
    exact .stored slot work content result here (hserve _ _ _ _ hserved)
  · rename_i slot outcome here
    split at h
    · cases h
    -- the slot is dropped from the map when nobody else refers to it
    · rename_i hfree
      have hfree : w.mapLocked = false := by simpa using hfree
      split at h
      · rename_i hidle
        cases h
        exact .reclaim slot outcome here hfree hidle.1 hidle.2
      · rename_i hbusy
        cases h
        apply Moves.leaveSlot slot outcome here hfree
        rw [not_and_or] at hbusy
        simpa using hbusy
  · rename_i slot outcome here
    cases h
    exact .drop slot outcome here
  · cases h

variable (serve) in
/-- One turn of a schedule. -/
def System.turn (w : System store) : Turn → Option (Event × System store)
  | .tick clock =>
    if w.shared.clock ≤ clock then some (.quiet, { w with shared := { w.shared with clock } })
    else none
  | .call call => some (.quiet, { w with tasks := ⟨call, none, .called⟩ :: w.tasks })
  | .move place assigned => do
    let t ← w.tasks[place]?
    let (e, w', t') ← w.shared.move serve t assigned
    return (e, ⟨w', w.tasks.set place t'⟩)

variable (serve) in
/-- The state that a schedule leads to, and the ledger, if all steps pass the check. -/
def System.follow (check : System store → Ledger → Event → Bool) (w : System store) (l : Ledger) :
    List Turn → Option (System store × Ledger)
  | [] => some (w, l)
  | turn :: turns => do
    let (e, w') ← w.turn serve turn
    if check w l e then w'.follow check (l.next w.shared e) turns else none

theorem System.turn_step
    (hserve : ∀ content work content' result, serve content work = some (content', result) →
      store.Step content work content' (.inr result))
    {w w' : System store} {turn : Turn} {e : Event} (h : w.turn serve turn = some (e, w')) :
    Step store w e w' := by
  cases turn with
  | tick clock =>
    simp only [System.turn] at h
    split at h
    · rename_i hlater
      cases h
      exact .tick clock hlater
    · cases h
  | call call =>
    cases h
    exact .call call
  | move place assigned =>
    simp only [System.turn, Option.bind_eq_bind, Option.bind_eq_some_iff] at h
    obtain ⟨t, ht, ⟨e', w'', t'⟩, hmove, heq⟩ := h
    obtain ⟨rfl, rfl⟩ := Prod.mk.inj (Option.some.inj heq)
    obtain ⟨hlt, rfl⟩ := List.getElem?_eq_some_iff.mp ht
    obtain ⟨shared, tasks⟩ := w
    -- the operation stands between those before it and those after it
    have hsplit : tasks = tasks.take place ++ tasks[place] :: tasks.drop (place + 1) := by
      rw [List.getElem_cons_drop, List.take_append_drop]
    have hset : tasks.set place t' = tasks.take place ++ t' :: tasks.drop (place + 1) :=
      List.set_eq_take_cons_drop t' hlt
    have hstep := Step.move (tasks.take place) (tasks.drop (place + 1))
      (Shared.move_moves hserve hmove)
    show Step store ⟨shared, tasks⟩ e' ⟨w'', tasks.set place t'⟩
    rw [hset]
    rwa [← hsplit] at hstep

/-- **A schedule leads to a state that a run reaches.** -/
theorem System.follow_run
    (hserve : ∀ content work content' result, serve content work = some (content', result) →
      store.Step content work content' (.inr result))
    {P : System store → Ledger → Event → Prop} {check : System store → Ledger → Event → Bool}
    (hcheck : ∀ w l e, check w l e = true → P w l e)
    {w w' : System store} {l l' : Ledger} {turns : List Turn} (hrun : Run store P w l)
    (h : w.follow serve check l turns = some (w', l')) : Run store P w' l' := by
  induction turns generalizing w l with
  | nil =>
    cases h
    exact hrun
  | cons turn turns ih =>
    simp only [System.follow, Option.bind_eq_bind, Option.bind_eq_some_iff] at h
    obtain ⟨⟨e, w₁⟩, hturn, hrest⟩ := h
    split at hrest
    · rename_i hmeets
      exact ih (.step hrun (hcheck w l e hmeets) (System.turn_step hserve hturn)) hrest
    · cases hrest

/-! ## A store that is done at once -/

/-- A store that takes every commit in one step. -/
def promptStore : OffsetStore where
  Content := Unit
  Work := Unit
  commit _ _ := ()
  Step _ _ _ result := result = .inr (.ok ())

def promptServe (_ : promptStore.Content) (_ : promptStore.Work) :
    Option (promptStore.Content × Except GroupError Unit) :=
  some ((), .ok ())

/-- The run of a schedule from an empty coordinator at time zero, over this store. -/
def promptRun (check : System promptStore → Ledger → Event → Bool) (turns : List Turn) :
    Option (System promptStore × Ledger) :=
  (System.init 0 ()).follow promptServe check (fun _ => ⟨fun _ => 0, 0⟩) turns

/-- What holds at the end of a schedule holds of a state that a run reaches. -/
theorem promptRun_exists (P : System promptStore → Ledger → Event → Prop)
    (check : System promptStore → Ledger → Event → Bool) (turns : List Turn)
    (Q : System promptStore → Ledger → Bool) (hcheck : ∀ w l e, check w l e = true → P w l e)
    (h : (promptRun check turns).any (fun p => Q p.1 p.2) = true) :
    ∃ w l, Run promptStore P w l ∧ Q w l = true := by
  cases hfollow : promptRun check turns with
  | none =>
    rw [hfollow] at h
    cases h
  | some p =>
    obtain ⟨w, l⟩ := p
    rw [hfollow] at h
    have hserve : ∀ content work content' result,
        promptServe content work = some (content', result) →
          promptStore.Step content work content' (.inr result) := by
      intro content work content' result heq
      cases heq
      rfl
    have hinit := @Run.init promptStore P 0 () fun _ => ⟨fun _ => 0, 0⟩
    exact ⟨w, l, System.follow_run hserve hcheck hinit hfollow, h⟩

/-- So does what holds of one more turn. -/
theorem promptRun_step (P : System promptStore → Ledger → Event → Prop)
    (check : System promptStore → Ledger → Event → Bool) (turns : List Turn) (turn : Turn)
    (Q : System promptStore → Ledger → Event → System promptStore → Bool)
    (hcheck : ∀ w l e, check w l e = true → P w l e)
    (h : (promptRun check turns).any (fun p => (p.1.turn promptServe turn).any fun q =>
      check p.1 p.2 q.1 && Q p.1 p.2 q.1 q.2) = true) :
    ∃ w l e w', Run promptStore P w l ∧ P w l e ∧ Step promptStore w e w' ∧ Q w l e w' = true := by
  obtain ⟨w, l, hrun, hnext⟩ := promptRun_exists P check turns (fun w l =>
    (w.turn promptServe turn).any fun q => check w l q.1 && Q w l q.1 q.2) hcheck h
  cases hturn : w.turn promptServe turn with
  | none =>
    rw [hturn] at hnext
    cases hnext
  | some q =>
    obtain ⟨e, w'⟩ := q
    rw [hturn, Option.any_some, Bool.and_eq_true] at hnext
    have hstep : Step promptStore w e w' := System.turn_step (fun _ _ _ _ heq => by
      cases heq
      rfl) hturn
    exact ⟨w, l, e, w', hrun, hcheck w l e hnext.1, hstep, hnext.2⟩

/-- A consumer with these timeouts. -/
def consumer (sessionTimeoutMs rebalanceTimeoutMs : Int) : JoinRequest :=
  ⟨sessionTimeoutMs, rebalanceTimeoutMs, "", "consumer", [⟨"range", []⟩]⟩

/-- One member has joined and synced, and is committing: the commit holds the lock of the slot. -/
def committing : List Turn :=
  [.call (.join "group" (consumer 300000 300000)), .move 0 "", .move 0 "", .move 0 "", .move 0 "",
    .move 0 "first", .move 0 "", .move 0 "u1", .move 0 "", .move 0 "u2", .move 0 "",
    .call (.sync "group" 1 "first" [⟨"first", []⟩]), .move 0 "", .move 0 "", .move 0 "u3",
    .move 0 "",
    .call (.commit "group" 1 "first" [⟨"topic", 0, 0, none, zero_le_i64Max⟩]), .move 0 "", .move 0 "",
    .move 0 "u4"]

/-- A join that finds its slot, from the call to the return: it reads the clock, and takes the lock
for three sections. -/
def joins (request : JoinRequest) (assigned u u' : String) : List Turn :=
  [.call (.join "group" request), .move 0 "", .move 0 "", .move 0 "", .move 0 assigned,
    .move 0 "", .move 0 u, .move 0 "", .move 0 u', .move 0 ""]

/-- An operation of one section that finds its slot, from the call to the return. -/
def serves (call : Call) (u : String) : List Turn :=
  [.call call, .move 0 "", .move 0 "", .move 0 u, .move 0 ""]

/-- Two members come to a generation of both of them, and sync. The session of the second one
ends after ten seconds, the first one learns of it and goes on alone. A stranger reads the clock
and is refused a second later. Then a third member joins with a session of ten milliseconds, and is
about to look at the group when that is over. -/
def lifetime : List Turn :=
  -- the first member founds the group
  [.call (.join "group" (consumer 300000 300000)), .move 0 "", .move 0 "", .move 0 "", .move 0 "",
    .move 0 "first", .move 0 "", .move 0 "u1", .move 0 "", .move 0 "u2", .move 0 ""] ++
  -- the second member waits for the first one to rejoin
  [.call (.join "group" (consumer 10000 20000)), .move 0 "", .move 0 "", .move 0 "",
    .move 0 "second", .move 0 "", .move 0 "u3", .move 0 "", .move 0 "u4"] ++
  serves (.heartbeat "group" 1 "first") "u5" ++
  joins { consumer 300000 300000 with memberId := "first" } "u6" "u7" "u8" ++
  [.move 2 "", .move 2 "u9", .move 2 ""] ++
  serves (.sync "group" 2 "first" [⟨"first", []⟩, ⟨"second", []⟩]) "u10" ++
  serves (.sync "group" 2 "second" []) "u11" ++
  -- the session of the second member is over
  [.tick 10000000000] ++
  serves (.heartbeat "group" 2 "first") "u12" ++
  joins { consumer 300000 300000 with memberId := "first" } "u13" "u14" "u15" ++
  serves (.sync "group" 3 "first" [⟨"first", []⟩]) "u16" ++
  -- a stranger, with a reading of the clock that is out of date
  [.call (.join "group" { consumer 300000 300000 with memberId := "stranger" }), .move 0 "",
    .move 0 "", .tick 11000000000, .move 0 "", .move 0 "u17", .move 0 ""] ++
  -- a member whose session is short
  [.call (.join "group" (consumer 10 300000)), .move 0 "", .move 0 "", .move 0 "", .move 0 "third",
    .tick 11020000000, .move 0 ""]

/-- The third member looks at the group twice, and fails. -/
def looking : List Turn := [.move 0 "u18", .move 0 "", .move 0 "u19", .move 0 ""]

/-- What one turn after another leads to is reachable. -/
theorem promptRun_reachable (turns : List Turn) (Q : System promptStore → Bool)
    (h : (promptRun (fun _ _ _ => true) turns).any (fun p => Q p.1) = true) :
    ∃ w : System promptStore, Reachable w ∧ Q w = true := by
  obtain ⟨w, l, hrun, hQ⟩ := promptRun_exists (fun _ _ _ => True) (fun _ _ _ => true) turns
    (fun w _ => Q w) (fun _ _ _ _ => trivial) h
  exact ⟨w, ⟨l, hrun⟩, hQ⟩

/-- Is the member in the group of the slot? -/
def System.has (w : System promptStore) (slot : Nat) (id : String) : Bool :=
  (w.shared.slots slot).state.any fun g => g.members.contains id

/-- Is this slot the one of the group, in use, with a group of this generation? -/
def System.commits (w : System promptStore) (group : String) (slot : Nat)
    (generation : Int) : Bool :=
  w.shared.groups[group]? == some slot && (w.shared.slots slot).locked &&
    (w.shared.slots slot).state.any fun g => g.generationId == generation

end Walstream.Group
