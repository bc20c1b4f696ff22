import Walstream.Log.Loading

/-!
# From a draft to a publication

A draft starts from the manifest that was just loaded and from the objects it reaches. When
it has prepared a root, the client holds a ticket for that root, and the conditional write of
the manifest redeems the ticket: the log moves on by one publication of this client.

- `Company.At.begins`: the notes a draft starts from.
- `Rep.ticket`: what a draft has to prepare.
- `publish_ends`: the conditional write.
-/

namespace Walstream.Log

open Interaction PartitionLog Scene

variable {Client : Type} {Y : Service Client} {g : Genesis Y.log} {cl : Client}
  {C : Company Y g cl} {w w' : World Y g}

/-! ## The start of a draft -/

/-- The objects that the current manifest reaches. -/
def World.notes (w : World Y g) : Notes Body :=
  ⟨fun path => if path ∈ w.scene.live then w.scene.made path else none, ∅⟩

theorem World.notes_coherent (w : World Y g) :
    Y.log.Coherent w.notes.content (manifestOf w.head) w.scene.live w.scene.state :=
  w.sound.coherent.mono fun _ ho => if_pos ho

/-- What the notes contain is in the bucket. -/
theorem World.notes_content {path : String} {body : Body} (h : w.notes.content path = some body) :
    w.bucket.objects path = some body := by
  unfold World.notes at h
  dsimp only at h
  split at h
  · rename_i hlive
    rw [w.sound.live_present hlive, h]
  · cases h

/-- A draft starts from the manifest that was just loaded. -/
theorem Company.At.begins {base : Option Body} (h : C.At base w) :
    Rep (C.At base) cl w.head w.scene.live w w.notes where
  frame := h
  since := .inl rfl
  coherent := ⟨_, w.sound.coherent⟩
  content := fun {path body} hc => by
    unfold World.notes at hc
    dsimp only at hc
    split at hc
    · rename_i hlive
      exact ⟨hc, .inl hlive⟩
    · cases hc
  own := fun ho => ho.elim

/-- As long as the manifest is the same, it stands for the same log. -/
theorem World.state_eq (h : w ≤ w') (hhead : w'.head = w.head) :
    w'.scene.state = w.scene.state := by
  have hle : Le Y.log w.scene w'.scene := h
  have hcoherent : Y.log.Coherent w'.scene.made (manifestOf w'.head) w.scene.live w.scene.state := by
    rw [hhead]
    exact w.sound.coherent.extend fun _ _ => hle.made
  exact (w'.sound.coherent.unique hcoherent).2

/-! ## The ticket -/

/-- A root that passes the checks of its writer is accepted by `load_manifest`. -/
theorem accepted_of_valid {log : PartitionLog} {root : Root} (h : log.validateRoot root = .ok ())
    (hsize : ¬ log.crates.size (.manifest (.indexed root)) > maxManifestBytes) :
    log.Accepted (.indexed root) := by
  have hvalid := validateRoot_eq_ok.mp h
  have hshape : (root.schema = 2 ∨ root.schema = 3 ∨ root.schema = indexSchema) ∧
      root.tail.length ≤ pageEntries := ⟨hvalid.schema, hvalid.tail_le⟩
  simp [Accepted, acceptManifest, rejectIf, hsize, Crates.collectBounded, parseManifest, hshape, h,
    bind, Except.bind, pure, Except.pure]

variable {I : World Y g → Prop} {base : Option Body} {live : List String} {n n' : Notes Body}

/-- What the draft of `base` has prepared can be published in its place. -/
theorem Rep.ticket (h : Rep I cl base live w n') (hn : n.Grows n') {v v' : LogState} {root : Root}
    {live' : List String} {new : List (List Record × Int)}
    (hbase : Y.log.Coherent n.content (manifestOf base) live v)
    (haccepted : Y.log.Accepted (.indexed root))
    (hroot : Y.log.Coherent n'.content (.indexed root) live' v')
    (hobjects : ∀ o ∈ live', o ∈ live ∨ n.content o = none ∧ Y.log.Named o)
    (hadvance : Advance Y cl n'.content (manifestOf base) v root v' new) :
    w.scene.Ticket Y cl base root := by
  have hmade : ∀ o body, n'.content o = some body → w.scene.made o = some body :=
    fun o body ho => (h.content ho).1
  have hbase' : Y.log.Coherent w.scene.made (manifestOf base) live v :=
    hbase.extend fun o body ho => hmade o body (hn.content o body ho)
  refine ⟨haccepted, live, v, live', v', new, hbase', hroot.extend hmade, fun o ho => ?_,
    hadvance.mono fun s hs => ?_⟩
  · refine (hobjects o ho).imp_right fun ⟨hnone, _⟩ => ?_
    -- the draft has created the object itself
    obtain ⟨body, hbody⟩ := Option.ne_none_iff_exists'.mp (hroot.ne_none ho)
    obtain ⟨hsettled, hrank, -⟩ := h.own (hn.fresh o body hbody hnone)
    exact ⟨hsettled, hrank⟩
  · obtain ⟨bytes, hbytes⟩ := hroot.stored_segments s hs
    rw [hbytes.body, hmade _ _ hbytes.body]

/-! ## The conditional write -/

/-- A client whose refusals cannot be trusted relies on nothing. -/
theorem Company.At.of_misreport {base : Option Body} (hf : (Y.faults cl).misreport) :
    C.At base w where
  calm hsingle := absurd hf hsingle.1
  head halone := by
    rw [C.faults halone] at hf
    exact hf.elim

theorem mode_snapshotOf (head : Option Body) :
    (LoadedManifest.mk (manifestOf head) head).mode = modeOf head := by
  cases head <;> rfl

/-- Since the bucket was `s`, the client has replaced the manifest `base`, which stood for `v`, by
`root`. -/
def Landed (Y : Service Client) (g : Genesis Y.log) (cl : Client) (s b : Bucket Client Body)
    (base : Option Body) (v : LogState) (root : Root) : Prop :=
  ∃ es e es' commits, b.history = es ++ e :: es' ∧ s.history.length ≤ es.length ∧ e.client = cl ∧
    e.path = Y.log.manifestPath ∧ e.body = some (.manifest (.indexed root)) ∧
    e.before Y.log.manifestPath = base ∧ Chronicle Y g es v commits

theorem Landed.later {s b b' : Bucket Client Body} {v : LogState} {root : Root}
    (h : Landed Y g cl s b base v root) (hb : b.history <+: b'.history) :
    Landed Y g cl s b' base v root := by
  obtain ⟨es, e, es', commits, hhistory, hrest⟩ := h
  obtain ⟨more, hmore⟩ := hb
  exact ⟨es, e, es' ++ more, commits, by rw [← hmore, hhistory]; simp, hrest⟩

/-- The conditional write of the manifest: it lands, it fails in transport, or it is refused. -/
theorem publish_ends {w₀ : World Y g} (hw₀ : w₀ ≤ w) {start : Option Body} (hat : C.At start w)
    {root : Root} {v : LogState} (hbase : Y.log.Coherent w.scene.made (manifestOf base) live v)
    (ticket : w.scene.Ticket Y cl base root) {F : LogError → World Y g → Prop} :
    C.arena.Ends (Engine.perform
        (.put Y.log.manifestPath (.manifest (.indexed root)) (modeOf base))) w
      (fun r w' => match r with
        | .ok version => version = .manifest (.indexed root) ∧
            Landed Y g cl w₀.bucket w'.bucket base v root ∧ w'.head = some (.manifest (.indexed root))
        | .error e => e = .generic ∧ (Y.faults cl).transport ∨ e.IsRefusal ∧ C.At start w') F := by
  have hlanded : C.arena.Ends (Engine.perform
      (.put Y.log.manifestPath (.manifest (.indexed root)) (modeOf base))) w _ F := ends_put
    (fun w' => Landed Y g cl w₀.bucket w'.bucket base v root ∧
      w'.head = some (.manifest (.indexed root))) (C.At start) ?_ ?_
    fun w₁ hw₁ => (C.at_frame start).rely hw₁ hat
  -- what the store answers, in terms of the call
  · refine Arena.ends_mono hlanded (fun r w' _ hr => ?_) fun _ _ _ h => h
    cases r with
    | ok body => exact hr
    | error e =>
      refine hr.imp_right fun ⟨he, hr⟩ => ⟨he, ?_⟩
      rcases hr with ⟨hkept, -⟩ | ⟨hf, -⟩
      · exact hkept
      · exact .of_misreport hf
  · -- the ticket is redeemed
    intro w₁ hw₁ hadm
    have hle : Le Y.log w.scene w₁.scene := C.le hw₁
    have hat₁ := (C.at_frame start).rely hw₁ hat
    have hhead : w₁.head = base := admits_modeOf.mp hadm
    obtain ⟨sc, hbucket, hsound, hle', hmine⟩ := w₁.sound.redeem (ticket.later hle) hhead hat₁.calm
    -- the manifest is the one of the ticket, and stands for the same log
    have hstate : w₁.scene.state = v := by
      have hcoherent : Y.log.Coherent w₁.scene.made (manifestOf w₁.head) live v := by
        rw [hhead]
        exact hbase.extend fun _ _ => hle.made
      exact (w₁.sound.coherent.unique hcoherent).2
    refine ⟨⟨sc, hsound⟩, ⟨hle', fun cl' hcl => ⟨(hmine cl').1, ?_⟩⟩, hbucket, ?_, ?_⟩
    · rw [(hmine cl').2, if_neg hcl.symm]
      exact le_rfl
    · have hpast : w₀.bucket.history <+: w₁.bucket.history :=
        (Le.trans (show Le Y.log w₀.scene w.scene from hw₀) hle).history
      -- the publication is the latest change
      refine ⟨w₁.bucket.history, ⟨cl, Y.log.manifestPath, w₁.bucket.objects,
        some (.manifest (.indexed root))⟩, [], w₁.scene.commits, ?_, hpast.length_le, rfl, rfl, rfl, hhead, ?_⟩
      · change sc.bucket.history = _
        rw [hbucket]
        rfl
      · rw [← hstate]
        exact w₁.sound.chronicle
    · change sc.bucket.objects _ = _
      rw [hbucket]
      simp
  · -- the write is under way
    intro w₁ hw₁
    have hle : Le Y.log w.scene w₁.scene := C.le hw₁
    have hat₁ := (C.at_frame start).rely hw₁ hat
    have hsound := w₁.sound.send (.publish (ticket.later hle)) fun cl' hcl' hpub => by
      obtain rfl : cl = cl' := hpub.1
      exact hat₁.calm hcl'
    exact ⟨⟨_, hsound⟩, ⟨reroute_le, fun cl' hcl => send_unharmed fun hpub => hcl hpub.1.symm⟩, rfl⟩

end Walstream.Log
