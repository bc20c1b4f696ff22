import Walstream.Log.WorldSteps

/-!
# Programs among worlds

The sound worlds of a service and their order, what one client relies on and guarantees,
and the soundness of drafts in these worlds: a draft that starts from the objects of a
manifest is undisturbed until that manifest has been replaced.
-/

namespace Walstream.Log

open Interaction PartitionLog Scene

variable {Client : Type}

/-- A sound world of a service that began with `g`. -/
structure World (Y : Service Client) (g : Genesis Y.log) where
  scene : Scene Client
  sound : Sound Y g scene

variable {Y : Service Client} {g : Genesis Y.log} {cl : Client}

instance : Preorder (World Y g) where
  le w w' := Le Y.log w.scene w'.scene
  le_refl w := Le.refl Y.log w.scene
  le_trans _ _ _ := Le.trans

namespace World

variable (w : World Y g)

abbrev bucket : Bucket Client Body := w.scene.bucket
abbrev head : Option Body := w.scene.head Y.log
abbrev manifest : LogManifest := w.scene.manifest Y.log
abbrev revision : Nat := w.scene.revision Y.log
noncomputable abbrev tally (cl : Client) : Nat := w.scene.tally Y.log cl

theorem revision_of_head {base : Option Body} (h : w.head = base) :
    w.revision = (manifestOf base).revision := h ▸ rfl

theorem manifest_of_head {base : Option Body} (h : w.head = base) : w.manifest = manifestOf base :=
  h ▸ rfl

end World

/-! ## The first world -/

/-- What is known at the beginning. -/
def Genesis.scene {log : PartitionLog} (g : Genesis log) : Scene Client where
  bucket := g.bucket
  made := fun path => if path ∈ g.live then g.objects path else none
  promised := fun path => if path ∈ g.live then g.objects path else none
  owner := fun _ => none
  live := g.live
  state := g.state
  commits := g.past

theorem Genesis.scene_sound (Y : Service Client) (g : Genesis Y.log) :
    Sound Y g (g.scene : Scene Client) := by
  -- everything that is there was issued before
  have hsettled : ∀ {path}, g.objects path ≠ none →
      (g.scene : Scene Client).Settled Y.log path :=
    fun hp id hid => g.issued_of_named hp hid
  -- only what the first manifest reaches is promised
  have hlive : ∀ {path body}, (g.scene : Scene Client).promised path = some body →
      path ∈ g.live ∧ g.objects path = some body := by
    intro path body hp
    have hp' : (if path ∈ g.live then g.objects path else none) = some body := hp
    split at hp'
    · rename_i hmem
      exact ⟨hmem, hp'⟩
    · cases hp'
  -- nothing has happened yet, so that most parts hold trivially
  exact {
    order := g.order
    order₀ := g.order₀
    coherent := g.coherent.mono fun o ho => if_pos ho
    filed := fun {path} hp => by
      obtain ⟨body, hbody⟩ := Option.ne_none_iff_exists'.mp hp
      obtain ⟨hmem, hobject⟩ := hlive hbody
      have hfiled := g.coherent.filed g.topic hmem
      exact ⟨hfiled.1, hfiled.2, hsettled (by simp [hobject])⟩
    made := fun h => h
    agrees := fun {path body body'} hp ho => by
      have ho' : g.objects path = some body' := ho
      rw [(hlive hp).2] at ho'
      exact (Option.some.inj ho').symm
    present := fun hm _ => (hlive hm).2
    held := fun {path body} hh => by
      have hobject : g.objects path ≠ none := by
        rcases hh with hh | hh
        · have hh' : g.objects path = some body := hh
          simp [hh']
        · cases hh
      exact ⟨hsettled hobject, g.path hobject⟩
    owner := fun hp => absurd rfl hp
    rank_le := fun _ => Nat.zero_le _
    inFlight := fun req hreq => by cases hreq
    deletions := fun e he => by cases he
    chronicle := .start
    single := fun cl _ => by simp [tally, scene, bucket, Bucket.initial] }

/-- The first world. -/
def Genesis.world (Y : Service Client) (g : Genesis Y.log) : World Y g := ⟨g.scene, g.scene_sound Y⟩

/-! ## Company -/

/-- What the client guarantees the others. -/
def Guarantee (cl : Client) (w w' : World Y g) : Prop :=
  w ≤ w' ∧ ∀ cl' ≠ cl, Unharmed Y.log cl' w.scene w'.scene

theorem Guarantee.refl (w : World Y g) : Guarantee cl w w :=
  ⟨le_rfl, fun cl' _ => Unharmed.refl Y.log cl' w.scene⟩

theorem Guarantee.trans {w₁ w₂ w₃ : World Y g} (h : Guarantee cl w₁ w₂) (h' : Guarantee cl w₂ w₃) :
    Guarantee cl w₁ w₃ :=
  ⟨h.1.trans h'.1, fun cl' hcl => (h.2 cl' hcl).trans (h'.2 cl' hcl)⟩

/-- What a client expects of the others. -/
structure Company (Y : Service Client) (g : Genesis Y.log) (cl : Client) where
  rely : World Y g → World Y g → Prop
  refl : ∀ w, rely w w
  trans : ∀ {w₁ w₂ w₃}, rely w₁ w₂ → rely w₂ w₃ → rely w₁ w₃
  le : ∀ {w w'}, rely w w' → w ≤ w'
  unharmed : ∀ {w w'}, rely w w' → Unharmed Y.log cl w.scene w'.scene
  /-- Nobody else replaces the manifest, and nothing goes wrong. -/
  alone : Prop
  head : ∀ {w w'}, alone → rely w w' → w'.head = w.head
  faults : alone → Y.faults cl = Faults.none

/-- The others may do anything that does not harm the client. -/
def Company.others (Y : Service Client) (g : Genesis Y.log) (cl : Client) : Company Y g cl where
  rely w w' := w ≤ w' ∧ Unharmed Y.log cl w.scene w'.scene
  refl w := ⟨le_rfl, Unharmed.refl Y.log cl w.scene⟩
  trans h h' := ⟨h.1.trans h'.1, h.2.trans h'.2⟩
  le h := h.1
  unharmed h := h.2
  alone := False
  head h := h.elim
  faults h := h.elim

/-- Nobody else does anything. -/
def Company.nobody (Y : Service Client) (g : Genesis Y.log) (cl : Client)
    (hf : Y.faults cl = Faults.none) : Company Y g cl where
  rely w w' := w = w'
  refl _ := rfl
  trans h h' := h.trans h'
  le h := h ▸ le_rfl
  unharmed {w _} h := h ▸ Unharmed.refl Y.log cl w.scene
  alone := True
  head _ h := h ▸ rfl
  faults _ := hf

namespace Company

variable (C : Company Y g cl)

/-- The client's program in this company. -/
def arena : Arena (Cmd Body) Resp (Bucket Client Body) (World Y g) where
  view w := w.bucket
  exec := Bucket.Executes (Y.faults cl) Y.log.crates.size cl
  rely := C.rely
  guarantee := Guarantee cl
  rely_refl := C.refl
  rely_trans := C.trans
  rely_le := C.le
  guarantee_refl := Guarantee.refl
  guarantee_le h := h.1

/-- A property of worlds that the others keep, and the client keeps until it publishes. -/
structure Frame (I : World Y g → Prop) : Prop where
  rely : ∀ {w w'}, C.rely w w' → I w → I w'
  step : ∀ {w w'}, w'.head = w.head → w'.tally cl ≤ w.tally cl → I w → I w'

end Company

/-- The client has not written the manifest yet, if it may do so only once. -/
def Calm (cl : Client) (w : World Y g) : Prop := Single Y cl → w.tally cl = 0

/-- The client is at work since the manifest was `base`: it has not published anything, and
if it is alone, the manifest is still the same. -/
structure Company.At (C : Company Y g cl) (base : Option Body) (w : World Y g) : Prop where
  calm : Calm cl w
  head : C.alone → w.head = base

theorem Company.at_frame (C : Company Y g cl) (base : Option Body) : C.Frame (C.At base) where
  rely h hw := ⟨fun hs => Nat.le_zero.mp (hw.calm hs ▸ (C.unharmed h).tally), fun ha =>
    (C.head ha h).trans (hw.head ha)⟩
  step hhead htally hw := ⟨fun hs => Nat.le_zero.mp (hw.calm hs ▸ htally), fun ha =>
    hhead.trans (hw.head ha)⟩

/-! ## Drafts -/

section Drafts

/-- The notes are right in the world, for a draft of the client that started from the
manifest `base`, which reaches `live`. -/
structure Rep (I : World Y g → Prop) (cl : Client) (base : Option Body) (live : List String)
    (w : World Y g) (n : Notes Body) : Prop where
  frame : I w
  since : w.head = base ∨ (manifestOf base).revision < w.revision
  coherent : ∃ v, Y.log.Coherent w.scene.made (manifestOf base) live v
  content : ∀ {path body}, n.content path = some body → w.scene.made path = some body ∧
    (path ∈ live ∨ w.scene.Settled Y.log path ∧ w.scene.rank path = (manifestOf base).revision)
  own : ∀ {path}, path ∈ n.own → w.scene.Settled Y.log path ∧
    w.scene.rank path = (manifestOf base).revision ∧ (n.content path = none → w.scene.Reserved cl path)

/-- Why the store may fail a read of a draft. -/
def Excuse (I : World Y g → Prop) (cl : Client) (base : Option Body) (w : World Y g)
    (e : StoreError) : Prop :=
  I w ∧ (e = .generic ∧ (Y.faults cl).transport ∨
    e = .notFound ∧ (manifestOf base).revision < w.revision)

/-- Why the store may fail to create an object of a draft. -/
def CreateExcuse (I : World Y g → Prop) (cl : Client) (w : World Y g) (e : StoreError) : Prop :=
  I w ∧ (e = .generic ∧ (Y.faults cl).transport ∨ e.IsRefusal ∧ (Y.faults cl).misreport)

variable {I : World Y g → Prop} {base : Option Body} {live : List String} {w w' : World Y g}
  {n : Notes Body} {path : String} {body : Body}

theorem Rep.revision_le (h : Rep I cl base live w n) : (manifestOf base).revision ≤ w.revision := by
  rcases h.since with heq | hlt
  · exact (w.revision_of_head heq).ge
  · exact hlt.le

theorem Rep.rely {C : Company Y g cl} (hI : C.Frame I) (h : Rep I cl base live w n)
    (hw : C.rely w w') : Rep I cl base live w' n where
  frame := hI.rely hw h.frame
  since := by
    have hle : Le Y.log w.scene w'.scene := C.le hw
    rcases h.since with heq | hlt
    · rcases hle.head with heq' | hlt'
      · exact .inl (heq'.trans heq)
      · exact .inr ((w.revision_of_head heq).symm.trans_lt hlt')
    · exact .inr (hlt.trans_le hle.revision)
  coherent := by
    obtain ⟨v, hv⟩ := h.coherent
    exact ⟨v, hv.extend fun _ _ => (C.le hw).made⟩
  content := fun hc => by
    have hle : Le Y.log w.scene w'.scene := C.le hw
    refine ⟨hle.made (h.content hc).1, (h.content hc).2.imp_right fun ⟨hs, hr⟩ => ?_⟩
    exact ⟨hle.settled hs, (hle.rank hs).trans hr⟩
  own := fun ho => by
    have hle : Le Y.log w.scene w'.scene := C.le hw
    obtain ⟨hs, hr, hreserved⟩ := h.own ho
    exact ⟨hle.settled hs, (hle.rank hs).trans hr, fun hn => (C.unharmed hw).reserved (hreserved hn)⟩

/-- What the notes contain can be missing only when the manifest has been replaced. -/
theorem Rep.missing (h : Rep I cl base live w n) (hc : n.content path = some body)
    (hnone : w.bucket.objects path = none) : (manifestOf base).revision < w.revision := by
  obtain ⟨hmade, hwhy⟩ := h.content hc
  have hdead : w.scene.Dead Y.log path := by
    by_contra hnot
    rw [w.sound.present hmade hnot] at hnone
    cases hnone
  rcases h.since with heq | hlt
  · obtain ⟨v, hv⟩ := h.coherent
    obtain ⟨hlive, -⟩ := w.sound.coherent.unique ((w.manifest_of_head heq).symm ▸ hv)
    rw [← hlive] at hwhy
    rcases hwhy with hmem | ⟨-, hrank⟩
    · exact absurd hmem hdead.2.2
    · rw [← hrank]
      exact hdead.2.1
  · exact hlt

/-- What the notes contain is what the store answers. -/
theorem Rep.answer (h : Rep I cl base live w n) (hc : n.content path = some body) {body' : Body}
    (ho : w.bucket.objects path = some body') : body' = body :=
  w.sound.agrees (w.sound.made (h.content hc).1) ho

variable (path body) in
/-- The draft's next object is promised and not yet created. -/
private theorem Rep.promise (h : Rep I cl base live w n) (hown : path ∈ n.own)
    (hnone : n.content path = none) :
    ∃ w₁ : World Y g, w₁.bucket = w.bucket ∧ Guarantee cl w w₁ ∧ w₁.head = w.head ∧
      w₁.tally cl = w.tally cl ∧ w₁.scene.promised path = some body ∧ Y.log.Filed path ∧
      w.bucket.objects path = none ∧
      ∀ p ≠ path, w.scene.Reserved cl p → w₁.scene.Reserved cl p := by
  have hreserved := (h.own hown).2.2 hnone
  have hsound : Sound Y g (w.scene.promise path body) := w.sound.promise hreserved
  exact ⟨⟨_, hsound⟩, rfl, ⟨promise_le hreserved, fun cl' hcl =>
    promise_unharmed hreserved hcl⟩, rfl, rfl, by simp [Scene.promise],
    (w.sound.reserved_filed hreserved).1, hreserved.2.2, fun p hp => promise_reserved hp⟩

variable (path body) in
/-- The draft's next object is created. -/
private theorem Rep.create {C : Company Y g cl} (hI : C.Frame I) (h : Rep I cl base live w n)
    (hown : path ∈ n.own) (hnone : n.content path = none) :
    ∃ w', Guarantee cl w w' ∧ w'.bucket = w.bucket.change cl path (some body) ∧
      Rep I cl base live w' (n.write path body) := by
  -- the object is reserved for this draft, and promised before it is written
  obtain ⟨w₁, hbucket, hguarantee, hhead, htally, hpromised, hfiled, -, hreserved⟩ :=
    h.promise path body hown hnone
  obtain ⟨s, hs, hsound, hle, hunharmed, hmade⟩ := w₁.sound.create cl hfiled hpromised
  have hguarantee' : Guarantee cl w ⟨s, hsound⟩ :=
    hguarantee.trans ⟨hle, fun cl' _ => hunharmed cl'⟩
  have hle' : Le Y.log w.scene s := hguarantee'.1
  have hs' : s.bucket = w.bucket.change cl path (some body) := by rw [hs, ← hbucket]
  -- the manifest is another object
  have hhead' : s.head Y.log = w.head := by
    change s.bucket.objects _ = w.bucket.objects _
    rw [hs']
    simp [Function.update_of_ne (ne_manifestPath g hfiled).symm]
  -- the notes are right after the write, part by part
  refine ⟨⟨s, hsound⟩, hguarantee', hs', ⟨hI.step hhead' ?_ h.frame, ?_, ?_, ?_, ?_⟩⟩
  · exact (hunharmed cl).tally.trans htally.le
  · rcases h.since with heq | hlt
    · exact .inl (hhead'.trans heq)
    · exact .inr (hlt.trans_le hle'.revision)
  · obtain ⟨v, hv⟩ := h.coherent
    exact ⟨v, hv.extend fun _ _ => hle'.made⟩
  -- the new object is noted, and the others are as they were
  · intro p b hp
    by_cases heq : p = path
    · subst heq
      obtain ⟨hsettled, hrank, -⟩ := h.own hown
      rw [Notes.write_content_self, Option.some.injEq] at hp
      exact ⟨hp ▸ hmade, .inr ⟨hle'.settled hsettled, (hle'.rank hsettled).trans hrank⟩⟩
    · obtain ⟨hm, hwhy⟩ := h.content (by simpa [Notes.write, heq] using hp)
      exact ⟨hle'.made hm, hwhy.imp_right fun h =>
        ⟨hle'.settled h.1, (hle'.rank h.1).trans h.2⟩⟩
  -- a reserved name is still reserved
  · intro p hp
    obtain ⟨hsettled, hrank, hres⟩ := h.own hp
    refine ⟨hle'.settled hsettled, (hle'.rank hsettled).trans hrank, fun hn => ?_⟩
    have hne : p ≠ path := fun heq => by simp [heq] at hn
    exact (hunharmed cl).reserved (hreserved p hne (hres (by simpa [Notes.write, hne] using hn)))

variable (path body) in
/-- The draft's next object is not created, or only later. -/
private theorem Rep.give_up {C : Company Y g cl} (hI : C.Frame I) (h : Rep I cl base live w n)
    (hown : path ∈ n.own) (hnone : n.content path = none) :
    ∃ w', Guarantee cl w w' ∧ w'.bucket = w.bucket.send (.put cl path body .create) ∧ I w' := by
  obtain ⟨w₁, hbucket, hguarantee, hhead, htally, hpromised, hfiled, -⟩ :=
    h.promise path body hown hnone
  have hnot : ∀ cl', ¬ Publishes Y.log cl' (.put cl path body .create) :=
    fun cl' hpub => ne_manifestPath g hfiled hpub.2
  have hsanctioned : Sanctioned Y w₁.scene (.put cl path body .create) :=
    .create hfiled hpromised
  have hsound := w₁.sound.send hsanctioned fun cl' _ hpub => absurd hpub (hnot cl')
  exact ⟨⟨_, hsound⟩, hguarantee.trans ⟨reroute_le, fun cl' _ => send_unharmed (hnot cl')⟩,
    congrArg (fun b => Bucket.send b _) hbucket,
    hI.step hhead ((send_unharmed (hnot cl)).tally.trans htally.le) h.frame⟩

/-- Fresh names are drawn. -/
private theorem Rep.draw {C : Company Y g cl} (hI : C.Frame I) (h : Rep I cl base live w n)
    {id : Uuid} (hid : id ∉ w.bucket.issued) :
    ∃ w', Guarantee cl w w' ∧
      w'.bucket = { w.bucket with issued := insert id w.bucket.issued } ∧
      Rep I cl base live w' (n.draw (Y.log.names id)) := by
  have hsound : Sound Y g (w.scene.draw Y.log cl (manifestOf base).revision id) :=
    w.sound.draw hid h.revision_le
  have hle : Le Y.log w.scene (w.scene.draw Y.log cl (manifestOf base).revision id) := draw_le hid
  refine ⟨⟨_, hsound⟩, ⟨hle, fun cl' _ => draw_unharmed w.sound hid⟩, rfl,
    ⟨hI.step (w := w) rfl le_rfl h.frame, h.since, ?_, ?_, ?_⟩⟩
  · obtain ⟨v, hv⟩ := h.coherent
    exact ⟨v, hv⟩
  · intro p b hp
    obtain ⟨hm, hwhy⟩ := h.content hp
    exact ⟨hm, hwhy.imp_right fun ⟨hsettled, hrank⟩ =>
      ⟨hle.settled hsettled, (hle.rank hsettled).trans hrank⟩⟩
  · intro p hp
    by_cases hmem : p ∈ Y.log.names id
    · obtain ⟨hreserved, hrank⟩ :=
        draw_reserved cl (manifestOf base).revision w.sound hid hmem
      exact ⟨(hsound.reserved_filed hreserved).2.2, hrank, fun _ => hreserved⟩
    · obtain ⟨hsettled, hrank, hres⟩ := h.own (hp.resolve_right hmem)
      exact ⟨hle.settled hsettled, (hle.rank hsettled).trans hrank, fun hn =>
        (draw_unharmed w.sound hid).reserved (hres hn)⟩

/-- **Drafts are sound in worlds**: the store answers a draft with what its notes contain, or
excuses itself. -/
theorem rep_grounds {C : Company Y g cl} (hI : C.Frame I) (base : Option Body) (live : List String) :
    Grounds C.arena Y.log.names Y.log.crates.size (Rep I cl base live) (Excuse I cl base)
      (CreateExcuse I cl) where
  -- what others do does not touch what is noted
  rely := fun hw h => h.rely hI hw
  -- a noted object is found, or its absence has an excuse
  get := by
    rintro w n path body r s h hc ⟨hgot, rfl⟩
    refine ⟨rfl, ?_⟩
    cases hgot with
    | found ho =>
      obtain rfl := h.answer hc ho
      exact .inl rfl
    | missing ho => exact .inr ⟨_, .inl rfl, h.frame, .inr ⟨rfl, h.missing hc ho⟩⟩
    | interrupted hf ho =>
      obtain rfl := h.answer hc ho
      exact .inr ⟨_, .inr rfl, h.frame, .inl ⟨rfl, hf⟩⟩
    | failed hf => exact .inr ⟨_, .inl rfl, h.frame, .inl ⟨rfl, hf⟩⟩
  -- the same for its size
  head := by
    rintro w n path body r s h hc ⟨hheaded, rfl⟩
    refine ⟨rfl, ?_⟩
    cases hheaded with
    | found ho =>
      obtain rfl := h.answer hc ho
      exact .inl rfl
    | missing ho => exact .inr ⟨_, rfl, h.frame, .inr ⟨rfl, h.missing hc ho⟩⟩
    | failed hf => exact .inr ⟨_, rfl, h.frame, .inl ⟨rfl, hf⟩⟩
  -- the write arrives, or has an excuse
  put := by
    intro w n path body r s h hown hnone hput
    obtain ⟨w₁, hguarantee, hbucket, hrep⟩ := h.create path body hI hown hnone
    have hput : Put (Y.faults cl) cl w.bucket path body .create r s := hput
    cases hput with
    | written => exact ⟨w₁, hguarantee, hbucket, .inl ⟨rfl, hrep⟩⟩
    -- nobody else creates an object of this draft
    | refused he hnot => exact absurd ((h.own hown).2.2 hnone).2.2 hnot
    | lost hf => exact ⟨w, Guarantee.refl w, rfl, .inr ⟨_, rfl, h.frame, .inl ⟨rfl, hf⟩⟩⟩
    | unacknowledged hf =>
      exact ⟨w₁, hguarantee, hbucket, .inr ⟨_, rfl, hrep.frame, .inl ⟨rfl, hf⟩⟩⟩
    | delayed hf =>
      obtain ⟨w₂, hguarantee₂, hbucket₂, hframe⟩ := h.give_up path body hI hown hnone
      exact ⟨w₂, hguarantee₂, hbucket₂, .inr ⟨_, rfl, hframe, .inl ⟨rfl, hf⟩⟩⟩
    | misreported hf he =>
      exact ⟨w₁, hguarantee, hbucket, .inr ⟨_, rfl, hrep.frame, .inr ⟨he, hf⟩⟩⟩
    | spurious hf he =>
      exact ⟨w, Guarantee.refl w, rfl, .inr ⟨_, rfl, h.frame, .inr ⟨he, hf⟩⟩⟩
  -- the names of a fresh id are free
  newV4 := by
    rintro w n id s h ⟨hid, rfl⟩
    refine ⟨fun path hpath => ?_, ?_⟩
    · by_contra hne
      obtain ⟨body, hbody⟩ := Option.ne_none_iff_exists'.mp hne
      have hmade := (h.content hbody).1
      exact hid ((w.sound.filed (by simp [w.sound.made hmade])).2.2 id hpath)
    · exact h.draw hI hid

end Drafts

end Walstream.Log
