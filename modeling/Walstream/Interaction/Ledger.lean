import Mathlib.Data.List.Nodup
import Walstream.Interaction.Alone

/-!
# A store that runs

A bucket together with an account of it: which UUIDs were handed out, and which objects there
are. With this account every request of a client that is alone can be answered, so that its
whole run can be computed (`Prog.run_ledger`).
-/

namespace Interaction

variable {Client Body : Type}

/-- A bucket with the account of its UUIDs and its objects. -/
structure Ledger (Client Body : Type) where
  bucket : Bucket Client Body
  ids : List Uuid
  paths : List String

namespace Ledger

/-- The account is right. -/
structure Balanced (l : Ledger Client Body) : Prop where
  ids : l.bucket.issued = {id | id ∈ l.ids}
  paths : ∀ path, l.bucket.objects path ≠ none → path ∈ l.paths
  nodup : l.paths.Nodup

/-- One object gets a new content. -/
def write (l : Ledger Client Body) (cl : Client) (path : String) (body : Option Body) :
    Ledger Client Body :=
  ⟨l.bucket.change cl path body, l.ids, if path ∈ l.paths then l.paths else path :: l.paths⟩

theorem Balanced.write {l : Ledger Client Body} (h : l.Balanced) (cl : Client) (path : String)
    (body : Option Body) : (l.write cl path body).Balanced where
  ids := h.ids
  paths := fun path' hne => by
    -- the path itself is listed after the write, and the others were before
    by_cases heq : path' = path
    · subst heq
      unfold Ledger.write
      dsimp only
      split
      · assumption
      · exact List.mem_cons_self
    · have hmem : path' ∈ l.paths := h.paths path' (by
        simpa [Ledger.write, Function.update_of_ne heq] using hne)
      unfold Ledger.write
      dsimp only
      split
      · exact hmem
      · exact List.mem_cons_of_mem _ hmem
  nodup := by
    unfold Ledger.write
    -- a path is listed once only
    dsimp only
    split
    · exact h.nodup
    · rename_i hnot
      exact List.nodup_cons.mpr ⟨hnot, h.nodup⟩

instance (directory path : String) : Decidable (Below directory path) :=
  inferInstanceAs (Decidable ((directory ++ "/").toList <+: path.toList))

/-- The entry of an object in a listing of the directory. -/
def entry (size : Body → Nat) (objects : String → Option Body) (directory path : String) :
    Option ObjectMeta :=
  if Below directory path then (objects path).map fun body => ⟨path, size body⟩ else none

theorem entry_eq_some {size : Body → Nat} {objects : String → Option Body}
    {directory path : String} {m : ObjectMeta} : entry size objects directory path = some m ↔
      m.location = path ∧ Below directory path ∧ ∃ body, objects path = some body ∧ size body = m.size := by
  unfold entry
  obtain ⟨location, n⟩ := m
  split
  · rename_i hbelow
    simp only [Option.map_eq_some_iff, ObjectMeta.mk.injEq]
    constructor
    · rintro ⟨body, hbody, rfl, rfl⟩
      exact ⟨rfl, hbelow, body, hbody, rfl⟩
    · rintro ⟨rfl, -, body, hbody, rfl⟩
      exact ⟨body, hbody, rfl, rfl⟩
  · rename_i hnot
    simp [hnot]

/-- How a store without faults answers a client that is alone. -/
def reply [DecidableEq Body] (size : Body → Nat) (cl : Client) :
    (c : Cmd Body) → Ledger Client Body → Option (Resp c × Ledger Client Body)
  | .get path, l => some ((l.bucket.objects path).elim (.error .notFound) fun body =>
      .ok ⟨size body, body, .ok body⟩, l)
  | .head path, l =>
    some ((l.bucket.objects path).elim (.error .notFound) fun body => .ok (size body), l)
  | .put path body mode, l =>
    if l.bucket.Admits path mode then some (.ok body, l.write cl path (some body))
    else some (.error .precondition, l)
  | .delete path, l =>
    if l.bucket.objects path = none then some (.error .notFound, l)
    else some (.ok (), l.write cl path none)
  | .list directory, l =>
    some ((l.paths.filterMap (entry size l.bucket.objects directory)).map .ok, l)
  | .newV4, l =>
    if BitVec.ofNat 128 l.ids.length ∈ l.ids then none
    else some (BitVec.ofNat 128 l.ids.length,
      ⟨{ l.bucket with issued := insert (BitVec.ofNat 128 l.ids.length) l.bucket.issued },
        BitVec.ofNat 128 l.ids.length :: l.ids, l.paths⟩)

theorem executes_of_reply [DecidableEq Body] {f : Faults} {size : Body → Nat} {cl : Client}
    {c : Cmd Body} {r : Resp c} {l l' : Ledger Client Body} (hl : l.Balanced)
    (h : reply size cl c l = some (r, l')) :
    Bucket.Executes f size cl c l.bucket r l'.bucket ∧ l'.Balanced := by
  cases c with
  | get path =>
    cases h
    -- a read is answered with the object of the path
    refine ⟨?_, hl⟩
    cases hbody : l.bucket.objects path with
    | none => exact ⟨.missing hbody, rfl⟩
    | some body => exact ⟨.found hbody, rfl⟩
  | head path =>
    cases h
    refine ⟨?_, hl⟩
    cases hbody : l.bucket.objects path with
    | none => exact ⟨.missing hbody, rfl⟩
    | some body => exact ⟨.found hbody, rfl⟩
  | put path body mode =>
    -- the mode of the write decides
    by_cases hadmits : l.bucket.Admits path mode
    · simp only [reply, if_pos hadmits] at h
      cases h
      exact ⟨.written hadmits, hl.write cl path _⟩
    · simp only [reply, if_neg hadmits] at h
      cases h
      exact ⟨.refused trivial hadmits, hl⟩
  | delete path =>
    -- deleting what is absent changes nothing
    by_cases hmissing : l.bucket.objects path = none
    · simp only [reply, if_pos hmissing] at h
      cases h
      exact ⟨.absent hmissing _ (.inr rfl), hl⟩
    · simp only [reply, if_neg hmissing] at h
      cases h
      obtain ⟨body, hbody⟩ := Option.ne_none_iff_exists'.mp hmissing
      exact ⟨.removed hbody, hl.write cl path _⟩
  | list directory =>
    cases h
    -- each path is listed once, so that each entry comes once
    refine ⟨⟨.snapshot ?_ fun m => ?_, rfl⟩, hl⟩
    · rw [List.map_filterMap]
      refine List.Nodup.filterMap (fun path path' location hp hp' => ?_) hl.nodup
      simp only [Option.mem_def, Option.map_eq_some_iff] at hp hp'
      obtain ⟨m, hm, rfl⟩ := hp
      obtain ⟨m', hm', heq⟩ := hp'
      rw [← (entry_eq_some.mp hm).1, ← heq, (entry_eq_some.mp hm').1]
    · simp only [List.mem_filterMap, entry_eq_some]
      constructor
      · rintro ⟨path, -, rfl, hbelow, hbody⟩
        exact ⟨hbelow, hbody⟩
      · rintro ⟨hbelow, body, hbody, hsize⟩
        exact ⟨m.location, hl.paths _ (by simp [hbody]), rfl, hbelow, body, hbody, hsize⟩
  -- the next number was not issued before
  | newV4 =>
    by_cases hused : BitVec.ofNat 128 l.ids.length ∈ l.ids
    · simp only [reply, if_pos hused] at h
      cases h
    · simp only [reply, if_neg hused] at h
      cases h
      refine ⟨⟨by rw [hl.ids]; exact hused, rfl⟩, ?_, hl.paths, hl.nodup⟩
      ext id
      simp [hl.ids]

end Ledger

/-- The run of a client that is alone with its store. -/
theorem Prog.run_ledger [DecidableEq Body] {f : Faults} {size : Body → Nat} {cl : Client} {α : Type}
    {p : Prog (Cmd Body) Resp α} {l l' : Ledger Client Body} {cs : List (Cmd Body)} {a : α}
    (hl : l.Balanced) (h : p.solo (Ledger.reply size cl) l = some (cs, a, l')) :
    Runs (Bucket.Executes f size cl) l.bucket p cs a l'.bucket ∧ l'.Balanced := by
  induction p generalizing l cs with
  | ret b =>
    simp only [solo, Option.some.injEq, Prod.mk.injEq] at h
    obtain ⟨rfl, rfl, rfl⟩ := h
    exact ⟨.ret _ b, hl⟩
  | call c k ih =>
    simp only [solo, Option.bind_eq_some_iff, Option.map_eq_some_iff, Prod.mk.injEq] at h
    obtain ⟨⟨r, l₁⟩, hanswer, ⟨cs', q⟩, hrest, rfl, hq⟩ := h
    obtain ⟨hexec, hl₁⟩ := Ledger.executes_of_reply hl hanswer
    obtain ⟨hrun, hl'⟩ := ih r hl₁ (by rw [hrest, ← hq])
    exact ⟨.call hexec hrun, hl'⟩

end Interaction
