import Walstream.Framing.Layout
import Walstream.Log.Format

/-!
# The texts of the documents

What `serde_json::to_vec` writes: compact JSON with the fields in the order of their
declaration. A number has at most twenty digits, as every `u64` and `i64` has.
-/

namespace Walstream.Log

/-- The bytes of a document. -/
abbrev Document := Framing.Bytes

namespace Reference

/-! ## JSON -/

/-- The bytes of an ASCII text. -/
def ascii (text : String) : Document := text.toList.map fun c => UInt8.ofNat c.toNat

/-- A number of at most `width` digits. -/
def decimal : (width : Nat) → Nat → Document
  | 0, _ => []
  | width + 1, n => (if n < 10 then [] else decimal width (n / 10)) ++ [UInt8.ofNat (48 + n % 10)]

def natural (n : Nat) : Document := decimal 20 n

def integer (n : Int) : Document := if n < 0 then 45 :: natural n.natAbs else natural n.natAbs

/-- The last byte of `\u00XX` and the one before it. -/
def hexDigit (n : Nat) : UInt8 := UInt8.ofNat (if n < 10 then 48 + n else 87 + n)

/-- A character inside quotes. -/
def escape (c : Char) : Document :=
  let n := c.toNat
  if 35 ≤ n ∧ n < 128 ∧ n ≠ 92 then [UInt8.ofNat n]
  else if n = 34 then [92, 34]
  else if n = 92 then [92, 92]
  else if n = 8 then [92, 98]
  else if n = 9 then [92, 116]
  else if n = 10 then [92, 110]
  else if n = 12 then [92, 102]
  else if n = 13 then [92, 114]
  else if n < 32 then [92, 117, 48, 48, hexDigit (n / 16), hexDigit (n % 16)]
  else String.utf8EncodeChar c

def quote (text : String) : Document := 34 :: text.toList.flatMap escape ++ [34]

/-- The items with commas between them. -/
def separated : List Document → Document
  | [] => []
  | [item] => item
  | item :: items => item ++ 44 :: separated items

def array (items : List Document) : Document := 91 :: separated items ++ [93]

def member (field : String × Document) : Document := quote field.1 ++ 58 :: field.2

def object (fields : List (String × Document)) : Document :=
  123 :: separated (fields.map member) ++ [125]

def nullable : Option Document → Document
  | some value => value
  | none => ascii "null"

/-- A field with `skip_serializing_if = "Option::is_none"`. -/
def optional (name : String) (value : Option Document) : List (String × Document) :=
  (value.map fun value => (name, value)).toList

/-! ## Documents -/

def segmentText (s : Segment) : Document :=
  object ([("object", quote s.object), ("base_offset", integer s.baseOffset),
    ("record_count", natural s.recordCount), ("byte_length", natural s.byteLength),
    ("sha256", quote s.sha256)] ++ optional "received_at_ms" (s.receivedAtMs.map natural))

def pageRefText (r : PageRef) : Document :=
  object [("object", quote r.object), ("first_offset", integer r.firstOffset),
    ("next_offset", integer r.nextOffset), ("segment_count", natural r.segmentCount),
    ("level", natural r.level), ("byte_length", natural r.byteLength), ("sha256", quote r.sha256)]

def producerRefText (r : ProducerRef) : Document :=
  object [("object", quote r.object), ("first_id", integer r.firstId),
    ("last_id", integer r.lastId), ("count", natural r.count), ("level", natural r.level),
    ("byte_length", natural r.byteLength), ("sha256", quote r.sha256)]

def batchText (b : BatchIdentity) : Document :=
  object [("sequence", integer b.sequence), ("count", natural b.count),
    ("base_offset", integer b.baseOffset), ("fingerprint", quote b.fingerprint)]

def producerStateText (p : ProducerState) : Document :=
  object [("id", integer p.id), ("epoch", integer p.epoch),
    ("batches", array (p.batches.map batchText))]

def pageText : Page → Document
  | .leaf segments => object [("leaf", object [("segments", array (segments.map segmentText))])]
  | .branch children => object [("branch", object [("children", array (children.map pageRefText))])]

def producerPageText : ProducerPage → Document
  | .leaf producers =>
    object [("leaf", object [("producers", array (producers.map producerStateText))])]
  | .branch children =>
    object [("branch", object [("children", array (children.map producerRefText))])]

def rootText (root : Root) : Document :=
  object ([("schema", natural root.schema), ("revision", natural root.revision),
    ("start_offset", integer root.startOffset)] ++
    optional "adopted_at_ms" (root.adoptedAtMs.map natural) ++
    [("next_offset", integer root.nextOffset), ("tree", nullable (root.tree.map pageRefText))] ++
    optional "producers" (root.producers.map producerRefText) ++
    [("tail", array (root.tail.map segmentText))])

def manifestText (m : Manifest) : Document :=
  object [("schema", natural m.schema), ("revision", natural m.revision),
    ("next_offset", integer m.nextOffset), ("segments", array (m.segments.map segmentText))]

def metadataText (m : TopicMetadata) : Document :=
  object [("schema", natural m.schema), ("partition_count", integer m.partitionCount)]

/-- `serde_json::to_vec`. -/
def toVec : Body → Document
  | .raw bytes => array (bytes.map fun b => natural b.toNat)
  | .metadata metadata => metadataText metadata
  | .manifest (.legacy manifest) => manifestText manifest
  | .manifest (.indexed root) => rootText root
  | .page page => pageText page
  | .producerPage page => producerPageText page

/-- The bytes of an object. -/
def contents : Body → Document
  | .raw bytes => bytes
  | body => toVec body

/-! ## Lengths -/

theorem length_decimal_le (width n : Nat) : (decimal width n).length ≤ width := by
  induction width generalizing n with
  | zero => simp [decimal]
  | succ width ih =>
    rw [decimal, List.length_append]
    have hrest := ih (n / 10)
    split
    · simp
    · rw [List.length_singleton]
      omega

theorem length_natural_le (n : Nat) : (natural n).length ≤ 20 := length_decimal_le 20 n

theorem length_integer_le (n : Int) : (integer n).length ≤ 21 := by
  have hnatural := length_natural_le n.natAbs
  unfold integer
  split
  · rw [List.length_cons]
    omega
  · omega

theorem length_escape_le (c : Char) : (escape c).length ≤ 6 := by
  have hutf8 : (String.utf8EncodeChar c).length ≤ 4 := by
    rw [String.length_utf8EncodeChar]
    exact c.utf8Size_le_four
  unfold escape
  dsimp only
  repeat' split
  all_goals first | omega | simp

theorem length_quote_le (text : String) : (quote text).length ≤ 6 * text.toList.length + 2 := by
  have hescape : ∀ cs : List Char, (cs.flatMap escape).length ≤ 6 * cs.length := by
    intro cs
    induction cs with
    | nil => simp
    | cons c cs ih =>
      have hc := length_escape_le c
      rw [List.flatMap_cons, List.length_append, List.length_cons]
      omega
  simpa [quote] using hescape text.toList

theorem length_separated_le {items : List Document} {n : Nat} (h : ∀ x ∈ items, x.length ≤ n) :
    (separated items).length ≤ items.length * (n + 1) := by
  induction items with
  | nil => simp [separated]
  | cons item items ih =>
    have hitem := h item (by simp)
    have hrest := ih fun x hx => h x (by simp [hx])
    rw [List.length_cons, Nat.succ_mul]
    cases items with
    | nil => simpa [separated] using Nat.le_succ_of_le hitem
    | cons next items =>
      rw [separated, List.length_append, List.length_cons]
      · omega
      · simp

theorem length_array_le {items : List Document} {n : Nat} (h : ∀ x ∈ items, x.length ≤ n) :
    (array items).length ≤ items.length * (n + 1) + 2 := by
  simpa [array] using length_separated_le h

theorem length_object_le {fields : List (String × Document)} {n : Nat}
    (h : ∀ field ∈ fields, (quote field.1).length + field.2.length < n) :
    (object fields).length ≤ fields.length * (n + 1) + 2 := by
  have hmember : ∀ x ∈ fields.map member, x.length ≤ n := by
    intro x hx
    obtain ⟨field, hfield, rfl⟩ := List.mem_map.mp hx
    have hlt := h field hfield
    rw [member, List.length_append, List.length_cons]
    omega
  simpa [object] using length_separated_le hmember

theorem toVec_ne_nil (body : Body) : toVec body ≠ [] := by
  cases body with
  | manifest manifest => cases manifest <;> exact List.cons_ne_nil _ _
  | page page => cases page <;> exact List.cons_ne_nil _ _
  | producerPage page => cases page <;> exact List.cons_ne_nil _ _
  | _ => exact List.cons_ne_nil _ _

end Reference

end Walstream.Log
