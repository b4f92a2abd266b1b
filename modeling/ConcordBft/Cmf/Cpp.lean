import ConcordBft.Lib.BigEndian
import ConcordBft.Lib.Reader
import ConcordBft.Cmf.Schema

/-!
# The generated C++ code

`serialize` and `deserialize` for every type, put together as the templates of the support code
and the functions generated for messages and oneofs are. The serializers exist once for each kind
of buffer (`Output`) and append to it; what they append is modelled. The deserializers work on the
bytes between `start` and `end`; reading outside them is the fault `access`, and every exception
is the fault `exception`. All targets are freshly constructed: the fields of a default-constructed
message and the locals of the loops. A list of bool, whose loop `auto&` does not compile over a
const `std::vector<bool>`, is treated like any other list.
-/

namespace ConcordBft.Cmf

open Verif Exec Reader

/-! ## Serialization -/

/-- A buffer that is appended to: what `push_back` makes of a byte. -/
structure Output (β : Type) where
  push : UInt8 → β

/-- `std::vector<uint8_t>` -/
def byteBuffer : Output UInt8 := ⟨id⟩

/-- `std::string`, with elements of type char. -/
def stringBuffer : Output Int8 := ⟨UInt8.toInt8⟩

section Serialize

variable {α β : Type} (out : Output β)

/-- `t >> k`: arithmetic for signed types. -/
def shiftRight (signed : Bool) {w : ℕ} (t : BitVec w) (k : ℕ) : BitVec w :=
  if signed then t.sshiftRight k else t >>> k

def serializeInteger (signed : Bool) (width : Width) (t : BitVec (8 * width.bytes)) : List β :=
  (List.range width.bytes).reverse.map fun i =>
    out.push ⟨(shiftRight signed t (i * 8)).setWidth 8⟩

/-- A size in front of what it counts. -/
def serializeSize (size : ℕ) : Exec (List β) := do
  ensure (size ≤ 0xFFFFFFFF)
  .ok (serializeInteger out false .w32 (BitVec.ofNat _ size))

def serializeAll (f : α → Exec (List β)) : List α → Exec (List β)
  | [] => .ok []
  | a :: l => do
    let first ← f a
    let rest ← serializeAll f l
    .ok (first ++ rest)

def serializeVector (f : α → Exec (List β)) (v : List α) : Exec (List β) := do
  let size ← serializeSize out v.length
  let items ← serializeAll f v
  .ok (size ++ items)

def serializeString (s : List UInt8) : Exec (List β) := do
  let size ← serializeSize out s.length
  .ok (size ++ s.map out.push)

def serializePrimitive : (p : Primitive) → p.Val → Exec (List β)
  | .bool, b => .ok [out.push (cond b 1 0)]
  | .integer signed width, t => .ok (serializeInteger out signed width t)
  | .string, s => serializeString out s
  | .bytes, v =>
    serializeVector out (fun c : UInt8 => .ok (serializeInteger out false .w8 c.toBitVec)) v

def serializePair {κ ν : Type} (f : κ → Exec (List β)) (g : ν → Exec (List β)) (kvpair : κ × ν) :
    Exec (List β) := do
  let first ← f kvpair.1
  let second ← g kvpair.2
  .ok (first ++ second)

variable (s : Schema) {M : String → Type} (msg : (name : String) → M name → Exec (List β))

/-- `serialize` of a type, over the ones generated for messages. -/
def serialize : (t : Ty) → t.Val s M → Exec (List β)
  | .primitive p, v => serializePrimitive out p v
  | .kvpair key value, v => serializePair (serializePrimitive out key) (serialize value) v
  | .list type, v => serializeVector out (serialize type) v
  | .fixedlist type _, a => serializeAll (serialize type) a.toList
  | .map key value, m =>
    serializeVector out (serializePair (serializePrimitive out key) (serialize value)) m.entries
  | .optional _, none => serializePrimitive out .bool false
  | .optional type, some v => serializePair (serializePrimitive out .bool) (serialize type) (true, v)
  | .oneof _, ⟨name, v⟩ =>
    -- `static constexpr uint32_t id`
    serializePair (fun id => .ok (serializeInteger out false .w32 id)) (msg name)
      (BitVec.ofNat _ (s.idOf name), v)
  | .msg name, v => msg name v
  | .enum _, tag => .ok (serializeInteger out false .w8 (BitVec.ofNat _ tag.val))

def serializeFields : (fields : List Field) → FieldsVal s M fields → Exec (List β)
  | [], _ => .ok []
  | f :: fields, (v, vs) =>
    serializePair (serialize out s msg f.type) (serializeFields fields) (v, vs)

def serializeDef : (d : Option Msg) → DefVal s M d → Exec (List β)
  | none, v => nomatch v
  | some m, v => serializeFields out s msg m.fields v

def serializeMsg : (n : ℕ) → (name : String) → MsgVal s n name → Exec (List β)
  | 0, _, v => nomatch v
  | n + 1, name, v => serializeDef out s (serializeMsg n) (s.msg? name) v

end Serialize

/-! ## Deserialization -/

section Deserialize

variable {α : Type}

/-- `if (start + n > end) throw NoDataLeftError();` -/
def checkData (n : ℕ) : Reader UInt8 Unit := fun range =>
  if n ≤ range.length then .ok ((), range) else .error .exception

/-- `*(start + k)` -/
def byteAt (k : ℕ) : Reader UInt8 UInt8 := fun range =>
  match range[k]? with
  | some c => .ok (c, range)
  | none => .error .access

/-- `std::copy_n(start, n, ...)` -/
def copyN (n : ℕ) : Reader UInt8 (List.Vector UInt8 n) := fun range =>
  if h : n ≤ range.length then .ok (⟨range.take n, List.length_take_of_le h⟩, range)
  else .error .access

/-- `start += n` -/
def advance (n : ℕ) : Reader UInt8 Unit := fun range => .ok ((), range.drop n)

def deserializeBool : Reader UInt8 Bool := do
  checkData 1
  let c ← byteAt 0
  if c = 0 then do
    advance 1
    pure false
  else if c = 1 then do
    advance 1
    pure true
  else fail

def deserializeInteger (width : Width) : Reader UInt8 (BitVec (8 * width.bytes)) := do
  checkData width.bytes
  let t ← (List.range width.bytes).foldlM (fun t i => do
    let c ← byteAt (width.bytes - 1 - i)
    pure (t ||| (c.toBitVec.setWidth (8 * width.bytes) <<< (i * 8)))) 0
  advance width.bytes
  pure t

def deserializeBytes (n : ℕ) : Reader UInt8 (List.Vector UInt8 n) := do
  checkData n
  let data ← copyN n
  advance n
  pure data

def deserializeString : Reader UInt8 (List UInt8) := do
  let length ← deserializeInteger .w32
  let data ← deserializeBytes length.toNat
  pure data.toList

/-- A vector; `ofByte?` is there for integral types of one byte, which are copied. -/
def deserializeVector (ofByte? : Option (UInt8 → α)) (p : Reader UInt8 α) :
    Reader UInt8 (List α) := do
  let length ← deserializeInteger .w32
  match ofByte? with
  | some ofByte => do
    let data ← deserializeBytes length.toNat
    pure (data.map ofByte).toList
  | none => do
    let v ← p.times length.toNat
    pure v.toList

def deserializeArray (ofByte? : Option (UInt8 → α)) (p : Reader UInt8 α) (size : ℕ) :
    Reader UInt8 (List.Vector α size) :=
  match ofByte? with
  | some ofByte => do
    let data ← deserializeBytes size
    pure (data.map ofByte)
  | none => p.times size

def deserializePrimitive : (p : Primitive) → Reader UInt8 p.Val
  | .bool => deserializeBool
  | .integer _ width => deserializeInteger width
  | .string => deserializeString
  | .bytes => deserializeVector (some id) fail

def deserializePair {κ ν : Type} (p : Reader UInt8 κ) (q : Reader UInt8 ν) :
    Reader UInt8 (κ × ν) := do
  let first ← p
  let second ← q
  pure (first, second)

variable (s : Schema) {M : String → Type}

/-- How a byte is copied into an element of an integral type of one byte. -/
def ofByte? : (t : Ty) → Option (UInt8 → t.Val s M)
  | .primitive .bool => some fun c => decide (c ≠ 0)
  | .primitive (.integer _ .w8) => some fun c => c.toBitVec
  | _ => none

variable (msg : (name : String) → Reader UInt8 (M name))

/-- The message of a oneof whose id was read, if there is one. -/
def deserializeAlternative {msgNames : List String} :
    Option {x // x ∈ msgNames} → Reader UInt8 (Σ name : {x // x ∈ msgNames}, M name)
  | some name => do
    let value ← msg name
    pure ⟨name, value⟩
  | none => fail

/-- `deserialize` of a type, over the ones generated for messages. -/
def deserialize : (t : Ty) → Reader UInt8 (t.Val s M)
  | .primitive p => deserializePrimitive p
  | .kvpair key value => deserializePair (deserializePrimitive key) (deserialize value)
  | .list type => deserializeVector (ofByte? s type) (deserialize type)
  | .fixedlist type size => deserializeArray (ofByte? s type) (deserialize type) size
  | .map key value => do
    let size ← deserializeInteger .w32
    let pairs ← (deserializePair (deserializePrimitive key) (deserialize value)).times size.toNat
    -- `m.insert(kvpair)`, in the order in which the pairs are read.
    pure (Map.ofList pairs.toList)
  | .optional type => do
    let hasValue ← deserializeBool
    if hasValue then do
      let value ← deserialize type
      pure (some value)
    else pure none
  | .oneof msgNames => do
    let id ← deserializeInteger .w32
    deserializeAlternative msg (msgNames.attach.find? fun name => s.idOf name.1 = id.toNat)
  | .msg name => msg name
  | .enum name => do
    let val ← deserializeInteger .w8
    -- `enumSize` returns the number of tags as a uint8_t.
    if h : val.toNat < s.tagsOf name % 256 then
      pure ⟨val.toNat, Nat.lt_of_lt_of_le h (Nat.mod_le _ _)⟩
    else fail

def deserializeFields : (fields : List Field) → Reader UInt8 (FieldsVal s M fields)
  | [] => pure ()
  | f :: fields => deserializePair (deserialize s msg f.type) (deserializeFields fields)

def deserializeDef : (d : Option Msg) → Reader UInt8 (DefVal s M d)
  | none => fail
  | some m => deserializeFields s msg m.fields

/-- The function generated for a message, with so many messages inside each other at most. -/
def deserializeMsg : (n : ℕ) → (name : String) → Reader UInt8 (MsgVal s n name)
  | 0, _ => fun _ => .error .unfinished
  | n + 1, name => deserializeDef s (deserializeMsg n) (s.msg? name)

end Deserialize

end ConcordBft.Cmf
