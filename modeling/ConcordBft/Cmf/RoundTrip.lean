import ConcordBft.Cmf.Cpp

/-!
# Messages come back from their bytes

`wire` is the serialized representation of a value, as the format describes it. The generated
serializers write it into either buffer (`serializeMsg_eq`). The generated deserializers read
inside their range and do not look behind what they read (`leads_deserializeMsg`), and get a value
back from its representation exactly when it is `readable` (`readsIff_deserializeMsg`): the id of a
message in a oneof must be a uint32 and the number of tags of an enum a uint8, where the checks of
the compiler let `2 ^ 32` and 256 through.
-/

namespace ConcordBft.Cmf

open Verif Exec Reader List.Vector Width List Except Nat

/-! ## The readers of the support code -/

theorem deserializeBytes_eq (n : ℕ) : deserializeBytes n = block n := by
  funext b
  by_cases h : n ≤ b.length
  · have hcheck : checkData n b = .ok ((), b) := if_pos h
    have hcopy : copyN n b = .ok (⟨b.take n, length_take_of_le h⟩, b) := dif_pos h
    unfold deserializeBytes block
    rw [bind_apply, hcheck, ok_bind, bind_apply, hcopy, dif_pos h]
    rfl
  · have hcheck : checkData n b = .error .exception := if_neg h
    unfold deserializeBytes block
    rw [bind_apply, hcheck, dif_neg h]
    rfl

theorem foldlM_byteAt {w n : ℕ} (g : UInt8 → ℕ → BitVec w) {l : List ℕ} {b : List UInt8}
    (hb : ∀ i ∈ l, n - 1 - i < b.length) (t : BitVec w) :
    l.foldlM (fun t i => (do
      let c ← byteAt (n - 1 - i)
      pure (t ||| g c i) : Reader UInt8 (BitVec w))) t b =
      .ok (l.foldl (fun t i => t ||| g (b.getD (n - 1 - i) 0) i) t, b) := by
  induction l generalizing t with
  | nil => rfl
  | cons i l ih =>
    have hi := hb i mem_cons_self
    have hbyte : byteAt (n - 1 - i) b = .ok (b.getD (n - 1 - i) 0, b) := by
      unfold byteAt
      rw [getD_eq_getElem?_getD, getElem?_eq_getElem hi]
      rfl
    rw [foldlM_cons, bind_apply, bind_apply, hbyte]
    exact ih (fun j hj => hb j (mem_cons_of_mem i hj)) _

theorem deserializeInteger_eq (width : Width) : deserializeInteger width = (do
    let w ← block width.bytes
    pure (gather width.bytes fun i => w.toList.getD (width.bytes - 1 - i) 0)) := by
  funext b
  by_cases h : width.bytes ≤ b.length
  · have hlt : ∀ i ∈ range width.bytes, width.bytes - 1 - i < b.length := by
      intro i hi
      have := mem_range.mp hi
      omega
    have hcheck : checkData width.bytes b = .ok ((), b) := if_pos h
    have hblock : block width.bytes b =
        .ok (⟨b.take width.bytes, length_take_of_le h⟩, b.drop width.bytes) := dif_pos h
    unfold deserializeInteger
    rw [bind_apply, hcheck, ok_bind, bind_apply,
      foldlM_byteAt (fun c i => c.toBitVec.setWidth (8 * width.bytes) <<< (i * 8)) hlt, ok_bind]
    refine Eq.trans ?_ (map_eq_ok.mpr ⟨_, hblock, rfl⟩).symm
    show ok _ = ok _
    congr 2
    refine foldl_ext _ _ _ fun t i hi => ?_
    have := mem_range.mp hi
    congr 3
    show (b.getD _ 0).toBitVec = ((b.take width.bytes).getD _ 0).toBitVec
    rw [getD_eq_getElem?_getD, getD_eq_getElem?_getD, getElem?_take_of_lt (by omega)]
  · have hcheck : checkData width.bytes b = .error .exception := if_neg h
    have hblock : (block width.bytes : Reader UInt8 _) b = .error .exception := dif_neg h
    unfold deserializeInteger
    rw [bind_apply, hcheck, bind_apply, hblock]
    rfl

theorem deserializeBool_eq : deserializeBool = (do
    let w ← block 1
    if w.head = 0 then pure false else if w.head = 1 then pure true else fail) := by
  funext b
  rcases b with _ | ⟨c, b⟩
  · rfl
  · have hcheck : checkData 1 (c :: b) = .ok ((), c :: b) := by simp [checkData]
    have hbyte : byteAt 0 (c :: b) = .ok (c, c :: b) := rfl
    have hblock : block 1 (c :: b) = .ok (⟨[c], rfl⟩, b) := block_append ⟨[c], rfl⟩ b
    unfold deserializeBool
    rw [bind_apply, hcheck, ok_bind, bind_apply, hbyte, ok_bind, bind_apply, hblock, ok_bind]
    show _ = (if c = 0 then _ else if c = 1 then _ else _ : Reader UInt8 Bool) b
    split_ifs <;> rfl

theorem reads_deserializeInteger {width : Width} (t : BitVec (8 * width.bytes)) :
    Reads (deserializeInteger width) (bigEndian width.bytes t) t := by
  rw [deserializeInteger_eq]
  intro r
  have hblock := block_append ⟨bigEndian width.bytes t, length_bigEndian _ t⟩ r
  refine map_eq_ok.mpr ⟨_, hblock, ?_⟩
  refine gather_bigEndian t fun i hi => ?_
  rw [toList_mk, getD_eq_getElem?_getD, getElem?_bigEndian t hi]
  rfl

theorem reads_deserializeBool (b : Bool) : Reads deserializeBool [cond b 1 0] b := by
  rw [deserializeBool_eq]
  intro r
  refine bind_eq_ok.mpr ⟨⟨[cond b 1 0], rfl⟩, r, block_append ⟨[cond b 1 0], rfl⟩ r, ?_⟩
  cases b <;> rfl

/-! ### They read inside their range, and not behind it; a deeper nesting reads no less -/

/-- Both properties of a reader. -/
def Sound {α : Type} (p : Reader UInt8 α) : Prop := Local p ∧ Inside p

/-- A sound reader, and one that follows it. -/
def Leads {α β : Type} (p : Reader UInt8 α) (p' : Reader UInt8 β) : Prop := Sound p ∧ Follows p p'

section Sound

variable {α β α' β' : Type} {p : Reader UInt8 α} {p' : Reader UInt8 α'} {f : α → Reader UInt8 β}

theorem Sound.leads (hp : Sound p) : Leads p p := ⟨hp, Follows.refl p⟩

theorem sound_pure (a : α) : Sound (pure a) := ⟨local_pure a, inside_pure a⟩

theorem sound_fail : Sound (fail : Reader UInt8 α) := ⟨local_fail, inside_fail⟩

theorem leads_pure (a : α) (a' : α') : Leads (pure a) (pure a') := ⟨sound_pure a, follows_pure a a'⟩

theorem leads_fail (p' : Reader UInt8 α') : Leads (fail : Reader UInt8 α) p' :=
  ⟨sound_fail, follows_fail p'⟩

theorem sound_block (n : ℕ) : Sound (block n : Reader UInt8 (List.Vector UInt8 n)) :=
  ⟨local_block n, inside_block n⟩

theorem Leads.bind {f' : α' → Reader UInt8 β'} (hp : Leads p p')
    (hf : ∀ a a', Leads (f a) (f' a')) : Leads (p >>= f) (p' >>= f') := by
  have hread : ∀ b a r, p b = .ok (a, r) → Sound (f a) := by
    intro b a r h
    obtain ⟨a', -⟩ := hp.2 b a r h
    exact (hf a a').1
  exact ⟨⟨hp.1.1.bind fun b a r h => (hread b a r h).1,
    hp.1.2.bind fun b a r h => (hread b a r h).2⟩, hp.2.bind fun a a' => (hf a a').2⟩

theorem Sound.bind {f' : α → Reader UInt8 β'} (hp : Sound p) (hf : ∀ a, Leads (f a) (f' a)) :
    Leads (p >>= f) (p >>= f') :=
  ⟨⟨hp.1.bind fun _ a _ _ => (hf a).1.1, hp.2.bind fun _ a _ _ => (hf a).1.2⟩,
    Follows.bind_same fun a => (hf a).2⟩

theorem Leads.times (hp : Leads p p') (n : ℕ) : Leads (p.times n) (p'.times n) := by
  induction n with
  | zero => exact leads_pure _ _
  | succ n ih => exact hp.bind fun _ _ => ih.bind fun _ _ => leads_pure _ _

theorem Leads.pair {q : Reader UInt8 β} {q' : Reader UInt8 β'} (hp : Leads p p')
    (hq : Leads q q') : Leads (deserializePair p q) (deserializePair p' q') :=
  hp.bind fun _ _ => hq.bind fun _ _ => leads_pure _ _

theorem sound_deserializeInteger (width : Width) : Sound (deserializeInteger width) := by
  rw [deserializeInteger_eq]
  exact ((sound_block _).bind fun w => (sound_pure _).leads).1

theorem sound_deserializeBool : Sound deserializeBool := by
  rw [deserializeBool_eq]
  refine ((sound_block 1).bind fun w => Sound.leads ?_).1
  split_ifs
  · exact sound_pure _
  · exact sound_pure _
  · exact sound_fail

theorem sound_deserializeBytes (n : ℕ) : Sound (deserializeBytes n) := by
  rw [deserializeBytes_eq]
  exact sound_block n

section Copied

variable {o : Option (UInt8 → α)} {o' : Option (UInt8 → α')} (ho : o.isSome = o'.isSome)
  (hp : Leads p p')

include ho hp

theorem leads_deserializeArray (size : ℕ) :
    Leads (deserializeArray o p size) (deserializeArray o' p' size) := by
  cases o with
  | some f =>
    obtain ⟨f', rfl⟩ := Option.isSome_iff_exists.mp (ho ▸ rfl : o'.isSome = true)
    exact (sound_deserializeBytes size).bind fun data => leads_pure _ _
  | none =>
    obtain rfl := Option.isNone_iff_eq_none.mp (by simpa using ho.symm)
    exact hp.times size

theorem leads_deserializeVector : Leads (deserializeVector o p) (deserializeVector o' p') := by
  refine (sound_deserializeInteger .w32).bind fun length => ?_
  cases o with
  | some f =>
    obtain ⟨f', rfl⟩ := Option.isSome_iff_exists.mp (ho ▸ rfl : o'.isSome = true)
    exact (sound_deserializeBytes _).bind fun data => leads_pure _ _
  | none =>
    obtain rfl := Option.isNone_iff_eq_none.mp (by simpa using ho.symm)
    exact (hp.times _).bind fun v v' => leads_pure _ _

end Copied

theorem sound_deserializePrimitive (p : Primitive) : Sound (deserializePrimitive p) := by
  cases p with
  | bool => exact sound_deserializeBool
  | integer signed width => exact sound_deserializeInteger width
  | string =>
    refine ((sound_deserializeInteger .w32).bind fun length => Sound.leads ?_).1
    exact ((sound_deserializeBytes _).bind fun data => (sound_pure _).leads).1
  | bytes => exact (leads_deserializeVector (Eq.refl (some id).isSome) sound_fail.leads).1

variable {s : Schema} {M M' : String → Type} {msg : (name : String) → Reader UInt8 (M name)}
  {msg' : (name : String) → Reader UInt8 (M' name)}

theorem isSome_ofByte? (t : Ty) : (ofByte? s t : Option (UInt8 → t.Val s M)).isSome =
      (ofByte? s t : Option (UInt8 → t.Val s M')).isSome := by
  unfold ofByte?
  split <;> rfl

theorem leads_deserialize (hmsg : ∀ name, Leads (msg name) (msg' name)) (t : Ty) :
    Leads (deserialize s msg t) (deserialize s msg' t) := by
  induction t with
  | primitive p => exact (sound_deserializePrimitive p).leads
  | kvpair key value ih => exact (sound_deserializePrimitive key).leads.pair ih
  | list type ih => exact leads_deserializeVector (isSome_ofByte? type) ih
  | fixedlist type size ih => exact leads_deserializeArray (isSome_ofByte? type) ih size
  | map key value ih =>
    refine (sound_deserializeInteger .w32).bind fun size => ?_
    exact (((sound_deserializePrimitive key).leads.pair ih).times _).bind fun _ _ => leads_pure _ _
  | optional type ih =>
    refine sound_deserializeBool.bind fun hasValue => ?_
    split_ifs
    · exact ih.bind fun value value' => leads_pure _ _
    · exact leads_pure _ _
  | oneof msgNames =>
    refine (sound_deserializeInteger .w32).bind fun id => ?_
    cases msgNames.attach.find? fun name => s.idOf name.1 = id.toNat with
    | some name => exact (hmsg _).bind fun value value' => leads_pure _ _
    | none => exact leads_fail _
  | msg name => exact hmsg name
  | enum name =>
    refine (sound_deserializeInteger .w8).bind fun val => ?_
    split_ifs
    · exact leads_pure _ _
    · exact leads_fail _

end Sound

theorem leads_deserializeMsg (s : Schema) {n n' : ℕ} (hn : n ≤ n') (name : String) :
    Leads (deserializeMsg s n name) (deserializeMsg s n' name) := by
  induction n generalizing n' name with
  | zero => exact ⟨⟨fun b v => v.elim, fun b h => nomatch h⟩, fun b v => v.elim⟩
  | succ n ih =>
    obtain ⟨k, rfl⟩ := Nat.exists_eq_add_of_le hn
    rw [Nat.add_right_comm]
    show Leads (deserializeDef s _ (s.msg? name)) (deserializeDef s _ (s.msg? name))
    cases s.msg? name with
    | none => exact leads_fail _
    | some m =>
      show Leads (deserializeFields s _ m.fields) (deserializeFields s _ m.fields)
      induction m.fields with
      | nil => exact leads_pure _ _
      | cons f fields ih' =>
        exact (leads_deserialize (fun name => ih (le_add_right n k) name) f.type).pair ih'

/-! ## The serialized representation -/

section Wire

variable (s : Schema) {M : String → Type}

def wireSize (n : ℕ) : List UInt8 := bigEndian 4 (BitVec.ofNat _ n)

def wireBytes (v : List UInt8) : List UInt8 := wireSize v.length ++ v

def wirePrimitive : (p : Primitive) → p.Val → List UInt8
  | .bool, b => [cond b 1 0]
  | .integer _ width, t => bigEndian width.bytes t
  | .string, v => wireBytes v
  | .bytes, v => wireBytes v

/-- The representation of a value, over the ones of messages. -/
def wire (msg : (name : String) → M name → List UInt8) : (t : Ty) → t.Val s M → List UInt8
  | .primitive p, v => wirePrimitive p v
  | .kvpair key value, v => wirePrimitive key v.1 ++ wire msg value v.2
  | .list type, v => wireSize (List.length v) ++ flatMap (wire msg type) v
  | .fixedlist type _, a => a.toList.flatMap (wire msg type)
  | .map key value, m =>
    wireSize m.entries.length ++
      m.entries.flatMap fun e => wirePrimitive key e.1 ++ wire msg value e.2
  | .optional _, none => [0]
  | .optional type, some v => 1 :: wire msg type v
  | .oneof _, ⟨name, v⟩ => wireSize (s.idOf name) ++ msg name v
  | .msg name, v => msg name v
  | .enum _, tag => bigEndian 1 (BitVec.ofNat _ tag.val)

def wireFields (msg : (name : String) → M name → List UInt8) :
    (fields : List Field) → FieldsVal s M fields → List UInt8
  | [], _ => []
  | f :: fields, v => wire s msg f.type v.1 ++ wireFields msg fields v.2

def wireDef (msg : (name : String) → M name → List UInt8) :
    (d : Option Msg) → DefVal s M d → List UInt8
  | none, v => nomatch v
  | some m, v => wireFields s msg m.fields v

def wireMsg : (n : ℕ) → (name : String) → MsgVal s n name → List UInt8
  | 0, _, v => nomatch v
  | n + 1, name, v => wireDef s (wireMsg n) (s.msg? name) v

end Wire

/-! ## What is asked of a value -/

/-- Conditions on the parts of a value. -/
structure Checks where
  /-- on the sizes of strings, byte buffers, lists and maps -/
  size : ℕ → Prop
  /-- on the messages held by oneofs -/
  oneof : String → Prop
  /-- on the enums that tags are of -/
  enum : String → Prop

def All {α : Type} (P : α → Prop) (l : List α) : Prop := ∀ a ∈ l, P a

section Meets

variable (s : Schema) (c : Checks) {M : String → Type}

def MeetsPrimitive : (p : Primitive) → p.Val → Prop
  | .bool, _ => True
  | .integer _ _, _ => True
  | .string, v => c.size (List.length v)
  | .bytes, v => c.size (List.length v)

/-- The conditions hold of all parts of a value. -/
def Meets (msg : (name : String) → M name → Prop) : (t : Ty) → t.Val s M → Prop
  | .primitive p, v => MeetsPrimitive c p v
  | .kvpair key value, v => MeetsPrimitive c key v.1 ∧ Meets msg value v.2
  | .list type, v => c.size (List.length v) ∧ All (Meets msg type) v
  | .fixedlist type _, a => All (Meets msg type) a.toList
  | .map key value, m =>
    c.size m.entries.length ∧ All (fun e => MeetsPrimitive c key e.1 ∧ Meets msg value e.2) m.entries
  | .optional _, none => True
  | .optional type, some v => Meets msg type v
  | .oneof _, ⟨name, v⟩ => c.oneof name ∧ msg name v
  | .msg name, v => msg name v
  | .enum name, _ => c.enum name

def MeetsFields (msg : (name : String) → M name → Prop) :
    (fields : List Field) → FieldsVal s M fields → Prop
  | [], _ => True
  | f :: fields, v => Meets s c msg f.type v.1 ∧ MeetsFields msg fields v.2

def MeetsDef (msg : (name : String) → M name → Prop) : (d : Option Msg) → DefVal s M d → Prop
  | none, v => nomatch v
  | some m, v => MeetsFields s c msg m.fields v

def MeetsMsg : (n : ℕ) → (name : String) → MsgVal s n name → Prop
  | 0, _, v => nomatch v
  | n + 1, name, v => MeetsDef s c (MeetsMsg n) (s.msg? name) v

end Meets

/-- All strings, byte buffers, lists and maps can be counted by a uint32. -/
def sized : Checks := ⟨fun n => n ≤ 0xFFFFFFFF, fun _ => True, fun _ => True⟩

/-- The ids of the messages in oneofs are uint32 numbers, the numbers of tags are uint8 numbers. -/
def readable (s : Schema) : Checks :=
  ⟨fun _ => True, fun name => s.idOf name < 2 ^ 32, fun name => s.tagsOf name < 2 ^ 8⟩

/-! ## The serializers write the representation -/

section Write

variable {α β : Type} {out : Output β}

theorem serializeInteger_eq (signed : Bool) (width : Width) (t : BitVec (8 * width.bytes)) :
    serializeInteger out signed width t = (bigEndian width.bytes t).map out.push := by
  unfold serializeInteger bigEndian
  rw [List.map_map]
  refine map_congr_left fun i hi => ?_
  have hlt : i < width.bytes := by simpa using hi
  -- The bits a signed shift brings in lie above the eight that are kept.
  have hbyte : (shiftRight signed t (i * 8)).setWidth 8 = (t >>> (i * 8)).setWidth 8 := by
    unfold shiftRight
    split_ifs
    · refine BitVec.eq_of_getLsbD_eq fun k hk => ?_
      rw [BitVec.getLsbD_setWidth, BitVec.getLsbD_setWidth, BitVec.getLsbD_sshiftRight,
        BitVec.getLsbD_ushiftRight]
      have hin : i * 8 + k < 8 * width.bytes := by omega
      have hout : ¬ 8 * width.bytes ≤ k := by omega
      simp [hin, hout]
    · rfl
  rw [Function.comp_apply, byteOf, hbyte]

theorem serializeSize_eq {n : ℕ} (hn : n ≤ 0xFFFFFFFF) :
    serializeSize out n = .ok ((wireSize n).map out.push) := by
  unfold serializeSize
  rw [ensure_decide hn, serializeInteger_eq]
  rfl

theorem serializeAll_eq {f : α → Exec (List β)} {enc : α → List UInt8} {l : List α}
    (h : ∀ a ∈ l, f a = .ok ((enc a).map out.push)) :
    serializeAll f l = .ok ((l.flatMap enc).map out.push) := by
  induction l with
  | nil => rfl
  | cons a l ih =>
    unfold serializeAll
    rw [h a mem_cons_self, ok_bind, ih fun x hx => h x (mem_cons_of_mem a hx), ok_bind,
      flatMap_cons, map_append]

theorem serializeVector_eq {f : α → Exec (List β)} {enc : α → List UInt8} {l : List α}
    (hl : l.length ≤ 0xFFFFFFFF) (h : ∀ a ∈ l, f a = .ok ((enc a).map out.push)) :
    serializeVector out f l = .ok ((wireSize l.length ++ l.flatMap enc).map out.push) := by
  unfold serializeVector
  rw [serializeSize_eq hl, ok_bind, serializeAll_eq h, ok_bind, map_append]

theorem serializePair_eq {κ ν : Type} {f : κ → Exec (List β)} {g : ν → Exec (List β)} {k : κ}
    {v : ν}
    {w w' : List UInt8} (hf : f k = .ok (w.map out.push)) (hg : g v = .ok (w'.map out.push)) :
    serializePair f g (k, v) = .ok ((w ++ w').map out.push) := by
  unfold serializePair
  rw [hf, ok_bind, hg, ok_bind, map_append]

theorem serializePrimitive_eq {p : Primitive} {v : p.Val} (hv : MeetsPrimitive sized p v) :
    serializePrimitive out p v = .ok ((wirePrimitive p v).map out.push) := by
  cases p with
  | bool => rfl
  | integer signed width => exact congrArg _ (serializeInteger_eq signed width v)
  | string =>
    change List UInt8 at v
    show (serializeSize out v.length >>= _) = .ok ((wireBytes v).map out.push)
    rw [serializeSize_eq hv, ok_bind, wireBytes, map_append]
  | bytes =>
    change List UInt8 at v
    have hbyte : ∀ c ∈ v, ok (serializeInteger out false .w8 c.toBitVec) =
        (ok (([c] : List UInt8).map out.push) : Exec (List β)) := by
      intro c _
      refine congrArg ok ((serializeInteger_eq false .w8 c.toBitVec).trans ?_)
      exact congrArg (List.map out.push) (bigEndian_one c)
    refine (serializeVector_eq hv hbyte).trans ?_
    rw [flatMap_singleton']
    rfl

variable {s : Schema} {M : String → Type} {msg : (name : String) → M name → Exec (List β)}
  {msgWire : (name : String) → M name → List UInt8} {msgSized : (name : String) → M name → Prop}

theorem serialize_eq
    (hmsg : ∀ name v, msgSized name v → msg name v = .ok ((msgWire name v).map out.push)) {t : Ty}
    {v : t.Val s M} (hv : Meets s sized msgSized t v) :
    serialize out s msg t v = .ok ((wire s msgWire t v).map out.push) := by
  induction t with
  | primitive p => exact serializePrimitive_eq hv
  | kvpair key value ih => exact serializePair_eq (serializePrimitive_eq hv.1) (ih hv.2)
  | list type ih => exact serializeVector_eq hv.1 fun a ha => ih (hv.2 a ha)
  | fixedlist type size ih => exact serializeAll_eq fun a ha => ih (hv a ha)
  | map key value ih =>
    refine serializeVector_eq hv.1 fun e he => ?_
    exact serializePair_eq (serializePrimitive_eq (hv.2 e he).1) (ih (hv.2 e he).2)
  | optional type ih =>
    cases v with
    | none => rfl
    | some v =>
      have htrue : serializePrimitive out .bool true = .ok ([1].map out.push) := rfl
      exact serializePair_eq htrue (ih hv)
  | oneof msgNames =>
    obtain ⟨name, v⟩ := v
    exact serializePair_eq (congrArg _ (serializeInteger_eq false .w32 _)) (hmsg _ v hv.2)
  | msg name => exact hmsg name v hv
  | enum name => exact congrArg ok (serializeInteger_eq false .w8 _)

theorem serializeDef_eq
    (hmsg : ∀ name v, msgSized name v → msg name v = .ok ((msgWire name v).map out.push))
    {d : Option Msg} {v : DefVal s M d} (hv : MeetsDef s sized msgSized d v) :
    serializeDef out s msg d v = .ok ((wireDef s msgWire d v).map out.push) := by
  cases d with
  | none => exact v.elim
  | some m =>
    obtain ⟨name, id, fields⟩ := m
    change MeetsFields s sized msgSized fields v at hv
    show serializeFields out s msg fields v = .ok ((wireFields s msgWire fields v).map out.push)
    induction fields with
    | nil => rfl
    | cons f fields ih => exact serializePair_eq (serialize_eq hmsg hv.1) (ih hv.2)

theorem serializeMsg_eq (out : Output β) (s : Schema) (n : ℕ) (name : String)
    {v : MsgVal s n name} (hv : MeetsMsg s sized n name v) :
    serializeMsg out s n name v = .ok ((wireMsg s n name v).map out.push) := by
  induction n generalizing name with
  | zero => exact v.elim
  | succ n ih => exact serializeDef_eq (fun name v hv => ih name hv) hv

end Write

/-! ## The deserializers and the representation -/

section Read

variable {α : Type}

variable {n : ℕ} {enc : α → List UInt8} {p : Primitive} {V : Type}

theorem toNat_ofNat_size (hn : n ≤ 0xFFFFFFFF) : (BitVec.ofNat (8 * w32.bytes) n).toNat = n := by
  rw [BitVec.toNat_ofNat]
  exact mod_eq_of_lt (lt_succ_of_le hn)

/-- A size in front of what it counts is read and does not decide. -/
theorem readsIff_size {β : Type} {f : BitVec (8 * w32.bytes) → Reader UInt8 β}
    {w : List UInt8} {c : β} {C : Prop} (h : ReadsIff (f (BitVec.ofNat _ n)) w c C) :
    ReadsIff (deserializeInteger .w32 >>= f) (wireSize n ++ w) c C :=
  (reads_deserializeInteger (BitVec.ofNat (8 * w32.bytes) n)).bind_iff h

theorem exists_bytes {f : UInt8 → α} (l : List.Vector α n)
    (h : ∀ a ∈ l.toList, ∃ c, enc a = [c] ∧ f c = a) :
    ∃ w : List.Vector UInt8 n, l.toList.flatMap enc = w.toList ∧ w.map f = l := by
  induction l with
  | nil => exact ⟨.nil, rfl, rfl⟩
  | @cons n a l ih =>
    rw [toList_cons] at h
    obtain ⟨c, hc, rfl⟩ := h a mem_cons_self
    obtain ⟨w, hw, hl⟩ := ih fun x hx => h x (mem_cons_of_mem _ hx)
    refine ⟨.cons c w, ?_, ?_⟩
    · rw [toList_cons, flatMap_cons, hc, hw, toList_cons]
      rfl
    · rw [List.Vector.map_cons, hl]

theorem reads_copied {f : UInt8 → α} (l : List.Vector α n)
    (h : ∀ a ∈ l.toList, ∃ c, enc a = [c] ∧ f c = a) :
    Reads (deserializeBytes n >>= fun data => pure (data.map f)) (l.toList.flatMap enc) l := by
  obtain ⟨w, hw, rfl⟩ := exists_bytes l h
  rw [hw, deserializeBytes_eq]
  exact (reads_block w).map

theorem readsIff_deserializeVector {o : Option (UInt8 → α)} {p : Reader UInt8 α}
    {C : α → Prop} {l : List α} (hl : l.length ≤ 0xFFFFFFFF)
    (hbyte : ∀ f, o = some f → ∀ a ∈ l, C a ∧ ∃ c, enc a = [c] ∧ f c = a)
    (h : o = none → ∀ a ∈ l, ReadsIff p (enc a) a (C a)) :
    ReadsIff (deserializeVector o p) (wireSize l.length ++ l.flatMap enc) l (All C l) := by
  have hn := toNat_ofNat_size hl
  refine readsIff_size ?_
  generalize BitVec.ofNat (8 * w32.bytes) l.length = length at hn
  cases o with
  | some f =>
    have hread := reads_copied ⟨l, hn.symm⟩ fun a ha => (hbyte f rfl a ha).2
    refine Reads.iff (fun r => ?_) fun a ha => (hbyte f rfl a ha).1
    obtain ⟨data, hdata, heq⟩ := map_eq_ok.mp (hread r)
    exact map_eq_ok.mpr ⟨data, hdata, congrArg toList heq⟩
  | none =>
    exact (readsIff_times ⟨l, hn.symm⟩ (h rfl)).map fun v hv => Subtype.ext hv

theorem readsIff_deserializeArray {o : Option (UInt8 → α)} {p : Reader UInt8 α}
    {C : α → Prop} {l : List.Vector α n}
    (hbyte : ∀ f, o = some f → ∀ a ∈ l.toList, C a ∧ ∃ c, enc a = [c] ∧ f c = a)
    (h : ∀ a ∈ l.toList, ReadsIff p (enc a) a (C a)) :
    ReadsIff (deserializeArray o p n) (l.toList.flatMap enc) l (All C l.toList) := by
  cases o with
  | some f =>
    have hread := reads_copied l fun a ha => (hbyte f rfl a ha).2
    exact hread.iff fun a ha => (hbyte f rfl a ha).1
  | none => exact readsIff_times l h

theorem reads_byteVector {v : List UInt8} (hv : v.length ≤ 0xFFFFFFFF) :
    Reads (deserializeVector (some id) fail) (wireBytes v) v := by
  have hself : ∀ f, some (id : UInt8 → UInt8) = some f →
      ∀ c ∈ v, True ∧ ∃ c', [c] = [c'] ∧ f c' = c := by
    rintro f hf c -
    exact ⟨trivial, c, rfl, congrFun (Option.some.inj hf).symm c⟩
  have hnone : some (id : UInt8 → UInt8) = none → ∀ c ∈ v, ReadsIff fail [c] c True := by
    intro h
    cases h
  have hread := readsIff_deserializeVector hv hself hnone
  rw [flatMap_singleton'] at hread
  exact hread.1 fun c _ => trivial

theorem reads_deserializePrimitive {v : p.Val} (hv : MeetsPrimitive sized p v) :
    Reads (deserializePrimitive p) (wirePrimitive p v) v := by
  cases p with
  | bool => exact reads_deserializeBool v
  | integer signed width => exact reads_deserializeInteger v
  | string =>
    have hn := toNat_ofNat_size hv
    refine (reads_deserializeInteger (BitVec.ofNat (8 * w32.bytes) (List.length v))).bind ?_
    rw [deserializeBytes_eq, hn]
    exact (reads_block ⟨v, rfl⟩).map
  | bytes => exact reads_byteVector hv

theorem meetsPrimitive_readable (s : Schema) (p : Primitive) (v : p.Val) :
    MeetsPrimitive (readable s) p v := by
  cases p <;> trivial

theorem Map.ofList_entries (m : Map p V) : Map.ofList m.entries = m := by
  obtain ⟨entries, sorted⟩ := m
  unfold Map.ofList
  congr
  exact OrdSet.ofList_of_sorted p.entryLt_iff sorted

/-- The first pair with a key is the one the map keeps. -/
theorem Map.mem_ofList {l₁ l₂ : List (p.Val × V)} {k : p.Val} {v : V}
    (h : ∀ e ∈ l₁, e.1 ≠ k) : (k, v) ∈ (Map.ofList (l₁ ++ (k, v) :: l₂)).entries := by
  refine (OrdSet.mem_ofList p.entryLt_iff).mpr ?_
  rw [find?_append, find?_eq_none.mpr, Option.none_or, find?_cons_of_pos (by simp)]
  intro e he hk
  refine h e he (p.rank_injective ?_)
  simpa using hk

theorem readsIff_pairs {key : Primitive} {q : Reader UInt8 V} {enc : V → List UInt8}
    {C : V → Prop} {m : Map key V} (hsize : m.entries.length ≤ 0xFFFFFFFF)
    (hkey : ∀ e ∈ m.entries, MeetsPrimitive sized key e.1)
    (h : ∀ e ∈ m.entries, ReadsIff q (enc e.2) e.2 (C e.2)) :
    ReadsIff (do
      let size ← deserializeInteger .w32
      let pairs ← (deserializePair (deserializePrimitive key) q).times size.toNat
      pure (Map.ofList pairs.toList))
      (wireSize m.entries.length ++ m.entries.flatMap fun e => wirePrimitive key e.1 ++ enc e.2) m
      (All (fun e => C e.2) m.entries) := by
  have hn := toNat_ofNat_size hsize
  have hpair : ∀ e ∈ m.entries, ReadsIff (deserializePair (deserializePrimitive key) q)
      (wirePrimitive key e.1 ++ enc e.2) e (C e.2) := by
    intro e he
    have hboth := ((reads_deserializePrimitive (hkey e he)).iff trivial).pair (h e he)
    exact ⟨fun hC => hboth.1 ⟨trivial, hC⟩, fun hC => hboth.2 fun hall => hC hall.2⟩
  refine readsIff_size ?_
  generalize BitVec.ofNat (8 * w32.bytes) m.entries.length = size at hn
  constructor
  · intro hC
    have hread := reads_times ⟨m.entries, hn.symm⟩ fun e he => (hpair e he).1 (hC e he)
    have hmap := hread.map (f := fun pairs => Map.ofList pairs.toList)
    rw [toList_mk, Map.ofList_entries] at hmap
    exact hmap
  · -- The value of the first entry that is missed is another one, and stays in the map.
    intro hC r r' hok
    obtain ⟨pairs, hpairs, hm⟩ := map_eq_ok.mp hok
    obtain ⟨l₁, e, l₂, hl, hread, hmiss⟩ := exists_first_misses hpair hC
    have he : e ∈ m.entries := by
      rw [hl]
      exact mem_append_right _ mem_cons_self
    rw [hl] at hpairs
    obtain ⟨e', l₂', b', hl', he'⟩ := times_append_eq_ok (hn.trans (congrArg _ hl)) hread hpairs
    have hfirst : e'.1 = e.1 := by
      rw [append_assoc] at he'
      obtain ⟨k, b'', hk, hv⟩ := Reader.bind_eq_ok.mp he'
      rw [reads_deserializePrimitive (hkey e he), ok.injEq, Prod.mk.injEq] at hk
      obtain ⟨v, -, rfl⟩ := map_eq_ok.mp hv
      exact hk.1.symm
    have hmem : e' ∈ m.entries := by
      rw [← hm, hl']
      refine Map.mem_ofList fun x hx hxe => ?_
      have hsorted := m.sorted
      rw [hl] at hsorted
      have hlt := (pairwise_append.mp hsorted).2.2 x hx e mem_cons_self
      exact hlt.ne (congrArg key.rank (hxe.trans hfirst))
    obtain rfl := m.sorted.eq_of_key_eq hmem he (congrArg key.rank hfirst)
    exact hmiss _ _ he'

variable {s : Schema} {M : String → Type} {msg : (name : String) → Reader UInt8 (M name)}
  {msgWire : (name : String) → M name → List UInt8} {msgSized : (name : String) → M name → Prop}
  {msgReadable : (name : String) → M name → Prop}

theorem ofByte?_wire {t : Ty} {f : UInt8 → t.Val s M} (hf : ofByte? s t = some f) (v : t.Val s M) :
    Meets s (readable s) msgReadable t v ∧ ∃ c, wire s msgWire t v = [c] ∧ f c = v := by
  unfold ofByte? at hf
  split at hf
  · obtain rfl := Option.some.inj hf
    refine ⟨trivial, cond v 1 0, rfl, ?_⟩
    have hbool : ∀ b : Bool, decide (cond b (1 : UInt8) 0 ≠ 0) = b := by decide
    exact hbool v
  · obtain rfl := Option.some.inj hf
    exact ⟨trivial, ⟨v⟩, bigEndian_one ⟨v⟩, rfl⟩
  · cases hf

theorem readsIff_oneof (hs : s.Checked) {msgNames : List String}
    (hnames : ∀ name ∈ msgNames, name ∈ s.table.msgNames) {name : {x // x ∈ msgNames}}
    {v : M name} {C : Prop} (h : ReadsIff (msg name) (msgWire name v) v C) :
    ReadsIff (deserialize s msg (.oneof msgNames)) (wireSize (s.idOf name) ++ msgWire name v)
      ⟨name, v⟩ (s.idOf name < 2 ^ 32 ∧ C) := by
  refine readsIff_size ?_
  by_cases hid : s.idOf name < 2 ^ 32
  · have hn : (BitVec.ofNat (8 * w32.bytes) (s.idOf name)).toNat = s.idOf name :=
      toNat_ofNat_size (le_of_lt_succ hid)
    have hfind : msgNames.attach.find? (fun x => s.idOf x.1 = s.idOf name) = some name := by
      cases hx : msgNames.attach.find? fun x => s.idOf x.1 = s.idOf name with
      | none =>
        have hnone := find?_eq_none.mp hx name (mem_attach _ name)
        simp at hnone
      | some x =>
        have heq : s.idOf x.1 = s.idOf name := by simpa using find?_some hx
        exact congrArg some (Subtype.ext (hs.idOf_inj (hnames x.1 x.2) (hnames name.1 name.2) heq))
    rw [hn, hfind]
    have hread := h.map (f := fun v => (⟨name, v⟩ : Σ x : {x // x ∈ msgNames}, M x)) fun v' hv' =>
      eq_of_heq (Sigma.mk.inj hv').2
    exact ⟨fun hC => hread.1 hC.2, fun hC => hread.2 fun hC' => hC ⟨hid, hC'⟩⟩
  · -- The number written is not the id, and no message but the one with the id could be meant.
    refine ⟨fun hC => absurd hC.1 hid, fun _ r r' hok => ?_⟩
    have hmax : s.idOf name = 2 ^ 32 := le_antisymm (hs.idOf_le name) (not_lt.mp hid)
    have hn : (BitVec.ofNat (8 * w32.bytes) (s.idOf name)).toNat = 0 := by
      rw [hmax]
      rfl
    rw [hn] at hok
    cases hx : msgNames.attach.find? fun x => s.idOf x.1 = 0 with
    | none =>
      rw [hx] at hok
      cases hok
    | some x =>
      rw [hx] at hok
      obtain ⟨v', -, heq⟩ := map_eq_ok.mp hok
      have hzero : s.idOf x.1 = 0 := by simpa using find?_some hx
      rw [(Sigma.mk.inj heq).1, hmax] at hzero
      cases hzero

theorem readsIff_enum (hs : s.Checked) {name : String} (tag : Fin (s.tagsOf name)) :
    ReadsIff (deserialize s msg (.enum name)) (bigEndian 1 (BitVec.ofNat _ tag.val)) tag
      (s.tagsOf name < 2 ^ 8) := by
  have hle := hs.tagsOf_le name
  have hn : (BitVec.ofNat (8 * w8.bytes) tag.val).toNat = tag.val := by
    rw [BitVec.toNat_ofNat]
    exact mod_eq_of_lt (lt_of_lt_of_le tag.isLt hle)
  have hread := @reads_deserializeInteger .w8 (BitVec.ofNat (8 * w8.bytes) tag.val)
  by_cases htags : s.tagsOf name < 2 ^ 8
  · have hlt : (BitVec.ofNat (8 * w8.bytes) tag.val).toNat < s.tagsOf name % 256 := by
      rw [hn, show s.tagsOf name % 256 = s.tagsOf name from mod_eq_of_lt htags]
      exact tag.isLt
    refine Reads.iff (fun r => Reader.bind_eq_ok.mpr ⟨_, r, hread r, ?_⟩) htags
    rw [dif_pos hlt]
    exact congrArg (fun x => ok (x, r)) (Fin.ext hn)
  · refine ⟨fun hC => absurd hC htags, fun _ r r' hok => ?_⟩
    obtain ⟨val, b, -, hval⟩ := Reader.bind_eq_ok.mp hok
    have hmax : s.tagsOf name = 256 := le_antisymm hle (not_lt.mp htags)
    have hno : ¬ val.toNat < s.tagsOf name % 256 := by
      rw [hmax]
      exact not_lt_zero _
    rw [dif_neg hno] at hval
    cases hval

theorem readsIff_deserialize (hs : s.Checked)
    (hmsg : ∀ name v, msgSized name v → ReadsIff (msg name) (msgWire name v) v (msgReadable name v))
    {t : Ty} (ht : t.resolves s.table = true) {v : t.Val s M} (hv : Meets s sized msgSized t v) :
    ReadsIff (deserialize s msg t) (wire s msgWire t v) v
      (Meets s (readable s) msgReadable t v) := by
  induction t with
  | primitive p => exact (reads_deserializePrimitive hv).iff (meetsPrimitive_readable s p v)
  | kvpair key value ih =>
    have hkey := (reads_deserializePrimitive hv.1).iff (meetsPrimitive_readable s key v.1)
    exact hkey.pair (ih ht hv.2)
  | list type ih =>
    have hread := readsIff_deserializeVector hv.1 (fun f hf a _ => ofByte?_wire hf a)
      fun _ a ha => ih ht (hv.2 a ha)
    exact ⟨fun hC => hread.1 hC.2, fun hC => hread.2 fun hall => hC ⟨trivial, hall⟩⟩
  | fixedlist type size ih =>
    exact readsIff_deserializeArray (fun f hf a _ => ofByte?_wire hf a) fun a ha => ih ht (hv a ha)
  | map key value ih =>
    have hread := readsIff_pairs hv.1 (fun e he => (hv.2 e he).1) fun e he => ih ht (hv.2 e he).2
    refine ⟨fun hC => hread.1 fun e he => (hC.2 e he).2, fun hC => hread.2 fun hall => hC ?_⟩
    exact ⟨trivial, fun e he => ⟨meetsPrimitive_readable s key e.1, hall e he⟩⟩
  | optional type ih =>
    cases v with
    | none => exact Reads.iff ((reads_deserializeBool false).bind (reads_pure none)) trivial
    | some v =>
      refine (reads_deserializeBool true).bind_iff ((ih ht hv).map fun v' hv' => ?_)
      exact Option.some.inj hv'
  | oneof msgNames =>
    obtain ⟨name, v⟩ := v
    refine readsIff_oneof hs (fun x hx => ?_) (hmsg _ v hv.2)
    have hall : msgNames.all fun name => s.table.msgNames.contains name :=
      (Bool.and_eq_true_iff.mp ht).2
    exact contains_iff_mem.mp (all_eq_true.mp hall x hx)
  | msg name => exact hmsg name v hv
  | enum name => exact readsIff_enum hs v

theorem readsIff_deserializeFields (hs : s.Checked)
    (hmsg : ∀ name v, msgSized name v → ReadsIff (msg name) (msgWire name v) v (msgReadable name v))
    {fields : List Field} (hfields : ∀ f ∈ fields, f.type.resolves s.table = true)
    {v : FieldsVal s M fields} (hv : MeetsFields s sized msgSized fields v) :
    ReadsIff (deserializeFields s msg fields) (wireFields s msgWire fields v) v
      (MeetsFields s (readable s) msgReadable fields v) := by
  induction fields with
  | nil => exact (reads_pure ()).iff trivial
  | cons f fields ih =>
    refine (readsIff_deserialize hs hmsg (hfields f mem_cons_self) hv.1).pair (ih ?_ hv.2)
    exact fun f' hf' => hfields f' (mem_cons_of_mem f hf')

end Read

/-- A message comes back from its representation if it is readable, and only then. -/
theorem readsIff_deserializeMsg {s : Schema} (hs : s.Checked) (n : ℕ) (name : String)
    {v : MsgVal s n name} (hv : MeetsMsg s sized n name v) :
    ReadsIff (deserializeMsg s n name) (wireMsg s n name v) v
      (MeetsMsg s (readable s) n name v) := by
  induction n generalizing name with
  | zero => exact v.elim
  | succ n ih =>
    have hdef : ∀ (d : Option Msg), s.msg? name = d → ∀ v : DefVal s (MsgVal s n) d,
        MeetsDef s sized (MeetsMsg s sized n) d v →
        ReadsIff (deserializeDef s (deserializeMsg s n) d) (wireDef s (wireMsg s n) d v) v
          (MeetsDef s (readable s) (MeetsMsg s (readable s) n) d v) := by
      intro d hd v hv
      cases d with
      | none => exact v.elim
      | some m =>
        have hmem := (Schema.mem_of_msg? hd).1
        exact readsIff_deserializeFields hs (fun name v hv => ih name hv) (hs.resolved m hmem) hv
    exact hdef (s.msg? name) rfl v hv

/-! ## Round trip -/

/-- For every message of an accepted schema, the deserializer stays inside the bytes it is given;
the two serializers write the same bytes; and a value comes back from them, followed by anything
and from no shorter range, exactly when it is readable. -/
theorem round_trip_iff_readable {s : Schema} (hs : s.Accepted) (name : String) :
    (∀ n b, deserializeMsg s n name b ≠ .error .access) ∧
    ∀ n (v : MsgVal s n name), MeetsMsg s sized n name v →
      ∃ bytes chars, serializeMsg byteBuffer s n name v = .ok bytes ∧
        serializeMsg stringBuffer s n name v = .ok chars ∧ chars.map Int8.toUInt8 = bytes ∧
        (((∀ r, deserializeMsg s n name (bytes ++ r) = .ok (v, r)) ∧
          ∀ x y, x ++ y = bytes → y ≠ [] →
            ∀ n' v' r, deserializeMsg s n' name x ≠ .ok (v', r)) ↔
          MeetsMsg s (readable s) n name v) := by
  refine ⟨fun n => (leads_deserializeMsg s (le_refl n) name).1.2, fun n v hv => ?_⟩
  have hread := readsIff_deserializeMsg hs.checked n name hv
  have hbytes := serializeMsg_eq byteBuffer s n name hv
  have hid : (wireMsg s n name v).map byteBuffer.push = wireMsg s n name v := map_id _
  rw [hid] at hbytes
  refine ⟨_, _, hbytes, serializeMsg_eq stringBuffer s n name hv, ?_, ?_, ?_⟩
  · rw [List.map_map]
    exact map_id _
  · rintro ⟨hback, -⟩
    by_contra hno
    exact hread.2 hno [] [] (hback [])
  · intro hreadable
    refine ⟨hread.1 hreadable, fun x y hxy hy n' v' r hok => hy ?_⟩
    -- Both nestings are read at the greater of the two depths.
    obtain ⟨w, hw⟩ := (leads_deserializeMsg s (le_max_right n n') name).2 x v' r hok
    obtain ⟨w', hw'⟩ := (leads_deserializeMsg s (le_max_left n n') name).2 _ v [] (by
      simpa using hread.1 hreadable [])
    have hall := (leads_deserializeMsg s (le_refl (max n n')) name).1.1 x w r hw y
    rw [hxy, hw', Except.ok.injEq, Prod.mk.injEq] at hall
    exact (append_eq_nil_iff.mp hall.2.symm).2

def twoMessages : Schema :=
  [.msg ⟨"A", 1, [⟨.primitive .bool, "x"⟩, ⟨.list (.primitive .bool), "y"⟩]⟩,
    .msg ⟨"B", 2, [⟨.oneof ["A"], "z"⟩, ⟨.optional (.primitive .bool), "w"⟩]⟩]

theorem round_trip_of_twoMessages : twoMessages.Accepted ∧
    ∃ (v : MsgVal twoMessages 2 "B") (bytes : List UInt8),
      serializeMsg byteBuffer twoMessages 2 "B" v = .ok bytes ∧
      ∀ r, deserializeMsg twoMessages 2 "B" (bytes ++ r) = .ok (v, r) := by
  have hs : twoMessages.Accepted := by decide
  let v : MsgVal twoMessages 2 "B" :=
    (⟨⟨"A", mem_singleton_self _⟩, (true, [false, true], ())⟩, some true, ())
  have hall (x : Bool) (_ : x ∈ [false, true]) : True := trivial
  have hv : MeetsMsg twoMessages sized 2 "B" v :=
    ⟨⟨trivial, trivial, ⟨show 2 ≤ 0xFFFFFFFF by decide, hall⟩, trivial⟩, trivial, trivial⟩
  have hr : MeetsMsg twoMessages (readable twoMessages) 2 "B" v :=
    ⟨⟨show twoMessages.idOf "A" < 2 ^ 32 by decide, trivial, ⟨trivial, hall⟩, trivial⟩, trivial,
      trivial⟩
  obtain ⟨bytes, -, hbytes, -, -, hiff⟩ := (round_trip_iff_readable hs "B").2 2 v hv
  exact ⟨hs, v, bytes, hbytes, (hiff.mpr hr).1⟩

/-- **Where a message ends** depends on its own bytes: of two inputs that are read to their end, at
whatever depths of nesting, neither is the beginning of the other. -/
theorem deserializeMsg_prefix_free {s : Schema} {n n' : ℕ} {name : String} {b q : List UInt8}
    {v : MsgVal s n name} {v' : MsgVal s n' name} (h : deserializeMsg s n name b = .ok (v, []))
    (h' : deserializeMsg s n' name (b ++ q) = .ok (v', [])) : q = [] := by
  obtain ⟨w, hw⟩ := (leads_deserializeMsg s (le_max_left n n') name).2 b v [] h
  obtain ⟨w', hw'⟩ := (leads_deserializeMsg s (le_max_right n n') name).2 _ v' [] h'
  have hlocal := (leads_deserializeMsg s le_rfl name).1.1 b w [] hw q
  rw [hw', Except.ok.injEq, Prod.mk.injEq] at hlocal
  exact hlocal.2.symm

theorem prefix_free_twoMessages :
    ∃ v, deserializeMsg twoMessages 1 "A" [1, 0, 0, 0, 1, 0] = .ok (v, []) ∧
      ∀ q v', deserializeMsg twoMessages 1 "A" ([1, 0, 0, 0, 1, 0] ++ q) = .ok (v', []) → q = [] := by
  have h : deserializeMsg twoMessages 1 "A" [1, 0, 0, 0, 1, 0] = .ok ((true, [false], ()), []) := rfl
  exact ⟨_, h, fun _ _ => deserializeMsg_prefix_free h⟩

/-- A message with the greatest id the compiler accepts, and a oneof with it. -/
def greatestId : Schema :=
  [.msg ⟨"A", 2 ^ 32, []⟩, .msg ⟨"B", 1, [⟨.oneof ["A"], "x"⟩]⟩]

theorem greatestId_lost : greatestId.Accepted ∧
    ∃ v : MsgVal greatestId 2 "B", MeetsMsg greatestId sized 2 "B" v ∧
      serializeMsg byteBuffer greatestId 2 "B" v = .ok [0, 0, 0, 0] ∧
      deserializeMsg greatestId 2 "B" [0, 0, 0, 0] = .error .exception := by
  refine ⟨by decide, (⟨⟨"A", mem_singleton_self _⟩, ()⟩, ()), ⟨⟨trivial, trivial⟩, trivial⟩, ?_, ?_⟩
  · rfl
  · rfl

end ConcordBft.Cmf
