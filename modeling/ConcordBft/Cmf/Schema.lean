import ConcordBft.Lib.OrdMap
import Mathlib.Data.List.Lex
import Mathlib.Data.Vector.Basic

/-!
# Schemas of the message format and the values of their types

The grammar of the format, the checks the compiler makes before it generates code
(`Schema.Accepted`), and the values of a type as the generated C++ types hold them. A message may
refer to the messages above it and, since its name is in the symbol table before its fields are
looked at, to itself; `MsgVal s n` are the values of the messages of `s` that are nested at most
`n` deep.
-/

namespace ConcordBft.Cmf

open Verif List

/-! ## The grammar -/

inductive Width
  | w8 | w16 | w32 | w64
  deriving DecidableEq, Repr

def Width.bytes : Width → ℕ
  | .w8 => 1
  | .w16 => 2
  | .w32 => 4
  | .w64 => 8

inductive Primitive
  | bool
  | integer (signed : Bool) (width : Width)
  | string
  | bytes
  deriving DecidableEq, Repr

/-- The types of fields; names of messages and enums are resolved. -/
inductive Ty
  | primitive (p : Primitive)
  | kvpair (key : Primitive) (value : Ty)
  | list (type : Ty)
  | fixedlist (type : Ty) (size : ℕ)
  | map (key : Primitive) (value : Ty)
  | optional (type : Ty)
  | oneof (msgNames : List String)
  | msg (name : String)
  | enum (name : String)
  deriving DecidableEq, Repr

structure Field where
  type : Ty
  name : String
  deriving DecidableEq, Repr

structure Msg where
  name : String
  id : ℕ
  fields : List Field
  deriving DecidableEq, Repr

structure EnumDef where
  name : String
  tags : List String
  deriving DecidableEq, Repr

/-- What a schema defines, one after the other. -/
inductive Toplevel
  | msg (m : Msg)
  | enum (e : EnumDef)
  deriving DecidableEq, Repr

abbrev Schema := List Toplevel

/-! ## The checks of the compiler -/

/-- What is used to detect duplicates and names that are not defined. -/
structure SymbolTable where
  msgIds : List ℕ
  msgNames : List String
  enumNames : List String

/-- `toplevel_ref`, and the check of the walker that a oneof holds no enum. -/
def Ty.resolves (table : SymbolTable) : Ty → Bool
  | .primitive _ => true
  | .kvpair _ value => value.resolves table
  | .list type => type.resolves table
  | .fixedlist type _ => type.resolves table
  | .map _ value => value.resolves table
  | .optional type => type.resolves table
  | .oneof msgNames => !msgNames.isEmpty && msgNames.all fun name => table.msgNames.contains name
  | .msg name => table.msgNames.contains name
  | .enum name => table.enumNames.contains name

/-- The checks on one definition, in the order in which the parser meets them. -/
def SymbolTable.define (table : SymbolTable) : Toplevel → Option SymbolTable
  | .msg m =>
    if table.msgNames.contains m.name || table.enumNames.contains m.name then none
    -- The test lets the first number that is no uint32 through.
    else if m.id > 2 ^ 32 || table.msgIds.contains m.id then none
    else
      let table' : SymbolTable :=
        { table with msgNames := m.name :: table.msgNames, msgIds := m.id :: table.msgIds }
      if m.fields.all fun f => f.type.resolves table' then
        if (m.fields.map Field.name).Nodup then some table' else none
      else none
  | .enum e =>
    if table.msgNames.contains e.name || table.enumNames.contains e.name then none
    else if e.tags.isEmpty || e.tags.length > 256 || !decide e.tags.Nodup then none
    else some { table with enumNames := e.name :: table.enumNames }

/-- The compiler generates code for the schema. -/
def Schema.Accepted (s : Schema) : Prop := (s.foldlM SymbolTable.define ⟨[], [], []⟩).isSome

instance (s : Schema) : Decidable s.Accepted := inferInstanceAs (Decidable (_ = true))

def Schema.msgs (s : Schema) : List Msg := s.filterMap fun
  | .msg m => some m
  | .enum _ => none

def Schema.enums (s : Schema) : List EnumDef := s.filterMap fun
  | .msg _ => none
  | .enum e => some e

def Schema.msg? (s : Schema) (name : String) : Option Msg := s.msgs.find? fun m => m.name == name

/-- The id written into the generated code of a message. -/
def Schema.idOf (s : Schema) (name : String) : ℕ := ((s.msg? name).map Msg.id).getD 0

def Schema.tagsOf (s : Schema) (name : String) : ℕ :=
  ((s.enums.find? fun e => e.name == name).map fun e => e.tags.length).getD 0

def Schema.table (s : Schema) : SymbolTable where
  msgIds := (s.msgs.map Msg.id).reverse
  msgNames := (s.msgs.map Msg.name).reverse
  enumNames := (s.enums.map EnumDef.name).reverse

variable {table : SymbolTable} {s : Schema}

theorem Ty.resolves_mono {table' : SymbolTable} (hm : table.msgNames ⊆ table'.msgNames)
    (he : table.enumNames ⊆ table'.enumNames) {t : Ty} (h : t.resolves table = true) :
    t.resolves table' = true := by
  induction t with
  | primitive p => rfl
  | kvpair key value ih => exact ih h
  | list type ih => exact ih h
  | fixedlist type size ih => exact ih h
  | map key value ih => exact ih h
  | optional type ih => exact ih h
  | oneof msgNames =>
    simp only [resolves, Bool.and_eq_true, all_eq_true, contains_iff_mem] at h ⊢
    exact ⟨h.1, fun name hname => hm (h.2 name hname)⟩
  | msg name =>
    simp only [resolves, contains_iff_mem] at h ⊢
    exact hm h
  | enum name =>
    simp only [resolves, contains_iff_mem] at h ⊢
    exact he h

/-- What the checks leave of a schema. -/
structure Schema.Checked (s : Schema) : Prop where
  names : (s.msgs.map Msg.name).Nodup
  ids : (s.msgs.map Msg.id).Nodup
  id_le : ∀ m ∈ s.msgs, m.id ≤ 2 ^ 32
  tags_le : ∀ e ∈ s.enums, e.tags.length ≤ 256
  resolved : ∀ m ∈ s.msgs, ∀ f ∈ m.fields, f.type.resolves s.table = true

theorem Schema.msgs_concat (s : Schema) (d : Toplevel) :
    Schema.msgs (s ++ [d]) = s.msgs ++ Schema.msgs [d] := filterMap_append

theorem Schema.enums_concat (s : Schema) (d : Toplevel) :
    Schema.enums (s ++ [d]) = s.enums ++ Schema.enums [d] := filterMap_append

theorem Schema.Checked.define (h : s.Checked) {d : Toplevel} (hd : s.table.define d = some table) :
    Schema.Checked (s ++ [d]) ∧ table = Schema.table (s ++ [d]) := by
  cases d with
  | enum e =>
    have hmsgs : Schema.msgs (s ++ [.enum e]) = s.msgs := by
      rw [msgs_concat]
      exact append_nil _
    have henums : Schema.enums (s ++ [.enum e]) = s.enums ++ [e] := enums_concat s _
    unfold SymbolTable.define at hd
    dsimp only at hd
    split_ifs at hd with hname htags
    have htable : table = Schema.table (s ++ [.enum e]) := by
      rw [← Option.some.inj hd, Schema.table, Schema.table, hmsgs, henums]
      simp
    refine ⟨⟨?_, ?_, ?_, ?_, ?_⟩, htable⟩
    · rw [hmsgs]
      exact h.names
    · rw [hmsgs]
      exact h.ids
    · rw [hmsgs]
      exact h.id_le
    · intro e' he'
      rw [henums] at he'
      rcases mem_append.mp he' with he' | he'
      · exact h.tags_le e' he'
      · rw [mem_singleton.mp he']
        simp only [Bool.or_eq_true, decide_eq_true_eq, not_or, not_lt] at htags
        exact htags.1.2
    · intro m hm f hf
      rw [hmsgs] at hm
      refine Ty.resolves_mono ?_ ?_ (h.resolved m hm f hf)
      · simp [Schema.table, hmsgs]
      · simp [Schema.table, henums]
  | msg m =>
    have hmsgs : Schema.msgs (s ++ [.msg m]) = s.msgs ++ [m] := msgs_concat s _
    have henums : Schema.enums (s ++ [.msg m]) = s.enums := by
      rw [enums_concat]
      exact append_nil _
    unfold SymbolTable.define at hd
    dsimp only at hd
    split_ifs at hd with hname hid hfields hnodup
    have htable : table = Schema.table (s ++ [.msg m]) := by
      rw [← Option.some.inj hd, Schema.table, Schema.table, hmsgs, henums]
      simp
    simp only [Bool.or_eq_true, contains_iff_mem, not_or] at hname
    simp only [Bool.or_eq_true, decide_eq_true_eq, contains_iff_mem, not_or, not_lt] at hid
    refine ⟨⟨?_, ?_, ?_, ?_, ?_⟩, htable⟩
    · rw [hmsgs, map_append, nodup_append]
      refine ⟨h.names, nodup_singleton _, fun a ha b hb hab => hname.1 ?_⟩
      rw [map_singleton, mem_singleton] at hb
      rw [Schema.table, mem_reverse, ← hb, ← hab]
      exact ha
    · rw [hmsgs, map_append, nodup_append]
      refine ⟨h.ids, nodup_singleton _, fun a ha b hb hab => hid.2 ?_⟩
      rw [map_singleton, mem_singleton] at hb
      rw [Schema.table, mem_reverse, ← hb, ← hab]
      exact ha
    · intro m' hm'
      rw [hmsgs] at hm'
      rcases mem_append.mp hm' with hm' | hm'
      · exact h.id_le m' hm'
      · rw [mem_singleton.mp hm']
        exact hid.1
    · rw [henums]
      exact h.tags_le
    · intro m' hm' f hf
      rw [hmsgs] at hm'
      rcases mem_append.mp hm' with hm' | hm'
      · refine Ty.resolves_mono ?_ ?_ (h.resolved m' hm' f hf)
        · simp [Schema.table, hmsgs]
        · simp [Schema.table, henums]
      · rw [mem_singleton.mp hm'] at hf
        rw [← htable, ← Option.some.inj hd]
        exact all_eq_true.mp hfields f hf

theorem Schema.checked_of_foldlM (h : s.foldlM SymbolTable.define ⟨[], [], []⟩ = some table) :
    s.Checked ∧ table = s.table := by
  induction s using List.reverseRecOn generalizing table with
  | nil =>
    refine ⟨⟨nodup_nil, nodup_nil, ?_, ?_, ?_⟩, (Option.some.inj h).symm⟩
    · exact fun m hm => absurd hm not_mem_nil
    · exact fun e he => absurd he not_mem_nil
    · exact fun m hm => absurd hm not_mem_nil
  | append_singleton s d ih =>
    rw [foldlM_append] at h
    obtain ⟨table', h', hd⟩ := Option.bind_eq_some_iff.mp h
    obtain ⟨hchecked, rfl⟩ := ih h'
    refine hchecked.define ?_
    simpa using hd

theorem Schema.Accepted.checked (h : s.Accepted) : s.Checked := by
  obtain ⟨table, htable⟩ := Option.isSome_iff_exists.mp h
  exact (checked_of_foldlM htable).1

theorem Schema.mem_of_msg? {name : String} {m : Msg} (h : s.msg? name = some m) :
    m ∈ s.msgs ∧ m.name = name :=
  ⟨mem_of_find?_eq_some h, by simpa using List.find?_some h⟩

theorem Schema.exists_msg? {name : String} (h : name ∈ s.table.msgNames) :
    ∃ m, s.msg? name = some m := by
  rw [Schema.table, mem_reverse, mem_map] at h
  obtain ⟨m, hm, rfl⟩ := h
  refine Option.isSome_iff_exists.mp ?_
  rw [Schema.msg?, List.find?_isSome]
  exact ⟨m, hm, by simp⟩

theorem Schema.Checked.idOf_inj (h : s.Checked) {x y : String}
    (hx : x ∈ s.table.msgNames) (hy : y ∈ s.table.msgNames) (hxy : s.idOf x = s.idOf y) :
    x = y := by
  obtain ⟨m, hm⟩ := exists_msg? hx
  obtain ⟨m', hm'⟩ := exists_msg? hy
  obtain ⟨hmem, rfl⟩ := mem_of_msg? hm
  obtain ⟨hmem', rfl⟩ := mem_of_msg? hm'
  have hid : m.id = m'.id := by simpa [idOf, hm, hm'] using hxy
  rw [inj_on_of_nodup_map h.ids hmem hmem' hid]

theorem Schema.Checked.idOf_le (h : s.Checked) (name : String) : s.idOf name ≤ 2 ^ 32 := by
  unfold idOf
  rcases hm : s.msg? name with _ | m
  · exact Nat.zero_le _
  · exact h.id_le m (mem_of_msg? hm).1

theorem Schema.Checked.tagsOf_le (h : s.Checked) (name : String) : s.tagsOf name ≤ 256 := by
  unfold tagsOf
  rcases he : s.enums.find? fun e => e.name == name with _ | e
  · rw [he]
    exact Nat.zero_le _
  · rw [he]
    exact h.tags_le e (mem_of_find?_eq_some he)

/-! ## Values -/

/-- The C++ type of a primitive; a char is its byte. -/
def Primitive.Val : Primitive → Type
  | .bool => Bool
  | .integer _ width => BitVec (8 * width.bytes)
  | .string => List UInt8
  | .bytes => List UInt8

/-- The place of a value in the order `std::less` gives its type. -/
def Primitive.rank : (p : Primitive) → p.Val → List ℤ
  | .bool, b => [(Bool.toNat b : ℤ)]
  | .integer signed _, x => [if signed then BitVec.toInt x else (BitVec.toNat x : ℤ)]
  | .string, s => List.map (fun c : UInt8 => (c.toNat : ℤ)) s
  | .bytes, s => List.map (fun c : UInt8 => (c.toNat : ℤ)) s

theorem Primitive.rank_injective (p : Primitive) : Function.Injective p.rank := by
  have hbytes : Function.Injective (List.map fun c : UInt8 => (c.toNat : ℤ)) := by
    refine map_injective_iff.mpr fun a b hab => UInt8.toNat_inj.mp ?_
    exact Int.ofNat_inj.mp hab
  cases p with
  | bool =>
    intro a b hab
    simp only [rank, List.cons.injEq, and_true] at hab
    have hbool : ∀ x y : Bool, x.toNat = y.toNat → x = y := by decide
    exact hbool a b (Int.ofNat_inj.mp hab)
  | integer signed width =>
    intro a b hab
    simp only [rank, List.cons.injEq, and_true] at hab
    split_ifs at hab
    · exact BitVec.eq_of_toInt_eq hab
    · exact BitVec.eq_of_toNat_eq (Int.ofNat_inj.mp hab)
  | string => exact hbytes
  | bytes => exact hbytes

/-- The order of the entries of a `std::map`. -/
def Primitive.entryLt (p : Primitive) {V : Type} (a b : p.Val × V) : Bool :=
  decide (p.rank a.1 < p.rank b.1)

theorem Primitive.entryLt_iff (p : Primitive) {V : Type} (a b : p.Val × V) :
    p.entryLt a b = true ↔ p.rank a.1 < p.rank b.1 := decide_eq_true_iff

/-- A `std::map`: its entries in the order of the keys. -/
structure Map (p : Primitive) (V : Type) where
  entries : List (p.Val × V)
  sorted : OrdSet.Sorted (fun e => p.rank e.1) entries

/-- The map after the pairs have been inserted one after the other. -/
def Map.ofList {p : Primitive} {V : Type} (l : List (p.Val × V)) : Map p V :=
  ⟨OrdSet.ofList p.entryLt l, OrdSet.sorted_ofList p.entryLt_iff l⟩

/-- The values of a type, over the values of messages. -/
def Ty.Val (s : Schema) (M : String → Type) : Ty → Type
  | .primitive p => p.Val
  | .kvpair key value => key.Val × value.Val s M
  | .list type => List (type.Val s M)
  | .fixedlist type size => List.Vector (type.Val s M) size
  | .map key value => Map key (value.Val s M)
  | .optional type => Option (type.Val s M)
  | .oneof msgNames => Σ name : {x // x ∈ msgNames}, M name
  | .msg name => M name
  | .enum name => Fin (s.tagsOf name)

def FieldsVal (s : Schema) (M : String → Type) : List Field → Type
  | [] => Unit
  | f :: fields => f.type.Val s M × FieldsVal s M fields

/-- The values of a message of the schema; a name without a message has none. -/
def DefVal (s : Schema) (M : String → Type) : Option Msg → Type
  | none => Empty
  | some m => FieldsVal s M m.fields

/-- The values of messages in which messages are nested at most so deep. -/
def MsgVal (s : Schema) : ℕ → String → Type
  | 0, _ => Empty
  | n + 1, name => DefVal s (MsgVal s n) (s.msg? name)

end ConcordBft.Cmf
