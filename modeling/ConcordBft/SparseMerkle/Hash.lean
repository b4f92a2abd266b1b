import ConcordBft.Lib.Exec
import Mathlib.Data.Fin.VecNotation
import Mathlib.Data.Fintype.Pi
import Mathlib.Tactic.IntervalCases

/-!
# Hashes, nibbles and paths of the sparse Merkle tree

A hash is 32 bytes. The tree reads a key hash from its most significant bit on, four bits (a
nibble) at a time. `Hash.bits` lists the bits in that order; the lemmas relate `getNibble` and
`prefix_bits_in_common` to it.
-/

namespace ConcordBft.SparseMerkle

open Verif List

abbrev Version := ℕ

/-! ## Nibbles -/

abbrev Nibble := BitVec 4

variable (x : Nibble)

/-- Bits are counted from the least significant one. -/
def Nibble.getBit (bit : ℕ) : Bool := x.getLsbD bit

/-- The `i` low bits of a nibble, most significant bit first. -/
def Nibble.lowBits (x : Nibble) : ℕ → List Bool
  | 0 => []
  | i + 1 => x.getBit i :: Nibble.lowBits x i

def Nibble.bits : List Bool := x.lowBits 4

@[simp] theorem Nibble.length_lowBits (i : ℕ) : (x.lowBits i).length = i := by
  induction i with
  | zero => rfl
  | succ i ih => rw [lowBits, length_cons, ih]

@[simp] theorem Nibble.length_bits : x.bits.length = 4 := x.length_lowBits 4

theorem Nibble.bits_ne_nil : x.bits ≠ [] :=
  ne_nil_of_length_pos (by rw [x.length_bits]; omega)

theorem Nibble.drop_lowBits (i j : ℕ) : (x.lowBits i).drop j = x.lowBits (i - j) := by
  induction j generalizing i with
  | zero => rfl
  | succ j ih =>
    cases i with
    | zero => simp [lowBits]
    | succ i => rw [lowBits, drop_succ_cons, ih, Nat.add_sub_add_right]

theorem Nibble.append_lowBits {x : Nibble} {u : List Bool} (h : u <+: x.bits) :
    u ++ x.lowBits (4 - u.length) = x.bits := by
  rw [← x.drop_lowBits 4, ← Nibble.bits]
  exact (prefix_append_drop h).symm

theorem Nibble.bits_injective : Function.Injective Nibble.bits := by
  intro x y h
  simp only [bits, lowBits, getBit, cons.injEq, and_true] at h
  obtain ⟨h3, h2, h1, h0⟩ := h
  apply BitVec.eq_of_getLsbD_eq
  intro i hi
  interval_cases i <;> assumption

/-- The nibbles on the way from the root to a node. -/
abbrev NibblePath := List Nibble

def NibblePath.bits (path : NibblePath) : List Bool := path.flatMap Nibble.bits

theorem NibblePath.bits_append (path path' : NibblePath) :
    NibblePath.bits (path ++ path') = path.bits ++ path'.bits := flatMap_append

theorem NibblePath.bits_concat (path : NibblePath) (x : Nibble) :
    NibblePath.bits (path ++ [x]) = path.bits ++ x.bits := by
  rw [NibblePath.bits_append]
  rfl

theorem NibblePath.isPrefix_of_bits {path path' : NibblePath} (h : path.bits <+: path'.bits) :
    path <+: path' := by
  induction path generalizing path' with
  | nil => exact nil_prefix
  | cons x path ih =>
    cases path' with
    | nil =>
      have hlen := h.length_le
      simp [NibblePath.bits] at hlen
    | cons y path' =>
      have hcons : x.bits ++ NibblePath.bits path <+: y.bits ++ NibblePath.bits path' := h
      have hx : x.bits <+: y.bits := prefix_of_prefix_length_le
        ((prefix_append _ _).trans hcons) (prefix_append _ _) (by simp)
      obtain rfl := Nibble.bits_injective (hx.eq_of_length (by simp))
      rw [prefix_append_right_inj] at hcons
      exact (prefix_cons_inj x).mpr (ih hcons)

theorem NibblePath.length_bits (path : NibblePath) : path.bits.length = 4 * path.length := by
  induction path with
  | nil => rfl
  | cons x path ih =>
    rw [NibblePath.bits, flatMap_cons, length_append, Nibble.length_bits,
      ← NibblePath.bits, ih, length_cons]
    omega

/-! ## Hashes -/

structure Hash where
  buf : Fin 32 → UInt8
  deriving DecidableEq

namespace Hash

/-- `EMPTY_BUF`, the hash of the empty string. -/
def placeholder : Hash :=
  ⟨![0xa7, 0xff, 0xc6, 0xf8, 0xbf, 0x1e, 0xd7, 0x66, 0x51, 0xc1, 0x47, 0x56, 0xa0, 0x61, 0xd6, 0x62,
    0xf5, 0x80, 0xff, 0x4d, 0xe4, 0x3b, 0x49, 0xfa, 0x82, 0xd8, 0x0a, 0x4b, 0x80, 0xf8, 0x43, 0x4a]⟩

def maxNibbles : ℕ := 64

variable (h : Hash)

/-- The nibble at a position: the high half of a byte comes first. -/
def nibble (n : Fin 64) : Nibble :=
  let byte := h.buf ⟨n / 2, by omega⟩
  if n % 2 = (0 : ℕ) then BitVec.ofNat 4 (byte.toNat >>> 4)
  else BitVec.ofNat 4 (byte.toNat &&& 0x0F)

def getNibble (n : ℕ) : Exec Nibble :=
  if hn : n < 64 then .ok (h.nibble ⟨n, hn⟩) else .error .assertion

/-- The bits in which two bytes agree, from the bit below `j` downwards. -/
def bitsInCommon (x y : UInt8) : ℕ → ℕ
  | 0 => 0
  | j + 1 => if x.toNat.testBit j = y.toNat.testBit j then bitsInCommon x y j + 1 else 0

/-- The loop of `prefix_bits_in_common` over the last `k` bytes. -/
def prefixBitsFrom (other : Hash) : (k : ℕ) → k ≤ 32 → ℕ
  | 0, _ => 0
  | k + 1, hk =>
    let x := h.buf ⟨31 - k, by omega⟩
    let y := other.buf ⟨31 - k, by omega⟩
    if x ^^^ y = 0 then 8 + prefixBitsFrom other k (by omega) else bitsInCommon x y 8

/-- `prefix_bits_in_common`, from the first bit. -/
def prefixBits (other : Hash) : ℕ := h.prefixBitsFrom other 32 le_rfl

/-- `prefix_bits_in_common`, from the bit `depth * 4`. -/
def prefixBitsInCommon (other : Hash) (depth : ℕ) : Exec ℕ :=
  if depth < 64 then
    .ok (if h.prefixBits other > depth * 4 then h.prefixBits other - depth * 4 else 0)
  else .error .assertion

/-! ## The bits of a hash -/

/-- The bit at a position, counted from the most significant one. -/
def bit (i : Fin 256) : Bool := (h.buf ⟨i / 8, by omega⟩).toNat.testBit (7 - i % 8)

def bits : List Bool := List.ofFn h.bit

def nibbles : NibblePath := List.ofFn h.nibble

@[simp] theorem length_bits : h.bits.length = 256 := length_ofFn

@[simp] theorem length_nibbles : h.nibbles.length = 64 := length_ofFn

variable {j : ℕ}

theorem getBit_nibble (n : Fin 64) (hj : j < 4) :
    (h.nibble n).getBit j = h.bit ⟨4 * n + (3 - j), by omega⟩ := by
  have hbyte : (4 * (n : ℕ) + (3 - j)) / 8 = n / 2 := by omega
  unfold nibble bit Nibble.getBit
  simp only [hbyte]
  split_ifs with hn
  · rw [BitVec.getLsbD_ofNat, Nat.testBit_shiftRight, decide_eq_true hj, Bool.true_and]
    congr 1
    omega
  · rw [BitVec.getLsbD_ofNat, Nat.testBit_and, show (15 : ℕ) = 2 ^ 4 - 1 from rfl,
      Nat.testBit_two_pow_sub_one, decide_eq_true hj, Bool.true_and, Bool.and_true]
    congr 1
    omega

theorem bits_nibbles : h.nibbles.bits = h.bits := by
  have hmul : h.bits = (ofFn fun i : Fin 64 => ofFn fun j : Fin 4 =>
      h.bit ⟨i * 4 + j, by omega⟩).flatten := ofFn_mul (m := 64) (n := 4) h.bit
  rw [hmul, nibbles, NibblePath.bits, flatMap_def, map_ofFn]
  congr 1
  congr 1
  funext n
  simp only [Function.comp_apply, Nibble.bits, Nibble.lowBits]
  rw [h.getBit_nibble n (by omega), h.getBit_nibble n (by omega), h.getBit_nibble n (by omega),
    h.getBit_nibble n (by omega)]
  simp [ofFn_succ, Nat.mul_comm]

theorem eq_of_testBit {x y : UInt8} (h : ∀ i < 8, x.toNat.testBit i = y.toNat.testBit i) :
    x = y := by
  apply UInt8.toNat_inj.mp
  apply Nat.eq_of_testBit_eq
  intro i
  by_cases hi : i < 8
  · exact h i hi
  · have hlt : ∀ z : UInt8, z.toNat < 2 ^ i := fun z =>
      z.toNat_lt.trans_le (Nat.pow_le_pow_right (by omega) (by omega))
    rw [Nat.testBit_lt_two_pow (hlt _), Nat.testBit_lt_two_pow (hlt _)]

theorem bit_eq (n : Fin 32) (hj : j < 8) :
    h.bit ⟨8 * n + j, by omega⟩ = (h.buf n).toNat.testBit (7 - j) := by
  have hbyte : (8 * (n : ℕ) + j) / 8 = n := by omega
  have hj' : (8 * (n : ℕ) + j) % 8 = j := by omega
  simp only [bit, hbyte, hj']

theorem bits_injective : Function.Injective Hash.bits := by
  intro a b h
  have hbit : ∀ i, a.bit i = b.bit i := fun i => congrFun (ofFn_injective h) i
  have hbuf : a.buf = b.buf := by
    funext n
    apply eq_of_testBit
    intro j hj
    have h := hbit ⟨8 * n + (7 - j), by omega⟩
    rw [a.bit_eq n (by omega), b.bit_eq n (by omega)] at h
    rwa [show 7 - (7 - j) = j by omega] at h
  cases a
  cases b
  exact congrArg Hash.mk hbuf

theorem prefix_concat_nibble {path : NibblePath} (hpath : path <+: h.nibbles)
    (hlength : path.length < 64) : path ++ [h.nibble ⟨path.length, hlength⟩] <+: h.nibbles := by
  obtain ⟨rest, hrest⟩ := hpath
  have hget : h.nibbles[path.length]? = some (h.nibble ⟨path.length, hlength⟩) := by
    rw [nibbles, List.getElem?_ofFn, dif_pos hlength]
  rw [← hrest, List.getElem?_append_right le_rfl, Nat.sub_self] at hget
  cases rest with
  | nil => simp at hget
  | cons x rest =>
    rw [getElem?_cons_zero, Option.some.injEq] at hget
    rw [← hget, ← hrest]
    exact ⟨rest, by simp⟩

theorem bits_prefix {path : NibblePath} (hpath : path <+: h.nibbles) : path.bits <+: h.bits := by
  obtain ⟨rest, hrest⟩ := hpath
  rw [← h.bits_nibbles, ← hrest, NibblePath.bits_append]
  exact prefix_append _ _

/-! ## Common prefixes -/

theorem bitsInCommon_spec (x y : UInt8) (j : ℕ) : bitsInCommon x y j ≤ j ∧
    (∀ i, j - bitsInCommon x y j ≤ i → i < j → x.toNat.testBit i = y.toNat.testBit i) ∧
    (bitsInCommon x y j < j → x.toNat.testBit (j - 1 - bitsInCommon x y j) ≠
        y.toNat.testBit (j - 1 - bitsInCommon x y j)) := by
  induction j with
  | zero => simp [bitsInCommon]
  | succ j ih =>
    obtain ⟨hle, hcommon, hdiffer⟩ := ih
    unfold bitsInCommon
    split_ifs with hbit
    · refine ⟨by omega, fun i hi hij => ?_, fun hlt => ?_⟩
      · rcases Nat.lt_succ_iff_lt_or_eq.mp hij with hij | rfl
        · exact hcommon i (by omega) hij
        · exact hbit
      · have hd := hdiffer (by omega)
        rwa [show j + 1 - 1 - (bitsInCommon x y j + 1) = j - 1 - bitsInCommon x y j by omega]
    · exact ⟨by omega, fun i hi hij => by omega, fun _ => hbit⟩

variable (other : Hash)

theorem prefixBitsFrom_spec (k : ℕ) (hk : k ≤ 32) :
    (∀ i (hi : i < 256), 256 - 8 * k ≤ i → i < 256 - 8 * k + h.prefixBitsFrom other k hk →
      h.bit ⟨i, hi⟩ = other.bit ⟨i, hi⟩) ∧
    ∀ hi : 256 - 8 * k + h.prefixBitsFrom other k hk < 256, h.bit ⟨_, hi⟩ ≠ other.bit ⟨_, hi⟩ := by
  induction k with
  | zero => exact ⟨fun i hi hle hlt => by omega, fun hi => by omega⟩
  | succ k ih =>
    obtain ⟨hcommon, hdiffer⟩ := ih (by omega)
    have hsplit : ∀ (g : Hash) (i : ℕ) (hi : i < 256), 256 - 8 * (k + 1) ≤ i → i < 256 - 8 * k →
        g.bit ⟨i, hi⟩ = (g.buf ⟨31 - k, by omega⟩).toNat.testBit (255 - 8 * k - i) := by
      intro g i hi hle hlt
      have hb := g.bit_eq ⟨31 - k, by omega⟩ (j := i - 8 * (31 - k)) (by omega)
      rw [show 255 - 8 * k - i = 7 - (i - 8 * (31 - k)) by omega, ← hb]
      congr 2
      show i = 8 * (31 - k) + (i - 8 * (31 - k))
      omega
    unfold prefixBitsFrom
    dsimp only
    split_ifs with hxor
    · have heq := UInt8.xor_eq_zero_iff.mp hxor
      refine ⟨fun i hi hle hlt => ?_, fun hi => ?_⟩
      · by_cases hbyte : i < 256 - 8 * k
        · rw [hsplit h i hi hle hbyte, hsplit other i hi hle hbyte, heq]
        · exact hcommon i hi (by omega) (by omega)
      · have hd := hdiffer (by omega)
        have hpos : 256 - 8 * (k + 1) + (8 + h.prefixBitsFrom other k (by omega)) =
            256 - 8 * k + h.prefixBitsFrom other k (by omega) := by omega
        simpa only [hpos] using hd
    · obtain ⟨hle8, hsame, hdiff⟩ :=
        bitsInCommon_spec (h.buf ⟨31 - k, by omega⟩) (other.buf ⟨31 - k, by omega⟩) 8
      have hlt8 : bitsInCommon (h.buf ⟨31 - k, by omega⟩) (other.buf ⟨31 - k, by omega⟩) 8 < 8 := by
        by_contra hge
        exact hxor (UInt8.xor_eq_zero_iff.mpr (eq_of_testBit fun i hi => hsame i (by omega) hi))
      refine ⟨fun i hi hle hlt => ?_, fun hi => ?_⟩
      · rw [hsplit h i hi hle (by omega), hsplit other i hi hle (by omega)]
        exact hsame _ (by omega) (by omega)
      · rw [hsplit h _ hi (by omega) (by omega), hsplit other _ hi (by omega) (by omega)]
        have hd := hdiff hlt8
        rwa [show 255 - 8 * k - (256 - 8 * (k + 1) +
            bitsInCommon (h.buf ⟨31 - k, by omega⟩) (other.buf ⟨31 - k, by omega⟩) 8) =
          8 - 1 - bitsInCommon (h.buf ⟨31 - k, by omega⟩) (other.buf ⟨31 - k, by omega⟩) 8 by omega]

/-- A prefix of one hash is a prefix of another if it is not longer than what they have in
common. -/
theorem prefix_bits_iff {p : List Bool} (hp : p <+: h.bits) :
    p <+: other.bits ↔ p.length ≤ h.prefixBits other := by
  obtain ⟨hcommon, hdiffer⟩ := h.prefixBitsFrom_spec other 32 le_rfl
  have hfold : h.prefixBitsFrom other 32 le_rfl = h.prefixBits other := rfl
  simp only [hfold, show 256 - 8 * 32 = 0 from rfl, Nat.zero_add, Nat.zero_le,
    true_implies] at hcommon hdiffer
  have hlen : p.length ≤ 256 := by
    rw [← h.length_bits]
    exact hp.length_le
  have hget : ∀ (g : Hash) {i : ℕ} (hi : i < 256), g.bits[i]? = some (g.bit ⟨i, hi⟩) := by
    intro g i hi
    rw [bits, List.getElem?_ofFn, dif_pos hi]
  constructor
  · intro hp'
    by_contra hlt
    have hi : h.prefixBits other < 256 := by omega
    have heq : h.bits[h.prefixBits other]? = other.bits[h.prefixBits other]? := by
      rw [prefix_iff_getElem?.mp hp _ (by omega), prefix_iff_getElem?.mp hp' _ (by omega)]
    rw [hget h hi, hget other hi, Option.some.injEq] at heq
    exact hdiffer hi heq
  · intro hle
    rw [prefix_iff_getElem?] at hp ⊢
    intro i hi
    rw [← hp i hi, hget h (by omega), hget other (by omega), hcommon i (by omega) (by omega)]

theorem prefix_bits_of_le {p : List Bool} (hp : p <+: other.bits)
    (hle : p.length ≤ h.prefixBits other) : p <+: h.bits := by
  have hlen : p.length ≤ 256 := by
    rw [← other.length_bits]
    exact hp.length_le
  have htake : (h.bits.take p.length).length = p.length := by
    rw [length_take, h.length_bits]
    omega
  have hpre : h.bits.take p.length <+: other.bits := by
    rw [prefix_bits_iff h other (List.take_prefix _ _), htake]
    exact hle
  have heq := (prefix_of_prefix_length_le hp hpre htake.ge).eq_of_length htake.symm
  rw [heq]
  exact take_prefix _ _

end Hash

end ConcordBft.SparseMerkle
