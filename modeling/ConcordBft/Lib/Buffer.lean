import ConcordBft.Lib.Exec
import Mathlib.Data.Nat.ModEq

/-!
# Buffers, words and iterators

A read from a buffer returns the bytes or stops the process (`slice`). `wrapSub w` is the subtraction
of `w`-bit unsigned words. `Drains next s xs s'` says that calling `next` from the state `s` gives
the values `xs` and then nothing more, in the state `s'`.
-/

namespace Verif

open Exec Nat

variable {β : Type}

/-- The `len` elements from `off` on, if they are all there. -/
def slice (buf : List β) (off len : ℕ) : Exec (List β) :=
  if off + len ≤ buf.length then .ok ((buf.drop off).take len) else .error .buffer

theorem slice_eq_ok {buf : List β} {off len : ℕ} (h : off + len ≤ buf.length) :
    slice buf off len = .ok ((buf.drop off).take len) := if_pos h

theorem returns_slice {buf : List β} {off len : ℕ} :
    Returns (slice buf off len) ↔ off + len ≤ buf.length := by
  unfold slice
  split
  · rename_i h
    exact ⟨fun _ => h, fun _ => returns_ok _⟩
  · rename_i h
    exact ⟨fun hr => absurd hr (not_returns_error _), fun hle => absurd hle h⟩

/-- The buffer after `new` is written at `off`, if there is room. -/
def overwrite (buf : List β) (off : ℕ) (new : List β) : Exec (List β) :=
  if off + new.length ≤ buf.length then
    .ok (buf.take off ++ (new ++ buf.drop (off + new.length)))
  else .error .buffer

theorem overwrite_eq_ok {buf new : List β} {off : ℕ} (h : off + new.length ≤ buf.length) :
    overwrite buf off new = .ok (buf.take off ++ (new ++ buf.drop (off + new.length))) := if_pos h

/-! ## Words -/

/-- `a - b` on unsigned words of `w` bits. -/
def wrapSub (w a b : ℕ) : ℕ := (a + (2 ^ w - b % 2 ^ w)) % 2 ^ w

theorem wrapSub_lt (w a b : ℕ) : wrapSub w a b < 2 ^ w := Nat.mod_lt _ (Nat.two_pow_pos w)

theorem wrapSub_of_le {w a b : ℕ} (ha : a < 2 ^ w) (h : b ≤ a) : wrapSub w a b = a - b := by
  unfold wrapSub
  rw [mod_eq_of_lt (lt_of_le_of_lt h ha),
    show a + (2 ^ w - b) = a - b + 2 ^ w by omega, add_mod_right, mod_eq_of_lt (by omega)]

theorem wrapSub_add_mod (w a b : ℕ) : (wrapSub w a b + b) % 2 ^ w = a % 2 ^ w := by
  unfold wrapSub
  have hlt := Nat.mod_lt b (Nat.two_pow_pos w)
  have hdiv := Nat.mod_add_div b (2 ^ w)
  rw [Nat.mod_add_mod, show a + (2 ^ w - b % 2 ^ w) + b = a + 2 ^ w + 2 ^ w * (b / 2 ^ w) by omega,
    add_mul_mod_self_left, add_mod_right]

theorem eq_wrapSub_of_mod_eq {w a b x : ℕ} (hx : x < 2 ^ w) (h : (x + b) % 2 ^ w = a % 2 ^ w) :
    x = wrapSub w a b := by
  have hmod : x + b ≡ wrapSub w a b + b [MOD 2 ^ w] := h.trans (wrapSub_add_mod w a b).symm
  have hcancel := Nat.ModEq.add_right_cancel' b hmod
  exact hcancel.eq_of_lt_of_lt hx (wrapSub_lt w a b)

theorem wrapSub_of_lt {w a b : ℕ} (h : a < b) (hb : b ≤ a + 2 ^ w) :
    wrapSub w a b = a + 2 ^ w - b := by
  symm
  apply eq_wrapSub_of_mod_eq (by omega)
  rw [Nat.sub_add_cancel hb, Nat.add_mod_right]

theorem wrapSub_wrapSub (w a b c : ℕ) : wrapSub w (wrapSub w a b) c = wrapSub w a (b + c) := by
  apply eq_wrapSub_of_mod_eq (wrapSub_lt _ _ _)
  rw [show wrapSub w (wrapSub w a b) c + (b + c) = wrapSub w (wrapSub w a b) c + c + b by omega,
    add_mod, wrapSub_add_mod, ← add_mod, wrapSub_add_mod]

/-! ## Iterators -/

/-- What an iterator gives until it ends. -/
inductive Drains {σ α : Type} (next : σ → Exec (Option α × σ)) : σ → List α → σ → Prop
  | nil {s s' : σ} : next s = .ok (none, s') → Drains next s [] s'
  | cons {s s₁ s' : σ} {x : α} {xs : List α} :
    next s = .ok (some x, s₁) → Drains next s₁ xs s' → Drains next s (x :: xs) s'

/-! ## Elements after others -/

/-- Each element has the property, after those before it. -/
def EachAfter (P : List β → β → Prop) (l : List β) : Prop :=
  ∀ pre a post, l = pre ++ a :: post → P pre a

section EachAfter

variable {P : List β → β → Prop} {a : β} {l : List β}

theorem eachAfter_nil : EachAfter P [] := fun pre a post h => by simp at h

theorem eachAfter_cons :
    EachAfter P (a :: l) ↔ P [] a ∧ EachAfter (fun pre => P (a :: pre)) l := by
  refine ⟨fun h => ⟨h [] a l rfl, fun pre b post hl => h (a :: pre) b post (by rw [hl]; rfl)⟩, ?_⟩
  rintro ⟨ha, h⟩ (_ | ⟨_, pre⟩) b post hl
  · cases hl
    exact ha
  · cases hl
    exact h pre b post rfl

/-- A condition on the elements before all the others is met or nothing is asked. -/
theorem eachAfter_imp {p : Prop} {Q : List β → Prop} :
    EachAfter (fun pre x => p ∧ Q pre → P pre x) l ↔
      (p → EachAfter (fun pre x => Q pre → P pre x) l) :=
  ⟨fun h hp pre x post hl hq => h pre x post hl ⟨hp, hq⟩,
    fun h pre x post hl hq => h hq.1 pre x post hl hq.2⟩

end EachAfter

end Verif
