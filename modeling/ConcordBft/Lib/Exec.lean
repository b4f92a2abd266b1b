import Mathlib.Algebra.Ring.Int.Defs
import Mathlib.Algebra.Ring.Nat
import Mathlib.Tactic.Common

/-!
# Computations that may die

`Exec α` is the result of a computation that either returns a value or stops the process: by a
failed assertion, by indexing a container outside its range, by touching memory outside a buffer,
by reading an optional or a variant that does not hold the value, or by an exception that nothing
catches. A loop that is given a number of rounds and has not ended after them does not return
either. The lemmas peel such computations apart without unfolding the monad.
-/

namespace Verif

open Except

/-- Why a computation did not return. -/
inductive Fault
  | assertion
  | index
  | buffer
  | access
  | exception
  | unfinished
  deriving DecidableEq, Repr

/-- A computation that returns a value or stops the process. -/
abbrev Exec (α : Type) := Except Fault α

namespace Exec

variable {α β : Type}

def ensure (b : Bool) : Exec Unit := if b then .ok () else .error .assertion

@[simp] theorem ensure_true : ensure true = .ok () := rfl

@[simp] theorem ok_bind (a : α) (f : α → Exec β) : ((ok a : Exec α) >>= f) = f a := rfl

theorem ensure_decide {p : Prop} [Decidable p] (h : p) (f : Unit → Exec β) :
    (ensure (decide p) >>= f) = f () := by
  rw [decide_eq_true h, ensure_true, ok_bind]

@[simp] theorem error_bind (e : Fault) (f : α → Exec β) :
    ((error e : Exec α) >>= f) = .error e := rfl

@[simp] theorem pure_eq_ok (a : α) : (pure a : Exec α) = .ok a := rfl

theorem ok_mk_inj {a a' : α} {b b' : β} (h : (.ok (a, b) : Exec (α × β)) = .ok (a', b')) :
    a = a' ∧ b = b' :=
  Prod.mk.inj (ok.inj h)

variable {x : Exec α} {f : α → Exec β}

theorem bind_eq_ok {r : β} : (x >>= f) = .ok r ↔ ∃ a, x = .ok a ∧ f a = .ok r := by
  rcases x with e | a
  · simp
  · simp

theorem unit_bind_eq_ok {x : Exec Unit} {f : Unit → Exec β} {r : β} :
    (x >>= f) = .ok r ↔ x = .ok () ∧ f () = .ok r := by
  rcases x with e | a
  · simp
  · simp

theorem ensure_bind_eq_ok {b : Bool} {f : Unit → Exec β} {r : β} :
    (ensure b >>= f) = .ok r ↔ b = true ∧ f () = .ok r := by
  cases b <;> simp [ensure]

def Returns (x : Exec α) : Prop := ∃ a, x = .ok a

@[simp] theorem returns_ok (a : α) : Returns (ok a : Exec α) := ⟨a, rfl⟩

theorem not_returns_of_isOk (h : x.isOk = false) : ¬ Returns x := by
  rintro ⟨a, rfl⟩
  cases h

@[simp] theorem not_returns_error (e : Fault) : ¬ Returns (error e : Exec α) := by
  rintro ⟨a, h⟩
  cases h

theorem returns_bind : Returns (x >>= f) ↔ ∃ a, x = .ok a ∧ Returns (f a) := by
  rcases x with e | a
  · simp
  · simp

theorem returns_ensure_bind {b : Bool} {f : Unit → Exec β} :
    Returns (ensure b >>= f) ↔ b = true ∧ Returns (f ()) := by
  cases b <;> simp [ensure]

/-- Where a computation can only return one value, both parts of a sequence are judged alone. -/
theorem returns_bind_of {a : α} (h : ∀ a', x = .ok a' → a' = a) :
    Returns (x >>= f) ↔ Returns x ∧ Returns (f a) := by
  rcases x with e | a'
  · simp
  · obtain rfl := h a' rfl
    simp

theorem Returns.of_bind (h : Returns (x >>= f)) : Returns x :=
  (returns_bind.mp h).imp fun _ => And.left

theorem returns_bind_and {p : Prop} (h : ∀ a, Returns (f a) ↔ p) :
    Returns (x >>= f) ↔ Returns x ∧ p := by
  rcases x with e | a
  · simp
  · simp [h]

theorem returns_bind_left (h : ∀ a, Returns (f a)) : Returns (x >>= f) ↔ Returns x :=
  (returns_bind_and fun a => iff_true_intro (h a)).trans (and_iff_left trivial)

theorem returns_bind_ok {f : α → β} : Returns (x >>= fun a => .ok (f a)) ↔ Returns x :=
  returns_bind_left fun _ => returns_ok _

/-! ### What a computation yields -/

/-- The computation returns, and what it returns has the property. -/
def Yields (x : Exec α) (P : α → Prop) : Prop := ∃ a, x = .ok a ∧ P a

theorem yields_ok {a : α} {P : α → Prop} (h : P a) : Yields (ok a) P := ⟨a, rfl, h⟩

theorem Returns.yields (h : Returns x) : Yields x fun _ => True := by
  obtain ⟨a, ha⟩ := h
  exact ⟨a, ha, trivial⟩

theorem Yields.bind {P : α → Prop} {Q : β → Prop}
    (h : Yields x P) (hf : ∀ a, P a → Yields (f a) Q) : Yields (x >>= f) Q := by
  obtain ⟨a, rfl, ha⟩ := h
  exact hf a ha

theorem yields_foldlM {f : β → α → Exec β} {I : β → Prop} {l : List α}
    (hstep : ∀ b, ∀ a ∈ l, I b → Yields (f b a) I) {b : β} (h : I b) : Yields (l.foldlM f b) I := by
  induction l generalizing b with
  | nil => exact yields_ok h
  | cons a l ih =>
    rw [List.foldlM_cons]
    exact (hstep b a List.mem_cons_self h).bind fun b' hb' =>
      ih (fun b₁ a' ha' => hstep b₁ a' (List.mem_cons_of_mem _ ha')) hb'

end Exec

end Verif
