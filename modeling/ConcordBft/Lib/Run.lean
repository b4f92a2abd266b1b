import ConcordBft.Lib.Exec
import Mathlib.Data.List.Induction

/-!
# Runs of a state machine

`Exec.run step s ops` performs the operations `ops` one after another from the state `s`. A
property of histories and states that every step keeps, under a condition on the state before the
step, holds after every run whose steps meet the condition (`Exec.run_induction`).
-/

namespace Verif.Exec

open List Except

variable {σ ι : Type} (step : σ → ι → Exec σ) (s : σ)

/-- The state after the operations, in order. -/
def run (ops : List ι) : Exec σ := ops.foldlM step s

@[simp] theorem run_nil : run step s [] = .ok s := rfl

theorem run_concat (ops : List ι) (op : ι) :
    run step s (ops ++ [op]) = run step s ops >>= fun s => step s op := by
  unfold run
  rw [foldlM_append]
  rcases List.foldlM step s ops with e | s'
  · rfl
  · rw [ok_bind, ok_bind, foldlM_cons]
    rcases step s' op with e | s''
    · rfl
    · rfl

theorem run_cons (op : ι) (ops : List ι) :
    run step s (op :: ops) = step s op >>= fun s => run step s ops := foldlM_cons

/-- Every step of the run meets the condition in the state before it. -/
def EveryStep (cond : σ → ι → Prop) (ops : List ι) : Prop :=
  ∀ before op, before ++ [op] <+: ops → ∀ s', run step s before = .ok s' → cond s' op

@[simp] theorem everyStep_nil (cond : σ → ι → Prop) : EveryStep step s cond [] := by
  intro before op hpre
  simp at hpre

variable {step s} {cond : σ → ι → Prop} {ops : List ι} {op : ι} {s' : σ}

theorem EveryStep.init (h : EveryStep step s cond (ops ++ [op])) : EveryStep step s cond ops :=
  fun before op' hpre => h before op' (hpre.trans (prefix_append _ _))

theorem EveryStep.last (h : EveryStep step s cond (ops ++ [op])) (hs : run step s ops = .ok s') :
    cond s' op :=
  h ops op prefix_rfl s' hs

theorem everyStep_concat (hs : run step s ops = .ok s') :
    EveryStep step s cond (ops ++ [op]) ↔ EveryStep step s cond ops ∧ cond s' op := by
  refine ⟨fun h => ⟨h.init, h.last hs⟩, fun ⟨hops, hop⟩ before op' hpre s'' hs'' => ?_⟩
  rcases prefix_concat_iff.mp hpre with heq | hpre
  · obtain ⟨rfl, h⟩ := append_inj' heq rfl
    rw [hs, ok.injEq] at hs''
    rw [← hs'', (List.cons.inj h).1]
    exact hop
  · exact hops before op' hpre s'' hs''

theorem EveryStep.cons (hop : cond s op)
    (hops : ∀ s', step s op = .ok s' → EveryStep step s' cond ops) :
    EveryStep step s cond (op :: ops) := by
  intro before op' hpre s' hs'
  rcases before with _ | ⟨b, before⟩
  · obtain ⟨rfl, -⟩ := cons_prefix_cons.mp hpre
    rw [run_nil, ok.injEq] at hs'
    rwa [← hs']
  · obtain ⟨rfl, htail⟩ := cons_prefix_cons.mp hpre
    rw [run_cons, bind_eq_ok] at hs'
    obtain ⟨s₁, hs₁, hrun⟩ := hs'
    exact hops s₁ hs₁ before op' htail s' hrun

theorem EveryStep.append_right {ops' : List ι} (h : EveryStep step s cond (ops ++ ops'))
    (hs : run step s ops = .ok s') : EveryStep step s' cond ops' := by
  intro before op hpre s'' hs''
  refine h (ops ++ before) op ?_ s'' ?_
  · rw [append_assoc]
    exact (prefix_append_right_inj ops).mpr hpre
  · exact foldlM_append.trans ((congrArg (· >>= _) hs).trans hs'')

theorem EveryStep.append_left {ops' : List ι} (h : EveryStep step s cond (ops ++ ops')) :
    EveryStep step s cond ops :=
  fun before op hpre => h before op (hpre.trans (prefix_append _ _))

variable {P : List ι → σ → Prop}

/-- **Induction over a run.** -/
theorem run_induction (hinit : P [] s) (hstep : ∀ before s' op, P before s' → cond s' op →
      ∃ s'', step s' op = .ok s'' ∧ P (before ++ [op]) s'')
    (hops : EveryStep step s cond ops) : ∃ s', run step s ops = .ok s' ∧ P ops s' := by
  induction ops using List.reverseRecOn with
  | nil => exact ⟨s, rfl, hinit⟩
  | append_singleton ops op ih =>
    obtain ⟨s', hrun, hP⟩ := ih hops.init
    obtain ⟨s'', hs'', hP'⟩ := hstep ops s' op hP (hops.last hrun)
    exact ⟨s'', by rw [run_concat, hrun, ok_bind, hs''], hP'⟩

theorem run_preserves {P : σ → Prop}
    (hinit : P s) (hstep : ∀ s op s', P s → cond s op → step s op = .ok s' → P s')
    (hops : EveryStep step s cond ops) (hrun : run step s ops = .ok s') : P s' := by
  induction ops using List.reverseRecOn generalizing s' with
  | nil => exact ok.inj hrun ▸ hinit
  | append_singleton ops op ih =>
    rw [run_concat] at hrun
    obtain ⟨s₁, hs₁, hs'⟩ := bind_eq_ok.mp hrun
    exact hstep s₁ op s' (ih hops.init hs₁) (hops.last hs₁) hs'

theorem everyStep_cons : EveryStep step s cond (op :: ops) ↔
      cond s op ∧ ∀ s', step s op = .ok s' → EveryStep step s' cond ops := by
  refine ⟨fun h => ⟨?_, fun s' hs' => ?_⟩, fun h => EveryStep.cons h.1 h.2⟩
  · exact h [] op (cons_prefix_cons.mpr ⟨rfl, nil_prefix⟩) s rfl
  · have hrun : run step s [op] = .ok s' := by
      rw [run_cons, hs', ok_bind, run_nil]
    have hsplit : EveryStep step s cond ([op] ++ ops) := h
    exact hsplit.append_right hrun

theorem run_invariant (hinit : P [] s)
    (hstep : ∀ before s' op, P before s' → ∃ s'', step s' op = .ok s'' ∧ P (before ++ [op]) s'')
    (ops : List ι) : ∃ s', run step s ops = .ok s' ∧ P ops s' :=
  run_induction hinit (fun before s' op h (_ : True) => hstep before s' op h)
    fun _ _ _ _ _ => trivial

end Verif.Exec
