import ConcordBft.Lib.Exec
import Mathlib.Data.Vector.Basic

/-!
# Readers of a range of symbols

A reader takes a value from the front of a range and leaves the rest of it. A reader is `Local`
when symbols behind what it took do not matter, and it `Reads` a value from a word when it takes
exactly that word, whatever follows.
-/

namespace Verif

open List.Vector Except List Prod

/-- A reader: the range before it, and the value with the range after it. -/
abbrev Reader (σ α : Type) := StateT (List σ) Exec α

namespace Reader

variable {σ α β γ : Type}

/-- The range does not hold what is asked for. -/
def fail : Reader σ α := fun _ => .error .exception

@[simp] theorem pure_apply (a : α) (b : List σ) : (pure a : Reader σ α) b = .ok (a, b) := rfl

theorem bind_apply (p : Reader σ α) (f : α → Reader σ β) (b : List σ) :
    (p >>= f) b = (p b >>= fun x => f x.1 x.2) := rfl

variable {p : Reader σ α} {f : α → Reader σ β} {b r w w' : List σ} {c : β} {a : α}
  {enc : α → List σ} {n : ℕ} {C : Prop}

theorem bind_eq_ok :
    (p >>= f) b = .ok (c, r) ↔ ∃ a b', p b = .ok (a, b') ∧ f a b' = .ok (c, r) := by
  rw [bind_apply, Exec.bind_eq_ok]
  constructor
  · rintro ⟨⟨a, b'⟩, hp, hf⟩
    exact ⟨a, b', hp, hf⟩
  · rintro ⟨a, b', hp, hf⟩
    exact ⟨(a, b'), hp, hf⟩

theorem map_eq_ok {f : α → β} :
    (p >>= fun a => pure (f a)) b = .ok (c, r) ↔ ∃ a, p b = .ok (a, r) ∧ f a = c := by
  rw [bind_eq_ok]
  constructor
  · rintro ⟨a, b', hp, hf⟩
    rw [pure_apply, ok.injEq, mk.injEq] at hf
    obtain ⟨rfl, rfl⟩ := hf
    exact ⟨a, hp, rfl⟩
  · rintro ⟨a, hp, rfl⟩
    exact ⟨a, r, hp, rfl⟩

/-- The reader run a number of times, one after the other. -/
def times (p : Reader σ α) : (n : ℕ) → Reader σ (List.Vector α n)
  | 0 => pure .nil
  | n + 1 => do
    let a ← p
    let l ← times p n
    pure (.cons a l)

/-! ### What lies behind does not matter -/

/-- More symbols behind the range change nothing but the rest. -/
def Local (p : Reader σ α) : Prop :=
  ∀ b a r, p b = .ok (a, r) → ∀ q, p (b ++ q) = .ok (a, r ++ q)

theorem local_pure (a : α) : Local (pure a : Reader σ α) := by
  intro b a' r h q
  rw [pure_apply, ok.injEq, mk.injEq] at h
  rw [pure_apply, h.1, h.2]

theorem local_fail : Local (fail : Reader σ α) := by
  intro b a r h
  cases h

theorem Local.bind (hp : Local p) (hf : ∀ b a r, p b = .ok (a, r) → Local (f a)) :
    Local (p >>= f) := by
  intro b c r h q
  obtain ⟨a, b', hpb, hfb⟩ := bind_eq_ok.mp h
  exact bind_eq_ok.mpr ⟨a, b' ++ q, hp b a b' hpb q, hf b a b' hpb b' c r hfb q⟩

/-! ### Reading inside the range -/

/-- No symbol outside the range is read. -/
def Inside (p : Reader σ α) : Prop := ∀ b, p b ≠ .error .access

theorem inside_pure (a : α) : Inside (pure a : Reader σ α) := fun _ h => nomatch h

theorem inside_fail : Inside (fail : Reader σ α) := fun _ h => nomatch h

theorem Inside.bind (hp : Inside p) (hf : ∀ b a r, p b = .ok (a, r) → Inside (f a)) :
    Inside (p >>= f) := by
  intro b h
  rw [bind_apply] at h
  rcases hpb : p b with e | ⟨a, b'⟩
  · rw [hpb, Exec.error_bind] at h
    cases h
    exact hp b hpb
  · rw [hpb, Exec.ok_bind] at h
    exact hf b a b' hpb b' h

/-! ### Two readers on one range -/

/-- Where the first reader reads something, the second does and leaves the same rest. -/
def Follows (p : Reader σ α) (p' : Reader σ β) : Prop :=
  ∀ b a r, p b = .ok (a, r) → ∃ a', p' b = .ok (a', r)

theorem Follows.refl (p : Reader σ α) : Follows p p := fun _ a _ h => ⟨a, h⟩

theorem Follows.bind {α' β' : Type} {p' : Reader σ α'}
    {f' : α' → Reader σ β'} (hp : Follows p p') (hf : ∀ a a', Follows (f a) (f' a')) :
    Follows (p >>= f) (p' >>= f') := by
  intro b c r h
  obtain ⟨a, b', hpb, hfb⟩ := bind_eq_ok.mp h
  obtain ⟨a', hpb'⟩ := hp b a b' hpb
  obtain ⟨c', hfb'⟩ := hf a a' b' c r hfb
  exact ⟨c', bind_eq_ok.mpr ⟨a', b', hpb', hfb'⟩⟩

theorem Follows.bind_same {β' : Type} {f' : α → Reader σ β'} (hf : ∀ a, Follows (f a) (f' a)) :
    Follows (p >>= f) (p >>= f') := by
  intro b c r h
  obtain ⟨a, b', hpb, hfb⟩ := bind_eq_ok.mp h
  obtain ⟨c', hfb'⟩ := hf a b' c r hfb
  exact ⟨c', bind_eq_ok.mpr ⟨a, b', hpb, hfb'⟩⟩

theorem follows_pure (a : α) (a' : β) : Follows (pure a : Reader σ α) (pure a' : Reader σ β) := by
  intro b x r h
  rw [pure_apply, ok.injEq, mk.injEq] at h
  exact ⟨a', by rw [pure_apply, h.2]⟩

theorem follows_fail (p : Reader σ β) : Follows (fail : Reader σ α) p := by
  intro b a r h
  cases h

/-! ### Reading a word -/

/-- The reader takes exactly the word and gives the value. -/
def Reads (p : Reader σ α) (w : List σ) (a : α) : Prop := ∀ r, p (w ++ r) = .ok (a, r)

/-- The reader does not get the value out of the word, whatever follows. -/
def Misses (p : Reader σ α) (w : List σ) (a : α) : Prop := ∀ r r', p (w ++ r) ≠ .ok (a, r')

theorem reads_pure (a : α) : Reads (pure a : Reader σ α) [] a := fun _ => rfl

theorem Reads.bind (hp : Reads p w a) (hf : Reads (f a) w' c) : Reads (p >>= f) (w ++ w') c := by
  intro r
  rw [append_assoc]
  exact bind_eq_ok.mpr ⟨a, w' ++ r, hp (w' ++ r), hf r⟩

theorem Reads.map {f : α → β} (hp : Reads p w a) :
    Reads (p >>= fun a => pure (f a)) w (f a) := fun r => map_eq_ok.mpr ⟨a, hp r, rfl⟩

theorem Reads.bind_misses (hp : Reads p w a) (hf : Misses (f a) w' c) : Misses (p >>= f) (w ++ w')
    c := by
  intro r r' h
  rw [append_assoc] at h
  obtain ⟨a', b', hpb, hfb⟩ := bind_eq_ok.mp h
  rw [hp (w' ++ r), ok.injEq, mk.injEq] at hpb
  obtain ⟨rfl, rfl⟩ := hpb
  exact hf r r' hfb

theorem Misses.bind (hp : Misses p w a) (hf : ∀ a' b r, f a' b = .ok (c, r) → a' = a) :
    Misses (p >>= f) (w ++ w') c := by
  intro r r' h
  rw [append_assoc] at h
  obtain ⟨a', b', hpb, hfb⟩ := bind_eq_ok.mp h
  obtain rfl := hf a' b' r' hfb
  exact hp (w' ++ r) b' hpb

theorem Misses.map {f : α → β} (hp : Misses p w a)
    (hf : ∀ a', f a' = f a → a' = a) : Misses (p >>= fun a => pure (f a)) w (f a) := by
  intro r r' h
  obtain ⟨a', hpa, hfa⟩ := map_eq_ok.mp h
  obtain rfl := hf a' hfa
  exact hp r r' hpa

theorem reads_times (l : List.Vector α n)
    (h : ∀ a ∈ l.toList, Reads p (enc a) a) : Reads (p.times n) (l.toList.flatMap enc) l := by
  induction l with
  | nil => exact reads_pure _
  | @cons n a l ih =>
    rw [toList_cons, flatMap_cons]
    refine (h a (by rw [toList_cons]; exact mem_cons_self)).bind ?_
    refine (ih fun a' ha' => h a' ?_).map
    rw [toList_cons]
    exact mem_cons_of_mem a ha'

theorem times_append_eq_ok {l₁ l₂ : List α} {l : List.Vector α n} (hn : n = (l₁ ++ a :: l₂).length)
    (h : ∀ x ∈ l₁, Reads p (enc x) x)
    (hok : p.times n ((l₁ ++ a :: l₂).flatMap enc ++ b) = .ok (l, r)) :
    ∃ a' l₂' b', l.toList = l₁ ++ a' :: l₂' ∧ p (enc a ++ (l₂.flatMap enc ++ b)) = .ok (a', b') := by
  induction l₁ generalizing n with
  | nil =>
    obtain rfl : n = l₂.length + 1 := hn
    rw [nil_append, flatMap_cons, append_assoc] at hok
    obtain ⟨a', b', hp, hrest⟩ := bind_eq_ok.mp hok
    obtain ⟨l', -, rfl⟩ := map_eq_ok.mp hrest
    exact ⟨a', l'.toList, b', by rw [toList_cons]; rfl, hp⟩
  | cons x l₁ ih =>
    obtain rfl : n = (l₁ ++ a :: l₂).length + 1 := hn
    rw [cons_append, flatMap_cons, append_assoc] at hok
    obtain ⟨x', b', hp, hrest⟩ := bind_eq_ok.mp hok
    rw [h x mem_cons_self, ok.injEq, mk.injEq] at hp
    obtain ⟨rfl, rfl⟩ := hp
    obtain ⟨l', hl', rfl⟩ := map_eq_ok.mp hrest
    obtain ⟨a', l₂', b', hl, ha⟩ := ih rfl (fun y hy => h y (mem_cons_of_mem x hy)) hl'
    refine ⟨a', l₂', b', ?_, ha⟩
    rw [toList_cons, hl]
    rfl

/-! ### What decides whether a value is read -/

/-- The value is read from the word if the condition holds, and missed if not. -/
def ReadsIff (p : Reader σ α) (w : List σ) (a : α) (C : Prop) : Prop :=
  (C → Reads p w a) ∧ (¬ C → Misses p w a)

theorem Reads.iff (h : Reads p w a) (hC : C) :
    ReadsIff p w a C := ⟨fun _ => h, fun hn => absurd hC hn⟩

theorem ReadsIff.map {f : α → β} (h : ReadsIff p w a C) (hf : ∀ a', f a' = f a → a' = a) :
    ReadsIff (p >>= fun a => pure (f a)) w (f a) C :=
  ⟨fun hC => (h.1 hC).map, fun hC => (h.2 hC).map hf⟩

/-- A part that is always read does not decide. -/
theorem Reads.bind_iff (hp : Reads p w a) (hf : ReadsIff (f a) w' c C) :
    ReadsIff (p >>= f) (w ++ w') c C :=
  ⟨fun hC => hp.bind (hf.1 hC), fun hC => hp.bind_misses (hf.2 hC)⟩

theorem ReadsIff.pair {q : Reader σ β} {C' : Prop} (hp : ReadsIff p w a C)
    (hq : ReadsIff q w' c C') :
    ReadsIff (p >>= fun a => q >>= fun c => pure (a, c)) (w ++ w') (a, c) (C ∧ C') := by
  constructor
  · rintro ⟨hC, hC'⟩
    exact (hp.1 hC).bind (hq.1 hC').map
  · intro hCC
    by_cases hC : C
    · refine (hp.1 hC).bind_misses ((hq.2 fun hC' => hCC ⟨hC, hC'⟩).map fun c' hc' => ?_)
      exact (mk.inj hc').2
    · refine (hp.2 hC).bind fun a' b r hok => ?_
      obtain ⟨c', -, hc'⟩ := map_eq_ok.mp hok
      exact (mk.inj hc').1

theorem exists_first_misses {C : α → Prop} {l : List α}
    (h : ∀ a ∈ l, ReadsIff p (enc a) a (C a)) (hC : ¬ ∀ a ∈ l, C a) :
    ∃ l₁ a l₂, l = l₁ ++ a :: l₂ ∧ (∀ x ∈ l₁, Reads p (enc x) x) ∧ Misses p (enc a) a := by
  induction l with
  | nil => exact absurd (fun a ha => absurd ha not_mem_nil) hC
  | cons x l ih =>
    by_cases hx : C x
    · have hrest : ¬ ∀ a ∈ l, C a := fun hl => hC (forall_mem_cons.mpr ⟨hx, hl⟩)
      obtain ⟨l₁, a, l₂, rfl, hread, hmiss⟩ :=
        ih (fun a ha => h a (mem_cons_of_mem x ha)) hrest
      refine ⟨x :: l₁, a, l₂, rfl, ?_, hmiss⟩
      exact forall_mem_cons.mpr ⟨(h x mem_cons_self).1 hx, hread⟩
    · refine ⟨[], x, l, rfl, ?_, (h x mem_cons_self).2 hx⟩
      exact fun y hy => absurd hy not_mem_nil

theorem readsIff_times {C : α → Prop}
    (l : List.Vector α n) (h : ∀ a ∈ l.toList, ReadsIff p (enc a) a (C a)) :
    ReadsIff (p.times n) (l.toList.flatMap enc) l (∀ a ∈ l.toList, C a) := by
  refine ⟨fun hC => reads_times l fun a ha => (h a ha).1 (hC a ha), fun hC r r' hok => ?_⟩
  obtain ⟨l₁, a, l₂, hl, hread, hmiss⟩ := exists_first_misses h hC
  have hn : n = (l₁ ++ a :: l₂).length := by rw [← hl, toList_length]
  rw [hl] at hok
  obtain ⟨a', l₂', b', hl', ha'⟩ := times_append_eq_ok hn hread hok
  rw [hl] at hl'
  obtain rfl : a = a' := (cons.inj (append_cancel_left hl')).1
  exact hmiss _ _ ha'

/-! ### A block of symbols -/

/-- So many symbols at once. -/
def block (n : ℕ) : Reader σ (List.Vector σ n) := fun b =>
  if h : n ≤ b.length then .ok (⟨b.take n, length_take_of_le h⟩, b.drop n)
  else .error .exception

theorem block_append (w : List.Vector σ n) (r : List σ) : block n (w.toList ++ r) = .ok (w, r) := by
  obtain ⟨w, rfl⟩ := w
  have h : w.length ≤ (w ++ r).length := by simp
  unfold block
  rw [toList_mk, dif_pos h, drop_left]
  congr 2
  exact Subtype.ext take_left

theorem reads_block (w : List.Vector σ n) : Reads (block n) w.toList w := block_append w

theorem block_eq_ok {w : List.Vector σ n} : block n b = .ok (w, r) ↔ b = w.toList ++ r := by
  constructor
  · intro h
    unfold block at h
    split_ifs at h with hn
    obtain ⟨rfl, rfl⟩ := mk.inj (ok.inj h)
    exact (take_append_drop n b).symm
  · rintro rfl
    exact block_append w r

theorem local_block (n : ℕ) : Local (block n : Reader σ (List.Vector σ n)) := by
  intro b w r h q
  rw [block_eq_ok] at h ⊢
  rw [h, append_assoc]

theorem inside_block (n : ℕ) : Inside (block n : Reader σ (List.Vector σ n)) := by
  intro b h
  unfold block at h
  split_ifs at h
  cases h

end Reader

end Verif
