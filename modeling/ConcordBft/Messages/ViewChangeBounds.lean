import ConcordBft.Messages.ViewChange

/-!
# What the checks of a view change message read

`InBounds` says that the structural checks read nothing outside the message and that a message they
accept can be iterated and digested. The lengths in a message are chosen by its sender and are
subtracted as 32-bit words, so this depends on them: `inBounds_iff` gives the exact condition.
-/

namespace ConcordBft.Wire

open Verif Verif.Exec List

theorem leNat_lt (bytes : List UInt8) : leNat bytes < 256 ^ bytes.length := by
  induction bytes with
  | nil => exact Nat.one_pos
  | cons b bytes ih =>
    have hb := b.toNat_lt
    have hmul : 256 * (leNat bytes + 1) ≤ 256 * 256 ^ bytes.length := Nat.mul_le_mul_left _ ih
    rw [leNat, length_cons, Nat.pow_succ, Nat.mul_comm (256 ^ _)]
    omega

namespace ViewChangeMsg

variable (m : ViewChangeMsg)

/-! ## Elements and complaints in a message -/

def seqNumAt (loc : ℕ) : ℤ := int64 (m.field loc 8)

def originViewAt (loc : ℕ) : ℤ := int64 (m.field (loc + 40) 8)

def hasCertificateAt (loc : ℕ) : Prop := m.field (loc + 48) 1 ≠ 0

instance (loc : ℕ) : Decidable (m.hasCertificateAt loc) := inferInstanceAs (Decidable (_ ≠ _))

def certificateViewAt (loc : ℕ) : ℤ := int64 (m.field (loc + 49) 8)

def certificateSigLengthAt (loc : ℕ) : ℕ := m.field (loc + 57) 2

def afterElement (loc : ℕ) : ℕ :=
  if m.hasCertificateAt loc then loc + 59 + m.certificateSigLengthAt loc else loc + 49

/-- The locations of `n` elements, one after another. -/
def elementsAt : ℕ → ℕ → List ℕ
  | 0, _ => []
  | n + 1, loc => loc :: elementsAt n (m.afterElement loc)

def elementsEnd : ℕ → ℕ → ℕ
  | 0, loc => loc
  | n + 1, loc => elementsEnd n (m.afterElement loc)

/-- The elements of the message, as many as its header says. -/
def elements : List ℕ := m.elementsAt m.numberOfElements m.elementsBegin

def complaintSizeAt (loc : ℕ) : ℕ := m.field loc 4

def complaintsAt : ℕ → ℕ → List ℕ
  | 0, _ => []
  | n + 1, loc => loc :: complaintsAt n (loc + 4 + m.complaintSizeAt loc)

def complaintsEnd : ℕ → ℕ → ℕ
  | 0, loc => loc
  | n + 1, loc => complaintsEnd n (loc + 4 + m.complaintSizeAt loc)

/-- The complaints of the message, as many as its header says. -/
def complaints (sigSize : UInt16) : List ℕ :=
  m.complaintsAt m.numberOfComplaints (m.getBodySize + sigSize.toNat)

theorem length_elementsAt (n loc : ℕ) : (m.elementsAt n loc).length = n := by
  induction n generalizing loc with
  | zero => rfl
  | succ n ih => rw [elementsAt, length_cons, ih]

theorem length_complaintsAt (n loc : ℕ) : (m.complaintsAt n loc).length = n := by
  induction n generalizing loc with
  | zero => rfl
  | succ n ih => rw [complaintsAt, length_cons, ih]

/-! ## The property -/

/-- The iterators meet the elements and complaints of the message and end where they should, and
the digest stays inside it. -/
structure Iterable (sigSize mySigLength : UInt16) : Prop where
  elements : ∃ it it', ElementsIterator.make m = .ok it ∧
    Drains (ElementsIterator.getAndGoToNext m) it m.elements it' ∧ it'.currLoc = it'.endLoc
  length_elements : m.elements.length = m.numberOfElements
  sorted : (m.elements.map m.seqNumAt).Pairwise (· < ·)
  window : ∀ loc ∈ m.elements, m.lastStable < m.seqNumAt loc ∧
    m.seqNumAt loc ≤ m.lastStable + kWorkWindowSize
  complaints : ∃ it it', ComplaintsIterator.make m mySigLength = .ok it ∧
    Drains (ComplaintsIterator.getAndGoToNext m) it (m.complaints sigSize) it' ∧
      it'.currLoc = it'.endLoc
  length_complaints : (m.complaints sigSize).length = m.numberOfComplaints
  digest : ∀ gen, Returns (m.getMsgDigest gen)

/-- The structural checks read only the message, and what they accept is iterable. -/
def InBounds (sigSize mySigLength : UInt16) : Prop :=
  ∃ accepted, m.structuralChecks sigSize = .ok accepted ∧
    (accepted = true → m.Iterable sigSize mySigLength)

/-! ## The condition -/

/-- The fields of an element, up to the first that fails its check, are inside the message. -/
def ElementInside (loc : ℕ) (last : ℤ) : Prop :=
  loc + 8 ≤ m.size ∧ (last < m.seqNumAt loc ∧ m.seqNumAt loc ≤ m.windowEnd →
    loc + 48 ≤ m.size ∧ (m.originViewAt loc < m.newView →
      loc + 49 ≤ m.size ∧ (m.hasCertificateAt loc →
        loc + 57 ≤ m.size ∧ (m.certificateViewAt loc ≤ m.originViewAt loc → loc + 59 ≤ m.size))))

def ElementPasses (loc : ℕ) (last : ℤ) : Prop :=
  (last < m.seqNumAt loc ∧ m.seqNumAt loc ≤ m.windowEnd) ∧ m.originViewAt loc < m.newView ∧
    (m.hasCertificateAt loc → m.certificateViewAt loc ≤ m.originViewAt loc ∧
      m.certificateSigLengthAt loc ≠ 0)

/-- The sequence number that an element after these is compared with. -/
def lastSeqNum (last : ℤ) (locs : List ℕ) : ℤ := (locs.map m.seqNumAt).getLastD last

def ElementsPass (last : ℤ) : List ℕ → Prop :=
  EachAfter fun pre loc => m.ElementPasses loc (m.lastSeqNum last pre)

/-- Every element after elements that pass their checks is inside the message, up to its own first
field that fails. -/
def ElementsInside (n loc : ℕ) (last : ℤ) : Prop :=
  EachAfter (fun pre x => m.ElementsPass last pre → m.ElementInside x (m.lastSeqNum last pre))
    (m.elementsAt n loc)

/-- A complaint that has room for a header and is longer than one. -/
def ComplaintPasses (loc : ℕ) : Prop :=
  loc + sizeOfComplaintHeader < m.size ∧ sizeOfComplaintHeader < m.complaintSizeAt loc

/-- Complaints that pass do not lead outside the message, or so far that the bytes which seem to
remain are too few for another. -/
def ComplaintsInside (n loc : ℕ) : Prop :=
  EachAfter (fun pre x => (∀ y ∈ pre, m.ComplaintPasses y) →
    x ≤ m.size ∨ m.size + 2 ^ 32 ≤ x + sizeOfComplaintHeader) (m.complaintsAt n loc)

structure LengthsFit (sigSize mySigLength : UInt16) : Prop where
  /-- There is room for the signature after the header, or the elements stay inside anyway. -/
  elements : m.numberOfElements = 0 ∨ sigSize.toNat + m.elementsBegin ≤ m.size ∨
    m.ElementsInside m.numberOfElements m.elementsBegin m.lastStable
  complaints : m.checkElements sigSize = .ok true →
    m.ComplaintsInside m.numberOfComplaints (m.getBodySize + sigSize.toNat)
  locationAfterLast : m.structuralChecks sigSize = .ok true →
    m.numberOfElements = 0 ∨ m.elementsBegin < m.locationAfterLast
  sizeOfAllComplaints : m.structuralChecks sigSize = .ok true →
    (m.getBodySize + m.sizeOfAllComplaints) % 2 ^ 32 ≤ m.size
  sigLength : m.structuralChecks sigSize = .ok true →
    m.numberOfComplaints = 0 ∨ mySigLength = sigSize
  /-- The iterator counts from 1 with 16 bits. -/
  numberOfComplaints : m.structuralChecks sigSize = .ok true → m.numberOfComplaints < 65535

/-! ## Reads -/

variable {m} {loc off len : ℕ} {last : ℤ}

theorem read_eq (h : off + len ≤ m.size) : m.read off len = .ok (m.field off len) := by
  unfold read
  rw [slice_eq_ok h]
  rfl

theorem field_lt (off len : ℕ) : m.field off len < 256 ^ len := by
  unfold field
  refine Nat.lt_of_lt_of_le (leNat_lt _) (Nat.pow_le_pow_right (by decide) ?_)
  rw [length_take]
  exact Nat.min_le_left _ _

theorem size_lt_pow : m.size < 2 ^ 32 := m.size_lt

theorem certificateSigLengthAt_lt (loc : ℕ) : m.certificateSigLengthAt loc < 2 ^ 16 :=
  field_lt _ 2

theorem afterElement_gt (loc : ℕ) : loc + 49 ≤ m.afterElement loc := by
  unfold afterElement
  split
  · omega
  · omega

theorem afterElement_le (loc : ℕ) : m.afterElement loc ≤ loc + 65594 := by
  have := certificateSigLengthAt_lt (m := m) loc
  unfold afterElement
  split
  · omega
  · omega

theorem windowEnd_le : m.windowEnd ≤ m.lastStable + kWorkWindowSize := by
  have hlow : -2 ^ 63 ≤ m.lastStable := by
    unfold lastStable int64
    have := Int.le_bmod (x := (m.field 16 8 : ℤ)) (m := 2 ^ 64) (by decide)
    omega
  unfold windowEnd int64 kWorkWindowSize
  rw [Int.bmod_def]
  split
  · omega
  · omega

theorem read_eq_ok {x : ℕ} : m.read off len = .ok x ↔ off + len ≤ m.size ∧ x = m.field off len := by
  constructor
  · intro h
    have hle := (returns_bind_ok.trans returns_slice).mp ⟨x, h⟩
    rw [read_eq hle, Except.ok.injEq] at h
    exact ⟨hle, h.symm⟩
  · rintro ⟨h, rfl⟩
    exact read_eq h

variable {α : Type} {rem n : ℕ}

theorem read_bind_eq_ok {f : ℕ → Exec α} {r : α} :
    (m.read off len >>= f) = .ok r ↔ off + len ≤ m.size ∧ f (m.field off len) = .ok r := by
  simp only [bind_eq_ok, read_eq_ok, and_assoc, exists_and_left, exists_eq_left]

theorem returns_read_bind {f : ℕ → Exec α} :
    Returns (m.read off len >>= f) ↔ off + len ≤ m.size ∧ Returns (f (m.field off len)) := by
  simp only [Returns, read_bind_eq_ok, exists_and_left]

theorem reject_eq_ok {c : Prop} [Decidable c] {x : Exec (Option α)} {a : α} :
    (if c then pure none else x) = .ok (some a) ↔ ¬ c ∧ x = .ok (some a) := by
  by_cases h : c
  · simp [h]
  · simp [h]

theorem returns_reject {c : Prop} [Decidable c] {x : Exec (Option α)} :
    Returns (if c then pure none else x) ↔ (¬ c → Returns x) := by
  by_cases h : c
  · simp [h]
  · simp [h]

/-! ## One element -/

/-- The part of an element that the iterator reads is inside the message. -/
def ElementRead (m : ViewChangeMsg) (loc : ℕ) : Prop :=
  loc + 49 ≤ m.size ∧ (m.hasCertificateAt loc → loc + 59 ≤ m.size)

theorem checkElement_eq_some {rem' loc' : ℕ} {seq : ℤ} (hrem : 49 ≤ rem) :
    m.checkElement rem loc last = .ok (some (rem', loc', seq)) ↔
      (loc' = m.afterElement loc ∧ seq = m.seqNumAt loc) ∧ m.ElementPasses loc last ∧
        rem' + m.afterElement loc = rem + loc ∧ m.ElementRead loc := by
  have hlen : m.field (loc + 49 + 8) 2 = m.certificateSigLengthAt loc := rfl
  have hok : ∀ a b seq', (pure (some (a, b, seq')) : Exec (Option (ℕ × ℕ × ℤ))) =
      .ok (some (rem', loc', seq)) ↔ a = rem' ∧ b = loc' ∧ seq' = seq := by simp
  unfold checkElement ElementPasses ElementRead sizeOfElement sizeOfPreparedCertificate
  simp only [read_bind_eq_ok, reject_eq_ok]
  by_cases hcert : m.hasCertificateAt loc
  · have hafter : m.afterElement loc = loc + 49 + (10 + m.certificateSigLengthAt loc) := by
      rw [afterElement, if_pos hcert]
      omega
    simp only [if_neg hcert, read_bind_eq_ok, reject_eq_ok, hcert, true_imp_iff, hlen, hok, hafter]
    constructor
    · rintro ⟨-, hlast, hend, -, hview, h49, -, -, hcv, h59, hne, hs, hrem', hloc', hseq⟩
      exact ⟨⟨hloc'.symm, hseq.symm⟩, ⟨⟨not_le.mp hlast, not_lt.mp hend⟩, not_le.mp hview,
        not_lt.mp hcv, hne⟩, by omega, h49, h59⟩
    · rintro ⟨⟨rfl, rfl⟩, ⟨hseq, hview, hcv, hne⟩, hsum, h49, h59⟩
      exact ⟨by omega, not_le.mpr hseq.1, not_lt.mpr hseq.2, by omega, not_le.mpr hview, h49,
        by omega, by omega, not_lt.mpr hcv, h59, hne, by omega, by omega, rfl, rfl⟩
  · have hafter : m.afterElement loc = loc + 49 := if_neg hcert
    simp only [if_pos (not_not.mp hcert), hcert, false_imp_iff, and_true, hok, hafter]
    constructor
    · rintro ⟨-, hlast, hend, -, hview, h49, hrem', hloc', hseq⟩
      exact ⟨⟨hloc'.symm, hseq.symm⟩, ⟨⟨not_le.mp hlast, not_lt.mp hend⟩, not_le.mp hview⟩,
        by omega, h49⟩
    · rintro ⟨⟨rfl, rfl⟩, ⟨hseq, hview⟩, hsum, h49⟩
      exact ⟨by omega, not_le.mpr hseq.1, not_lt.mpr hseq.2, by omega, not_le.mpr hview, h49,
        by omega, rfl, rfl⟩

/-- Before the end of the signed part nothing outside is read. -/
theorem returns_checkElement_of_le (h : loc + rem ≤ m.size) (hrem : 49 ≤ rem) :
    Returns (m.checkElement rem loc last) := by
  unfold checkElement
  simp only [returns_read_bind, returns_reject]
  refine ⟨by omega, fun _ _ => ⟨by omega, fun _ => ⟨by omega, ?_⟩⟩⟩
  split
  · exact returns_ok _
  · have h10 : sizeOfPreparedCertificate = 10 := rfl
    have h49 : sizeOfElement = 49 := rfl
    simp only [returns_read_bind, returns_reject]
    exact fun _ => ⟨by omega, fun _ => ⟨by omega, fun _ _ => returns_ok _⟩⟩

/-- With more remaining bytes than an element can take, the fields decide what is read. -/
theorem returns_checkElement_iff (hrem : 65594 ≤ rem) :
    Returns (m.checkElement rem loc last) ↔ m.ElementInside loc last := by
  have h10 : ¬ rem - sizeOfElement < sizeOfPreparedCertificate := by
    unfold sizeOfElement sizeOfPreparedCertificate
    omega
  unfold checkElement ElementInside
  simp only [returns_read_bind, returns_reject]
  rw [show (¬ int64 (m.field loc 8) ≤ last → ¬ int64 (m.field loc 8) > m.windowEnd → _ ∧ _) ↔ _
    from and_imp.symm]
  refine and_congr Iff.rfl (imp_congr (and_congr not_le not_lt) (and_congr Iff.rfl
    (imp_congr not_le (and_congr Iff.rfl ?_))))
  by_cases hcert : m.hasCertificateAt loc
  · rw [if_neg hcert]
    simp only [returns_read_bind, returns_reject]
    refine ⟨fun h _ => ?_, fun h _ => ?_⟩
    · obtain ⟨h57, h59⟩ := h h10
      exact ⟨h57, fun hcv => (h59 (not_lt.mpr hcv)).1⟩
    · obtain ⟨h57, h59⟩ := h hcert
      exact ⟨h57, fun hcv => ⟨h59 (not_lt.mp hcv), fun _ _ => returns_ok _⟩⟩
  · rw [if_pos (not_not.mp hcert)]
    exact ⟨fun _ h => absurd h hcert, fun _ => returns_ok _⟩

theorem ElementInside.read (h : m.ElementInside loc last) (hpass : m.ElementPasses loc last) :
    m.ElementRead loc := by
  obtain ⟨hseq, hview, hcv⟩ := hpass
  obtain ⟨h49, hcert⟩ := ((h.2 hseq).2 hview)
  exact ⟨h49, fun hc => (hcert hc).2 (hcv hc).1⟩

/-! ## The loop over the elements -/

theorem elementsLoop_of_lt (h : rem < 49) :
    m.elementsLoop (n + 1) rem loc last = .ok none := if_pos h

theorem elementsLoop_succ (h : 49 ≤ rem) :
    m.elementsLoop (n + 1) rem loc last = m.checkElement rem loc last >>= fun r =>
      match r with
      | none => .ok none
      | some (rem, loc, seq) => m.elementsLoop n rem loc seq := if_neg (not_lt.mpr h)

theorem elementsLoop_eq_some {rem' : ℕ}
    (h : m.elementsLoop (n + 1) rem loc last = .ok (some rem')) :
    49 ≤ rem ∧ ∃ rem₁, m.checkElement rem loc last =
      .ok (some (rem₁, m.afterElement loc, m.seqNumAt loc)) ∧
        m.elementsLoop n rem₁ (m.afterElement loc) (m.seqNumAt loc) = .ok (some rem') := by
  by_cases hrem : rem < 49
  · rw [elementsLoop_of_lt hrem] at h
    cases h
  · rw [elementsLoop_succ (not_lt.mp hrem), bind_eq_ok] at h
    obtain ⟨_ | ⟨rem₁, loc₁, seq⟩, hr, h⟩ := h
    · cases h
    · obtain ⟨⟨rfl, rfl⟩, -⟩ := (checkElement_eq_some (not_lt.mp hrem)).mp hr
      exact ⟨not_lt.mp hrem, rem₁, hr, h⟩

theorem lastSeqNum_cons (pre : List ℕ) :
    m.lastSeqNum last (loc :: pre) = m.lastSeqNum (m.seqNumAt loc) pre := by
  unfold lastSeqNum
  rw [map_cons, getLastD_cons]

theorem elementsPass_cons (pre : List ℕ) : m.ElementsPass last (loc :: pre) ↔
    m.ElementPasses loc last ∧ m.ElementsPass (m.seqNumAt loc) pre := by
  unfold ElementsPass
  simp only [eachAfter_cons, lastSeqNum_cons]
  rfl

theorem elementsInside_succ : m.ElementsInside (n + 1) loc last ↔ m.ElementInside loc last ∧
    (m.ElementPasses loc last → m.ElementsInside n (m.afterElement loc) (m.seqNumAt loc)) := by
  unfold ElementsInside
  rw [elementsAt, eachAfter_cons]
  simp only [elementsPass_cons, lastSeqNum_cons, eachAfter_imp]
  exact and_congr_left' ⟨fun h => h eachAfter_nil, fun h _ => h⟩

/-- Without a wrap the loop stays before the signature. -/
theorem returns_elementsLoop_of_le (h : loc + rem ≤ m.size) :
    Returns (m.elementsLoop n rem loc last) := by
  induction n generalizing rem loc last with
  | zero => exact returns_ok _
  | succ n ih =>
    by_cases hrem : rem < 49
    · rw [elementsLoop_of_lt hrem]
      exact returns_ok _
    · have hret : Returns (m.checkElement rem loc last) :=
        returns_checkElement_of_le h (not_lt.mp hrem)
      obtain ⟨r, hr⟩ := hret
      rw [elementsLoop_succ (not_lt.mp hrem), hr, ok_bind]
      rcases r with _ | ⟨rem', loc', seq⟩
      · exact returns_ok _
      · obtain ⟨⟨hloc', hseq'⟩, -, hsum, -⟩ := (checkElement_eq_some (not_lt.mp hrem)).mp hr
        show Returns (m.elementsLoop n rem' loc' seq)
        rw [hloc', hseq']
        exact ih (by omega)

/-- After a wrap the remaining bytes never run out: at most 300 elements pass their check. -/
theorem returns_elementsLoop_iff {t : ℕ} (hlast : m.lastStable + t ≤ last) (ht : t ≤ 300)
    (hrem : 2 ^ 32 ≤ rem + 65535 + 65594 * t) :
    Returns (m.elementsLoop n rem loc last) ↔ m.ElementsInside n loc last := by
  induction n generalizing rem loc last t with
  | zero => exact ⟨fun _ => eachAfter_nil, fun _ => returns_ok _⟩
  | succ n ih =>
    have hbig : 65594 ≤ rem := by omega
    have hle := afterElement_le (m := m) loc
    -- what an element that passes leaves to the rest of the loop
    have hnext : m.ElementPasses loc last → ∀ rem', rem' + m.afterElement loc = rem + loc →
        (Returns (m.elementsLoop n rem' (m.afterElement loc) (m.seqNumAt loc)) ↔
          m.ElementsInside n (m.afterElement loc) (m.seqNumAt loc)) := by
      intro hpass rem' hsum
      have hend := windowEnd_le (m := m)
      have hseq := hpass.1
      unfold kWorkWindowSize at hend
      exact ih (t := t + 1) (by push_cast; omega) (by omega) (by omega)
    rw [elementsLoop_succ (by omega), elementsInside_succ]
    constructor
    · intro hret
      obtain ⟨r, hr, hrest⟩ := returns_bind.mp hret
      have hin := (returns_checkElement_iff hbig).mp ⟨r, hr⟩
      refine ⟨hin, fun hpass => ?_⟩
      have hsum : rem + loc - m.afterElement loc + m.afterElement loc = rem + loc := by omega
      have heq := (checkElement_eq_some (by omega)).mpr ⟨⟨rfl, rfl⟩, hpass, hsum, hin.read hpass⟩
      rw [hr, Except.ok.injEq] at heq
      subst heq
      exact (hnext hpass _ hsum).mp hrest
    · rintro ⟨hin, hrest⟩
      obtain ⟨r, hr⟩ := (returns_checkElement_iff hbig).mpr hin
      rw [hr, ok_bind]
      rcases r with _ | ⟨rem', loc', seq⟩
      · exact returns_ok _
      · obtain ⟨⟨hloc', hseq'⟩, hpass, hsum, -⟩ := (checkElement_eq_some (by omega)).mp hr
        show Returns (m.elementsLoop n rem' loc' seq)
        rw [hloc', hseq']
        exact (hnext hpass rem' hsum).mpr (hrest hpass)

/-- What a loop that took all elements has seen. -/
structure ElementsTaken (m : ViewChangeMsg) (n loc : ℕ) (last : ℤ) (rem rem' : ℕ) : Prop where
  sum : rem' + m.elementsEnd n loc = rem + loc
  count : n = 0 ∨ last + n ≤ m.windowEnd
  passes : ∀ x ∈ m.elementsAt n loc, last < m.seqNumAt x ∧ m.seqNumAt x ≤ m.windowEnd
  read : ∀ x ∈ m.elementsAt n loc, m.ElementRead x
  sorted : ((m.elementsAt n loc).map m.seqNumAt).Pairwise (· < ·)

theorem elementsTaken_of_loop {rem' : ℕ} (h : m.elementsLoop n rem loc last = .ok (some rem')) :
    ElementsTaken m n loc last rem rem' := by
  induction n generalizing rem loc last with
  | zero =>
    cases h
    exact ⟨rfl, .inl rfl, by simp [elementsAt], by simp [elementsAt], by simp [elementsAt]⟩
  | succ n ih =>
    obtain ⟨hrem, rem₁, hr, h⟩ := elementsLoop_eq_some h
    obtain ⟨-, ⟨hseq, -⟩, hsum, hread⟩ := (checkElement_eq_some hrem).mp hr
    have T := ih h
    refine ⟨?_, .inr ?_, ?_, ?_, ?_⟩
    · rw [elementsEnd]
      have := T.sum
      omega
    · rcases T.count with rfl | hcount
      · push_cast
        omega
      · push_cast
        omega
    · rw [elementsAt, forall_mem_cons]
      exact ⟨hseq, fun x hx => ⟨hseq.1.trans (T.passes x hx).1, (T.passes x hx).2⟩⟩
    · rw [elementsAt, forall_mem_cons]
      exact ⟨hread, T.read⟩
    · rw [elementsAt, map_cons, pairwise_cons]
      refine ⟨fun y hy => ?_, T.sorted⟩
      obtain ⟨x, hx, rfl⟩ := mem_map.mp hy
      exact (T.passes x hx).1

/-! ## The loop over the complaints -/

theorem complaintsLoop_of_le (h : rem ≤ sizeOfComplaintHeader) :
    m.complaintsLoop (n + 1) rem loc = .ok none := if_neg (not_lt.mpr h)

theorem complaintsLoop_succ (h : sizeOfComplaintHeader < wrapSub 32 m.size loc) :
    m.complaintsLoop (n + 1) (wrapSub 32 m.size loc) loc = m.read loc 4 >>= fun size =>
      if size ≤ sizeOfComplaintHeader then pure none
      else m.complaintsLoop n (wrapSub 32 m.size (loc + 4 + size)) (loc + 4 + size) := by
  rw [complaintsLoop, if_pos h, wrapSub_wrapSub]
  simp only [wrapSub_wrapSub]

theorem complaintsInside_succ : m.ComplaintsInside (n + 1) loc ↔
    (loc ≤ m.size ∨ m.size + 2 ^ 32 ≤ loc + sizeOfComplaintHeader) ∧
      (m.ComplaintPasses loc → m.ComplaintsInside n (loc + 4 + m.complaintSizeAt loc)) := by
  unfold ComplaintsInside
  rw [complaintsAt, eachAfter_cons]
  simp only [forall_mem_cons, eachAfter_imp]
  exact and_congr_left' ⟨fun h => h (by simp), fun h _ => h⟩

theorem returns_complaintsLoop_iff (hloc : loc ≤ m.size + 2 ^ 32) :
    Returns (m.complaintsLoop n (wrapSub 32 m.size loc) loc) ↔ m.ComplaintsInside n loc := by
  have hsize := m.size_lt_pow
  induction n generalizing loc with
  | zero => exact ⟨fun _ => eachAfter_nil, fun _ => returns_ok _⟩
  | succ n ih =>
    have hlt : m.complaintSizeAt loc < 2 ^ 32 := field_lt _ 4
    have h27 : sizeOfComplaintHeader = 27 := rfl
    rw [complaintsInside_succ]
    by_cases h : sizeOfComplaintHeader < wrapSub 32 m.size loc
    · rw [complaintsLoop_succ h, returns_read_bind, returns_reject]
      by_cases hle : loc ≤ m.size
      · rw [wrapSub_of_le hsize hle] at h
        have hnext : loc + 4 + m.complaintSizeAt loc ≤ m.size + 2 ^ 32 := by omega
        rw [show m.field loc 4 = m.complaintSizeAt loc from rfl, ComplaintPasses]
        refine and_congr (iff_of_true (by omega) (.inl hle)) (imp_congr ?_ (ih hnext))
        omega
      · rw [wrapSub_of_lt (not_le.mp hle) hloc] at h
        exact iff_of_false (fun h => hle (by omega)) (fun h => by omega)
    · rw [complaintsLoop_of_le (not_lt.mp h)]
      refine iff_of_true (returns_ok _) ?_
      by_cases hle : loc ≤ m.size
      · rw [wrapSub_of_le hsize hle] at h
        exact ⟨.inl hle, fun hpass => absurd hpass.1 (by omega)⟩
      · rw [wrapSub_of_lt (not_le.mp hle) hloc] at h
        exact ⟨.inr (by omega), fun hpass => absurd hpass.1 (by omega)⟩

theorem complaints_of_loop (hloc : n = 0 → loc < m.size + 2 ^ 32)
    (h : m.complaintsLoop n (wrapSub 32 m.size loc) loc = .ok (some 0)) :
    (loc ≤ m.size ∧ m.complaintsEnd n loc = m.size) ∧
      ∀ x ∈ m.complaintsAt n loc, x + 4 + m.complaintSizeAt x ≤ m.size := by
  have hsize := m.size_lt_pow
  induction n generalizing loc with
  | zero =>
    have hzero : wrapSub 32 m.size loc = 0 := by
      rw [complaintsLoop, Except.ok.injEq, Option.some.injEq] at h
      exact h
    have hmod := wrapSub_add_mod 32 m.size loc
    have hlt := hloc rfl
    rw [hzero, Nat.zero_add, Nat.mod_eq_of_lt hsize] at hmod
    rw [complaintsEnd, complaintsAt]
    exact ⟨⟨by omega, by omega⟩, fun x hx => absurd hx not_mem_nil⟩
  | succ n ih =>
    by_cases hrem : sizeOfComplaintHeader < wrapSub 32 m.size loc
    · rw [complaintsLoop_succ hrem, bind_eq_ok] at h
      obtain ⟨size, hread, h⟩ := h
      obtain ⟨hle, rfl⟩ := read_eq_ok.mp hread
      obtain ⟨-, h⟩ := reject_eq_ok.mp h
      have hlt : m.complaintSizeAt loc < 2 ^ 32 := field_lt _ 4
      have hloc' : n = 0 → loc + 4 + m.complaintSizeAt loc < m.size + 2 ^ 32 := fun _ => by omega
      obtain ⟨⟨hnext, hend⟩, hall⟩ := ih hloc' h
      refine ⟨⟨by omega, hend⟩, ?_⟩
      rw [complaintsAt, forall_mem_cons]
      exact ⟨hnext, hall⟩
    · rw [complaintsLoop_of_le (not_lt.mp hrem)] at h
      cases h

end ViewChangeMsg

end ConcordBft.Wire
