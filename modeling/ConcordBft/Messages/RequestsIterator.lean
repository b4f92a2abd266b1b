import ConcordBft.Lib.Buffer
import ConcordBft.Messages.PrePrepare

/-!
# The requests of a PrePrepare message as bytes

The structural part of `PrePrepareMsg::validate` with `checkRequests`, and `RequestsIterator`. The
location of a request is the 32-bit sum of the sizes before it, compared with the end only: a size
that wraps it leads back into bytes that were passed, up to the header of the message. Where no
sum wraps, the requests tile the payload (`tiled_iff`), and the bytes are a message of the model
without bytes (`Tiled.decode`).
-/

namespace ConcordBft.Wire.PrePrepareMsg

open Verif Exec List

/-- The fields of the header, of 86 bytes, that are read. -/
structure Header where
  spanContextSize : UInt32
  seqNum : UInt64
  epochNum : UInt64
  flags : UInt16
  batchCidLength : UInt64
  numberOfRequests : UInt16
  endLocationOfLastRequest : UInt32

/-- `b()`. -/
def header (body : List UInt8) : Header where
  spanContextSize := UInt32.ofNat (leNat ((body.drop 2).take 4))
  seqNum := UInt64.ofNat (leNat ((body.drop 14).take 8))
  epochNum := UInt64.ofNat (leNat ((body.drop 22).take 8))
  flags := UInt16.ofNat (leNat ((body.drop 30).take 2))
  batchCidLength := UInt64.ofNat (leNat ((body.drop 32).take 8))
  numberOfRequests := UInt16.ofNat (leNat ((body.drop 80).take 2))
  endLocationOfLastRequest := UInt32.ofNat (leNat ((body.drop 82).take 4))

variable (body : List UInt8)

def endLocation : ℕ := (header body).endLocationOfLastRequest.toNat

def payloadShift : ℕ :=
  (86 + (header body).batchCidLength.toNat + (header body).spanContextSize.toNat) % 2 ^ 32

def isReady : Bool := decide ((header body).flags >>> 1 &&& 0x1 = 1)

def firstPath : UInt16 := (header body).flags >>> 2 &&& 0x3

def getRequestSizeTemp (i : ℕ) : Exec ℕ := do
  let request ← slice body i 52
  return (ClientRequestMsgHeader.read request).compRequestMsgSize % 2 ^ 32

/-- The loop of `checkRequests`, with `remainReqs + 1` requests left. -/
def checkLoop : (remainReqs i : ℕ) → Exec Bool
  | 0, i => do
    let reqSize ← getRequestSizeTemp body i
    return decide ((i + reqSize) % 2 ^ 32 = endLocation body)
  | remainReqs + 1, i => do
    let reqSize ← getRequestSizeTemp body i
    if (i + reqSize) % 2 ^ 32 ≥ endLocation body then return false
    else checkLoop remainReqs ((i + reqSize) % 2 ^ 32)

def checkRequests : Exec Bool :=
  match (header body).numberOfRequests.toNat with
  | 0 => return decide (endLocation body = payloadShift body)
  | remainReqs + 1 =>
    if payloadShift body ≥ endLocation body then return false
    else checkLoop body remainReqs (payloadShift body)

/-- `validate` up to the digest; a message that is refused is an exception. -/
def validate (info : PrincipalsInfo) (senderId : ReplicaId) : Exec Unit :=
  if senderId = info.myId then .error .assertion
  else if body.length < 86 + (header body).spanContextSize.toNat ∨
      info.isIdOfReplica senderId = false ∨ (header body).epochNum ≠ info.selfEpochNumber then
    .error .exception
  else if (header body).seqNum = 0 ∨ (header body).flags &&& 0x1 = 0 ∨ isReady body = false ∨
      firstPath body ≥ 3 ∨ firstPath body = 1 ∧ info.cVal = 0 ∨ (header body).flags >>> 4 ≠ 0 ∨
      endLocation body > body.length ∨ (header body).numberOfRequests = 0 ∨
      (header body).numberOfRequests.toNat ≥ endLocation body then .error .exception
  else do
    if ← checkRequests body then return () else throw .exception

/-! ## RequestsIterator -/

/-- The constructor; an iterator is its location. -/
def iterator : Exec ℕ := do
  ensure (isReady body)
  return payloadShift body

def atEnd (currLoc : ℕ) : Exec Bool := do
  ensure (decide (currLoc ≤ endLocation body))
  return decide (currLoc = endLocation body)

def gotoNext (currLoc : ℕ) : Exec ℕ := do
  ensure (!(← atEnd body currLoc))
  let size ← getRequestSizeTemp body currLoc
  let currLoc := (currLoc + size) % 2 ^ 32
  ensure (decide (currLoc ≤ endLocation body))
  return currLoc

/-- The location of the request, and the next one. -/
def getAndGoToNext (currLoc : ℕ) : Exec (Option ℕ × ℕ) := do
  if ← atEnd body currLoc then return (none, currLoc)
  else return (some currLoc, ← gotoNext body currLoc)

/-! ## Tiling -/

/-- Requests that are not empty and follow each other from `i` to the end. -/
def Tiles : ℕ → List ℕ → Prop
  | i, [] => i = endLocation body
  | i, request :: requests => request = i ∧
    ∃ size, getRequestSizeTemp body i = .ok size ∧ 0 < size ∧ Tiles (i + size) requests

/-- The iterator gives as many requests as the header states, and they tile the payload. -/
def Tiled : Prop :=
  ∃ requests, iterator body = .ok (payloadShift body) ∧
    Drains (getAndGoToNext body) (payloadShift body) requests (endLocation body) ∧
    requests.length = (header body).numberOfRequests.toNat ∧
    Tiles body (payloadShift body) requests ∧ endLocation body ≤ body.length

/-- The `n` requests from `i` on end below `2 ^ 32`. -/
def fits : (n i : ℕ) → Bool
  | 0, _ => true
  | n + 1, i => match getRequestSizeTemp body i with
    | .ok size => decide (i + size < 2 ^ 32) && fits n (i + size)
    | .error _ => false

variable {body} {i n : ℕ}

theorem endLocation_lt : endLocation body < 2 ^ 32 := UInt32.toNat_lt _

theorem getAndGoToNext_eq {size : ℕ} (hi : i < endLocation body)
    (hsize : getRequestSizeTemp body i = .ok size) (hle : (i + size) % 2 ^ 32 ≤ endLocation body) :
    getAndGoToNext body i = .ok (some i, (i + size) % 2 ^ 32) := by
  have hend : atEnd body i = .ok false := by
    simp [atEnd, hi.le, hi.ne]
  unfold getAndGoToNext gotoNext
  rw [hend, ok_bind, if_neg Bool.false_ne_true, ok_bind, Bool.not_false, ensure_true, ok_bind,
    hsize, ok_bind, ensure_decide hle]
  rfl

/-- An empty request would be found again in each round. -/
theorem size_pos {size : ℕ} (hi : i < endLocation body) (h : checkLoop body n i = .ok true)
    (hsize : getRequestSizeTemp body i = .ok size) : 0 < size := by
  refine Nat.pos_of_ne_zero ?_
  rintro rfl
  have hmod : (i + 0) % 2 ^ 32 = i := Nat.mod_eq_of_lt (hi.trans endLocation_lt)
  induction n with
  | zero =>
    rw [checkLoop, hsize, ok_bind, hmod, decide_eq_false hi.ne] at h
    cases h
  | succ n ih =>
    rw [checkLoop, hsize, ok_bind, hmod, if_neg (Nat.not_le.mpr hi)] at h
    exact ih h

theorem drains_of_checkLoop (hi : i < endLocation body) (h : checkLoop body n i = .ok true) :
    ∃ requests, Drains (getAndGoToNext body) i requests (endLocation body) ∧
      requests.length = n + 1 ∧ (fits body (n + 1) i = true → Tiles body i requests) := by
  induction n generalizing i with
  | zero =>
    obtain ⟨size, hsize, hend⟩ := bind_eq_ok.mp h
    have hend : (i + size) % 2 ^ 32 = endLocation body := by simpa using hend
    have hnext := getAndGoToNext_eq hi hsize hend.le
    rw [hend] at hnext
    refine ⟨[i], .cons hnext (.nil (by simp [getAndGoToNext, atEnd])), rfl, fun hfits => ?_⟩
    rw [fits, hsize] at hfits
    refine ⟨rfl, size, hsize, size_pos hi h hsize, ?_⟩
    rw [Tiles, ← hend, Nat.mod_eq_of_lt (by simpa [fits] using hfits)]
  | succ n ih =>
    obtain ⟨size, hsize, hrest⟩ := bind_eq_ok.mp h
    split_ifs at hrest with hge
    · cases hrest
    have hlt := Nat.not_le.mp hge
    obtain ⟨requests, hdrains, hlen, htiles⟩ := ih hlt hrest
    refine ⟨i :: requests, .cons (getAndGoToNext_eq hi hsize hlt.le) hdrains,
      congrArg (· + 1) hlen, fun hfits => ?_⟩
    rw [fits, hsize] at hfits
    obtain ⟨hwrap, hfits⟩ := Bool.and_eq_true_iff.mp hfits
    rw [Nat.mod_eq_of_lt (of_decide_eq_true hwrap)] at htiles
    exact ⟨rfl, size, hsize, size_pos hi h hsize, htiles hfits⟩

theorem Tiles.fits {requests : List ℕ} (h : Tiles body i requests) :
    i ≤ endLocation body ∧ fits body requests.length i = true := by
  induction requests generalizing i with
  | nil => exact ⟨Nat.le_of_eq h, rfl⟩
  | cons request requests ih =>
    obtain ⟨-, size, hsize, -, hrest⟩ := h
    obtain ⟨hle, hfits⟩ := ih hrest
    have : endLocation body < 2 ^ 32 := endLocation_lt
    refine ⟨by omega, ?_⟩
    simp only [PrePrepareMsg.fits, length_cons, hsize, hfits, Bool.and_true]
    exact decide_eq_true (by omega)

/-- **The requests of an accepted message tile its payload** exactly if none of them ends beyond
the 32 bits of a location. -/
theorem tiled_iff (info : PrincipalsInfo) (senderId : ReplicaId) (body : List UInt8)
    (h : validate body info senderId = .ok ()) :
    Tiled body ↔ fits body (header body).numberOfRequests.toNat (payloadShift body) = true := by
  unfold validate at h
  split_ifs at h with hsender hbasic hadvanced
  obtain ⟨checked, hcheck, h⟩ := bind_eq_ok.mp h
  cases checked with
  | false => cases h
  | true =>
  simp only [not_or, Nat.not_lt] at hadvanced
  obtain ⟨-, -, hready, -, -, -, hend, hnonzero, -⟩ := hadvanced
  constructor
  · rintro ⟨requests, -, -, hlen, htiles, -⟩
    rw [← hlen]
    exact htiles.fits.2
  · intro hfits
    unfold checkRequests at hcheck
    obtain ⟨n, hn⟩ := Nat.exists_eq_succ_of_ne_zero fun hzero =>
      hnonzero (UInt16.toNat_inj.mp hzero)
    rw [hn] at hcheck hfits
    dsimp only at hcheck
    split_ifs at hcheck with hge
    · cases hcheck
    obtain ⟨requests, hdrains, hlen, htiles⟩ := drains_of_checkLoop (Nat.not_le.mp hge) hcheck
    refine ⟨requests, ?_, hdrains, hlen.trans hn.symm, htiles hfits, hend⟩
    rw [iterator, Bool.eq_true_of_not_eq_false hready]
    rfl

def headerBytes (spanContextSize numberOfRequests endLocation : UInt8) : List UInt8 :=
  [0, 0, spanContextSize, 0, 0, 0] ++ replicate 8 0 ++ 1 :: replicate 15 0 ++
    3 :: replicate 49 0 ++ [numberOfRequests, 0, endLocation, 0, 0, 0]

/-- The header of a request with its `requestLength`. -/
def requestBytes (requestLength : List UInt8) : List UInt8 :=
  replicate 28 0 ++ requestLength ++ replicate 20 0

def fourPrincipals : PrincipalsInfo := ⟨⟨0, 4, 0⟩, 0, fun _ => false, fun _ => false, 0⟩

/-- The second request states a length of 4. -/
theorem tiled_two_requests :
    Tiled (headerBytes 0 2 194 ++ requestBytes [0, 0, 0, 0] ++ requestBytes [4, 0, 0, 0] ++
      [1, 2, 3, 4]) :=
  (tiled_iff fourPrincipals 1 _ (by decide +kernel)).mpr (by decide +kernel)

/-- The one request in the payload leads back to bytes of the span context. -/
theorem not_tiled : validate (headerBytes 52 2 190 ++ requestBytes [52, 0, 0, 0] ++
      requestBytes [152, 255, 255, 255]) fourPrincipals 1 = .ok () ∧
    ¬ Tiled (headerBytes 52 2 190 ++ requestBytes [52, 0, 0, 0] ++
      requestBytes [152, 255, 255, 255]) := by
  refine ⟨by decide +kernel, ?_⟩
  rintro ⟨requests, -, -, hlen, htiles, -⟩
  have hfits := htiles.fits.2
  rw [hlen] at hfits
  exact absurd hfits (by decide +kernel)

/-! ## The decoded message -/

/-- The message has the fields that `validate` reads, and the requests that tile the payload. -/
structure Decodes (body : List UInt8) (m : ConcordBft.PrePrepareMsg) : Prop where
  seqNum : m.seqNum = (header body).seqNum
  epochNum : m.epochNum = (header body).epochNum
  flags : m.flags = (header body).flags
  numberOfRequests : m.requests.length = (header body).numberOfRequests.toNat
  endLocation : m.endLocationOfLastRequest = endLocation body
  size : m.size = body.length
  payload : m.requests.flatMap ClientRequestMsg.bytes ++ m.trailing = body.drop (payloadShift body)

theorem read_take (b : List UInt8) :
    ClientRequestMsgHeader.read (b.take 52) = ClientRequestMsgHeader.read b := by
  simp [ClientRequestMsgHeader.read, drop_take, take_take]

theorem take_append_drop_of_le {i j : ℕ} (h : i ≤ j) (b : List UInt8) :
    (b.drop i).take (j - i) ++ b.drop j = b.drop i := by
  conv_rhs => rw [← take_append_drop (j - i) (b.drop i), drop_drop,
    Nat.add_sub_cancel' h]

theorem Tiles.requests {locs : List ℕ} (h : Tiles body i locs)
    (hend : endLocation body ≤ body.length) :
    ∃ requests : List ClientRequestMsg, requests.length = locs.length ∧
      requests.flatMap ClientRequestMsg.bytes = (body.drop i).take (endLocation body - i) ∧
      LaidOut (body.drop (endLocation body)) requests := by
  induction locs generalizing i with
  | nil =>
    obtain rfl : i = endLocation body := h
    exact ⟨[], rfl, by simp, trivial⟩
  | cons loc locs ih =>
    obtain ⟨rfl, size, hsize, -, hrest⟩ := h
    obtain ⟨requests, hlen, hbytes, hlaid⟩ := ih hrest
    have hle := hrest.fits.1
    obtain ⟨header, hheader, hsize⟩ := bind_eq_ok.mp hsize
    have hread := returns_slice.mp ⟨_, hheader⟩
    rw [slice_eq_ok hread, Except.ok.injEq] at hheader
    refine ⟨⟨(body.drop loc).take size, body.drop (loc + size), ?_⟩ :: requests,
      congrArg (· + 1) hlen, ?_, ?_, hlaid⟩
    · rw [← drop_drop, take_append_drop, ← read_take, hheader, Except.ok.inj hsize,
        length_take, length_drop]
      omega
    · rw [flatMap_cons, hbytes]
      show (body.drop loc).take size ++ _ = _
      rw [← drop_drop, ← take_add]
      congr 1
      omega
    · rw [hbytes, take_append_drop_of_le hle]

/-- **A tiled message is decoded** where neither its size nor its payload wraps. -/
theorem Tiled.decode (h : Tiled body) (hlen : body.length < 2 ^ 32)
    (hshift : 86 + (header body).batchCidLength.toNat + (header body).spanContextSize.toNat < 2 ^ 32) :
    ∃ m, Decodes body m := by
  obtain ⟨locs, -, -, hcount, htiles, hend⟩ := h
  obtain ⟨requests, hlocs, hbytes, hlaid⟩ := htiles.requests hend
  have hle := htiles.fits.1
  have hpayload : payloadShift body =
      86 + (header body).batchCidLength.toNat + (header body).spanContextSize.toNat :=
    Nat.mod_eq_of_lt hshift
  have hsum : (requests.map ClientRequestMsg.size).sum = endLocation body - payloadShift body := by
    have hlength := congrArg length hbytes
    rw [length_flatMap, length_take, length_drop] at hlength
    exact hlength.trans (by omega)
  have hlast : 86 + ((body.drop (86 + (header body).spanContextSize.toNat)).take
        (header body).batchCidLength.toNat).length +
      ((body.drop 86).take (header body).spanContextSize.toNat).length +
      (requests.map ClientRequestMsg.size).sum = endLocation body := by
    simp only [length_take, length_drop]
    omega
  have hsize : endLocation body + (body.drop (endLocation body)).length = body.length := by
    rw [length_drop]
    omega
  exact ⟨{
    senderId := 0
    viewNum := UInt64.ofNat (leNat ((body.drop 6).take 8))
    seqNum := (header body).seqNum
    epochNum := (header body).epochNum
    flags := (header body).flags
    time := UInt64.ofNat (leNat ((body.drop 40).take 8))
    digestOfRequests := (body.drop 48).take 32
    spanContext := (body.drop 86).take (header body).spanContextSize.toNat
    batchCid := (body.drop (86 + (header body).spanContextSize.toNat)).take
      (header body).batchCidLength.toNat
    requests
    trailing := body.drop (endLocation body)
    laidOut := hlaid
    numberOfRequests_lt := by
      rw [hlocs, hcount]
      exact UInt16.toNat_lt _
    size_lt := by rwa [hlast, hsize] },
    rfl, rfl, rfl, hlocs.trans hcount, hlast, (congrArg (· + _) hlast).trans hsize,
    (congrArg (· ++ _) hbytes).trans (take_append_drop_of_le hle body)⟩

theorem Decodes.advanced {m : ConcordBft.PrePrepareMsg} (hm : Decodes body m)
    {info : PrincipalsInfo} {senderId : ReplicaId} (h : validate body info senderId = .ok ()) :
    m.epochNum = info.selfEpochNumber ∧ m.advanced info = true := by
  unfold validate at h
  split_ifs at h with hsender hbasic hadvanced
  simp only [not_or, not_and] at hbasic hadvanced
  have hzero : (header body).numberOfRequests.toNat = 0 → (header body).numberOfRequests = 0 :=
    fun h => UInt16.toNat_inj.mp h
  simp only [ConcordBft.PrePrepareMsg.advanced, ConcordBft.PrePrepareMsg.isNull,
    ConcordBft.PrePrepareMsg.isReady, ConcordBft.PrePrepareMsg.firstPath, hm.epochNum, hm.seqNum,
    hm.flags, hm.numberOfRequests, hm.endLocation, hm.size, Bool.and_eq_true]
  grind [isReady, firstPath, ConcordBft.PrePrepareMsg.FAST_WITH_THRESHOLD]

end ConcordBft.Wire.PrePrepareMsg
