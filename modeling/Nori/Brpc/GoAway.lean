import Mathlib.Data.Int.Notation
import Mathlib.Tactic.SplitIfs
import Nori.Codec.BigEndian

/-!
# GOAWAY frames

A server that leaves names the last stream it has processed in the first four bytes of a GOAWAY
frame, of which the highest bit is reserved. An error code follows, and then any debug data. The
client has to give up the streams above that one, and to open none above it any more.

`OnGoAway` skips as many bytes as there are debug data before it reads, as if these came first.
-/

namespace Brpc

open List Codec

inductive H2Error
  | protocolError
  | frameSizeError

structure H2FrameHead where
  payloadSize : ℕ
  flags : UInt8
  streamId : ℤ

/-- A stream of a client: `AllocateClientStreamId` gives only positive ids. -/
structure H2StreamContext where
  streamId : ℤ
  statusCode : ℕ
  range : 0 < streamId ∧ streamId < 2 ^ 31

/-- Answered with `HTTP_STATUS_SERVICE_UNAVAILABLE`. -/
def H2StreamContext.unavailable (sctx : H2StreamContext) : H2StreamContext :=
  { sctx with statusCode := 503 }

/-- The streams stand in the order in which the map is gone through. -/
structure H2Context where
  isClientSide : Bool
  pendingStreams : List H2StreamContext
  goawayStreamId : ℤ
  logOff : Bool

def loadUint32 (it : List UInt8) : ℕ := BigEndian.toNat (it.take 4)

/-- Where `OnGoAway` reads the last stream id, as an `int`. -/
def lastStreamId (payloadSize : ℕ) (it : List UInt8) : ℤ :=
  (BitVec.ofNat 32 (loadUint32 (it.drop (payloadSize - 8)))).toInt

namespace H2Context

def removeGoAwayStreams (id : ℤ) (c : H2Context) : List H2StreamContext × H2Context :=
  if id = 0 then (c.pendingStreams, { c with goawayStreamId := id, pendingStreams := [] })
  else
    let out := c.pendingStreams.filter (id < ·.streamId)
    (out, { c with
      goawayStreamId := id
      pendingStreams := c.pendingStreams.filter (·.streamId ∉ out.map (·.streamId)) })

def tryToInsertStream (ctx : H2StreamContext) (c : H2Context) : ℤ × H2Context :=
  if 0 ≤ c.goawayStreamId ∧ c.goawayStreamId < ctx.streamId then (1, c)
  else if c.pendingStreams.any (·.streamId = ctx.streamId) then (-1, c)
  else (0, { c with pendingStreams := ctx :: c.pendingStreams })

/-- `OnGoAway`: the first stream is handed back and the others are given to threads, all with the
same answer. -/
def onGoAway (h : H2FrameHead) (it : List UInt8) (c : H2Context) :
    Except H2Error (List H2StreamContext × H2Context) :=
  if h.payloadSize < 8 then .error .frameSizeError
  else if h.streamId ≠ 0 then .error .protocolError
  else if h.flags ≠ 0 then .error .protocolError
  else if c.isClientSide then
    let (out, c') := { c with logOff := true }.removeGoAwayStreams (lastStreamId h.payloadSize it)
    .ok (out.map (·.unavailable), c')
  else .ok ([], c)

/-- Exactly the streams above the last one are answered, the others stay, and afterwards exactly
the ids above it are refused. -/
def FailsUnprocessed (last : ℤ) (c : H2Context)
    (r : Except H2Error (List H2StreamContext × H2Context)) : Prop :=
  ∃ c', r = .ok ((c.pendingStreams.filter (last < ·.streamId)).map (·.unavailable), c') ∧
    c'.pendingStreams = c.pendingStreams.filter (·.streamId ≤ last) ∧
    ∀ ctx, (c'.tryToInsertStream ctx).1 = 1 ↔ last < ctx.streamId

theorem removeGoAwayStreams_eq (id : ℤ) (c : H2Context) :
    c.removeGoAwayStreams id = (c.pendingStreams.filter (id < ·.streamId), { c with
      goawayStreamId := id, pendingStreams := c.pendingStreams.filter (·.streamId ≤ id) }) := by
  unfold removeGoAwayStreams
  split_ifs with hzero
  · have hall : c.pendingStreams.filter (id < ·.streamId) = c.pendingStreams :=
      filter_eq_self.mpr fun s _ => by simp [hzero, s.range.1]
    have hnone : c.pendingStreams.filter (·.streamId ≤ id) = [] :=
      filter_eq_nil_iff.mpr fun s _ => by simp [hzero, s.range.1]
    rw [hall, hnone]
  · dsimp only
    congr 2
    refine filter_congr fun x hx => ?_
    rw [decide_eq_decide, mem_map]
    constructor
    · intro hnot
      by_contra hlt
      exact hnot ⟨x, mem_filter.mpr ⟨hx, by simpa using hlt⟩, rfl⟩
    · rintro hle ⟨s, hs, heq⟩
      have := of_decide_eq_true (mem_filter.mp hs).2
      omega

theorem tryToInsertStream_eq_one {c : H2Context} {ctx : H2StreamContext} :
    (c.tryToInsertStream ctx).1 = 1 ↔ 0 ≤ c.goawayStreamId ∧ c.goawayStreamId < ctx.streamId := by
  unfold tryToInsertStream
  split_ifs <;> simp_all

/-- **GOAWAY.** The right streams fail if the number that is read is the one in the first four
bytes. Otherwise they do only if it is negative, no id is above the last one, and none is
pending. -/
theorem failsUnprocessed_iff (c : H2Context) (hclient : c.isClientSide = true)
    (payload : List UInt8) (hlen : 8 ≤ payload.length) :
    FailsUnprocessed (loadUint32 payload % 2 ^ 31) c (c.onGoAway ⟨payload.length, 0, 0⟩ payload) ↔
      lastStreamId payload.length payload = loadUint32 payload % 2 ^ 31 ∨
      lastStreamId payload.length payload < 0 ∧
        (loadUint32 payload % 2 ^ 31 : ℤ) = 2 ^ 31 - 1 ∧ c.pendingStreams = [] := by
  unfold FailsUnprocessed onGoAway
  rw [if_neg (Nat.not_lt.mpr hlen), if_neg (not_not.mpr rfl), if_neg (not_not.mpr rfl),
    if_pos hclient, removeGoAwayStreams_eq]
  have hmax : lastStreamId payload.length payload < 2 ^ 31 := BitVec.toInt_lt
  have hlast : 0 ≤ (loadUint32 payload % 2 ^ 31 : ℤ) := Int.emod_nonneg _ (by omega)
  have hlast' : (loadUint32 payload % 2 ^ 31 : ℤ) < 2 ^ 31 := Int.emod_lt_of_pos _ (by omega)
  dsimp only
  generalize lastStreamId payload.length payload = v at *
  generalize (loadUint32 payload % 2 ^ 31 : ℤ) = last at *
  simp only [tryToInsertStream_eq_one]
  constructor
  · rintro ⟨c', hc', hkept, hrefused⟩
    obtain ⟨-, rfl⟩ := Prod.mk.inj (Except.ok.inj hc')
    dsimp only at hkept hrefused
    rcases Int.lt_or_le v 0 with hneg | hnonneg
    · -- no id at all is refused
      have hend := hrefused ⟨2 ^ 31 - 1, 200, by omega⟩
      dsimp only at hend
      refine .inr ⟨hneg, by omega, eq_nil_iff_forall_not_mem.mpr fun s hs => ?_⟩
      have := s.range
      have hmem : s ∈ c.pendingStreams.filter (·.streamId ≤ last) :=
        mem_filter.mpr ⟨hs, decide_eq_true (by omega)⟩
      rw [← hkept] at hmem
      have := of_decide_eq_true (mem_filter.mp hmem).2
      omega
    · by_contra hnot
      have hne : v ≠ last := fun heq => hnot (.inl heq)
      have hbetween := hrefused ⟨max v last, 200, by omega⟩
      dsimp only at hbetween
      omega
  · rintro (rfl | ⟨hneg, heq, hnil⟩)
    · exact ⟨_, rfl, rfl, fun ctx => ⟨And.right, fun hlt => ⟨hlast, hlt⟩⟩⟩
    · rw [hnil]
      refine ⟨_, rfl, rfl, fun ctx => ?_⟩
      have := ctx.range
      dsimp only
      omega

/-- A client that waits for stream 7. -/
def waiting : H2Context := ⟨true, [⟨7, 200, by decide⟩], -1, false⟩

theorem failsUnprocessed_waiting :
    FailsUnprocessed (loadUint32 [0, 0, 0, 5, 0, 0, 0, 0] % 2 ^ 31) waiting
      (waiting.onGoAway ⟨8, 0, 0⟩ [0, 0, 0, 5, 0, 0, 0, 0]) :=
  (failsUnprocessed_iff waiting rfl _ (by decide)).mpr (.inl (by decide))

/-- With one byte of debug data the last stream id is read as `0x500`. -/
theorem not_failsUnprocessed_debug :
    ¬ FailsUnprocessed (loadUint32 [0, 0, 0, 5, 0, 0, 0, 0, 65] % 2 ^ 31) waiting
      (waiting.onGoAway ⟨9, 0, 0⟩ [0, 0, 0, 5, 0, 0, 0, 0, 65]) := by
  rintro ⟨_, hanswered, -⟩
  cases hanswered

end H2Context

end Brpc
