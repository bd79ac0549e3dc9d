import Nori.Butil.Hash
import Nori.Codec.BigEndian

/-!
# The format of a segment file

A segment file is a series of entries, each a header of 24 bytes and its data. The header has the
term, the type, the length of the data and a checksum of them, in network order, and a checksum of
these fields. A file may end within an entry.

The length has 32 bits. Of data that is longer only the lower bits of the length are written.
-/

namespace Braft.Segments

open Butil Codec BigEndian List

/-- A configuration is taken as what `serialize_configuration_meta` makes of it. -/
inductive EntryType
  | noOp
  | data
  | configuration
deriving DecidableEq

def EntryType.code : EntryType → ℕ
  | .noOp => 1
  | .data => 2
  | .configuration => 3

def EntryType.ofCode : ℕ → Option EntryType
  | 1 => some .noOp
  | 2 => some .data
  | 3 => some .configuration
  | _ => none

theorem EntryType.ofCode_code (type : EntryType) : EntryType.ofCode type.code = some type := by
  cases type <;> rfl

theorem EntryType.code_lt (type : EntryType) : type.code < 256 := by cases type <;> decide

/-- An entry with its id and its data; terms are 64-bit integers. -/
structure LogEntry where
  index : ℕ
  term : ℕ
  type : EntryType
  data : Bytes
  term_lt : term < 2 ^ 63
  data_noOp : type = .noOp → data = []
deriving DecidableEq

inductive ChecksumType
  | murmurhash32
  | crc32
deriving DecidableEq

def ChecksumType.code : ChecksumType → ℕ
  | .murmurhash32 => 0
  | .crc32 => 1

def ChecksumType.ofCode : ℕ → Option ChecksumType
  | 0 => some .murmurhash32
  | 1 => some .crc32
  | _ => none

/-- `get_checksum` -/
abbrev GetChecksum := ChecksumType → Bytes → UInt32

def headerSize : ℕ := 24

/-- `EntryHeader` -/
structure EntryHeader where
  term : ℕ
  type : ℕ
  checksumType : ℕ
  dataLen : ℕ
  dataChecksum : ℕ
deriving DecidableEq

/-- The bytes of a header up to its checksum. -/
def packFields (header : EntryHeader) : Bytes :=
  bytes 8 header.term ++
  bytes 4 (header.type * 2 ^ 24 + header.checksumType * 2 ^ 16) ++
  bytes 4 header.dataLen ++ bytes 4 header.dataChecksum

section Checksum

variable (getChecksum : GetChecksum)

def headerOf (kind : ChecksumType) (e : LogEntry) : EntryHeader where
  term := e.term
  type := e.type.code
  checksumType := kind.code
  dataLen := e.data.length
  dataChecksum := (getChecksum kind e.data).toNat

/-- What `Segment::append` writes. -/
def encode (kind : ChecksumType) (e : LogEntry) : Bytes :=
  let fields := packFields (headerOf getChecksum kind e)
  fields ++ bytes 4 (getChecksum kind fields).toNat ++ e.data

/-- `verify_checksum`; an unknown type of checksum does not verify. -/
def verifyChecksum (code : ℕ) (data : Bytes) (value : ℕ) : Bool :=
  match ChecksumType.ofCode code with
  | some kind => (getChecksum kind data).toNat = value
  | none => false

/-- Why an entry is not loaded: the file ends within it, or a checksum is wrong. -/
inductive LoadError
  | incomplete
  | corrupted
deriving DecidableEq

def unpackFields (p : Bytes) : EntryHeader where
  term := toNat (p.take 8)
  type := toNat ((p.drop 8).take 4) / 2 ^ 24
  checksumType := toNat ((p.drop 8).take 4) / 2 ^ 16 % 2 ^ 8
  dataLen := toNat ((p.drop 12).take 4)
  dataChecksum := toNat ((p.drop 16).take 4)

/-- `_load_entry` without data: `sizeHint` bytes are read at an offset, at least a header. -/
def loadHeader (file : Bytes) (offset sizeHint : ℕ) : Except LoadError EntryHeader :=
  if file.length < offset + max sizeHint headerSize then .error .incomplete
  else
    let p := (file.drop offset).take headerSize
    let header := unpackFields p
    if verifyChecksum getChecksum header.checksumType (p.take 20) (toNat (p.drop 20)) then
      .ok header
    else .error .corrupted

/-- `_load_entry` with data. -/
def loadEntry (file : Bytes) (offset sizeHint : ℕ) : Except LoadError (EntryHeader × Bytes) := do
  let header ← loadHeader getChecksum file offset sizeHint
  if file.length < offset + headerSize + header.dataLen then .error .incomplete
  else
    let data := (file.drop (offset + headerSize)).take header.dataLen
    if verifyChecksum getChecksum header.checksumType data header.dataChecksum then
      .ok (header, data)
    else .error .corrupted

/-- The loop of `load`: the offsets and terms of the complete entries from an offset on, and the
offset after them. A configuration is read with its data; if that fails, the loop ends. -/
def scan (file : Bytes) : ℕ → ℕ → Except LoadError (List (ℕ × ℕ) × ℕ)
  | 0, offset => .ok ([], offset)
  | fuel + 1, offset =>
    if file.length ≤ offset then .ok ([], offset)
    else
      match loadHeader getChecksum file offset headerSize with
      | .error .incomplete => .ok ([], offset)
      | .error .corrupted => .error .corrupted
      | .ok header =>
        let skip := headerSize + header.dataLen
        if file.length < offset + skip then .ok ([], offset)
        else if header.type = EntryType.configuration.code ∧
            (loadEntry getChecksum file offset skip).isOk = false then .ok ([], offset)
        else do
          let (rest, last) ← scan file fuel (offset + skip)
          return ((offset, header.term) :: rest, last)

end Checksum

/-! ## Reading what was written -/

variable {getChecksum : GetChecksum} {kind : ChecksumType} {e : LogEntry}

@[simp] theorem length_packFields (header : EntryHeader) : (packFields header).length = 20 := by
  simp only [packFields, length_append, length_bytes]

theorem unpackFields_packFields {header : EntryHeader} {rest : Bytes} (hterm : header.term < 2 ^ 64)
    (htype : header.type < 2 ^ 8) (hkind : header.checksumType < 2 ^ 8)
    (hlen : header.dataLen < 2 ^ 32) (hchecksum : header.dataChecksum < 2 ^ 32) :
    unpackFields (packFields header ++ rest) = header := by
  have hfields : ∀ (a b c d : Bytes), a.length = 8 → b.length = 4 → c.length = 4 →
      d.length = 4 → (a ++ b ++ c ++ d ++ rest).take 8 = a ∧
        ((a ++ b ++ c ++ d ++ rest).drop 8).take 4 = b ∧
        ((a ++ b ++ c ++ d ++ rest).drop 12).take 4 = c ∧
        ((a ++ b ++ c ++ d ++ rest).drop 16).take 4 = d := by
    intro a b c d ha hb hc hd
    simp [drop_append, ha, hb, hc, hd, drop_of_length_le]
  obtain ⟨h₁, h₂, h₃, h₄⟩ := hfields (bytes 8 header.term)
    (bytes 4 (header.type * 2 ^ 24 + header.checksumType * 2 ^ 16))
    (bytes 4 header.dataLen) (bytes 4 header.dataChecksum)
    (length_bytes _ _) (length_bytes _ _) (length_bytes _ _)
    (length_bytes _ _)
  unfold unpackFields packFields
  rw [h₁, h₂, h₃, h₄, toNat_bytes_of_lt (by omega), toNat_bytes_of_lt (by omega),
    toNat_bytes_of_lt (by omega), toNat_bytes_of_lt (by omega)]
  obtain ⟨term, type, checksumType, dataLen, dataChecksum⟩ := header
  dsimp only at *
  congr 1 <;> omega

theorem ChecksumType.ofCode_code (kind : ChecksumType) :
    ChecksumType.ofCode kind.code = some kind := by
  cases kind <;> rfl

theorem verifyChecksum_code (data : Bytes) :
    verifyChecksum getChecksum kind.code data (getChecksum kind data).toNat = true := by
  rw [verifyChecksum, kind.ofCode_code]
  exact decide_eq_true rfl

@[simp] theorem length_encode (e : LogEntry) :
    (encode getChecksum kind e).length = headerSize + e.data.length := by
  simp only [encode, length_append, length_packFields, length_bytes, headerSize]

theorem unpackFields_encode (rest : Bytes) (hlen : e.data.length < 2 ^ 32) :
    unpackFields (packFields (headerOf getChecksum kind e) ++ rest) =
      headerOf getChecksum kind e := by
  have hkind : kind.code < 2 ^ 8 := by cases kind <;> decide
  have hterm := e.term_lt
  exact unpackFields_packFields (by dsimp only [headerOf]; omega) e.type.code_lt hkind hlen
    (getChecksum kind e.data).toNat_lt

section Load

variable {before after : Bytes} {sizeHint : ℕ}

theorem loadHeader_of_take {file : Bytes} {offset : ℕ} (hlen : e.data.length < 2 ^ 32)
    (hfile : offset + max sizeHint headerSize ≤ file.length)
    (hp : (file.drop offset).take headerSize = (encode getChecksum kind e).take headerSize) :
    loadHeader getChecksum file offset sizeHint = .ok (headerOf getChecksum kind e) := by
  set fields := packFields (headerOf getChecksum kind e)
  set check := bytes 4 (getChecksum kind fields).toNat with hcheck
  have hflen : fields.length = 20 := length_packFields _
  have hhead : (encode getChecksum kind e).take headerSize = fields ++ check := by
    refine take_left' ?_
    rw [length_append, hflen, length_bytes]
    rfl
  have htake : (fields ++ check).take 20 = fields := take_left' hflen
  have hdrop : (fields ++ check).drop 20 = check := drop_left' hflen
  unfold loadHeader
  dsimp only
  rw [hp, hhead, if_neg (Nat.not_lt.mpr hfile), unpackFields_encode check hlen, htake, hdrop,
    hcheck, toNat_bytes_of_lt (getChecksum kind fields).toNat_lt]
  exact if_pos (verifyChecksum_code fields)

section

variable (hlen : e.data.length < 2 ^ 32) (hhint : sizeHint ≤ headerSize + e.data.length)
include hlen hhint

theorem loadHeader_encode :
    loadHeader getChecksum (before ++ encode getChecksum kind e ++ after) before.length sizeHint =
      .ok (headerOf getChecksum kind e) := by
  refine loadHeader_of_take hlen ?_ ?_
  · simp only [length_append, length_encode]
    omega
  · rw [append_assoc, drop_left, take_append_of_le_length (by simp)]

/-- An entry is read as it was written, if the length of its data fits. -/
theorem loadEntry_encode :
    loadEntry getChecksum (before ++ encode getChecksum kind e ++ after) before.length sizeHint =
      .ok (headerOf getChecksum kind e, e.data) := by
  have hdata : ((before ++ encode getChecksum kind e ++ after).drop
      (before.length + headerSize)).take (headerOf getChecksum kind e).dataLen = e.data := by
    have hsplit : before ++ encode getChecksum kind e ++ after =
        (before ++ (packFields (headerOf getChecksum kind e) ++ bytes 4
          (getChecksum kind (packFields (headerOf getChecksum kind e))).toNat)) ++
          (e.data ++ after) := by
      simp only [encode, append_assoc]
    rw [hsplit, drop_left' (by simp only [length_append, length_packFields,
      length_bytes, headerSize])]
    exact take_left
  have hfile : ¬ (before ++ encode getChecksum kind e ++ after).length <
      before.length + headerSize + (headerOf getChecksum kind e).dataLen := by
    simp only [length_append, length_encode, headerOf]
    omega
  have hverify : verifyChecksum getChecksum (headerOf getChecksum kind e).checksumType e.data
      (headerOf getChecksum kind e).dataChecksum = true := verifyChecksum_code e.data
  simp only [loadEntry, loadHeader_encode hlen hhint, bind, Except.bind, if_neg hfile, hdata,
    if_pos hverify]

end

end Load

/-! ## Files -/

/-- A file with complete entries. -/
def encodeAll (getChecksum : GetChecksum) (kind : ChecksumType) (es : List LogEntry) : Bytes :=
  (es.map (encode getChecksum kind)).flatten

/-- The offsets and terms of entries that are written from an offset on. -/
def offsetsFrom : ℕ → List LogEntry → List (ℕ × ℕ)
  | _, [] => []
  | offset, e :: es => (offset, e.term) :: offsetsFrom (offset + (headerSize + e.data.length)) es

/-- Data that is short enough for the length of a header. -/
def Fits (es : List LogEntry) : Prop := ∀ e ∈ es, e.data.length < 2 ^ 32

/-- What is written of an entry, if not all of it is. -/
def Partial (getChecksum : GetChecksum) (kind : ChecksumType) (tail : Bytes) : Prop :=
  tail = [] ∨ ∃ e, e.data.length < 2 ^ 32 ∧ tail <+: encode getChecksum kind e ∧
    tail.length < (encode getChecksum kind e).length

theorem scan_partial {before tail : Bytes} (h : Partial getChecksum kind tail) (fuel : ℕ) :
    scan getChecksum (before ++ tail) fuel before.length = .ok ([], before.length) := by
  cases fuel with
  | zero => rfl
  | succ fuel =>
    unfold scan
    rcases h with rfl | ⟨e, hlen, hpre, hlt⟩
    · rw [append_nil, if_pos (Nat.le_refl _)]
    by_cases hempty : (before ++ tail).length ≤ before.length
    · rw [if_pos hempty]
    rw [if_neg hempty]
    by_cases hshort : tail.length < headerSize
    · rw [loadHeader, if_pos (by rw [length_append]; omega)]
    · -- the header is complete, the data is not
      have hheader : loadHeader getChecksum (before ++ tail) before.length headerSize =
          .ok (headerOf getChecksum kind e) := by
        obtain ⟨rest, hrest⟩ := hpre
        refine loadHeader_of_take hlen ?_ ?_
        · rw [length_append]
          omega
        · rw [drop_left, ← hrest, take_append_of_le_length (Nat.not_lt.mp hshort)]
      rw [hheader]
      dsimp only
      rw [if_pos]
      rw [length_append]
      rw [length_encode] at hlt
      dsimp only [headerOf]
      omega

theorem length_encodeAll_cons (es : List LogEntry) : (encodeAll getChecksum kind (e :: es)).length =
      headerSize + e.data.length + (encodeAll getChecksum kind es).length := by
  simp only [encodeAll, map_cons, flatten_cons, length_append, length_encode]

/-- All entries of a file are found, up to one that is not complete. -/
theorem scan_encodeAll {es : List LogEntry} {before tail : Bytes} {fuel : ℕ} (hfits : Fits es)
    (htail : Partial getChecksum kind tail) (hfuel : es.length ≤ fuel) :
    scan getChecksum (before ++ encodeAll getChecksum kind es ++ tail) fuel before.length =
      .ok (offsetsFrom before.length es,
        before.length + (encodeAll getChecksum kind es).length) := by
  induction es generalizing before fuel with
  | nil =>
    rw [show encodeAll getChecksum kind [] = [] from rfl, append_nil]
    exact scan_partial htail fuel
  | cons e es ih =>
    obtain ⟨fuel, rfl⟩ : ∃ k, fuel = k + 1 := ⟨fuel - 1, by rw [length_cons] at hfuel; omega⟩
    have hlen := hfits e mem_cons_self
    have hfile : before ++ encodeAll getChecksum kind (e :: es) ++ tail =
        before ++ encode getChecksum kind e ++ (encodeAll getChecksum kind es ++ tail) := by
      simp only [encodeAll, map_cons, flatten_cons, append_assoc]
    have hnext : before.length + (headerSize + e.data.length) =
        (before ++ encode getChecksum kind e).length := by
      rw [length_append, length_encode]
    have hrest : scan getChecksum (before ++ encode getChecksum kind e ++
        encodeAll getChecksum kind es ++ tail) fuel (before ++ encode getChecksum kind e).length =
          .ok (_, _) :=
      ih (fun e' he' => hfits e' (mem_cons_of_mem _ he')) (by rw [length_cons] at hfuel; omega)
    have hload : (loadEntry getChecksum
        (before ++ encode getChecksum kind e ++ (encodeAll getChecksum kind es ++ tail))
        before.length (headerSize + e.data.length)).isOk = true := by
      rw [loadEntry_encode hlen (Nat.le_refl _)]
      rfl
    unfold scan
    rw [hfile, if_neg (by simp only [length_append, length_encode, headerSize]; omega),
      loadHeader_encode hlen (Nat.le_add_right _ _)]
    dsimp only [headerOf]
    rw [if_neg (by simp only [length_append, length_encode]; omega), hload,
      if_neg (by simp), hnext, ← append_assoc, hrest, offsetsFrom, hnext]
    simp only [bind, Except.bind, pure, Except.pure, length_append, length_encode,
      length_encodeAll_cons]
    congr 2
    omega

end Braft.Segments
