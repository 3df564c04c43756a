import Lazily.Ipc.Message
import Lazily.Lib.Frame
import Mathlib.Data.List.Induction

/-!
# The blob arena (`ShmBlobArena` in `ipc.rs`, `InProcessBackend` in `transport.rs`)

An arena hands out space for blobs from front to back, and starts over at the front where the rest
is too short. Each payload stands behind a header with what a reader checks: generation, epoch,
length and checksum.

A reader accepts a descriptor for a payload exactly when the arena holds the frame the two make
(`readBlob_eq_ok`): every byte of the header is checked, and the payload is what is returned.
-/

namespace Lazily.Transport

open Ipc Lib List Nat

/-! ## Formats -/

def headerLen : Nat := 40

def magic : Nat := 0x4c5a5348

def version : Nat := 1

/-- FNV-1a over 64 bits. -/
def checksum (payload : IpcPayload) : Nat :=
  payload.foldl (fun hash byte => (hash ^^^ byte.val) * 0x100000001b3 % UInt64.size)
    0xcbf29ce484222325

inductive ShmBlobArenaError where
  | capacityTooSmall (capacity minCapacity : Nat)
  | blobTooLarge (len maxLen : Nat)
  | descriptorOutOfBounds (offset len capacity : Nat)
  | descriptorMismatch (field : String)
  | checksumMismatch (expected actual : Nat)
  | generationOverflow
  deriving DecidableEq, Repr

def header (d : ShmBlobRef) : List Byte :=
  leBytes 4 magic ++ leBytes 2 version ++ leBytes 2 headerLen ++ leBytes 8 d.generation ++
    leBytes 8 d.epoch ++ leBytes 8 d.len ++ leBytes 8 d.checksum

def readHeader (bytes : List Byte) (offset : Nat) : Except ShmBlobArenaError ShmBlobRef :=
  let header := slice bytes offset headerLen
  if leNat (slice header 0 4) ≠ magic then .error (.descriptorMismatch "magic")
  else if leNat (slice header 4 2) ≠ version then .error (.descriptorMismatch "version")
  else if leNat (slice header 6 2) ≠ headerLen then .error (.descriptorMismatch "header_len")
  else
    .ok
      { offset := offset
        generation := leNat (slice header 8 8)
        epoch := leNat (slice header 16 8)
        len := leNat (slice header 24 8)
        checksum := leNat (slice header 32 8)
        backend := .shm }

def mismatchField (actual expected : ShmBlobRef) : ShmBlobArenaError :=
  .descriptorMismatch <|
    if actual.generation ≠ expected.generation then "generation"
    else if actual.epoch ≠ expected.epoch then "epoch"
    else if actual.len ≠ expected.len then "len"
    else if actual.checksum ≠ expected.checksum then "checksum"
    else "offset"

/-! ## The arena -/

structure Cursor where
  capacity : Nat
  writeOffset : Nat
  nextGeneration : Nat
  deriving DecidableEq, Repr

namespace Cursor

def maxBlobLen (c : Cursor) : Nat := c.capacity - headerLen

/-- Take the space and the generation of the next blob. The cursor starts over where the blob does
not fit, also when there is no generation left. -/
def reserve (c : Cursor) (len : Nat) : Except ShmBlobArenaError (Nat × Nat) × Cursor :=
  if c.maxBlobLen < len then (.error (.blobTooLarge len c.maxBlobLen), c)
  else
    let totalLen := headerLen + len
    let offset := if c.capacity < c.writeOffset + totalLen then 0 else c.writeOffset
    if c.nextGeneration + 1 = UInt64.size then
      (.error .generationOverflow, { c with writeOffset := offset })
    else
      (.ok (offset, c.nextGeneration),
        { c with
          writeOffset := if offset + totalLen = c.capacity then 0 else offset + totalLen
          nextGeneration := c.nextGeneration + 1 })

/-- What `from_buffer` establishes and every reservation keeps. -/
structure Valid (c : Cursor) : Prop where
  min_capacity : headerLen + 1 ≤ c.capacity
  capacity_lt : c.capacity < UInt64.size
  offset_lt : c.writeOffset < c.capacity
  generation_lt : c.nextGeneration < UInt64.size

end Cursor

structure ShmBlobArena where
  bytes : List Byte
  writeOffset : Nat
  nextGeneration : Nat
  deriving DecidableEq, Repr

namespace ShmBlobArena

variable (arena : ShmBlobArena)

def cursor : Cursor :=
  ⟨arena.bytes.length, arena.writeOffset, arena.nextGeneration⟩

def moved (c : Cursor) : ShmBlobArena :=
  ⟨arena.bytes, c.writeOffset, c.nextGeneration⟩

/-- The frame of a blob: its header, then its payload. -/
def frame (d : ShmBlobRef) (payload : IpcPayload) : Frame Byte := ⟨d.offset, header d ++ payload⟩

def descriptor (epoch : Nat) (payload : IpcPayload) (place : Nat × Nat) : ShmBlobRef where
  offset := place.1
  len := payload.length
  generation := place.2
  epoch := epoch
  checksum := checksum payload
  backend := .shm

def writeBlob (epoch : Nat) (payload : IpcPayload) :
    Except ShmBlobArenaError ShmBlobRef × ShmBlobArena :=
  match arena.cursor.reserve payload.length with
  | (.error e, c) => (.error e, arena.moved c)
  | (.ok place, c) =>
    let d := descriptor epoch payload place
    (.ok d, { arena.moved c with bytes := Frame.write arena.bytes (frame d payload) })

/-- Offsets past the range of a machine word are out of bounds as well. -/
def readBlob (d : ShmBlobRef) : Except ShmBlobArenaError IpcPayload :=
  if arena.bytes.length < d.offset + (headerLen + d.len) then
    .error (.descriptorOutOfBounds d.offset d.len arena.bytes.length)
  else
    match readHeader arena.bytes d.offset with
    | .error e => .error e
    | .ok found =>
      let found := { found with backend := d.backend }
      if found ≠ d then .error (mismatchField found d)
      else
        let payload := slice arena.bytes (d.offset + headerLen) d.len
        if checksum payload ≠ d.checksum then
          .error (.checksumMismatch d.checksum (checksum payload))
        else .ok payload

end ShmBlobArena

/-! ## Headers -/

theorem checksum_lt (payload : IpcPayload) : checksum payload < UInt64.size := by
  unfold checksum
  induction payload using reverseRecOn with
  | nil => decide
  | append_singleton payload byte =>
    rw [foldl_concat]
    exact mod_lt _ (by decide)

@[simp] theorem length_header (d : ShmBlobRef) : (header d).length = headerLen := by
  simp [header, headerLen]

/-- The fields of a descriptor that are in the header fit their width. -/
def InRange (d : ShmBlobRef) : Prop :=
  d.generation < UInt64.size ∧ d.epoch < UInt64.size ∧ d.len < UInt64.size ∧
    d.checksum < UInt64.size

theorem leNat_slice_lt (bytes : List Byte) (offset : Nat) :
    leNat (slice bytes offset 8) < UInt64.size := by
  refine lt_of_lt_of_le (leNat_lt _) ?_
  rw [show UInt64.size = 256 ^ 8 by rfl]
  refine Nat.pow_le_pow_right (by decide) ?_
  rw [length_slice]
  exact Nat.min_le_left _ _

variable {bytes : List Byte}

/-- A header of a descriptor is what reads as the descriptor, field by field. -/
theorem eq_header_iff (hlen : bytes.length = headerLen) (d : ShmBlobRef) :
    bytes = header d ∧ InRange d ↔
      leNat (slice bytes 0 4) = magic ∧ leNat (slice bytes 4 2) = version ∧
      leNat (slice bytes 6 2) = headerLen ∧ leNat (slice bytes 8 8) = d.generation ∧
      leNat (slice bytes 16 8) = d.epoch ∧ leNat (slice bytes 24 8) = d.len ∧
      leNat (slice bytes 32 8) = d.checksum := by
  constructor
  · rintro ⟨rfl, hgeneration, hepoch, hlen, hchecksum⟩
    rw [show UInt64.size = 256 ^ 8 by rfl] at hgeneration hepoch hlen hchecksum
    have hslices : slice (header d) 0 4 = leBytes 4 magic ∧
        slice (header d) 4 2 = leBytes 2 version ∧ slice (header d) 6 2 = leBytes 2 headerLen ∧
        slice (header d) 8 8 = leBytes 8 d.generation ∧ slice (header d) 16 8 = leBytes 8 d.epoch ∧
        slice (header d) 24 8 = leBytes 8 d.len ∧ slice (header d) 32 8 = leBytes 8 d.checksum := by
      simp [header, slice, drop_append, drop_of_length_le, take_of_length_le]
    obtain ⟨h0, h1, h2, h3, h4, h5, h6⟩ := hslices
    rw [h0, h1, h2, h3, h4, h5, h6]
    exact ⟨leNat_leBytes (by decide), leNat_leBytes (by decide), leNat_leBytes (by decide),
      leNat_leBytes hgeneration, leNat_leBytes hepoch, leNat_leBytes hlen, leNat_leBytes hchecksum⟩
  · rintro ⟨h0, h1, h2, h3, h4, h5, h6⟩
    have hwidth : ∀ {offset width}, offset + width ≤ headerLen →
        (slice bytes offset width).length = width := by
      intro offset width h
      rw [length_slice, hlen]
      omega
    refine ⟨?_, h3 ▸ leNat_slice_lt _ _, h4 ▸ leNat_slice_lt _ _, h5 ▸ leNat_slice_lt _ _,
      h6 ▸ leNat_slice_lt _ _⟩
    rw [header, ← eq_leBytes_of_leNat_eq (hwidth (by decide)) h0,
      ← eq_leBytes_of_leNat_eq (hwidth (by decide)) h1,
      ← eq_leBytes_of_leNat_eq (hwidth (by decide)) h2,
      ← eq_leBytes_of_leNat_eq (hwidth (by decide)) h3,
      ← eq_leBytes_of_leNat_eq (hwidth (by decide)) h4,
      ← eq_leBytes_of_leNat_eq (hwidth (by decide)) h5,
      ← eq_leBytes_of_leNat_eq (hwidth (by decide)) h6]
    rw [slice_append bytes 0 4 2, slice_append bytes 0 6 2, slice_append bytes 0 8 8,
      slice_append bytes 0 16 8, slice_append bytes 0 24 8, slice_append bytes 0 32 8]
    exact (slice_self hlen).symm

theorem readHeader_eq_ok {d found : ShmBlobRef} (hlen : d.offset + headerLen ≤ bytes.length) :
    readHeader bytes d.offset = .ok found ∧ { found with backend := d.backend } = d ↔
      found = { d with backend := .shm } ∧ slice bytes d.offset headerLen = header d ∧
        InRange d := by
  have hheader : (slice bytes d.offset headerLen).length = headerLen := by
    rw [length_slice]
    omega
  rw [eq_header_iff hheader]
  unfold readHeader
  simp only
  constructor
  · rintro ⟨hread, hsame⟩
    split at hread
    · cases hread
    · split at hread
      · cases hread
      · split at hread
        · cases hread
        · rename_i h0 h1 h2
          cases hread
          obtain ⟨-, hlen, hgeneration, hepoch, hchecksum, -⟩ := ShmBlobRef.mk.inj hsame
          simp only at hlen hgeneration hepoch hchecksum
          refine ⟨?_, not_not.1 h0, not_not.1 h1, not_not.1 h2, hgeneration, hepoch, hlen,
            hchecksum⟩
          rw [hlen, hgeneration, hepoch, hchecksum]
  · rintro ⟨rfl, h0, h1, h2, hgeneration, hepoch, hlen, hchecksum⟩
    rw [if_neg (not_not.2 h0), if_neg (not_not.2 h1), if_neg (not_not.2 h2), hlen, hgeneration,
      hepoch, hchecksum]
    exact ⟨rfl, rfl⟩

/-- The frame of a blob is its header and its payload, each in its place. -/
theorem holds_frame_iff {d : ShmBlobRef} {payload : IpcPayload} (hlen : payload.length = d.len) :
    Frame.Holds bytes (ShmBlobArena.frame d payload) ↔ slice bytes d.offset headerLen = header d ∧
        slice bytes (d.offset + headerLen) d.len = payload := by
  rw [Frame.holds_iff_slice, ShmBlobArena.frame, length_append, length_header, hlen,
    ← slice_append]
  constructor
  · intro h
    refine append_inj h ?_
    have htotal := congrArg length h
    simp only [length_append, length_slice, length_header] at htotal ⊢
    omega
  · rintro ⟨hheader, hpayload⟩
    rw [hheader, hpayload]

namespace ShmBlobArena

variable {arena : ShmBlobArena} {d : ShmBlobRef} {payload : IpcPayload}

/-- A descriptor reads as a payload where the arena holds the frame of the two. -/
theorem readBlob_eq_ok : arena.readBlob d = .ok payload ↔
    (d.offset + (headerLen + d.len) ≤ arena.bytes.length ∧ payload.length = d.len ∧ InRange d ∧
      checksum payload = d.checksum) ∧ Frame.Holds arena.bytes (frame d payload) := by
  unfold readBlob
  by_cases hbounds : arena.bytes.length < d.offset + (headerLen + d.len)
  · rw [if_pos hbounds]
    simp only [reduceCtorEq, false_iff]
    omega
  have hfits : d.offset + (headerLen + d.len) ≤ arena.bytes.length := not_lt.1 hbounds
  rw [if_neg hbounds]
  constructor
  · intro hread
    split at hread
    · cases hread
    · rename_i found hfound
      simp only at hread
      split at hread
      · cases hread
      · rename_i hsame
        split at hread
        · cases hread
        · rename_i hchecksum
          cases hread
          obtain ⟨-, hheader, hrange⟩ := (readHeader_eq_ok (by omega)).1 ⟨hfound, not_not.1 hsame⟩
          have hlen : (slice arena.bytes (d.offset + headerLen) d.len).length = d.len := by
            rw [length_slice]
            omega
          exact ⟨⟨hfits, hlen, hrange, not_not.1 hchecksum⟩,
            (holds_frame_iff hlen).2 ⟨hheader, rfl⟩⟩
  · rintro ⟨⟨-, hlen, hrange, hchecksum⟩, hholds⟩
    obtain ⟨hheader, hpayload⟩ := (holds_frame_iff hlen).1 hholds
    obtain ⟨hfound, hsame⟩ := (readHeader_eq_ok (by omega)).2 ⟨rfl, hheader, hrange⟩
    rw [hfound]
    simp only [hpayload, hchecksum, ne_eq, not_true_eq_false, if_false]

end ShmBlobArena

/-! ## Reservations -/

/-- A reservation takes a generation and space for the header and the payload, or fails. -/
theorem Cursor.reserve_spec {c : Cursor} (hv : c.Valid) (len : Nat) :
    (c.reserve len).2.Valid ∧ (c.reserve len).2.capacity = c.capacity ∧
      ∀ place, (c.reserve len).1 = .ok place →
        place.1 + (headerLen + len) ≤ c.capacity ∧ place.2 < UInt64.size := by
  have hmin := hv.min_capacity
  have hgeneration := hv.generation_lt
  have hheader : 0 < headerLen := by decide
  unfold reserve
  split
  · exact ⟨hv, rfl, fun place h => by cases h⟩
  · rename_i hlen
    unfold maxBlobLen at hlen
    simp only
    generalize hstart : (if c.capacity < c.writeOffset + (headerLen + len) then 0
      else c.writeOffset) = offset
    have hfits : offset + (headerLen + len) ≤ c.capacity := by
      rw [← hstart]
      split <;> omega
    split
    · exact ⟨⟨hmin, hv.capacity_lt, show offset < c.capacity by omega, hgeneration⟩, rfl,
        fun place h => by cases h⟩
    · refine ⟨⟨hmin, hv.capacity_lt, ?_, show c.nextGeneration + 1 < UInt64.size by omega⟩, rfl,
        fun place h => ?_⟩
      · simp only
        split <;> omega
      · cases h
        exact ⟨hfits, hgeneration⟩

end Lazily.Transport
