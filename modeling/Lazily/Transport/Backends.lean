import Lazily.Transport.Spill

/-!
# Reading blobs back (`ShmBlobArena` in `ipc.rs`, the backends in `transport.rs`)

`blobs_read_back`: over any sequence of writes a blob reads as its payload until a write takes part
of its space, and a descriptor with any fields reads as an error or as bytes within the arena.
`isolated_iff`: the kind of a descriptor is checked by no backend, so one resolves the descriptors
of another where its memory happens to match them (`arrow_blob_resolves_in_process`).
-/

namespace Lazily.Transport

open Ipc Lib ShmBlobArena List Option

namespace ShmBlobArena

variable {arena : ShmBlobArena} {d : ShmBlobRef} {payload : IpcPayload}

def fromBuffer (bytes : List Byte) : Except ShmBlobArenaError ShmBlobArena :=
  if bytes.length < headerLen + 1 then .error (.capacityTooSmall bytes.length (headerLen + 1))
  else .ok ⟨bytes, 0, 1⟩

def writeAll (arena : ShmBlobArena) (writes : List (Nat × IpcPayload)) : ShmBlobArena :=
  writes.foldl (fun arena write => (arena.writeBlob write.1 write.2).2) arena

/-- The indexed range, or `none` where the access would panic. -/
def access (bytes : List Byte) (offset len : Nat) : Option (List Byte) :=
  if offset + len ≤ bytes.length then some (slice bytes offset len) else none

/-- `read_blob` with its checked additions in machine words and the accesses that follow them:
`none` where one of these would panic. -/
def readBlobChecked (arena : ShmBlobArena) (d : ShmBlobRef) :
    Option (Except ShmBlobArenaError IpcPayload) :=
  let outOfBounds := .error (.descriptorOutOfBounds d.offset d.len arena.bytes.length)
  if UInt64.size ≤ headerLen + d.len then some outOfBounds
  else if UInt64.size ≤ d.offset + (headerLen + d.len) then some outOfBounds
  else if arena.bytes.length < d.offset + (headerLen + d.len) then some outOfBounds
  else do
    let _ ← access arena.bytes d.offset headerLen
    let _ ← access arena.bytes (d.offset + headerLen) d.len
    return arena.readBlob d

/-- The spaces of the two blobs, headers included, have a byte in common. -/
def Overlap (d d' : ShmBlobRef) : Prop :=
  d.offset < d'.offset + (headerLen + d'.len) ∧ d'.offset < d.offset + (headerLen + d.len)

/-- No write takes part of the space of the blob. -/
def Spared (d : ShmBlobRef) : ShmBlobArena → List (Nat × IpcPayload) → Prop
  | _, [] => True
  | arena, (epoch, payload) :: writes =>
    (∀ d', (arena.writeBlob epoch payload).1 = .ok d' → ¬Overlap d d') ∧
      Spared d (arena.writeBlob epoch payload).2 writes

theorem valid_fromBuffer {bytes : List Byte} (hlen : bytes.length < UInt64.size)
    (hnew : fromBuffer bytes = .ok arena) :
    arena.cursor.Valid ∧ arena.bytes.length = bytes.length := by
  unfold fromBuffer at hnew
  split at hnew
  · cases hnew
  · cases hnew
    have hone : 1 < UInt64.size := by decide
    exact ⟨⟨by simp [cursor]; omega, hlen, by simp [cursor]; omega, hone⟩, rfl⟩

variable (writes : List (Nat × IpcPayload))

/-- Blobs with no byte in common do not disturb each other. -/
theorem agree_of_not_overlap {d' : ShmBlobRef} {payload' : IpcPayload}
    (hlen : payload.length = d.len) (hlen' : payload'.length = d'.len) (h : ¬Overlap d d') :
    Frame.Agree (frame d payload) (frame d' payload') := by
  intro i a b ha hb
  have hi := Frame.item_range ha
  have hi' := Frame.item_range hb
  simp only [frame, length_append, length_header] at hi hi'
  unfold Overlap at h
  omega

variable (hv : arena.cursor.Valid)
include hv

theorem writeAll_valid : (arena.writeAll writes).cursor.Valid ∧
      (arena.writeAll writes).bytes.length = arena.bytes.length := by
  induction writes generalizing arena with
  | nil => exact ⟨hv, rfl⟩
  | cons write writes ih =>
    obtain ⟨hvalid, hlen⟩ := ih (valid_writeBlob hv write.1 write.2)
    exact ⟨hvalid, hlen.trans (writeBlob_cases hv write.1 write.2).2.1⟩

theorem readBlob_writeAll (hread : arena.readBlob d = .ok payload)
    (hspared : Spared d arena writes) : (arena.writeAll writes).readBlob d = .ok payload := by
  induction writes generalizing arena with
  | nil => exact hread
  | cons write writes ih =>
    obtain ⟨⟨hbounds, hlen, hrange⟩, hholds⟩ := readBlob_eq_ok.1 hread
    obtain ⟨-, hsize, hcases⟩ := writeBlob_cases hv write.1 write.2
    refine ih (valid_writeBlob hv _ _) (readBlob_eq_ok.2 ⟨⟨?_, hlen, hrange⟩, ?_⟩) hspared.2
    · rwa [hsize]
    · rcases hcases with ⟨e, -, -, hbytes⟩ | ⟨place, -, hok, hfits, -, hbytes⟩
      · rwa [hbytes]
      · rw [hbytes]
        exact hholds.write hfits (agree_of_not_overlap hlen rfl (hspared.1 _ hok))

/-- A blob reads as its payload right after it was written. -/
theorem readBlob_writeBlob {epoch : Nat} (hepoch : epoch < UInt64.size)
    (hok : (arena.writeBlob epoch payload).1 = .ok d) :
    (arena.writeBlob epoch payload).2.readBlob d = .ok payload := by
  obtain ⟨-, hsize, ⟨e, -, herr, -⟩ | ⟨place, -, hplace, hfits, hsound, hbytes⟩⟩ :=
    writeBlob_cases hv epoch payload
  · rw [hok] at herr
    cases herr
  · rw [hok] at hplace
    cases hplace
    rw [readBlob_eq_ok, hsize, hbytes]
    exact ⟨(hsound hepoch).2, Frame.holds_write hfits⟩

theorem readBlobChecked_eq : arena.readBlobChecked d = some (arena.readBlob d) := by
  have hcap : arena.bytes.length < UInt64.size := hv.capacity_lt
  unfold readBlobChecked
  by_cases hbounds : arena.bytes.length < d.offset + (headerLen + d.len)
  · have hout : arena.readBlob d =
        .error (.descriptorOutOfBounds d.offset d.len arena.bytes.length) := by
      rw [readBlob, if_pos hbounds]
    simp [hbounds, hout]
  · rw [if_neg (by omega), if_neg (by omega), if_neg hbounds, access, if_pos (by omega), access,
      if_pos (by omega)]
    rfl

end ShmBlobArena

/-- **The blob arena.** What `write_blob` returned reads as the payload as long as no later write
takes part of its space. A descriptor with any fields reads without a panic, as an error or as
exactly `len` bytes within the arena. -/
theorem blobs_read_back {bytes : List Byte} (hlen : bytes.length < UInt64.size)
    {arena : ShmBlobArena} (hnew : fromBuffer bytes = .ok arena)
    (writes later : List (Nat × IpcPayload)) :
    (∀ epoch < UInt64.size, ∀ payload d,
      ((arena.writeAll writes).writeBlob epoch payload).1 = .ok d →
      Spared d ((arena.writeAll writes).writeBlob epoch payload).2 later →
      (((arena.writeAll writes).writeBlob epoch payload).2.writeAll later).readBlob d =
        .ok payload) ∧
    ∀ d, (arena.writeAll writes).readBlobChecked d = some ((arena.writeAll writes).readBlob d) ∧
      ∀ payload, (arena.writeAll writes).readBlob d = .ok payload →
        d.offset + headerLen + d.len ≤ bytes.length ∧ payload.length = d.len ∧
          payload = slice (arena.writeAll writes).bytes (d.offset + headerLen) d.len := by
  obtain ⟨hv, hcap⟩ := valid_fromBuffer hlen hnew
  obtain ⟨hv, hcap'⟩ := writeAll_valid writes hv
  refine ⟨fun epoch hepoch payload d hok hspared => ?_, fun d => ⟨readBlobChecked_eq hv, ?_⟩⟩
  · exact readBlob_writeAll later (valid_writeBlob hv _ _) (readBlob_writeBlob hv hepoch hok)
      hspared
  · intro payload hread
    obtain ⟨⟨hbounds, hpayload, -⟩, hholds⟩ := readBlob_eq_ok.1 hread
    exact ⟨by omega, hpayload, ((holds_frame_iff hpayload).1 hholds).2.symm⟩

/-- The second of two blobs, after a third one that wrapped around and took the place of the
first. -/
theorem blobs_read_back_second :
    let arena : ShmBlobArena := ⟨List.replicate 90 0, 0, 1⟩
    let written := (arena.writeAll [(0, [1])]).writeBlob 7 [2, 3]
    let d : ShmBlobRef := ⟨41, 2, 2, 7, checksum [2, 3], .shm⟩
    written.1 = .ok d ∧ Spared d written.2 [(8, [4])] ∧
      (written.2.writeBlob 8 [4]).1 = .ok ⟨0, 1, 3, 8, checksum [4], .shm⟩ ∧
      (written.2.writeAll [(8, [4])]).readBlob d = .ok [2, 3] := by
  intro arena written d
  have hsecond : written.1 = .ok d := by decide +kernel
  have hthird : (written.2.writeBlob 8 [4]).1 = .ok ⟨0, 1, 3, 8, checksum [4], .shm⟩ := by
    decide +kernel
  have hspared : Spared d written.2 [(8, [4])] := by
    refine ⟨fun d' hd' hoverlap => ?_, trivial⟩
    cases hthird.symm.trans hd'
    exact absurd hoverlap.1 (by decide)
  have hread := (@blobs_read_back (replicate 90 0) (by decide) arena rfl [(0, [1])] [(8, [4])]).1
  exact ⟨hsecond, hspared, hthird, hread 7 (by decide) [2, 3] d hsecond hspared⟩

/-! ## Backends -/

structure ArrowBackend where
  arena : ShmBlobArena
  epoch : Nat

namespace ArrowBackend

def write (backend : ArrowBackend) (bytes : IpcPayload) :
    Except ShmBlobArenaError ShmBlobRef × ArrowBackend :=
  let written := backend.arena.writeBlob backend.epoch bytes
  (written.1.map fun d => { d with backend := .arrow }, { backend with arena := written.2 })

def readView (backend : ArrowBackend) (d : ShmBlobRef) : Option IpcPayload :=
  if d.epoch ≠ backend.epoch then none else (backend.arena.readBlob d).toOption

end ArrowBackend

/-- A mapped region. It starts with a header of five words: magic, capacity, bump cursor, generation
and epoch. -/
structure ShmBackend where
  region : List Byte

namespace ShmBackend

def slotHeaderLen : Nat := 24

variable (backend : ShmBackend)

def word (offset : Nat) : Nat := leNat (slice backend.region offset 8)

def store (offset : Nat) (bytes : List Byte) : ShmBackend :=
  ⟨Frame.write backend.region ⟨offset, bytes⟩⟩

def bump : Nat := backend.word 16

def generation : Nat := backend.word 24

def epoch : Nat := backend.word 32

/-- The cursor moves also where the blob does not fit. -/
def write (bytes : IpcPayload) : Except ShmBlobArenaError ShmBlobRef × ShmBackend :=
  let capacity := backend.region.length
  let need := slotHeaderLen + bytes.length
  let off := backend.bump
  let moved := backend.store 16 (leBytes 8 (off + need))
  if capacity < off + need then
    (.error (.blobTooLarge bytes.length (capacity - (slotHeaderLen + headerLen))), moved)
  else
    let generation := moved.generation + 1
    let slot := leBytes 8 generation ++ leBytes 8 bytes.length ++ leBytes 8 (checksum bytes)
    (.ok ⟨off + slotHeaderLen, bytes.length, generation, moved.epoch, checksum bytes, .shm⟩,
      (moved.store 24 (leBytes 8 generation)).store off (slot ++ bytes))

/-- The slot in front of the payload has the descriptor's generation, length and checksum. -/
def slotMatches (d : ShmBlobRef) : Prop :=
  let slot := d.offset - slotHeaderLen
  slot + slotHeaderLen ≤ backend.region.length ∧ backend.word slot = d.generation ∧
    backend.word (slot + 8) = d.len ∧ backend.word (slot + 16) = d.checksum

instance (backend : ShmBackend) (d : ShmBlobRef) : Decidable (backend.slotMatches d) :=
  inferInstanceAs (Decidable (_ ∧ _))

/-- The payload itself is not looked at. -/
def readView (d : ShmBlobRef) : Option IpcPayload :=
  if backend.slotMatches d ∧ backend.epoch = d.epoch ∧
      d.offset + d.len ≤ backend.region.length then
    some (slice backend.region d.offset d.len)
  else none

end ShmBackend

inductive Backend where
  | inProcess (backend : InProcessBackend)
  | arrow (backend : ArrowBackend)
  | shm (backend : ShmBackend)

namespace Backend

/-- The descriptor that a write returns. -/
def mint (payload : IpcPayload) : Backend → Except ShmBlobArenaError ShmBlobRef
  | .inProcess backend => (backend.write payload).1
  | .arrow backend => (backend.write payload).1
  | .shm backend => (backend.write payload).1

def readView (d : ShmBlobRef) : Backend → Option IpcPayload
  | .inProcess backend => backend.readView d
  | .arrow backend => backend.readView d
  | .shm backend => backend.readView d

def resolveValue (backend : Backend) : IpcValue → Option IpcPayload
  | .inline bytes => some bytes
  | .sharedBlob d => backend.readView d

/-- The memory has, in the descriptor's place and under its epoch, what a blob of its generation,
length and checksum leaves there. -/
def Matches (d : ShmBlobRef) : Backend → Prop
  | .inProcess ⟨arena, epoch, _, _⟩ | .arrow ⟨arena, epoch⟩ => d.epoch = epoch ∧
    d.offset + (headerLen + d.len) ≤ arena.bytes.length ∧
      ∃ payload, payload.length = d.len ∧ InRange d ∧ checksum payload = d.checksum ∧
        Frame.Holds arena.bytes (frame d payload)
  | .shm backend => backend.slotMatches d ∧ backend.epoch = d.epoch ∧
    d.offset + d.len ≤ backend.region.length

theorem isSome_readBlob {arena : ShmBlobArena} {d : ShmBlobRef} :
    (arena.readBlob d).toOption.isSome ↔ d.offset + (headerLen + d.len) ≤ arena.bytes.length ∧
      ∃ payload, payload.length = d.len ∧ InRange d ∧ checksum payload = d.checksum ∧
        Frame.Holds arena.bytes (frame d payload) := by
  constructor
  · intro h
    obtain ⟨payload, hread⟩ : ∃ payload, arena.readBlob d = .ok payload := by
      cases hread : arena.readBlob d with
      | error e => simp [hread, Except.toOption] at h
      | ok payload => exact ⟨payload, rfl⟩
    obtain ⟨⟨hbounds, hlen, hrange, hsum⟩, hholds⟩ := readBlob_eq_ok.1 hread
    exact ⟨hbounds, payload, hlen, hrange, hsum, hholds⟩
  · rintro ⟨hbounds, payload, hlen, hrange, hsum, hholds⟩
    rw [readBlob_eq_ok.2 ⟨⟨hbounds, hlen, hrange, hsum⟩, hholds⟩]
    rfl

/-- No read looks at the kind of the descriptor. -/
theorem isSome_readView (backend : Backend) (d : ShmBlobRef) :
    (backend.readView d).isSome ↔ backend.Matches d := by
  cases backend with
  | inProcess backend =>
    have hread : backend.readView d =
        if d.epoch ≠ backend.epoch then none else (backend.arena.readBlob d).toOption := by
      unfold InProcessBackend.readView
      split
      · rfl
      · cases backend.arena.readBlob d <;> rfl
    simp only [readView, Matches, hread, ← isSome_readBlob]
    split <;> simp_all
  | arrow backend =>
    simp only [readView, ArrowBackend.readView, Matches, ← isSome_readBlob]
    split <;> simp_all
  | shm backend =>
    simp only [readView, ShmBackend.readView, Matches]
    split <;> simp only [*, isSome_some, isSome_none, and_self, Bool.false_eq_true]

end Backend

/-- **Backend isolation.** One backend resolves no descriptor that another one mints, exactly when
its memory matches none of them; of the kinds nothing depends. -/
theorem isolated_iff (reader writer : Backend) : (∀ payload d, writer.mint payload = .ok d →
      reader.readView d = none ∧ reader.resolveValue (.sharedBlob d) = none) ↔
    ∀ payload d, writer.mint payload = .ok d → ¬reader.Matches d := by
  refine forall_congr' fun payload => forall_congr' fun d => imp_congr_right fun _ => ?_
  rw [Backend.resolveValue, and_self, ← reader.isSome_readView, not_isSome_iff_eq_none]

/-- An in-process backend and an Arrow backend that wrote one blob each: the first resolves the
descriptor of the second, to its own payload. -/
theorem arrow_blob_resolves_in_process :
    let arrow : ArrowBackend := ⟨⟨List.replicate 41 0, 0, 1⟩, 0⟩
    ∃ backend d, InProcessBackend.withCapacity 41 (by decide) = .ok backend ∧
      (arrow.write [5]).1 = .ok d ∧ d.backend = .arrow ∧
      Backend.readView d (.inProcess (backend.write [5]).2) = some [5] := by
  refine ⟨_, _, rfl, rfl, rfl, ?_⟩
  decide +kernel

end Lazily.Transport
