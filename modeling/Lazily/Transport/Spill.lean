import Lazily.Transport.Arena

/-!
# Spilling a message (`spill_message` in `transport.rs`)

Large payloads of a message are written to a backend and replaced by descriptors. The backend is an
arena that starts over when it is full, so a write may overwrite a blob that an earlier site of the
message, or the message it came from, refers to (`second_payload_overwrites_first`). The message
keeps its payloads exactly when the frames placed for it agree where they overlap, and agree with
those it refers to (`preserved_iff_agree`).
-/

namespace Lazily.Transport

open Ipc Lib ShmBlobArena List Option Nat Frame

/-! ## The in-process backend -/

structure InProcessBackend where
  arena : ShmBlobArena
  epoch : Nat
  valid : arena.cursor.Valid
  epoch_lt : epoch < UInt64.size

/-- The part of a descriptor's check that does not depend on the bytes stored. -/
def Sound (epoch capacity : Nat) (d : ShmBlobRef) (payload : IpcPayload) : Prop :=
  d.epoch = epoch ∧ d.offset + (headerLen + d.len) ≤ capacity ∧ payload.length = d.len ∧
    InRange d ∧ checksum payload = d.checksum

variable {arena : ShmBlobArena}

/-- A write takes what the cursor reserves. It fails and leaves the bytes, or writes the frame of
the descriptor it returns. -/
theorem writeBlob_cases (hv : arena.cursor.Valid) (epoch : Nat) (payload : IpcPayload) :
    let written := arena.writeBlob epoch payload
    let reserved := arena.cursor.reserve payload.length
    written.2.cursor = reserved.2 ∧ written.2.bytes.length = arena.bytes.length ∧
    ((∃ e, reserved.1 = .error e ∧ written.1 = .error e ∧ written.2.bytes = arena.bytes) ∨
    ∃ place, let d := descriptor epoch payload place
      reserved.1 = .ok place ∧ written.1 = .ok d ∧ (frame d payload).Fits arena.bytes.length ∧
      (epoch < UInt64.size → Sound epoch arena.bytes.length d payload) ∧
      written.2.bytes = write arena.bytes (frame d payload)) := by
  obtain ⟨-, hcapacity, hplace⟩ := Cursor.reserve_spec hv payload.length
  have hcap : arena.bytes.length < UInt64.size := hv.capacity_lt
  unfold writeBlob
  generalize hreserve : arena.cursor.reserve payload.length = reserved at hcapacity hplace ⊢
  obtain ⟨e | place, c⟩ := reserved
  · exact ⟨congrArg (Cursor.mk · _ _) hcapacity.symm, rfl, .inl ⟨e, rfl, rfl, rfl⟩⟩
  · obtain ⟨hfits, hgeneration⟩ := hplace place rfl
    rw [show arena.cursor.capacity = arena.bytes.length from rfl] at hfits
    have hframe : (frame (descriptor epoch payload place) payload).Fits arena.bytes.length := by
      simpa [Frame.Fits, frame, descriptor] using hfits
    have hlen := length_write hframe
    refine ⟨congrArg (Cursor.mk · _ _) (hlen.trans hcapacity.symm), hlen,
      .inr ⟨place, rfl, rfl, hframe, fun hepoch => ?_, rfl⟩⟩
    have hshort : payload.length < UInt64.size := by omega
    exact ⟨rfl, hfits, rfl, ⟨hgeneration, hepoch, hshort, checksum_lt payload⟩, rfl⟩

theorem valid_writeBlob (hv : arena.cursor.Valid) (epoch : Nat)
    (payload : IpcPayload) : (arena.writeBlob epoch payload).2.cursor.Valid := by
  rw [(writeBlob_cases hv epoch payload).1]
  exact (Cursor.reserve_spec hv payload.length).1

theorem valid_fresh {capacity : Nat} (h : capacity < UInt64.size)
    (hmin : headerLen + 1 ≤ capacity) :
    (ShmBlobArena.mk (List.replicate capacity 0) 0 1).cursor.Valid := by
  rw [cursor, length_replicate]
  have hpos : 1 ≤ capacity := le_trans (succ_le_succ (zero_le _)) hmin
  exact ⟨hmin, h, hpos, lt_of_le_of_lt hpos h⟩

namespace InProcessBackend

def withCapacity (capacity : Nat) (h : capacity < UInt64.size) :
    Except ShmBlobArenaError InProcessBackend :=
  if hmin : capacity < headerLen + 1 then .error (.capacityTooSmall capacity (headerLen + 1))
  else
    .ok
      { arena := ⟨List.replicate capacity 0, 0, 1⟩
        epoch := 0
        valid := valid_fresh h (Nat.not_lt.1 hmin)
        epoch_lt := Nat.zero_lt_of_lt h }

def write (backend : InProcessBackend) (bytes : IpcPayload) :
    Except ShmBlobArenaError ShmBlobRef × InProcessBackend :=
  let written := backend.arena.writeBlob backend.epoch bytes
  (written.1.map fun d => { d with backend := .inProcess },
    { backend with
      arena := written.2
      valid := valid_writeBlob backend.valid backend.epoch bytes })

def readView (backend : InProcessBackend) (d : ShmBlobRef) : Option IpcPayload :=
  if d.epoch ≠ backend.epoch then none
  else
    match backend.arena.readBlob d with
    | .ok payload => some payload
    | .error _ => none

end InProcessBackend

/-! ## Spilling -/

abbrev Spilling := InProcessBackend × Nat

variable (threshold : Nat)

/-- Write bytes that reach the threshold; they stay inline where the write fails. -/
def spillBytes (bytes : IpcPayload) (st : Spilling) : Option ShmBlobRef × Spilling :=
  if threshold ≤ bytes.length then
    match st.1.write bytes with
    | (.ok d, backend) => (some d, backend, st.2 + bytes.length)
    | (.error _, backend) => (none, backend, st.2)
  else (none, st)

def spillValue (value : IpcValue) (st : Spilling) : IpcValue × Spilling :=
  match value with
  | .inline bytes =>
    let (spilled, st) := spillBytes threshold bytes st
    (spilled.elim value .sharedBlob, st)
  | .sharedBlob _ => (value, st)

def spillState (state : NodeState) (st : Spilling) : NodeState × Spilling :=
  match state with
  | .payload bytes =>
    let (spilled, st) := spillBytes threshold bytes st
    (spilled.elim state .sharedBlob, st)
  | .sharedBlob _ | .opaqueState => (state, st)

def spillNode (node : NodeSnapshot) (st : Spilling) : NodeSnapshot × Spilling :=
  let (state, st) := spillState threshold node.state st
  ({ node with state := state }, st)

def spillDeltaOp (op : DeltaOp) (st : Spilling) : DeltaOp × Spilling :=
  match op with
  | .cellSet node payload =>
    let (payload, st) := spillValue threshold payload st
    (.cellSet node payload, st)
  | .slotValue node payload =>
    let (payload, st) := spillValue threshold payload st
    (.slotValue node payload, st)
  | .nodeAdd node typeTag state key =>
    let (state, st) := spillState threshold state st
    (.nodeAdd node typeTag state key, st)
  | .queuePush node payload =>
    let (payload, st) := spillValue threshold payload st
    (.queuePush node payload, st)
  | .invalidate _ | .nodeRemove _ | .edgeAdd _ _ | .edgeRemove _ _ | .queuePop _
  | .queueClose _ => (op, st)

def spillCrdtOp (op : CrdtOp) (st : Spilling) : CrdtOp × Spilling :=
  let (state, st) := spillValue threshold op.state st
  ({ op with state := state }, st)

/-- Spill the elements of a list, one after the other. -/
def spillEach {α : Type} (spill : α → Spilling → α × Spilling) :
    List α → Spilling → List α × Spilling
  | [], st => ([], st)
  | x :: xs, st =>
    let (x, st) := spill x st
    let (xs, st) := spillEach spill xs st
    (x :: xs, st)

def spillMessage (message : IpcMessage) (backend : InProcessBackend) : IpcMessage × Spilling :=
  match message with
  | .snapshot snapshot =>
    let (nodes, st) := spillEach (spillNode threshold) snapshot.nodes (backend, 0)
    (.snapshot { snapshot with nodes := nodes }, st)
  | .delta delta =>
    let (ops, st) := spillEach (spillDeltaOp threshold) delta.ops (backend, 0)
    (.delta { delta with ops := ops }, st)
  | .crdtSync sync =>
    let (ops, st) := spillEach (spillCrdtOp threshold) sync.ops (backend, 0)
    (.crdtSync { sync with ops := ops }, st)
  | .resyncRequest _ | .outboxAck _ | .deltaSinceRequest _ => (message, backend, 0)

def resolveValue (backend : InProcessBackend) : IpcValue → Option IpcPayload
  | .inline bytes => some bytes
  | .sharedBlob d => backend.readView d

/-! ## Sites -/

/-- A place of a message that carries a payload. -/
inductive Site where
  | value (value : IpcValue)
  | state (state : NodeState)

namespace Site

def resolve (backend : InProcessBackend) : Site → Option IpcPayload
  | .value v => resolveValue backend v
  | .state (.payload bytes) => some bytes
  | .state (.sharedBlob d) => backend.readView d
  | .state .opaqueState => none

def inline? : Site → Option IpcPayload
  | .value (.inline bytes) | .state (.payload bytes) => some bytes
  | .value (.sharedBlob _) | .state (.sharedBlob _) | .state .opaqueState => none

def blob? : Site → Option ShmBlobRef
  | .value (.sharedBlob d) | .state (.sharedBlob d) => some d
  | .value (.inline _) | .state (.payload _) | .state .opaqueState => none

variable (threshold : Nat)

def spill (site : Site) (st : Spilling) : Site × Spilling :=
  match site with
  | .value v =>
    let (v, st) := spillValue threshold v st
    (.value v, st)
  | .state s =>
    let (s, st) := spillState threshold s st
    (.state s, st)

/-- The site with a descriptor in place of its bytes. -/
def withBlob (d : ShmBlobRef) : Site → Site
  | .value _ => .value (.sharedBlob d)
  | .state _ => .state (.sharedBlob d)

variable {site : Site} {bytes : IpcPayload}

theorem resolve_withBlob (site : Site) (d : ShmBlobRef) (backend : InProcessBackend) :
    (site.withBlob d).resolve backend = backend.readView d := by
  cases site <;> rfl

section

variable (h : site.inline? = some bytes)
include h

theorem resolve_inline (backend : InProcessBackend) : site.resolve backend = some bytes := by
  rcases site with (_ | _) | (_ | _ | _) <;> cases h <;> rfl

theorem blob_none : site.blob? = none := by
  rcases site with (_ | _) | (_ | _ | _) <;> cases h <;> rfl

theorem spill_inline (st : Spilling) :
    site.spill threshold st = ((spillBytes threshold bytes st).1.elim site (site.withBlob ·),
      (spillBytes threshold bytes st).2) := by
  rcases site with (_ | _) | (_ | _ | _) <;> cases h <;>
    simp only [spill, spillValue, spillState] <;> cases (spillBytes threshold bytes st).1 <;> rfl

end

theorem spill_other (h : site.inline? = none) (st : Spilling) :
    site.spill threshold st = (site, st) := by
  rcases site with (_ | _) | (_ | _ | _) <;> cases h <;> rfl

end Site

/-- The sites of a message, in the order they are visited. -/
def sites : IpcMessage → List Site
  | .snapshot snapshot => snapshot.nodes.map fun node => .state node.state
  | .delta delta => delta.ops.filterMap fun
    | .cellSet _ payload | .slotValue _ payload | .queuePush _ payload => some (.value payload)
    | .nodeAdd _ _ state _ => some (.state state)
    | .invalidate _ | .nodeRemove _ | .edgeAdd _ _ | .edgeRemove _ _ | .queuePop _
    | .queueClose _ => none
  | .crdtSync sync => sync.ops.map fun op => .value op.state
  | .resyncRequest _ | .outboxAck _ | .deltaSinceRequest _ => []

variable {threshold : Nat} {site : Site} {bytes : IpcPayload}

/-- Spilling a list of elements with a site each, or none, spills their sites. -/
theorem spillEach_sites {α : Type} {site? : α → Option Site} {spill : α → Spilling → α × Spilling}
    (hnone : ∀ x st, site? x = none → site? (spill x st).1 = none ∧ (spill x st).2 = st)
    (hsome : ∀ x st site, site? x = some site →
      site? (spill x st).1 = some (site.spill threshold st).1 ∧
      (spill x st).2 = (site.spill threshold st).2) : ∀ xs st,
      (spillEach spill xs st).1.filterMap site? =
        (spillEach (Site.spill threshold) (xs.filterMap site?) st).1 ∧
      (spillEach spill xs st).2 = (spillEach (Site.spill threshold) (xs.filterMap site?) st).2
  | [], _ => ⟨rfl, rfl⟩
  | x :: xs, st => by
    obtain ⟨hsites, hst⟩ := spillEach_sites hnone hsome xs (spill x st).2
    simp only [spillEach]
    cases hx : site? x with
    | none =>
      obtain ⟨hx', hst'⟩ := hnone x st hx
      rw [filterMap_cons_none hx, filterMap_cons_none hx', hsites, hst, hst']
      exact ⟨rfl, rfl⟩
    | some site =>
      obtain ⟨hx', hst'⟩ := hsome x st site hx
      rw [filterMap_cons_some hx, filterMap_cons_some hx', hsites, hst, hst']
      exact ⟨rfl, rfl⟩

theorem sites_spillMessage (threshold : Nat) (message : IpcMessage) (backend : InProcessBackend) :
    sites (spillMessage threshold message backend).1 =
        (spillEach (Site.spill threshold) (sites message) (backend, 0)).1 ∧
      (spillMessage threshold message backend).2 =
        (spillEach (Site.spill threshold) (sites message) (backend, 0)).2 := by
  cases message with
  | snapshot snapshot =>
    simp only [sites, ← filterMap_eq_map]
    refine spillEach_sites (fun x st h => by cases h) (fun x st site h => ?_) snapshot.nodes _
    cases h
    exact ⟨rfl, rfl⟩
  | delta delta =>
    simp only [spillMessage, sites]
    refine spillEach_sites (fun op st h => ?_) (fun op st site h => ?_) delta.ops _
    · cases op with
      | cellSet | slotValue | nodeAdd | queuePush => cases h
      | invalidate | nodeRemove | edgeAdd | edgeRemove | queuePop | queueClose => exact ⟨rfl, rfl⟩
    · cases op with
      | cellSet | slotValue | nodeAdd | queuePush =>
        cases h
        exact ⟨rfl, rfl⟩
      | invalidate | nodeRemove | edgeAdd | edgeRemove | queuePop | queueClose => cases h
  | crdtSync sync =>
    simp only [sites, ← filterMap_eq_map]
    refine spillEach_sites (fun x st h => by cases h) (fun x st site h => ?_) sync.ops _
    cases h
    exact ⟨rfl, rfl⟩
  | resyncRequest | outboxAck | deltaSinceRequest => exact ⟨rfl, rfl⟩

/-! ## Frames -/

def spilled (threshold : Nat) (sites : List Site) : List IpcPayload :=
  (sites.filterMap Site.inline?).filter (threshold ≤ ·.length)

/-- The frames payloads are placed in, from a cursor on. -/
def placed (epoch : Nat) : Cursor → List IpcPayload → List (Frame Byte)
  | _, [] => []
  | c, payload :: payloads =>
    match c.reserve payload.length with
    | (.ok place, c) => frame (descriptor epoch payload place) payload :: placed epoch c payloads
    | (.error _, c) => placed epoch c payloads

/-- The frames of the blobs that sites refer to, as far as they resolve. -/
def referred (backend : InProcessBackend) (sites : List Site) : List (Frame Byte) :=
  sites.filterMap fun site =>
    site.blob?.bind fun d => (backend.readView d).map (frame d)

/-- What a site resolves to before, it resolves to after. -/
def Kept (before after : InProcessBackend) (site site' : Site) : Prop :=
  ∀ bytes, site.resolve before = some bytes → site'.resolve after = some bytes

/-- Every site of the message resolves to the bytes it carried before the message was spilled. -/
def Preserved (threshold : Nat) (message : IpcMessage) (backend : InProcessBackend) : Prop :=
  let spilled := spillMessage threshold message backend
  List.Forall₂ (Kept backend spilled.2.1) (sites message) (sites spilled.1)

theorem readView_eq_some {backend : InProcessBackend} {d : ShmBlobRef} {payload : IpcPayload} :
    backend.readView d = some payload ↔ Sound backend.epoch backend.arena.bytes.length d payload ∧
        Frame.Holds backend.arena.bytes (frame d payload) := by
  have hread : backend.readView d = some payload ↔
      d.epoch = backend.epoch ∧ backend.arena.readBlob d = .ok payload := by
    unfold InProcessBackend.readView
    by_cases hepoch : d.epoch = backend.epoch
    · simp only [hepoch, ne_eq, not_true_eq_false, if_false]
      split <;> rename_i h <;> rw [h] <;> simp
    · simp [hepoch]
  rw [hread, readBlob_eq_ok, Sound]
  exact and_assoc.symm

/-! ## One site -/

/-- The backends have one epoch and one capacity. -/
def Alike (b b' : InProcessBackend) : Prop :=
  b'.epoch = b.epoch ∧ b'.arena.bytes.length = b.arena.bytes.length

/-- The bytes stay inline, or their frame is written and a sound descriptor of it returned. -/
theorem spillBytes_cases (st : Spilling) (hlen : threshold ≤ bytes.length) :
    Alike st.1 (spillBytes threshold bytes st).2.1 ∧
    (spillBytes threshold bytes st).2.1.arena.cursor = (st.1.arena.cursor.reserve bytes.length).2 ∧
    ((∃ e, (st.1.arena.cursor.reserve bytes.length).1 = .error e ∧
      (spillBytes threshold bytes st).1 = none ∧
      (spillBytes threshold bytes st).2.1.arena.bytes = st.1.arena.bytes) ∨
    ∃ place d, (st.1.arena.cursor.reserve bytes.length).1 = .ok place ∧
      (spillBytes threshold bytes st).1 = some d ∧
      frame d bytes = frame (descriptor st.1.epoch bytes place) bytes ∧
      (frame d bytes).Fits st.1.arena.bytes.length ∧
      Sound st.1.epoch st.1.arena.bytes.length d bytes ∧
      (spillBytes threshold bytes st).2.1.arena.bytes =
        write st.1.arena.bytes (frame d bytes)) := by
  obtain ⟨hcursor, hbytes, hcases⟩ := writeBlob_cases st.1.valid st.1.epoch bytes
  have hback : (spillBytes threshold bytes st).2.1 = (st.1.write bytes).2 := by
    unfold spillBytes
    rw [if_pos hlen]
    split <;> rename_i h <;> rw [h]
  have hspilled : (spillBytes threshold bytes st).1 = (st.1.write bytes).1.toOption := by
    unfold spillBytes
    rw [if_pos hlen]
    split <;> rename_i h <;> rw [h] <;> rfl
  have hdescriptor : (st.1.write bytes).1 = (st.1.arena.writeBlob st.1.epoch bytes).1.map
      fun d => { d with backend := .inProcess } := rfl
  have harena : (st.1.write bytes).2.arena = (st.1.arena.writeBlob st.1.epoch bytes).2 := rfl
  rw [hback, hspilled, hdescriptor, harena]
  refine ⟨⟨rfl, hbytes⟩, hcursor, ?_⟩
  rcases hcases with
    ⟨e, hreserve, hwritten, hsame⟩ | ⟨place, hreserve, hwritten, hfits, hsound, hsame⟩
  · rw [hwritten]
    exact .inl ⟨e, hreserve, rfl, hsame⟩
  · rw [hwritten]
    exact .inr ⟨place, _, hreserve, rfl, rfl, hfits, hsound st.1.epoch_lt, hsame⟩

/-! ## All sites -/

theorem spilled_cons (sites : List Site)
    (hinline : site.inline? = some bytes) (hlen : threshold ≤ bytes.length) :
    spilled threshold (site :: sites) = bytes :: spilled threshold sites := by
  unfold spilled
  rw [filterMap_cons_some hinline, filter_cons_of_pos (by simpa using hlen)]

theorem placed_cons (epoch : Nat) (c : Cursor) (payload : IpcPayload)
    (payloads : List IpcPayload) : placed epoch c (payload :: payloads) =
      ((c.reserve payload.length).1.toOption.map fun place =>
        frame (descriptor epoch payload place) payload).toList ++
        placed epoch (c.reserve payload.length).2 payloads := by
  rw [placed]
  split <;> rename_i heq <;> rw [heq] <;> rfl

section

variable (h : ∀ bytes, site.inline? = some bytes → ¬threshold ≤ bytes.length)
include h

theorem spilled_cons_small (sites : List Site) :
    spilled threshold (site :: sites) = spilled threshold sites := by
  unfold spilled
  cases hinline : site.inline? with
  | none => rw [filterMap_cons_none hinline]
  | some bytes =>
    rw [filterMap_cons_some hinline, filter_cons_of_neg (by simpa using h bytes hinline)]

theorem spill_small (st : Spilling) : site.spill threshold st = (site, st) := by
  cases hinline : site.inline? with
  | none => exact Site.spill_other threshold hinline st
  | some bytes =>
    rw [Site.spill_inline threshold hinline, spillBytes, if_neg (h bytes hinline)]
    rfl

end

/-- The bytes in the end are the frames written one after the other. -/
theorem spillEach_bytes (threshold : Nat) : ∀ sites st,
    let st' := (spillEach (Site.spill threshold) sites st).2
    let frames := placed st.1.epoch st.1.arena.cursor (spilled threshold sites)
    Alike st.1 st'.1 ∧ st'.1.arena.bytes = frames.foldl write st.1.arena.bytes ∧
      ∀ f ∈ frames, f.Fits st.1.arena.bytes.length
  | [], st => ⟨⟨rfl, rfl⟩, rfl, fun f hf => by cases hf⟩
  | site :: sites, st => by
    simp only [spillEach]
    by_cases hsmall : ∀ bytes, site.inline? = some bytes → ¬threshold ≤ bytes.length
    · rw [spill_small hsmall st, spilled_cons_small hsmall sites]
      exact spillEach_bytes threshold sites st
    · simp only [not_forall, not_not] at hsmall
      obtain ⟨bytes, hinline, hlen⟩ := hsmall
      obtain ⟨halike, hcursor, hcases⟩ := spillBytes_cases st hlen
      obtain ⟨halike', hbytes, hfits⟩ :=
        spillEach_bytes threshold sites (spillBytes threshold bytes st).2
      rw [halike.1, halike.2, hcursor] at hfits
      rw [halike.1, hcursor] at hbytes
      rw [Site.spill_inline threshold hinline, spilled_cons sites hinline hlen, placed_cons]
      refine ⟨⟨halike'.1.trans halike.1, halike'.2.trans halike.2⟩, ?_, ?_⟩
      · rcases hcases with ⟨e, hreserve, -, hsame⟩ | ⟨place, d, hreserve, -, hframe, -, -, hsame⟩
        · rw [hreserve, hbytes, hsame]
          rfl
        · rw [hreserve, hbytes, hsame, hframe]
          rfl
      · rcases hcases with ⟨e, hreserve, -, -⟩ | ⟨place, d, hreserve, -, hframe, hfits', -, -⟩
        · rw [hreserve]
          exact hfits
        · rw [hreserve]
          rw [hframe] at hfits'
          exact forall_mem_cons.2 ⟨hfits', hfits⟩

/-- A blob resolves as before in a backend like the one before, where its frame is held. -/
theorem readView_kept_iff {before after : InProcessBackend} (halike : Alike before after)
    (d : ShmBlobRef) : (∀ bytes, before.readView d = some bytes → after.readView d = some bytes) ↔
      ∀ g ∈ (before.readView d).map (frame d), Frame.Holds after.arena.bytes g := by
  cases hread : before.readView d with
  | none => simp
  | some bytes =>
    have hsound := (readView_eq_some.1 hread).1
    simp only [some_inj, map_some, mem_some_iff, forall_eq']
    rw [readView_eq_some, halike.1, halike.2]
    exact and_iff_right hsound

theorem kept_self_iff {before after : InProcessBackend} (halike : Alike before after)
    (site : Site) : Kept before after site site ↔
      ∀ d ∈ site.blob?, ∀ g ∈ (before.readView d).map (frame d),
        Frame.Holds after.arena.bytes g := by
  rcases site with (_ | d) | (_ | d | _)
  · simp [Kept, Site.resolve, resolveValue, Site.blob?]
  · simpa [Kept, Site.resolve, resolveValue, Site.blob?] using readView_kept_iff halike d
  · simp [Kept, Site.resolve, Site.blob?]
  · simpa [Kept, Site.resolve, Site.blob?] using readView_kept_iff halike d
  · simp [Kept, Site.resolve, Site.blob?]

theorem referred_cons (backend : InProcessBackend) (site : Site) (sites : List Site) :
    referred backend (site :: sites) =
      (site.blob?.bind fun d => (backend.readView d).map (frame d)).toList ++
        referred backend sites := by
  rw [referred, filterMap_cons]
  split <;> rename_i h <;> rw [h] <;> rfl

/-- The sites are kept where the backend in the end holds the frames they referred to and those
that were placed for them. -/
theorem kept_sites_iff (threshold : Nat) (before after : InProcessBackend)
    (halike : Alike before after) : ∀ sites st, Alike st.1 after →
    (List.Forall₂ (Kept before after) sites (spillEach (Site.spill threshold) sites st).1 ↔
      (∀ g ∈ referred before sites, Frame.Holds after.arena.bytes g) ∧
      ∀ f ∈ placed st.1.epoch st.1.arena.cursor (spilled threshold sites),
        Frame.Holds after.arena.bytes f)
  | [], st, _ => by simp [spillEach, referred, spilled, placed]
  | site :: sites, st, hst => by
    have hrefers : (∀ g ∈ referred before (site :: sites), Frame.Holds after.arena.bytes g) ↔
        (∀ d ∈ site.blob?, ∀ g ∈ (before.readView d).map (frame d),
          Frame.Holds after.arena.bytes g) ∧
        ∀ g ∈ referred before sites, Frame.Holds after.arena.bytes g := by
      rw [referred_cons, forall_mem_append]
      refine and_congr_left fun _ => ?_
      cases site.blob? <;> simp
    rw [hrefers]
    simp only [spillEach, forall₂_cons]
    by_cases hsmall : ∀ bytes, site.inline? = some bytes → ¬threshold ≤ bytes.length
    · -- the site is left as it is
      rw [spill_small hsmall st, spilled_cons_small hsmall sites,
        kept_sites_iff threshold before after halike sites st hst, kept_self_iff halike, and_assoc]
    · simp only [not_forall, not_not] at hsmall
      obtain ⟨bytes, hinline, hlen⟩ := hsmall
      obtain ⟨halike', hcursor, hcases⟩ := spillBytes_cases st hlen
      have hrest := kept_sites_iff threshold before after halike sites
        (spillBytes threshold bytes st).2 ⟨hst.1.trans halike'.1.symm, hst.2.trans halike'.2.symm⟩
      rw [halike'.1, hcursor] at hrest
      rw [Site.spill_inline threshold hinline, spilled_cons sites hinline hlen, placed_cons, hrest]
      rcases hcases with ⟨e, hreserve, hnone, -⟩ | ⟨place, d, hreserve, hd, hframe, -, hsound, -⟩
      · -- no room: the bytes stay inline
        simp only [hreserve, hnone, elim_none, kept_self_iff halike, Except.toOption,
          map_none, toList_none, nil_append, and_assoc]
      · have hkept : Kept before after site (site.withBlob d) ↔
            Frame.Holds after.arena.bytes (frame (descriptor st.1.epoch bytes place) bytes) := by
          unfold Kept
          rw [Site.resolve_inline hinline, Site.resolve_withBlob, ← hframe]
          simp only [some_inj, forall_eq']
          rw [readView_eq_some, hst.1, hst.2]
          exact and_iff_right hsound
        simp only [hreserve, hd, elim_some, hkept, Site.blob_none hinline, mem_def,
          reduceCtorEq, false_implies, implies_true, true_and, Except.toOption, map_some,
          toList_some, singleton_append, forall_mem_cons]
        exact and_left_comm

/-- **Spill and resolve.** A spilled message carries what it carried before exactly when the frames
placed for it agree wherever two of them overlap, and agree with the frames it referred to. -/
theorem preserved_iff_agree (threshold : Nat) (message : IpcMessage)
    (backend : InProcessBackend) : Preserved threshold message backend ↔
      let frames := placed backend.epoch backend.arena.cursor (spilled threshold (sites message))
      frames.Pairwise Frame.Agree ∧
        ∀ g ∈ referred backend (sites message), ∀ f ∈ frames, Frame.Agree g f := by
  obtain ⟨hsites, hst⟩ := sites_spillMessage threshold message backend
  obtain ⟨halike, hbytes, hfits⟩ := spillEach_bytes threshold (sites message) (backend, 0)
  have hheld : ∀ g ∈ referred backend (sites message), Frame.Holds backend.arena.bytes g := by
    intro g hg
    obtain ⟨site, -, hblob⟩ := mem_filterMap.1 hg
    obtain ⟨d, -, hread⟩ := bind_eq_some_iff.1 hblob
    obtain ⟨payload, hpayload, rfl⟩ := map_eq_some_iff.1 hread
    exact (readView_eq_some.1 hpayload).2
  unfold Preserved
  simp only
  rw [hsites, hst, kept_sites_iff threshold backend _ halike _ _ halike, hbytes,
    ← holds_writes_iff hfits hheld, forall_mem_append]

/-- An arena with room for one blob of a byte: the second payload of a delta overwrites the first,
which no longer resolves. -/
theorem second_payload_overwrites_first :
    let message : IpcMessage := .delta ⟨0, 1, [.cellSet 1 (.inline [1]), .cellSet 2 (.inline [2])]⟩
    ∃ backend, InProcessBackend.withCapacity 41 (by decide) = .ok backend ∧
      (sites (spillMessage 1 message backend).1).map
        (Site.resolve (spillMessage 1 message backend).2.1) = [none, some [2]] ∧
      ¬Preserved 1 message backend := by
  intro message
  refine ⟨_, rfl, ?_⟩
  unfold Preserved
  generalize hspilled : spillMessage 1 message _ = spilled
  have hresolve : (sites spilled.1).map (Site.resolve spilled.2.1) = [none, some [2]] := by
    rw [← hspilled]
    decide +kernel
  refine ⟨hresolve, fun hpreserved => ?_⟩
  obtain ⟨site', rest, hkept, -, heq⟩ := forall₂_cons_left_iff.1 hpreserved
  rw [heq, map_cons, cons_eq_cons, hkept [1] rfl] at hresolve
  cases hresolve.1

end Lazily.Transport
