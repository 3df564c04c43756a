import Lazily.Sync.Coordinator
import Mathlib.Data.List.Induction
import Mathlib.Data.List.Sort

/-!
# The outbox over its stores (`outbox.rs`)

`Outbox` keeps the ack, prune and replay protocol over a store of frames by epoch. A store is lawful
(`LawfulStore`) if it does with the epochs that fit into it what the store in memory does; an outbox
over a lawful store is then determined by what the store holds (`Sound.append`, `Sound.ackThrough`,
`Sound.replayFrom`). `sqlite_refines`: over SQLite, where epochs are signed, it answers as over
memory, and replays what was appended past the acknowledged epoch, as long as every epoch is below
`2 ^ 63`. An epoch from there on is stored as a negative number and never replayed
(`large_epoch_never_replayed`).

Frames are stored as they are: a frame that was serialised is read back as it was.
-/

namespace Lazily.Sync

open List

variable {μ : Type}

/-- The at-least-once outbox contract. -/
class DurableOutbox (O : Type) (μ : outParam Type) where
  append : O → Nat → μ → O
  ackThrough : O → Nat → O
  replayFrom : O → Nat → List (Nat × μ)
  retainedEpochs : O → List Nat

class OutboxStore (S : Type) (μ : outParam Type) where
  put : S → Nat → μ → S
  deleteThrough : S → Nat → S
  scanAfter : S → Nat → List (Nat × μ)
  loadCursor : S → Nat
  saveCursor : S → Nat → S

/-- `BTreeMap::insert`, and `INSERT OR REPLACE`, on entries in the order of their epochs. -/
def insertEntry {ε : Type} [LT ε] [DecidableLT ε] [DecidableEq ε] (epoch : ε) (frame : μ) :
    List (ε × μ) → List (ε × μ)
  | [] => [(epoch, frame)]
  | e :: es =>
    if epoch < e.1 then (epoch, frame) :: e :: es
    else if epoch = e.1 then (epoch, frame) :: es
    else e :: insertEntry epoch frame es

structure InMemoryStore (μ : Type) where
  entries : List (Nat × μ)
  cursor : Nat

instance : OutboxStore (InMemoryStore μ) μ where
  put s epoch frame := { s with entries := insertEntry epoch frame s.entries }
  deleteThrough s epoch := { s with entries := s.entries.filter fun e => epoch < e.1 }
  scanAfter s cursor := s.entries.filter fun e => saturatingSucc cursor ≤ e.1
  loadCursor s := s.cursor
  saveCursor s epoch := { s with cursor := max s.cursor epoch }

/-- `epoch as i64`. -/
def asI64 (n : Nat) : Int := if n < UInt64.size / 2 then n else n - UInt64.size

/-- The rows of one document: the frames in the order of their epochs, and the cursor if there is
one. -/
structure SqliteStore (μ : Type) where
  rows : List (Int × μ)
  cursor : Option Int

instance : OutboxStore (SqliteStore μ) μ where
  put s epoch frame := { s with rows := insertEntry (asI64 epoch) frame s.rows }
  deleteThrough s epoch := { s with rows := s.rows.filter fun e => ¬e.1 ≤ asI64 epoch }
  scanAfter s cursor :=
    (s.rows.filter fun e => asI64 cursor < e.1).map fun e => ((max e.1 0).toNat, e.2)
  loadCursor s := s.cursor.elim 0 fun c => (max c 0).toNat
  saveCursor s epoch :=
    { s with cursor := some (s.cursor.elim (asI64 epoch) (max · (asI64 epoch))) }

structure Outbox (S : Type) where
  store : S
  ackedThrough : Nat

abbrev InMemoryOutbox (μ : Type) := Outbox (InMemoryStore μ)

namespace Outbox

open OutboxStore

variable {S : Type} [OutboxStore S μ]

def withStore (store : S) : Outbox S := ⟨store, loadCursor store⟩

variable (o : Outbox S)

def append (epoch : Nat) (frame : μ) : Outbox S :=
  { o with store := put o.store epoch frame }

def ackThrough (epoch : Nat) : Outbox S :=
  let target := max (max epoch o.ackedThrough) (loadCursor o.store)
  let o := if o.ackedThrough < target then ⟨saveCursor o.store target, target⟩ else o
  { o with store := deleteThrough o.store target }

def replayFrom (cursor : Nat) : List (Nat × μ) :=
  scanAfter o.store (max (max cursor o.ackedThrough) (loadCursor o.store))

def retainedEpochs : List Nat :=
  (scanAfter o.store (max o.ackedThrough (loadCursor o.store))).map Prod.fst

instance : DurableOutbox (Outbox S) μ := ⟨append, ackThrough, replayFrom, retainedEpochs⟩

end Outbox

/-! ## Runs -/

/-- A call of a store. -/
inductive StoreCall (μ : Type) where
  | put (epoch : Nat) (frame : μ)
  | deleteThrough (epoch : Nat)
  | scanAfter (cursor : Nat)
  | loadCursor
  | saveCursor (epoch : Nat)

namespace StoreCall

open OutboxStore

variable {S : Type} [OutboxStore S μ]

def epoch : StoreCall μ → Nat
  | .put epoch _ | .deleteThrough epoch | .scanAfter epoch | .saveCursor epoch => epoch
  | .loadCursor => 0

def step (s : S) : StoreCall μ → S
  | .put epoch frame => OutboxStore.put s epoch frame
  | .deleteThrough epoch => OutboxStore.deleteThrough s epoch
  | .saveCursor epoch => OutboxStore.saveCursor s epoch
  | .scanAfter _ | .loadCursor => s

/-- What the call returns: the frames of a scan, the cursor of a load. -/
def answer (s : S) : StoreCall μ → List (Nat × μ) × Option Nat
  | .scanAfter cursor => (OutboxStore.scanAfter s cursor, none)
  | .loadCursor => ([], some (OutboxStore.loadCursor s))
  | .put _ _ | .deleteThrough _ | .saveCursor _ => ([], none)

def answers (s : S) : List (StoreCall μ) → List (List (Nat × μ) × Option Nat)
  | [] => []
  | call :: calls => call.answer s :: answers (call.step s) calls

end StoreCall

/-- A change of an outbox. -/
inductive OutboxCall (μ : Type) where
  | append (epoch : Nat) (frame : μ)
  | ackThrough (epoch : Nat)

namespace OutboxCall

def epoch : OutboxCall μ → Nat
  | .append epoch _ | .ackThrough epoch => epoch

def step {S : Type} [OutboxStore S μ] (o : Outbox S) : OutboxCall μ → Outbox S
  | .append epoch frame => o.append epoch frame
  | .ackThrough epoch => o.ackThrough epoch

variable (calls : List (OutboxCall μ))

/-- The highest epoch acknowledged. -/
def acked : Nat :=
  calls.foldl (fun acked call => match call with
    | .append _ _ => acked
    | .ackThrough epoch => max acked epoch) 0

/-- The frame last appended under an epoch. -/
def appended (epoch : Nat) : Option μ :=
  calls.foldl (fun frame call => match call with
    | .append epoch' frame' => if epoch' = epoch then some frame' else frame
    | .ackThrough _ => frame) none

end OutboxCall

/-! ## Frames by epoch -/

def EpochsAscend (entries : List (Nat × μ)) : Prop := entries.Pairwise (·.1 < ·.1)

theorem insertEntry_spec (epoch : Nat) (frame : μ) {entries : List (Nat × μ)}
    (h : EpochsAscend entries) : EpochsAscend (insertEntry epoch frame entries) ∧
      ∀ e, e ∈ insertEntry epoch frame entries ↔
        e = (epoch, frame) ∨ e.1 ≠ epoch ∧ e ∈ entries := by
  induction entries with
  | nil => simp [insertEntry, EpochsAscend]
  | cons head rest ih =>
    obtain ⟨hhead, hrest⟩ := pairwise_cons.1 h
    obtain ⟨hasc, hmem⟩ := ih hrest
    have hgt : ∀ e ∈ rest, head.1 < e.1 := hhead
    unfold insertEntry
    split
    · refine ⟨pairwise_cons.2 ⟨fun e he => ?_, h⟩, fun e => ?_⟩
      · rcases mem_cons.1 he with rfl | he
        · assumption
        · have := hgt e he
          omega
      · simp only [mem_cons]
        grind
    · split
      · refine ⟨pairwise_cons.2 ⟨fun e he => ?_, hrest⟩, fun e => ?_⟩
        · have := hgt e he
          omega
        · simp only [mem_cons]
          grind
      · refine ⟨pairwise_cons.2 ⟨fun e he => ?_, hasc⟩, fun e => ?_⟩
        · rcases (hmem e).1 he with rfl | ⟨-, he⟩
          · simp only
            omega
          · exact hgt e he
        · simp only [mem_cons, hmem]
          grind

/-! ## Lawful stores -/

/-- A store that does with the epochs that fit what the store in memory does. -/
class LawfulStore (S : Type) (μ : outParam Type) [OutboxStore S μ] where
  Fits : Nat → Prop
  Sound : S → Prop
  contents : S → InMemoryStore μ
  put {s : S} {epoch : Nat} (frame : μ) : Sound s → Fits epoch →
    Sound (OutboxStore.put s epoch frame) ∧
      contents (OutboxStore.put s epoch frame) = OutboxStore.put (contents s) epoch frame
  deleteThrough {s : S} {epoch : Nat} : Sound s → Fits epoch →
    Sound (OutboxStore.deleteThrough s epoch) ∧
      contents (OutboxStore.deleteThrough s epoch) = OutboxStore.deleteThrough (contents s) epoch
  saveCursor {s : S} {epoch : Nat} : Sound s → Fits epoch →
    Sound (OutboxStore.saveCursor s epoch) ∧
      contents (OutboxStore.saveCursor s epoch) = OutboxStore.saveCursor (contents s) epoch
  scanAfter {s : S} {cursor : Nat} : Sound s → Fits cursor →
    OutboxStore.scanAfter s cursor = OutboxStore.scanAfter (contents s) cursor
  loadCursor {s : S} : Sound s → OutboxStore.loadCursor s = (contents s).cursor
  fits {s : S} : Sound s → Fits (contents s).cursor

instance : LawfulStore (InMemoryStore μ) μ where
  Fits _ := True
  Sound _ := True
  contents := id
  put _ _ _ := ⟨trivial, rfl⟩
  deleteThrough _ _ := ⟨trivial, rfl⟩
  saveCursor _ _ := ⟨trivial, rfl⟩
  scanAfter _ _ := rfl
  loadCursor _ := rfl
  fits _ := trivial

namespace Outbox

variable {S : Type} [OutboxStore S μ] [LawfulStore S μ]

/-- What the store of an outbox holds. -/
def contents (o : Outbox S) : InMemoryStore μ := LawfulStore.contents o.store

/-- The store is sound, and the outbox knows its cursor. -/
structure Sound (o : Outbox S) : Prop where
  store : LawfulStore.Sound o.store
  acked : o.ackedThrough = o.contents.cursor

variable {o : Outbox S} {epoch : Nat}

theorem sound_withStore {s : S} (h : LawfulStore.Sound s) : (withStore s).Sound :=
  ⟨h, LawfulStore.loadCursor h⟩

theorem fits_max {a b : Nat} (ha : LawfulStore.Fits S a) (hb : LawfulStore.Fits S b) :
    LawfulStore.Fits S (max a b) := by
  rcases Nat.le_total a b with h | h
  · rw [Nat.max_eq_right h]
    exact hb
  · rw [Nat.max_eq_left h]
    exact ha

namespace Sound

variable (h : o.Sound)
include h

theorem load : OutboxStore.loadCursor o.store = o.contents.cursor := LawfulStore.loadCursor h.store

theorem fits : LawfulStore.Fits S o.contents.cursor := LawfulStore.fits h.store

theorem append (hfits : LawfulStore.Fits S epoch) (frame : μ) : (o.append epoch frame).Sound ∧
    (o.append epoch frame).contents =
      ⟨insertEntry epoch frame o.contents.entries, o.contents.cursor⟩ := by
  obtain ⟨hsound, hcontents⟩ := LawfulStore.put frame h.store hfits
  refine ⟨⟨hsound, h.acked.trans ?_⟩, hcontents⟩
  exact (congrArg InMemoryStore.cursor hcontents).symm

theorem save (hfits : LawfulStore.Fits S epoch) (hle : o.contents.cursor ≤ epoch) :
    let saved : Outbox S := ⟨OutboxStore.saveCursor o.store epoch, epoch⟩
    saved.Sound ∧ saved.contents = ⟨o.contents.entries, epoch⟩ := by
  obtain ⟨hsound, hcontents⟩ := LawfulStore.saveCursor h.store hfits
  have heq : OutboxStore.saveCursor o.contents epoch = ⟨o.contents.entries, epoch⟩ :=
    congrArg (InMemoryStore.mk _) (Nat.max_eq_right hle)
  have hsaved := hcontents.trans heq
  exact ⟨⟨hsound, (congrArg InMemoryStore.cursor hsaved).symm⟩, hsaved⟩

theorem prune :
    let pruned : Outbox S := { o with store := OutboxStore.deleteThrough o.store o.contents.cursor }
    pruned.Sound ∧ pruned.contents =
      ⟨o.contents.entries.filter fun e => o.contents.cursor < e.1, o.contents.cursor⟩ := by
  obtain ⟨hsound, hcontents⟩ := LawfulStore.deleteThrough h.store h.fits
  exact ⟨⟨hsound, h.acked.trans (congrArg InMemoryStore.cursor hcontents).symm⟩, hcontents⟩

theorem ackThrough (hfits : LawfulStore.Fits S epoch) : (o.ackThrough epoch).Sound ∧
    (o.ackThrough epoch).contents =
      ⟨o.contents.entries.filter fun e => max o.contents.cursor epoch < e.1,
        max o.contents.cursor epoch⟩ := by
  have htarget : max (max epoch o.contents.cursor) o.contents.cursor =
      max o.contents.cursor epoch := by omega
  unfold Outbox.ackThrough
  simp only [h.load, h.acked, htarget]
  split
  · obtain ⟨hsaved, hcontents⟩ := h.save (fits_max h.fits hfits) (Nat.le_max_left _ epoch)
    have hpruned := hsaved.prune
    rw [hcontents] at hpruned
    exact hpruned
  · have hsame : max o.contents.cursor epoch = o.contents.cursor := by omega
    rw [hsame]
    exact h.prune

theorem replayFrom {cursor : Nat} (hfits : LawfulStore.Fits S (max cursor o.contents.cursor)) :
    o.replayFrom cursor = OutboxStore.scanAfter o.contents (max cursor o.contents.cursor) := by
  unfold Outbox.replayFrom
  rw [h.acked, h.load, Nat.max_assoc, Nat.max_self]
  exact LawfulStore.scanAfter h.store hfits

theorem retainedEpochs : o.retainedEpochs =
    (OutboxStore.scanAfter o.contents o.contents.cursor).map Prod.fst := by
  unfold Outbox.retainedEpochs
  rw [h.acked, h.load, Nat.max_self]
  exact congrArg _ (LawfulStore.scanAfter h.store h.fits)

end Sound

end Outbox

/-! ## The SQLite store -/

/-- The stores hold the same frames and cursor, all epochs below `2 ^ 63`. -/
structure SameStore (m : InMemoryStore μ) (s : SqliteStore μ) : Prop where
  rows : s.rows = m.entries.map fun e => ((e.1 : Int), e.2)
  cursor : s.cursor = none ∧ m.cursor = 0 ∨ s.cursor = some (m.cursor : Int)
  small : m.cursor < UInt64.size / 2

namespace SameStore

open OutboxStore

variable {m : InMemoryStore μ} {s : SqliteStore μ} {epoch n : Nat}

theorem asI64_of_lt (h : n < UInt64.size / 2) : asI64 n = n := if_pos h

theorem saturatingSucc_of_lt (h : n < UInt64.size / 2) : saturatingSucc n = n + 1 := by
  have : UInt64.size / 2 < 2 ^ 64 - 1 := by decide
  unfold saturatingSucc
  omega

theorem insertEntry_map (epoch : Nat) (frame : μ) (entries : List (Nat × μ)) :
    insertEntry (epoch : Int) frame (entries.map fun e => ((e.1 : Int), e.2)) =
      (insertEntry epoch frame entries).map fun e => ((e.1 : Int), e.2) := by
  induction entries with
  | nil => rfl
  | cons e es ih =>
    simp only [map_cons, insertEntry, Int.ofNat_lt, Int.ofNat_inj, ih]
    split
    · rfl
    · split <;> rfl

variable (h : SameStore m s)
include h

section

variable (hlt : epoch < UInt64.size / 2)
include hlt

theorem put (frame : μ) : SameStore (put m epoch frame) (put s epoch frame) where
  rows := by
    simp only [OutboxStore.put, asI64_of_lt hlt, h.rows, insertEntry_map]
  cursor := h.cursor
  small := h.small

theorem deleteThrough : SameStore (deleteThrough m epoch) (deleteThrough s epoch) where
  rows := by
    simp [OutboxStore.deleteThrough, asI64_of_lt hlt, h.rows, filter_map, Function.comp_def]
  cursor := h.cursor
  small := h.small

theorem saveCursor : SameStore (saveCursor m epoch) (saveCursor s epoch) where
  rows := h.rows
  cursor := by
    rcases h.cursor with ⟨hs, hm⟩ | hs
    · simp [OutboxStore.saveCursor, asI64_of_lt hlt, hs, hm]
    · simp only [OutboxStore.saveCursor, asI64_of_lt hlt, hs, Option.elim_some]
      exact .inr (congrArg some (by omega))
  small := by
    have := h.small
    simp only [OutboxStore.saveCursor]
    omega

end

theorem loadCursor : loadCursor s = m.cursor := by
  rcases h.cursor with ⟨hs, hm⟩ | hs
  · simp [OutboxStore.loadCursor, hs, hm]
  · simp [OutboxStore.loadCursor, hs]

theorem scanAfter {cursor : Nat} (hlt : cursor < UInt64.size / 2) :
    scanAfter s cursor = scanAfter m cursor := by
  simp only [OutboxStore.scanAfter, asI64_of_lt hlt, h.rows, filter_map, Function.comp_def,
    Int.ofNat_lt, Nat.lt_iff_add_one_le, List.map_map, Int.natCast_nonneg, sup_of_le_left,
    Int.toNat_natCast, Prod.mk.eta, List.map_id_fun', id_eq, saturatingSucc_of_lt hlt]

end SameStore

/-- The rows read back as epochs. -/
def SqliteStore.contents (s : SqliteStore μ) : InMemoryStore μ :=
  ⟨s.rows.map fun e => (e.1.toNat, e.2), OutboxStore.loadCursor s⟩

theorem SameStore.contents {m : InMemoryStore μ} {s : SqliteStore μ} (h : SameStore m s) :
    s.contents = m := by
  unfold SqliteStore.contents
  rw [h.loadCursor, h.rows]
  simp [Function.comp_def]

/-- While the epochs are below `2 ^ 63` the SQLite store is lawful. -/
instance : LawfulStore (SqliteStore μ) μ where
  Fits epoch := epoch < UInt64.size / 2
  Sound s := SameStore s.contents s
  contents := SqliteStore.contents
  put frame h hlt := by
    have hput := h.put hlt frame
    rw [hput.contents]
    exact ⟨hput, rfl⟩
  deleteThrough h hlt := by
    have hdelete := h.deleteThrough hlt
    rw [hdelete.contents]
    exact ⟨hdelete, rfl⟩
  saveCursor h hlt := by
    have hsave := h.saveCursor hlt
    rw [hsave.contents]
    exact ⟨hsave, rfl⟩
  scanAfter h hlt := h.scanAfter hlt
  loadCursor h := h.loadCursor
  fits h := h.small

/-! ## Answers and replays -/

namespace StoreCall

variable {S : Type} [OutboxStore S μ] [LawfulStore S μ]

/-- A lawful store answers as the store in memory. -/
theorem answers_eq {s : S} (h : LawfulStore.Sound s) {calls : List (StoreCall μ)}
    (hfits : ∀ call ∈ calls, LawfulStore.Fits S call.epoch) :
    answers s calls = answers (LawfulStore.contents s) calls := by
  induction calls generalizing s with
  | nil => rfl
  | cons call calls ih =>
    obtain ⟨hcall, hrest⟩ := forall_mem_cons.1 hfits
    cases call with
    | put epoch frame =>
      obtain ⟨hsound, heq⟩ := LawfulStore.put frame h hcall
      exact congrArg _ ((ih hsound hrest).trans (congrArg (answers · calls) heq))
    | deleteThrough epoch =>
      obtain ⟨hsound, heq⟩ := LawfulStore.deleteThrough h hcall
      exact congrArg _ ((ih hsound hrest).trans (congrArg (answers · calls) heq))
    | saveCursor epoch =>
      obtain ⟨hsound, heq⟩ := LawfulStore.saveCursor h hcall
      exact congrArg _ ((ih hsound hrest).trans (congrArg (answers · calls) heq))
    | scanAfter cursor =>
      exact congrArg₂ _ (congrArg (·, none) (LawfulStore.scanAfter h hcall)) (ih h hrest)
    | loadCursor =>
      exact congrArg₂ _ (congrArg (([], some ·)) (LawfulStore.loadCursor h)) (ih h hrest)

end StoreCall

def emptyMemory : InMemoryStore μ := ⟨[], 0⟩

def emptySqlite : SqliteStore μ := ⟨[], none⟩

theorem sound_emptySqlite : LawfulStore.Sound (emptySqlite : SqliteStore μ) :=
  ⟨rfl, .inl ⟨rfl, rfl⟩, (by decide : 0 < UInt64.size / 2)⟩

/-- A store that holds the frames last appended past what is acknowledged. -/
structure Holds (acked : Nat) (frames : Nat → Option μ) (m : InMemoryStore μ) : Prop where
  cursor : m.cursor = acked
  ascend : EpochsAscend m.entries
  held : ∀ e, acked < e.1 → (e ∈ m.entries ↔ frames e.1 = some e.2)

namespace OutboxCall

variable {S : Type} [OutboxStore S μ] [LawfulStore S μ]

theorem holds_run (o : Outbox S) (ho : o.Sound) (hempty : o.contents = emptyMemory)
    (calls : List (OutboxCall μ)) (hfits : ∀ call ∈ calls, LawfulStore.Fits S call.epoch) :
    (calls.foldl step o).Sound ∧
      Holds (acked calls) (appended calls) (calls.foldl step o).contents := by
  induction calls using reverseRecOn with
  | nil =>
    refine ⟨ho, ?_⟩
    rw [foldl_nil, hempty]
    exact ⟨rfl, .nil, fun e _ => by simp [emptyMemory, appended]⟩
  | append_singleton calls call ih =>
    obtain ⟨hcalls, hcall⟩ := forall_mem_append.1 hfits
    have hepoch := hcall call (mem_singleton.2 rfl)
    obtain ⟨hsound, hholds⟩ := ih hcalls
    unfold acked appended
    simp only [foldl_append, foldl_cons, foldl_nil]
    cases call with
    | append epoch frame =>
      have hepoch : LawfulStore.Fits S epoch := hepoch
      obtain ⟨hsound', hcontents⟩ := hsound.append hepoch frame
      obtain ⟨hasc, hput⟩ := insertEntry_spec epoch frame hholds.ascend
      refine ⟨hsound', ?_⟩
      rw [step, hcontents]
      refine ⟨hholds.cursor, hasc, fun e he => (hput e).trans ?_⟩
      rw [hholds.held e he]
      simp only [appended]
      grind
    | ackThrough epoch =>
      have hepoch : LawfulStore.Fits S epoch := hepoch
      obtain ⟨hsound', hcontents⟩ := hsound.ackThrough hepoch
      refine ⟨hsound', ?_⟩
      rw [step, hcontents, hholds.cursor]
      refine ⟨rfl, hholds.ascend.filter _, fun e he => ?_⟩
      have he : max (acked calls) epoch < e.1 := he
      rw [mem_filter, decide_eq_true he, hholds.held e (by omega)]
      exact and_iff_left rfl

end OutboxCall

/-- What an outbox replays is determined by what was appended and acknowledged. -/
theorem Holds.replayFrom {S : Type} [OutboxStore S μ] [LawfulStore S μ] {o : Outbox S}
    {acked cursor : Nat} {frames : Nat → Option μ} (h : Holds acked frames o.contents)
    (ho : o.Sound) (hfits : LawfulStore.Fits S cursor) (hlt : max cursor acked < UInt64.size / 2) :
    EpochsAscend (o.replayFrom cursor) ∧ ∀ e, e ∈ o.replayFrom cursor ↔
      max cursor acked < e.1 ∧ frames e.1 = some e.2 := by
  rw [ho.replayFrom (Outbox.fits_max hfits ho.fits), h.cursor]
  refine ⟨h.ascend.filter _, fun e => ?_⟩
  simp only [OutboxStore.scanAfter, SameStore.saturatingSucc_of_lt hlt, mem_filter,
    decide_eq_true_eq]
  rw [and_comm]
  exact and_congr_right fun he => h.held e (by omega)

/-- **The SQLite outbox.** While every epoch is below `2 ^ 63` the SQLite store answers every call
as the store in memory does, and an outbox over either replays, ascending, the frames last appended
under the epochs past the cursor and the acknowledged one. -/
theorem sqlite_refines (calls : List (StoreCall μ)) (ops : List (OutboxCall μ)) (cursor : Nat)
    (hcalls : ∀ call ∈ calls, call.epoch < UInt64.size / 2)
    (hops : ∀ op ∈ ops, op.epoch < UInt64.size / 2) (hcursor : cursor < UInt64.size / 2) :
    StoreCall.answers (emptySqlite : SqliteStore μ) calls = StoreCall.answers emptyMemory calls ∧
    let memory : Outbox (InMemoryStore μ) := ops.foldl OutboxCall.step (.withStore emptyMemory)
    let sqlite : Outbox (SqliteStore μ) := ops.foldl OutboxCall.step (.withStore emptySqlite)
    sqlite.replayFrom cursor = memory.replayFrom cursor ∧
      EpochsAscend (memory.replayFrom cursor) ∧
      ∀ epoch frame, (epoch, frame) ∈ memory.replayFrom cursor ↔
        max cursor (OutboxCall.acked ops) < epoch ∧ OutboxCall.appended ops epoch = some frame := by
  obtain ⟨hm, hholds⟩ := OutboxCall.holds_run (.withStore emptyMemory : Outbox (InMemoryStore μ))
    (Outbox.sound_withStore trivial) rfl ops fun _ _ => trivial
  obtain ⟨hs, hholds'⟩ := OutboxCall.holds_run (.withStore emptySqlite : Outbox (SqliteStore μ))
    (Outbox.sound_withStore sound_emptySqlite) rfl ops hops
  have hlt : max cursor (OutboxCall.acked ops) < UInt64.size / 2 := by
    rw [← hholds'.cursor]
    exact max_lt hcursor hs.fits
  obtain ⟨hasc, hmem⟩ := hholds.replayFrom hm trivial hlt
  obtain ⟨hasc', hmem'⟩ := hholds'.replayFrom hs hcursor hlt
  refine ⟨StoreCall.answers_eq sound_emptySqlite hcalls, ?_, hasc,
    fun epoch frame => hmem (epoch, frame)⟩
  exact hasc'.eq_of_mem_iff hasc fun e => (hmem' e).trans (hmem e).symm

/-- Three appends, the second frame replaced, the first acknowledged. -/
theorem sqlite_refines_replaced :
    let ops : List (OutboxCall Nat) :=
      [.append 1 10, .append 2 20, .append 2 21, .append 3 30, .ackThrough 1]
    let sqlite : Outbox (SqliteStore Nat) := ops.foldl OutboxCall.step (.withStore emptySqlite)
    let memory : Outbox (InMemoryStore Nat) := ops.foldl OutboxCall.step (.withStore emptyMemory)
    memory.replayFrom 0 = [(2, 21), (3, 30)] ∧ sqlite.replayFrom 0 = memory.replayFrom 0 :=
  ⟨by decide, (sqlite_refines [] _ 0 (by simp) (by decide) (by decide)).2.1⟩

/-- A frame under the epoch `2 ^ 63` is kept in memory, and lost in SQLite to every scan. -/
theorem large_epoch_never_replayed :
    let calls : List (StoreCall Nat) := [.put (UInt64.size / 2) 7, .scanAfter 0]
    StoreCall.answers emptyMemory calls = [([], none), ([(UInt64.size / 2, 7)], none)] ∧
      StoreCall.answers (emptySqlite : SqliteStore Nat) calls = [([], none), ([], none)] := by
  decide


end Lazily.Sync
