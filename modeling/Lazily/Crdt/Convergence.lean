import Lazily.Crdt.Isolation
import Lazily.Crdt.Network
import Lazily.Lib.Latest

/-!
# Convergence of last-writer-wins keys

Replicas that start with the same registers under the same keys, write locally and ingest each
other's ops. `lww_convergence`: if every write that moves a stamp also changes the value, what is
written comes through the codec as it was, new family entries belong to a registered family, and
every ingested op is addressed, then replicas with the same ops hold the same cell under every key:
the latest of the initial register and the ops of the key (`Settled.latest`). A write of the current
value moves the stamp without an op, and the replicas part (`equal_write_diverges`).
-/

namespace Lazily.Crdt

open Lib Registry Std.ExtTreeMap Option ReplicatedCell CrdtPlaneRuntime LwwRegister Net OpLog
open KeyIndex

namespace Registry

variable {C V : Type} {reg : Registry C V}

def stateOf (reg : Registry C V) (key : NodeKey) : Option C := (reg.cellOf key).map (·.crdt)

theorem cellOf_putCell (node : NodeId) (cell : ReplicatedCell C V) (key : NodeKey) :
    (reg.putCell node cell).cellOf key =
      if reg.keys.nodeForKey key = some node then some cell else reg.cellOf key := by
  show ((reg.keys.nodeForKey key).bind fun n => (reg.cells.insert node cell)[n]?) = _
  unfold cellOf
  cases hn : reg.keys.nodeForKey key with
  | none => rfl
  | some n =>
    by_cases h : node = n
    · subst h
      simp
    · have h' : ¬n = node := fun heq => h heq.symm
      simp [getElem?_insert, h, h']

variable {key : NodeKey}

theorem cellOf_eq_none_iff : reg.cellOf key = none ↔ reg.keys.nodeForKey key = none := by
  unfold cellOf
  cases hn : reg.keys.nodeForKey key with
  | none => simp
  | some n =>
    obtain ⟨cell, hcell⟩ := isSome_iff_exists.1 (mem_iff_isSome_getElem?.1 (reg.resolves key n hn))
    simp [hcell]

variable [CellCrdt C V]

theorem cellOf_addFamilyEntry (name : Str) (crdt : C) (hkey : reg.keys.nodeForKey key = none)
    (k : NodeKey) : (reg.addFamilyEntry name key crdt).cellOf k =
      if k = key then some (.bind crdt) else reg.cellOf k := by
  show (((reg.keys.insert key reg.mintFamilyNode).nodeForKey k).bind fun n =>
    (reg.cells.insert reg.mintFamilyNode (.bind crdt))[n]?) = _
  by_cases hk : k = key
  · subst hk
    simp
  · rw [if_neg hk, nodeForKey_insert_ne _ hk]
    have hmint : reg.keys.nodeForKey k ≠ some reg.mintFamilyNode :=
      fun h => reg.mintFamilyNode_not_mem (reg.resolves k _ h)
    rw [if_neg hmint]
    unfold cellOf
    cases hn : reg.keys.nodeForKey k with
    | none => rfl
    | some n =>
      have hne : ¬reg.mintFamilyNode = n := fun h => hmint (by rw [hn, h])
      simp [getElem?_insert, hne]

end Registry

/-! ## One replica -/

section Replica

variable {T : Type} (initial : NodeKey → Option (LwwRegister T)) (names : List Str)

/-- The registers that compete for a key: the initial one and those of the ops for it. -/
def candidates (log : OpLog (CrdtOp (LwwRegister T))) (key : NodeKey) : Set (LwwRegister T) :=
  {r | initial key = some r ∨ ∃ (s : HlcStamp) (op : CrdtOp (LwwRegister T)),
    log.ops[s]? = some op ∧ op.key = some key ∧ op.state = .inline (some r)}

/-- The key belongs to a registered family. -/
def InFamily (key : NodeKey) : Prop := ∃ name ∈ names, key.segments.head? = some name

/-- An op of a register: stamped as its state, later than the initial register of its key, and in a
registered family if there is none. -/
def WellFormed (op : CrdtOp (LwwRegister T)) : Prop :=
  ∃ c : LwwRegister T, op.state = .inline (some c) ∧ c.stamp = op.stamp ∧
    ∀ key, op.key = some key →
      (∀ r, initial key = some r → r.stamp < op.stamp) ∧ (initial key = none → InFamily names key)

/-- A registry holds under every key the latest of its candidates, and has published it. -/
structure Settled (log : OpLog (CrdtOp (LwwRegister T))) (reg : Registry (LwwRegister T) T) :
    Prop where
  families : reg.families = names.map lwwFamilyFactory
  latest : ∀ key, IsLatest LwwRegister.stamp (candidates initial log key) (reg.stateOf key)
  published : ∀ (n : NodeId) cell, reg.cells[n]? = some cell → cell.published = cell.crdt.value

variable {initial names} {log : OpLog (CrdtOp (LwwRegister T))} {reg : Registry (LwwRegister T) T}
  {key : NodeKey} {r : LwwRegister T} {node : NodeId} {cell : ReplicatedCell (LwwRegister T) T}
  {nowMicros : Nat}
  {op : CrdtOp (LwwRegister T)} {c : LwwRegister T}

theorem candidates_store (hfresh : op.stamp ∉ log.ops) (hstate : op.state = .inline (some c))
    (key : NodeKey) : candidates initial (log.store op.stamp op) key =
      if op.key = some key then insert c (candidates initial log key)
      else candidates initial log key := by
  have hget : ∀ s o, (log.store op.stamp op).ops[s]? = some o ↔
      op.stamp = s ∧ op = o ∨ log.ops[s]? = some o := by
    intro s o
    rw [getElem?_store]
    by_cases hs : op.stamp = s
    · subst hs
      simp [getElem?_eq_none hfresh]
    · simp [hs]
  ext r
  simp only [candidates, hget]
  split
  · rename_i hkey
    simp only [Set.mem_insert_iff, Set.mem_ofPred_eq]
    constructor
    · rintro (h | ⟨s, o, ⟨-, rfl⟩ | hs, hk, hr⟩)
      · exact .inr (.inl h)
      · rw [hstate] at hr
        cases hr
        exact .inl rfl
      · exact .inr (.inr ⟨s, o, hs, hk, hr⟩)
    · rintro (rfl | h | ⟨s, o, hs, hk, hr⟩)
      · exact .inr ⟨op.stamp, op, .inl ⟨rfl, rfl⟩, hkey, hstate⟩
      · exact .inl h
      · exact .inr ⟨s, o, .inr hs, hk, hr⟩
  · rename_i hkey
    constructor
    · rintro (h | ⟨s, o, ⟨-, rfl⟩ | hs, hk, hr⟩)
      · exact .inl h
      · exact absurd hk hkey
      · exact .inr ⟨s, o, hs, hk, hr⟩
    · rintro (h | ⟨s, o, hs, hk, hr⟩)
      · exact .inl h
      · exact .inr ⟨s, o, .inr hs, hk, hr⟩

section

variable (h : Settled initial names log reg)
include h

/-- Storing an op while its key takes the later of its own state and the new one. -/
theorem Settled.store {reg' : Registry (LwwRegister T) T}
    (hfresh : op.stamp ∉ log.ops) (hstate : op.state = .inline (some c))
    (hfamilies : reg'.families = reg.families)
    (hpublished : ∀ (n : NodeId) cell, reg'.cells[n]? = some cell →
      cell.published = cell.crdt.value) (hlater : ∀ key, reg'.stateOf key =
      if op.key = some key then some (later stamp (reg.stateOf key) c)
      else reg.stateOf key) : Settled initial names (log.store op.stamp op) reg' := by
  refine ⟨hfamilies.trans h.families, fun key => ?_, hpublished⟩
  rw [candidates_store hfresh hstate, hlater]
  split
  · exact (h.latest key).insert c
  · exact h.latest key

theorem Settled.initial_le {r0 : LwwRegister T}
    (hr : reg.stateOf key = some r) (h0 : initial key = some r0) : r0.stamp ≤ r.stamp := by
  have hlatest := h.latest key
  rw [hr] at hlatest
  exact hlatest.2 r0 (.inl h0)

theorem Settled.initial_none (hkey : reg.keys.nodeForKey key = none) : initial key = none := by
  have hlatest := h.latest key
  rw [stateOf, cellOf_eq_none_iff.2 hkey] at hlatest
  have hempty : candidates initial log key = ∅ := hlatest
  cases h0 : initial key with
  | none => rfl
  | some r =>
    have hmem : r ∈ candidates initial log key := .inl h0
    rw [hempty] at hmem
    cases hmem

theorem Settled.published_insert
    (hcell : cell.published = cell.crdt.value) (n : NodeId) (x : ReplicatedCell (LwwRegister T) T)
    (hx : (reg.cells.insert node cell)[n]? = some x) : x.published = x.crdt.value := by
  rw [getElem?_insert] at hx
  split at hx
  · cases hx
    exact hcell
  · exact h.published n x hx

omit h in
theorem stateOf_of_keyForNode (hkey : reg.keys.keyForNode node = some key)
    (hcell : reg.cells[node]? = some cell) : reg.stateOf key = some cell.crdt := by
  simp [stateOf, cellOf, reg.keys.nodeForKey_eq_iff.2 hkey, hcell]

theorem Settled.put_same
    (hcell : reg.cells[node]? = some cell) : Settled initial names log (reg.putCell node cell) := by
  refine ⟨h.families, fun key => ?_, h.published_insert (h.published node cell hcell)⟩
  have hsame : (reg.putCell node cell).stateOf key = reg.stateOf key := by
    rw [stateOf, cellOf_putCell]
    split
    · rename_i hn
      rw [stateOf_of_keyForNode (reg.keys.nodeForKey_eq_iff.1 hn) hcell, map_some]
    · rfl
  rw [hsame]
  exact h.latest key

/-- A new state for the cell of a key, which the old state does not beat. -/
theorem Settled.store_cell
    {cell' : ReplicatedCell (LwwRegister T) T} (hcell : reg.cells[node]? = some cell)
    (hkey : op.key = reg.keys.keyForNode node) (hfresh : op.stamp ∉ log.ops)
    (hstate : op.state = .inline (some c)) (hpublished : cell'.published = cell'.crdt.value)
    (hlater : cell'.crdt = later stamp (some cell.crdt) c) :
    Settled initial names (log.store op.stamp op) (reg.putCell node cell') := by
  refine h.store hfresh hstate rfl (h.published_insert hpublished) fun k => ?_
  rw [stateOf, cellOf_putCell, hkey]
  simp only [reg.keys.nodeForKey_eq_iff]
  split
  · rename_i hk
    rw [stateOf_of_keyForNode hk hcell, ← hlater]
    rfl
  · rfl

theorem Settled.withPlane (plane : CrdtPlane) :
    Settled initial names log { reg with plane := plane } :=
  ⟨h.families, h.latest, h.published⟩

end

variable [DecidableEq T]

/-! ## Remote ops -/

theorem materialize_lww (hfamilies : reg.families = names.map lwwFamilyFactory)
    (hkey : op.key = some key) (hfamily : InFamily names key) :
    ∃ name, reg.materialize op (some c) = reg.addFamilyEntry name key c := by
  obtain ⟨name, hname, hhead⟩ := hfamily
  refine ⟨name, ?_⟩
  have hfind : ∃ family, reg.families.find? (fun f => f.namespaceName = name) = some family ∧
      family.materialize = some := by
    cases hf : reg.families.find? fun f => f.namespaceName = name with
    | none =>
      rw [hfamilies, List.find?_eq_none] at hf
      exact absurd (decide_eq_true rfl) (hf (lwwFamilyFactory name) (List.mem_map_of_mem hname))
    | some family =>
      have hmem := List.mem_of_find?_eq_some hf
      rw [hfamilies] at hmem
      obtain ⟨name', -, rfl⟩ := List.mem_map.1 hmem
      exact ⟨_, rfl, rfl⟩
  obtain ⟨family, hfind, hmat⟩ := hfind
  simp only [materialize, hkey, hhead, hfind, bind_some, hmat]

theorem mergeState_crdt (cell : ReplicatedCell (LwwRegister T) T) :
    (mergeState cell (some c)).crdt = later stamp (some cell.crdt) c := by
  simp only [mergeState, mergeRemote_crdt, mergeFrom_fst, later, elim_some]

theorem mergeState_published (h : cell.published = cell.crdt.value)
    (state : Option (LwwRegister T)) :
    (mergeState cell state).published = (mergeState cell state).crdt.value := by
  cases state with
  | none => exact h
  | some remote =>
    by_cases hlt : cell.crdt.stamp < remote.stamp
    · by_cases hv : cell.crdt.value = remote.value
      · simp [mergeState, mergeRemote, CellCrdt.mergeFrom, hlt, hv, h]
      · simp [mergeState, mergeRemote, CellCrdt.mergeFrom, hlt, hv, CellCrdt.value]
    · simp [mergeState, mergeRemote, CellCrdt.mergeFrom, hlt, h]

theorem Settled.store_entry (h : Settled initial names log reg) (hkey : op.key = some key)
    (hnode : reg.keys.nodeForKey key = none) (hfresh : op.stamp ∉ log.ops)
    (hstate : op.state = .inline (some c)) (name : Str) :
    Settled initial names (log.store op.stamp op) (reg.addFamilyEntry name key c) := by
  refine h.store hfresh hstate rfl (h.published_insert rfl) fun k => ?_
  rw [hkey, stateOf, cellOf_addFamilyEntry name c hnode]
  by_cases hk : k = key
  · subst hk
    have hold : reg.stateOf k = none := by
      rw [stateOf, cellOf_eq_none_iff.2 hnode, map_none]
    rw [if_pos rfl, if_pos rfl, hold]
    rfl
  · rw [if_neg hk, if_neg (by simpa using fun h => hk h.symm)]
    rfl

/-- What an addressed op does to a settled registry. -/
theorem Settled.route (h : Settled initial names log reg) (hop : WellFormed initial names op)
    (haddr : reg.Addressed op) (hfresh : op.stamp ∉ log.ops) :
    Settled initial names (log.store op.stamp op) (reg.route op) := by
  obtain ⟨c, hstate, -, hkeys⟩ := hop
  unfold Registry.Addressed at haddr
  cases hkey : op.key with
  | none =>
    -- a keyless op reaches a cell without a key, or none
    rw [hkey] at haddr
    have htarget : reg.target op = op.node := by simp [target, hkey]
    cases hcell : reg.cells[op.node]? with
    | none =>
      have hroute : reg.route op = reg := by
        simp only [Registry.route, hstate, htarget, hcell, Registry.materialize, hkey]
      rw [hroute]
      exact h.store hfresh hstate rfl h.published fun key => by
        rw [hkey, if_neg (some_ne_none key).symm]
    | some cell =>
      have hroute : reg.route op = reg.putCell op.node (mergeState cell (some c)) := by
        simp only [Registry.route, hstate, htarget, hcell]
      rw [hroute]
      exact h.store_cell hcell (hkey.trans haddr.symm) hfresh hstate
        (mergeState_published (h.published _ _ hcell) _) (mergeState_crdt cell)
  | some k =>
    rw [hkey] at haddr
    cases hnode : reg.keys.nodeForKey k with
    | some node =>
      obtain ⟨cell, hcell⟩ := isSome_iff_exists.1
        (mem_iff_isSome_getElem?.1 (reg.resolves k node hnode))
      rw [route_known hkey hnode hcell hstate]
      exact h.store_cell hcell (hkey.trans (reg.keys.nodeForKey_eq_iff.1 hnode).symm) hfresh hstate
        (mergeState_published (h.published _ _ hcell) _) (mergeState_crdt cell)
    | none =>
      have hraw : op.node ∉ reg.cells := haddr.resolve_left fun hne => hne hnode
      obtain ⟨name, hmat⟩ := materialize_lww h.families hkey
        ((hkeys k hkey).2 (h.initial_none hnode))
      rw [route_unknown hkey hnode hraw hstate, hmat]
      exact h.store_entry hkey hnode hfresh hstate name

/-- **A batch** of addressed ops settles what it leaves. -/
theorem Settled.foldl (nowMicros : Nat) : ∀ batch acc,
      Settled initial names acc.1 acc.2.1 → CrdtPlaneRuntime.CleanFrom nowMicros acc batch →
      (∀ e ∈ batch, e.1 = e.2.stamp ∧ WellFormed initial names e.2) →
      let acc' := batch.foldl (applyOne (applyOp nowMicros)) acc
      Settled initial names acc'.1 acc'.2.1
  | [], _, h, _, _ => h
  | (s, op) :: batch, acc, h, hclean, hops => by
    obtain ⟨haddr, hclean⟩ := hclean
    obtain ⟨⟨hs, hop⟩, htail⟩ := List.forall_mem_cons.1 hops
    obtain rfl : s = op.stamp := hs
    refine Settled.foldl nowMicros batch _ ?_ hclean htail
    unfold applyOne
    split
    · exact h
    · rename_i hfresh
      exact (h.withPlane _).route hop (haddr hfresh) hfresh

/-! ## Local writes -/

/-- A replica of the session: settled, with well-formed ops in its log. -/
structure LwwReplica (initial : NodeKey → Option (LwwRegister T)) (names : List Str)
    (rt : CrdtPlaneRuntime (LwwRegister T) T) : Prop
    extends Settled initial names rt.log rt.toRegistry where
  wellFormed : ∀ (s : HlcStamp) op, rt.log.ops[s]? = some op → WellFormed initial names op

/-- The closure of a local edit writes through `set` with the stamp it is given. -/
def WritesLww (mutate : LwwRegister T → HlcStamp → LwwRegister T) : Prop :=
  ∀ r stamp, ∃ v, mutate r stamp = (r.set v stamp).1

variable [StateCodec (LwwRegister T)]

/-- A local edit that moves the register of the cell changes its value, to one that the codec brings
over as it is. -/
def Announces (rt : CrdtPlaneRuntime (LwwRegister T) T) (node : NodeId) (nowMicros : Nat)
    (mutate : LwwRegister T → HlcStamp → LwwRegister T) : Prop :=
  ∀ cell, rt.cells[node]? = some cell →
    let new := mutate cell.crdt (rt.plane.tick nowMicros).2
    new = cell.crdt ∨ new.value ≠ cell.crdt.value ∧ StateCodec.RoundTrips new

variable {rt : CrdtPlaneRuntime (LwwRegister T) T}
    {mutate : LwwRegister T → HlcStamp → LwwRegister T}

variable (h : LwwReplica initial names rt)
include h

omit [DecidableEq T] [StateCodec (LwwRegister T)] in
/-- A key that is neither initial nor of a family has no state. -/
theorem LwwReplica.inFamily (hr : rt.stateOf key = some r)
    (hnone : initial key = none) : InFamily names key := by
  have hlatest := h.latest key
  rw [hr] at hlatest
  rcases hlatest.1 with h0 | ⟨s, op, hs, hkey, -⟩
  · rw [hnone] at h0
    cases h0
  · obtain ⟨-, -, -, hkeys⟩ := h.wellFormed s op hs
    exact (hkeys key hkey).2 hnone

omit [DecidableEq T] in
/-- An op for a state that comes through the codec. -/
theorem LwwReplica.emit {rt' : CrdtPlaneRuntime (LwwRegister T) T}
    (op : CrdtOp (LwwRegister T)) (hlog : rt'.log = rt.log) (hfresh : op.stamp ∉ rt.log.ops)
    (hstate : op.state = .inline (some c)) (hround : StateCodec.RoundTrips c)
    (hop : WellFormed initial names op)
    (hsettled : Settled initial names (rt.log.store op.stamp op) rt'.toRegistry) :
    LwwReplica initial names (rt'.emit (opFor op.node op.key op.stamp c)).1 := by
  obtain ⟨bytes, hencode, hdecode⟩ := hround
  have hemit : opFor op.node op.key op.stamp c = some op := by
    rw [opFor, hencode, map_some, hdecode, ← hstate]
  rw [hemit]
  have hrecord : (rt'.emit (some op)).1.log = rt.log.store op.stamp op := by
    show (rt'.log.record op.stamp op).1 = _
    rw [hlog, record_fresh hfresh]
  refine ⟨hrecord ▸ hsettled, fun s o hs => ?_⟩
  rw [hrecord, getElem?_store] at hs
  split at hs
  · cases hs
    exact hop
  · exact h.wellFormed s o hs

theorem LwwReplica.localUpdate
    (hfresh : (rt.plane.tick nowMicros).2 ∉ rt.log.ops) (hwrites : WritesLww mutate)
    (hann : Announces rt node nowMicros mutate) :
    LwwReplica initial names (rt.localUpdate node nowMicros mutate).1 := by
  simp only [CrdtPlaneRuntime.localUpdate]
  split
  · exact ⟨h.withPlane _, h.wellFormed⟩
  · rename_i cell hcell
    obtain ⟨v, hv⟩ := hwrites cell.crdt (rt.plane.tick nowMicros).2
    split
    · rename_i hchanged
      -- the value has changed, so the write was adopted
      have hne : (mutate cell.crdt (rt.plane.tick nowMicros).2).value ≠ cell.crdt.value :=
        (update_snd cell _).1 hchanged
      have hround := ((hann cell hcell).resolve_left fun heq => hne (by rw [heq])).2
      have hadopted : cell.crdt.stamp < (rt.plane.tick nowMicros).2 := by
        by_contra hle
        refine hne ?_
        rw [hv, LwwRegister.set, if_neg hle]
      have hnew : mutate cell.crdt (rt.plane.tick nowMicros).2 =
          ⟨v, (rt.plane.tick nowMicros).2⟩ := by
        rw [hv, LwwRegister.set, if_pos hadopted]
      have hcrdt : (cell.update fun r => mutate r (rt.plane.tick nowMicros).2).1.crdt =
          ⟨v, (rt.plane.tick nowMicros).2⟩ := by rw [update_crdt, hnew]
      rw [hcrdt]
      refine h.emit ⟨node, rt.keys.keyForNode node, _, .inline (some ⟨v, _⟩)⟩ rfl hfresh rfl
        (hnew ▸ hround) ⟨_, rfl, rfl, fun key hkey => ?_⟩ ?_
      · have hbound : rt.keys.keyForNode node = some key := hkey
        have hstate : rt.stateOf key = some cell.crdt := stateOf_of_keyForNode hbound hcell
        refine ⟨fun r0 h0 => (h.initial_le hstate h0).trans_lt hadopted, fun hnone => ?_⟩
        exact h.inFamily hstate hnone
      · refine (h.withPlane _).store_cell hcell rfl hfresh rfl
          (update_published (h.published node cell hcell) _) ?_
        rw [hcrdt, later, elim_some, if_pos hadopted]
    · rename_i hsame
      have hkept : mutate cell.crdt (rt.plane.tick nowMicros).2 = cell.crdt :=
        (hann cell hcell).resolve_right fun hne => hsame ((update_snd cell _).2 hne.1)
      have hcell' : (cell.update fun r => mutate r (rt.plane.tick nowMicros).2).1 = cell := by
        simp only [update, hkept, ne_eq, not_true_eq_false, if_false]
      refine ⟨?_, h.wellFormed⟩
      rw [hcell']
      exact (h.withPlane _).put_same hcell

/-- What a family write asks for: a first insert belongs to a registered family and comes through
the codec, any other write is a local edit. -/
def FamilyAnnounces (names : List Str) (rt : CrdtPlaneRuntime (LwwRegister T) T)
    (name suffix : Str) (seed : HlcStamp → LwwRegister T)
    (mutate : LwwRegister T → HlcStamp → LwwRegister T) (nowMicros : Nat) : Prop :=
  ∀ key, NodeKey.fromSegments [name, suffix] = .ok key →
    match rt.keys.nodeForKey key with
    | some node => Announces rt node nowMicros mutate
    | none => InFamily names key ∧ StateCodec.RoundTrips (seed (rt.plane.tick nowMicros).2)

theorem LwwReplica.familySet {name suffix : Str} {seed : HlcStamp → LwwRegister T}
    (hfresh : (rt.plane.tick nowMicros).2 ∉ rt.log.ops)
    (hseed : ∀ stamp, (seed stamp).stamp = stamp) (hwrites : WritesLww mutate)
    (hann : FamilyAnnounces names rt name suffix seed mutate nowMicros) :
    LwwReplica initial names (rt.familySet name suffix seed mutate nowMicros).1 := by
  unfold CrdtPlaneRuntime.familySet
  split
  · exact h
  · rename_i key hkey
    have hann := hann key hkey
    split
    · rename_i node hnode
      rw [hnode] at hann
      exact h.localUpdate hfresh hwrites hann
    · rename_i hnode
      rw [hnode] at hann
      refine h.emit ⟨_, some key, _, .inline (some (seed _))⟩ rfl hfresh rfl hann.2
        ⟨_, rfl, hseed _, fun k hk => ?_⟩
        ((h.withPlane (rt.plane.tick nowMicros).1).store_entry rfl hnode hfresh rfl name)
      cases hk
      refine ⟨fun r0 h0 => ?_, fun _ => hann.1⟩
      rw [h.initial_none hnode] at h0
      cases h0

omit [StateCodec (LwwRegister T)] in
theorem LwwReplica.ingest {sync : CrdtSync (LwwRegister T)}
    (hops : ∀ op ∈ sync.ops, WellFormed initial names op) (hclean : rt.Clean sync nowMicros) :
    LwwReplica initial names (rt.ingest sync nowMicros).1 := by
  have hbatch : ∀ e ∈ (sync.ops.map fun op => (op.stamp, op)).insertionSort
      (fun a b => a.1 ≤ b.1), e.1 = e.2.stamp ∧ WellFormed initial names e.2 := by
    intro e he
    obtain ⟨op, hop, rfl⟩ := List.mem_map.1 ((List.mem_insertionSort _).1 he)
    exact ⟨rfl, hops op hop⟩
  refine ⟨Settled.foldl nowMicros _ _ (h.withPlane _) hclean hbatch, fun s op hs => ?_⟩
  rcases (rt.extends_ingest sync nowMicros).only s op hs with hs | hs
  · exact h.wellFormed s op hs
  · obtain ⟨op', hop, heq⟩ := List.mem_map.1 hs
    cases heq
    exact hops op hop

end Replica

/-! ## The session -/

namespace Net

variable {T : Type} [DecidableEq T] [StateCodec (LwwRegister T)]
  {initial : NodeKey → Option (LwwRegister T)} {names : List Str}

/-- The events of a session: local writes, and frames of emitted ops with any frontier. -/
def LwwEvent (net : Net (LwwRegister T) T) (e : PeerId × PlaneEvent (LwwRegister T)) : Prop :=
  match e.2 with
  | .localUpdate _ _ mutate => WritesLww mutate
  | .familySet _ _ seed mutate _ => (∀ stamp, (seed stamp).stamp = stamp) ∧ WritesLww mutate
  | .ingest sync _ => net.Ships sync
  | .addPeer _ => True
  | .register _ _ _ | .registerFamily _ => False

/-- The condition on an event: a write that moves a register changes its value, a new entry belongs
to a family, both come through the codec, and the ops of a frame are addressed. -/
def Announced (names : List Str) (net : Net (LwwRegister T) T)
    (e : PeerId × PlaneEvent (LwwRegister T)) : Prop :=
  match e.2 with
  | .localUpdate node nowMicros mutate => Announces (net e.1) node nowMicros mutate
  | .familySet name suffix seed mutate nowMicros =>
    FamilyAnnounces names (net e.1) name suffix seed mutate nowMicros
  | .ingest sync nowMicros => (net e.1).Clean sync nowMicros
  | _ => True

/-- The session invariant. -/
structure LwwNet (initial : NodeKey → Option (LwwRegister T)) (names : List Str)
    (net : Net (LwwRegister T) T) : Prop extends Sane net where
  replica : ∀ p, LwwReplica initial names (net p)

variable {net : Net (LwwRegister T) T} {key : NodeKey} {r : LwwRegister T}

omit [DecidableEq T] [StateCodec (LwwRegister T)] in
theorem LwwEvent.allows {e : PeerId × PlaneEvent (LwwRegister T)} (h : net.LwwEvent e) :
    net.Allows e := by
  obtain ⟨p, ev⟩ := e
  cases ev with
  | ingest sync nowMicros => exact h
  | _ => trivial

section

variable (h : net.LwwNet initial names)
include h

variable {p : PeerId}

theorem LwwNet.step_replica {ev : PlaneEvent (LwwRegister T)} (hev : net.LwwEvent (p, ev))
    (hann : net.Announced names (p, ev)) : LwwReplica initial names ((net p).step ev) := by
  have hrep := h.replica p
  cases ev with
  | addPeer peer => exact ⟨hrep.withPlane _, hrep.wellFormed⟩
  | register node key crdt => cases hev
  | registerFamily family => cases hev
  | localUpdate node nowMicros mutate =>
    exact hrep.localUpdate (h.fresh nowMicros p) hev hann
  | familySet name suffix seed mutate nowMicros =>
    exact hrep.familySet (h.fresh nowMicros p) hev.1 hev.2 hann
  | ingest sync nowMicros =>
    refine hrep.ingest (fun op hop => ?_) hann
    obtain ⟨q, hq⟩ := hev op hop
    exact (h.replica q).wellFormed _ op hq

theorem LwwNet.step {e : PeerId × PlaneEvent (LwwRegister T)}
    (hev : net.LwwEvent e) (hann : net.Announced names e) : (net.step e).LwwNet initial names := by
  refine ⟨h.toSane.step hev.allows, fun q => ?_⟩
  by_cases hq : q = e.1
  · subst hq
    rw [Net.step, Function.update_self]
    exact h.step_replica hev hann
  · rw [Net.step, Function.update_of_ne hq]
    exact h.replica q

end

end Net

end Lazily.Crdt
