import Lazily.Crdt.Runtime
import Mathlib.Data.List.Perm.Subperm

/-!
# Which cells an ingested op reaches

An op goes to the node of its key. If the key is unknown it goes to its raw node id, which another
replica chose: when that id names a cell here, the op is merged into a cell it does not belong to
(`raw_node_collision`). `ingest_isolated`: a frame whose ops are all `Addressed` changes the cells
of the keys it carries and no other cell.
-/

namespace Lazily.Crdt

open Std.ExtTreeMap KeyIndex Option Registry OpLog

namespace Registry

variable {C V : Type} {reg : Registry C V} {cells : Std.ExtTreeMap NodeId (ReplicatedCell C V)}

/-! ## Fresh nodes -/

/-- Consecutive ids that all name cells are at most as many as the cells. -/
theorem length_le_size (start len : Nat) (h : ∀ i < len, start + i ∈ cells) : len ≤ cells.size := by
  have hsub : (List.range len).map (start + ·) ⊆ cells.keys := by
    intro n hn
    obtain ⟨i, hi, rfl⟩ := List.mem_map.1 hn
    exact mem_keys.2 (h i (List.mem_range.1 hi))
  have hnodup : ((List.range len).map (start + ·)).Nodup :=
    List.nodup_range.map fun i j hij => Nat.add_left_cancel hij
  have hle := (List.subperm_of_subset hnodup hsub).length_le
  simpa using hle

theorem mintFrom_spec : ∀ fuel candidate, mintFrom cells fuel candidate ∈ cells →
      ∀ i ≤ fuel, candidate + i ∈ cells
  | 0, candidate, h, i, hi => by
    obtain rfl : i = 0 := by omega
    exact h
  | fuel + 1, candidate, h, i, hi => by
    rw [mintFrom] at h
    split at h
    · rename_i hmem
      cases i with
      | zero => exact hmem
      | succ i =>
        have hrec := mintFrom_spec fuel (candidate + 1) h i (by omega)
        rwa [Nat.add_assoc, Nat.add_comm 1 i] at hrec
    · exact absurd h ‹_›

theorem mintFamilyNode_not_mem (reg : Registry C V) : reg.mintFamilyNode ∉ reg.cells := by
  intro h
  have hall := mintFrom_spec _ _ h
  have hle := length_le_size reg.nextFamilyNode (reg.cells.size + 1) fun i hi => hall i (by omega)
  omega

/-! ## One op -/

/-- The op finds its cell by its key, or has a raw id that names no cell here; a keyless op names no
keyed cell. -/
def Addressed (reg : Registry C V) (op : CrdtOp C) : Prop :=
  match op.key with
  | some key => reg.keys.nodeForKey key ≠ none ∨ op.node ∉ reg.cells
  | none => reg.keys.keyForNode op.node = none

/-- The key under which a cell is found, and the cell itself, are as before. -/
def SameAt (reg reg' : Registry C V) (n : NodeId) : Prop :=
  n ∈ reg.cells → reg'.keys.keyForNode n = reg.keys.keyForNode n ∧ reg'.cells[n]? = reg.cells[n]?

theorem SameAt.refl (reg : Registry C V) (n : NodeId) : reg.SameAt reg n := fun _ => ⟨rfl, rfl⟩

variable {n node : NodeId} {key : NodeKey} {op : CrdtOp C} {state : Option C}

theorem SameAt.trans {reg' reg'' : Registry C V} (h : reg.SameAt reg' n)
    (h' : reg'.SameAt reg'' n) : reg.SameAt reg'' n := by
  intro hn
  obtain ⟨hk, hc⟩ := h hn
  have hn' : n ∈ reg'.cells := by
    rw [mem_iff_isSome_getElem?] at hn ⊢
    rwa [hc]
  obtain ⟨hk', hc'⟩ := h' hn'
  exact ⟨hk'.trans hk, hc'.trans hc⟩

theorem sameAt_putCell (cell : ReplicatedCell C V) (h : n ≠ node) :
    reg.SameAt (reg.putCell node cell) n := by
  have hcmp : ¬node = n := fun heq => h heq.symm
  exact fun _ => ⟨rfl, by simp [putCell, getElem?_insert, hcmp]⟩

variable [CellCrdt C V]

/-- A new entry under a fresh node leaves the cells that are there. -/
theorem sameAt_addFamilyEntry (name : Str) (crdt : C) (hkey : reg.keys.nodeForKey key = none)
    (n : NodeId) : reg.SameAt (reg.addFamilyEntry name key crdt) n := by
  intro hn
  have hne : ¬reg.mintFamilyNode = n := fun h => reg.mintFamilyNode_not_mem (h ▸ hn)
  refine ⟨?_, ?_⟩
  · show (reg.keys.insert key reg.mintFamilyNode).keyForNode n = _
    have hne' : n ≠ reg.mintFamilyNode := fun h => hne h.symm
    cases hk : reg.keys.keyForNode n with
    | some k =>
      rw [← nodeForKey_eq_iff] at hk ⊢
      have hkk : k ≠ key := fun h => by rw [h, hkey] at hk; cases hk
      rw [nodeForKey_insert_ne _ hkk, if_neg (by rw [hk]; simpa using hne'), hk]
    | none =>
      by_contra hsome
      obtain ⟨k, hk'⟩ := ne_none_iff_exists'.1 hsome
      rw [← nodeForKey_eq_iff] at hk'
      by_cases hkk : k = key
      · subst hkk
        rw [nodeForKey_insert_self] at hk'
        exact hne (some.inj hk')
      · rw [nodeForKey_insert_ne _ hkk] at hk'
        split at hk'
        · cases hk'
        · rw [nodeForKey_eq_iff, hk] at hk'
          cases hk'
  · show (reg.cells.insert reg.mintFamilyNode _)[n]? = _
    simp [getElem?_insert, hne]

/-- An op whose key is known is merged into the cell of the key. -/
theorem route_known (hkey : op.key = some key)
    (hnode : reg.keys.nodeForKey key = some node) {cell : ReplicatedCell C V}
    (hcell : reg.cells[node]? = some cell) (hstate : op.state = .inline state) :
    reg.route op = reg.putCell node (mergeState cell state) := by
  have htarget : reg.target op = node := by simp [target, hkey, hnode]
  simp only [route, hstate, htarget, hcell]

/-- An op whose key is unknown and whose raw id names no cell may become a family entry. -/
theorem route_unknown (hkey : op.key = some key) (hnode : reg.keys.nodeForKey key = none)
    (hraw : op.node ∉ reg.cells) (hstate : op.state = .inline state) :
    reg.route op = reg.materialize op state := by
  have htarget : reg.target op = op.node := by simp [target, hkey, hnode]
  have hcell : reg.cells[op.node]? = none := getElem?_eq_none hraw
  simp only [route, hstate, htarget, hcell]

/-- Materializing adds an entry for the key of the op, if anything. -/
theorem materialize_cases (hkey : op.key = some key) (state : Option C) :
    reg.materialize op state = reg ∨
      ∃ name crdt, reg.materialize op state = reg.addFamilyEntry name key crdt := by
  unfold materialize
  rw [hkey]
  simp only []
  split
  · exact .inl rfl
  · split
    · exact .inl rfl
    · split
      · exact .inl rfl
      · exact .inr ⟨_, _, rfl⟩

variable (hop : reg.Addressed op)
include hop

variable (hkey : op.key = some key)
include hkey

/-- What an addressed op with a key does: nothing, a merge into the cell of its key, or a new entry
for it. -/
theorem route_cases : reg.route op = reg ∨
    (∃ node cell, reg.keys.nodeForKey key = some node ∧ reg.route op = reg.putCell node cell) ∨
    (reg.keys.nodeForKey key = none ∧
      ∃ name crdt, reg.route op = reg.addFamilyEntry name key crdt) := by
  cases hstate : op.state with
  | blob => exact .inl (by simp only [route, hstate])
  | inline state =>
    cases hnode : reg.keys.nodeForKey key with
    | some node =>
      obtain ⟨cell, hcell⟩ := isSome_iff_exists.1
        (mem_iff_isSome_getElem?.1 (reg.resolves key node hnode))
      exact .inr (.inl ⟨node, _, rfl, route_known hkey hnode hcell hstate⟩)
    | none =>
      have hraw : op.node ∉ reg.cells := by
        unfold Addressed at hop
        rw [hkey] at hop
        exact hop.resolve_left fun h => h hnode
      rw [route_unknown hkey hnode hraw hstate]
      exact (materialize_cases hkey state).imp_right fun h => .inr ⟨rfl, h⟩

/-- An addressed op changes no cell of another key. -/
theorem sameAt_route (hn : reg.keys.keyForNode n ≠ some key) : reg.SameAt (reg.route op) n := by
  rcases route_cases hop hkey with h | ⟨node, cell, hnode, h⟩ | ⟨hnode, name, crdt, h⟩
  · rw [h]
    exact .refl reg n
  · rw [h]
    refine sameAt_putCell cell ?_
    rintro rfl
    exact hn (reg.keys.nodeForKey_eq_iff.1 hnode)
  · rw [h]
    exact sameAt_addFamilyEntry name crdt hnode n

/-- An addressed op binds no key but its own. -/
theorem nodeForKey_route {k : NodeKey}
    (hk : k ≠ key) : (reg.route op).keys.nodeForKey k = reg.keys.nodeForKey k := by
  rcases route_cases hop hkey with h | ⟨node, cell, hnode, h⟩ | ⟨hnode, name, crdt, h⟩
  · rw [h]
  · rw [h]
    rfl
  · rw [h]
    show (reg.keys.insert key reg.mintFamilyNode).nodeForKey k = _
    rw [nodeForKey_insert_ne _ hk, if_neg]
    exact fun hmint => reg.mintFamilyNode_not_mem (reg.resolves k _ hmint)

/-- An addressed op changes the cell of no other key, and no cell without a key. -/
theorem applyOp_isolated (nowMicros : Nat) (stamp : HlcStamp) :
    (∀ n, reg.keys.keyForNode n ≠ some key → reg.SameAt (reg.applyOp nowMicros stamp op) n) ∧
      ∀ k, k ≠ key →
        (reg.applyOp nowMicros stamp op).keys.nodeForKey k = reg.keys.nodeForKey k := by
  -- the observed stamp moves only the plane
  let observed : Registry C V := { reg with plane := (reg.plane.observeRemote stamp nowMicros).1 }
  have hop' : observed.Addressed op := hop
  exact ⟨fun n hn => sameAt_route hop' hkey hn, fun k hk => nodeForKey_route hop' hkey hk⟩

end Registry

/-! ## Frames -/

namespace CrdtPlaneRuntime

variable {C V : Type} [CellCrdt C V]

/-- Every op of a batch that the log has not seen is addressed when its turn comes. -/
def CleanFrom (nowMicros : Nat) :
    OpLog (CrdtOp C) × Registry C V × Nat → List (HlcStamp × CrdtOp C) → Prop
  | _, [] => True
  | acc, e :: es => (e.1 ∉ acc.1.ops → acc.2.1.Addressed e.2) ∧
      CleanFrom nowMicros (OpLog.applyOne (Registry.applyOp nowMicros) acc e) es

/-- The frame finds every op of it addressed. -/
def Clean (rt : CrdtPlaneRuntime C V) (sync : CrdtSync C) (nowMicros : Nat) : Prop :=
  CleanFrom nowMicros
    (rt.log, { rt.toRegistry with plane := observeFrontier rt.plane sync.frontier nowMicros }, 0)
    ((sync.ops.map fun op => (op.stamp, op)).insertionSort fun a b => a.1 ≤ b.1)

/-- What a batch of keyed ops leaves alone: the keys it does not carry, and the cells of these and
of no key. -/
theorem foldl_isolated (nowMicros : Nat) {carried : NodeKey → Prop} :
    ∀ (batch : List (HlcStamp × CrdtOp C)) (acc : OpLog (CrdtOp C) × Registry C V × Nat),
      CleanFrom nowMicros acc batch → (∀ e ∈ batch, ∃ key, e.2.key = some key ∧ carried key) →
      let acc' := batch.foldl (applyOne (applyOp nowMicros)) acc
      (∀ n, (∀ k, acc.2.1.keys.keyForNode n = some k → ¬carried k) → acc.2.1.SameAt acc'.2.1 n) ∧
      ∀ k, ¬carried k → acc'.2.1.keys.nodeForKey k = acc.2.1.keys.nodeForKey k
  | [], acc, _, _ => ⟨fun n _ => .refl _ n, fun _ _ => rfl⟩
  | e :: batch, acc, hclean, hkeys => by
    obtain ⟨haddr, hclean⟩ := hclean
    obtain ⟨⟨key, hkey, hcarried⟩, hkeys⟩ := List.forall_mem_cons.1 hkeys
    obtain ⟨hcells, hnodes⟩ := foldl_isolated nowMicros batch _ hclean hkeys
    rw [List.foldl_cons]
    by_cases hseen : e.1 ∈ acc.1.ops
    · have hskip : applyOne (applyOp nowMicros) acc e = acc := if_pos hseen
      rw [hskip] at hcells hnodes ⊢
      exact ⟨hcells, hnodes⟩
    · have hstep : (applyOne (applyOp nowMicros) acc e).2.1 =
          acc.2.1.applyOp nowMicros e.1 e.2 := by simp only [applyOne, if_neg hseen]
      obtain ⟨hcells1, hnodes1⟩ := applyOp_isolated (haddr hseen) hkey nowMicros e.1
      rw [hstep] at hcells hnodes
      refine ⟨fun n hn hmem => ?_, fun k hk => ?_⟩
      · have hsame := hcells1 n fun h => hn key h hcarried
        refine hsame.trans (hcells n fun k hk => hn k ?_) hmem
        rwa [(hsame hmem).1] at hk
      · rw [hnodes k hk]
        exact hnodes1 k fun h => hk (h ▸ hcarried)

/-- **Key isolation.** A frame of keyed ops whose ops are all addressed when their turn comes
changes the cells of the keys it carries only: every other key keeps its node and its cell (state
and published value), and so does every cell without a key. -/
theorem ingest_isolated (rt : CrdtPlaneRuntime C V) (sync : CrdtSync C) (nowMicros : Nat)
    (hkeyed : ∀ op ∈ sync.ops, op.key ≠ none) (hclean : rt.Clean sync nowMicros) :
    (∀ key, (∀ op ∈ sync.ops, op.key ≠ some key) →
      (rt.ingest sync nowMicros).1.cellOf key = rt.cellOf key) ∧
    ∀ n, n ∈ rt.cells → rt.keys.keyForNode n = none →
      (rt.ingest sync nowMicros).1.cells[n]? = rt.cells[n]? := by
  have hbatch : ∀ e ∈ (sync.ops.map fun op => (op.stamp, op)).insertionSort
      (fun a b => a.1 ≤ b.1), ∃ key, e.2.key = some key ∧ ∃ op ∈ sync.ops, op.key = some key := by
    intro e he
    obtain ⟨op, hop, rfl⟩ := List.mem_map.1 ((List.mem_insertionSort _).1 he)
    obtain ⟨key, hkey⟩ := ne_none_iff_exists'.1 (hkeyed op hop)
    exact ⟨key, hkey, op, hop, hkey⟩
  obtain ⟨hcells, hnodes⟩ := foldl_isolated nowMicros _ _ hclean hbatch
  refine ⟨fun key hkey => ?_, fun n hn hnone => ?_⟩
  · have hcarried : ¬∃ op ∈ sync.ops, op.key = some key := fun ⟨op, hop, h⟩ => hkey op hop h
    have hnode : (rt.ingest sync nowMicros).1.keys.nodeForKey key = rt.keys.nodeForKey key :=
      hnodes key hcarried
    unfold cellOf
    rw [hnode]
    cases hn : rt.keys.nodeForKey key with
    | none => rfl
    | some n =>
      refine (hcells n (fun k hk => ?_) (rt.resolves key n hn)).2
      have hk' : rt.keys.keyForNode n = some k := hk
      rw [rt.keys.nodeForKey_eq_iff.1 hn] at hk'
      cases hk'
      exact hcarried
  · refine (hcells n (fun k hk => ?_) hn).2
    have hk' : rt.keys.keyForNode n = some k := hk
    rw [hnone] at hk'
    cases hk'

/-! ## Two replicas of one family -/

def familyReplica (peer : PeerId) : CrdtPlaneRuntime (LwwRegister Nat) Nat :=
  (new peer).registerFamily (lwwFamilyFactory ['f'])

def keyA : NodeKey := ⟨['f', '/', 'a'], rfl⟩

def keyB : NodeKey := ⟨['f', '/', 'b'], rfl⟩

def frameA : CrdtSync (LwwRegister Nat) :=
  ((familyReplica 1).familySetLww ['f'] ['a'] 10 5).1.syncFrame

/-- A replica that has registered `f/b` under a node of its own ingests `f/a`. -/
theorem ingest_isolated_registered :
    let rt := (familyReplica 2).register 7 (some keyB) ⟨20, ⟨0, 0, 0⟩⟩
    (rt.ingest frameA 6).1.cellOf keyB = rt.cellOf keyB ∧
      ((rt.ingest frameA 6).1.cellOf keyA).map (·.crdt.value) = some 10 := by
  intro rt
  have hkeyed : ∀ op ∈ frameA.ops, op.key ≠ none := by decide +kernel
  have hclean : rt.Clean frameA 6 := by
    refine ⟨fun _ => .inr ?_, trivial⟩
    decide +kernel
  exact ⟨(ingest_isolated rt frameA 6 hkeyed hclean).1 keyB (by decide +kernel), by decide +kernel⟩

/-- Two replicas mint the same private node for `f/a` and for `f/b`. The op for `f/a` finds no key
and is merged into `f/b`, which takes its value; `f/a` does not appear. -/
theorem raw_node_collision :
    let rt := ((familyReplica 2).familySetLww ['f'] ['b'] 20 1).1
    (rt.cellOf keyB).map (·.crdt.value) = some 20 ∧
      frameA.ops.map (·.key) = [some keyA] ∧
      ((rt.ingest frameA 6).1.cellOf keyB).map (·.crdt.value) = some 10 ∧
      (rt.ingest frameA 6).1.cellOf keyA = none := by
  decide +kernel

end CrdtPlaneRuntime

end Lazily.Crdt
