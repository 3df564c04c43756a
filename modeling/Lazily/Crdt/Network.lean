import Lazily.Crdt.Runtime
import Lazily.Lib.Reach

/-!
# Networks of plane runtimes

Every peer runs a `CrdtPlaneRuntime`. A step is an event at one of them; frames carry ops that some
log holds. `Sane` is what such networks keep whatever they deliver: an op is stored under its stamp,
by the peer that issued it, at or below the clock of that peer (`Sane.step`).
-/

namespace Lazily.Crdt

open Lib Function List OpLog Registry Watermark Std.ExtTreeMap

variable {C V : Type}

/-! ## What an event does to plane and log -/

namespace CrdtPlane

/-- The plane has moved on, and what it covers now it covered or has `seen` since. -/
structure Observes (plane plane' : CrdtPlane) (seen : HlcStamp → Prop) : Prop where
  peer : plane'.peer = plane.peer
  now : plane.clock.now ≤ plane'.clock.now
  covers : ∀ q t, plane'.frontier.Covers q t →
    plane.frontier.Covers q t ∨ ∃ s, seen s ∧ s.peer = q ∧ t ≤ s

variable (plane : CrdtPlane)

theorem Observes.refl (seen : HlcStamp → Prop) : plane.Observes plane seen :=
  ⟨rfl, le_rfl, fun _ _ h => .inl h⟩

theorem Observes.trans {plane plane' plane'' : CrdtPlane} {seen : HlcStamp → Prop}
    (h : plane.Observes plane' seen) (h' : plane'.Observes plane'' seen) :
    plane.Observes plane'' seen := by
  refine ⟨h'.peer.trans h.peer, h.now.trans h'.now, fun q t ht => ?_⟩
  rcases h'.covers q t ht with ht | ht
  · exact h.covers q t ht
  · exact .inr ht

theorem Observes.mono {plane plane' : CrdtPlane} {seen seen' : HlcStamp → Prop}
    (h : plane.Observes plane' seen) (himp : ∀ s, seen s → seen' s) :
    plane.Observes plane' seen' := by
  refine ⟨h.peer, h.now, fun q t ht => (h.covers q t ht).imp_right ?_⟩
  rintro ⟨s, hs, hq, hle⟩
  exact ⟨s, himp s hs, hq, hle⟩

theorem observes_observeRemote (stamp : HlcStamp) (nowMicros : Nat) :
    plane.Observes (plane.observeRemote stamp nowMicros).1 (· = stamp) := by
  refine ⟨rfl, (plane.lt_observeRemote nowMicros stamp).le, fun q t ht => ?_⟩
  exact (covers_observe.1 ht).imp_right fun ⟨hq, hle⟩ => ⟨stamp, rfl, hq.symm, hle⟩

theorem observes_tick (nowMicros : Nat) :
    plane.Observes (plane.tick nowMicros).1 (· = (plane.tick nowMicros).2) := by
  refine ⟨rfl, (plane.lt_tick nowMicros).le, fun q t ht => ?_⟩
  exact (covers_observe.1 ht).imp_right fun ⟨hq, hle⟩ => ⟨_, rfl, hq.symm, hle⟩

end CrdtPlane

namespace Registry

variable [CellCrdt C V] (reg : Registry C V)

@[simp] theorem route_plane (op : CrdtOp C) : (reg.route op).plane = reg.plane := by
  unfold route
  split
  · rfl
  · split
    · rfl
    · unfold materialize
      split
      · rfl
      · split
        · rfl
        · split
          · rfl
          · split <;> rfl

@[simp] theorem applyOp_plane (nowMicros : Nat) (stamp : HlcStamp) (op : CrdtOp C) :
    (reg.applyOp nowMicros stamp op).plane = (reg.plane.observeRemote stamp nowMicros).1 :=
  route_plane _ op

end Registry

namespace CrdtPlaneRuntime

theorem observes_observeFrontier (nowMicros : Nat) :
    ∀ (frontier : List (PeerId × HlcStamp)) (plane : CrdtPlane),
      plane.Observes (observeFrontier plane frontier nowMicros)
        fun s => s.peer ≠ plane.peer ∧ ∃ e ∈ frontier, e.2 = s
  | [], plane => .refl plane _
  | e :: rest, plane => by
    unfold observeFrontier
    rw [foldl_cons]
    split
    · rename_i hpeer
      have hhead := plane.observes_observeRemote e.2 nowMicros
      have htail := observes_observeFrontier nowMicros rest (plane.observeRemote e.2 nowMicros).1
      refine (hhead.mono ?_).trans (htail.mono ?_)
      · rintro s rfl
        exact ⟨hpeer, e, mem_cons_self, rfl⟩
      · rintro s ⟨hs, x, hx, hxs⟩
        exact ⟨hs, x, mem_cons_of_mem e hx, hxs⟩
    · refine (observes_observeFrontier nowMicros rest plane).mono ?_
      rintro s ⟨hs, x, hx, hxs⟩
      exact ⟨hs, x, mem_cons_of_mem e hx, hxs⟩

theorem covers_observeFrontier (nowMicros : Nat) {q : PeerId} {t : HlcStamp} :
    ∀ frontier plane, plane.frontier.Covers q t →
      (observeFrontier plane frontier nowMicros).frontier.Covers q t
  | [], _, h => h
  | e :: rest, plane, h => by
    unfold observeFrontier
    rw [foldl_cons]
    split
    · exact covers_observeFrontier nowMicros rest _ (covers_observe.2 (.inl h))
    · exact covers_observeFrontier nowMicros rest plane h

variable [CellCrdt C V]

theorem observes_foldl (nowMicros : Nat) :
    ∀ (batch : List (HlcStamp × CrdtOp C)) (acc : OpLog (CrdtOp C) × Registry C V × Nat),
      acc.2.1.plane.Observes (batch.foldl (applyOne (applyOp nowMicros)) acc).2.1.plane
        fun s => ∃ e ∈ batch, e.1 = s
  | [], acc => .refl _ _
  | e :: batch, acc => by
    rw [foldl_cons]
    have htail := observes_foldl nowMicros batch (applyOne (applyOp nowMicros) acc e)
    have hhead : acc.2.1.plane.Observes
        (applyOne (applyOp nowMicros) acc e).2.1.plane (· = e.1) := by
      unfold applyOne
      split
      · exact .refl _ _
      · rw [applyOp_plane]
        exact acc.2.1.plane.observes_observeRemote e.1 nowMicros
    refine (hhead.mono ?_).trans (htail.mono ?_)
    · rintro s rfl
      exact ⟨e, mem_cons_self, rfl⟩
    · rintro s ⟨x, hx, hxs⟩
      exact ⟨x, mem_cons_of_mem e hx, hxs⟩

/-- The stamps of the log are below the frontier of the plane. -/
def Logged (log : OpLog (CrdtOp C)) (plane : CrdtPlane) : Prop :=
  ∀ s ∈ log.ops, plane.frontier.Covers s.peer s

theorem logged_foldl (nowMicros : Nat) :
    ∀ (batch : List (HlcStamp × CrdtOp C)) (acc : OpLog (CrdtOp C) × Registry C V × Nat),
      Logged acc.1 acc.2.1.plane → let acc' := batch.foldl (applyOne (applyOp nowMicros)) acc
      Logged acc'.1 acc'.2.1.plane
  | [], _, h => h
  | e :: batch, acc, h => by
    rw [foldl_cons]
    refine logged_foldl nowMicros batch _ ?_
    unfold applyOne
    split
    · exact h
    · intro s hs
      rw [applyOp_plane]
      refine covers_observe.2 ?_
      rcases mem_insert.1 hs with heq | hs
      · obtain rfl := Std.LawfulEqCmp.eq_of_compare heq
        exact .inr ⟨rfl, le_rfl⟩
      · exact .inl (h s hs)

theorem logged_ingest {rt : CrdtPlaneRuntime C V} (h : Logged rt.log rt.plane) (sync : CrdtSync C)
    (nowMicros : Nat) :
    Logged (rt.ingest sync nowMicros).1.log (rt.ingest sync nowMicros).1.plane :=
  logged_foldl nowMicros _ _ fun s hs => covers_observeFrontier nowMicros sync.frontier _ (h s hs)

variable (rt : CrdtPlaneRuntime C V)
include rt

/-- A frame moves the plane by its frontier and by the stamps of its ops. -/
theorem observes_ingest (sync : CrdtSync C) (nowMicros : Nat) :
    rt.plane.Observes (rt.ingest sync nowMicros).1.plane fun s =>
      (s.peer ≠ rt.plane.peer ∧ ∃ e ∈ sync.frontier, e.2 = s) ∨ ∃ op ∈ sync.ops, op.stamp = s := by
  refine ((observes_observeFrontier nowMicros sync.frontier rt.plane).mono fun _ => .inl).trans
    ((observes_foldl nowMicros _ (rt.log, { rt.toRegistry with
      plane := observeFrontier rt.plane sync.frontier nowMicros }, 0)).mono ?_)
  rintro s ⟨e, he, rfl⟩
  obtain ⟨op, hop, rfl⟩ := mem_map.1 ((mem_insertionSort _).1 he)
  exact .inr ⟨op, hop, rfl⟩

theorem extends_ingest (sync : CrdtSync C) (nowMicros : Nat) :
    rt.log.Extends (rt.ingest sync nowMicros).1.log (sync.ops.map fun op => (op.stamp, op)) :=
  extends_applyRemote rt.log _ _ _

/-- A local event ticks the clock once and records at most one op, under the fresh stamp. -/
def Emission (rt rt' : CrdtPlaneRuntime C V) (nowMicros : Nat) : Prop :=
  rt'.plane = (rt.plane.tick nowMicros).1 ∧
    (rt'.log = rt.log ∨
      ∃ op, op.stamp = (rt.plane.tick nowMicros).2 ∧ rt'.log = (rt.log.record op.stamp op).1)

omit [CellCrdt C V] in
omit rt in
theorem Emission.logged {rt rt' : CrdtPlaneRuntime C V} {nowMicros : Nat}
    (he : rt.Emission rt' nowMicros) (h : Logged rt.log rt.plane) : Logged rt'.log rt'.plane := by
  obtain ⟨hplane, hlog⟩ := he
  intro s hs
  rw [hplane]
  refine covers_observe.2 ?_
  rcases hlog with hlog | ⟨op, hstamp, hlog⟩
  · exact .inl (h s (hlog ▸ hs))
  · obtain ⟨o, ho⟩ := mem_iff_exists.1 hs
    rw [hlog, getElem?_record] at ho
    split at ho
    · rename_i hnew
      rw [← hnew.1, hstamp]
      exact .inr ⟨rfl, le_rfl⟩
    · exact .inl (h s (mem_iff_exists.2 ⟨o, ho⟩))

variable [DecidableEq V] [StateCodec C] (mutate : C → HlcStamp → C)

omit rt [CellCrdt C V] [DecidableEq V] in
theorem log_emit (rt : CrdtPlaneRuntime C V) (node : NodeId) (key : Option NodeKey)
    (stamp : HlcStamp) (crdt : C) : let rt' := (rt.emit (opFor node key stamp crdt)).1
    rt'.plane = rt.plane ∧ (rt'.log = rt.log ∨
      ∃ op : CrdtOp C, op.stamp = stamp ∧ rt'.log = (rt.log.record op.stamp op).1) := by
  unfold opFor emit
  cases StateCodec.encode crdt with
  | none => exact ⟨rfl, .inl rfl⟩
  | some bytes => exact ⟨rfl, .inr ⟨_, rfl, rfl⟩⟩

theorem emission_localUpdate (node : NodeId) (nowMicros : Nat) :
    rt.Emission (rt.localUpdate node nowMicros mutate).1 nowMicros := by
  simp only [localUpdate]
  split
  · exact ⟨rfl, .inl rfl⟩
  · split
    · exact log_emit _ node _ _ _
    · exact ⟨rfl, .inl rfl⟩

theorem emission_familySet (name suffix : Str) (seed : HlcStamp → C) (nowMicros : Nat) :
    (rt.familySet name suffix seed mutate nowMicros).1 = rt ∨
      rt.Emission (rt.familySet name suffix seed mutate nowMicros).1 nowMicros := by
  unfold familySet
  split
  · exact .inl rfl
  · split
    · exact .inr (rt.emission_localUpdate mutate _ nowMicros)
    · exact .inr (log_emit _ _ _ _ _)

end CrdtPlaneRuntime

/-! ## The network -/

abbrev Net (C V : Type) := PeerId → CrdtPlaneRuntime C V

namespace Net

/-- The ops of a frame have been emitted: some log holds them. -/
def Ships (net : Net C V) (sync : CrdtSync C) : Prop :=
  ∀ op ∈ sync.ops, ∃ q, (net q).log.ops[op.stamp]? = some op

/-- What networks keep whatever they deliver. -/
structure Sane (net : Net C V) : Prop where
  peer : ∀ p, (net p).plane.peer = p
  stamped : ∀ p (s : HlcStamp) op, (net p).log.ops[s]? = some op → op.stamp = s
  owned : ∀ p (s : HlcStamp) op, (net p).log.ops[s]? = some op → (net s.peer).log.ops[s]? = some op
  issued : ∀ p (s : HlcStamp) op, (net p).log.ops[s]? = some op → s.peer = p →
    s ≤ (net p).plane.clock.now

/-- What an event may do to its replica: the clock moves on, the log grows by ops of other logs and
by own ops that the clock has stamped meanwhile. -/
structure Advance (net : Net C V) (p : PeerId) (rt : CrdtPlaneRuntime C V) : Prop where
  peer : rt.plane.peer = (net p).plane.peer
  now : (net p).plane.clock.now ≤ rt.plane.clock.now
  keeps : ∀ (s : HlcStamp) op, (net p).log.ops[s]? = some op → rt.log.ops[s]? = some op
  only : ∀ (s : HlcStamp) op, rt.log.ops[s]? = some op →
    (∃ q, (net q).log.ops[s]? = some op) ∨
      op.stamp = s ∧ s.peer = p ∧ (net p).plane.clock.now < s ∧ s ≤ rt.plane.clock.now

variable {net : Net C V} {p q : PeerId} {rt : CrdtPlaneRuntime C V} {op : CrdtOp C} {s : HlcStamp}

theorem Advance.grows (h : net.Advance p rt)
    (hs : (net q).log.ops[s]? = some op) : (update net p rt q).log.ops[s]? = some op := by
  by_cases hq : q = p
  · subst hq
    rw [update_self]
    exact h.keeps s op hs
  · rwa [update_of_ne hq]

/-- An op of the new network was in the old one, or is the replica's own. -/
theorem Advance.inv (h : net.Advance p rt) (hs : (update net p rt q).log.ops[s]? = some op) :
    (∃ r, (net r).log.ops[s]? = some op) ∨
      q = p ∧ op.stamp = s ∧ s.peer = p ∧ (net p).plane.clock.now < s ∧ s ≤ rt.plane.clock.now := by
  by_cases hq : q = p
  · subst hq
    rw [update_self] at hs
    exact (h.only s op hs).imp_right fun hown => ⟨rfl, hown⟩
  · rw [update_of_ne hq] at hs
    exact .inl ⟨q, hs⟩

theorem Advance.now_le (h : net.Advance p rt) (q : PeerId) :
    (net q).plane.clock.now ≤ (update net p rt q).plane.clock.now := by
  by_cases hq : q = p
  · subst hq
    rw [update_self]
    exact h.now
  · rw [update_of_ne hq]

theorem Sane.advance (h : net.Sane) (hadv : net.Advance p rt) : Sane (update net p rt) := by
  refine ⟨fun q => ?_, fun q s op hs => ?_, fun q s op hs => ?_, fun q s op hs hq => ?_⟩
  · by_cases hq : q = p
    · subst hq
      rw [update_self, hadv.peer, h.peer]
    · rw [update_of_ne hq, h.peer]
  · rcases hadv.inv hs with ⟨r, hr⟩ | ⟨-, hstamp, -⟩
    · exact h.stamped r s op hr
    · exact hstamp
  · rcases hadv.inv hs with ⟨r, hr⟩ | ⟨hq, -, hpeer, -⟩
    · exact hadv.grows (h.owned r s op hr)
    · subst hq
      rwa [hpeer]
  · rcases hadv.inv hs with ⟨r, hr⟩ | ⟨hqp, -, -, -, hnow⟩
    · exact (h.issued q s op (hq ▸ h.owned r s op hr) hq).trans (hadv.now_le q)
    · subst hqp
      rwa [update_self]

/-- The fresh stamp of a tick has not been used. -/
theorem Sane.fresh (h : net.Sane) (nowMicros : Nat) (q : PeerId) :
    ((net p).plane.tick nowMicros).2 ∉ (net q).log.ops := by
  intro hmem
  obtain ⟨op, hop⟩ := mem_iff_exists.1 hmem
  have hpeer : ((net p).plane.tick nowMicros).2.peer = p := by
    rw [CrdtPlane.tick_stamp_peer, h.peer]
  have hown := h.owned q _ op hop
  rw [hpeer] at hown
  exact absurd (h.issued p _ op hown hpeer) (not_le.2 ((net p).plane.lt_tick nowMicros))

theorem Advance.quiet (hpeer : rt.plane.peer = (net p).plane.peer)
    (hclock : rt.plane.clock = (net p).plane.clock) (hlog : rt.log = (net p).log) :
    net.Advance p rt := by
  refine ⟨hpeer, by rw [hclock], fun s op hs => ?_, fun s op hs => .inl ⟨p, ?_⟩⟩
  · rwa [hlog]
  · rwa [hlog] at hs

theorem Sane.advance_emission (h : net.Sane) {nowMicros : Nat}
    (he : (net p).Emission rt nowMicros) : net.Advance p rt := by
  obtain ⟨hplane, hlog⟩ := he
  have hnow : rt.plane.clock.now = ((net p).plane.tick nowMicros).2 := by
    rw [hplane, CrdtPlane.tick_now]
  have hlt := (net p).plane.lt_tick nowMicros
  refine ⟨by rw [hplane, CrdtPlane.tick_peer], hnow ▸ hlt.le, fun s op hs => ?_, fun s op hs => ?_⟩
  · rcases hlog with hlog | ⟨new, -, hlog⟩
    · rwa [hlog]
    · rw [hlog, getElem?_record, if_neg]
      · exact hs
      · rintro ⟨rfl, hfresh⟩
        rw [getElem?_eq_none hfresh] at hs
        cases hs
  · rcases hlog with hlog | ⟨new, hstamp, hlog⟩
    · exact .inl ⟨p, by rwa [hlog] at hs⟩
    · rw [hlog, getElem?_record] at hs
      split at hs
      · rename_i hnew
        cases hs
        rw [hnow, ← hnew.1, hstamp]
        exact .inr ⟨rfl, by rw [CrdtPlane.tick_stamp_peer, h.peer], hlt, le_rfl⟩
      · exact .inl ⟨p, hs⟩

end Net

/-! ## Events -/

inductive PlaneEvent (C : Type) where
  | addPeer (peer : PeerId)
  | register (node : NodeId) (key : Option NodeKey) (crdt : C)
  | registerFamily (family : FamilyFactory C)
  | localUpdate (node : NodeId) (nowMicros : Nat) (mutate : C → HlcStamp → C)
  | familySet (name suffix : Str) (seed : HlcStamp → C) (mutate : C → HlcStamp → C)
      (nowMicros : Nat)
  | ingest (sync : CrdtSync C) (nowMicros : Nat)

def PlaneEvent.familySetLww {T : Type} (name suffix : Str) (value : T) (nowMicros : Nat) :
    PlaneEvent (LwwRegister T) :=
  .familySet name suffix (fun stamp => ⟨value, stamp⟩) (fun r stamp => (r.set value stamp).1)
    nowMicros

def PlaneEvent.set {T : Type} (node : NodeId) (value : T) (nowMicros : Nat) :
    PlaneEvent (LwwRegister T) :=
  .localUpdate node nowMicros fun r stamp => (r.set value stamp).1

variable [CellCrdt C V] [DecidableEq V] [StateCodec C]

def CrdtPlaneRuntime.step (rt : CrdtPlaneRuntime C V) : PlaneEvent C → CrdtPlaneRuntime C V
  | .addPeer peer => rt.addPeer peer
  | .register node key crdt => rt.register node key crdt
  | .registerFamily family => rt.registerFamily family
  | .localUpdate node nowMicros mutate => (rt.localUpdate node nowMicros mutate).1
  | .familySet name suffix seed mutate nowMicros =>
    (rt.familySet name suffix seed mutate nowMicros).1
  | .ingest sync nowMicros => (rt.ingest sync nowMicros).1

namespace Net

variable {net : Net C V} {p : PeerId}

def step (net : Net C V) (e : PeerId × PlaneEvent C) : Net C V :=
  Function.update net e.1 ((net e.1).step e.2)

/-- The frames that are ingested ship emitted ops. -/
def Allows (net : Net C V) (e : PeerId × PlaneEvent C) : Prop :=
  match e.2 with
  | .ingest sync _ => net.Ships sync
  | _ => True

def new : Net C V := fun p => .new p

omit [CellCrdt C V] [DecidableEq V] [StateCodec C] in
theorem sane_new : (new : Net C V).Sane := by
  refine ⟨fun p => rfl, fun p s op h => ?_, fun p s op h => ?_, fun p s op h => ?_⟩ <;>
    simp [new, CrdtPlaneRuntime.new, OpLog.new] at h

omit [DecidableEq V] [StateCodec C] in
theorem Advance.ingest {sync : CrdtSync C} (hships : net.Ships sync) (nowMicros : Nat) :
    net.Advance p ((net p).ingest sync nowMicros).1 := by
  have hobs := (net p).observes_ingest sync nowMicros
  have hext := (net p).extends_ingest sync nowMicros
  refine ⟨hobs.peer, hobs.now, hext.keeps, fun s op hs => .inl ?_⟩
  rcases hext.only s op hs with hs | hs
  · exact ⟨p, hs⟩
  · obtain ⟨op', hop, heq⟩ := mem_map.1 hs
    cases heq
    exact hships op hop

/-- Every event of a network is an advance of its replica. -/
theorem Sane.advance_step (h : net.Sane) {ev : PlaneEvent C} (hok : net.Allows (p, ev)) :
    net.Advance p ((net p).step ev) := by
  cases ev with
  | addPeer peer => exact .quiet rfl rfl rfl
  | register node key crdt =>
    refine .quiet ?_ ?_ rfl
    · cases key <;> rfl
    · cases key <;> rfl
  | registerFamily family => exact .quiet rfl rfl rfl
  | localUpdate node nowMicros mutate =>
    exact h.advance_emission ((net p).emission_localUpdate mutate node nowMicros)
  | familySet name suffix seed mutate nowMicros =>
    rcases (net p).emission_familySet mutate name suffix seed nowMicros with heq | he
    · exact .quiet (congrArg (·.plane.peer) heq) (congrArg (·.plane.clock) heq)
        (congrArg (·.log) heq)
    · exact h.advance_emission he
  | ingest sync nowMicros => exact .ingest hok nowMicros

/-- **Networks stay sane**, whatever frames of emitted ops they deliver. -/
theorem Sane.step (h : net.Sane) {e : PeerId × PlaneEvent C} (hok : net.Allows e) :
    (net.step e).Sane :=
  h.advance (h.advance_step hok)

end Net

end Lazily.Crdt
