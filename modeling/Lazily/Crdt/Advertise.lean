import Lazily.Crdt.Isolation
import Lazily.Crdt.Network

/-!
# What a replica advertises

A replica advertises the frontier of its plane, not the one of its log. `ingest` joins the frontier
of a frame into it before it looks at the ops, so a frame that brings fewer ops than it advertises
makes the receiver claim ops it never had (`pull_request_hides_op`), and every later `syncReply`
leaves them out. `syncReply_complete`: as long as no frame brings less than it moves the frontier
over, a reply holds every op that the requester lacks.
-/

namespace Lazily.Crdt

open Lib OpLog Function Watermark List Net CrdtPlaneRuntime Std.ExtTreeMap

variable {C V : Type}

namespace Net

/-- The stamps by which an event moves the frontier of its replica. -/
def Moves (p : PeerId) (sync : CrdtSync C) (t : HlcStamp) : Prop :=
  (t.peer ≠ p ∧ ∃ e ∈ sync.frontier, e.2 = t) ∨ ∃ op ∈ sync.ops, op.stamp = t

/-- A frame advertises what some replica has observed. -/
def Advertised (net : Net C V) (e : PeerId × PlaneEvent C) : Prop :=
  match e.2 with
  | .ingest sync _ => ∀ f ∈ sync.frontier, ∃ r, (net r).plane.frontier.Covers f.2.peer f.2
  | _ => True

/-- The receiver has, or the frame brings, every op below a stamp by which its frontier moves. -/
def Covered (net : Net C V) (e : PeerId × PlaneEvent C) : Prop :=
  match e.2 with
  | .ingest sync _ => ∀ t, Moves e.1 sync t → ∀ s ∈ (net t.peer).log.ops, s.peer = t.peer → s ≤ t →
      s ∈ (net e.1).log.ops ∨ ∃ op ∈ sync.ops, op.stamp = s
  | _ => True

/-- No frontier is ahead of the clock of a peer, and a frontier covers what is in the log and
nothing else. -/
structure Honest (net : Net C V) : Prop extends Sane net where
  logged : ∀ p, CrdtPlaneRuntime.Logged (net p).log (net p).plane
  genuine : ∀ p q t, (net p).plane.frontier.Covers q t → t ≤ (net q).plane.clock.now
  covered : ∀ p (s : HlcStamp), (net p).plane.frontier.Covers s.peer s →
    s ∈ (net s.peer).log.ops → s ∈ (net p).log.ops

variable {net : Net C V} {p : PeerId} {rt : CrdtPlaneRuntime C V} {nowMicros : Nat} {s : HlcStamp}

theorem honest_new : (new : Net C V).Honest := by
  refine ⟨sane_new, fun p s h => absurd h not_mem_empty, fun p q t h => ?_,
    fun p s h => ?_⟩
  · exact absurd h (not_covers_empty q t)
  · exact absurd h (not_covers_empty s.peer s)

theorem Advance.mem (h : net.Advance p rt) (hs : s ∈ (net p).log.ops) : s ∈ rt.log.ops := by
  obtain ⟨op, hop⟩ := mem_iff_exists.1 hs
  exact mem_iff_exists.2 ⟨op, h.keeps s op hop⟩

/-- The stamps of an advance keep the network honest if they are below their peer's clock and the
log has what they cover. -/
theorem Honest.advance (h : net.Honest) (hadv : net.Advance p rt)
    (hlogged : CrdtPlaneRuntime.Logged rt.log rt.plane) (seen : HlcStamp → Prop)
    (hobs : (net p).plane.Observes rt.plane seen)
    (hclock : ∀ t, seen t → t ≤ (update net p rt t.peer).plane.clock.now)
    (hlog : ∀ t, seen t → ∀ s ∈ (net t.peer).log.ops, s.peer = t.peer → s ≤ t → s ∈ rt.log.ops) :
    Honest (update net p rt) := by
  refine ⟨h.toSane.advance hadv, fun r => ?_, fun r q t hcov => ?_, fun r s hcov hmem => ?_⟩
  · by_cases hr : r = p
    · subst hr
      rwa [update_self]
    · rw [update_of_ne hr]
      exact h.logged r
  · by_cases hr : r = p
    · subst hr
      rw [update_self] at hcov
      rcases hobs.covers q t hcov with hcov | ⟨s, hs, rfl, hle⟩
      · exact (h.genuine r q t hcov).trans (hadv.now_le q)
      · exact hle.trans (hclock s hs)
    · rw [update_of_ne hr] at hcov
      exact (h.genuine r q t hcov).trans (hadv.now_le q)
  · obtain ⟨op, hop⟩ := mem_iff_exists.1 hmem
    rcases hadv.inv hop with ⟨q, hq⟩ | ⟨hown, -, -, hlt, -⟩
    · -- the op is old: the frontier covered it before, or covers it by one of the new stamps
      have hold : s ∈ (net s.peer).log.ops := mem_iff_exists.2 ⟨op, h.owned q s op hq⟩
      by_cases hr : r = p
      · subst hr
        rw [update_self] at hcov ⊢
        rcases hobs.covers _ s hcov with hcov | ⟨t, ht, hpeer, hle⟩
        · exact hadv.mem (h.covered r s hcov hold)
        · exact hlog t ht s (hpeer ▸ hold) hpeer.symm hle
      · rw [update_of_ne hr] at hcov ⊢
        exact h.covered r s hcov hold
    · -- the op is new: no other replica's frontier has come so far
      by_cases hr : r = p
      · subst hr
        rwa [hown] at hmem
      · rw [update_of_ne hr, hown] at hcov
        exact absurd (h.genuine r p s hcov) (not_le.2 hlt)

theorem Honest.quiet (h : net.Honest) (hadv : net.Advance p rt)
    (hfrontier : rt.plane.frontier = (net p).plane.frontier) (hlog : rt.log = (net p).log) :
    Honest (update net p rt) := by
  have hlogged : CrdtPlaneRuntime.Logged rt.log rt.plane := by
    intro s hs
    rw [hfrontier]
    exact h.logged p s (hlog ▸ hs)
  refine h.advance hadv hlogged (fun _ => False) ⟨hadv.peer, hadv.now, fun q t hcov => ?_⟩
    (fun t ht => ht.elim) fun t ht => ht.elim
  exact .inl (hfrontier ▸ hcov)

theorem Honest.emission (h : net.Honest)
    (he : (net p).Emission rt nowMicros) : Honest (update net p rt) := by
  have hadv := h.toSane.advance_emission he
  have hpeer : ((net p).plane.tick nowMicros).2.peer = p := by
    rw [CrdtPlane.tick_stamp_peer, h.peer]
  have hobs := (net p).plane.observes_tick nowMicros
  rw [← he.1] at hobs
  refine h.advance hadv (he.logged (h.logged p)) _ hobs ?_ ?_
  · rintro t rfl
    rw [hpeer, update_self, he.1, CrdtPlane.tick_now]
  · rintro t rfl s hs - -
    exact hadv.mem (hpeer ▸ hs)

/-- The frontier survives the wire. -/
theorem covers_wireFrontierToStamp {q : PeerId} {t : HlcStamp} :
    (wireFrontierToStamp rt.wireFrontier).Covers q t ↔ rt.plane.frontier.Covers q t := by
  unfold wireFrontierToStamp wireFrontier
  rw [covers_foldl_observe]
  constructor
  · rintro (h | ⟨e, he, rfl, hle⟩)
    · exact absurd h (not_covers_empty q t)
    · exact ⟨e.2, mem_toList_iff_getElem?_eq_some.1 he, hle⟩
  · rintro ⟨cur, hcur, hle⟩
    exact .inr ⟨(q, cur), mem_toList_iff_getElem?_eq_some.2 hcur, rfl, hle⟩

/-- An op that a frontier of an honest network covers is in the log. -/
theorem Honest.of_covers (h : net.Honest) {a b : PeerId} {op : CrdtOp C}
    (hs : (net a).log.ops[s]? = some op) (hcov : (net b).plane.frontier.Covers s.peer s) :
    (net b).log.ops[s]? = some op := by
  have hown := h.owned a s op hs
  obtain ⟨op', hop'⟩ := mem_iff_exists.1 (h.covered b s hcov (mem_iff_exists.2 ⟨op, hown⟩))
  have hown' := h.owned b s op' hop'
  rw [hown] at hown'
  cases hown'
  exact hop'

theorem covers_of_mem_wireFrontier {f : PeerId × HlcStamp} (hf : f ∈ rt.wireFrontier) :
    rt.plane.frontier.Covers f.2.peer f.2 := by
  have hcur := mem_toList_iff_getElem?_eq_some.1 hf
  rw [rt.plane.keyed f.1 f.2 hcur]
  exact ⟨f.2, hcur, le_rfl⟩

variable [CellCrdt C V]

theorem Honest.ingest (h : net.Honest) {sync : CrdtSync C}
    (hships : net.Ships sync) (hadvertised : net.Advertised (p, .ingest sync nowMicros))
    (hcovered : net.Covered (p, .ingest sync nowMicros)) :
    Honest (update net p ((net p).ingest sync nowMicros).1) := by
  have hadv : net.Advance p ((net p).ingest sync nowMicros).1 := .ingest hships nowMicros
  have hobs := (net p).observes_ingest sync nowMicros
  rw [h.peer] at hobs
  refine h.advance hadv (logged_ingest (h.logged p) sync nowMicros) _ hobs
    (fun t ht => ?_) fun t ht s hs hpeer hle => ?_
  · refine le_trans ?_ (hadv.now_le t.peer)
    rcases ht with ⟨-, f, hf, rfl⟩ | ⟨op, hop, rfl⟩
    · obtain ⟨r, hr⟩ := hadvertised f hf
      exact h.genuine r _ _ hr
    · obtain ⟨q, hq⟩ := hships op hop
      exact h.issued _ _ op (h.owned q _ op hq) rfl
  · rcases hcovered t ht s hs hpeer hle with hs | ⟨op, hop, rfl⟩
    · exact hadv.mem hs
    · exact ((net p).extends_ingest sync nowMicros).stores _ (mem_map_of_mem hop)

variable [DecidableEq V] [StateCodec C]

theorem Honest.step (h : net.Honest) {e : PeerId × PlaneEvent C} (hok : net.Allows e)
    (hadvertised : net.Advertised e) (hcovered : net.Covered e) : (net.step e).Honest := by
  obtain ⟨p, ev⟩ := e
  have hadv := h.advance_step hok
  cases ev with
  | addPeer peer => exact h.quiet hadv rfl rfl
  | register node key crdt =>
    refine h.quiet hadv ?_ rfl
    cases key <;> rfl
  | registerFamily family => exact h.quiet hadv rfl rfl
  | localUpdate node nowMicros mutate =>
    exact h.emission ((net p).emission_localUpdate mutate node nowMicros)
  | familySet name suffix seed mutate nowMicros =>
    rcases (net p).emission_familySet mutate name suffix seed nowMicros with heq | he
    · exact h.quiet hadv (congrArg (·.plane.frontier) heq) (congrArg (·.log) heq)
    · exact h.emission he
  | ingest sync nowMicros => exact h.ingest hok hadvertised hcovered

/-- What a run keeps whose frames bring what they advertise. -/
def Faithful (net : Net C V) (e : PeerId × PlaneEvent C) : Prop :=
  net.Allows e ∧ net.Advertised e ∧ net.Covered e

omit [CellCrdt C V] [DecidableEq V] [StateCodec C] in
/-- Frames that leave out only what the receiver has are faithful. -/
theorem Honest.faithful_syncFrameSince (h : net.Honest) {a b : PeerId} {since : StampFrontier}
    (hsince : ∀ s ∈ (net a).log.ops, since.Covers s.peer s → s ∈ (net b).log.ops)
    (nowMicros : Nat) : net.Faithful (b, .ingest ((net a).syncFrameSince since) nowMicros) := by
  have hops : ∀ op ∈ ((net a).syncFrameSince since).ops, (net a).log.ops[op.stamp]? = some op := by
    intro op hop
    obtain ⟨⟨s, op'⟩, hmissing, rfl⟩ := mem_map.1 hop
    have hs := (mem_missingSince.1 hmissing).1
    rwa [h.stamped a s op' hs]
  refine ⟨fun op hop => ⟨a, hops op hop⟩, fun f hf => ⟨a, covers_of_mem_wireFrontier hf⟩, ?_⟩
  intro t ht s hs hpeer hle
  -- the sender's frontier covers whatever moves the receiver's
  have hcov : (net a).plane.frontier.Covers t.peer t := by
    rcases ht with ⟨-, f, hf, rfl⟩ | ⟨op, hop, rfl⟩
    · exact covers_of_mem_wireFrontier hf
    · exact h.logged a _ (mem_iff_exists.2 ⟨op, hops op hop⟩)
  rw [← hpeer] at hcov hs
  have hmem := h.covered a s (covers_mono hcov hle) hs
  by_cases hhas : since.Covers s.peer s
  · exact .inl (hsince s hmem hhas)
  · obtain ⟨op, hop⟩ := mem_iff_exists.1 hmem
    refine .inr ⟨op, mem_map.2 ⟨(s, op), mem_missingSince.2 ⟨hop, hhas⟩, rfl⟩, ?_⟩
    exact h.stamped a s op hop

omit [CellCrdt C V] [DecidableEq V] [StateCodec C] in
/-- Pulling by `syncReply` is faithful, and so is shipping the whole log. -/
theorem Honest.faithful_syncReply (h : net.Honest) (a b : PeerId) (ops : List (CrdtOp C))
    (nowMicros : Nat) :
    net.Faithful (b, .ingest ((net a).syncReply ⟨(net b).wireFrontier, ops⟩) nowMicros) ∧
      net.Faithful (b, .ingest (net a).syncFrame nowMicros) := by
  constructor
  · refine h.faithful_syncFrameSince (fun s hs hcov => ?_) nowMicros
    obtain ⟨op, hop⟩ := mem_iff_exists.1 hs
    exact mem_iff_exists.2 ⟨op, h.of_covers hop (covers_wireFrontierToStamp.1 hcov)⟩
  · exact h.faithful_syncFrameSince (fun s _ hcov => absurd hcov (not_covers_empty _ s)) nowMicros

theorem honest_of_reach {net : Net C V} (h : Reach step Faithful new net) : net.Honest :=
  h.invariant honest_new fun _ _ hI hok => hI.step hok.1 hok.2.1 hok.2.2

/-- **A reply holds what the requester lacks.** In every run whose frames bring the ops below the
stamps they move the receiver's frontier over, the reply to a request with the frontier of `b` ships
every op of `a` that `b` lacks and may read, and the frontier of `b` covers no op that `b` has not
received. -/
theorem syncReply_complete {net : Net C V} (h : Reach Net.step Faithful Net.new net)
    (a b : PeerId) (permissions : PeerPermissions) (ops : List (CrdtOp C)) :
    (∀ (s : HlcStamp) op, (net a).log.ops[s]? = some op → (net b).log.ops[s]? = none →
      permissions.canRead b op.node = true →
      op ∈ (((net a).syncReply ⟨(net b).wireFrontier, ops⟩).filterReadable permissions b).ops) ∧
    ∀ (s : HlcStamp) op, (net a).log.ops[s]? = some op →
      (net b).plane.frontier.Covers s.peer s → (net b).log.ops[s]? = some op := by
  have honest := honest_of_reach h
  refine ⟨fun s op hs hlacks hread => ?_, fun s op hs hcov => honest.of_covers hs hcov⟩
  have hcov : ¬(net b).plane.frontier.Covers s.peer s := by
    intro hcov
    rw [honest.of_covers hs hcov] at hlacks
    cases hlacks
  refine mem_filter.2 ⟨mem_map.2 ⟨(s, op), mem_missingSince.2 ⟨hs, ?_⟩, rfl⟩, hread⟩
  rwa [covers_wireFrontierToStamp]

/-! ## A pull request -/

def oneOp : Net (LwwRegister Nat) Nat := new.step (1, .familySetLww ['f'] ['a'] 10 5)

theorem reach_oneOp : Reach step Faithful new oneOp :=
  Reach.start.next _ ⟨trivial, trivial, trivial⟩

def stampA : HlcStamp := ⟨5, 0, 1⟩

def opA : CrdtOp (LwwRegister Nat) :=
  ⟨familyNodeBase, some CrdtPlaneRuntime.keyA, stampA, .inline (some ⟨10, stampA⟩)⟩

def readAll : PeerPermissions := ⟨fun _ => some [familyNodeBase]⟩

/-- Peer 2 pulls; what its frontier then covers it has. -/
theorem syncReply_complete_pulled :
    let net := oneOp.step (2, .ingest ((oneOp 1).syncReply ⟨(oneOp 2).wireFrontier, []⟩) 6)
    (net 2).wireFrontier = [(1, stampA)] ∧ (net 2).log.ops[stampA]? = some opA := by
  intro net
  have hpull := (honest_of_reach reach_oneOp).faithful_syncReply 1 2 [] 6
  have hwire : (net 2).wireFrontier = [(1, stampA)] := by decide +kernel
  have hcov := covers_of_mem_wireFrontier (hwire ▸ mem_singleton_self (1, stampA))
  have hmem : (net 1).log.ops[stampA]? = some opA := by decide +kernel
  exact ⟨hwire, (syncReply_complete (reach_oneOp.next _ hpull.1) 1 2 readAll []).2 _ _ hmem hcov⟩

/-- Peer 1 asks peer 2 for news with its frontier and no ops. Peer 2 ingests the request, advertises
the op of peer 1 as its own knowledge, and the reply of peer 1 leaves it out. -/
theorem pull_request_hides_op :
    let net := oneOp.step (2, .ingest ⟨(oneOp 1).wireFrontier, []⟩ 6)
    Reach Net.step (fun net e => net.Allows e ∧ net.Advertised e) Net.new net ∧
      (net 1).log.ops[stampA]? = some opA ∧ (net 2).log.ops[stampA]? = none ∧
      readAll.canRead 2 opA.node = true ∧
      (((net 1).syncReply ⟨(net 2).wireFrontier, []⟩).filterReadable readAll 2).ops = [] ∧
      (net 2).wireFrontier = [(1, stampA)] := by
  intro net
  have hreach : Reach step (fun net e => net.Allows e ∧ net.Advertised e) new oneOp :=
    reach_oneOp.mono fun _ _ h => ⟨h.1, h.2.1⟩
  have hships : oneOp.Ships ⟨(oneOp 1).wireFrontier, []⟩ := by
    intro op hop
    cases hop
  exact ⟨hreach.next _ ⟨hships, fun f hf => ⟨1, covers_of_mem_wireFrontier hf⟩⟩,
    by decide +kernel, by decide +kernel, by decide +kernel, by decide +kernel, by decide +kernel⟩

end Net

end Lazily.Crdt
