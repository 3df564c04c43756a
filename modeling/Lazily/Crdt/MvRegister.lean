import Lazily.Crdt.Register
import Lazily.Lib.Maximal
import Lazily.Lib.SortedMap

/-!
# The multi-value register (`crdt.rs`)

Each write is tagged with a version vector that is above all the register holds. A merge takes the
entries of both registers and keeps those that no other is above, in the order in which they come.

The entries of a register are the maximal ones of all the writes it has seen, whatever the history
(`tracks`). Their order is another matter: two registers that have merged each other list the same
entries (`merged_both_ways`), but each its own first (`merged_lists_differ`).
-/

namespace Lazily.Crdt

open Lib List
open scoped SortedSet

/-! ## Version vectors -/

/-- Counters of peers. No counter is 0: a peer that has not written has no entry. -/
@[ext] structure VersionVector where
  counters : SortedMap PeerId Nat
  pos : ∀ (p : PeerId) (c : Nat), counters[p]? = some c → 0 < c

namespace VersionVector

instance instDecidableEq : DecidableEq VersionVector := fun v w =>
  decidable_of_iff (v.counters = w.counters) ⟨VersionVector.ext, fun h => h ▸ rfl⟩

def empty : VersionVector := ⟨∅, by simp⟩

variable (v : VersionVector)

def get (p : PeerId) : Nat := v.counters[p]?.getD 0

/-- `*entry.or_insert(0) = max(entry, c)`, for a counter that is not 0. -/
def raise (e : PeerId × Nat) : VersionVector :=
  if h : 0 < e.2 then
    ⟨v.counters.insert e.1 (max (v.get e.1) e.2), fun p c hc => by
      rw [SortedMap.get_insert] at hc
      split at hc
      · have := Option.some.inj hc
        omega
      · exact v.pos p c hc⟩
  else v

/-- Raise every counter to that of `floor`. -/
def join (floor : VersionVector) : VersionVector := floor.counters.toList.foldl raise v

/-- One past the maximum of `self` and `floor` for the peer, and `floor` for the others. -/
def bump (peer : PeerId) (floor : VersionVector) : VersionVector :=
  (v.raise (peer, max (v.get peer) (floor.get peer) + 1)).join floor

/-- Every component is at least that of the other. -/
def dominates (w : VersionVector) : Bool := w.counters.toList.all fun e => e.2 ≤ v.get e.1

variable {u v w : VersionVector} {p : PeerId}

theorem ext_get (h : ∀ p, v.get p = w.get p) : v = w := by
  refine VersionVector.ext (Std.ExtTreeMap.ext_getElem? fun p => ?_)
  have hp := h p
  unfold get at hp
  cases hv : v.counters[p]? with
  | none =>
    cases hw : w.counters[p]? with
    | none => rfl
    | some c =>
      rw [hv, hw] at hp
      exact absurd hp (w.pos p c hw).ne
  | some c =>
    cases hw : w.counters[p]? with
    | none =>
      rw [hv, hw] at hp
      exact absurd hp (v.pos p c hv).ne'
    | some d =>
      rw [hv, hw] at hp
      exact congrArg some hp

@[simp] theorem get_empty : empty.get p = 0 := by simp [empty, get]

theorem get_raise (e : PeerId × Nat) :
    (v.raise e).get p = if e.1 = p then max (v.get p) e.2 else v.get p := by
  unfold raise
  split
  · rw [get, SortedMap.get_insert]
    split
    · rename_i hp
      rw [hp, Option.getD_some]
    · rfl
  · split
    · have : e.2 = 0 := by omega
      rw [this, Nat.max_zero]
    · rfl

theorem le_get_foldl_raise (l : List (PeerId × Nat)) {c : Nat} :
    c ≤ (l.foldl raise v).get p ↔ c ≤ v.get p ∨ ∃ e ∈ l, e.1 = p ∧ c ≤ e.2 := by
  induction l generalizing v with
  | nil => simp
  | cons e l ih =>
    rw [foldl_cons, ih, get_raise]
    by_cases hp : e.1 = p
    · simp [hp, or_assoc]
    · simp [hp]

@[simp] theorem get_join : (v.join w).get p = max (v.get p) (w.get p) := by
  refine eq_of_forall_le_iff fun c => ?_
  rw [join, le_get_foldl_raise]
  have hmax : c ≤ max (v.get p) (w.get p) ↔ c ≤ v.get p ∨ c ≤ w.get p := by omega
  rw [hmax]
  constructor
  · rintro (h | ⟨e, he, rfl, h⟩)
    · exact .inl h
    · rw [get, get, Std.ExtTreeMap.mem_toList_iff_getElem?_eq_some.1 he]
      exact .inr h
  · rintro (h | h)
    · exact .inl h
    · cases hw : w.counters[p]? with
      | none => exact .inl (by simp_all [get])
      | some d =>
        refine .inr ⟨(p, d), Std.ExtTreeMap.mem_toList_iff_getElem?_eq_some.2 hw, rfl, ?_⟩
        simpa [get, hw] using h

theorem get_bump (peer : PeerId) : (v.bump peer w).get p =
    if peer = p then max (v.get p) (w.get p) + 1 else max (v.get p) (w.get p) := by
  rw [bump, get_join, get_raise]
  split
  · rename_i hp
    subst hp
    simp only
    omega
  · rfl

theorem dominates_iff : v.dominates w = true ↔ ∀ p, w.get p ≤ v.get p := by
  rw [dominates, all_eq_true]
  constructor
  · intro h p
    cases hw : w.counters[p]? with
    | none => simp [get, hw]
    | some c =>
      have := of_decide_eq_true (h (p, c) (Std.ExtTreeMap.mem_toList_iff_getElem?_eq_some.2 hw))
      simpa [get, hw] using this
  · intro h e he
    have hw := Std.ExtTreeMap.mem_toList_iff_getElem?_eq_some.1 he
    refine decide_eq_true (le_trans ?_ (h e.1))
    simp [get, hw]

/-- The order of domination; the entries of a register below another entry are dropped. -/
instance instPartialOrder : PartialOrder VersionVector where
  le v w := ∀ p, v.get p ≤ w.get p
  le_refl _ _ := le_rfl
  le_trans _ _ _ huv hvw p := (huv p).trans (hvw p)
  le_antisymm _ _ hvw hwv := ext_get fun p => le_antisymm (hvw p) (hwv p)

theorem le_iff : v ≤ w ↔ ∀ p, v.get p ≤ w.get p := Iff.rfl

theorem lt_bump (h : u ≤ w) (peer : PeerId) : u < empty.bump peer w := by
  refine lt_of_le_of_ne (fun p => ?_) fun heq => ?_
  · have := h p
    rw [get_bump, get_empty]
    split <;> omega
  · have := h peer
    rw [heq, get_bump, if_pos rfl, get_empty] at this
    omega

end VersionVector

/-! ## The register -/

def Below {T : Type} (e k : VersionVector × T) : Prop := k.1.dominates e.1 = true ∧ k.1 ≠ e.1

instance instDecidableRelBelow {T : Type} : DecidableRel (Below (T := T)) :=
  fun _ _ => inferInstanceAs (Decidable (_ ∧ _))

theorem below_iff {T : Type} {e k : VersionVector × T} : Below e k ↔ e.1 < k.1 := by
  rw [Below, VersionVector.dominates_iff, ← VersionVector.le_iff, lt_iff_le_and_ne, ne_comm]

instance instIsStrictOrderBelow {T : Type} : IsStrictOrder (VersionVector × T) Below where
  irrefl _ h := h.2 rfl
  trans _ _ _ hab hbc := below_iff.2 ((below_iff.1 hab).trans (below_iff.1 hbc))

structure MvRegister (T : Type) where
  entries : List (VersionVector × T)
  deriving DecidableEq

namespace MvRegister

variable {T : Type}

def new : MvRegister T := ⟨[]⟩

def observed (r : MvRegister T) : VersionVector := r.entries.foldl (fun vv e => vv.join e.1) .empty

def values (r : MvRegister T) : List T := r.entries.map Prod.snd

theorem le_observed {r : MvRegister T} {e : VersionVector × T} (he : e ∈ r.entries) :
    e.1 ≤ r.observed := by
  have main : ∀ (l : List (VersionVector × T)) (vv : VersionVector), (∀ p, vv.get p ≤
      (l.foldl (fun vv e => vv.join e.1) vv).get p) ∧
      ∀ e ∈ l, e.1 ≤ l.foldl (fun vv e => vv.join e.1) vv := by
    intro l
    induction l with
    | nil => exact fun vv => ⟨fun p => le_rfl, by simp⟩
    | cons k l ih =>
      intro vv
      obtain ⟨hstart, hl⟩ := ih (vv.join k.1)
      refine ⟨fun p => le_trans ?_ (hstart p), fun e he => ?_⟩
      · rw [VersionVector.get_join]
        omega
      · rcases mem_cons.1 he with rfl | he
        · refine fun p => le_trans ?_ (hstart p)
          rw [VersionVector.get_join]
          omega
        · exact hl e he
  exact (main r.entries .empty).2 e he

variable [DecidableEq T]

/-- A local write: it supersedes all the register holds. -/
def set (r : MvRegister T) (value : T) (peer : PeerId) : MvRegister T × Bool :=
  let next := VersionVector.empty.bump peer r.observed
  (⟨[(next, value)]⟩, decide (r.values ≠ [value]))

/-- Drop the entries that are strictly dominated, and duplicates. -/
def normalize (r : MvRegister T) : MvRegister T := ⟨maximals Below r.entries⟩

instance instCellCrdt : CellCrdt (MvRegister T) (List T) where
  mergeFrom r other :=
    let r' := normalize ⟨r.entries ++ other.entries⟩
    (r', decide (r'.values ≠ r.values))
  value := values

def merge (r other : MvRegister T) : MvRegister T := (CellCrdt.mergeFrom r other).1

end MvRegister

/-! ## Histories -/

/-- The calls that have led to a register. A register that is cloned, or sent, is a history that two
others go on from. -/
inductive MvHistory (T : Type) where
  | new
  | set (h : MvHistory T) (value : T) (peer : PeerId)
  | merge (h other : MvHistory T)

namespace MvHistory

variable {T : Type}

/-- Lists with the same elements and the same values, these distinct, are equal. -/
theorem eq_of_map_snd_eq {l l' : List (VersionVector × T)} (hnodup : (l.map Prod.snd).Nodup)
    (hmem : ∀ e, e ∈ l' → e ∈ l) (heq : l.map Prod.snd = l'.map Prod.snd) : l = l' := by
  have hlen : l.length = l'.length := by simpa using congrArg length heq
  refine ext_getElem hlen fun i h h' => ?_
  refine inj_on_of_nodup_map hnodup (getElem_mem h) (hmem _ (getElem_mem h')) ?_
  have hi : (l.map Prod.snd)[i]? = (l'.map Prod.snd)[i]? := by rw [heq]
  simpa [h, h'] using hi

variable [DecidableEq T]

def state : MvHistory T → MvRegister T
  | .new => .new
  | .set h value peer => (h.state.set value peer).1
  | .merge h other => h.state.merge other.state

/-- The writes the register has seen, with their vectors. -/
def written : MvHistory T → List (VersionVector × T)
  | .new => []
  | .set h value peer => h.written ++ (h.state.set value peer).1.entries
  | .merge h other => h.written ++ other.written

/-- No write of the list is above the entry. -/
def Survives (written : List (VersionVector × T)) (e : VersionVector × T) : Prop :=
  e ∈ written ∧ ∀ k ∈ written, ¬ Below e k

/-- The entries are distinct, they are the writes that survive, and every write is below one. -/
structure Tracks (r : MvRegister T) (written : List (VersionVector × T)) : Prop where
  antichain : Antichain Below r.entries
  mem : ∀ e, e ∈ r.entries ↔ Survives written e
  cover : ∀ k ∈ written, ∃ e ∈ r.entries, k.1 ≤ e.1

theorem tracks_set {r : MvRegister T} {written : List (VersionVector × T)} (h : Tracks r written)
    (value : T) (peer : PeerId) :
    Tracks (r.set value peer).1 (written ++ (r.set value peer).1.entries) := by
  generalize hnext : VersionVector.empty.bump peer r.observed = next
  have hentries : (r.set value peer).1.entries = [(next, value)] := by rw [← hnext]; rfl
  have habove : ∀ k ∈ written, k.1 < next := fun k hk => by
    obtain ⟨e, he, hle⟩ := h.cover k hk
    exact hnext ▸ VersionVector.lt_bump (hle.trans (MvRegister.le_observed he)) peer
  have hnew : ∀ k ∈ written, ¬ Below (next, value) k := fun k hk hlt =>
    lt_asymm (habove k hk) (below_iff.1 hlt)
  rw [hentries]
  refine ⟨⟨by simp [hentries], ?_⟩, fun e => ?_, fun k hk => ?_⟩
  · rw [hentries]
    intro x hx y hy hlt
    rw [mem_singleton.1 hx, mem_singleton.1 hy] at hlt
    exact irrefl_of Below _ hlt
  · rw [hentries, mem_singleton]
    constructor
    · rintro rfl
      refine ⟨by simp, fun k hk => ?_⟩
      rcases mem_append.1 hk with hk | hk
      · exact hnew k hk
      · rw [mem_singleton.1 hk]
        exact irrefl_of Below _
    · rintro ⟨he, hfree⟩
      rcases mem_append.1 he with he | he
      · exact absurd (below_iff.2 (habove e he)) (hfree (next, value) (by simp))
      · exact mem_singleton.1 he
  · rw [hentries]
    refine ⟨(next, value), mem_singleton.2 rfl, ?_⟩
    rcases mem_append.1 hk with hk | hk
    · exact (habove k hk).le
    · rw [mem_singleton.1 hk]

theorem tracks_merge {r r' : MvRegister T} {written written' : List (VersionVector × T)}
    (h : Tracks r written) (h' : Tracks r' written') :
    Tracks (r.merge r') (written ++ written') := by
  have hmem : ∀ {e}, e ∈ (r.merge r').entries ↔ (e ∈ r.entries ∨ e ∈ r'.entries) ∧
      (∀ k ∈ r.entries, ¬ Below e k) ∧ ∀ k ∈ r'.entries, ¬ Below e k :=
    mem_maximals_append h.antichain h'.antichain
  -- a write above an entry has an entry above it
  have hfree : ∀ {r written} (_ : Tracks r written) {e : VersionVector × T},
      (∀ k ∈ r.entries, ¬ Below e k) ↔ ∀ k ∈ written, ¬ Below e k := by
    intro r written h e
    refine ⟨fun hk k hkw hlt => ?_, fun hk k hkr => hk k ((h.mem k).1 hkr).1⟩
    obtain ⟨k', hk', hle⟩ := h.cover k hkw
    exact hk k' hk' (below_iff.2 ((below_iff.1 hlt).trans_le hle))
  have hcover : ∀ k, (k ∈ r.entries ∨ k ∈ r'.entries) → ∃ e ∈ (r.merge r').entries, k.1 ≤ e.1 := by
    intro k hk
    obtain ⟨e, he, hke⟩ := exists_mem_maximals_append h.antichain h'.antichain hk
    refine ⟨e, he, ?_⟩
    rcases hke with rfl | hlt
    · exact le_rfl
    · exact (below_iff.1 hlt).le
  refine ⟨antichain_maximals_append h.antichain h'.antichain, fun e => ?_, fun k hk => ?_⟩
  · rw [hmem, hfree h, hfree h', Survives, forall_mem_append, mem_append]
    refine and_congr_left fun ⟨hw, hw'⟩ => or_congr ?_ ?_
    · exact (h.mem e).trans (and_iff_left hw)
    · exact (h'.mem e).trans (and_iff_left hw')
  · rcases mem_append.1 hk with hk | hk
    · obtain ⟨z, hz, hle⟩ := h.cover k hk
      obtain ⟨e, he, hle'⟩ := hcover z (.inl hz)
      exact ⟨e, he, hle.trans hle'⟩
    · obtain ⟨z, hz, hle⟩ := h'.cover k hk
      obtain ⟨e, he, hle'⟩ := hcover z (.inr hz)
      exact ⟨e, he, hle.trans hle'⟩

theorem tracks (h : MvHistory T) : Tracks h.state h.written := by
  induction h with
  | new => exact ⟨⟨nodup_nil, by simp [state, MvRegister.new]⟩,
      fun e => by simp [state, written, MvRegister.new, Survives], by simp [written]⟩
  | set h value peer ih => exact tracks_set ih value peer
  | merge h other ih ih' => exact tracks_merge ih ih'

/-- What the register keeps of its entries against those of another. -/
def kept (a b : MvHistory T) : List (VersionVector × T) :=
  unbeaten Below a.state.entries b.state.entries

/-- Two registers merge each other, one after the other or both at once. Their entries are the
writes either has seen that no other such write is above. Their values are equal lists if what one
of them keeps begins with what the other keeps, and if the values are distinct, only then. -/
theorem merged_both_ways (a b : MvHistory T) :
    (∀ e, e ∈ (a.merge b).state.entries ↔ Survives (a.written ++ b.written) e) ∧
    (∀ e, e ∈ (b.merge (a.merge b)).state.entries ↔ Survives (a.written ++ b.written) e) ∧
    (b.merge (a.merge b)).state = (b.merge a).state ∧
    (a.kept b <+: b.kept a ∨ b.kept a <+: a.kept b →
      (a.merge b).state.values = (b.merge (a.merge b)).state.values) ∧
    ((a.merge b).state.values.Nodup →
      (a.merge b).state.values = (b.merge (a.merge b)).state.values →
      a.kept b <+: b.kept a ∨ b.kept a <+: a.kept b) := by
  have ha := a.tracks.antichain
  have hb := b.tracks.antichain
  have habsorb : (b.merge (a.merge b)).state = (b.merge a).state :=
    congrArg MvRegister.mk (maximals_append_absorb ha hb)
  have hcomm : (a.merge b).state.entries = (b.merge a).state.entries ↔
      a.kept b <+: b.kept a ∨ b.kept a <+: a.kept b := maximals_append_comm_iff ha hb
  have hswap : ∀ e, Survives (b.written ++ a.written) e ↔ Survives (a.written ++ b.written) e :=
    fun e => by simp only [Survives, mem_append, or_comm]
  have hmem : ∀ e, e ∈ (a.merge b).state.entries ↔ Survives (a.written ++ b.written) e :=
    (a.merge b).tracks.mem
  have hmem' : ∀ e, e ∈ (b.merge a).state.entries ↔ Survives (a.written ++ b.written) e :=
    fun e => ((b.merge a).tracks.mem e).trans (hswap e)
  rw [habsorb]
  refine ⟨hmem, hmem', rfl, fun h => congrArg (map Prod.snd) (hcomm.2 h),
    fun hnodup heq => hcomm.1 ?_⟩
  exact eq_of_map_snd_eq hnodup (fun e he => (hmem e).2 ((hmem' e).1 he)) heq

/-- Two peers write at the same time, and each merges the other's register. -/
theorem merged_lists_differ :
    ¬ (((MvHistory.new.set 10 1).merge (MvHistory.new.set 20 2)).state.values =
      ((MvHistory.new.set 20 2).merge
        ((MvHistory.new.set 10 1).merge (MvHistory.new.set 20 2))).state.values) := by
  decide +kernel

end MvHistory

end Lazily.Crdt
