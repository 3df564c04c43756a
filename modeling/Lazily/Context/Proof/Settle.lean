import Mathlib.Data.Fintype.Order
import Lazily.Context.Proof.Refresh

/-!
# Refreshes that return

A refresh of a stale slot goes to the dependencies that its previous run recorded, whether they are
still read or not, and then to the cells that the closure reads now (`Visits`). If what it comes to
on this way evaluates from scratch and lies on no cycle (`Orderly`), the refresh returns
(`refresh_returns`): no slot that is in progress is met again, so each level of the recursion marks
another slot, and a closure that is rerun takes the same path as the evaluation from scratch.
-/

namespace Lazily

open Lib Relation Unwind Finset

variable {τ V : Type}

namespace Context

/-- The cells that the evaluation of a slot from scratch reads. -/
def scratchReads (c : Context τ V) (fuel : Nat) (id : SlotId) : List (Cell τ) :=
  match c.nodes id with
  | some (.computed s) => (s.compute.reads fun k => evalScratch c fuel k.id).map Prod.fst
  | _ => []

/-- The evaluation of `x` from scratch returns, and reads `k`. -/
def ReadsNow (c : Context τ V) (x : SlotId) (k : Cell τ) : Prop :=
  ∃ fuel v, evalScratch c (fuel + 1) x = some v ∧ k ∈ c.scratchReads fuel x

/-- A refresh of the stale slot `x` comes to `d`: the previous run recorded it, or it is read
now. -/
def Visits (c : Context τ V) (x d : SlotId) : Prop :=
  c.fresh x = false ∧ (d ∈ c.dependenciesOf x ∨ ∃ k, c.ReadsNow x k ∧ k.id = d)

def fits [DecidableEq τ] (c : Context τ V) : Cell τ → Bool
  | .source h =>
    match c.recipe h.id with
    | some (.source _ typeId) => decide (typeId = h.tag)
    | _ => false
  | .computed h =>
    match c.recipe h.id with
    | some (.computed _ _ typeId) => decide (typeId = h.tag)
    | _ => false

/-- What a refresh of `x` comes to evaluates from scratch and lies on no cycle. -/
structure Orderly [DecidableEq τ] (c : Context τ V) (x : SlotId) : Prop where
  acyclic : ∀ y, ReflTransGen (Visits c) x y → ¬ TransGen (Visits c) y y
  evaluates : ∀ y, ReflTransGen (Visits c) x y → ∃ v, FromScratch c y v
  fits : ∀ y k, ReflTransGen (Visits c) x y → c.ReadsNow y k → c.fits k = true

/-! ## What lies below a slot -/

section Orderly

variable {c : Context τ V} {x d : SlotId} {v : V} {l : List (Cell τ × V)}

/-- The run that the evaluation of a slot from scratch makes. -/
theorem exists_scratchPath {s : ComputedNode τ V} (hs : c.nodes x = some (.computed s))
    (hv : FromScratch c x v) : ∃ l, ReadTree.Path s.compute l v ∧
      ∀ p ∈ l, FromScratch c p.1.id p.2 ∧ c.ReadsNow x p.1 := by
  obtain ⟨n, hn⟩ := hv
  cases n with
  | zero => cases hn
  | succ fuel =>
    have heval : s.compute.eval? (fun k => evalScratch c fuel k.id) = some v := by
      rw [← hn]
      simp only [evalScratch, hs]
    obtain ⟨hpath, hl⟩ := ReadTree.exists_path heval
    refine ⟨_, hpath, fun p hp => ⟨⟨fuel, hl p hp⟩, fuel, v, hn, ?_⟩⟩
    simp only [scratchReads, hs]
    exact List.mem_map_of_mem hp

variable [DecidableEq τ]

theorem Orderly.visits (h : Orderly c x) (hd : Visits c x d) : Orderly c d where
  acyclic y hy := h.acyclic y (.head hd hy)
  evaluates y hy := h.evaluates y (.head hd hy)
  fits y k hy := h.fits y k (.head hd hy)

variable (hlive : ∀ i, c.nextId ≤ i → c.nodes i = none)
include hlive

omit [DecidableEq τ] in
theorem fromScratch_lt (h : FromScratch c x v) : x < c.nextId := by
  obtain ⟨n, hn⟩ := h
  by_contra hx
  cases n with
  | zero => cases hn
  | succ n => simp [evalScratch, hlive x (Nat.le_of_not_lt hx)] at hn

/-- The cells below a slot are finitely many, so without a cycle the way down ends. -/
theorem Orderly.acc (h : Orderly c x) : Acc (fun d y => Visits c y d) x := by
  let S := {y // ReflTransGen (Visits c) x y}
  have hfin : Finite S := by
    refine Set.Finite.to_subtype ((Set.finite_lt_nat c.nextId).subset fun y hy => ?_)
    obtain ⟨v, hv⟩ := h.evaluates y hy
    exact fromScratch_lt hlive hv
  let below : S → S → Prop := fun d y => TransGen (Visits c) y.1 d.1
  have : Std.Irrefl below := ⟨fun y => h.acyclic y.1 y.2⟩
  have hwf : WellFounded below := Finite.wellFounded_of_trans_of_irrefl below
  suffices hacc : ∀ y : S, Acc (fun d y => Visits c y d) y.1 from hacc ⟨x, .refl⟩
  intro y
  induction y using hwf.induction with
  | _ y ih => exact ⟨_, fun d hd => ih ⟨d, y.2.tail hd⟩ (.single hd)⟩

end Orderly

/-! ## While the refresh is going on -/

def inProgressAt (c : Context τ V) (id : SlotId) : Bool :=
  match c.nodes id with
  | some (.computed s) => s.inProgress
  | _ => false

/-- The slots that the cycle guard can still mark. -/
def unmarked (c : Context τ V) : Finset SlotId :=
  (Finset.range c.nextId).filter fun i => c.inProgressAt i = false

/-- `c` came about from `c₀` by refreshes, some of which are still going on. -/
structure Since (c₀ c : Context τ V) : Prop where
  recipe : ∀ i, c.recipe i = c₀.recipe i
  recorded : ∀ i s, c.nodes i = some (.computed s) → s.inProgress = false → c.upToDate s = false →
    c₀.fresh i = false ∧ c₀.dependenciesOf i = s.dependencies

/-- The refresh of `x` is going on, `fuel` levels may be added, and none of the slots in progress
lies below `x`. -/
structure Under (c₀ : Context τ V) (x : SlotId) (fuel : Nat) (c : Context τ V) : Prop where
  coherent : Coherent (fun _ => False) c
  since : Since c₀ c
  apart : ∀ i, c.inProgressAt i = true → ¬ TransGen (Visits c₀) x i
  room : c.unmarked.card < fuel

section Under

variable {c₀ c c' : Context τ V} {x : SlotId} {s : ComputedNode τ V} {fuel : Nat}
  {off : Option SlotId}

theorem inProgressAt_computed (hs : c.nodes x = some (.computed s)) :
    c.inProgressAt x = s.inProgress := by simp only [inProgressAt, hs]

theorem Evolves.inProgressAt (h : Evolves off c c') (i : SlotId) :
    c'.inProgressAt i = c.inProgressAt i := by
  unfold Context.inProgressAt
  cases hn : c.nodes i with
  | none => rw [h.none i hn]
  | some n =>
    cases n with
    | source s =>
      obtain ⟨l, hl⟩ := h.source i s hn
      rw [hl]
    | computed s =>
      obtain ⟨s', hs', hsame, -⟩ := h.computed i s hn
      rw [hs']
      exact hsame.inProgress
    | effect e =>
      obtain ⟨f, hf, -⟩ := h.effect i e hn
      rw [hf]

theorem Evolves.unmarked (h : Evolves off c c') : c'.unmarked = c.unmarked := by
  unfold Context.unmarked
  rw [show c'.nextId = c.nextId by rw [h.frame], funext h.inProgressAt]

theorem Since.refl (c : Context τ V) : Since c c where
  recipe _ := rfl
  recorded i s hs _ hup := ⟨by simpa only [fresh, hs] using hup, dependenciesOf_computed hs⟩

theorem Since.of_computed (h : Since c₀ c) (hs : c.nodes x = some (.computed s)) :
    ∃ s0, c₀.nodes x = some (.computed s0) ∧ s0.compute = s.compute := by
  have hrecipe := h.recipe x
  rw [recipe_computed hs, Context.recipe] at hrecipe
  obtain ⟨n, hn, hnr⟩ := Option.map_eq_some_iff.1 hrecipe.symm
  cases n with
  | computed s0 =>
    simp only [Node.recipe, Recipe.computed.injEq] at hnr
    exact ⟨s0, hn, hnr.1⟩
  | source s0 => cases hnr
  | effect e => cases hnr

/-- What is not in progress and still stale has not been touched. -/
theorem Since.evolves {D : SlotId → Prop} (h : Since c₀ c) (hc : Coherent D c)
    (hev : Evolves off c c') (hoff : ∀ y, off = some y → c.inProgressAt y = true) :
    Since c₀ c' where
  recipe i := (hev.recipe i).trans (h.recipe i)
  recorded i s' hs' hp hup := by
    obtain ⟨s, hs, hsame, -⟩ := hev.of_computed hs'
    have hp0 : s.inProgress = false := hsame.inProgress ▸ hp
    have hne : off ≠ some i := fun ho => by
      have := hoff i ho
      rw [inProgressAt_computed hs, hp0] at this
      cases this
    have hstale' : ¬ Grounded c' i := fun hg => by
      rw [hg.upToDate hs'] at hup
      cases hup
    have hup0 : c.upToDate s = false := by
      by_contra hu
      exact hstale' (hev.grounded i (hc.grounded i s hs (by simpa using hu))).1
    rw [(hev.stale i s s' hs hs' hstale').2 hne]
    exact h.recorded i s hs hp0 hup0

theorem Under.evolves (h : Under c₀ x fuel c) (hc' : Coherent (fun _ => False) c')
    (hev : Evolves off c c') (hoff : ∀ y, off = some y → c.inProgressAt y = true) :
    Under c₀ x fuel c' where
  coherent := hc'
  since := h.since.evolves h.coherent hev hoff
  apart i hi := h.apart i (hev.inProgressAt i ▸ hi)
  room := hev.unmarked ▸ h.room

end Under

section Returns

variable [DecidableEq τ] {r : SlotId → M τ V Bool} {c₀ c c' : Context τ V} {x : SlotId}
  {s : ComputedNode τ V} {fuel : Nat} {v : V} {l : List (Cell τ × V)}

section

variable (hs : c.nodes x = some (.computed s))
include hs

omit [DecidableEq τ] in
theorem recipe_enterRefresh (i : SlotId) : (c.enterRefresh x).recipe i = c.recipe i := by
  rw [enterRefresh_eq hs]
  by_cases hi : i = x
  · subst hi
    rw [recipe_computed (setNode_same ..), recipe_computed hs]
  · simp only [recipe, setNode_ne _ hi]

omit [DecidableEq τ] in
theorem inProgressAt_enterRefresh (i : SlotId) :
    (c.enterRefresh x).inProgressAt i = (decide (i = x) || c.inProgressAt i) := by
  rw [enterRefresh_eq hs]
  by_cases hi : i = x
  · subst hi
    rw [inProgressAt_computed (setNode_same ..)]
    simp
  · simp only [inProgressAt, setNode_ne _ hi, hi, decide_false, Bool.false_or]

omit [DecidableEq τ] in
/-- The guard marks one slot more. -/
theorem unmarked_enterRefresh (hp : s.inProgress = false)
    (hx : x < c.nextId) : (c.enterRefresh x).unmarked.card < c.unmarked.card := by
  refine card_lt_card ⟨fun i hi => ?_, fun hsub => ?_⟩
  · simp only [unmarked, mem_filter, inProgressAt_enterRefresh hs, Bool.or_eq_false_iff] at hi
    rw [enterRefresh_eq hs] at hi
    exact mem_filter.2 ⟨hi.1, hi.2.2⟩
  · have hmem : x ∈ c.unmarked := mem_filter.2 ⟨mem_range.2 hx, (inProgressAt_computed hs).trans hp⟩
    have := (mem_filter.1 (hsub hmem)).2
    rw [inProgressAt_enterRefresh hs] at this
    simp at this

end

omit [DecidableEq τ] in
theorem Under.enter (hc : Coherent (fun _ => False) c) (hsince : Since c₀ c)
    (hapart : ∀ i, c.inProgressAt i = true → ¬ ReflTransGen (Visits c₀) x i)
    (hroom : c.unmarked.card < fuel + 1) (hs : c.nodes x = some (.computed s))
    (hp : s.inProgress = false) (hx : ¬ TransGen (Visits c₀) x x) :
    Under c₀ x fuel (c.enterRefresh x) where
  coherent := enterRefresh_eq hs ▸ hc.setProgress hs true
  since :=
    { recipe := fun i => (recipe_enterRefresh hs i).trans (hsince.recipe i)
      recorded := fun i t ht hpt hup => by
        have hi : i ≠ x := fun hi => by
          subst hi
          rw [enterRefresh_eq hs, setNode_same] at ht
          cases ht
          cases hpt
        rw [enterRefresh_eq hs] at ht hup
        rw [setNode_ne _ hi] at ht
        exact hsince.recorded i t ht hpt hup }
  apart i hi := by
    rw [inProgressAt_enterRefresh hs, Bool.or_eq_true, decide_eq_true_eq] at hi
    rcases hi with rfl | hi
    · exact hx
    · exact fun hxi => hapart i hi hxi.to_reflTransGen
  room := by
    have hlt : x < c.nextId := by
      by_contra hge
      rw [hc.live x (Nat.le_of_not_lt hge)] at hs
      cases hs
    have := unmarked_enterRefresh hs hp hlt
    omega

theorem fits_congr (h : ∀ i, c'.recipe i = c.recipe i) (k : Cell τ) : c'.fits k = c.fits k := by
  cases k <;> simp only [fits, h]

theorem fits_source {h : Source τ} (hk : c.fits (.source h) = true) :
    ∃ s, c.nodes h.id = some (.source s) ∧ s.typeId = h.tag := by
  unfold fits recipe at hk
  rcases hn : c.nodes h.id with _ | (s | s | e) <;> simp_all [Node.recipe]

theorem fits_computed {h : Computed τ} (hk : c.fits (.computed h) = true) :
    ∃ s, c.nodes h.id = some (.computed s) ∧ s.typeId = h.tag := by
  unfold fits recipe at hk
  rcases hn : c.nodes h.id with _ | (s | s | e) <;> simp_all [Node.recipe]

section

variable (hr : RefreshSpec r)
include hr

section

variable (hc : Coherent (fun _ => False) c)
include hc

/-- A cell that fits has a value of its type once it is refreshed. -/
theorem refreshed_value {h : Computed τ}
    (hk : c.fits (.computed h) = true) {b : Bool} (hb : r h.id c = .ok b c') :
    ∃ s v, c'.nodes h.id = some (.computed s) ∧ s.value = some v ∧ s.typeId = h.tag := by
  obtain ⟨s, hs, htag⟩ := fits_computed hk
  obtain ⟨-, hev, hg, -⟩ := hr.spec hc hb
  obtain ⟨s', hs', hsame, -⟩ := hev.computed h.id s hs
  obtain ⟨v, hv⟩ := Option.isSome_iff_exists.1 (upToDate_value ((hg (.inr ⟨s, hs⟩)).upToDate hs'))
  exact ⟨s', v, hs', hv, hsame.typeId.trans htag⟩

/-- A read through a handle that fits returns if the refresh does. -/
theorem readUntracked_returns {k : Cell τ}
    (hk : c.fits k = true) (hret : ∃ b c', r k.id c = .ok b c') :
    ∃ v c', readUntracked r k c = .ok v c' := by
  cases k with
  | source h =>
    obtain ⟨s, hs, htag⟩ := fits_source hk
    exact ⟨s.value, c, by simp only [readUntracked, readSourceUntracked, hs, htag, if_true]⟩
  | computed h =>
    obtain ⟨b, c1, hb⟩ := hret
    obtain ⟨s, v, hs, hv, htag⟩ := refreshed_value hr hc hk hb
    refine ⟨v, c1, bind_eq_ok.2 ⟨b, c1, hb, ?_⟩⟩
    simp only [hs, hv, htag, if_true]

/-- The same for a read through the handle itself. -/
theorem readValueUntracked_returns
    {k : Computed τ} (hk : c.fits (.computed k) = true) (hret : ∃ b c', r k.id c = .ok b c') :
    ∃ v c', readValueUntracked r k.id k.tag c = .ok v c' := by
  obtain ⟨b, c1, hb⟩ := hret
  obtain ⟨s, v, hs, hv, htag⟩ := refreshed_value hr hc hk hb
  refine ⟨v, c1, bind_eq_ok.2 ⟨b, c1, hb, ?_⟩⟩
  simp only [hs, hv, htag, if_true]

end

/-- The refreshes from inside the refresh of `x` return. -/
def ReturnsBelow (r : SlotId → M τ V Bool) (c₀ : Context τ V) (x : SlotId) (fuel : Nat) : Prop :=
  ∀ d, Visits c₀ x d → ∀ c, Under c₀ x fuel c → ∃ b c', r d c = .ok b c'

/-- A read of a running closure returns the value from scratch. -/
theorem readTracked_returns (hret : ReturnsBelow r c₀ x fuel)
    (h : Under c₀ x fuel c) (hrun : Running c x s) {k : Cell τ} (hk : c₀.fits k = true)
    (hv : FromScratch c₀ k.id v) (hd : Visits c₀ x k.id) :
    ∃ c', readTracked r x k c = .ok v c' := by
  have hkc : c.fits k = true := (fits_congr h.since.recipe k).trans hk
  have hread : Readable c k.id := by
    cases k with
    | source k =>
      obtain ⟨s, hs, -⟩ := fits_source hkc
      exact .inl ⟨s, hs⟩
    | computed k =>
      obtain ⟨s, hs, -⟩ := fits_computed hkc
      exact .inr ⟨s, hs⟩
  have hc1 := h.coherent.registerDependency hread (.inl ⟨s, hrun.node⟩)
    (untrusted_computed hrun.node hrun.untrusted)
  have hev := (registerDependency_rewires c k.id x).evolves ⟨s, hrun.node⟩ hrun.stale
  have h1 : Under c₀ x fuel (c.registerDependency k.id x) := h.evolves hc1 hev fun y hy => by
    cases hy
    exact (inProgressAt_computed hrun.node).trans hrun.inProgress
  obtain ⟨w, c', hw⟩ := readUntracked_returns hr hc1
    ((fits_congr h1.since.recipe k).trans hk) (hret k.id hd _ h1)
  obtain ⟨hc', hev', hg, hval⟩ := readUntracked_spec hr hc1 hw
  have hwv : w = v := fromScratch_unique
    ((fromScratch_congr fun i => (hev'.recipe i).trans (h1.since.recipe i)).1
      (hc'.fromScratch hg hval)) hv
  refine ⟨c', bind_eq_ok.2 ⟨⟨⟩, _, modify_eq_ok.2 rfl, ?_⟩⟩
  rw [hw, hwv]

/-- A closure takes the path of the evaluation from scratch. -/
theorem runCompute_returns (hret : ReturnsBelow r c₀ x fuel)
    {t : ComputeFn τ V} (hpath : ReadTree.Path t l v)
    (hl : ∀ p ∈ l, c₀.fits p.1 = true ∧ FromScratch c₀ p.1.id p.2 ∧ Visits c₀ x p.1.id) :
    ∀ {c s}, Under c₀ x fuel c → Running c x s → ∃ c', runCompute r x t c = .ok v c' := by
  induction hpath with
  | ret v => exact fun {c _} _ _ => ⟨c, rfl⟩
  | @read k w next l v _ ih =>
    intro c s h hrun
    obtain ⟨hk, hw, hd⟩ := hl (k, w) List.mem_cons_self
    obtain ⟨c1, hread⟩ := readTracked_returns hr hret h hrun hk hw hd
    obtain ⟨hc1, hev, s1, hrun1, -⟩ := hrun.readTracked hr h.coherent hread
    have h1 := h.evolves hc1 hev fun y hy => by
      cases hy
      exact (inProgressAt_computed hrun.node).trans hrun.inProgress
    obtain ⟨c', hc'⟩ := ih (fun p hp => hl p (List.mem_cons_of_mem _ hp)) h1 hrun1
    exact ⟨c', bind_eq_ok.2 ⟨w, c1, hread, hc'⟩⟩

theorem recomputeSlotNow_returns (hret : ReturnsBelow r c₀ x fuel)
    (h : Under c₀ x fuel c) (hs : c.nodes x = some (.computed s)) (hp : s.inProgress = true)
    (ht : c.trusted s = false) (hpath : ReadTree.Path s.compute l v)
    (hl : ∀ p ∈ l, c₀.fits p.1 = true ∧ FromScratch c₀ p.1.id p.2 ∧ Visits c₀ x p.1.id) :
    ∃ b c', recomputeSlotNow r x c = .ok b c' := by
  obtain ⟨m, hrun⟩ := running_detach hs hp ht
  have hev := (detach_rewires c x).evolves ⟨s, hs⟩ (not_grounded_of_untrusted hs ht)
  have h1 := h.evolves (h.coherent.detach (untrusted_computed hs ht)) hev fun y hy => by
    cases hy
    exact (inProgressAt_computed hs).trans hp
  obtain ⟨c2, hc2⟩ := runCompute_returns hr hret hpath hl h1 hrun
  obtain ⟨-, -, s2, -, hrun2, -⟩ := runCompute_spec hr s.compute h1.coherent hrun hc2
  refine ⟨(c2.storeResult x s2 v).1, storeAndNotify c2 x s2 v, ?_⟩
  refine bind_eq_ok.2 ⟨c, c, get_eq_ok.2 ⟨rfl, rfl⟩, ?_⟩
  simp only [hs]
  refine bind_eq_ok.2 ⟨⟨⟩, _, modify_eq_ok.2 rfl, ?_⟩
  refine bind_eq_ok.2 ⟨v, c2, hc2, ?_⟩
  simp only [hrun2.node, storeAndNotify]

omit [DecidableEq τ] in
theorem refreshAll_returns (hret : ReturnsBelow r c₀ x fuel) :
    ∀ {ds : List SlotId}, (∀ d ∈ ds, Visits c₀ x d) → ∀ {c}, Under c₀ x fuel c →
      ∃ b c', refreshAll r ds c = .ok b c'
  | [], _, c, _ => ⟨false, c, rfl⟩
  | d :: ds, hds, c, h => by
    obtain ⟨b, c1, hb⟩ := hret d (hds d List.mem_cons_self) c h
    obtain ⟨hc1, hev, -⟩ := hr.spec h.coherent hb
    have h1 := h.evolves hc1 hev fun y hy => by cases hy
    obtain ⟨b', c', hb'⟩ :=
      refreshAll_returns hret (fun d' hd' => hds d' (List.mem_cons_of_mem _ hd')) h1
    exact ⟨b || b', c', bind_eq_ok.2 ⟨b, c1, hb,
      bind_eq_ok.2 ⟨b', c', hb', pure_eq_ok.2 ⟨rfl, rfl⟩⟩⟩⟩

theorem refreshStale_returns (hret : ReturnsBelow r c₀ x fuel)
    (h : Under c₀ x fuel c) (hs : c.nodes x = some (.computed s)) (hp : s.inProgress = true)
    (hstale : c.upToDate s = false) (hdeps : ∀ d ∈ s.dependencies, Visits c₀ x d)
    (hpath : ReadTree.Path s.compute l v)
    (hl : ∀ p ∈ l, c₀.fits p.1 = true ∧ FromScratch c₀ p.1.id p.2 ∧ Visits c₀ x p.1.id) :
    ∃ b c', refreshStale r x s.dependencies c = .ok b c' := by
  obtain ⟨changed, c1, hall⟩ := refreshAll_returns hr hret hdeps h
  obtain ⟨hc1, hev, -, htold⟩ := refreshAll_spec hr s.dependencies h.coherent hall
  obtain ⟨s1, hs1, hsame, hu⟩ := hev.computed x s hs
  have hp1 := hsame.inProgress.trans hp
  have h1 := h.evolves hc1 hev fun y hy => by cases hy
  have hstale1 : c1.upToDate s1 = false := by
    rw [hev.upToDate]
    by_contra hn
    rw [(hu (by simp) hp).upToDate c (by simpa using hn)] at hstale
    cases hstale
  suffices hrest : ∃ b c', (if c1.needsRecompute s1 changed then recomputeSlotNow r x
      else do modify (·.clearSlotDirtyFlags x); pure false : M τ V Bool) c1 = .ok b c' by
    obtain ⟨b, c', hb⟩ := hrest
    refine ⟨b, c', bind_eq_ok.2 ⟨changed, c1, hall,
      bind_eq_ok.2 ⟨c1, c1, get_eq_ok.2 ⟨rfl, rfl⟩, ?_⟩⟩⟩
    simp only [hs1]
    exact hb
  split
  · rename_i hneeds
    have huntrusted := untrusted_of_needsRecompute hstale1 hneeds fun hb hmode =>
      htold hb (hev.revisionMode ▸ hmode) x s s1 hs hp (fun _ h => h) hs1
    exact recomputeSlotNow_returns hr hret h1 hs1 hp1 huntrusted (hsame.compute ▸ hpath) hl
  · exact ⟨false, _, rfl⟩

end

/-- `refresh_slot` on a slot below which there is no cycle, by induction on what it comes to. -/
theorem refreshSlot_returns (hlive : ∀ i, c₀.nextId ≤ i → c₀.nodes i = none)
    (hx : Orderly c₀ x) {fuel : Nat} {c : Context τ V} (hc : Coherent (fun _ => False) c)
    (hsince : Since c₀ c) (hapart : ∀ i, c.inProgressAt i = true → ¬ ReflTransGen (Visits c₀) x i)
    (hroom : c.unmarked.card < fuel) : ∃ b c', refreshSlot fuel x c = .ok b c' := by
  induction hx.acc hlive generalizing fuel c with
  | intro x _ ih =>
    obtain ⟨fuel, rfl⟩ : ∃ n, fuel = n + 1 := ⟨fuel - 1, by omega⟩
    unfold refreshSlot
    split
    · rename_i s hs
      split
      · exact ⟨false, c, rfl⟩
      rename_i hup
      have hup : c.upToDate s = false := by simpa using hup
      have hp : s.inProgress = false := by
        by_contra hp
        exact hapart x ((inProgressAt_computed hs).trans (by simpa using hp)) .refl
      rw [if_neg (by simp [hp])]
      obtain ⟨hfresh, hdeps⟩ := hsince.recorded x s hs hp hup
      have henter := Under.enter hc hsince hapart hroom hs hp (hx.acyclic x .refl)
      have hret : ReturnsBelow (refreshSlot fuel) c₀ x fuel := fun d hd c h =>
        ih d hd (hx.visits hd) h.coherent h.since
          (fun i hi hdi => h.apart i hi (.head' hd hdi)) h.room
      obtain ⟨s0, hs0, hcompute⟩ := hsince.of_computed hs
      obtain ⟨v, hv⟩ := hx.evaluates x .refl
      obtain ⟨l, hpath, hl⟩ := exists_scratchPath hs0 hv
      have hs1 : (c.enterRefresh x).nodes x = some (.computed { s with inProgress := true }) := by
        rw [enterRefresh_eq hs, setNode_same]
      have hup1 : (c.enterRefresh x).upToDate { s with inProgress := true } = false := by
        rw [enterRefresh_eq hs]
        exact hup
      obtain ⟨b, c', hb⟩ := refreshStale_returns (refreshSlot_spec fuel) hret henter hs1 rfl hup1
        (fun d hd => ⟨hfresh, .inl (hdeps ▸ hd)⟩) (hcompute ▸ hpath) fun p hp =>
          ⟨hx.fits x p.1 .refl (hl p hp).2, (hl p hp).1, hfresh, .inr ⟨p.1, (hl p hp).2, rfl⟩⟩
      exact ⟨b, c'.leaveRefresh x, by simp only [withRefreshGuard, hb]⟩
    · exact ⟨false, c, rfl⟩

theorem refresh_returns (hc : Coherent (fun _ => False) c)
    (hreleased : ∀ i s, c.nodes i = some (.computed s) → s.inProgress = false)
    (hx : Orderly c x) : ∃ b c', refresh x c = .ok b c' := by
  refine refreshSlot_returns hc.live hx hc (.refl c) (fun i hi => ?_) ?_
  · unfold inProgressAt at hi
    split at hi
    · rw [hreleased i _ ‹_›] at hi
      cases hi
    · cases hi
  · calc c.unmarked.card ≤ (range c.nextId).card := card_filter_le ..
      _ < c.nextId + 1 := by simp

end Returns

end Context

end Lazily
