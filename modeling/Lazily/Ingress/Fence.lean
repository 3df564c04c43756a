import Lazily.Ingress.Core
import Lazily.Lib.Reach

/-!
# The generation fence on the ingress window

`windows_current_iff`: in every state of a run the coalesced window of each scope is the merge of
what was delivered under its current generation (since the last drain, close or eviction) iff no
`open` of the run raises the generation of a scope that holds an undrained window. `reconnect` and
`admit` discard the window when they raise the generation; `open` does not
(`open_keeps_stale_window`).
-/

namespace Lazily.Ingress

variable {T : Type}

namespace Scope

variable {M : MergePolicy T} {s : Scope T} {generation g : Nat}

def current (s : Scope T) : List T := (s.delivered.filter fun e => e.1 = s.generation).map Prod.snd

/-- The window is the merge of what was delivered under the current generation. -/
def WindowCurrent (M : MergePolicy T) (s : Scope T) : Prop := s.window = mergeAll M s.current

/-- The window is current, and no record is of a generation to come. -/
structure Fenced (M : MergePolicy T) (s : Scope T) : Prop where
  recorded : ∀ e ∈ s.delivered, e.1 ≤ s.generation
  window : s.WindowCurrent M

variable (h : s.Fenced M)
include h

theorem Fenced.congr {s' : Scope T} (hg : s'.generation = s.generation)
    (hw : s'.window = s.window) (hd : s'.delivered = s.delivered) : s'.Fenced M := by
  refine ⟨by rw [hd, hg]; exact h.recorded, ?_⟩
  unfold WindowCurrent current
  rw [hw, hd, hg]
  exact h.window

omit h in
theorem fenced_of_empty (hw : s.window = none) (hd : s.delivered = []) : s.Fenced M :=
  ⟨by simp [hd], by simp [WindowCurrent, current, hw, hd, mergeAll]⟩

theorem Fenced.filter_eq_nil (hg : s.generation < g) :
    (s.delivered.filter fun e => e.1 = g).map Prod.snd = [] := by
  rw [List.map_eq_nil_iff, List.filter_eq_nil_iff]
  intro e he heq
  have := h.recorded e he
  simp only [decide_eq_true_eq] at heq
  omega

theorem Fenced.handoff (hg : s.generation < g) : (s.handoff g).Fenced M := by
  refine ⟨fun e he => Nat.le_of_lt (Nat.lt_of_le_of_lt (h.recorded e he) hg), ?_⟩
  show none = mergeAll M ((s.delivered.filter fun e => e.1 = g).map Prod.snd)
  rw [h.filter_eq_nil hg]
  rfl

theorem Fenced.mergeInto (payload : T) (stampedAt : Nat) :
    (s.mergeInto M payload stampedAt).1.Fenced M := by
  have hrec : ∀ e ∈ s.delivered ++ [(s.generation, payload)], e.1 ≤ s.generation := by
    intro e he
    rcases List.mem_append.1 he with he | he
    · exact h.recorded e he
    · rw [List.mem_singleton.1 he]
  have hcur : ((s.delivered ++ [(s.generation, payload)]).filter
      fun e => e.1 = s.generation).map Prod.snd = s.current ++ [payload] := by
    simp [current]
  have hwin : s.window = mergeAll M s.current := h.window
  unfold Scope.mergeInto
  cases hw : s.window with
  | none =>
    refine ⟨hrec, ?_⟩
    refine Eq.trans ?_ (congrArg (mergeAll M) hcur).symm
    rw [mergeAll_append, ← hwin, hw]
    rfl
  | some v =>
    refine ⟨hrec, ?_⟩
    refine Eq.trans ?_ (congrArg (mergeAll M) hcur).symm
    rw [mergeAll_append, ← hwin, hw]
    rfl

omit h in
theorem Fenced.flush : ∀ {fuel : Nat} {s : Scope T} {through : Nat} {conflated : Bool},
    s.Fenced M → (s.flush M fuel through conflated).1.Fenced M
  | 0, _, _, _, h => h
  | fuel + 1, s, through, conflated, h => by
    rw [Scope.flush]
    split
    · exact h
    · have hnext : Fenced M { s with pending := s.pending.erase s.nextExpected } :=
        h.congr rfl rfl rfl
      exact Fenced.flush ((hnext.mergeInto _ _).congr rfl rfl rfl)

variable {handoff : Option (Nat × Nat)} {payload : T}

theorem Fenced.deliver {sequence stampedAt : Nat} :
    (s.deliver M sequence stampedAt payload handoff).1.Fenced M :=
  Fenced.flush ((h.mergeInto payload stampedAt).congr rfl rfl rfl)

theorem Fenced.sequenced {policy : IngressPolicy} {sequence stampedAt : Nat} :
    (s.sequenced M policy sequence stampedAt payload handoff).1.Fenced M :=
  sequenced_cases M (motive := fun r => r.1.Fenced M) policy (fun _ _ => h) (fun _ => h)
    (fun _ _ => h.congr rfl rfl rfl) (fun _ => Fenced.deliver (fenced_of_empty rfl rfl))
    fun _ => h.deliver

theorem Fenced.decide (policy : IngressPolicy)
    (now generation sequence stampedAt : Nat) (payload : T) :
    (s.decide M policy now generation sequence stampedAt payload).1.Fenced M := by
  refine decide_cases M (motive := fun r => r.1.Fenced M) policy (fun _ _ => h) fun _ _ => ?_
  unfold baseline
  split
  · rename_i hg
    exact (h.handoff hg).sequenced
  · exact h.sequenced

/-- `open` on a scope that holds an undrained window, with a higher generation. -/
def RaisesUndrained (s : Scope T) (generation : Nat) : Prop :=
  s.lifecycle ≠ .closed ∧ s.generation < generation ∧ s.window ≠ none

theorem Fenced.reopen (hdrained : ¬s.RaisesUndrained generation) :
    (Scope.reopen generation (some s)).1.Fenced M := by
  unfold Scope.reopen
  simp only []
  split
  · exact fenced_of_empty rfl rfl
  · rename_i hopen
    split
    · rename_i hg
      have hnone : s.window = none := by
        by_contra hw
        exact hdrained ⟨hopen, hg, hw⟩
      exact (h.handoff hg).congr rfl hnone rfl
    · exact h.congr rfl rfl rfl

theorem not_windowCurrent_reopen (hraise : s.RaisesUndrained generation) :
    ¬(Scope.reopen generation (some s)).1.WindowCurrent M := by
  obtain ⟨hopen, hg, hw⟩ := hraise
  unfold Scope.reopen
  simp only [if_neg hopen, if_pos hg]
  show ¬s.window = mergeAll M ((s.delivered.filter fun e => e.1 = generation).map Prod.snd)
  rw [h.filter_eq_nil hg]
  exact hw

theorem Fenced.reconnect : (Scope.reconnect generation (some s)).1.Fenced M := by
  unfold Scope.reconnect
  simp only [Option.getD_some]
  by_cases hg : s.generation < generation
  · simp only [hg, decide_true]
    exact (h.handoff hg).congr rfl rfl rfl
  · simp only [hg, decide_false, Bool.false_eq_true]
    exact h.congr rfl rfl rfl

end Scope

namespace IngressCore

variable {K : Type} [DecidableEq K] {M : MergePolicy T} {c : IngressCore K T} {t : Transition K T}

/-- Every window is the merge of what was delivered under the scope's current generation. -/
def WindowsCurrent (M : MergePolicy T) (c : IngressCore K T) : Prop :=
  ∀ k s, c.scopes.lookup k = some s → s.WindowCurrent M

/-- The transition opens a scope that holds an undrained window, with a higher generation. -/
def RaisesUndrained (c : IngressCore K T) : Transition K T → Prop
  | .openScope key generation =>
    ∃ s, c.scopes.lookup key = some s ∧ s.RaisesUndrained generation
  | _ => False

def Fenced (M : MergePolicy T) (c : IngressCore K T) : Prop :=
  ∀ k s, c.scopes.lookup k = some s → s.Fenced M

theorem Fenced.step (h : c.Fenced M) (ht : ¬c.RaisesUndrained t) : (c.step M t).1.Fenced M := by
  have hnew : ∀ generation, (Scope.new generation).Fenced M :=
    fun _ => Scope.fenced_of_empty rfl rfl
  have hgetD : ∀ k generation, ((c.scopes.lookup k).getD (.new generation)).Fenced M := by
    intro k generation
    cases hk : c.scopes.lookup k with
    | none => exact hnew generation
    | some s => exact h k s hk
  intro k s' hs'
  rcases lookup_step M c t k with hk | ⟨s, hk, hmove⟩
  · exact h k s' (hk ▸ hs')
  obtain rfl : s = s' := by simpa [hk] using hs'
  generalize hb : c.scopes.lookup k = before at hmove
  cases hmove with
  | openScope key generation =>
    cases before with
    | none => exact hnew generation
    | some s => exact (h k s hb).reopen fun hr => ht ⟨s, hb, hr⟩
  | suspend key s => exact (h k s hb).congr rfl rfl rfl
  | reconnect key generation =>
    cases before with
    | none => exact (hnew generation).reconnect
    | some s => exact (h k s hb).reconnect
  | close key s => exact Scope.fenced_of_empty rfl rfl
  | fail key error => exact (hb ▸ hgetD k 0).congr rfl rfl rfl
  | drain key s => exact Scope.fenced_of_empty rfl rfl
  | admitEnvelope e => exact (hb ▸ hgetD e.key e.generation).decide ..

theorem not_windowsCurrent_step (h : c.Fenced M) (ht : c.RaisesUndrained t) :
    ¬(c.step M t).1.WindowsCurrent M := by
  cases t with
  | openScope key generation =>
    obtain ⟨s, hk, hraise⟩ := ht
    intro hcur
    refine Scope.not_windowCurrent_reopen (h key s hk) hraise (hcur key _ ?_)
    show (c.setScope key _).scopes.lookup key = _
    rw [setScope, AList.lookup_insert, hk]
    rfl
  | suspend _ | reconnect _ _ | close _ | tick _ | fail _ _ | drain _ | admitEnvelope _ =>
    exact ht.elim

end IngressCore

open IngressCore

variable {K : Type} [DecidableEq K]

/-- **The fence on the window.** Throughout a run every window is the merge of what was delivered
under the scope's current generation, iff no `open` raises a generation over an undrained window. -/
theorem windows_current_iff (M : MergePolicy T) (policy : IngressPolicy) {c : IngressCore K T}
    (hnew : IngressCore.new M policy = .ok c) (ts : List (Transition K T)) :
    (∀ pre, pre <+: ts → (c.run M pre).WindowsCurrent M) ↔
      ∀ pre t, pre ++ [t] <+: ts → ¬(c.run M pre).RaisesUndrained t := by
  have hstart : c.Fenced M := by
    unfold IngressCore.new at hnew
    split at hnew
    · cases hnew
    · split at hnew
      · cases hnew
      · cases hnew
        intro k s hk
        simp at hk
  exact Lib.forall_prefix_iff (I := Fenced M) (fun _ _ => True) hstart
    (fun _ h k s hk => (h k s hk).window) (fun _ _ h _ ht => h.step ht)
    (fun _ _ h _ ht => not_windowsCurrent_step h (not_not.1 ht)) fun _ _ _ => trivial

theorem windows_current_iff_reconnect :
    let ts : List (Transition Nat Nat) :=
      [.openScope 0 1, .admitEnvelope ⟨0, 1, 0, 0, 5⟩, .reconnect 0 2,
        .admitEnvelope ⟨0, 2, 0, 0, 7⟩]
    (emptyCore.run sumPolicy ts).peek 0 = some 7 ∧
      ((∀ pre, pre <+: ts → (emptyCore.run sumPolicy pre).WindowsCurrent sumPolicy) ↔
        ∀ pre t, pre ++ [t] <+: ts → ¬(emptyCore.run sumPolicy pre).RaisesUndrained t) :=
  ⟨by decide +kernel, windows_current_iff sumPolicy .default rfl _⟩

/-- `open` at generation 2 keeps the 5 that generation 1 left undrained; the first payload of
generation 2 is merged into it. -/
theorem open_keeps_stale_window :
    let c := emptyCore.run sumPolicy
      [.openScope 0 1, .admitEnvelope ⟨0, 1, 0, 0, 5⟩, .openScope 0 2,
        .admitEnvelope ⟨0, 2, 0, 0, 7⟩]
    (c.scopes.lookup 0).map (fun s => (s.generation, s.delivered, s.window)) =
        some (2, [(1, 5), (2, 7)], some 12) ∧ ¬c.WindowsCurrent sumPolicy := by
  intro c
  refine ⟨by decide +kernel, fun hcur => ?_⟩
  have hval : (c.scopes.lookup 0).all
      (fun s => s.window == mergeAll sumPolicy s.current) = false := by
    decide +kernel
  cases hk : c.scopes.lookup 0 with
  | none => simp [hk] at hval
  | some s =>
    have := hcur 0 s hk
    unfold Scope.WindowCurrent at this
    simp [hk, this] at hval

end Lazily.Ingress
