import Lazily.Collection.ReactiveMap
import Lazily.Lib.Reach

/-!
# Borrow conflicts of the keyed map

`set`, `publish`, `unpublish` and `get_or_insert_with` look their key up in the condition of an
`if let` and call the runtime in its body, with the guard of the lookup alive. A call made from
there that changes the keys panics (`effect_observing_new_key_panics`). Every other function drops
its guard before it calls the runtime: a run panics at no call as long as no call made under such a
guard changes the keys (`run_not_panicked`, by the invariant of `consistent_step`).
-/

namespace Lazily.ReactiveMap

open Lib List State

variable {K : Type}

/-! ## Code that drops its guards -/

/-- No guard is alive at a runtime call or at a change. -/
inductive Clean : Code K → Prop
  | ret : Clean .ret
  | runtime {next : Code K} (h : Clean next) : Clean (.runtime next)
  | borrow {next : KeyedOrder K Nat → Code K} (h : ∀ core, Clean (next core)) :
      Clean (.borrow fun core => .release (next core))
  | borrowMut {change : KeyedOrder K Nat → Nat → KeyedOrder K Nat × Bool} {next : Bool → Code K}
      (h : ∀ changed, Clean (next changed)) : Clean (.borrowMut change next)
  | version {signal : Signal} {next : Code K} (h : Clean next) : Clean (.version signal next)

/-- Nothing is changed when the code runs on these keys. -/
def Still (core : KeyedOrder K Nat) : Code K → Prop
  | .ret => True
  | .runtime next | .release next | .version _ next => Still core next
  | .borrow next => Still core (next core)
  | .borrowMut _ _ => False

variable {c next : Code K} {key : K} {s : State K}

theorem Clean.ite {p : Prop} [Decidable p] {d : Code K} (hc : Clean c) (hd : Clean d) :
    Clean (if p then c else d) := by
  split
  · exact hc
  · exact hd

theorem clean_bumpOrder (h : Clean next) : Clean (bumpOrder next) := .version (.runtime h)

theorem clean_bumpMembership (h : Clean next) : Clean (bumpMembership next) :=
  .version (.runtime (clean_bumpOrder h))

section Functions

variable [DecidableEq K]

theorem clean_insertEntry (h : Clean next) : Clean (insertEntry key next) :=
  .borrowMut fun _ => .ite (clean_bumpMembership h) h

theorem clean_mintWith (h : Clean next) : Clean (mintWith key next) :=
  .borrow fun _ => .ite h (.runtime (clean_insertEntry h))

theorem clean_dependencyHandle (h : Clean next) : Clean (dependencyHandle key next) :=
  .borrow fun _ => .ite h (clean_insertEntry h)

theorem clean_entryWith (key : K) : Clean (entryWith key) :=
  .borrow fun _ => .ite .ret (.runtime (clean_mintWith .ret))

end Functions

theorem clean_look : Clean (look : Code K) := .borrow fun _ => .ret

theorem clean_move (change : KeyedOrder K Nat → KeyedOrder K Nat × Move) : Clean (move change) :=
  .borrowMut fun _ => .ite (clean_bumpOrder .ret) .ret

/-! ## Running it -/

namespace State

/-- What running up to a runtime call leaves as it was, and what the code that waits keeps. -/
structure Undisturbed (c : Code K) (s : State K) (r : State K × Option (Code K)) : Prop where
  panicked : r.1.panicked = s.panicked
  guards : r.1.guards = s.guards
  stack : r.1.stack = s.stack
  core : Still s.core c → r.1.core = s.core
  clean : ∀ next ∈ r.2, Clean next
  still : ∀ next ∈ r.2, Still s.core c → Still s.core next

theorem advance_undisturbed (hc : Clean c) (s : State K) (hs : s.guards = 0 ∨ Still s.core c) :
    Undisturbed c s (advance c s) := by
  induction hc generalizing s with
  | ret => exact ⟨rfl, rfl, rfl, fun _ => rfl, by simp [advance], by simp [advance]⟩
  | runtime h _ =>
    refine ⟨rfl, rfl, rfl, fun _ => rfl, ?_, ?_⟩
    · intro next hnext
      obtain rfl := Option.some.inj hnext
      exact h
    · intro next hnext hstill
      obtain rfl := Option.some.inj hnext
      exact hstill
  | @borrow next h ih =>
    -- the guard is dropped before anything else is done
    have hadvance : advance (.borrow fun core => .release (next core)) s =
        advance (next s.core) s := rfl
    rw [hadvance]
    have hrun := ih s.core s hs
    exact ⟨hrun.panicked, hrun.guards, hrun.stack, hrun.core, hrun.clean, hrun.still⟩
  | @borrowMut change next h ih =>
    -- a change runs only with no guard alive
    obtain hs | hs := hs
    · rw [advance, if_pos hs]
      have hrun := ih (change s.core s.fresh).2
        { s with core := (change s.core s.fresh).1, fresh := s.fresh + 1 } (.inl hs)
      exact ⟨hrun.panicked, hrun.guards, hrun.stack, fun hstill => hstill.elim, hrun.clean,
        fun _ _ hstill => hstill.elim⟩
    · exact hs.elim
  | @version signal next h ih =>
    have hbump : (s.bump signal).core = s.core ∧ (s.bump signal).guards = s.guards ∧
        (s.bump signal).panicked = s.panicked ∧ (s.bump signal).stack = s.stack := by
      cases signal <;> exact ⟨rfl, rfl, rfl, rfl⟩
    obtain ⟨hcore, hguards, hpanicked, hstack⟩ := hbump
    have hrun := ih (s.bump signal) (by rw [hguards, hcore]; exact hs)
    refine ⟨hrun.panicked.trans hpanicked, hrun.guards.trans hguards, hrun.stack.trans hstack,
      fun hstill => ?_, hrun.clean, fun next hnext hstill => ?_⟩
    · exact (hrun.core (by rw [hcore]; exact hstill)).trans hcore
    · exact hcore ▸ hrun.still next hnext (by rw [hcore]; exact hstill)

/-- The lookup of `set`, `publish`, `unpublish` and `get_or_insert_with`. -/
theorem advance_lookup (key : K) (rest : Code K) (s : State K) : advance (.borrow fun core =>
        if core.contains key then .runtime (.release .ret) else .release rest) s =
      if s.core.contains key then ({ s with guards := s.guards + 1 }, some (.release .ret))
      else advance rest s := by
  rw [advance]
  split <;> rfl

end State

/-! ## Calls -/

namespace MapCall

variable [DecidableEq K]

/-- A call keeps the guard of its lookup, or it runs code that drops its guards, which changes
nothing if the call leaves the keys as they are. -/
theorem advance_code (call : MapCall K) (s : State K) : (call.holds s.core = true ∧
      advance call.code s = ({ s with guards := s.guards + 1 }, some (.release .ret))) ∨
    (call.holds s.core = false ∧ ∃ rest, advance call.code s = advance rest s ∧
      Clean rest ∧ (call.leavesKeys s.core = true → Still s.core rest)) := by
  have lookup : ∀ key rest, Clean rest →
      (s.core.contains key = true ∧
        advance (.borrow fun core =>
          if core.contains key then .runtime (.release .ret) else .release rest) s =
            ({ s with guards := s.guards + 1 }, some (.release .ret))) ∨
      (s.core.contains key = false ∧ ∃ rest', advance (.borrow fun core =>
          if core.contains key then .runtime (.release .ret) else .release rest) s =
            advance rest' s ∧
        Clean rest' ∧ (s.core.contains key = true → Still s.core rest')) := by
    intro key rest hclean
    rw [advance_lookup]
    cases hkey : s.core.contains key
    · exact .inr ⟨rfl, rest, rfl, hclean, by simp⟩
    · exact .inl ⟨rfl, rfl⟩
  cases call with
  | look => exact .inr ⟨rfl, _, rfl, clean_look, fun _ => trivial⟩
  | readSignal => exact .inr ⟨rfl, _, rfl, .runtime clean_look, fun _ => trivial⟩
  | get key =>
    refine .inr ⟨rfl, _, rfl, .borrow fun _ => .ite (.runtime .ret) .ret, fun _ => ?_⟩
    simp only [code, ReactiveMap.get, Still]
    split <;> trivial
  | getOrInsertWith key => exact lookup key _ (clean_mintWith (.runtime .ret))
  | remove key =>
    refine .inr ⟨rfl, _, rfl, .borrowMut fun _ => .ite (.runtime ?_) .ret, by simp [leavesKeys]⟩
    exact clean_bumpMembership .ret
  | moveTo key index => exact .inr ⟨rfl, _, rfl, clean_move _, by simp [leavesKeys]⟩
  | moveBefore key anchor => exact .inr ⟨rfl, _, rfl, clean_move _, by simp [leavesKeys]⟩
  | moveAfter key anchor => exact .inr ⟨rfl, _, rfl, clean_move _, by simp [leavesKeys]⟩
  | entryWith key =>
    refine .inr ⟨rfl, _, rfl, clean_entryWith key, fun hkey => ?_⟩
    simp only [leavesKeys] at hkey
    simp [code, ReactiveMap.entryWith, Still, hkey]
  | set key => exact lookup key _ (clean_entryWith key)
  | observeDependency key =>
    refine .inr ⟨rfl, _, rfl, clean_dependencyHandle (.runtime .ret), fun hkey => ?_⟩
    simp only [leavesKeys] at hkey
    simp [code, ReactiveMap.observeDependency, dependencyHandle, Still, hkey]
  | publish key => exact lookup key _ (clean_dependencyHandle .ret)
  | unpublish key => exact lookup key _ (clean_dependencyHandle .ret)

end MapCall

/-! ## Runs -/

/-- Some call under way keeps its guard. -/
def guarded (stack : List (Frame K)) : Bool := stack.any (·.holding)

/-- The calls under way: a call that keeps its guard only has to drop it, the others drop theirs,
and those made under a guard change nothing. -/
def Sound (core : KeyedOrder K Nat) : List (Frame K) → Prop
  | [] => True
  | frame :: rest =>
    (if frame.holding then frame.next = .release .ret
      else Clean frame.next ∧ (guarded rest = true → Still core frame.next)) ∧ Sound core rest

theorem Sound.of_not_guarded {core core' : KeyedOrder K Nat} {stack : List (Frame K)}
    (h : Sound core stack) (hstack : guarded stack = false) : Sound core' stack := by
  induction stack with
  | nil => trivial
  | cons frame rest ih =>
    simp only [guarded, any_cons, Bool.or_eq_false_iff] at hstack
    obtain ⟨hframe, hrest⟩ := hstack
    refine ⟨?_, ih h.2 hrest⟩
    have hclean := h.1
    rw [hframe] at hclean ⊢
    exact ⟨hclean.1, fun hguarded => absurd hguarded (by simpa [guarded] using hrest)⟩

namespace State

/-- No call has panicked, and a guard is alive for each call under way that keeps one. -/
structure Consistent (s : State K) : Prop where
  panicked : s.panicked = false
  guards : s.guards = s.stack.countP (·.holding)
  sound : Sound s.core s.stack

theorem Consistent.guards_eq_zero (h : Consistent s) (hstack : guarded s.stack = false) :
    s.guards = 0 := by
  rw [h.guards, countP_eq_zero]
  simpa [guarded] using hstack

theorem consistent_advance (hs : Consistent s) (hc : Clean c)
    (hstill : guarded s.stack = true → Still s.core c) : Consistent (wait false (advance c s)) := by
  have hdrop : s.guards = 0 ∨ Still s.core c := by
    cases hstack : guarded s.stack
    · exact .inl (hs.guards_eq_zero hstack)
    · exact .inr (hstill hstack)
  have hrun := advance_undisturbed hc s hdrop
  have hsound : Sound (advance c s).1.core s.stack := by
    cases hstack : guarded s.stack
    · exact hs.sound.of_not_guarded hstack
    · rw [hrun.core (hstill hstack)]
      exact hs.sound
  generalize advance c s = result at hrun hsound ⊢
  obtain ⟨t, left⟩ := result
  obtain ⟨hpanicked, hguards, hstack, hcore, hclean, hkeep⟩ := hrun
  simp only at hpanicked hguards hstack hcore hclean hkeep hsound
  have hcount : t.guards = t.stack.countP (·.holding) := by rw [hguards, hstack, hs.guards]
  rw [← hstack] at hsound
  cases left with
  | none => exact ⟨hpanicked.trans hs.panicked, hcount, hsound⟩
  | some next =>
    refine ⟨hpanicked.trans hs.panicked, ?_, ⟨hclean next rfl, fun hguarded => ?_⟩, hsound⟩
    · rw [wait, countP_cons_of_neg (by simp)]
      exact hcount
    · rw [hstack] at hguarded
      have hsame := hcore (hstill hguarded)
      simp only [wait, hsame]
      exact hkeep next rfl (hstill hguarded)

/-- A call that keeps its guard waits with it. -/
theorem consistent_hold (hs : Consistent s) :
    Consistent (wait true ({ s with guards := s.guards + 1 }, some (.release .ret))) := by
  refine ⟨hs.panicked, ?_, rfl, hs.sound⟩
  rw [wait, countP_cons_of_pos (by simp), ← hs.guards]

theorem consistent_resume {frame : Frame K} {rest : List (Frame K)} (hs : Consistent s)
    (hstack : s.stack = frame :: rest) :
    Consistent (wait frame.holding (advance frame.next { s with stack := rest })) := by
  obtain ⟨holding, next⟩ := frame
  obtain ⟨hpanicked, hguards, hsound⟩ := hs
  rw [hstack] at hguards hsound
  cases holding with
  | true =>
    obtain ⟨hnext, hrest⟩ := hsound
    obtain rfl : next = .release .ret := hnext
    rw [countP_cons_of_pos (by simp)] at hguards
    refine ⟨hpanicked, ?_, hrest⟩
    show s.guards - 1 = rest.countP (·.holding)
    omega
  | false =>
    obtain ⟨⟨hclean, hstill⟩, hrest⟩ := hsound
    rw [countP_cons_of_neg (by simp)] at hguards
    exact consistent_advance ⟨hpanicked, hguards, hrest⟩ hclean hstill

theorem consistent_new : Consistent (new : State K) := ⟨rfl, rfl, trivial⟩

variable [DecidableEq K]

/-- A call made while a guard is alive leaves the keys as they are. -/
def Respects (s : State K) : Event K → Prop
  | .call call => guarded s.stack = true → call.leavesKeys s.core = true
  | .resume => True

instance (s : State K) : ∀ e, Decidable (Respects s e)
  | .call call => inferInstanceAs (Decidable (_ → call.leavesKeys s.core = true))
  | .resume => .isTrue trivial

theorem consistent_step {e : Event K} (hs : Consistent s) (he : Respects s e) :
    Consistent (step s e) := by
  unfold step
  rw [if_neg (by simp [hs.panicked])]
  cases e with
  | call call =>
    obtain ⟨hholds, hadvance⟩ | ⟨hholds, rest, hadvance, hclean, hstill⟩ := call.advance_code s
    · simp only [hholds, hadvance]
      exact consistent_hold hs
    · simp only [hholds, hadvance]
      exact consistent_advance hs hclean fun hguarded => hstill (he hguarded)
  | resume =>
    cases hstack : s.stack with
    | nil => exact hs
    | cons frame rest => exact consistent_resume hs hstack

/-- No function of the map panics in a run in which no call made while `set`, `publish`,
`unpublish` or `get_or_insert_with` keeps its guard changes the keys. -/
theorem run_not_panicked (es : List (Event K)) (h : Allowed step Respects new es) :
    (run new es : State K).panicked = false :=
  (h.invariant consistent_new fun _ _ hs he => consistent_step hs he).panicked

/-- A publication runs an effect that reads its key and the key list. -/
theorem run_not_panicked_reading_effect :
    let es : List (Event Nat) :=
      [.call (.publish 1), .resume, .resume, .call (.publish 1), .call (.observeDependency 1),
        .resume, .call .readSignal, .resume, .resume, .call (.remove 1)]
    Allowed step Respects new es ∧ (run new es).panicked = false := by
  refine ⟨by decide +kernel, run_not_panicked _ (by decide +kernel)⟩

/-- An effect reads key 1. Publishing or setting that key runs it again, and it now goes on to
observe key 2, which it inserts while the guard of the publication is alive. -/
theorem effect_observing_new_key_panics :
    (run new [.call (.observeDependency (1 : Nat)), .resume, .resume, .resume, .call (.publish 1),
      .call (.observeDependency 1), .resume, .call (.observeDependency 2)]).panicked = true ∧
    (run new [.call (.observeDependency (1 : Nat)), .resume, .resume, .resume, .call (.set 1),
      .call (.observeDependency 1), .resume, .call (.observeDependency 2)]).panicked = true := by
  decide +kernel

end State

end Lazily.ReactiveMap
