import Lazily.Lib.Reach
import Mathlib.Data.List.ModifyLast
import Mathlib.Data.List.TakeWhile

/-!
# The paged durable tail (`spill.rs`)

Windows are spilled to pages, the egress folds the pending pages into its downstream value and acks
them, and acked pages are reclaimed. Under `CompactOnWrite` a window goes into the last page until
that is full, acked or not: a window that goes into an acked page is never delivered
(`window_in_acked_page_lost`), and that is the only loss (`lossless_iff_open`).
-/

namespace Lazily.Relay

open Lib List Option Nat

/-! ## Pages -/

inductive SpillMode where
  | compactOnWrite
  | appendCompact
  deriving DecidableEq, Repr

/-- A coalesced run of windows. -/
structure SpillPage (T : Type) where
  id : Nat
  summary : T
  bytes : Nat
  deriving DecidableEq, Repr

/-- Merge a window into a page. -/
def SpillPage.absorb {T : Type} (merge : T → T → T) (window : T) (bytes : Nat)
    (page : SpillPage T) : SpillPage T :=
  { page with summary := merge page.summary window, bytes := page.bytes + bytes }

/-- The tail: `openFill` counts the windows of the last page, the first `acked` pages are acked. -/
structure SpillStore (T : Type) where
  pages : List (SpillPage T)
  mode : SpillMode
  pageSize : Nat
  openFill : Nat
  nextId : Nat
  acked : Nat
  deriving DecidableEq, Repr

namespace SpillStore

variable {T : Type}

def new (mode : SpillMode) (pageSize : Nat) : SpillStore T := ⟨[], mode, max pageSize 1, 0, 0, 0⟩

def pushPage (s : SpillStore T) (summary : T) (bytes : Nat) : SpillStore T :=
  { s with nextId := s.nextId + 1, pages := s.pages ++ [⟨s.nextId, summary, bytes⟩] }

variable (merge : T → T → T) (s : SpillStore T)

/-- Spill a window: to a page of its own, or into the open page until that is full. -/
def spill (window : T) (bytes : Nat) : SpillStore T :=
  match s.mode with
  | .appendCompact => s.pushPage window bytes
  | .compactOnWrite =>
    if s.pageSize ≤ s.openFill ∨ s.pages.isEmpty then
      { s.pushPage window bytes with openFill := 1 }
    else
      { s with
        pages := s.pages.modifyLast (.absorb merge window bytes)
        openFill := s.openFill + 1 }

/-- The pages that are not acked yet. -/
def pendingPages : List (SpillPage T) := s.pages.drop s.acked

/-- Ack the pages through an id. -/
def ackThrough (id : Nat) : SpillStore T :=
  { s with acked := s.acked + (s.pendingPages.takeWhile fun page => page.id ≤ id).length }

def reclaim : SpillStore T :=
  if 0 < s.acked then { s with pages := s.pages.drop s.acked, acked := 0 } else s

/-- Fold pages into a value, oldest first. -/
def foldInto (pages : List (SpillPage T)) (s0 : T) : T :=
  pages.foldl (fun acc page => merge acc page.summary) s0

def replayUnacked (downstream : T) : T :=
  foldInto merge s.pendingPages downstream

/-! ## What an operation does to the pages -/

variable {merge : T → T → T} {s : SpillStore T} {w : T} {b : Nat} {pages : List (SpillPage T)}

theorem foldInto_concat (page : SpillPage T) (s0 : T) :
    foldInto merge (pages ++ [page]) s0 = merge (foldInto merge pages s0) page.summary :=
  foldl_concat ..

def Merges (s : SpillStore T) : Prop :=
  s.mode = .compactOnWrite ∧ s.openFill < s.pageSize ∧ s.pages ≠ []

/-- A spill leaves the pages but the last, where the window is. -/
theorem pages_spill (merge : T → T → T) (s : SpillStore T) (w : T) (b : Nat) :
    (¬s.Merges ∧ (s.spill merge w b).pages = s.pages ++ [⟨s.nextId, w, b⟩] ∧
        (s.spill merge w b).nextId = s.nextId + 1) ∨
      s.Merges ∧ ∃ pages page, s.pages = pages ++ [page] ∧
        (s.spill merge w b).pages = pages ++ [page.absorb merge w b] ∧
        (s.spill merge w b).nextId = s.nextId := by
  unfold spill Merges
  cases s.mode with
  | appendCompact => exact .inl ⟨by simp, rfl, rfl⟩
  | compactOnWrite =>
    simp only [true_and]
    split
    · rename_i hfull
      refine .inl ⟨fun hmerges => ?_, rfl, rfl⟩
      rcases hfull with hfull | hempty
      · omega
      · exact hmerges.2 (isEmpty_iff.1 hempty)
    · rename_i hopen
      rw [not_or, not_le, List.isEmpty_iff] at hopen
      obtain ⟨pages, page, hpages⟩ := (List.eq_nil_or_concat' s.pages).resolve_left hopen.2
      refine .inr ⟨hopen, pages, page, hpages, ?_, rfl⟩
      rw [hpages, modifyLast_concat]

@[simp] theorem acked_spill : (s.spill merge w b).acked = s.acked := by
  unfold spill
  cases s.mode with
  | appendCompact => rfl
  | compactOnWrite =>
    simp only
    split <;> rfl

/-- The page the next window goes into is acked: the window will not be pending. -/
def Closed (s : SpillStore T) : Prop := s.Merges ∧ s.pages.length ≤ s.acked

instance (s : SpillStore T) : Decidable s.Closed :=
  decidable_of_iff ((s.mode = .compactOnWrite ∧ s.openFill < s.pageSize ∧
    s.pages.isEmpty = false) ∧ s.pages.length ≤ s.acked) (by simp [Closed, Merges])

/-- Folding the pages from some page on, with a window spilled to one of them, is folding these
pages, then the window. -/
theorem foldInto_drop_spill (hassoc : ∀ x y z, merge (merge x y) z = merge x (merge y z)) {k : Nat}
    (hle : k ≤ s.pages.length) (hlt : s.Merges → k < s.pages.length) (s0 : T) :
    foldInto merge ((s.spill merge w b).pages.drop k) s0 =
      merge (foldInto merge (s.pages.drop k) s0) w := by
  rcases pages_spill merge s w b with ⟨-, hpages, -⟩ | ⟨hmerges, pages, page, hold, hpages, -⟩
  · rw [hpages, drop_append_of_le_length hle, foldInto_concat]
  · have hk := hlt hmerges
    rw [hold, length_append, length_singleton, Nat.lt_succ_iff] at hk
    rw [hpages, hold, drop_append_of_le_length hk, drop_append_of_le_length hk,
      foldInto_concat, foldInto_concat, hassoc]
    rfl

theorem pendingPages_reclaim : s.reclaim.pendingPages = s.pendingPages := by
  unfold reclaim pendingPages
  split <;> rfl

end SpillStore

/-! ## Runs -/

inductive SpillEvent (T : Type) where
  | spill (window : T) (bytes : Nat)
  | deliver
  | reclaim

/-- The tail with its egress. Observation only: all windows, and those not delivered yet with the id
of the page each was spilled to. -/
structure SpillHistory (T : Type) where
  store : SpillStore T
  downstream : T
  windows : List T
  undelivered : List (T × Nat)

namespace SpillHistory

open SpillStore

variable {T : Type} {merge : T → T → T} {s0 : T} {h : SpillHistory T}

def start (mode : SpillMode) (pageSize : Nat) (s0 : T) : SpillHistory T :=
  ⟨.new mode pageSize, s0, [], []⟩

def pendingIds (h : SpillHistory T) : List Nat := h.store.pendingPages.map (·.id)

/-- A delivery folds every pending page downstream and acks through the last. -/
def step (merge : T → T → T) (h : SpillHistory T) : SpillEvent T → SpillHistory T
  | .spill window bytes =>
    let store := h.store.spill merge window bytes
    { store := store
      downstream := h.downstream
      windows := h.windows ++ [window]
      undelivered := h.undelivered ++
        (store.pages.getLast?.map fun page => (window, page.id)).toList }
  | .deliver =>
    { store := h.store.pendingPages.getLast?.elim h.store fun page => h.store.ackThrough page.id
      downstream := h.store.replayUnacked merge h.downstream
      windows := h.windows
      undelivered := h.undelivered.filter fun w => !h.pendingIds.contains w.2 }
  | .reclaim => { h with store := h.store.reclaim }

def run (merge : T → T → T) (h : SpillHistory T) (es : List (SpillEvent T)) : SpillHistory T :=
  es.foldl (step merge) h

/-- Nothing is lost: downstream with the pending pages is the fold of all windows, and a window that
was not delivered is in a pending page. -/
structure Lossless (merge : T → T → T) (s0 : T) (h : SpillHistory T) : Prop where
  folded : h.store.replayUnacked merge h.downstream = h.windows.foldl merge s0
  stored : ∀ w ∈ h.undelivered, w.2 ∈ h.pendingIds

/-- The condition on an event: no window is spilled into an acked page. -/
def Open (h : SpillHistory T) : SpillEvent T → Prop
  | .spill _ _ => ¬h.store.Closed
  | .deliver | .reclaim => True

instance : ∀ (h : SpillHistory T) (e : SpillEvent T), Decidable (Open h e)
  | h, .spill _ _ => inferInstanceAs (Decidable (¬h.store.Closed))
  | _, .deliver | _, .reclaim => inferInstanceAs (Decidable True)

/-- The invariant: nothing is lost, and the ids of the pages increase. -/
structure Inv (merge : T → T → T) (s0 : T) (h : SpillHistory T) : Prop
    extends Lossless merge s0 h where
  acked : h.store.acked ≤ h.store.pages.length
  sorted : (h.store.pages.map (·.id)).Pairwise (· < ·)
  below : ∀ page ∈ h.store.pages, page.id < h.store.nextId

theorem inv_start (mode : SpillMode) (pageSize : Nat) : Inv merge s0 (start mode pageSize s0) :=
  ⟨⟨rfl, by simp [start]⟩, le_refl _, by simp [start, new],
    by simp [start, new]⟩

/-! ## The steps -/

/-- A window goes to the last page. -/
theorem undelivered_spill (merge : T → T → T) (h : SpillHistory T) (w : T) (b : Nat) :
    ∃ page, (h.store.spill merge w b).pages.getLast? = some page ∧
      (h.step merge (.spill w b)).undelivered = h.undelivered ++ [(w, page.id)] := by
  have hlast : ∃ page, (h.store.spill merge w b).pages.getLast? = some page := by
    rcases pages_spill merge h.store w b with ⟨-, hpages, -⟩ | ⟨-, _, _, -, hpages, -⟩ <;>
      exact ⟨_, by rw [hpages, getLast?_concat]⟩
  obtain ⟨page, hpage⟩ := hlast
  refine ⟨page, hpage, ?_⟩
  simp only [step, hpage, map_some, toList_some]

theorem ids_spill (merge : T → T → T) (h : SpillHistory T) (w : T) (b : Nat) : ∃ ids,
    ((h.store.spill merge w b).pages.map (·.id)) = h.store.pages.map (·.id) ++ ids := by
  rcases pages_spill merge h.store w b with ⟨-, hpages, -⟩ | ⟨-, pages, page, hold, hpages, -⟩
  · exact ⟨[h.store.nextId], by simp [hpages]⟩
  · exact ⟨[], by simp [hpages, hold, SpillPage.absorb]⟩

theorem Inv.spill (hassoc : ∀ x y z, merge (merge x y) z = merge x (merge y z))
    (hi : Inv merge s0 h) {w : T} {b : Nat} (hopen : ¬h.store.Closed) :
    Inv merge s0 (h.step merge (.spill w b)) := by
  have hlt : h.store.Merges → h.store.acked < h.store.pages.length :=
    fun hmerges => Nat.lt_of_not_le fun hle => hopen ⟨hmerges, hle⟩
  have hacked := hi.acked
  have hroom : h.store.acked < (h.store.spill merge w b).pages.length := by
    rcases pages_spill merge h.store w b with
      ⟨-, hpages, -⟩ | ⟨hmerges, pages, page, hold, hpages, -⟩
    · rw [hpages, length_append, length_singleton]
      omega
    · have hold' := hlt hmerges
      rw [hold, length_append, length_singleton] at hold'
      rw [hpages, length_append, length_singleton]
      exact hold'
  refine ⟨⟨?_, fun v hv => ?_⟩, ?_, ?_, fun page hpage => ?_⟩
  · have hfold := foldInto_drop_spill (w := w) (b := b) hassoc hacked hlt h.downstream
    have hold := hi.folded
    unfold replayUnacked pendingPages at hold ⊢
    simp only [step, acked_spill, foldl_concat]
    rw [hfold, hold]
  · obtain ⟨page, hlast, hundelivered⟩ := undelivered_spill merge h w b
    rw [hundelivered] at hv
    unfold pendingIds pendingPages
    simp only [step, acked_spill]
    rcases mem_append.1 hv with hv | hv
    · obtain ⟨ids, hids⟩ := ids_spill merge h w b
      have hold := hi.stored v hv
      unfold pendingIds pendingPages at hold
      rw [map_drop] at hold ⊢
      rw [hids, drop_append_of_le_length (by simpa using hacked)]
      exact mem_append_left _ hold
    -- the last page is pending
    · rw [mem_singleton.1 hv]
      refine mem_map_of_mem (mem_of_getLast? ?_)
      rw [getLast?_drop, if_neg (not_le.2 hroom), hlast]
  · simpa only [step, acked_spill] using hroom.le
  · simp only [step]
    rcases pages_spill merge h.store w b with ⟨-, hpages, -⟩ | ⟨-, pages, page, hold, hpages, -⟩
    · rw [hpages, map_append, pairwise_append]
      refine ⟨hi.sorted, pairwise_singleton _ _, fun id hid new hnew => ?_⟩
      obtain ⟨page, hpage, rfl⟩ := mem_map.1 hid
      rw [mem_singleton.1 hnew]
      exact hi.below page hpage
    · have hsorted := hi.sorted
      simpa [hpages, hold, SpillPage.absorb] using hsorted
  · simp only [step] at hpage ⊢
    rcases pages_spill merge h.store w b with
      ⟨-, hpages, hnext⟩ | ⟨-, pages, old, hold, hpages, hnext⟩
    · rw [hnext]
      rw [hpages] at hpage
      rcases mem_append.1 hpage with hpage | hpage
      · exact lt_succ_of_lt (hi.below page hpage)
      · rw [mem_singleton.1 hpage]
        exact lt_succ_self _
    · rw [hnext]
      rw [hpages] at hpage
      rcases mem_append.1 hpage with hpage | hpage
      · exact hi.below page (by rw [hold]; exact mem_append_left _ hpage)
      · rw [mem_singleton.1 hpage]
        exact hi.below old (by rw [hold]; exact mem_append_right _ (mem_singleton_self _))

/-- A window that goes into an acked page is in no pending page. -/
theorem not_lossless_of_closed {w : T} {b : Nat} (hclosed : h.store.Closed) :
    ¬Lossless merge s0 (h.step merge (.spill w b)) := by
  intro hlossless
  obtain ⟨page, -, hundelivered⟩ := undelivered_spill merge h w b
  have hpending := hlossless.stored (w, page.id) (by rw [hundelivered]; simp)
  unfold pendingIds pendingPages at hpending
  rcases pages_spill merge h.store w b with ⟨hnot, -⟩ | ⟨-, pages, old, hold, hpages, -⟩
  · exact hnot hclosed.1
  · have hall := hclosed.2
    rw [hold, length_append] at hall
    simp only [step, acked_spill, hpages] at hpending
    rw [drop_eq_nil_of_le (by simpa using hall)] at hpending
    cases hpending

theorem pendingPages_deliver (hi : Inv merge s0 h) :
    (h.step merge .deliver).store.pendingPages = [] := by
  simp only [step]
  cases hlast : h.store.pendingPages.getLast? with
  | none => exact getLast?_eq_none_iff.1 hlast
  | some last =>
    have hall : ∀ page ∈ h.store.pendingPages, page.id ≤ last.id := by
      obtain ⟨pages, hpages⟩ := getLast?_eq_some_iff.1 hlast
      have hsorted := hi.sorted.sublist ((drop_sublist h.store.acked h.store.pages).map _)
      unfold pendingPages at hpages ⊢
      rw [hpages, map_append, pairwise_append] at hsorted
      intro page hpage
      rw [hpages] at hpage
      rcases mem_append.1 hpage with hpage | hpage
      · exact (hsorted.2.2 page.id (mem_map_of_mem hpage) last.id (by simp)).le
      · rw [mem_singleton.1 hpage]
    rw [elim_some]
    unfold ackThrough
    rw [takeWhile_eq_self_iff.2 fun page hpage => by simpa using hall page hpage]
    unfold pendingPages
    simp only [length_drop]
    exact drop_eq_nil_of_le (by omega)

theorem Inv.deliver (hi : Inv merge s0 h) : Inv merge s0 (h.step merge .deliver) := by
  have hnone := pendingPages_deliver hi
  have hstore : (h.step merge .deliver).store.pages = h.store.pages ∧
      (h.step merge .deliver).store.nextId = h.store.nextId := by
    simp only [step]
    cases h.store.pendingPages.getLast? <;> exact ⟨rfl, rfl⟩
  refine ⟨⟨?_, fun w hw => ?_⟩, ?_, ?_, fun page hpage => ?_⟩
  · rw [replayUnacked, hnone]
    exact hi.folded
  · obtain ⟨hw, hnot⟩ := mem_filter.1 hw
    rw [contains_iff_mem.2 (hi.stored w hw)] at hnot
    cases hnot
  · have hacked := hi.acked
    simp only [step]
    cases h.store.pendingPages.getLast? with
    | none => exact hacked
    | some last =>
      have hle : (h.store.pendingPages.takeWhile fun page => page.id ≤ last.id).length ≤
          h.store.pendingPages.length := (takeWhile_sublist _).length_le
      simp only [elim_some, ackThrough]
      rw [pendingPages, length_drop] at hle
      unfold pendingPages
      omega
  · rw [hstore.1]
    exact hi.sorted
  · rw [hstore.1] at hpage
    rw [hstore.2]
    exact hi.below page hpage

theorem Inv.reclaim (hi : Inv merge s0 h) : Inv merge s0 (h.step merge .reclaim) := by
  have hpages : h.store.reclaim.pages.Sublist h.store.pages := by
    unfold SpillStore.reclaim
    split
    · exact drop_sublist _ _
    · exact .refl _
  have hnext : h.store.reclaim.nextId = h.store.nextId := by
    unfold SpillStore.reclaim
    split <;> rfl
  refine ⟨⟨?_, fun w hw => ?_⟩, ?_, hi.sorted.sublist (hpages.map _), fun page hpage => ?_⟩
  · simp only [step, replayUnacked, pendingPages_reclaim]
    exact hi.folded
  · simp only [step, pendingIds, pendingPages_reclaim]
    exact hi.stored w hw
  · simp only [step, SpillStore.reclaim]
    split
    · exact zero_le _
    · exact hi.acked
  · simp only [step] at hpage ⊢
    rw [hnext]
    exact hi.below page (hpages.subset hpage)

/-- **Nothing is lost** in a state of the run iff no window is spilled into an acked page. -/
theorem lossless_iff_open (merge : T → T → T)
    (hassoc : ∀ x y z, merge (merge x y) z = merge x (merge y z)) (mode : SpillMode)
    (pageSize : Nat) (s0 : T) (es : List (SpillEvent T)) :
    (∀ pre, pre <+: es → Lossless merge s0 ((start mode pageSize s0).run merge pre)) ↔
      ∀ pre e, pre ++ [e] <+: es → Open ((start mode pageSize s0).run merge pre) e := by
  refine forall_prefix_iff (I := Inv merge s0) (fun _ _ => True) (inv_start mode pageSize)
    (fun _ hi => hi.toLossless) (fun h e hi _ hopen => ?_) (fun h e _ _ hclosed => ?_)
    fun _ _ _ => trivial
  · cases e with
    | spill w b => exact hi.spill hassoc hopen
    | deliver => exact hi.deliver
    | reclaim => exact hi.reclaim
  · cases e with
    | spill w b => exact not_lossless_of_closed (not_not.1 hclosed)
    | deliver => exact absurd trivial hclosed
    | reclaim => exact absurd trivial hclosed

/-- A full page, delivered and reclaimed, then another window. -/
theorem lossless_iff_open_full :
    let es : List (SpillEvent Nat) :=
      [.spill 1 8, .spill 2 8, .deliver, .spill 4 8, .deliver, .reclaim, .spill 8 8]
    (∀ pre, pre <+: es → Lossless (· + ·) 0 ((start .compactOnWrite 2 0).run (· + ·) pre)) := by
  intro es
  have hopen : Allowed (step (· + ·)) Open (start .compactOnWrite 2 0) es := by decide
  exact (lossless_iff_open (· + ·) Nat.add_assoc .compactOnWrite 2 0 es).2
    fun _ _ => hopen.of_prefix

/-- The second window goes into the page that was acked: it is neither downstream nor pending. -/
theorem window_in_acked_page_lost :
    let h := (start .compactOnWrite 2 0).run (· + ·) [.spill 1 8, .deliver, .spill 2 8]
    h.store.replayUnacked (· + ·) h.downstream = 1 ∧ h.windows.foldl (· + ·) 0 = 3 ∧
      ¬Lossless (· + ·) 0 h := by
  refine ⟨by decide, by decide, fun hlossless => ?_⟩
  have hfolded := hlossless.folded
  revert hfolded
  decide

end SpillHistory

end Lazily.Relay
