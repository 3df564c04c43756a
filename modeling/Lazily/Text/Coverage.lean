import Mathlib.Order.MinMax
import Lazily.Text.Buffer

/-!
# What a buffer holds and covers

A buffer holds facts: that a character was inserted, and the deletion it keeps of one. It covers a
deletion also by one with a smaller id, since that is the one kept when both are known. The elements
of a buffer are determined by the facts it covers (`elems_eq_of_covers`). Taking in ops adds what
the ops cover (`covers_absorbAll`), whatever their order; a local edit adds facts under ids of its
own peer past the counter (`Grows`).
-/

namespace Lazily.Text

open Lib List Function Nat SortedMap Std.ExtTreeMap TextVersionVector
open Crdt (OpId)
open scoped SortedSet

inductive Fact where
  | insert (id : OpId) (ch : Char) (origin : Option OpId)
  | delete (id del : OpId)

namespace Fact

def id : Fact → OpId
  | .insert id _ _ => id
  | .delete id _ => id

def opId : Fact → OpId
  | .insert id _ _ => id
  | .delete _ del => del

end Fact

namespace TextOp

def Holds (op : TextOp) : Fact → Prop
  | .insert id ch origin => op.id = id ∧ op.ch = ch ∧ op.origin = origin
  | .delete id del => op.id = id ∧ op.deleted = some del

def Covers (op : TextOp) : Fact → Prop
  | .insert id ch origin => op.id = id ∧ op.ch = ch ∧ op.origin = origin
  | .delete id del => op.id = id ∧ ∃ d, op.deleted = some d ∧ d ≤ del

variable {op : TextOp} {f : Fact}

theorem Holds.id_eq (h : op.Holds f) : op.id = f.id := by
  cases f with
  | insert id ch origin => exact h.1
  | delete id del => exact h.1

theorem Covers.id_eq (h : op.Covers f) : op.id = f.id := by
  cases f with
  | insert id ch origin => exact h.1
  | delete id del => exact h.1

theorem Holds.covers (h : op.Holds f) : op.Covers f := by
  cases f with
  | insert id ch origin => exact h
  | delete id del => exact ⟨h.1, del, h.2, le_rfl⟩

/-- What an op covers it holds, or a deletion with a smaller id. -/
theorem Covers.holds (h : op.Covers f) : op.Holds f ∨ ∃ id d del, f = .delete id del ∧ d ≤ del ∧
    op.Holds (.delete id d) := by
  cases f with
  | insert id ch origin => exact .inl h
  | delete id del =>
    obtain ⟨hid, d, hd, hle⟩ := h
    exact .inr ⟨id, d, del, rfl, hle, hid, hd⟩

end TextOp

/-- The deletion of two that is kept covers exactly what they cover. -/
theorem mergeDeleted_le_iff {a b : Option OpId} {del : OpId} :
    (∃ d, mergeDeleted a b = some d ∧ d ≤ del) ↔
      (∃ d, a = some d ∧ d ≤ del) ∨ ∃ d, b = some d ∧ d ≤ del := by
  cases a with
  | none => cases b <;> simp [mergeDeleted]
  | some a =>
    cases b with
    | none => simp [mergeDeleted]
    | some b => simp [mergeDeleted]

theorem mergeDeleted_eq {a b : Option OpId} {del : OpId} (h : mergeDeleted a b = some del) :
    a = some del ∨ b = some del := by
  cases a with
  | none => cases b <;> simp_all [mergeDeleted]
  | some a =>
    cases b with
    | none => exact .inl h
    | some b =>
      rcases min_choice a b with hmin | hmin
      · exact .inl (by rw [← h, mergeDeleted, hmin])
      · exact .inr (by rw [← h, mergeDeleted, hmin])

namespace TextCrdt

variable {t t' t'' : TextCrdt} {op : TextOp} {f : Fact}

def Holds (t : TextCrdt) (f : Fact) : Prop := ∃ e, t.elems[f.id]? = some e ∧ (toOp f.id e).Holds f

def Covers (t : TextCrdt) (f : Fact) : Prop := ∃ e, t.elems[f.id]? = some e ∧ (toOp f.id e).Covers f

theorem Holds.covers (h : t.Holds f) : t.Covers f := by
  obtain ⟨e, he, hf⟩ := h
  exact ⟨e, he, hf.covers⟩

variable {id : OpId} {content : OpId → Char × Option OpId} {ops : List TextOp}

/-- An element is determined by what is covered of it. -/
theorem get_eq_of_covers (h : ∀ f : Fact, f.id = id → (t.Covers f ↔ t'.Covers f)) :
    t.elems[id]? = t'.elems[id]? := by
  -- one direction for each side: the element is there, with a deletion that is no larger
  have hsub : ∀ {t t' : TextCrdt}, (∀ f : Fact, f.id = id → t.Covers f → t'.Covers f) → ∀ e,
      t.elems[id]? = some e → ∃ e', t'.elems[id]? = some e' ∧ e'.ch = e.ch ∧ e'.origin = e.origin ∧
        ∀ d, e.deleted = some d → ∃ d', e'.deleted = some d' ∧ d' ≤ d := by
    intro t t' h e he
    obtain ⟨e', he', -, hch, horigin⟩ := h (.insert id e.ch e.origin) rfl ⟨e, he, rfl, rfl, rfl⟩
    refine ⟨e', he', hch, horigin, fun d hd => ?_⟩
    obtain ⟨e'', he'', -, hdel⟩ := h (.delete id d) rfl ⟨e, he, rfl, d, hd, le_rfl⟩
    have heq := Option.some.inj (he'.symm.trans he'')
    exact heq ▸ hdel
  cases he : t.elems[id]? with
  | none =>
    cases he' : t'.elems[id]? with
    | none => rfl
    | some e' =>
      obtain ⟨e, hno, -⟩ := hsub (fun f hf => (h f hf).2) e' he'
      rw [he] at hno
      cases hno
  | some e =>
    obtain ⟨e', he', hch, horigin, hle⟩ := hsub (fun f hf => (h f hf).1) e he
    obtain ⟨e'', he'', -, -, hle'⟩ := hsub (fun f hf => (h f hf).2) e' he'
    rw [he] at he''
    cases he''
    rw [he']
    obtain ⟨c, o, d⟩ := e
    obtain ⟨c', o', d'⟩ := e'
    simp only at hch horigin hle hle'
    subst hch horigin
    suffices hd : d = d' by rw [hd]
    cases d with
    | none =>
      cases d' with
      | none => rfl
      | some d' =>
        obtain ⟨d, hd, -⟩ := hle' d' rfl
        cases hd
    | some d =>
      obtain ⟨x, hx, hxd⟩ := hle d rfl
      obtain ⟨y, hy, hyx⟩ := hle' x hx
      cases hy
      rw [hx, le_antisymm hyx hxd]

theorem elems_eq_of_covers (h : ∀ f, t.Covers f ↔ t'.Covers f) : t.elems = t'.elems :=
  ext_getElem? fun _ => get_eq_of_covers fun f _ => h f

theorem text_congr (h : t.elems = t'.elems) : t.text = t'.text := by
  unfold text orderedIds ids originOf isLive
  rw [h]

/-- The order of the ids is that of their keys. -/
theorem ids_congr (h : ∀ id, id ∈ t.elems ↔ id ∈ t'.elems) : t.ids = t'.ids := by
  have hmem : ∀ id : OpId, true = true → (id ∈ t.elems ↔ id ∈ t'.elems) := fun id _ => h id
  have hkeys := keys_filter_eq hmem
  rw [filter_true, filter_true] at hkeys
  rw [ids, ids, hkeys]

/-! ## Taking in ops -/

/-- Every character has the content its op gave it. -/
def Agrees (content : OpId → Char × Option OpId) (t : TextCrdt) : Prop :=
  ∀ (id : OpId) e, t.elems[id]? = some e → (e.ch, e.origin) = content id

theorem absorb_get (t : TextCrdt) (op : TextOp) (id : OpId) :
    (t.absorb op).elems[id]? = if op.id = id then some (t.elems[op.id]?.elim op.elem fun e =>
        { e with deleted := mergeDeleted e.deleted op.deleted }) else t.elems[id]? := by
  unfold absorb
  cases t.elems[op.id]? <;> simp

section

variable (ht : t.Agrees content)
include ht

theorem Agrees.absorb (hop : (op.ch, op.origin) = content op.id) :
    (t.absorb op).Agrees content := by
  intro id e he
  rw [absorb_get] at he
  split at he
  · rename_i hid
    subst hid
    cases hold : t.elems[op.id]? with
    | none =>
      rw [hold] at he
      cases he
      exact hop
    | some old =>
      rw [hold] at he
      cases he
      exact ht op.id old hold
  · exact ht id e he

/-- Taking in an op adds what the op covers. -/
theorem covers_absorb (hop : (op.ch, op.origin) = content op.id) :
    (t.absorb op).Covers f ↔ t.Covers f ∨ op.Covers f := by
  unfold Covers
  rw [absorb_get]
  split
  · rename_i hid
    cases hold : t.elems[op.id]? with
    | none =>
      rw [hid] at hold
      simp only [hold, Option.some.injEq, exists_eq_left', reduceCtorEq,
        false_and, exists_false, false_or]
      rw [← hid]
      rfl
    | some old =>
      have hsame : (old.ch, old.origin) = (op.ch, op.origin) := (ht op.id old hold).trans hop.symm
      rw [hid] at hold
      simp only [hold, Option.elim_some, Option.some.injEq, exists_eq_left']
      obtain ⟨hch, horigin⟩ := Prod.mk.inj hsame
      cases f with
      | insert id ch origin =>
        simp only [TextOp.Covers, toOp, hch, horigin]
        tauto
      | delete id del =>
        have hid : op.id = id := hid
        simp only [TextOp.Covers, toOp, Fact.id, mergeDeleted_le_iff, hid, true_and]
  · rename_i hid
    exact ⟨.inl, fun h => h.resolve_right fun hop => hid hop.id_eq⟩

variable (hops : ∀ op ∈ ops, (op.ch, op.origin) = content op.id)
include hops

theorem covers_absorbAll : (t.absorbAll ops).Covers f ↔ t.Covers f ∨ ∃ op ∈ ops, op.Covers f := by
  unfold absorbAll
  induction ops generalizing t with
  | nil => simp
  | cons op ops ih =>
    rw [forall_mem_cons] at hops
    rw [foldl_cons, ih (ht.absorb hops.1) hops.2, covers_absorb ht hops.1, or_assoc]
    simp only [mem_cons, exists_eq_or_imp]

theorem Agrees.absorbAll : (t.absorbAll ops).Agrees content := by
  unfold TextCrdt.absorbAll
  induction ops generalizing t with
  | nil => exact ht
  | cons op ops ih =>
    rw [forall_mem_cons] at hops
    exact ih (ht.absorb hops.1) hops.2

end

/-- What is held afterwards was held before or by the op. -/
theorem holds_absorb (h : (t.absorb op).Holds f) : t.Holds f ∨ op.Holds f := by
  obtain ⟨e, he, hf⟩ := h
  rw [absorb_get] at he
  split at he
  · rename_i hid
    cases hold : t.elems[op.id]? with
    | none =>
      rw [hold] at he
      cases he
      rw [← hid] at hf
      exact .inr hf
    | some old =>
      rw [hold] at he
      cases he
      rw [hid] at hold
      cases f with
      | insert id ch origin => exact .inl ⟨old, hold, hf⟩
      | delete id del =>
        rcases mergeDeleted_eq hf.2 with hdel | hdel
        · exact .inl ⟨old, hold, rfl, hdel⟩
        · exact .inr ⟨hid, hdel⟩
  · exact .inl ⟨e, he, hf⟩

theorem holds_absorbAll (h : (t.absorbAll ops).Holds f) : t.Holds f ∨ ∃ op ∈ ops, op.Holds f := by
  unfold absorbAll at h
  induction ops generalizing t with
  | nil => exact .inl h
  | cons op ops ih =>
    rcases ih h with h | ⟨op', hin, h⟩
    · rcases holds_absorb h with h | h
      · exact .inl h
      · exact .inr ⟨op, mem_cons_self, h⟩
    · exact .inr ⟨op', mem_cons_of_mem _ hin, h⟩

@[simp] theorem absorbAll_peer (t : TextCrdt) (ops : List TextOp) :
    (t.absorbAll ops).peer = t.peer := by
  unfold absorbAll
  induction ops generalizing t with
  | nil => rfl
  | cons op ops ih => exact ih (t.absorb op)

theorem counter_absorbAll (t : TextCrdt) (ops : List TextOp) :
    t.counter ≤ (t.absorbAll ops).counter ∧ ∀ op ∈ ops, ∀ f, op.Holds f →
      f.opId.counter ≤ (t.absorbAll ops).counter := by
  unfold absorbAll
  induction ops generalizing t with
  | nil => exact ⟨le_rfl, fun op hin => by cases hin⟩
  | cons op ops ih =>
    obtain ⟨hle, hops⟩ := ih (t.absorb op)
    rw [foldl_cons, forall_mem_cons]
    refine ⟨?_, fun f hf => ?_, hops⟩
    · exact ((le_max_left _ _).trans (le_max_left _ _)).trans hle
    · refine le_trans ?_ hle
      cases f with
      | insert id ch origin =>
        obtain ⟨rfl, -, -⟩ := hf
        exact (le_max_right _ _).trans (le_max_left _ _)
      | delete id del =>
        refine le_trans ?_ (le_max_right _ _)
        rw [hf.2, Option.elim_some]
        exact le_rfl

theorem mem_toOps : op ∈ t.toOps ↔ t.elems[op.id]? = some op.elem := by
  unfold toOps
  rw [mem_map]
  constructor
  · rintro ⟨⟨id, e⟩, hin, rfl⟩
    exact mem_toList_iff_getElem?_eq_some.1 hin
  · intro h
    exact ⟨(op.id, op.elem), mem_toList_iff_getElem?_eq_some.2 h, rfl⟩

/-- A property that names the element: of an op, or of the element. -/
theorem exists_toOps_iff {Q : TextOp → Prop} (hid : ∀ op, Q op → op.id = id) :
    (∃ op ∈ t.toOps, Q op) ↔ ∃ e, t.elems[id]? = some e ∧ Q (toOp id e) := by
  constructor
  · rintro ⟨op, hin, h⟩
    have he := mem_toOps.1 hin
    rw [hid op h] at he
    exact ⟨op.elem, he, hid op h ▸ h⟩
  · rintro ⟨e, he, h⟩
    exact ⟨toOp id e, mem_toOps.2 he, h⟩

theorem exists_toOps_holds : (∃ op ∈ t.toOps, op.Holds f) ↔ t.Holds f :=
  exists_toOps_iff fun _ h => h.id_eq

theorem exists_toOps_covers : (∃ op ∈ t.toOps, op.Covers f) ↔ t.Covers f :=
  exists_toOps_iff fun _ h => h.id_eq

theorem applyDelta_fst (t : TextCrdt) (ops : List TextOp) :
    (t.applyDelta ops).1 = t.absorbAll ops := by
  have hfold : ∀ acc : TextCrdt × Bool,
      (ops.foldl (fun acc op => (acc.1.absorb op, acc.2 || acc.1.absorbs op)) acc).1 =
        ops.foldl absorb acc.1 := by
    induction ops with
    | nil => exact fun _ => rfl
    | cons op ops ih => exact fun _ => ih _
  exact hfold (t, false)

/-! ## Version vectors -/

theorem le_bump_iff {vv : TextVersionVector} {p c : Nat} :
    c ≤ (vv.bump id)[p]?.getD 0 ↔ c ≤ vv[p]?.getD 0 ∨ id.peer = p ∧ c ≤ id.counter := by
  unfold bump
  rw [get_insert]
  by_cases hp : id.peer = p
  · subst hp
    simp
  · simp [hp]

theorem le_versionVector_iff {p c : Nat} : c ≤ t.versionVector[p]?.getD 0 ↔ c = 0 ∨
      ∃ f, t.Holds f ∧ f.opId.peer = p ∧ c ≤ f.opId.counter := by
  have hfold : ∀ (ops : List TextOp) (vv : TextVersionVector),
      c ≤ (ops.foldl (fun vv op =>
          op.deleted.elim (vv.bump op.id) (vv.bump op.id).bump) vv)[p]?.getD 0 ↔
        c ≤ vv[p]?.getD 0 ∨ ∃ op ∈ ops, ∃ f, op.Holds f ∧ f.opId.peer = p ∧
          c ≤ f.opId.counter := by
    intro ops
    induction ops with
    | nil => simp
    | cons op ops ih =>
      intro vv
      have hop : c ≤ (op.deleted.elim (vv.bump op.id) (vv.bump op.id).bump)[p]?.getD 0 ↔
          c ≤ vv[p]?.getD 0 ∨ ∃ f, op.Holds f ∧ f.opId.peer = p ∧ c ≤ f.opId.counter := by
        have hfacts : (∃ f, op.Holds f ∧ f.opId.peer = p ∧ c ≤ f.opId.counter) ↔
            (op.id.peer = p ∧ c ≤ op.id.counter) ∨
              ∃ d, op.deleted = some d ∧ d.peer = p ∧ c ≤ d.counter := by
          constructor
          · rintro ⟨f, hf, hp, hc⟩
            cases f with
            | insert id ch origin => exact .inl (hf.1 ▸ ⟨hp, hc⟩)
            | delete id del => exact .inr ⟨del, hf.2, hp, hc⟩
          · rintro (⟨hp, hc⟩ | ⟨d, hd, hp, hc⟩)
            · exact ⟨.insert op.id op.ch op.origin, ⟨rfl, rfl, rfl⟩, hp, hc⟩
            · exact ⟨.delete op.id d, ⟨rfl, hd⟩, hp, hc⟩
        rw [hfacts]
        cases op.deleted with
        | none => simp [le_bump_iff]
        | some d => simp [le_bump_iff, or_assoc]
      rw [foldl_cons, ih, hop, or_assoc]
      simp only [mem_cons, exists_eq_or_imp]
  rw [versionVector, hfold]
  constructor
  · rintro (h | ⟨op, hin, f, hf, hrest⟩)
    · exact .inl (by simpa using h)
    · exact .inr ⟨f, exists_toOps_holds.1 ⟨op, hin, hf⟩, hrest⟩
  · rintro (rfl | ⟨f, hf, hrest⟩)
    · exact .inl (zero_le _)
    · obtain ⟨op, hin, hop⟩ := exists_toOps_holds.2 hf
      exact .inr ⟨op, hin, f, hop, hrest⟩

/-- The vector of a buffer has seen an op iff the buffer holds a later one of its peer. -/
theorem seen_iff : t.versionVector.seen id = true ↔ id.counter = 0 ∨
    ∃ f, t.Holds f ∧ f.opId.peer = id.peer ∧ id.counter ≤ f.opId.counter := by
  rw [seen, decide_eq_true_iff, le_versionVector_iff]

/-! ## Edits -/

/-- The counter is past every op held. -/
def Clocked (t : TextCrdt) : Prop := ∀ f, t.Holds f → f.opId.counter ≤ t.counter

def IsNew (t : TextCrdt) (id : OpId) : Prop := id.peer = t.peer ∧ t.counter < id.counter

/-- What a local edit does: the facts it adds are under new ids of the peer. -/
structure Grows (t t' : TextCrdt) : Prop where
  peer : t'.peer = t.peer
  counter : t.counter ≤ t'.counter
  keeps : ∀ f, t.Covers f → t'.Covers f
  only : ∀ f, t'.Holds f → t.Holds f ∨ t.IsNew f.opId ∧ f.opId.counter ≤ t'.counter
  agrees : ∀ content, t.Agrees content → ∃ content', t'.Agrees content' ∧
    ∀ id, ¬t.IsNew id → content' id = content id

namespace Grows

theorem refl (t : TextCrdt) : Grows t t :=
  ⟨rfl, le_rfl, fun _ => id, fun _ => .inl, fun content h => ⟨content, h, fun _ _ => rfl⟩⟩

theorem isNew (h : Grows t t') (hnew : t'.IsNew id) : t.IsNew id :=
  ⟨hnew.1.trans h.peer, h.counter.trans_lt hnew.2⟩

theorem trans (h : Grows t t') (h' : Grows t' t'') : Grows t t'' where
  peer := h'.peer.trans h.peer
  counter := h.counter.trans h'.counter
  keeps f hf := h'.keeps f (h.keeps f hf)
  only f hf := by
    rcases h'.only f hf with hf | ⟨hnew, hle⟩
    · rcases h.only f hf with hf | ⟨hnew, hle⟩
      · exact .inl hf
      · exact .inr ⟨hnew, hle.trans h'.counter⟩
    · exact .inr ⟨h.isNew hnew, hle⟩
  agrees content ht := by
    obtain ⟨content', ht', hold'⟩ := h.agrees content ht
    obtain ⟨content'', ht'', hold''⟩ := h'.agrees content' ht'
    refine ⟨content'', ht'', fun id hold => ?_⟩
    rw [hold'' id fun hnew => hold (h.isNew hnew), hold' id hold]

theorem clocked (h : Grows t t') (ht : t.Clocked) : t'.Clocked := by
  intro f hf
  rcases h.only f hf with hf | ⟨-, hle⟩
  · exact (ht f hf).trans h.counter
  · exact hle

end Grows

theorem Clocked.fresh (ht : t.Clocked) : t.elems[t.nextId.2]? = none := by
  cases he : t.elems[t.nextId.2]? with
  | none => rfl
  | some e =>
    have hle := ht (.insert t.nextId.2 e.ch e.origin) ⟨e, he, rfl, rfl, rfl⟩
    exact absurd hle (not_succ_le_self t.counter)

theorem isNew_nextId (t : TextCrdt) : t.IsNew t.nextId.2 := ⟨rfl, lt_succ_self _⟩

theorem grows_nextId (t : TextCrdt) : Grows t t.nextId.1 :=
  ⟨rfl, le_succ _, fun _ => id, fun _ => .inl, fun content h => ⟨content, h, fun _ _ => rfl⟩⟩

variable (ht : t.Clocked)
include ht

theorem grows_insertAfter (origin : Option OpId) (ch : Char) :
    Grows t (t.insertAfter origin ch) := by
  have hget : ∀ id : OpId, (t.insertAfter origin ch).elems[id]? =
      if t.nextId.2 = id then some ⟨ch, origin, none⟩ else t.elems[id]? :=
    fun id => get_insert.trans (by congr)
  refine ⟨rfl, le_succ _, fun f hf => ?_, fun f hf => ?_, fun content hc => ?_⟩
  · obtain ⟨e, he, hf⟩ := hf
    refine ⟨e, ?_, hf⟩
    rw [hget, if_neg fun hid => ?_, he]
    rw [← hid, ht.fresh] at he
    cases he
  · obtain ⟨e, he, hf⟩ := hf
    rw [hget] at he
    split at he
    · rename_i hid
      cases he
      cases f with
      | insert id ch' origin' =>
        subst hid
        exact .inr ⟨isNew_nextId t, le_rfl⟩
      | delete id del => cases hf.2
    · exact .inl ⟨e, he, hf⟩
  · refine ⟨update content t.nextId.2 (ch, origin), fun id e he => ?_, fun id hold => ?_⟩
    · rw [hget] at he
      split at he
      · rename_i hid
        cases he
        rw [← hid, update_self]
      · rename_i hid
        rw [update_of_ne (Ne.symm hid)]
        exact hc id e he
    · refine update_of_ne (fun hid => hold ?_) _ _
      rw [hid]
      exact isNew_nextId t

theorem grows_insert (index : Nat) (ch : Char) : Grows t (t.insert index ch) :=
  grows_insertAfter ht _ ch

variable (s : List Char)

theorem grows_insertChain (origin : Option OpId) : Grows t (t.insertChain origin s) := by
  induction s generalizing t origin with
  | nil => exact .refl t
  | cons ch s ih =>
    have hone := grows_insertAfter ht origin ch
    exact hone.trans (ih (hone.clocked ht) _)

theorem grows_insertEach (index : Nat) : Grows t (t.insertEach index s) := by
  induction s generalizing t index with
  | nil => exact .refl t
  | cons ch s ih =>
    have hone := grows_insert ht index ch
    exact hone.trans (ih (hone.clocked ht) _)

theorem grows_insertStr (index : Nat) : Grows t (t.insertStr index s) := by
  unfold insertStr
  dsimp only
  split
  · exact grows_insertEach ht s index
  · exact grows_insertChain ht s _

omit ht in
theorem grows_tombstone (t : TextCrdt) (id : OpId) :
    Grows t (t.nextId.1.tombstone id t.nextId.2) := by
  unfold tombstone
  cases he : t.nextId.1.elems[id]? with
  | none => exact grows_nextId t
  | some e =>
    dsimp only
    split
    · rename_i hlive
      have hget : ∀ i : OpId, (t.elems.insert id { e with deleted := some t.nextId.2 })[i]? =
          if id = i then some { e with deleted := some t.nextId.2 } else t.elems[i]? :=
        fun i => get_insert.trans (by congr)
      refine ⟨rfl, le_succ _, fun f hf => ?_, fun f hf => ?_, fun content hc => ?_⟩
      · obtain ⟨e', he', hf⟩ := hf
        by_cases hid : id = f.id
        · subst hid
          have heq : e = e' := Option.some.inj (he.symm.trans he')
          subst heq
          refine ⟨_, (hget _).trans (if_pos rfl), ?_⟩
          cases f with
          | insert i ch origin => exact hf
          | delete i del =>
            obtain ⟨-, d, hd, -⟩ := hf
            rw [toOp, hlive] at hd
            cases hd
        · exact ⟨e', (hget _).trans ((if_neg hid).trans he'), hf⟩
      · obtain ⟨e', he', hf⟩ := hf
        have he' := (hget f.id).symm.trans he'
        split at he'
        · rename_i hid
          cases he'
          subst hid
          cases f with
          | insert i ch origin => exact .inl ⟨e, he, hf⟩
          | delete i del =>
            cases hf.2
            exact .inr ⟨isNew_nextId t, le_rfl⟩
        · exact .inl ⟨e', he', hf⟩
      · refine ⟨content, fun i e' he' => ?_, fun _ _ => rfl⟩
        have he' := (hget i).symm.trans he'
        split at he'
        · rename_i hid
          cases he'
          subst hid
          exact hc id e he
        · exact hc i e' he'
    · exact grows_nextId t

omit ht in
theorem grows_deleteIds (t : TextCrdt) (ids : List OpId) : Grows t (t.deleteIds ids) := by
  induction ids generalizing t with
  | nil => exact .refl t
  | cons id ids ih => exact (grows_tombstone t id).trans (ih _)

theorem grows_replaceAll (order : List OpId) : Grows t (t.replaceAll order s) :=
  have hdeleted := grows_deleteIds t order
  hdeleted.trans (grows_insertChain (hdeleted.clocked ht) s none)

end TextCrdt

end Lazily.Text
