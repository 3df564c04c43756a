import Lazily.Collection.SourceMap

/-!
# What reconciliation reaches

`applyToMap_reconcile_iff`: on a collection that holds `old`, the ops of `reconcile old new` lead to
`new` iff no key is `Overtaken`. The comment in the source that positions in front of the one being
placed are settled does not hold: a key that waits for its own move may still stand in front of a
stable key that has been passed, and whatever is placed meanwhile lands one position too early
(`reconcile_late_move`).

* The patience pass returns an increasing subsequence (`longestIncreasingSubsequence_pairwise`), so
  the stable keys stand in one order in both sequences (`filter_isStable_pairwise`).
* The order part of the ops is the run `placeFrom` of `Lib.Reorder` over the target order
  (`applyToMap_placements`); its exact condition is `Lib.Reorder.placeFrom_eq_iff`.
* Values are right in any case (`applyToMap_reconcile`).
-/

namespace Lazily

open Lib.Reorder List Prod Nat SourceMap

namespace Reconcile

variable {i : Nat} {β : Type}

/-! ## The patience pass returns an increasing subsequence -/

section Increasing

variable {seq : List Nat}

def Above (seq : List Nat) (i j : Nat) : Prop := i < j ∧ seq.getD i 0 < seq.getD j 0

/-- Every tail in front of the one found is smaller than `x`. -/
theorem searchTails_spec (seq tails : List Nat) (x : Nat) : ∀ fuel lo hi, lo ≤ hi →
    (0 < lo → seq.getD (tails.getD (lo - 1) 0) 0 < x) → searchTails seq tails x fuel lo hi ≤ hi ∧
      (0 < searchTails seq tails x fuel lo hi →
        seq.getD (tails.getD (searchTails seq tails x fuel lo hi - 1) 0) 0 < x)
  | 0, lo, hi, hle, hlo => ⟨hle, hlo⟩
  | fuel + 1, lo, hi, hle, hlo => by
    rw [searchTails]
    split
    · simp only []
      split
      · rename_i hmid
        exact searchTails_spec seq tails x fuel _ hi (by omega) fun _ => by simpa using hmid
      · obtain ⟨h, h'⟩ := searchTails_spec seq tails x fuel lo ((lo + hi) / 2) (by omega) hlo
        exact ⟨by omega, h'⟩
    · exact ⟨hle, hlo⟩

/-- The state of the pass after the first `i` elements. -/
structure Patience.Inv (seq : List Nat) (i : Nat) (s : Patience) : Prop where
  tails : ∀ t ∈ s.tails, t < i
  prev : ∀ k j, s.prev.getD k none = some j → Above seq j k

theorem Patience.Inv.step {s : Patience} (h : s.Inv seq i) : (s.step seq i).Inv seq (i + 1) := by
  obtain ⟨-, hlow⟩ := searchTails_spec seq s.tails (seq.getD i 0) s.tails.length 0 s.tails.length
    (zero_le _) (by simp)
  unfold Patience.step
  generalize searchTails seq s.tails (seq.getD i 0) s.tails.length 0 s.tails.length = lo at hlow
  constructor
  · intro t ht
    simp only at ht
    split at ht
    · rcases mem_append.1 ht with ht | ht
      · exact lt_succ_of_lt (h.tails t ht)
      · simp_all
    · rcases mem_or_eq_of_mem_set ht with ht | rfl
      · exact lt_succ_of_lt (h.tails t ht)
      · exact lt_succ_self t
  · intro k j hk
    simp only at hk
    split at hk
    · rename_i hpos
      rw [getD_eq_getElem?_getD, getElem?_set] at hk
      split at hk
      · -- the new element: its predecessor is the tail in front of the one found
        rename_i hik
        subst hik
        split at hk
        · rw [Option.getD_some] at hk
          have hj : s.tails.getD (lo - 1) 0 = j := by rw [getD_eq_getElem?_getD, hk]; rfl
          exact ⟨h.tails j (mem_of_getElem? hk), hj ▸ hlow hpos⟩
        · cases hk
      · exact h.prev k j (by rwa [getD_eq_getElem?_getD])
    · exact h.prev k j hk

theorem Patience.Inv.run : ∀ n : Nat, ((range n).foldl (Patience.step seq)
    ⟨[], replicate seq.length none⟩).Inv seq n
  | 0 => by
    refine ⟨by simp, fun k j hk => ?_⟩
    have hnone : (replicate seq.length (none : Option Nat)).getD k none = none := by
      rw [getD_eq_getElem?_getD, getElem?_replicate]
      split <;> rfl
    exact absurd (hnone.symm.trans hk) (by simp)
  | n + 1 => by
    rw [range_succ, foldl_append]
    exact (Patience.Inv.run n).step

/-- What is collected is a chain, with its last element below `n`. -/
theorem collect_pairwise {prev : List (Option Nat)} (hprev : ∀ k j, prev.getD k none = some j →
    Above seq j k) : ∀ fuel k res, (k :: res).Pairwise (Above seq) →
      (collect prev fuel k res).Pairwise (Above seq)
  | 0, _, _, h => h
  | fuel + 1, k, res, h => by
    rw [collect]
    split
    · exact h
    · rename_i j hj
      refine collect_pairwise hprev fuel j (k :: res) (pairwise_cons.2 ⟨fun i hi => ?_, h⟩)
      have hjk := hprev k j hj
      rcases mem_cons.1 hi with rfl | hi
      · exact hjk
      · have hki := rel_of_pairwise_cons h hi
        exact ⟨hjk.1.trans hki.1, hjk.2.trans hki.2⟩

/-- The subsequence is strictly increasing, in index and in value. -/
theorem longestIncreasingSubsequence_pairwise (seq : List Nat) :
    (longestIncreasingSubsequence seq).Pairwise (Above seq) := by
  unfold longestIncreasingSubsequence
  simp only []
  split
  · exact .nil
  · exact collect_pairwise (Patience.Inv.run seq.length).prev _ _ [] (pairwise_singleton _ _)

theorem above_or_above {j : Nat} (hi : i ∈ longestIncreasingSubsequence seq)
    (hj : j ∈ longestIncreasingSubsequence seq) (hne : i ≠ j) : Above seq i j ∨ Above seq j i := by
  obtain ⟨a, ha, rfl⟩ := getElem_of_mem hi
  obtain ⟨b, hb, rfl⟩ := getElem_of_mem hj
  have hpair := pairwise_iff_getElem.1 (longestIncreasingSubsequence_pairwise seq)
  rcases lt_trichotomy a b with hab | rfl | hab
  · exact .inl (hpair a b ha hb hab)
  · exact absurd rfl hne
  · exact .inr (hpair b a hb ha hab)

end Increasing

/-! ## Old positions -/

section Positions

variable {K V : Type} [DecidableEq K] {k : K} {v : β}

theorem foldl_update_eq_some : ∀ {l : List (K × β)} {f : K → Option β}, (l.map fst).Nodup →
      (l.foldl (fun (map : K → Option β) e => Function.update map e.1 (some e.2)) f k = some v ↔
        (k, v) ∈ l ∨ k ∉ l.map fst ∧ f k = some v)
  | [], f, _ => by simp
  | e :: l, f, h => by
    rw [map_cons, nodup_cons] at h
    rw [foldl_cons, foldl_update_eq_some h.2]
    by_cases hk : k = e.1
    · subst hk
      have hout : (e.1, v) ∉ l := fun hm => h.1 (mem_map.2 ⟨_, hm, rfl⟩)
      simp [h.1, hout, Prod.ext_iff, eq_comm]
    · simp [hk, Prod.ext_iff]

theorem collectMap_eq_some {l : List (K × β)} (h : (l.map fst).Nodup) :
    collectMap l k = some v ↔ (k, v) ∈ l := by
  simp [collectMap, foldl_update_eq_some h]

variable {old new : List (K × V)}

section

variable (h : (old.map fst).Nodup)
include h

theorem oldVal_eq_some {v : V} : oldVal old k = some v ↔ (k, v) ∈ old := collectMap_eq_some h

theorem oldPos_eq_some : oldPos old k = some i ↔ (old.map fst)[i]? = some k := by
  rw [oldPos, collectMap_eq_some (by rwa [zipIdx_map_fst]), mk_mem_zipIdx_iff_getElem?]

def Precedes (old : List (K × V)) (x y : K) : Prop :=
  ∃ p q, oldPos old x = some p ∧ oldPos old y = some q ∧ p < q

omit h in
theorem precedes_asymm (x y : K) (h : Precedes old x y) : ¬Precedes old y x := by
  obtain ⟨p, q, hp, hq, hlt⟩ := h
  rintro ⟨q', p', hq', hp', hlt'⟩
  have := Option.some_inj.1 (hp.symm.trans hp')
  have := Option.some_inj.1 (hq.symm.trans hq')
  omega

theorem pairwise_precedes : (old.map fst).Pairwise (Precedes old) := by
  rw [pairwise_iff_getElem]
  intro i j hi hj hij
  exact ⟨i, j, (oldPos_eq_some h).2 (getElem?_eq_getElem hi),
    (oldPos_eq_some h).2 (getElem?_eq_getElem hj), hij⟩

theorem isSome_oldPos : (oldPos old k).isSome ↔ k ∈ old.map fst := by
  rw [Option.isSome_iff_exists, mem_iff_getElem?]
  exact exists_congr fun i => oldPos_eq_some h

end

/-! ## The stable keys -/

theorem getElem?_common {a : Nat} {e : Nat × Nat} (h : (common old new)[a]? = some e) :
    ∃ k, (new.map fst)[e.1]? = some k ∧ oldPos old k = some e.2 := by
  obtain ⟨⟨k, i⟩, hk, he⟩ := mem_filterMap.1 (mem_of_getElem? h)
  obtain ⟨oi, hoi, rfl⟩ := Option.map_eq_some_iff.1 he
  exact ⟨k, mk_mem_zipIdx_iff_getElem?.1 hk, hoi⟩

/-- The new indices of the common keys ascend. -/
theorem common_pairwise (old new : List (K × V)) :
    (common old new).Pairwise fun a b => a.1 < b.1 := by
  have hidx : ((new.map fst).zipIdx).Pairwise fun a b => a.2 < b.2 := by
    rw [← pairwise_map (f := snd), zipIdx_map_snd]
    exact pairwise_lt_range'
  refine hidx.filterMap _ fun a b hab e he e' he' => ?_
  obtain ⟨oi, -, rfl⟩ := Option.map_eq_some_iff.1 he
  obtain ⟨oi', -, rfl⟩ := Option.map_eq_some_iff.1 he'
  exact hab

theorem mem_stable (h : i ∈ stable old new) :
    ∃ a ∈ longestIncreasingSubsequence ((common old new).map snd), ∃ e,
      (common old new)[a]? = some e ∧ e.1 = i := by
  obtain ⟨a, ha, hi⟩ := mem_filterMap.1 h
  rw [getElem?_map] at hi
  exact ⟨a, ha, Option.map_eq_some_iff.1 hi⟩

/-- Two stable keys stand in their old order. -/
theorem stable_precedes {j : Nat} {x y : K} (hi : i ∈ stable old new) (hj : j ∈ stable old new)
    (hij : i < j) (hx : (new.map fst)[i]? = some x) (hy : (new.map fst)[j]? = some y) :
    Precedes old x y := by
  obtain ⟨a, ha, e, he, rfl⟩ := mem_stable hi
  obtain ⟨b, hb, e', he', rfl⟩ := mem_stable hj
  have hval : ∀ {a : Nat} {e : Nat × Nat}, (common old new)[a]? = some e →
      ((common old new).map snd).getD a 0 = e.2 := fun h => by
    simp [h]
  obtain ⟨k, hk, hoi⟩ := getElem?_common he
  obtain ⟨k', hk', hoi'⟩ := getElem?_common he'
  cases Option.some_inj.1 (hk.symm.trans hx)
  cases Option.some_inj.1 (hk'.symm.trans hy)
  refine ⟨e.2, e'.2, hoi, hoi', ?_⟩
  -- the subsequence has `a` in front of `b`, as the new indices ascend
  have hne : a ≠ b := by
    rintro rfl
    rw [he] at he'
    cases he'
    exact lt_irrefl _ hij
  rcases above_or_above ha hb hne with h | h
  · have := h.2
    rwa [hval he, hval he'] at this
  · obtain ⟨hbl, rfl⟩ := List.getElem?_eq_some_iff.1 he'
    obtain ⟨hal, rfl⟩ := List.getElem?_eq_some_iff.1 he
    have := pairwise_iff_getElem.1 (common_pairwise old new) b a hbl hal h.1
    omega

/-- The key of a new index that stays where it is. -/
def isStable (old new : List (K × V)) (k : K) : Bool :=
  (stable old new).any fun i => (new.map Prod.fst)[i]? = some k

theorem isStable_iff (old : List (K × V)) (hnew : (new.map fst).Nodup)
    (hk : (new.map fst)[i]? = some k) : isStable old new k = true ↔ i ∈ stable old new := by
  simp only [isStable, any_eq_true, decide_eq_true_eq]
  constructor
  · rintro ⟨j, hj, hkj⟩
    obtain ⟨hjl, hjk⟩ := List.getElem?_eq_some_iff.1 hkj
    obtain ⟨hil, hik⟩ := List.getElem?_eq_some_iff.1 hk
    cases hnew.getElem_inj_iff.1 (hjk.trans hik.symm)
    exact hj
  · exact fun hi => ⟨i, hi, hk⟩

variable (hold : (old.map fst).Nodup)
include hold

theorem mem_old_of_isStable (h : isStable old new k = true) : k ∈ old.map fst := by
  simp only [isStable, any_eq_true, decide_eq_true_eq] at h
  obtain ⟨i, hi, hk⟩ := h
  obtain ⟨a, -, e, he, rfl⟩ := mem_stable hi
  obtain ⟨k', hk', hoi⟩ := getElem?_common he
  cases Option.some_inj.1 (hk'.symm.trans hk)
  exact (isSome_oldPos hold).1 (by simp [hoi])

variable (hnew : (new.map fst).Nodup)
include hnew

omit hold in
theorem filter_isStable_pairwise :
    ((new.map fst).filter (isStable old new)).Pairwise (Precedes old) := by
  rw [pairwise_filter, pairwise_iff_getElem]
  intro i j hi hj hij hSi hSj
  have hgi := getElem?_eq_getElem hi
  have hgj := getElem?_eq_getElem hj
  exact stable_precedes ((isStable_iff old hnew hgi).1 hSi) ((isStable_iff old hnew hgj).1 hSj)
    hij hgi hgj

/-! ## The run over the target order -/

/-- A key that is moved or inserted at `i` between a stable key in front of it and a moved key
behind it that the old sequence has in front of the stable one. -/
def Overtaken (old new : List (K × V)) : Prop :=
  ∃ j i l x y, j < i ∧ i < l ∧ j ∈ stable old new ∧ i ∉ stable old new ∧ l ∉ stable old new ∧
    (new.map Prod.fst)[j]? = some x ∧ (new.map Prod.fst)[l]? = some y ∧ Precedes old y x

omit hnew in
theorem precedes_total {x y : K} (hx : x ∈ old.map fst)
    (hy : y ∈ old.map fst) (hne : x ≠ y) : Precedes old x y ∨ Precedes old y x := by
  obtain ⟨p, hp⟩ := Option.isSome_iff_exists.1 ((isSome_oldPos hold).2 hx)
  obtain ⟨q, hq⟩ := Option.isSome_iff_exists.1 ((isSome_oldPos hold).2 hy)
  rcases lt_trichotomy p q with hpq | rfl | hpq
  · exact .inl ⟨p, q, hp, hq, hpq⟩
  · have hx' := (oldPos_eq_some hold).1 hp
    rw [(oldPos_eq_some hold).1 hq] at hx'
    exact absurd (Option.some_inj.1 hx').symm hne
  · exact .inr ⟨q, p, hq, hp, hpq⟩

/-- The run over the target order is clear iff no key is overtaken. -/
theorem clear_iff_not_overtaken :
    Clear (Precedes old) (isStable old new) ((old.map fst).filter (· ∈ new.map fst)) []
      (new.map fst) ↔ ¬Overtaken old new := by
  have moved : ∀ {i k}, (new.map fst)[i]? = some k →
      (isStable old new k = false ↔ i ∉ stable old new) := fun hk => by
    rw [← isStable_iff old hnew hk, Bool.not_eq_true]
  rw [clear_iff]
  simp only [nil_append]
  constructor
  · rintro hclear ⟨j, i, l, x, y, hji, hil, hj, hi, hl, hx, hy, hyx⟩
    have hlen : l < (new.map fst).length := (List.getElem?_eq_some_iff.1 hy).1
    have hi' := List.getElem?_eq_getElem (show i < (new.map fst).length by omega)
    have hxy := hclear i _ hi' ((moved hi').2 hi) x
      (mem_of_getElem? ((getElem?_take_of_lt hji).trans hx)) ((isStable_iff old hnew hx).2 hj) y
      (mem_of_getElem? (by
        rw [getElem?_drop, Nat.add_sub_cancel' hil, hy])) ((moved hy).2 hl) ?_
    · exact precedes_asymm x y hxy hyx
    · obtain ⟨p, -, hp, -⟩ := hyx
      simp only [mem_filter, decide_eq_true_eq]
      exact ⟨(isSome_oldPos hold).1 (by simp [hp]), mem_of_getElem? hy⟩
  · intro hnot i a ha hSa x hx hSx y hy hSy hyold
    obtain ⟨j, hj, hjx⟩ := mem_take_iff_getElem.1 hx
    obtain ⟨l, hl, hly⟩ := mem_drop_iff_getElem.1 hy
    have hjx' : (new.map fst)[j]? = some x := List.getElem?_eq_some_iff.2 ⟨by omega, hjx⟩
    have hly' : (new.map fst)[i + 1 + l]? = some y := List.getElem?_eq_some_iff.2
      ⟨by omega, hly⟩
    have hne : x ≠ y := fun hxy => by
      have := hnew.getElem_inj_iff.1 (hjx.trans (hxy.trans hly.symm))
      omega
    refine (precedes_total hold (mem_old_of_isStable hold hSx) (mem_of_mem_filter hyold)
      hne).resolve_right fun hyx => hnot ?_
    exact ⟨j, i, i + 1 + l, x, y, by omega, by omega, (isStable_iff old hnew hjx').1 hSx,
      (moved ha).1 hSa, (moved hly').1 hSy, hjx', hly', hyx⟩

/-- The run over the target order ends in it iff no key is overtaken. -/
theorem placeFrom_eq_iff_not_overtaken :
    placeFrom (isStable old new) 0 ((old.map fst).filter (· ∈ new.map fst))
      (new.map fst) = new.map fst ↔ ¬Overtaken old new := by
  rw [← clear_iff_not_overtaken hold hnew]
  refine placeFrom_eq_iff precedes_asymm ((pairwise_precedes hold).filter _) hnew (fun x hx => ?_)
    (fun x hx hS => ?_) (filter_isStable_pairwise hnew)
  · simpa using of_mem_filter hx
  · exact mem_filter.2 ⟨mem_old_of_isStable hold hS, by simpa using hx⟩

end Positions

end Reconcile

open Reconcile

namespace SourceMap

variable {K V : Type} [DecidableEq K] {old new : List (K × V)} {m : SourceMap K V} {e : K × V}
  {i : Nat} {β : Type}

/-! ## The three stages of the ops -/

theorem applyToMap_removes : ∀ (ks : List K) (m : SourceMap K V),
    (m.applyToMap (ks.map .remove)).keys = m.keys.filter (· ∉ ks) ∧
      ∀ k, (m.applyToMap (ks.map .remove)).get k = if k ∈ ks then none else m.get k
  | [], m => by simp [applyToMap]
  | key :: ks, m => by
    obtain ⟨hkeys, hget⟩ := applyToMap_removes ks (m.remove key).1
    constructor
    · refine hkeys.trans ?_
      rw [keys_remove, filter_filter]
      exact filter_congr fun k _ => by simp [Bool.and_comm]
    · intro k
      refine (hget k).trans ?_
      rw [get_remove]
      by_cases hk : k = key <;> simp [hk]

/-- One new entry is placed: a stable key stays, every other one goes to its index. -/
theorem applyToMap_placement (hpresent : e.1 ∈ m.keys ↔ (oldPos old e.1).isSome)
    (hstable : isStable old new e.1 = true ↔ i ∈ stable old new)
    (hold : i ∈ stable old new → (oldPos old e.1).isSome) :
    (m.applyToMap (placement old new (e, i)).toList).keys =
        (if isStable old new e.1 then m.keys else relocate m.keys i e.1) ∧
      ∀ k, (m.applyToMap (placement old new (e, i)).toList).get k =
        if k = e.1 ∧ oldPos old e.1 = none then some e.2 else m.get k := by
  unfold placement
  by_cases hpos : (oldPos old e.1).isSome
  · have hnone : oldPos old e.1 ≠ none := Option.isSome_iff_ne_none.1 hpos
    by_cases hi : i ∈ stable old new
    · simp [hpos, hi, hstable.2 hi, applyToMap, hnone]
    · have hS : isStable old new e.1 = false := by simpa [hi] using hstable
      simp [hpos, hi, hS, applyToMap, applyOp, hnone, keys_moveTo (hpresent.2 hpos)]
  · have hout : e.1 ∉ m.keys := fun h => hpos (hpresent.1 h)
    have hnone : oldPos old e.1 = none := by simpa using hpos
    have hS : isStable old new e.1 = false := by
      simpa [show i ∉ stable old new from fun hi => hpos (hold hi)] using hstable
    have hin : e.1 ∈ (m.entry e.1 e.2).keys := by simp [keys_entry hout]
    have happend : relocate (m.keys ++ [e.1]) i e.1 = relocate m.keys i e.1 := by
      simp [relocate, erase_append_right _ hout, erase_of_not_mem hout]
    simp [hnone, hS, applyToMap, applyOp, keys_moveTo hin, keys_entry hout, happend, get_entry hout]

theorem filterMap_cons_toList {α : Type} (f : α → Option β) (a : α) (l : List α) :
    (a :: l).filterMap f = (f a).toList ++ l.filterMap f := by
  rw [filterMap_cons]
  cases f a <;> rfl

theorem applyToMap_append (m : SourceMap K V) (ops ops' : List (DiffOp K V)) :
    m.applyToMap (ops ++ ops') = (m.applyToMap ops).applyToMap ops' :=
  foldl_append

/-- The inserts and moves of the entries from `i` on: the keys run over the target order, and what
is new has its value. -/
theorem applyToMap_placements (hold : (old.map fst).Nodup) (hnew : (new.map fst).Nodup) :
    ∀ (rest done : List (K × V)) (m : SourceMap K V), new = done ++ rest →
      (∀ e ∈ rest, e.1 ∈ m.keys ↔ (oldPos old e.1).isSome) →
      let m' := m.applyToMap ((rest.zipIdx done.length).filterMap (placement old new))
      m'.keys = placeFrom (isStable old new) done.length m.keys (rest.map fst) ∧
        (∀ e ∈ rest, oldPos old e.1 = none → m'.get e.1 = some e.2) ∧
        ∀ k, (k ∈ rest.map fst → oldPos old k ≠ none) → m'.get k = m.get k
  | [], done, m, _, _ => by simp [applyToMap, placeFrom]
  | e :: rest, done, m, hsplit, hpresent => by
    intro m'
    have hidx : (new.map fst)[done.length]? = some e.1 := by simp [hsplit]
    have hstable := isStable_iff old hnew hidx
    have hcommon : done.length ∈ stable old new → (oldPos old e.1).isSome := fun h =>
      (isSome_oldPos hold).2 (mem_old_of_isStable hold (hstable.2 h))
    have hrest : e.1 ∉ rest.map fst := by
      rw [hsplit, map_append, map_cons] at hnew
      exact (nodup_cons.1 (nodup_append.1 hnew).2.1).1
    obtain ⟨hkeys, hget⟩ := applyToMap_placement (hpresent e mem_cons_self) hstable hcommon
    have hrun : m' = (m.applyToMap (placement old new (e, done.length)).toList).applyToMap
        ((rest.zipIdx (done ++ [e]).length).filterMap (placement old new)) := by
      rw [← applyToMap_append, ← filterMap_cons_toList, length_append]
      rfl
    obtain ⟨hkeys', hins', hget'⟩ := applyToMap_placements hold hnew rest (done ++ [e])
      (m.applyToMap (placement old new (e, done.length)).toList) (by simp [hsplit]) fun e' he' => by
        have hne : e'.1 ≠ e.1 := fun h => hrest (h ▸ mem_map_of_mem he')
        rw [hkeys, ← hpresent e' (mem_cons_of_mem e he')]
        split <;> simp [mem_relocate, hne]
    rw [hrun]
    refine ⟨?_, fun e' he' hnone => ?_, fun k hk => ?_⟩
    · rw [hkeys', hkeys, length_append]
      rfl
    · rcases mem_cons.1 he' with rfl | he'
      · rw [hget' _ fun h => absurd h hrest, hget, if_pos ⟨rfl, hnone⟩]
      · exact hins' e' he' hnone
    · rw [hget' k fun h => hk (mem_cons_of_mem _ h), hget, if_neg]
      rintro ⟨rfl, hnone⟩
      exact hk mem_cons_self hnone

variable [DecidableEq V]

theorem applyToMap_revision (hpresent : e.1 ∈ m.keys)
    (hval : m.get e.1 = some ((oldVal old e.1).getD e.2)) :
    (m.applyToMap (revision old e).toList).keys = m.keys ∧
      ∀ k, (m.applyToMap (revision old e).toList).get k =
        if k = e.1 then some e.2 else m.get k := by
  have same : m.get e.1 = some e.2 → ∀ k, m.get k = if k = e.1 then some e.2 else m.get k := by
    intro h k
    split
    · rename_i hk
      rw [hk, h]
    · rfl
  unfold revision
  split
  · rename_i ov hov
    rw [hov, Option.getD_some] at hval
    split
    · exact ⟨keys_set hpresent, get_set hpresent⟩
    · rename_i heq
      exact ⟨rfl, same (by rw [hval, not_not.1 heq])⟩
  · rename_i hov
    rw [hov, Option.getD_none] at hval
    exact ⟨rfl, same hval⟩

/-- The updates: every entry has its value, if the keys that were there still have their old one. -/
theorem applyToMap_updates : ∀ (rest : List (K × V)) (m : SourceMap K V), (rest.map fst).Nodup →
      (∀ e ∈ rest, e.1 ∈ m.keys) → (∀ e ∈ rest, m.get e.1 = some ((oldVal old e.1).getD e.2)) →
      let m' := m.applyToMap (rest.filterMap (revision old))
      m'.keys = m.keys ∧ (∀ e ∈ rest, m'.get e.1 = some e.2) ∧
        ∀ k, k ∉ rest.map fst → m'.get k = m.get k
  | [], m, _, _, _ => by simp [applyToMap]
  | e :: rest, m, hnodup, hpresent, hval => by
    intro m'
    rw [map_cons, nodup_cons] at hnodup
    obtain ⟨hkeys, hget⟩ := applyToMap_revision (hpresent e mem_cons_self) (hval e mem_cons_self)
    have hrun : m' = (m.applyToMap (revision old e).toList).applyToMap
        (rest.filterMap (revision old)) := by
      rw [← applyToMap_append, ← filterMap_cons_toList]
    have hother : ∀ e' ∈ rest, e'.1 ≠ e.1 := fun e' he' h =>
      hnodup.1 (h ▸ mem_map_of_mem he')
    obtain ⟨hkeys', hval', hget'⟩ := applyToMap_updates rest
      (m.applyToMap (revision old e).toList) hnodup.2
      (fun e' he' => hkeys ▸ hpresent e' (mem_cons_of_mem e he')) fun e' he' => by
        rw [hget, if_neg (hother e' he'), hval e' (mem_cons_of_mem e he')]
    rw [hrun]
    refine ⟨hkeys'.trans hkeys, fun e' he' => ?_, fun k hk => ?_⟩
    · rcases mem_cons.1 he' with rfl | he'
      · rw [hget' _ hnodup.1, hget, if_pos rfl]
      · exact hval' e' he'
    · rw [map_cons, mem_cons, not_or] at hk
      rw [hget' k hk.2, hget, if_neg hk.1]

variable {m : SourceMap K V}

/-- After the ops: the keys are those of the run over the target order, every value is the new
one. -/
theorem applyToMap_reconcile (hold : (old.map fst).Nodup) (hnew : (new.map fst).Nodup)
    (hm : m.toList = old) :
    (m.applyToMap (Lazily.reconcile old new)).keys = placeFrom (isStable old new) 0
        ((old.map fst).filter (· ∈ new.map fst)) (new.map fst) ∧
      ∀ e ∈ new, (m.applyToMap (Lazily.reconcile old new)).get e.1 = some e.2 := by
  obtain ⟨hkeys, hval⟩ := toList_eq_iff.1 hm
  rw [Lazily.reconcile, applyToMap_append, applyToMap_append]
  obtain ⟨hkeys1, hget1⟩ := applyToMap_removes
    ((old.map fst).filter fun k => k ∉ new.map fst) m
  change (m.applyToMap (removes old new)).keys = _ at hkeys1
  change ∀ k, (m.applyToMap (removes old new)).get k = _ at hget1
  generalize m.applyToMap (removes old new) = m1 at hkeys1 hget1 ⊢
  have hkept : m1.keys = (old.map fst).filter (· ∈ new.map fst) := by
    rw [hkeys1, hkeys]
    refine filter_congr fun k hk => ?_
    rw [decide_eq_decide]
    simp [hk]
  obtain ⟨hkeys2, hins2, hget2⟩ := applyToMap_placements hold hnew new [] m1 rfl fun e he => by
    rw [hkept, isSome_oldPos hold, mem_filter]
    simp [mem_map_of_mem he]
  change (m1.applyToMap (placements old new)).keys = _ at hkeys2
  change ∀ e ∈ new, _ → (m1.applyToMap (placements old new)).get e.1 = _ at hins2
  change ∀ k, _ → (m1.applyToMap (placements old new)).get k = _ at hget2
  generalize m1.applyToMap (placements old new) = m2 at hkeys2 hins2 hget2 ⊢
  have hval2 : ∀ e ∈ new, m2.get e.1 = some ((oldVal old e.1).getD e.2) := by
    intro e he
    cases hov : oldVal old e.1 with
    | none =>
      refine hins2 e he (Option.not_isSome_iff_eq_none.1 fun hpos => ?_)
      obtain ⟨e', he', hk⟩ := mem_map.1 ((isSome_oldPos hold).1 hpos)
      have := (oldVal_eq_some hold).2 (hk ▸ he' : (e.1, e'.2) ∈ old)
      rw [hov] at this
      cases this
    | some ov =>
      have hin := (oldVal_eq_some hold).1 hov
      have hpos := (isSome_oldPos hold).2 (mem_map.2 ⟨_, hin, rfl⟩)
      rw [hget2 e.1 fun _ => Option.isSome_iff_ne_none.1 hpos, hget1, if_neg, hval _ hin]
      · rfl
      · simp [mem_map_of_mem he]
  obtain ⟨hkeys3, hval3, -⟩ := applyToMap_updates new m2 hnew
    (fun e he => mem_keys.2 (by simp [hval2 e he])) hval2
  exact ⟨(hkeys3.trans hkeys2).trans (hkept ▸ rfl), hval3⟩

end SourceMap

/-- **Reconciliation.** Applied to a collection that holds `old`, the ops of `reconcile old new`
lead to `new` iff no key is overtaken. -/
theorem applyToMap_reconcile_iff {K V : Type} [DecidableEq K] [DecidableEq V]
    {old new : List (K × V)} (hold : (old.map Prod.fst).Nodup) (hnew : (new.map Prod.fst).Nodup)
    (m : SourceMap K V) (hm : m.toList = old) :
    (m.applyToMap (reconcile old new)).toList = new ↔ ¬Overtaken old new := by
  obtain ⟨hkeys, hval⟩ := applyToMap_reconcile hold hnew hm
  rw [toList_eq_iff, and_iff_left hval, hkeys]
  exact placeFrom_eq_iff_not_overtaken hold hnew

/-- A map with the given entries, minted one after the other. -/
def SourceMap.ofList {K V : Type} [DecidableEq K] (l : List (K × V)) : SourceMap K V :=
  l.foldl (fun m e => m.entry e.1 e.2) new

theorem applyToMap_reconcile_iff_combined :
    let old := [(0, 1), (1, 2), (2, 3)]
    let new := [(2, 3), (0, 9), (3, 4)]
    (SourceMap.ofList old).toList = old ∧
      (((SourceMap.ofList old).applyToMap (reconcile old new)).toList = new ↔ ¬Overtaken old new) :=
  ⟨by decide +kernel, applyToMap_reconcile_iff (by decide) (by decide) _ (by decide +kernel)⟩

/-- Key 3 is inserted at index 2 while key 0, which is to move behind it, still stands in front of
the stable keys 1 and 2: it lands between them. -/
theorem reconcile_late_move :
    let old := [(0, 10), (1, 11), (2, 12)]
    let new := [(1, 11), (2, 12), (3, 13), (0, 10)]
    (SourceMap.ofList old).toList = old ∧
      reconcile old new = [.insert 3 13 2, .move 0 3] ∧
      ((SourceMap.ofList old).applyToMap (reconcile old new)).toList =
        [(1, 11), (3, 13), (2, 12), (0, 10)] ∧
      ((SourceMap.ofList old).applyToMap (reconcile old new)).toList ≠ new := by
  decide +kernel

end Lazily
