import Mathlib.Data.List.Basic
import Mathlib.Data.List.Pairwise

/-!
# Frames in a buffer

A frame is a string of items at an offset. Frames written one after the other into a buffer are all
still there in the end exactly when they agree wherever two of them overlap (`holds_writes_iff`).
-/

namespace Lazily.Lib

open List Option

variable {α : Type}

/-! ## Slices -/

variable (buf : List α)

def slice (offset len : Nat) : List α := (buf.drop offset).take len

@[simp] theorem length_slice (offset len : Nat) :
    (slice buf offset len).length = min len (buf.length - offset) := by
  simp [slice]

theorem slice_append (offset len len' : Nat) :
    slice buf offset len ++ slice buf (offset + len) len' = slice buf offset (len + len') := by
  rw [slice, slice, slice, take_add, drop_drop]

theorem slice_self {buf : List α} {len : Nat} (h : buf.length = len) : slice buf 0 len = buf := by
  rw [slice, drop_zero, ← h, take_length]

/-! ## Frames -/

structure Frame (α : Type) where
  offset : Nat
  items : List α

namespace Frame

/-- What a frame has at a place of the buffer. -/
def item (f : Frame α) (i : Nat) : Option α :=
  if f.offset ≤ i then f.items[i - f.offset]? else none

def Holds (buf : List α) (f : Frame α) : Prop := ∀ i a, f.item i = some a → buf[i]? = some a

/-- Where the frames overlap they have the same items. -/
def Agree (f g : Frame α) : Prop := ∀ i a b, f.item i = some a → g.item i = some b → a = b

def Fits (len : Nat) (f : Frame α) : Prop := f.offset + f.items.length ≤ len

def write (buf : List α) (f : Frame α) : List α :=
  buf.take f.offset ++ f.items ++ buf.drop (f.offset + f.items.length)

variable {buf : List α} {f g : Frame α}

theorem item_range {i : Nat} {a : α} (h : f.item i = some a) :
    f.offset ≤ i ∧ i < f.offset + f.items.length := by
  unfold item at h
  split at h
  · have := (List.getElem?_eq_some_iff.1 h).1
    omega
  · cases h

theorem holds_iff_slice : Holds buf f ↔ slice buf f.offset f.items.length = f.items := by
  constructor
  · intro h
    refine ext_getElem? fun i => ?_
    rw [slice, getElem?_take, getElem?_drop]
    split
    · rename_i hi
      rw [getElem?_eq_getElem hi]
      refine h _ _ ?_
      rw [item, if_pos (Nat.le_add_right _ _), Nat.add_sub_cancel_left, getElem?_eq_getElem hi]
    · rename_i hi
      rw [getElem?_eq_none (Nat.not_lt.1 hi)]
  · intro h i a hitem
    rw [item] at hitem
    split at hitem
    · rename_i hle
      rw [← h, slice, getElem?_take, getElem?_drop] at hitem
      split at hitem
      · rwa [Nat.add_sub_cancel' hle] at hitem
      · cases hitem
    · cases hitem

theorem Holds.agree (hf : Holds buf f) (hg : Holds buf g) : Agree f g := by
  intro i a b ha hb
  have h := (hf i a ha).symm.trans (hg i b hb)
  exact some.inj h

@[simp] theorem length_write (h : Fits buf.length f) : (write buf f).length = buf.length := by
  unfold Fits at h
  simp only [write, length_append, length_take, length_drop]
  omega

theorem getElem?_write (h : Fits buf.length f) (i : Nat) :
    (write buf f)[i]? = (f.item i).or buf[i]? := by
  unfold Fits at h
  have hlen : (buf.take f.offset).length = f.offset := by
    rw [length_take]
    omega
  rw [write, append_assoc, item]
  by_cases hi : f.offset ≤ i
  · rw [if_pos hi, getElem?_append_right (by omega), hlen]
    by_cases hi' : i - f.offset < f.items.length
    · rw [getElem?_append_left hi', getElem?_eq_getElem hi', some_or]
    · rw [getElem?_append_right (by omega), getElem?_eq_none (Nat.not_lt.1 hi'),
        none_or, getElem?_drop]
      congr 1
      omega
  · rw [if_neg hi, getElem?_append_left (by omega), getElem?_take, if_pos (by omega),
      none_or]

theorem holds_write (h : Fits buf.length f) : Holds (write buf f) f := by
  intro i a hitem
  rw [getElem?_write h, hitem, some_or]

theorem Holds.write (hg : Holds buf g) (h : Fits buf.length f) (hagree : Agree g f) :
    Holds (write buf f) g := by
  intro i a hitem
  rw [getElem?_write h]
  cases hf : f.item i with
  | none => exact hg i a hitem
  | some b => rw [some_or, hagree i a b hitem hf]

/-- The frames `gs` a buffer has and the frames `fs` written into it are all there in the end
exactly when they agree. -/
theorem holds_writes_iff {fs : List (Frame α)} : ∀ {buf : List α} {gs : List (Frame α)},
    (∀ f ∈ fs, Fits buf.length f) → (∀ g ∈ gs, Holds buf g) →
    ((∀ f ∈ gs ++ fs, Holds (fs.foldl Frame.write buf) f) ↔
      fs.Pairwise Agree ∧ ∀ g ∈ gs, ∀ f ∈ fs, Agree g f) := by
  intro buf gs hfits hgs
  constructor
  · intro h
    refine ⟨?_, fun g hg f hf =>
      (h g (mem_append_left _ hg)).agree (h f (mem_append_right _ hf))⟩
    exact pairwise_of_forall_mem_list fun f hf g hg =>
      (h f (mem_append_right _ hf)).agree (h g (mem_append_right _ hg))
  · -- along the writes: what was there and what was written so far
    rintro ⟨hfs, hagree⟩
    induction fs generalizing buf gs with
    | nil => simpa using hgs
    | cons f fs ih =>
      rw [forall_mem_cons] at hfits
      rw [pairwise_cons] at hfs
      have hall : ∀ g ∈ gs ++ [f] ++ fs, Holds (fs.foldl Frame.write (Frame.write buf f)) g := by
        refine ih (fun f' hf' => ?_) (fun g hg => ?_) hfs.2 fun g hg f' hf' => ?_
        · rw [length_write hfits.1]
          exact hfits.2 f' hf'
        · rcases mem_append.1 hg with hg | hg
          · exact (hgs g hg).write hfits.1 (hagree g hg f mem_cons_self)
          · rw [mem_singleton.1 hg]
            exact holds_write hfits.1
        · rcases mem_append.1 hg with hg | hg
          · exact hagree g hg f' (mem_cons_of_mem _ hf')
          · rw [mem_singleton.1 hg]
            exact hfs.1 f' hf'
      rwa [append_assoc, singleton_append] at hall

end Frame

end Lazily.Lib
