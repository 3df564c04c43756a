import Mathlib.Data.List.Basic
import Mathlib.Data.Nat.Digits.Defs

/-!
# Little-endian bytes

Numbers as byte strings of a fixed width, least significant byte first (`leNat_leBytes`), and codes
that can be read off the front of a string: `SelfDelimiting.flatMap_injective`.
-/

namespace Lazily.Lib

abbrev Byte := Fin 256

instance Byte.neZero : NeZero 256 := ⟨Nat.succ_ne_zero 255⟩

def leBytes : Nat → Nat → List Byte
  | 0, _ => []
  | width + 1, n => Fin.ofNat 256 n :: leBytes width (n / 256)

def leNat : List Byte → Nat
  | [] => 0
  | b :: bytes => b.val + 256 * leNat bytes

@[simp] theorem length_leBytes (width n : Nat) : (leBytes width n).length = width := by
  induction width generalizing n with
  | zero => rfl
  | succ width ih => simp [leBytes, ih]

theorem leNat_lt (bytes : List Byte) : leNat bytes < 256 ^ bytes.length := by
  induction bytes with
  | nil => simp [leNat]
  | cons b bytes ih =>
    have hb := b.isLt
    rw [leNat, List.length_cons, Nat.pow_succ]
    omega

theorem leNat_leBytes {width n : Nat} (h : n < 256 ^ width) : leNat (leBytes width n) = n := by
  induction width generalizing n with
  | zero =>
    rw [Nat.pow_zero] at h
    simp only [leBytes, leNat]
    omega
  | succ width ih =>
    rw [Nat.pow_succ] at h
    have hdiv : n / 256 < 256 ^ width := by omega
    simp only [leBytes, leNat, ih hdiv, Fin.val_ofNat]
    omega

theorem leBytes_leNat (bytes : List Byte) : leBytes bytes.length (leNat bytes) = bytes := by
  induction bytes with
  | nil => rfl
  | cons b bytes ih =>
    have hb := b.isLt
    have hdiv : (b.val + 256 * leNat bytes) / 256 = leNat bytes := by omega
    have hmod : Fin.ofNat 256 (b.val + 256 * leNat bytes) = b := by
      refine Fin.ext ?_
      rw [Fin.val_ofNat]
      omega
    rw [List.length_cons, leNat, leBytes, hdiv, hmod, ih]

/-- Byte strings of one width are told apart by their numbers. -/
theorem eq_leBytes_of_leNat_eq {bytes : List Byte} {width n : Nat} (hlen : bytes.length = width)
    (h : leNat bytes = n) : bytes = leBytes width n := by
  rw [← leBytes_leNat bytes, hlen, h]

/-!
## Self-delimiting codes

A code whose words can be read off the front of any string. Such codes compose: two in a row, a
length before a payload, and a whole list of words (`SelfDelimiting.flatMap_injective`).
-/

variable {α β γ : Type} {f : α → List β} {g : γ → List β}

/-- A word in front of a rest determines both. -/
def SelfDelimiting (f : α → List β) : Prop :=
  ∀ ⦃a b rest rest'⦄, f a ++ rest = f b ++ rest' → a = b ∧ rest = rest'

theorem selfDelimiting_of_length (width : Nat) (hlen : ∀ a, (f a).length = width)
    (hf : Function.Injective f) : SelfDelimiting f := by
  intro a b rest rest' h
  obtain ⟨hword, hrest⟩ := List.append_inj h (by rw [hlen, hlen])
  exact ⟨hf hword, hrest⟩

variable (hf : SelfDelimiting f)
include hf

theorem SelfDelimiting.pair (hg : SelfDelimiting g) :
    SelfDelimiting fun p : α × γ => f p.1 ++ g p.2 := by
  intro p q rest rest' h
  simp only [List.append_assoc] at h
  obtain ⟨hfst, h⟩ := hf h
  obtain ⟨hsnd, h⟩ := hg h
  exact ⟨Prod.ext hfst hsnd, h⟩

/-- The payload `g` after its length, which the header `f` writes. -/
theorem SelfDelimiting.framed {len : γ → α} (hg : Function.Injective g)
    (hlen : ∀ a b, len a = len b → (g a).length = (g b).length) :
    SelfDelimiting fun a => f (len a) ++ g a := by
  intro a b rest rest' h
  simp only [List.append_assoc] at h
  obtain ⟨hsame, h⟩ := hf h
  obtain ⟨hpayload, hrest⟩ := List.append_inj h (hlen a b hsame)
  exact ⟨hg hpayload, hrest⟩

theorem SelfDelimiting.flatMap_injective (hne : ∀ a, f a ≠ []) :
    Function.Injective (List.flatMap f) := by
  intro l
  induction l with
  | nil =>
    rintro (_ | ⟨b, l'⟩) h
    · rfl
    · exact absurd (List.append_eq_nil_iff.1 h.symm).1 (hne b)
  | cons a l ih =>
    rintro (_ | ⟨b, l'⟩) h
    · exact absurd (List.append_eq_nil_iff.1 h).1 (hne a)
    · obtain ⟨rfl, hrest⟩ := hf h
      rw [ih hrest]

end Lazily.Lib
