import Mathlib.Data.List.AList

/-!
# Tables

A table holds the values of finitely many keys, in the order of their insertion: the last inserted
comes first in `entries`.
-/

namespace Lazily.Lib

variable {κ β : Type}

abbrev Table (κ β : Type) := AList fun _ : κ => β

namespace Table

theorem nodup_entries (t : Table κ β) : t.entries.Nodup := t.nodupKeys.nodup

variable [DecidableEq κ] {t : Table κ β} {a k : κ} {b : β}

theorem lookup_insert_if : (t.insert k b).lookup a = if a = k then some b else t.lookup a := by
  split
  · rename_i h
    subst h
    exact AList.lookup_insert t
  · rename_i h
    exact AList.lookup_insert_ne h

theorem lookup_erase_if : (t.erase k).lookup a = if a = k then none else t.lookup a := by
  split
  · rename_i h
    subst h
    exact AList.lookup_erase a t
  · rename_i h
    exact AList.lookup_erase_ne h

theorem mem_entries : (⟨a, b⟩ : Sigma fun _ : κ => β) ∈ t.entries ↔ t.lookup a = some b :=
  AList.mem_lookup_iff.symm

theorem mem_keys_iff : a ∈ t.keys ↔ (t.lookup a).isSome := AList.lookup_isSome.symm

end Table

end Lazily.Lib
