-- SUMMARY: Lists of items with distinct keys, as maps from keys to items.
import Mathlib.Data.List.Nodup
import Mathlib.Logic.Function.Basic

/-!
# Lists with distinct keys

An item is looked up by its key, and the first item with the key is the result. Putting an
item into the list removes the items that have its key, and adds it at the end: the keys
stay distinct, and the lookup is updated at that key.
-/

namespace Kaku.Keyed

variable {α κ : Type*} [DecidableEq κ] (key : α → κ)

def lookup (l : List α) (k : κ) : Option α := l.find? fun a => key a = k

def put (l : List α) (a : α) : List α := l.filter (fun b => key b ≠ key a) ++ [a]

variable {key} {l : List α} {a : α} {k : κ} {i : Nat}

theorem lookup_filter_ne (hne : k ≠ key a) :
    lookup key (l.filter fun b => key b ≠ key a) k = lookup key l k := by
  unfold lookup
  rw [List.find?_filter]
  congr 1
  funext b
  by_cases hb : key b = k
  · simp [hb, hne]
  · simp [hb]

theorem lookup_put : lookup key (put key l a) = Function.update (lookup key l) (key a) (some a) := by
  funext k
  unfold put
  by_cases hk : k = key a
  · subst hk
    have hgone : (l.filter fun b => key b ≠ key a).find? (fun b => key b = key a) = none := by
      simp
    rw [Function.update_self, lookup, List.find?_append, hgone]
    simp
  · rw [Function.update_of_ne hk, lookup, List.find?_append, ← lookup, lookup_filter_ne hk]
    simp [Ne.symm hk]

theorem nodup_put (hl : (l.map key).Nodup) : ((put key l a).map key).Nodup := by
  unfold put
  rw [List.map_append, List.map_singleton, List.nodup_append]
  refine ⟨hl.sublist (List.filter_sublist.map key), List.nodup_singleton _, ?_⟩
  intro x hx y hy
  rw [List.mem_singleton.1 hy]
  obtain ⟨b, hb, rfl⟩ := List.mem_map.1 hx
  simpa using (List.mem_filter.1 hb).2

/-- Where no item has the key, an item that is put is added. -/
theorem filter_of_forall (hl : ∀ b ∈ l, key b ≠ k) : l.filter (fun b => key b ≠ k) = l :=
  List.filter_eq_self.2 fun b hb => decide_eq_true (hl b hb)

/-- Where an item has the key, it is the only one that is removed. -/
theorem filter_eq_eraseIdx (hl : (l.map key).Nodup) (hi : l[i]? = some a) :
    l.filter (fun b => key b ≠ key a) = l.eraseIdx i := by
  induction l generalizing i with
  | nil => simp at hi
  | cons b l ih =>
    rw [List.map_cons, List.nodup_cons] at hl
    cases i with
    | zero =>
      obtain rfl : b = a := by simpa using hi
      have hrest : ∀ c ∈ l, key c ≠ key b := fun c hc h => hl.1 (h ▸ List.mem_map_of_mem hc)
      rw [List.filter_cons_of_neg (by simp), filter_of_forall hrest, List.eraseIdx_cons_zero]
    | succ i =>
      rw [List.getElem?_cons_succ] at hi
      have hb : key b ≠ key a :=
        fun h => hl.1 (h ▸ List.mem_map_of_mem (List.mem_of_getElem? hi))
      rw [List.filter_cons_of_pos (by simpa using hb), ih hl.2 hi, List.eraseIdx_cons_succ]

end Kaku.Keyed
