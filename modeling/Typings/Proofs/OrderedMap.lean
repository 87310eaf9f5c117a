import Mathlib.Data.List.Nodup
import Typings.OrderedMap

/-!
# Merging and keys of ordered maps

A merged map has the keys of both maps, and the values of the second where it has them.  Maps that
grow from the empty one by insertions have no key twice.
-/

namespace Typings.OrderedMap

variable {α β : Type} [DecidableEq α]

theorem isSome_get?_iff (m : OrderedMap α β) (k : α) : (m.get? k).isSome ↔ k ∈ m.keys := by
  simp only [get?, keys, List.lookup_isSome_iff, List.mem_map, beq_iff_eq]
  constructor
  · rintro ⟨e, he, rfl⟩
    exact ⟨e, he, rfl⟩
  · rintro ⟨e, he, rfl⟩
    exact ⟨e, he, rfl⟩

theorem mem_entries_of_get? {m : OrderedMap α β} {k : α} {v : β} (h : m.get? k = some v) :
    (k, v) ∈ m.entries := by
  obtain ⟨before, after, heq, -⟩ := List.lookup_eq_some_iff.1 h
  rw [heq]
  simp

theorem get?_of_mem_entries {m : OrderedMap α β} (hm : m.keys.Nodup) {k : α} {v : β}
    (h : (k, v) ∈ m.entries) : m.get? k = some v := by
  obtain ⟨before, after, heq⟩ := List.append_of_mem h
  refine List.lookup_eq_some_iff.2 ⟨before, after, heq, fun e he => ?_⟩
  simp only [bne_iff_ne, ne_eq]
  rintro rfl
  rw [keys, heq, List.map_append, List.map_cons, List.nodup_append] at hm
  exact hm.2.2 e.1 (List.mem_map_of_mem he) e.1 (List.mem_cons_self ..) rfl

theorem mem_values_iff {m : OrderedMap α β} (hm : m.keys.Nodup) (v : β) :
    v ∈ m.values ↔ ∃ k, m.get? k = some v := by
  constructor
  · intro h
    obtain ⟨e, he, rfl⟩ := List.mem_map.1 h
    exact ⟨e.1, get?_of_mem_entries hm he⟩
  · rintro ⟨k, h⟩
    exact List.mem_map.2 ⟨(k, v), mem_entries_of_get? h, rfl⟩

theorem map_get?_keys {m : OrderedMap α β}
    (hm : m.keys.Nodup) : m.keys.map m.get? = m.values.map some := by
  rw [keys, values, List.map_map, List.map_map]
  exact List.map_congr_left fun e he => get?_of_mem_entries hm he

/-! ## Insertion -/

theorem nodup_keys_insert {m : OrderedMap α β} (hm : m.keys.Nodup) (k : α) (v : β) :
    (m.insert k v).keys.Nodup := by
  rw [keys_insert]
  split
  · exact hm
  · next h =>
      rw [List.nodup_append]
      exact ⟨hm, by simp, by rintro a ha b hb rfl; simp_all⟩

theorem mem_entries_insert {m : OrderedMap α β} {k : α} {v : β} {e : α × β}
    (h : e ∈ (m.insert k v).entries) : e = (k, v) ∨ e ∈ m.entries := by
  obtain ⟨es⟩ := m
  change e ∈ insertEntry k v es at h
  induction es with
  | nil => simpa [insertEntry] using h
  | cons e' es ih =>
      simp only [insertEntry] at h
      split at h
      · rcases List.mem_cons.1 h with rfl | h
        · exact .inl rfl
        · exact .inr (List.mem_cons_of_mem _ h)
      · rcases List.mem_cons.1 h with rfl | h
        · exact .inr (List.mem_cons_self ..)
        · exact (ih h).imp_right (List.mem_cons_of_mem _)

theorem mem_entries_modify {m : OrderedMap α β} {k : α} {f : β → β} {e : α × β}
    (h : e ∈ (m.modify k f).entries) :
    e ∈ m.entries ∨ ∃ v, (k, v) ∈ m.entries ∧ e = (k, f v) := by
  obtain ⟨⟨a, v⟩, he, rfl⟩ := List.mem_map.1 h
  by_cases hk : a = k
  · subst hk
    exact .inr ⟨v, he, by simp⟩
  · exact .inl (by simpa [hk] using he)

/-! ## Merging -/

theorem mem_entries_merge {m n : OrderedMap α β} {e : α × β} (h : e ∈ (m.merge n).entries) :
    e ∈ m.entries ∨ e ∈ n.entries := by
  rw [merge] at h
  generalize n.entries = es at h ⊢
  induction es generalizing m with
  | nil => exact .inl h
  | cons e' es ih =>
      rcases ih h with h | h
      · rcases mem_entries_insert h with rfl | h
        · exact .inr (List.mem_cons_self ..)
        · exact .inl h
      · exact .inr (List.mem_cons_of_mem _ h)

theorem get?_foldl_insert (es : List (α × β)) (m : OrderedMap α β) (k : α) :
    (es.foldl (fun acc e => acc.insert e.1 e.2) m).get? k =
      (es.reverse.lookup k).or (m.get? k) := by
  induction es generalizing m with
  | nil => rfl
  | cons e es ih =>
      rcases e with ⟨a, b⟩
      rw [List.foldl_cons, ih, get?_insert, List.reverse_cons, List.lookup_append, lookup_entry,
        Option.or_assoc]
      by_cases h : k = a <;> simp [h]

theorem get?_merge (m : OrderedMap α β) {n : OrderedMap α β} (hn : n.keys.Nodup) (k : α) :
    (m.merge n).get? k = (n.get? k).or (m.get? k) := by
  have hreverse : n.entries.reverse.lookup k = n.entries.lookup k := by
    have hkeys : (OrderedMap.mk n.entries.reverse).keys.Nodup := by
      rw [keys, List.map_reverse, List.nodup_reverse]
      exact hn
    cases h : n.entries.lookup k with
    | none =>
        rw [List.lookup_eq_none_iff] at h ⊢
        exact fun e he => h e (List.mem_reverse.1 he)
    | some v =>
        have hmem : (k, v) ∈ n.entries.reverse := List.mem_reverse.2 (mem_entries_of_get? h)
        exact get?_of_mem_entries hkeys hmem
  rw [merge, get?_foldl_insert, hreverse]
  rfl

theorem isSome_get?_merge (m n : OrderedMap α β) (k : α) :
    ((m.merge n).get? k).isSome ↔ (n.get? k).isSome ∨ (m.get? k).isSome := by
  rw [merge, get?_foldl_insert, Option.isSome_or, Bool.or_eq_true]
  simp only [get?, List.lookup_isSome_iff, List.mem_reverse]

theorem nodup_keys_merge {m : OrderedMap α β} (hm : m.keys.Nodup) (n : OrderedMap α β) :
    (m.merge n).keys.Nodup := by
  unfold merge
  induction n.entries generalizing m with
  | nil => exact hm
  | cons e es ih => exact ih (nodup_keys_insert hm e.1 e.2)

end Typings.OrderedMap
