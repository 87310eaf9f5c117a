/-!
# Maps in insertion order

A key keeps the place where it was first inserted; inserting it again replaces its value there.
-/

namespace Typings

structure OrderedMap (α β : Type) where
  entries : List (α × β)
  deriving DecidableEq, Repr

namespace OrderedMap

variable {α β : Type} [DecidableEq α]

def empty : OrderedMap α β := ⟨[]⟩

instance : Inhabited (OrderedMap α β) := ⟨empty⟩

def keys (m : OrderedMap α β) : List α := m.entries.map Prod.fst

def values (m : OrderedMap α β) : List β := m.entries.map Prod.snd

def size (m : OrderedMap α β) : Nat := m.entries.length

def get? (m : OrderedMap α β) (k : α) : Option β := m.entries.lookup k

def insertEntry (k : α) (v : β) : List (α × β) → List (α × β)
  | [] => [(k, v)]
  | e :: es => if e.1 = k then (k, v) :: es else e :: insertEntry k v es

def insert (m : OrderedMap α β) (k : α) (v : β) : OrderedMap α β :=
  ⟨insertEntry k v m.entries⟩

def merge (m n : OrderedMap α β) : OrderedMap α β :=
  n.entries.foldl (fun acc e => acc.insert e.1 e.2) m

def modify (m : OrderedMap α β) (k : α) (f : β → β) : OrderedMap α β :=
  ⟨m.entries.map fun e => if e.1 = k then (e.1, f e.2) else e⟩

/-! ## Look-up after a change -/

@[simp] theorem get?_empty (k : α) : (empty : OrderedMap α β).get? k = none := rfl

theorem lookup_entry (k a : α) (b : β) (es : List (α × β)) :
    ((a, b) :: es).lookup k = if k = a then some b else es.lookup k := by
  by_cases h : k = a
  · rw [h, List.lookup_cons_self, if_pos rfl]
  · have hb : (k == a) = false := by simpa using h
    rw [if_neg h]
    change (match k == a with | true => some b | false => es.lookup k) = es.lookup k
    rw [hb]

theorem lookup_insertEntry (k k' : α) (v : β) (es : List (α × β)) :
    (insertEntry k v es).lookup k' = if k' = k then some v else es.lookup k' := by
  induction es with
  | nil => simp [insertEntry, lookup_entry]
  | cons e es ih =>
      obtain ⟨a, b⟩ := e
      simp only [insertEntry]
      by_cases ha : a = k
      · subst ha
        by_cases h : k' = a <;> simp [lookup_entry, h]
      · by_cases h : k' = a
        · subst h; simp [ha]
        · simp [lookup_entry, h, ha, ih]

theorem get?_insert (m : OrderedMap α β) (k k' : α) (v : β) :
    (m.insert k v).get? k' = if k' = k then some v else m.get? k' :=
  lookup_insertEntry k k' v m.entries

theorem keys_insertEntry (k : α) (v : β) (es : List (α × β)) :
    (insertEntry k v es).map Prod.fst =
      if k ∈ es.map Prod.fst then es.map Prod.fst else es.map Prod.fst ++ [k] := by
  induction es with
  | nil => simp [insertEntry]
  | cons e es ih =>
      by_cases h : e.1 = k
      · simp [insertEntry, h]
      · have h' : ¬ k = e.1 := fun hk => h hk.symm
        simp only [insertEntry, h, if_false, List.map_cons, ih, List.mem_cons, h', false_or]
        split <;> simp

theorem keys_insert (m : OrderedMap α β) (k : α) (v : β) :
    (m.insert k v).keys = if k ∈ m.keys then m.keys else m.keys ++ [k] :=
  keys_insertEntry k v m.entries

@[simp] theorem keys_modify (m : OrderedMap α β) (k : α) (f : β → β) :
    (m.modify k f).keys = m.keys := by
  simp only [keys, modify, List.map_map]
  apply List.map_congr_left
  intro e _
  simp only [Function.comp]
  split <;> rfl

theorem get?_modify (m : OrderedMap α β) (k k' : α) (f : β → β) :
    (m.modify k f).get? k' = if k' = k then (m.get? k').map f else m.get? k' := by
  obtain ⟨es⟩ := m
  simp only [get?, modify]
  induction es with
  | nil => simp
  | cons e es ih =>
      obtain ⟨a, b⟩ := e
      simp only [List.map_cons]
      by_cases hk : k' = k
      · subst hk
        by_cases ha : a = k'
        · simp_all
        · simp_all [lookup_entry, Ne.symm ha]
      · by_cases ha : a = k <;> by_cases h : k' = a <;> simp_all [lookup_entry]

end OrderedMap

end Typings
