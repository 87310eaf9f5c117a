/-!
# What a list was made from

Lists that are put together from parts tell their parts if each part shows where it ends: by the
kind of its items, by its own content, or by the item that heads the next part.
-/

namespace Typings

variable {α β γ : Type}

theorem eq_of_append_of_all {p : α → Bool} {a b s t : List α} (ha : ∀ c ∈ a, p c = true)
    (hb : ∀ c ∈ b, p c = true) (hs : s.head?.any p = false) (ht : t.head?.any p = false)
    (h : a ++ s = b ++ t) : a = b ∧ s = t := by
  have htake : ∀ {a s : List α}, (∀ c ∈ a, p c = true) → s.head?.any p = false →
      (a ++ s).takeWhile p = a := by
    intro a s ha hs
    rw [List.takeWhile_append_of_pos ha]
    cases s with
    | nil => exact List.append_nil a
    | cons c s => rw [List.takeWhile_cons_of_neg (by simpa using hs), List.append_nil]
  obtain rfl : a = b := by rw [← htake ha hs, h, htake hb ht]
  exact ⟨rfl, List.append_cancel_left h⟩

/-- A code whose words show where they end determines what is written in it. -/
theorem eq_of_flatMap {f : α → List β} (hne : ∀ a, f a ≠ [])
    (hf : ∀ a b s t, f a ++ s = f b ++ t → a = b ∧ s = t) {as bs : List α}
    (h : as.flatMap f = bs.flatMap f) : as = bs := by
  induction as generalizing bs with
  | nil =>
      cases bs with
      | nil => rfl
      | cons b bs => simp [hne] at h
  | cons a as ih =>
      cases bs with
      | nil => simp [hne] at h
      | cons b bs =>
          obtain ⟨rfl, hrest⟩ := hf a b _ _ h
          rw [ih hrest]

theorem map_eq_of_map_eq {f : α → β} {g : α → γ} {as bs : List α}
    (hg : ∀ a ∈ as, ∀ b ∈ bs, f a = f b → g a = g b) (h : as.map f = bs.map f) :
    as.map g = bs.map g := by
  induction as generalizing bs with
  | nil => rw [List.map_eq_nil_iff.1 h.symm]
  | cons a as ih =>
      cases bs with
      | nil => cases h
      | cons b bs =>
          obtain ⟨hab, hrest⟩ := List.cons.inj h
          rw [List.map_cons, List.map_cons, hg a (List.mem_cons_self ..) b (List.mem_cons_self ..) hab,
            ih (fun a ha b hb => hg a (List.mem_cons_of_mem _ ha) b (List.mem_cons_of_mem _ hb)) hrest]

theorem eq_of_map_eq {f : α → β} {as bs : List α} (hf : ∀ a ∈ as, ∀ b ∈ bs, f a = f b → a = b)
    (h : as.map f = bs.map f) : as = bs := by
  have hmap := @map_eq_of_map_eq _ _ _ f id as bs hf h
  rwa [List.map_id, List.map_id] at hmap

def IsBlock (inner : β → Bool) (block : List β) : Prop :=
  ∃ head tail, block = head :: tail ∧ inner head = false ∧ ∀ b ∈ tail, inner b = true

theorem map_eq_of_flatMap_eq {inner : β → Bool} {f : α → List β} (hf : ∀ a, IsBlock inner (f a))
    {as bs : List α} (h : as.flatMap f = bs.flatMap f) : as.map f = bs.map f := by
  have hrest : ∀ as : List α, (as.flatMap f).head?.any inner = false := by
    intro as
    cases as with
    | nil => rfl
    | cons a as =>
        obtain ⟨head, tail, hblock, hhead, -⟩ := hf a
        rw [List.flatMap_cons, hblock]
        exact hhead
  induction as generalizing bs with
  | nil =>
      cases bs with
      | nil => rfl
      | cons b bs =>
          obtain ⟨head, tail, hblock, -⟩ := hf b
          rw [List.flatMap_cons, hblock] at h
          cases h
  | cons a as ih =>
      obtain ⟨head, tail, hblock, -, htail⟩ := hf a
      cases bs with
      | nil =>
          rw [List.flatMap_cons, hblock] at h
          cases h
      | cons b bs =>
          obtain ⟨head', tail', hblock', -, htail'⟩ := hf b
          rw [List.flatMap_cons, List.flatMap_cons, hblock, hblock'] at h
          obtain ⟨rfl, hbehind⟩ := List.cons.inj h
          obtain ⟨rfl, hblocks⟩ := eq_of_append_of_all htail htail' (hrest as) (hrest bs) hbehind
          rw [List.map_cons, List.map_cons, ih hblocks, hblock, hblock']

end Typings
