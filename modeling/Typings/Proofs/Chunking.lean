import Mathlib.Data.List.SplitBy
import Typings.Proofs.TokenText
import Typings.Statement

/-!
# Lines and statements

The lines of a text that are not blank come in groups, each of which begins with a line that opens a
statement.  Only the first group may begin otherwise.  The statements are these groups, trimmed and
joined, so that no line gets lost or is taken twice.
-/

namespace Typings

/-! ## Joining -/

section Intercalate

variable {α : Type} {separator : List α}

theorem intercalate_append {as bs : List (List α)} (has : as ≠ []) (hbs : bs ≠ []) :
    separator.intercalate (as ++ bs) =
      separator.intercalate as ++ separator ++ separator.intercalate bs := by
  induction as with
  | nil => exact absurd rfl has
  | cons a as ih =>
      obtain ⟨b, bs, rfl⟩ := List.exists_cons_of_ne_nil hbs
      rcases as with _ | ⟨a', as⟩
      · rw [List.singleton_append, List.intercalate_cons_cons, List.intercalate_singleton]
      · rw [List.cons_append, List.cons_append, List.intercalate_cons_cons, ← List.cons_append,
          ih (List.cons_ne_nil _ _), List.intercalate_cons_cons]
        simp only [List.append_assoc]

theorem intercalate_flatten {groups : List (List (List α))} (h : [] ∉ groups) :
    separator.intercalate (groups.map separator.intercalate) =
      separator.intercalate groups.flatten := by
  induction groups with
  | nil => rfl
  | cons group groups ih =>
      rw [List.mem_cons, not_or] at h
      rw [List.flatten_cons, List.map_cons]
      rcases groups with _ | ⟨next, groups⟩
      · rw [List.map_nil, List.intercalate_singleton, List.flatten_nil, List.append_nil]
      · have hnext : next ≠ [] := fun hnil => h.2 (hnil ▸ List.mem_cons_self)
        rw [intercalate_append (Ne.symm h.1) (by simp [hnext]), ← ih h.2, List.map_cons,
          List.intercalate_cons_cons]

end Intercalate

namespace Statement

/-! ## Groups of lines -/

def hasText (line : List Char) : Bool := !(Text.trim line).isEmpty

def joined (ls : List (List Char)) : List Char := [' '].intercalate (ls.map Text.trim)

def shown (s : List Char) : List (List Char) := (lines s).filter hasText

/-- The lines with text, cut in front of every line that opens a statement. -/
def groups (s : List Char) : List (List (List Char)) :=
  (shown s).splitBy fun _ line => !opens line

def chunked (source : List Char) (stripComments : Bool) : List Char :=
  if stripComments then Comment.strip source else source

/-- A word in the first column and a blank behind it. -/
def BeginsWithWord (line : List Char) : Prop :=
  ∃ word rest, Text.isIdentifier word = true ∧ line = word ++ ' ' :: rest

theorem opens_iff {line : List Char} : opens line = true ↔ BeginsWithWord line := by
  rw [opens, Bool.and_eq_true, beq_iff_eq]
  constructor
  · rintro ⟨hstart, hblank⟩
    obtain ⟨rest, hrest⟩ := List.head?_eq_some_iff.1 hblank
    refine ⟨line.takeWhile Text.isWord, rest, ?_, ?_⟩
    · obtain ⟨c, s, rfl⟩ : ∃ c s, line = c :: s :=
        List.exists_cons_of_ne_nil fun hnil => by rw [hnil] at hstart; cases hstart
      have hc : Text.isWord c = true := hstart
      rw [Text.isIdentifier, List.all_takeWhile, List.takeWhile_cons_of_pos hc]
      rfl
    · rw [← hrest, List.takeWhile_append_dropWhile]
  · rintro ⟨word, rest, hword, rfl⟩
    have htake : Text.takeWord? (word ++ ' ' :: rest) = some (word, ' ' :: rest) :=
      Text.takeWord?_append_of_name hword rfl
    rw [Text.takeWord?] at htake
    split at htake
    next hstart =>
      refine ⟨hstart, ?_⟩
      rw [(Prod.mk.inj (Option.some.inj htake)).2]
      rfl
    next => cases htake

/-! ## Reading lines one by one -/

theorem joined_singleton (line : List Char) : joined [line] = Text.trim line :=
  List.intercalate_singleton

theorem joined_concat {group : List (List Char)} (h : group ≠ []) (line : List Char) :
    joined (group ++ [line]) = joined group ++ ' ' :: Text.trim line := by
  rw [joined, List.map_append, intercalate_append (by simpa using h) (by simp), List.append_assoc,
    ← joined, ← joined, joined_singleton]
  rfl

inductive Pending : Option Statement → List (List Char) → Prop
  | nothing : Pending none []
  | begun {s : Statement} {line : List Char} {more : List (List Char)}
      (hmore : ∀ next ∈ more, opens next = false) (htext : s.text = joined (line :: more)) :
      Pending (some s) (line :: more)

variable {current : Option Statement} {group : List (List Char)}

theorem Pending.single (line : List Char) (offset : Nat) :
    Pending (some ⟨Text.trim line, offset⟩) [line] :=
  .begun (by simp) (joined_singleton line).symm

theorem Pending.continues {s : Statement} (h : Pending (some s) group) {line : List Char}
    (hline : opens line = false) :
    Pending (some { s with text := s.text ++ ' ' :: Text.trim line }) (group ++ [line]) := by
  cases h with
  | @begun _ first more hmore htext =>
      refine .begun (List.forall_mem_append.2 ⟨hmore, by simpa using hline⟩) ?_
      exact (congrArg (· ++ ' ' :: Text.trim line) htext).trans
        (joined_concat (List.cons_ne_nil _ _) line).symm

theorem isChain_of_continuing {more : List (List Char)} (h : ∀ next ∈ more, opens next = false)
    (first : List Char) : (first :: more).IsChain fun _ line => (!opens line) = true := by
  induction more generalizing first with
  | nil => exact .singleton first
  | cons next more ih =>
      obtain ⟨hnext, hmore⟩ := List.forall_mem_cons.1 h
      exact List.isChain_cons_cons.2 ⟨by simpa using hnext, ih hmore next⟩

theorem Pending.splitBy (h : Pending current group) :
    (group.splitBy fun _ line => !opens line).map joined = current.toList.map Statement.text := by
  cases h with
  | nothing => rfl
  | @begun s first more hmore htext =>
      have hchain := isChain_of_continuing hmore first
      rw [List.splitBy_of_isChain (List.cons_ne_nil _ _) hchain]
      simp [htext]

theorem text_chunk (h : Pending current group) (offset : Nat) (ls : List (List Char)) :
    (chunk offset current ls).map Statement.text =
      ((group ++ ls.filter hasText).splitBy fun _ line => !opens line).map joined := by
  induction ls generalizing offset current group with
  | nil =>
      rw [List.filter_nil, List.append_nil, h.splitBy]
      cases current <;> rfl
  | cons line ls ih =>
      rw [chunk.eq_def]
      dsimp only
      split
      next hblank =>
        rw [ih h, List.filter_cons_of_neg (by simp [hasText, hblank])]
      next hshown =>
        rw [List.filter_cons_of_pos (by simp [hasText, hshown])]
        split
        next hopens =>
          rw [List.splitBy_append_cons _ (by simp [hopens]), List.map_append, List.map_append,
            ih (.single line offset), h.splitBy]
          rfl
        next hcontinues =>
          rw [Bool.not_eq_true] at hcontinues
          split
          next s => rw [ih (h.continues hcontinues), List.append_assoc, List.singleton_append]
          next =>
            -- nothing is pending: a first line begins a statement even if it opens none
            cases h
            exact ih (.single line _) _

/-! ## The statements of a source -/

theorem exists_of_isChain {α : Type} {R : α → α → Prop} {as : List α} (h : as.IsChain R) :
    ∀ b ∈ as.tail, ∃ a, R a b := by
  induction h with
  | nil => exact List.forall_mem_nil _
  | singleton => exact List.forall_mem_nil _
  | @cons_cons a b as hab _ ih => exact List.forall_mem_cons.2 ⟨⟨a, hab⟩, ih⟩

theorem joined_flatten {gs : List (List (List Char))} (h : [] ∉ gs) :
    [' '].intercalate (gs.map joined) = joined gs.flatten := by
  have htrimmed : [] ∉ gs.map (List.map Text.trim) := by
    rintro hnil
    obtain ⟨group, hgroup, hmap⟩ := List.mem_map.1 hnil
    exact h (List.map_eq_nil_iff.1 hmap ▸ hgroup)
  have hjoined := @intercalate_flatten _ [' '] _ htrimmed
  rwa [List.map_map, ← List.map_flatten] at hjoined

/--
The statements of a source are the groups of its lines with text, trimmed and joined.  Together they
are all these lines; every group but the first begins with a word in the first column and a blank
behind it, and no further line of a group does.
-/
theorem text_ofSource (source : List Char) (stripComments : Bool) :
    [' '].intercalate ((ofSource source stripComments).map Statement.text) =
      [' '].intercalate ((shown (chunked source stripComments)).map Text.trim) ∧
    let gs := groups (chunked source stripComments)
    (ofSource source stripComments).map Statement.text = gs.map joined ∧
    gs.flatten = shown (chunked source stripComments) ∧
    (∀ group ∈ gs, group ≠ []) ∧
    (∀ group ∈ gs.tail, ∃ first more, group = first :: more ∧ BeginsWithWord first) ∧
    ∀ group ∈ gs, ∀ line ∈ group.tail, ¬ BeginsWithWord line := by
  have htexts : (ofSource source stripComments).map Statement.text =
      (groups (chunked source stripComments)).map joined :=
    text_chunk .nothing 0 (lines (chunked source stripComments))
  have hflatten : (groups (chunked source stripComments)).flatten =
      shown (chunked source stripComments) := List.flatten_splitBy _ _
  have hnil : [] ∉ groups (chunked source stripComments) := List.nil_notMem_splitBy _ _
  refine ⟨?_, htexts, hflatten, fun group hgroup => ne_of_mem_of_not_mem hgroup hnil,
    fun group hgroup => ?_, fun group hgroup line hline => ?_⟩
  · rw [htexts, joined_flatten hnil, hflatten, joined]
  · obtain ⟨before, -, hne, hopens⟩ :=
      exists_of_isChain (List.isChain_getLast_head_splitBy _ _) group hgroup
    obtain ⟨first, more, rfl⟩ := List.exists_cons_of_ne_nil hne
    exact ⟨first, more, rfl, opens_iff.1 (by simpa using hopens)⟩
  · obtain ⟨before, hcontinues⟩ :=
      exists_of_isChain (List.isChain_of_mem_splitBy hgroup) line hline
    exact mt opens_iff.2 (by simpa using hcontinues)

def continued : List Char :=
  "| 'a'\r\ntype B =\n\t| 'x' // type\n /* type */ \nexport type C = B; ".toList

theorem text_ofSource_continued :
    (ofSource continued true).map Statement.text =
        ["| 'a'".toList, "type B = | 'x'".toList, "export type C = B;".toList] ∧
      ["export type C = B; ".toList] ∈ (groups (chunked continued true)).tail ∧
      BeginsWithWord "export type C = B; ".toList ∧
      ¬ BeginsWithWord "\t| 'x'        \n".toList := by
  obtain ⟨-, htexts, -, -, hopens, hcontinues⟩ := text_ofSource continued true
  have hgroups : groups (chunked continued true) =
      [["| 'a'\r\n".toList], ["type B =\n".toList, "\t| 'x'        \n".toList],
        ["export type C = B; ".toList]] := by decide +kernel
  rw [hgroups] at htexts hopens hcontinues
  have hlast : ["export type C = B; ".toList] ∈ (groups (chunked continued true)).tail := by
    rw [hgroups]
    exact .tail _ (.head _)
  refine ⟨htexts.trans (by decide +kernel), hlast, ?_, ?_⟩
  · obtain ⟨first, more, hgroup, hfirst⟩ := hopens _ (.tail _ (.head _))
    rwa [(List.cons.inj hgroup).1]
  · exact hcontinues _ (.tail _ (.head _)) _ (.head _)

end Statement

end Typings
