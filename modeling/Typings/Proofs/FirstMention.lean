import Mathlib.Data.List.Basic
import Mathlib.Data.List.Induction
import Typings.Expr.References
import Typings.Proofs.Nodes

/-!
# References at their first mention

The references of an expression are the targets of its nodes in pre-order, where a target that an
earlier node has is left out: `Expr.references_eq_firstOccurrences`.  Two spellings of a file count
as one, and the spelling that stands first is kept.
-/

namespace Typings

/-! ## First occurrences -/

namespace Identity

theorem same_comm (a b : Identity) : a.same b = b.same a := by
  rw [Bool.eq_iff_iff, same_iff, same_iff]
  exact ⟨fun ⟨hfile, hname, hdefault⟩ => ⟨hfile.symm, hname.symm, hdefault.symm⟩,
    fun ⟨hfile, hname, hdefault⟩ => ⟨hfile.symm, hname.symm, hdefault.symm⟩⟩

theorem same_trans {a b c : Identity} (hab : a.same b = true) (hbc : b.same c = true) :
    a.same c = true := by
  rw [same_iff] at hab hbc ⊢
  exact ⟨hab.1.trans hbc.1, hab.2.1.trans hbc.2.1, hab.2.2.trans hbc.2.2⟩

/-- The entries of a list that no earlier entry names. -/
def firstOccurrences (l : List Identity) : List Identity :=
  (l.zipIdx.filter fun (a, i) => !(l.take i).any a.same).map Prod.fst

theorem firstOccurrences_concat (l : List Identity) (a : Identity) :
    firstOccurrences (l ++ [a]) =
      if l.any a.same then firstOccurrences l else firstOccurrences l ++ [a] := by
  have hfront : (l.zipIdx.filter fun (b, i) => !((l ++ [a]).take i).any b.same) =
      l.zipIdx.filter fun (b, i) => !(l.take i).any b.same := by
    refine List.filter_congr fun (b, i) hb => ?_
    have hi : i ≤ l.length := Nat.le_of_lt (List.snd_lt_of_mem_zipIdx hb)
    simp only [List.take_append_of_le_length hi]
  rw [firstOccurrences, List.zipIdx_append, List.filter_append, hfront, List.map_append]
  split
  next hseen => simp [firstOccurrences, hseen]
  next hseen => simp [firstOccurrences, hseen]

end Identity

namespace Expr

/-! ## Noting references -/

theorem any_noteReference (seen : List Identity) (target a : Identity) :
    (noteReference seen target).any a.same = (seen.any a.same || a.same target) := by
  rw [noteReference]
  split
  next hseen =>
    obtain ⟨b, hb, hsame⟩ := List.any_eq_true.1 hseen
    have himp : a.same target = true → seen.any a.same = true := fun ha =>
      List.any_eq_true.2 ⟨b, hb, Identity.same_trans ha hsame⟩
    cases htarget : a.same target with
    | false => rw [Bool.or_false]
    | true => rw [himp htarget, Bool.or_true]
  next => rw [List.any_append, List.any_cons, List.any_nil, Bool.or_false]

theorem any_foldl_noteReference (l seen : List Identity) (a : Identity) :
    (l.foldl noteReference seen).any a.same = (seen.any a.same || l.any a.same) := by
  induction l generalizing seen with
  | nil => simp
  | cons b l ih => rw [List.foldl_cons, ih, any_noteReference, List.any_cons, Bool.or_assoc]

theorem pairwise_noteReference {seen : List Identity}
    (h : seen.Pairwise fun a b => a.same b = false) (target : Identity) :
    (noteReference seen target).Pairwise fun a b => a.same b = false := by
  rw [noteReference]
  split
  next => exact h
  next hseen =>
    rw [List.pairwise_append]
    refine ⟨h, List.pairwise_singleton _ _, fun a ha b hb => ?_⟩
    obtain rfl := List.mem_singleton.1 hb
    rw [Identity.same_comm]
    exact Bool.eq_false_iff.2 fun hsame => hseen (List.any_eq_true.2 ⟨a, ha, hsame⟩)

theorem pairwise_foldl_noteReference (l : List Identity) {seen : List Identity}
    (h : seen.Pairwise fun a b => a.same b = false) :
    (l.foldl noteReference seen).Pairwise fun a b => a.same b = false := by
  induction l generalizing seen with
  | nil => exact h
  | cons target l ih => exact ih (pairwise_noteReference h target)

theorem foldl_noteReference_nil (l : List Identity) :
    l.foldl noteReference [] = Identity.firstOccurrences l := by
  induction l using List.reverseRecOn with
  | nil => rfl
  | append_singleton l a ih =>
      have hseen : (Identity.firstOccurrences l).any a.same = l.any a.same := by
        rw [← ih, any_foldl_noteReference, List.any_nil, Bool.false_or]
      rw [List.foldl_concat, ih, noteReference, hseen, Identity.firstOccurrences_concat]

/-! ## Targets in pre-order -/

def Node.target? : Node → Option Identity
  | .reference target => some target
  | _ => none

def Spot.target? (s : Spot) : Option Identity := s.node.target?

/-- The targets of the references in an expression, in the order of its nodes. -/
def targets (e : Expr) : List Identity := (e.spots 0 .inner).filterMap Spot.target?

theorem collectFromProperties_eq (seen : List Identity) (properties : List (Property Expr)) :
    collectFromProperties seen properties =
      (properties.map propertyPart).foldl (fun seen part => collectReferences seen part.2) seen := by
  induction properties generalizing seen with
  | nil => rfl
  | cons p properties ih => exact ih _

theorem collectFromMembers_eq (seen : List Identity) (members : List Expr) :
    collectFromMembers seen members =
      (members.map (Place.inner, ·)).foldl (fun seen part => collectReferences seen part.2) seen := by
  induction members generalizing seen with
  | nil => rfl
  | cons e members ih => exact ih _

theorem collectReferences_eq (seen : List Identity) (e : Expr) :
    collectReferences seen e = e.parts.foldl (fun seen part => collectReferences seen part.2)
      (e.node.target?.toList.foldl noteReference seen) := by
  cases e with
  | reference target argument => cases argument <;> rfl
  | object properties dynamic =>
      rw [parts, List.foldl_append, ← collectFromProperties_eq]
      cases dynamic <;> rfl
  | compound joiner members => exact collectFromMembers_eq seen members
  | _ => rfl

/-- Wherever the expression stands, its targets are noted in the order of its nodes. -/
theorem collectReferences_eq_foldl (seen : List Identity) (depth : Nat) (place : Place) (e : Expr) :
    collectReferences seen e =
      ((e.spots depth place).filterMap Spot.target?).foldl noteReference seen := by
  induction depth, place, e using spots.induct generalizing seen with
  | case1 depth place e ih =>
      have hnode : ∀ behind : List Spot,
          (⟨depth, place, e.node⟩ :: behind).filterMap Spot.target? =
            e.node.target?.toList ++ behind.filterMap Spot.target? := by
        intro behind
        cases htarget : e.node.target? <;> simp [Spot.target?, htarget]
      rw [collectReferences_eq, spots_eq, hnode, List.foldl_append, List.filterMap_flatMap,
        List.foldl_flatMap]
      exact List.foldl_ext _ _ _ fun seen part hpart => ih part hpart seen

/-! ## Main statement -/

/--
The references of an expression are the targets of its nodes in pre-order, each where it occurs
first, and no two of them are the same.
-/
theorem references_eq_firstOccurrences (e : Expr) :
    (e.references.Pairwise fun a b => a.same b = false) ∧
      e.references = Identity.firstOccurrences e.targets := by
  have hfold : e.references = e.targets.foldl noteReference [] :=
    collectReferences_eq_foldl [] 0 .inner e
  refine ⟨?_, hfold.trans (foldl_noteReference_nil e.targets)⟩
  rw [hfold]
  exact pairwise_foldl_noteReference e.targets .nil

/-- The argument of a reference that was noted before is searched as well. -/
example : (compound .union [reference ⟨⟨"/a.d.ts"⟩, "A", false⟩ none,
    reference ⟨⟨"/./a.d.ts"⟩, "A", false⟩
      (some (reference ⟨⟨"/a.d.ts"⟩, "B", false⟩ none))]).references =
        [⟨⟨"/a.d.ts"⟩, "A", false⟩, ⟨⟨"/a.d.ts"⟩, "B", false⟩] := by
  decide

end Expr

end Typings
