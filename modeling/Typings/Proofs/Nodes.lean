import Typings.Expr

/-!
# Expressions as trees

Whatever its shape, an expression is a node with parts, each of them at a place of its own.  The
node and the parts determine the expression, and the parts are smaller than it.
-/

namespace Typings.Expr

/-- What an expression is apart from its parts. -/
inductive Node where
  | reference (target : Identity)
  | literal (value : Literal)
  | primitive (kind : Primitive)
  | array
  | object
  | promise
  | compound (joiner : Joiner)
  | generic
  | unknown
  deriving DecidableEq, Repr

/-- Where a part stands in its expression. -/
inductive Place where
  /-- As an element, as the value of a promise, or as one of several members. -/
  | inner
  | argument
  | property (key : String) (optional : Bool)
  | dynamic
  deriving DecidableEq, Repr

def node : Expr → Node
  | .reference target _ => .reference target
  | .literal value => .literal value
  | .primitive kind => .primitive kind
  | .array _ => .array
  | .object _ _ => .object
  | .promise _ => .promise
  | .compound joiner _ => .compound joiner
  | .generic => .generic
  | .unknown => .unknown

def propertyPart (p : Property Expr) : Place × Expr := (.property p.key p.optional, p.value)

def property? : Place × Expr → Option (Property Expr)
  | (.property key optional, value) => some ⟨key, optional, value⟩
  | _ => none

def parts : Expr → List (Place × Expr)
  | .reference _ argument => argument.toList.map (Place.argument, ·)
  | .array element => [(.inner, element)]
  | .object properties dynamic =>
      properties.map propertyPart ++ dynamic.toList.map (Place.dynamic, ·)
  | .promise inner => [(.inner, inner)]
  | .compound _ members => members.map (Place.inner, ·)
  | .literal _ | .primitive _ | .generic | .unknown => []

theorem toList_map_inj {place : Place} {a b : Option Expr}
    (h : a.toList.map (place, ·) = b.toList.map (place, ·)) : a = b := by
  cases a <;> cases b <;> simp_all

theorem filterMap_property?_parts (properties : List (Property Expr)) (dynamic : Option Expr) :
    (object properties dynamic).parts.filterMap property? = properties := by
  have hproperties : property? ∘ propertyPart = some := rfl
  have hdynamic : (dynamic.toList.map (Place.dynamic, ·)).filterMap property? = [] := by
    cases dynamic <;> rfl
  rw [parts, List.filterMap_append, List.filterMap_map, hproperties, List.filterMap_some, hdynamic,
    List.append_nil]

theorem eq_of_parts {e e' : Expr} (hnode : e.node = e'.node) (hparts : e.parts = e'.parts) :
    e = e' := by
  cases e with
  | reference target argument =>
      cases e' with
      | reference target' argument' =>
          rw [Node.reference.inj hnode, toList_map_inj hparts]
      | _ => cases hnode
  | object properties dynamic =>
      cases e' with
      | object properties' dynamic' =>
          have hproperties : properties = properties' := by
            rw [← filterMap_property?_parts properties dynamic, hparts, filterMap_property?_parts]
          subst hproperties
          rw [toList_map_inj (List.append_cancel_left hparts)]
      | _ => cases hnode
  | compound joiner members =>
      cases e' with
      | compound joiner' members' =>
          have hmembers : members = members' :=
            (List.map_inj_right fun _ _ hpart => (Prod.mk.inj hpart).2).1 hparts
          rw [Node.compound.inj hnode, hmembers]
      | _ => cases hnode
  | _ =>
      cases e'
      all_goals cases hnode
      all_goals simp_all [parts]

theorem sizeOf_lt_of_mem_parts {e : Expr} {part : Place × Expr} (h : part ∈ e.parts) :
    sizeOf part.2 < sizeOf e := by
  cases e with
  | reference target argument =>
      obtain ⟨e, he, rfl⟩ := List.mem_map.1 h
      obtain rfl := Option.mem_toList.1 he
      simp
      omega
  | object properties dynamic =>
      rcases List.mem_append.1 h with h | h
      · obtain ⟨p, hp, rfl⟩ := List.mem_map.1 h
        have hlist := List.sizeOf_lt_of_mem hp
        obtain ⟨key, optional, value⟩ := p
        simp [propertyPart] at hlist ⊢
        omega
      · obtain ⟨e, he, rfl⟩ := List.mem_map.1 h
        obtain rfl := Option.mem_toList.1 he
        simp
        omega
  | compound joiner members =>
      obtain ⟨e, he, rfl⟩ := List.mem_map.1 h
      have hlist := List.sizeOf_lt_of_mem he
      simp
      omega
  | array element | promise element =>
      obtain rfl := List.mem_singleton.1 h
      simp
  | _ => cases h

/-- A node in an expression: how deep it stands, at which place, and what it is. -/
structure Spot where
  depth : Nat
  place : Place
  node : Node
  deriving DecidableEq, Repr

def spots (depth : Nat) (place : Place) (e : Expr) : List Spot :=
  ⟨depth, place, e.node⟩ ::
    e.parts.attach.flatMap fun ⟨part, _⟩ => part.2.spots (depth + 1) part.1
termination_by sizeOf e
decreasing_by exact sizeOf_lt_of_mem_parts ‹_›

theorem spots_eq (depth : Nat) (place : Place) (e : Expr) : e.spots depth place =
    ⟨depth, place, e.node⟩ :: e.parts.flatMap fun part => part.2.spots (depth + 1) part.1 := by
  rw [spots, List.flatMap_subtype fun _ _ => rfl, List.unattach_attach]

end Typings.Expr
