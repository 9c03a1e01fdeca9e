import AnnotatedApi.Proofs.Resolution.Depth
import AnnotatedApi.Proofs.Resolution.Objects

/-!
# The fields of an intersection

An intersection has a field for each name that its members have fields of: it stands where the name occurs first, and
it is the field that has the name last. So all that counts of the members is the list of their fields, one after
the other, and members that stand side by side may as well be an intersection of their own: merging their fields
first leaves out only what is replaced anyway.
-/

namespace AnnotatedApi

set_option autoImplicit false

open Resolve

/-! ## What is merged -/

/-- Whether the fields are those of a list, merged: their names are different and stand in the order in which they
occur first, and each name has the field that has it last. -/
structure MergedFrom (all fields : List (Field WireType)) : Prop where
  distinct : (fields.map (·.name)).Nodup
  order : fields.map (·.name) = (all.map (·.name)).eraseDups
  last : ∀ f ∈ fields, ∃ before after, all = before ++ f :: after ∧ f.name ∉ after.map (·.name)

theorem mergedFrom_mergeFields (all : List (Field WireType)) : MergedFrom all (mergeFields [] all) where
  distinct := nodup_mergeFields (by simp) all
  order := map_name_mergeFields (by simp) all
  last f hf := by
    have hname : f.name ∈ all.map (·.name) :=
      List.mem_map_of_mem ((mem_or_mem_of_mem_mergeFields hf).resolve_left List.not_mem_nil)
    obtain ⟨before, g, after, hsplit, hg, hnot⟩ := exists_last_of_mem_map hname
    have hmem : g ∈ mergeFields [] all := by
      rw [hsplit]
      exact mem_mergeFields_last before (hg ▸ hnot)
    have hsame := List.inj_on_of_nodup_map (nodup_mergeFields (by simp) all) hmem hf hg
    subst hsame
    exact ⟨before, after, hsplit, hnot⟩

/-- Fields that are merged among themselves first are merged into others like the fields themselves. -/
theorem mergeFields_mergeFields_nil (fields all : List (Field WireType)) :
    mergeFields fields (mergeFields [] all) = mergeFields fields all :=
  mergeFields_assoc (by simp)

theorem ObjectType.fields_meet (os : List ObjectType) :
    (meet os).fields = mergeFields [] (os.flatMap (·.fields)) :=
  mergeAll_eq_mergeFields os []

/-- Objects side by side are merged like their intersection. -/
theorem ObjectType.mergeAll_meet (before group after : List ObjectType) (fields : List (Field WireType)) :
    mergeAll (before ++ meet group :: after) fields = mergeAll (before ++ group ++ after) fields := by
  have hgroup : ∀ merged, mergeFields merged (meet group).fields = mergeAll group merged := fun merged => by
    rw [fields_meet, mergeFields_mergeFields_nil, mergeAll_eq_mergeFields]
  simp only [mergeAll, List.foldl_append, List.foldl_cons] at hgroup ⊢
  rw [hgroup]

/-! ## Members in groups -/

/-- Members of an intersection, some of which stand together in an intersection of their own, at any depth. -/
inductive Grouping (α : Type) where
  | member (a : α)
  | group (parts : List (Grouping α))

namespace Grouping

variable {α : Type}

mutual

/-- What the members come to if those that stand together are joined first. -/
def collapse (join : List α → α) : Grouping α → α
  | member a => a
  | group parts => join (collapseAll join parts)

def collapseAll (join : List α → α) : List (Grouping α) → List α
  | [] => []
  | g :: rest => collapse join g :: collapseAll join rest

end

mutual

/-- The members, in whatever groups they stand. -/
def members : Grouping α → List α
  | member a => [a]
  | group parts => membersOf parts

def membersOf : List (Grouping α) → List α
  | [] => []
  | g :: rest => members g ++ membersOf rest

end

mutual

/-- How deep members stand in groups. -/
def height : Grouping α → Nat
  | member _ => 0
  | group parts => heightOf parts + 1

def heightOf : List (Grouping α) → Nat
  | [] => 0
  | g :: rest => max (height g) (heightOf rest)

end

end Grouping

namespace ObjectType

open Grouping

mutual

/-- A group of objects is merged into others like the objects that stand in it. -/
theorem mergeAll_collapse : ∀ (g : Grouping ObjectType) (fields : List (Field WireType)),
    mergeAll [collapse meet g] fields = mergeAll (members g) fields
  | .member _, _ => rfl
  | .group parts, fields => by
    have hgroup := mergeAll_meet [] (collapseAll meet parts) [] fields
    rw [List.nil_append, List.nil_append, List.append_nil] at hgroup
    exact hgroup.trans (mergeAll_collapseAll parts fields)

theorem mergeAll_collapseAll : ∀ (parts : List (Grouping ObjectType)) (fields : List (Field WireType)),
    mergeAll (collapseAll meet parts) fields = mergeAll (membersOf parts) fields
  | [], _ => rfl
  | g :: rest, fields => by
    calc mergeAll (collapse meet g :: collapseAll meet rest) fields
        = mergeAll (collapseAll meet rest) (mergeAll [collapse meet g] fields) := rfl
      _ = mergeAll (membersOf rest) (mergeAll (members g) fields) := by
        rw [mergeAll_collapse g, mergeAll_collapseAll rest]
      _ = mergeAll (members g ++ membersOf rest) fields := (List.foldl_append ..).symm

end

end ObjectType

/-! ## Members that are resolved to objects -/

namespace Resolve

variable {scope : Scope} {depth : Nat} {s next : State} {os : List ObjectType}

/-- Whether type expressions are resolved to objects, one after the other. -/
def YieldObjects (scope : Scope) (depth : Nat) (ts : List TypeExpr) (s : State) (os : List ObjectType)
    (next : State) : Prop :=
  ts.mapM (resolveType scope depth) s = .ok (os.map (·.type)) next

namespace YieldObjects

theorem append {ts us : List TypeExpr} (h : YieldObjects scope depth (ts ++ us) s os next) :
    ∃ os₁ os₂ middle, os = os₁ ++ os₂ ∧ YieldObjects scope depth ts s os₁ middle ∧
      YieldObjects scope depth us middle os₂ next := by
  unfold YieldObjects at h
  rw [List.mapM_append] at h
  obtain ⟨ws₁, middle, h₁, h⟩ := exists_of_bind_eq_ok h
  obtain ⟨ws₂, last, h₂, h⟩ := exists_of_bind_eq_ok h
  injection h with hws hlast
  obtain ⟨os₁, os₂, rfl, rfl, rfl⟩ := List.map_eq_append_iff.mp hws.symm
  exact ⟨os₁, os₂, middle, rfl, h₁, hlast ▸ h₂⟩

theorem uncons {t : TypeExpr} {ts : List TypeExpr} (h : YieldObjects scope depth (t :: ts) s os next) :
    ∃ o os' middle, os = o :: os' ∧ resolveType scope depth t s = .ok o.type middle ∧
      YieldObjects scope depth ts middle os' next := by
  unfold YieldObjects at h
  rw [List.mapM_cons] at h
  obtain ⟨w, middle, hw, h⟩ := exists_of_bind_eq_ok h
  obtain ⟨ws, last, hws, h⟩ := exists_of_bind_eq_ok h
  injection h with heq hlast
  obtain ⟨o, os', rfl, rfl, rfl⟩ := List.map_eq_cons_iff.mp heq.symm
  exact ⟨o, os', middle, rfl, hw, hlast ▸ hws⟩

theorem cons {t : TypeExpr} {ts : List TypeExpr} {o : ObjectType} {middle : State}
    (ht : resolveType scope depth t s = .ok o.type middle) (hts : YieldObjects scope depth ts middle os next) :
    YieldObjects scope depth (t :: ts) s (o :: os) next := by
  unfold YieldObjects
  rw [List.mapM_cons, bind_of_ok ht, bind_of_ok hts]
  rfl

theorem of_nil (h : YieldObjects scope depth [] s os next) : os = [] ∧ next = s := by
  injection h with hws hlast
  exact ⟨List.map_eq_nil_iff.mp hws.symm, hlast.symm⟩

theorem singleton {t : TypeExpr} (h : YieldObjects scope depth [t] s os next) :
    ∃ o, os = [o] ∧ resolveType scope depth t s = .ok o.type next := by
  obtain ⟨o, os', middle, rfl, ho, hnil⟩ := uncons h
  obtain ⟨rfl, rfl⟩ := of_nil hnil
  exact ⟨o, rfl, ho⟩

/-- The members of an intersection are put together as the objects that they are resolved to. -/
theorem resolveMembers {ts : List TypeExpr} (h : YieldObjects scope depth ts s os next) (text : String)
    (merged : List (Field WireType)) :
    resolveMembers (resolveType scope depth) text ts merged s = .ok (os.map (·.identity),
      os.map (·.type.display), ObjectType.mergeAll os merged) next := by
  induction ts generalizing s os merged with
  | nil =>
    obtain ⟨rfl, rfl⟩ := of_nil h
    rfl
  | cons t ts ih =>
    obtain ⟨o, os', middle, rfl, ho, hrest⟩ := uncons h
    exact (bind_of_ok ho).trans (bind_of_ok (ih hrest (mergeFields merged o.fields)))

/-- An intersection whose members are resolved to objects is resolved to their intersection. -/
theorem intersection {ts : List TypeExpr} (h : YieldObjects scope depth ts s os next) :
    resolveType scope (depth + 1) (.intersection ts) s = .ok (ObjectType.meet os).type next :=
  bind_of_ok (h.resolveMembers _ [])

end YieldObjects

/-! ## Groups of members that are resolved to objects -/

open Grouping

mutual

/-- A member, or a group of members, is resolved to what the objects of the members come to, grouped in the same
way. -/
theorem exists_resolveType_collapse :
    ∀ (g : Grouping TypeExpr) {s next : State} {os : List ObjectType} {more : Nat},
      YieldObjects scope depth (members g) s os next → depth + height g ≤ more →
        ∃ shape : Grouping ObjectType, members shape = os ∧
          resolveType scope more (collapse .intersection g) s = .ok (collapse ObjectType.meet shape).type next
  | .member _, _, _, _, _, h, hle => by
    obtain ⟨o, rfl, ho⟩ := YieldObjects.singleton h
    exact ⟨.member o, rfl, resolveType_of_le ho hle⟩
  | .group parts, _, _, _, more, h, hle => by
    rw [height] at hle
    obtain ⟨n, rfl⟩ : ∃ n, more = n + 1 := ⟨more - 1, by omega⟩
    obtain ⟨shapes, hmembers, hshapes⟩ :=
      exists_yieldObjects_collapseAll parts h (by omega : depth + heightOf parts ≤ n)
    exact ⟨.group shapes, hmembers, hshapes.intersection⟩

theorem exists_yieldObjects_collapseAll :
    ∀ (parts : List (Grouping TypeExpr)) {s next : State} {os : List ObjectType} {more : Nat},
      YieldObjects scope depth (membersOf parts) s os next → depth + heightOf parts ≤ more →
        ∃ shapes : List (Grouping ObjectType), membersOf shapes = os ∧
          YieldObjects scope more (collapseAll .intersection parts) s (collapseAll ObjectType.meet shapes) next
  | [], _, _, _, _, h, _ => by
    obtain ⟨rfl, rfl⟩ := YieldObjects.of_nil h
    exact ⟨[], rfl, rfl⟩
  | g :: rest, _, _, _, more, h, hle => by
    rw [heightOf] at hle
    obtain ⟨os₁, os₂, middle, rfl, hg, hrest⟩ := YieldObjects.append h
    obtain ⟨shape, rfl, hshape⟩ := exists_resolveType_collapse g hg (by omega : depth + height g ≤ more)
    obtain ⟨shapes, rfl, hshapes⟩ :=
      exists_yieldObjects_collapseAll rest hrest (by omega : depth + heightOf rest ≤ more)
    exact ⟨shape :: shapes, rfl, .cons hshape hshapes⟩

end

/-- An intersection whose members are resolved to objects is resolved to an object that has a field for each name
that occurs in theirs, the last one, where the name occurs first; and it has the same fields if members that stand
side by side are put into intersections of their own, anywhere and to any depth. -/
theorem resolveType_intersection_merges {members : List TypeExpr}
    (h : YieldObjects scope depth members s os next) :
    (∀ more, depth < more →
      resolveType scope more (.intersection members) s = .ok (ObjectType.meet os).type next) ∧
    MergedFrom (os.flatMap (·.fields)) (ObjectType.meet os).fields ∧
    (∀ parts, membersOf parts = members → ∀ more, depth + height (.group parts) ≤ more →
      ∃ o : ObjectType,
        resolveType scope more (.intersection (collapseAll .intersection parts)) s = .ok o.type next ∧
        o.fields = (ObjectType.meet os).fields) ∧
    ∀ shapes : List (Grouping ObjectType), (ObjectType.meet (collapseAll ObjectType.meet shapes)).fields =
      (ObjectType.meet (membersOf shapes)).fields := by
  refine ⟨fun more hmore => resolveType_of_le h.intersection hmore, ?_, ?_,
    fun shapes => ObjectType.mergeAll_collapseAll shapes []⟩
  · rw [ObjectType.fields_meet]
    exact mergedFrom_mergeFields _
  · rintro parts rfl more hle
    rw [height] at hle
    obtain ⟨n, rfl⟩ : ∃ n, more = n + 1 := ⟨more - 1, by omega⟩
    obtain ⟨shapes, rfl, hshapes⟩ :=
      exists_yieldObjects_collapseAll parts h (by omega : depth + heightOf parts ≤ n)
    exact ⟨_, hshapes.intersection, ObjectType.mergeAll_collapseAll shapes []⟩

/-- An inline object with fields of keyword types. -/
def inlineOf (fields : List (String × String)) : TypeExpr :=
  .object (fields.map fun f => ⟨f.1, .keyword f.2, false, none, none, ⟨"m.ts", .zero, .zero⟩⟩)

def inlineObject (fields : List (String × Primitive)) : ObjectType :=
  ⟨"m", none, [], fields.map fun f => ⟨f.1, .primitive f.2, true, none⟩⟩

/-- The first member has a field twice, and the members after it stand together. -/
theorem resolveType_intersection_merges_repeated : ∃ s os,
    YieldObjects ⟨[], .default⟩ 2 [inlineOf [("a", "string"), ("b", "string"), ("a", "number")],
      inlineOf [("b", "number"), ("c", "string")], inlineOf [("a", "boolean")]] s os s ∧
    (ObjectType.meet os).fields.map (fun f => (f.name, f.type)) =
      [("a", .primitive .boolean), ("b", .primitive .number), ("c", .primitive .string)] ∧
    ∃ o : ObjectType, resolveType ⟨[], .default⟩ 4 (.intersection
        [inlineOf [("a", "string"), ("b", "string"), ("a", "number")], .intersection
          [inlineOf [("b", "number"), ("c", "string")], inlineOf [("a", "boolean")]]]) s = .ok o.type s ∧
      o.fields = (ObjectType.meet os).fields := by
  have h : YieldObjects ⟨[], .default⟩ 2 [inlineOf [("a", "string"), ("b", "string"), ("a", "number")],
      inlineOf [("b", "number"), ("c", "string")], inlineOf [("a", "boolean")]] ⟨.empty, .ofOrigin "m"⟩
      [inlineObject [("a", .string), ("b", .string), ("a", .number)],
        inlineObject [("b", .number), ("c", .string)], inlineObject [("a", .boolean)]]
      ⟨.empty, .ofOrigin "m"⟩ := rfl
  obtain ⟨-, -, hgrouped, -⟩ := resolveType_intersection_merges h
  exact ⟨_, _, h, rfl, hgrouped [.member _, .group [.member _, .member _]] rfl 4 (by decide)⟩

end Resolve

end AnnotatedApi
