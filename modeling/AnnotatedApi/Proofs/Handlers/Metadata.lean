import AnnotatedApi.Handlers.Applied
import Mathlib.Data.List.Infix

/-!
# What is recorded of annotations

The annotations of a declaration write values under metadata keys, one after the other: those of repeatable
annotations are gathered in an array, the others replace what is there. What is held under a key in the end
depends on the writes to that key alone, and of these on the last one that replaces and on those behind it. If
that one holds an array, or if there is none, all that is gathered behind it is there, in its order; otherwise
nothing of it is, since a value that is no array takes nothing in.
-/

namespace AnnotatedApi.Applied

set_option autoImplicit false

/-! ## Writes -/

/-- A value that an annotation writes under a key. It is gathered with others or replaces them. -/
structure Write where
  key : String
  value : Json
  gathered : Bool

/-- What annotations write: the arguments of each in their order, and annotation after annotation. -/
def writes (annotations : List Applied) : List Write :=
  annotations.flatMap fun a =>
    a.contributions.map fun (key, value) => ⟨key, value, a.definition.repeatable⟩

def writesTo (annotations : List Applied) (key : String) : List Write :=
  (writes annotations).filter (·.key == key)

/-- An annotation writes, for each declared argument with the key, the value that is supplied, or else the default
if there is one. -/
theorem mem_writesTo {annotations : List Applied} {key : String} {w : Write} : w ∈ writesTo annotations key ↔
    w.key = key ∧ ∃ a ∈ annotations, ∃ (i : Nat) (spec : Annotation.ArgumentSpec),
      a.definition.arguments[i]? = some spec ∧ spec.metadata = some key ∧
      a.contributedValue? spec i = some w.value ∧ w.gathered = a.definition.repeatable := by
  simp only [writesTo, writes, List.mem_filter, List.mem_flatMap, List.mem_map, contributions,
    List.mem_filterMap, Prod.exists, List.mk_mem_zipIdx_iff_getElem?, beq_iff_eq]
  constructor
  · rintro ⟨⟨a, ha, k, value, ⟨spec, i, hspec, h⟩, rfl⟩, rfl⟩
    split at h
    · rename_i hkey hvalue
      cases h
      exact ⟨rfl, a, ha, i, spec, hspec, hkey, hvalue, rfl⟩
    · cases h
  · rintro ⟨rfl, a, ha, i, spec, hspec, hkey, hvalue, hgathered⟩
    refine ⟨⟨a, ha, w.key, w.value, ⟨spec, i, hspec, ?_⟩, ?_⟩, rfl⟩
    · rw [hkey, hvalue]
    · rw [← hgathered]

/-! ## One key -/

namespace Write

/-- The metadata after a write. -/
def into (metadata : Table Json) (w : Write) : Table Json :=
  if w.gathered then gather metadata w.key w.value else metadata.put w.key w.value

/-- What is held under the key of a write after it. -/
def update (held : Option Json) (w : Write) : Option Json :=
  if w.gathered then
    match held with
    | none => some (.array [w.value])
    | some (.array items) => some (.array (items ++ [w.value]))
    | some v => some v
  else some w.value

theorem get?_into_self (metadata : Table Json) (w : Write) :
    (into metadata w).get? w.key = update (metadata.get? w.key) w := by
  unfold into update
  cases w.gathered with
  | false => exact Table.get?_put_self ..
  | true =>
    unfold gather
    cases hheld : metadata.get? w.key with
    | none => exact Table.get?_put_self ..
    | some held =>
      cases held with
      | array items => exact Table.get?_put_self ..
      | _ => exact hheld

theorem get?_into_of_ne (metadata : Table Json) {w : Write} {key : String} (h : w.key ≠ key) :
    (into metadata w).get? key = metadata.get? key := by
  unfold into gather
  split
  · split
    · exact Table.get?_put_of_ne _ h.symm _
    · exact Table.get?_put_of_ne _ h.symm _
    · rfl
  · exact Table.get?_put_of_ne _ h.symm _

end Write

theorem metadataOf_eq (annotations : List Applied) :
    metadataOf annotations = (writes annotations).foldl Write.into [] := by
  have hadd : ∀ metadata a, addTo metadata a =
      (a.contributions.map fun (key, value) => ⟨key, value, a.definition.repeatable⟩ : List Write).foldl
        Write.into metadata := by
    intro metadata a
    rw [List.foldl_map]
    rfl
  rw [metadataOf, writes, List.foldl_flatMap]
  exact List.foldl_ext _ _ _ fun metadata a _ => hadd metadata a

theorem get?_metadataOf (annotations : List Applied) (key : String) :
    (metadataOf annotations).get? key = (writesTo annotations key).foldl Write.update none := by
  have hfold : ∀ (ws : List Write) (metadata : Table Json), (ws.foldl Write.into metadata).get? key =
      (ws.filter (·.key == key)).foldl Write.update (metadata.get? key) := by
    intro ws
    induction ws with
    | nil => exact fun _ => rfl
    | cons w ws ih =>
      intro metadata
      rw [List.foldl_cons, ih]
      by_cases hkey : w.key = key
      · subst hkey
        rw [Write.get?_into_self, List.filter_cons_of_pos (by simp), List.foldl_cons]
      · rw [Write.get?_into_of_ne metadata hkey, List.filter_cons_of_neg (by simpa using hkey)]
  rw [metadataOf_eq, hfold]
  rfl

/-! ## What is held in the end -/

section

variable {ws : List Write}

/-- An array takes in all that is gathered. -/
theorem foldl_update_array (h : ∀ w ∈ ws, w.gathered = true) (items : List Json) :
    ws.foldl Write.update (some (.array items)) = some (.array (items ++ ws.map (·.value))) := by
  induction ws generalizing items with
  | nil => simp
  | cons w ws ih =>
    obtain ⟨hw, hrest⟩ := List.forall_mem_cons.mp h
    have hstep : Write.update (some (.array items)) w = some (.array (items ++ [w.value])) := by
      simp [Write.update, hw]
    rw [List.foldl_cons, hstep, ih hrest, List.map_cons, List.append_assoc, List.singleton_append]

/-- A value that is no array takes nothing in. -/
theorem foldl_update_of_ne_array (h : ∀ w ∈ ws, w.gathered = true) {v : Json}
    (hv : ∀ items, v ≠ .array items) : ws.foldl Write.update (some v) = some v := by
  induction ws with
  | nil => rfl
  | cons w ws ih =>
    obtain ⟨hw, hrest⟩ := List.forall_mem_cons.mp h
    have hstep : Write.update (some v) w = some v := by
      cases v with
      | array items => exact absurd rfl (hv items)
      | _ => simp [Write.update, hw]
    rw [List.foldl_cons, hstep, ih hrest]

/-- What is gathered under a new key begins an array. -/
theorem foldl_update_none (h : ∀ w ∈ ws, w.gathered = true) (hne : ws ≠ []) :
    ws.foldl Write.update none = some (.array (ws.map (·.value))) := by
  cases ws with
  | nil => exact absurd rfl hne
  | cons w ws =>
    obtain ⟨hw, hrest⟩ := List.forall_mem_cons.mp h
    have hstep : Write.update none w = some (.array [w.value]) := by
      simp [Write.update, hw]
    rw [List.foldl_cons, hstep, foldl_update_array hrest, List.map_cons, List.singleton_append]

/-- The last write that replaces what is there. -/
def lastReplacing? (ws : List Write) : Option Write := ws.reverse.find? (!·.gathered)

theorem lastReplacing?_eq_none (h : lastReplacing? ws = none) : ∀ w ∈ ws, w.gathered = true := by
  intro w hw
  have hgathered := List.find?_eq_none.mp h w (List.mem_reverse.mpr hw)
  simpa using hgathered

/-- Behind the last write that replaces, all is gathered. -/
theorem lastReplacing?_eq_some {w : Write} (h : lastReplacing? ws = some w) : ∃ earlier later,
    ws = earlier ++ w :: later ∧ w.gathered = false ∧ ∀ x ∈ later, x.gathered = true := by
  obtain ⟨hw, behind, before, hsplit, hbehind⟩ := List.find?_eq_some_iff_append.mp h
  refine ⟨before.reverse, behind.reverse, ?_, by simpa using hw, ?_⟩
  · have hreverse := congrArg List.reverse hsplit
    simpa using hreverse
  · intro x hx
    simpa using hbehind x (List.mem_reverse.mp hx)

/-- What a write that replaces leaves, once all that comes after it is gathered. -/
theorem foldl_update_replaced (earlier : List Write) {w : Write} {later : List Write} (hw : w.gathered = false) :
    (earlier ++ w :: later).foldl Write.update none = later.foldl Write.update (some w.value) := by
  have hstep : ∀ held, Write.update held w = some w.value := by
    intro held
    simp [Write.update, hw]
  rw [List.foldl_append, List.foldl_cons, hstep]

/-- An array that is there, or nothing, takes in all that is gathered; another value takes in nothing. -/
theorem foldl_update_iff {earlier later : List Write} (hne : later ≠ []) (hlater : ∀ w ∈ later, w.gathered = true) :
    (∃ items, (earlier ++ later).foldl Write.update none = some (.array items) ∧
      later.map (·.value) <:+ items) ↔
      ∀ w, lastReplacing? earlier = some w → ∃ items, w.value = .array items := by
  cases hlast : lastReplacing? earlier with
  | none =>
    have hall : ∀ w ∈ earlier ++ later, w.gathered = true :=
      List.forall_mem_append.mpr ⟨lastReplacing?_eq_none hlast, hlater⟩
    have hheld := foldl_update_none hall (List.append_ne_nil_of_right_ne_nil _ hne)
    rw [List.map_append] at hheld
    refine iff_of_true ⟨_, hheld, List.suffix_append ..⟩ ?_
    intro w hw
    cases hw
  | some w =>
    obtain ⟨before, behind, rfl, hw, hbehind⟩ := lastReplacing?_eq_some hlast
    have hall : ∀ x ∈ behind ++ later, x.gathered = true := List.forall_mem_append.mpr ⟨hbehind, hlater⟩
    rw [List.append_assoc, List.cons_append, foldl_update_replaced before hw]
    constructor
    · rintro ⟨items, hitems, -⟩ w' hw'
      obtain rfl := Option.some.inj hw'
      by_contra harray
      rw [foldl_update_of_ne_array hall fun items hitems => harray ⟨items, hitems⟩] at hitems
      exact harray ⟨items, Option.some.inj hitems⟩
    · intro h
      obtain ⟨items, hitems⟩ := h w rfl
      rw [hitems, foldl_update_array hall, List.map_append, ← List.append_assoc]
      exact ⟨_, rfl, List.suffix_append ..⟩

/-- If nothing is gathered, the last value stays. -/
theorem foldl_update_replacing (h : ∀ w ∈ ws, w.gathered = false) :
    ws.foldl Write.update none = ws.getLast?.map (·.value) := by
  induction ws using List.reverseRecOn with
  | nil => rfl
  | append_singleton ws w _ =>
    have hw : w.gathered = false := h w List.mem_concat_self
    rw [foldl_update_replaced ws hw, List.foldl_nil, List.getLast?_concat, Option.map_some]

end

/-- Values that are gathered, and not replaced afterwards, stand at the end of the array under their key, in their
order, if and only if the last write that replaced something before them wrote an array, or there was none. A
key to which nothing is gathered has the value that was written last. -/
theorem metadataOf_keeps_iff (annotations : List Applied) (key : String) :
    (∀ w, w ∈ writesTo annotations key ↔ w.key = key ∧
      ∃ a ∈ annotations, ∃ (i : Nat) (spec : Annotation.ArgumentSpec),
        a.definition.arguments[i]? = some spec ∧ spec.metadata = some key ∧
        a.contributedValue? spec i = some w.value ∧ w.gathered = a.definition.repeatable) ∧
    (∀ earlier later : List Write, writesTo annotations key = earlier ++ later → later ≠ [] →
      (∀ w ∈ later, w.gathered = true) →
      ((∃ items, (metadataOf annotations).get? key = some (.array items) ∧ later.map (·.value) <:+ items) ↔
        ∀ w, lastReplacing? earlier = some w → ∃ items, w.value = .array items)) ∧
    ((∀ w ∈ writesTo annotations key, w.gathered = false) →
      (metadataOf annotations).get? key = (writesTo annotations key).getLast?.map (·.value)) := by
  rw [get?_metadataOf]
  refine ⟨fun w => mem_writesTo, ?_, foldl_update_replacing⟩
  intro earlier later hwrites hne hlater
  rw [hwrites]
  exact foldl_update_iff hne hlater

/-! ## A value that is lost -/

/-- An annotation whose argument is recorded among the tags. -/
def label : Annotation.Definition where
  name := "Label"
  targets := [.method]
  arguments := [{ name := "text", type := .string, metadata := some "tags" }]

/-- Another one, whose arguments are gathered there. -/
def tag : Annotation.Definition := { label with name := "Tag", repeatable := true }

def mark (definition : Annotation.Definition) (text : String) : Applied :=
  ⟨definition, [.literal (.string text)], .nowhere⟩

theorem metadataOf_keeps_iff_tags :
    let labels := [mark label "a", mark label "b"]
    let tags := [mark tag "x", mark tag "y"]
    (∀ w ∈ writesTo labels "tags", w.gathered = false) ∧
      (metadataOf labels).get? "tags" = some (.string "b") ∧
      writesTo tags "tags" = [] ++ writesTo tags "tags" ∧ writesTo tags "tags" ≠ [] ∧
      (∀ w ∈ writesTo tags "tags", w.gathered = true) ∧
      ∃ items, (metadataOf tags).get? "tags" = some (.array items) ∧
        (writesTo tags "tags").map (·.value) <:+ items := by
  intro labels tags
  obtain ⟨-, -, hlast⟩ := metadataOf_keeps_iff labels "tags"
  obtain ⟨-, hkeeps, -⟩ := metadataOf_keeps_iff tags "tags"
  have hlabels : ∀ w ∈ writesTo labels "tags", w.gathered = false := by
    change ∀ w ∈ [(⟨"tags", .string "a", false⟩ : Write), ⟨"tags", .string "b", false⟩], w.gathered = false
    simp
  have htags : ∀ w ∈ writesTo tags "tags", w.gathered = true := by
    change ∀ w ∈ [(⟨"tags", .string "x", true⟩ : Write), ⟨"tags", .string "y", true⟩], w.gathered = true
    simp
  have hne : writesTo tags "tags" ≠ [] := List.cons_ne_nil _ _
  refine ⟨hlabels, hlast hlabels, rfl, hne, htags, (hkeeps [] _ rfl hne htags).mpr ?_⟩
  intro w hw
  cases hw

/-- A tag behind a label is lost, though both definitions pass their checks and their arguments fit. -/
theorem metadataOf_loses_tag :
    let annotations := [mark label "x", mark tag "y"]
    label.fault? = none ∧ tag.fault? = none ∧
      (∀ a ∈ annotations, a.definition.mismatches a.arguments = []) ∧
      writesTo annotations "tags" = [⟨"tags", .string "x", false⟩, ⟨"tags", .string "y", true⟩] ∧
      (metadataOf annotations).get? "tags" = some (.string "x") := by
  refine ⟨by decide, by decide, ?_, rfl, rfl⟩
  simp only [List.forall_mem_cons]
  exact ⟨rfl, rfl, fun _ h => absurd h List.not_mem_nil⟩

end AnnotatedApi.Applied
