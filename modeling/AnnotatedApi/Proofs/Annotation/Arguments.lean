import AnnotatedApi.Annotation.Argument
import AnnotatedApi.Proofs.Http.Grammar
import AnnotatedApi.Proofs.Json.Value
import AnnotatedApi.Proofs.Lists
import AnnotatedApi.Proofs.Text.Blank

/-!
# Arguments that fit

What an argument has to be is said twice in a definition: by its type and by its validator. Both are stated
here as properties of the argument, and the check of one argument is shown to accept what has them. The check
of a list then reports a position for each supplied argument that has them not, for each required one that is
left out, and for each one too many. That the arity alone tells whether a required argument is left out rests
on the definition: the required arguments stand before the optional ones.
-/

namespace AnnotatedApi.Annotation

set_option autoImplicit false

/-! ## What an argument is -/

/-- Whether the argument is a text, as a name or in quotes. -/
def Argument.Spells (x : Argument) (text : String) : Prop :=
  x = .identifier text ∨ x = .literal (.string text)

/-- The arguments of a type. A text in quotes will do for a name. -/
inductive ArgumentType.Holds : ArgumentType → Argument → Prop where
  | any (x : Argument) : Holds .any x
  | name {x : Argument} {text : String} (h : x.Spells text) : Holds .identifier x
  | string (text : String) : Holds .string (.literal (.string text))
  | number (n : Json.Number) : Holds .number (.literal (.number n))
  | boolean (b : Bool) : Holds .boolean (.literal (.bool b))
  | object (members : List (String × Json)) : Holds .object (.literal (.object members))

/-- What a validator asks of a text: a route, a verb in letters of either case or the asterisk, more than white
space. No text is a status code. -/
def Validator.ApprovesText : Validator → String → Prop
  | routePath, text => Route.IsRoute text.toList
  | httpMethod, text => text = "*" ∨ ∃ verb : Verb, text.toList.map Char.toUpper = verb.name.toList
  | httpStatus, _ => False
  | nonEmpty, text => ∃ c ∈ text.toList, Text.isBlank c = false

inductive Validator.Approves : Validator → Argument → Prop where
  | text {v : Validator} {x : Argument} {text : String} (hx : x.Spells text) (h : v.ApprovesText text) :
    Approves v x
  | status {code : Nat} (hlow : 100 ≤ code) (hhigh : code ≤ 599) :
    Approves .httpStatus (.literal (.ofNat code))

/-- An argument of the type, approved by the validator if there is one. -/
structure ArgumentSpec.Admits (spec : ArgumentSpec) (x : Argument) : Prop where
  type : spec.type.Holds x
  validator : ∀ v ∈ spec.validator, v.Approves x

/-! ## The check of one argument -/

theorem Argument.asText?_eq_some_iff {x : Argument} {text : String} :
    x.asText? = some text ↔ x.Spells text := by
  unfold Argument.asText? Argument.Spells
  cases x with
  | identifier name => simp
  | literal v => cases v <;> simp [Json.asString?]

theorem ArgumentType.fits_iff (type : ArgumentType) (x : Argument) :
    type.fits x = true ↔ type.Holds x := by
  constructor
  · fun_cases ArgumentType.fits type x with
    | case1 x => exact fun _ => .any x
    | case2 name => exact fun _ => .name (.inl rfl)
    | case3 text => exact fun _ => .name (.inr rfl)
    | case4 text => exact fun _ => .string text
    | case5 n => exact fun _ => .number n
    | case6 b => exact fun _ => .boolean b
    | case7 members => exact fun _ => .object members
    | case8 => exact fun h => absurd h Bool.false_ne_true
  · rintro (_ | ⟨rfl | rfl⟩ | _ | _ | _ | _) <;> rfl

theorem isSome_ofText?_iff (text : String) : (Verb.ofText? text).isSome = true ↔
    text = "*" ∨ ∃ verb : Verb, text.toList.map Char.toUpper = verb.name.toList := by
  have hall : ∀ verb : Verb, verb ∈ Verb.all := by
    intro verb
    cases verb <;> decide
  unfold Verb.ofText?
  split
  · rename_i hany
    exact iff_of_true rfl (.inl hany)
  · rename_i hany
    simp only [List.find?_isSome, beq_iff_eq, or_iff_right hany]
    constructor
    · rintro ⟨verb, -, hname⟩
      exact ⟨verb, hname.symm⟩
    · rintro ⟨verb, hname⟩
      exact ⟨verb, hall verb, hname.symm⟩

theorem Validator.fault?_of_spells {x : Argument} {text : String} (hx : x.Spells text) {v : Validator}
    (hv : v ≠ .httpStatus) : v.fault? x = none ↔ v.ApprovesText text := by
  have htext : x.asText? = some text := Argument.asText?_eq_some_iff.mpr hx
  cases v with
  | routePath =>
    rw [Validator.fault?, htext, ApprovesText, ← Route.faultOf?_eq_none_iff_isRoute]
    exact Option.map_eq_none_iff
  | httpMethod =>
    rw [Validator.fault?, htext, ApprovesText, ← isSome_ofText?_iff, Option.bind_some]
    cases Verb.ofText? text <;> simp
  | httpStatus => exact absurd rfl hv
  | nonEmpty =>
    have hblank : (Text.trim text).isEmpty = true ↔ ∀ c ∈ text.toList, Text.isBlank c = true := by
      rw [← Text.trimChars_eq_nil_iff, Text.trim]
      simp
    rw [Validator.fault?, htext, ApprovesText]
    simp [hblank]

theorem Validator.fault?_ne_none {x : Argument} (hx : x.asText? = none) {v : Validator}
    (hv : v ≠ .httpStatus) : v.fault? x ≠ none := by
  cases v with
  | httpStatus => exact absurd rfl hv
  | _ => simp [Validator.fault?, hx]

theorem Validator.fault?_httpStatus (x : Argument) : Validator.httpStatus.fault? x = none ↔
    ∃ code : Nat, 100 ≤ code ∧ code ≤ 599 ∧ x = .literal (.ofNat code) := by
  have hvalue : ∀ code, x.value.asNat? = some code ↔ x = .literal (.ofNat code) := by
    intro code
    cases x with
    | identifier name => simp [Argument.value, Json.asNat?]
    | literal v => simp [Argument.value, Json.asNat?_eq_some_iff]
  rw [Validator.fault?]
  constructor
  · intro h
    split at h
    · rename_i code hcode
      split at h
      · rename_i hrange
        exact ⟨code, hrange.1, hrange.2, (hvalue code).mp hcode⟩
      · cases h
    · cases h
  · rintro ⟨code, hlow, hhigh, hx⟩
    rw [(hvalue code).mpr hx]
    exact if_pos ⟨hlow, hhigh⟩

/-- A validator finds no fault with the arguments that it approves, and with no others. -/
theorem Validator.fault?_eq_none_iff (v : Validator) (x : Argument) : v.fault? x = none ↔ v.Approves x := by
  constructor
  · intro h
    by_cases hv : v = .httpStatus
    · subst hv
      obtain ⟨code, hlow, hhigh, rfl⟩ := (fault?_httpStatus x).mp h
      exact .status hlow hhigh
    · cases hx : x.asText? with
      | none => exact absurd h (fault?_ne_none hx hv)
      | some text =>
        have hspells : x.Spells text := Argument.asText?_eq_some_iff.mp hx
        exact .text hspells ((fault?_of_spells hspells hv).mp h)
  · rintro (⟨hspells, htext⟩ | ⟨hlow, hhigh⟩)
    · have hv : v ≠ .httpStatus := by
        rintro rfl
        exact htext
      exact (fault?_of_spells hspells hv).mpr htext
    · exact (fault?_httpStatus _).mpr ⟨_, hlow, hhigh, rfl⟩

theorem ArgumentSpec.fault?_some_eq_none_iff (spec : ArgumentSpec) (x : Argument) :
    spec.fault? (some x) = none ↔ spec.Admits x := by
  have htype := spec.type.fits_iff x
  rw [ArgumentSpec.fault?]
  by_cases hfits : spec.type.fits x = true
  · rw [if_neg (by simp [hfits]), Option.map_eq_none_iff, Option.bind_eq_none_iff]
    constructor
    · intro h
      exact ⟨htype.mp hfits, fun v hv => (v.fault?_eq_none_iff x).mp (h v hv)⟩
    · intro h v hv
      exact (v.fault?_eq_none_iff x).mpr (h.validator v hv)
  · rw [if_pos (by simpa using hfits)]
    refine iff_of_false (by simp) fun h => hfits (htype.mpr h.type)

/-! ## Definitions that pass their own check -/

namespace Definition

variable {d : Definition}

/-- Required arguments stand before optional ones. -/
theorem exists_required_optional (h : d.fault? = none) : ∃ required optional : List ArgumentSpec,
    d.arguments = required ++ optional ∧ (∀ spec ∈ required, spec.optional = false) ∧
      ∀ spec ∈ optional, spec.optional = true := by
  have hnone : (d.arguments.dropWhile (!·.optional)).find? (!·.optional) = none := by
    cases hfind : (d.arguments.dropWhile (!·.optional)).find? (!·.optional) with
    | none => rfl
    | some argument =>
      rw [fault?, hfind] at h
      split_ifs at h
  refine ⟨d.arguments.takeWhile (!·.optional), d.arguments.dropWhile (!·.optional),
    List.takeWhile_append_dropWhile.symm, fun spec hspec => ?_, fun spec hspec => ?_⟩
  · have hmem := List.mem_takeWhile_imp hspec
    simpa using hmem
  · have hoptional := List.find?_eq_none.mp hnone spec hspec
    simpa using hoptional

/-! ## The check of a list -/

/-- What is wrong at a position: the argument there is refused, or it is required and left out, or there are
more arguments than are declared. -/
inductive Misfit (d : Definition) (arguments : List Argument) (i : Nat) : Prop where
  | refused {spec : ArgumentSpec} {x : Argument} (hspec : d.arguments[i]? = some spec)
    (hx : arguments[i]? = some x) (h : ¬ spec.Admits x)
  | omitted {spec : ArgumentSpec} (hspec : d.arguments[i]? = some spec) (hrequired : spec.optional = false)
    (h : arguments.length ≤ i)
  | surplus (hdeclared : d.arguments.length ≤ i) (h : i < arguments.length)

/-- The positions that the check reports. -/
def badPositions (d : Definition) (arguments : List Argument) : List Nat :=
  (d.mismatches arguments).map (·.position)

theorem badPositions_eq (d : Definition) (arguments : List Argument) : d.badPositions arguments =
    (d.arguments.zipIdx.filterMap fun (spec, i) => (spec.fault? arguments[i]?).map fun _ => i) ++
      List.range' d.arguments.length (arguments.length - d.arguments.length) := by
  rw [badPositions, mismatches, List.map_append, List.map_filterMap, List.map_map]
  simp [Function.comp_def]

/-- Positions are reported in order. -/
theorem badPositions_pairwise (d : Definition) (arguments : List Argument) :
    (d.badPositions arguments).Pairwise (· < ·) := by
  rw [badPositions_eq]
  refine List.pairwise_append.mpr ⟨?_, List.pairwise_lt_range', ?_⟩
  · refine List.pairwise_filterMap.mpr ((pairwise_zipIdx d.arguments).imp ?_)
    rintro ⟨spec, i⟩ ⟨spec', j⟩ hij a ha b hb
    obtain ⟨-, -, rfl⟩ := Option.map_eq_some_iff.mp ha
    obtain ⟨-, -, rfl⟩ := Option.map_eq_some_iff.mp hb
    exact hij
  · intro i hi j hj
    obtain ⟨⟨spec, k⟩, hk, hik⟩ := List.mem_filterMap.mp hi
    obtain ⟨-, -, rfl⟩ := Option.map_eq_some_iff.mp hik
    have hlt : k < d.arguments.length := by simpa using List.snd_lt_of_mem_zipIdx hk
    have hle : d.arguments.length ≤ j := (List.mem_range'_1.mp hj).1
    omega

/-- The reported positions are those at which something is wrong. -/
theorem mem_badPositions_iff (d : Definition) (arguments : List Argument) (i : Nat) :
    i ∈ d.badPositions arguments ↔ d.Misfit arguments i := by
  have hdeclared : (∃ p ∈ d.arguments.zipIdx, ((p.1.fault? arguments[p.2]?).map fun _ => p.2) = some i) ↔
      ∃ spec, d.arguments[i]? = some spec ∧ spec.fault? arguments[i]? ≠ none := by
    constructor
    · rintro ⟨⟨spec, k⟩, hk, hmap⟩
      obtain ⟨fault, hfault, rfl⟩ := Option.map_eq_some_iff.mp hmap
      exact ⟨spec, List.mk_mem_zipIdx_iff_getElem?.mp hk, Option.ne_none_iff_exists'.mpr ⟨fault, hfault⟩⟩
    · rintro ⟨spec, hspec, hfault⟩
      obtain ⟨fault, hfault⟩ := Option.ne_none_iff_exists'.mp hfault
      exact ⟨(spec, i), List.mk_mem_zipIdx_iff_getElem?.mpr hspec, by simp [hfault]⟩
  rw [badPositions_eq, List.mem_append, List.mem_filterMap, hdeclared, List.mem_range'_1]
  constructor
  · rintro (⟨spec, hspec, hfault⟩ | ⟨hle, hlt⟩)
    · cases hx : arguments[i]? with
      | none =>
        rw [hx] at hfault
        have hrequired : spec.optional = false := by simpa [ArgumentSpec.fault?] using hfault
        exact .omitted hspec hrequired (List.getElem?_eq_none_iff.mp hx)
      | some x =>
        rw [hx] at hfault
        exact .refused hspec hx fun h => hfault ((spec.fault?_some_eq_none_iff x).mpr h)
    · exact .surplus hle (by omega)
  · rintro (⟨hspec, hx, h⟩ | ⟨hspec, hrequired, h⟩ | ⟨hle, h⟩)
    · refine .inl ⟨_, hspec, ?_⟩
      rw [hx]
      exact fun hfault => h ((ArgumentSpec.fault?_some_eq_none_iff _ _).mp hfault)
    · refine .inl ⟨_, hspec, ?_⟩
      rw [List.getElem?_eq_none h]
      simp [ArgumentSpec.fault?, hrequired]
    · exact .inr ⟨hle, by omega⟩

theorem mismatches_eq_nil_iff (d : Definition) (arguments : List Argument) :
    d.mismatches arguments = [] ↔ ∀ i, ¬ d.Misfit arguments i := by
  have hpositions : d.mismatches arguments = [] ↔ d.badPositions arguments = [] :=
    List.map_eq_nil_iff.symm
  rw [hpositions, List.eq_nil_iff_forall_not_mem]
  exact forall_congr' fun i => not_congr (mem_badPositions_iff d arguments i)

/-- Each of the arguments that fit has a place of its own and is accepted there. -/
theorem exists_admits {arguments : List Argument} (h : d.mismatches arguments = []) {i : Nat} {x : Argument}
    (hx : arguments[i]? = some x) : ∃ spec, d.arguments[i]? = some spec ∧ spec.Admits x := by
  have hfit := (mismatches_eq_nil_iff d arguments).mp h i
  cases hspec : d.arguments[i]? with
  | none =>
    have hbehind : d.arguments.length ≤ i := List.getElem?_eq_none_iff.mp hspec
    have hlt : i < arguments.length := (List.getElem?_eq_some_iff.mp hx).1
    exact absurd (.surplus hbehind hlt) hfit
  | some spec =>
    refine ⟨spec, rfl, ?_⟩
    by_contra hadmits
    exact hfit (.refused hspec hx hadmits)

/-- A definition that passes its own check tells from the number of arguments whether a required one is left
out. -/
theorem required_le_iff (h : d.fault? = none) (n : Nat) : d.requiredArguments ≤ n ↔
    ∀ i spec, d.arguments[i]? = some spec → spec.optional = false → i < n := by
  obtain ⟨required, optional, hsplit, hrequired, hoptional⟩ := exists_required_optional h
  have hcount : d.requiredArguments = required.length := by
    rw [requiredArguments, hsplit, List.countP_append]
    have hall : required.countP (!·.optional) = required.length :=
      List.countP_eq_length.mpr fun spec hspec => by simp [hrequired spec hspec]
    have hnone : optional.countP (!·.optional) = 0 :=
      List.countP_eq_zero.mpr fun spec hspec => by simp [hoptional spec hspec]
    omega
  rw [hcount, hsplit]
  constructor
  · intro hle i spec hspec hspecRequired
    by_contra hlt
    have hbehind : required.length ≤ i := by omega
    rw [List.getElem?_append_right hbehind] at hspec
    have hspecOptional := hoptional spec (List.mem_of_getElem? hspec)
    simp [hspecOptional] at hspecRequired
  · intro hall
    by_contra hlt
    have hn : n < required.length := by omega
    have hspec : (required ++ optional)[n]? = some required[n] := by
      rw [List.getElem?_append_left hn, List.getElem?_eq_getElem hn]
    exact Nat.lt_irrefl n (hall n _ hspec (hrequired _ (List.getElem_mem hn)))

/-- Arguments fit a definition if and only if there are as many as it asks for and allows, and each is of the
type of its place and approved by the validator there. Otherwise the check reports, in order, just the positions
of supplied arguments that are refused, of required ones that are left out and of those beyond the declared
ones. -/
theorem mismatches_spec (h : d.fault? = none) (arguments : List Argument) :
    (d.mismatches arguments = [] ↔
      (d.requiredArguments ≤ arguments.length ∧ arguments.length ≤ d.arguments.length) ∧
        ∀ (i : Nat) (spec : ArgumentSpec) (x : Argument),
          d.arguments[i]? = some spec → arguments[i]? = some x → spec.Admits x) ∧
    (d.badPositions arguments).Pairwise (· < ·) ∧
    ∀ i, i ∈ d.badPositions arguments ↔ d.Misfit arguments i := by
  refine ⟨?_, badPositions_pairwise d arguments, mem_badPositions_iff d arguments⟩
  rw [mismatches_eq_nil_iff, required_le_iff h]
  constructor
  · intro hfits
    refine ⟨⟨?_, ?_⟩, ?_⟩
    · intro i spec hspec hrequired
      by_contra hlt
      exact hfits i (.omitted hspec hrequired (by omega))
    · by_contra hlt
      exact hfits d.arguments.length (.surplus (Nat.le_refl _) (by omega))
    · intro i spec x hspec hx
      by_contra hadmits
      exact hfits i (.refused hspec hx hadmits)
  · rintro ⟨⟨hrequired, hle⟩, hadmits⟩ i (⟨hspec, hx, h⟩ | ⟨hspec, hspecRequired, h⟩ | ⟨hdeclared, h⟩)
    · exact h (hadmits i _ _ hspec hx)
    · have hlt := hrequired i _ hspec hspecRequired
      omega
    · omega

/-- A status code, a route, and a reason that may be left out. -/
def refusal : Definition where
  name := "Refuse"
  targets := [.method]
  arguments := [
    { name := "status", type := .any, validator := some .httpStatus },
    { name := "path", type := .string, validator := some .routePath },
    { name := "reason", type := .string, optional := true, validator := some .nonEmpty }]

/-- Two arguments are enough, so of one the second is missing and the third is not; of four, none but the first
is right. -/
theorem mismatches_spec_refusal :
    let gone : Argument := .literal (.ofNat 410)
    let four : List Argument := [gone, .literal (.string "/\x7b\x7d"), .literal (.string " "), .identifier "more"]
    refusal.fault? = none ∧
      refusal.mismatches [gone, .literal (.string "/pets/\x7bid\x7d")] = [] ∧
      (refusal.Misfit [gone] 1 ∧ ¬ refusal.Misfit [gone] 2) ∧
      ∀ i, refusal.Misfit four i ↔ i = 1 ∨ i = 2 ∨ i = 3 := by
  intro gone four
  have h : refusal.fault? = none := by decide
  obtain ⟨-, -, hone⟩ := mismatches_spec h [gone]
  obtain ⟨-, -, hfour⟩ := mismatches_spec h four
  have hone' : refusal.badPositions [gone] = [1] := by decide
  have hfour' : refusal.badPositions four = [1, 2, 3] := by decide
  refine ⟨h, by decide, ⟨(hone 1).mp (by simp [hone']), fun h2 => ?_⟩, fun i => ?_⟩
  · have hmem := (hone 2).mpr h2
    simp [hone'] at hmem
  · rw [← hfour i, hfour']
    simp

end Definition

end AnnotatedApi.Annotation
