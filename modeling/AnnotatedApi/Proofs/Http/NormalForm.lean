import AnnotatedApi.Http.Route

/-!
# The normal form of routes

A route is told by its segments: taking a normal form apart gives the segments that it was put together from,
and the segments of two texts joined at a slash are those of the first and then those of the second. So the
normal form is a canonical one, and joining routes is appending their segments.
-/

namespace AnnotatedApi.Route

set_option autoImplicit false

/-! ## Parts -/

theorem parts_slash (rest : List Char) : parts ('/' :: rest) = [] :: parts rest := by
  simp [parts]

theorem exists_parts_eq_cons (cs : List Char) : ∃ part others, parts cs = part :: others := by
  cases cs with
  | nil => exact ⟨_, _, rfl⟩
  | cons c rest =>
    unfold parts
    split
    · exact ⟨_, _, rfl⟩
    · split <;> exact ⟨_, _, rfl⟩

theorem parts_cons_of_ne {c : Char} (hc : c ≠ '/') {rest part : List Char} {others : List (List Char)}
    (h : parts rest = part :: others) : parts (c :: rest) = (c :: part) :: others := by
  simp [parts, hc, h]

theorem slash_notMem_of_mem_parts (cs : List Char) : ∀ part ∈ parts cs, '/' ∉ part := by
  induction cs with
  | nil => simp [parts]
  | cons c rest ih =>
    by_cases hc : c = '/'
    · rw [hc, parts_slash]
      simpa using ih
    · obtain ⟨part, others, h⟩ := exists_parts_eq_cons rest
      rw [parts_cons_of_ne hc h]
      rw [h] at ih
      obtain ⟨hpart, hothers⟩ := List.forall_mem_cons.mp ih
      exact List.forall_mem_cons.mpr ⟨by simp [Ne.symm hc, hpart], hothers⟩

theorem parts_of_slash_notMem {cs : List Char} (h : '/' ∉ cs) : parts cs = [cs] := by
  induction cs with
  | nil => rfl
  | cons c rest ih =>
    rw [List.mem_cons, not_or] at h
    exact parts_cons_of_ne (Ne.symm h.1) (ih h.2)

/-- A slash separates the parts before it from those behind it. -/
theorem parts_append_slash (a b : List Char) : parts (a ++ '/' :: b) = parts a ++ parts b := by
  induction a with
  | nil => exact parts_slash b
  | cons c a ih =>
    by_cases hc : c = '/'
    · rw [hc, List.cons_append, parts_slash, parts_slash, ih, List.cons_append]
    · obtain ⟨part, others, h⟩ := exists_parts_eq_cons a
      rw [h, List.cons_append] at ih
      rw [List.cons_append, parts_cons_of_ne hc ih, parts_cons_of_ne hc h, List.cons_append]

/-- Parts are taken apart as they were put together. -/
theorem parts_append_flatMap {part : List Char} {others : List (List Char)} (hpart : '/' ∉ part)
    (hothers : ∀ p ∈ others, '/' ∉ p) : parts (part ++ others.flatMap ('/' :: ·)) = part :: others := by
  induction others generalizing part with
  | nil => simpa using parts_of_slash_notMem hpart
  | cons p others ih =>
    obtain ⟨hp, hothers⟩ := List.forall_mem_cons.mp hothers
    rw [List.flatMap_cons, List.cons_append, parts_append_slash, parts_of_slash_notMem hpart, ih hp hothers,
      List.singleton_append]

/-- Put together again, the parts are the text behind a slash. -/
theorem flatMap_parts (cs : List Char) : (parts cs).flatMap ('/' :: ·) = '/' :: cs := by
  induction cs with
  | nil => rfl
  | cons c rest ih =>
    by_cases hc : c = '/'
    · rw [hc, parts_slash, List.flatMap_cons, ih, List.singleton_append]
    · obtain ⟨part, others, h⟩ := exists_parts_eq_cons rest
      rw [h, List.flatMap_cons, List.cons_append] at ih
      rw [parts_cons_of_ne hc h, List.flatMap_cons, List.cons_append, List.cons_append,
        (List.cons.inj ih).2]

/-! ## Segments -/

/-- What a normal form is made of. -/
structure IsSegment (segment : List Char) : Prop where
  ne_nil : segment ≠ []
  slash_notMem : '/' ∉ segment
  braced_eq : braced segment = segment

theorem braced_colon (c : Char) (rest : List Char) :
    braced (':' :: c :: rest) = '\x7b' :: (c :: rest ++ ['\x7d']) :=
  rfl

theorem braced_eq_self {part : List Char} (h : ∀ c rest, part ≠ ':' :: c :: rest) : braced part = part := by
  unfold braced
  split
  · exact absurd rfl (h _ _)
  · rfl

theorem isSegment_braced {part : List Char} (hne : part ≠ []) (hslash : '/' ∉ part) :
    IsSegment (braced part) := by
  by_cases h : ∃ c rest, part = ':' :: c :: rest
  · obtain ⟨c, rest, rfl⟩ := h
    rw [braced_colon]
    exact ⟨by simp, by simpa using hslash, rfl⟩
  · have hself : braced part = part := braced_eq_self fun c rest hpart => h ⟨c, rest, hpart⟩
    rw [hself]
    exact ⟨hne, hslash, hself⟩

theorem isSegment_of_mem_segments (path : List Char) : ∀ s ∈ segments path, IsSegment s := by
  intro s hs
  obtain ⟨part, hpart, rfl⟩ := List.mem_map.mp hs
  obtain ⟨hmem, hne⟩ := List.mem_filter.mp hpart
  exact isSegment_braced (by simpa using hne) (slash_notMem_of_mem_parts path part hmem)

theorem segments_append_slash (a b : List Char) :
    segments (a ++ '/' :: b) = segments a ++ segments b := by
  simp [segments, parts_append_slash]

/-- Behind a slash, parts that are not empty and have their tokens in braces are the segments. -/
theorem segments_eq_of_parts {cs : List Char} {ps : List (List Char)} (hparts : parts cs = [] :: ps)
    (hne : [] ∉ ps) (hbraced : ∀ p ∈ ps, braced p = p) : segments cs = ps := by
  have hfilter : ps.filter (!·.isEmpty) = ps :=
    List.filter_eq_self.mpr fun p hp => by simpa using fun hempty : p = [] => hne (hempty ▸ hp)
  have hmap : ps.map braced = ps.map id := List.map_congr_left hbraced
  rw [segments, hparts, List.filter_cons_of_neg (by simp), hfilter, hmap, List.map_id]

section OfSegments

variable {ss : List (List Char)}

theorem ofSegments_of_ne_nil (h : ss ≠ []) : ofSegments ss = ss.flatMap ('/' :: ·) := by
  cases ss with
  | nil => exact absurd rfl h
  | cons s ss => rfl

theorem parts_ofSegments (hne : ss ≠ []) (h : ∀ s ∈ ss, IsSegment s) : parts (ofSegments ss) = [] :: ss := by
  have hempty : '/' ∉ ([] : List Char) := List.not_mem_nil
  rw [ofSegments_of_ne_nil hne]
  exact parts_append_flatMap hempty fun s hs => (h s hs).slash_notMem

theorem nil_notMem_of_isSegment (h : ∀ s ∈ ss, IsSegment s) : [] ∉ ss := fun hmem => (h _ hmem).ne_nil rfl

/-- A normal form is taken apart into the segments that it is made of. -/
theorem segments_ofSegments (h : ∀ s ∈ ss, IsSegment s) : segments (ofSegments ss) = ss := by
  by_cases hne : ss = []
  · rw [hne]
    rfl
  · exact segments_eq_of_parts (parts_ofSegments hne h) (nil_notMem_of_isSegment h)
      fun s hs => (h s hs).braced_eq

theorem exists_ofSegments_eq_cons (ss : List (List Char)) : ∃ rest, ofSegments ss = '/' :: rest := by
  cases ss <;> exact ⟨_, rfl⟩

end OfSegments

theorem segments_normalizeChars (path : List Char) : segments (normalizeChars path) = segments path :=
  segments_ofSegments (isSegment_of_mem_segments path)

theorem joinChars_eq (a b : List Char) : joinChars a b = ofSegments (segments a ++ segments b) := by
  rw [joinChars, normalizeChars, segments_append_slash]

theorem segments_joinChars (a b : List Char) : segments (joinChars a b) = segments a ++ segments b := by
  rw [joinChars, segments_normalizeChars, segments_append_slash]

theorem joinChars_assoc (a b c : List Char) : joinChars (joinChars a b) c = joinChars a (joinChars b c) :=
  calc joinChars (joinChars a b) c
      = ofSegments ((segments a ++ segments b) ++ segments c) := by
        rw [joinChars_eq (joinChars a b) c, segments_joinChars]
    _ = ofSegments (segments a ++ (segments b ++ segments c)) := by rw [List.append_assoc]
    _ = joinChars a (joinChars b c) := by rw [joinChars_eq a (joinChars b c), segments_joinChars]

/-! ## Shape -/

/-- The shape of a normal form: a slash in front, none twice in a row and none at the end, unless the
route is the root. -/
structure IsNormal (route : List Char) : Prop where
  leading : ['/'] <+: route
  single : ¬ ['/', '/'] <:+: route
  trailing : ['/'] <:+ route → route = ['/']

/-- In a text that begins with a slash, a slash has a part behind it. -/
theorem mem_of_parts_eq {cs a b : List Char} {ps : List (List Char)} (hcs : cs = a ++ '/' :: b)
    (hps : parts cs = [] :: ps) : ∀ p ∈ parts b, p ∈ ps := by
  obtain ⟨part, others, h⟩ := exists_parts_eq_cons a
  rw [hcs, parts_append_slash, h, List.cons_append] at hps
  rw [← (List.cons.inj hps).2]
  exact fun p hp => List.mem_append_right _ hp

theorem isNormal_ofSegments {ss : List (List Char)} (h : ∀ s ∈ ss, IsSegment s) : IsNormal (ofSegments ss) := by
  by_cases hne : ss = []
  · subst hne
    exact ⟨List.prefix_rfl, by decide, fun _ => rfl⟩
  have hparts := parts_ofSegments hne h
  have hnil := nil_notMem_of_isSegment h
  refine ⟨?leading, ?single, ?trailing⟩
  case leading =>
    obtain ⟨rest, hrest⟩ := exists_ofSegments_eq_cons ss
    exact ⟨rest, hrest.symm⟩
  case single =>
    rintro ⟨a, b, hab⟩
    have hpart : [] ∈ parts ('/' :: b) := by simp [parts_slash]
    exact hnil (mem_of_parts_eq (a := a) (by simpa using hab.symm) hparts [] hpart)
  case trailing =>
    rintro ⟨a, ha⟩
    exact (hnil (mem_of_parts_eq ha.symm hparts [] (by simp [parts]))).elim

/-- In a text of that shape, no part behind the leading slash is empty but that of the root. -/
theorem IsNormal.nil_notMem_parts {rest : List Char} (h : IsNormal ('/' :: rest)) (hrest : rest ≠ []) :
    [] ∉ parts rest := by
  intro hmem
  obtain ⟨xs, ys, hparts⟩ := List.append_of_mem hmem
  have hcs := flatMap_parts rest
  rw [hparts, List.flatMap_append, List.flatMap_cons, List.singleton_append] at hcs
  cases ys with
  | nil =>
    have hroot := h.trailing ⟨_, hcs⟩
    exact hrest (List.cons.inj hroot).2
  | cons y ys => exact h.single ⟨_, y ++ ys.flatMap ('/' :: ·), by simpa using hcs⟩

/-- What has the shape of a normal form, and its tokens in braces, is one. -/
theorem normalizeChars_eq_self {route : List Char} (h : IsNormal route)
    (hbraced : ∀ part ∈ parts route, braced part = part) : normalizeChars route = route := by
  obtain ⟨rest, rfl⟩ := h.leading
  rw [List.singleton_append] at *
  by_cases hrest : rest = []
  · subst hrest
    rfl
  have hsegments : segments ('/' :: rest) = parts rest :=
    segments_eq_of_parts (parts_slash rest) (h.nil_notMem_parts hrest) fun part hpart =>
      hbraced part (by simp [parts_slash, hpart])
  have hne : parts rest ≠ [] := by
    obtain ⟨part, others, hparts⟩ := exists_parts_eq_cons rest
    simp [hparts]
  rw [normalizeChars, hsegments, ofSegments_of_ne_nil hne, flatMap_parts]

theorem normalizeChars_eq_self_iff (route : List Char) :
    normalizeChars route = route ↔ IsNormal route ∧ ∀ part ∈ parts route, braced part = part := by
  have hsegments := isSegment_of_mem_segments route
  refine ⟨fun h => ?_, fun h => normalizeChars_eq_self h.1 h.2⟩
  refine ⟨h ▸ isNormal_ofSegments hsegments, ?_⟩
  by_cases hne : segments route = []
  · have hroot : route = ['/'] := by rw [← h, normalizeChars, hne, ofSegments]
    rw [hroot]
    decide
  · have hparts : parts route = [] :: segments route := by
      have := parts_ofSegments hne hsegments
      rwa [← normalizeChars, h] at this
    rw [hparts]
    exact List.forall_mem_cons.mpr ⟨rfl, fun s hs => (hsegments s hs).braced_eq⟩

/-! ## On texts -/

@[simp] theorem toList_normalize (path : String) : (normalize path).toList = normalizeChars path.toList :=
  String.toList_ofList

@[simp] theorem toList_join (base path : String) : (join base path).toList = joinChars base.toList path.toList :=
  String.toList_ofList

/-- The normal form is canonical, and joining routes is appending their segments. -/
theorem normalize_canonical (a b c : String) :
    normalize (normalize a) = normalize a ∧ IsNormal (normalize a).toList ∧
      (normalize a = a ↔ IsNormal a.toList ∧ ∀ part ∈ parts a.toList, braced part = part) ∧
    join a b = join (normalize a) (normalize b) ∧ join a b = normalize (join a b) ∧
      segments (join a b).toList = segments a.toList ++ segments b.toList ∧
    join (join a b) c = join a (join b c) := by
  refine ⟨?idempotent, ?shape, ?fixed, ?parts, ?joined, ?segments, ?assoc⟩
  case idempotent =>
    rw [← String.toList_inj, toList_normalize, toList_normalize, normalizeChars, segments_normalizeChars,
      ← normalizeChars]
  case shape =>
    rw [toList_normalize]
    exact isNormal_ofSegments (isSegment_of_mem_segments _)
  case fixed => rw [← String.toList_inj, toList_normalize, normalizeChars_eq_self_iff]
  case parts =>
    rw [← String.toList_inj]
    simp only [toList_join, toList_normalize, joinChars_eq, segments_normalizeChars]
  case joined =>
    rw [← String.toList_inj, toList_normalize, toList_join, normalizeChars, segments_joinChars, joinChars_eq]
  case segments => rw [toList_join, segments_joinChars]
  case assoc =>
    rw [← String.toList_inj]
    simp only [toList_join, joinChars_assoc]

example : join "api/" "pets//:id" = "/api/pets/\x7bid\x7d" := by decide

end AnnotatedApi.Route
