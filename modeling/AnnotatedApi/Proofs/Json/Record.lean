import AnnotatedApi.Json.Record
import AnnotatedApi.Proofs.Json.Value
import AnnotatedApi.Proofs.Lists

/-!
# Records that are written and read again

A written record has its members in the order of their names and leaves some out, so that it is read
as a record with every member where it was written. What is read from a record has the properties that
all values inside the record have, whether or not it was written like this.
-/

namespace AnnotatedApi.Json

set_option autoImplicit false

variable {α : Type}

/-! ## What is written -/

/-- Whether the members have some of these names, in their order and each once. -/
def NamedBy (names : List String) (members : List (String × Json)) : Prop :=
  (members.map Prod.fst).Sublist names

namespace NamedBy

variable {names : List String} {members : List (String × Json)}

theorem nil : NamedBy names [] := List.nil_sublist _

theorem cons {name : String} {v : Json} (h : NamedBy names members) :
    NamedBy (name :: names) ((name, v) :: members) := h.cons_cons name

theorem member {name : String} {v : Json} (h : NamedBy names members) :
    NamedBy (name :: names) (member name v ++ members) := h.cons_cons name

theorem memberIfSome {name : String} {v : Option Json} (h : NamedBy names members) :
    NamedBy (name :: names) (memberIfSome name v ++ members) := by
  cases v with
  | none => exact List.Sublist.cons name h
  | some v => exact h.cons_cons name

theorem memberIfAny {name : String} {items : List Json} (h : NamedBy names members) :
    NamedBy (name :: names) (memberIfAny name items ++ members) := by
  cases items with
  | nil => exact List.Sublist.cons name h
  | cons item rest => exact h.cons_cons name

theorem last {name : String} {v : Json} : NamedBy [name] (Json.member name v) := .refl _

theorem lastIfSome {name : String} {v : Option Json} : NamedBy [name] (Json.memberIfSome name v) := by
  cases v with
  | none => exact nil
  | some v => exact .refl _

theorem skip {name : String} (h : NamedBy names members) : NamedBy (name :: names) members :=
  List.Sublist.cons name h

theorem append {names' : List String} {members' : List (String × Json)} (h : NamedBy names members)
    (h' : NamedBy names' members') : NamedBy (names ++ names') (members ++ members') := by
  rw [NamedBy, List.map_append]
  exact List.Sublist.append h h'

theorem get?_eq_none (h : NamedBy names members) {key : String} (hkey : key ∉ names) :
    Table.get? members key = none :=
  (Table.get?_eq_none_iff members key).mpr fun hmem => hkey (h.subset hmem)

theorem distinctNames_eq_true {names : List String} (h : names.Nodup) : distinctNames names = true := by
  induction names with
  | nil => rfl
  | cons name rest ih =>
    obtain ⟨hname, hrest⟩ := List.nodup_cons.mp h
    simp [distinctNames, hname, ih hrest]

theorem knownMembers? (h : NamedBy names members) (hnames : names.Nodup) (known : List String) :
    knownMembers? known members = some (members.filter fun m => known.contains m.1) := by
  have hsub : ((members.filter fun m => known.contains m.1).map Prod.fst).Sublist
      (members.map Prod.fst) := List.filter_sublist.map _
  rw [Json.knownMembers?, if_pos (distinctNames_eq_true (hsub.nodup (h.nodup hnames)))]

/-- What is read of the known members is read of members that are found where they were written. -/
theorem bind_knownMembers? {f : Fields → Option α} {a : α} (h : NamedBy names members)
    (hnames : names.Nodup) {known : List String}
    (hf : ∀ fields : Fields, (∀ key ∈ known, fields.get? key = Table.get? members key) →
      f fields = some a) : (Json.knownMembers? known members).bind f = some a := by
  rw [h.knownMembers? hnames, Option.bind_some]
  exact hf _ fun key hkey => Table.get?_filter members fun _ => by simpa using hkey

theorem bind_record? {f : Fields → Option α} {a : α} (h : NamedBy names members) (hnames : names.Nodup)
    (hf : ∀ fields : Fields, (∀ key, fields.get? key = Table.get? members key) → f fields = some a) :
    ((object members).record? .plain names).bind f = some a := by
  have hall : (members.filter fun m => names.contains m.1) = members :=
    List.filter_eq_self.mpr fun m hm => by simpa using h.subset (List.mem_map_of_mem hm)
  rw [record?, h.knownMembers? hnames, hall, Option.bind_some]
  exact hf members fun _ => rfl

theorem kindAndRest? (h : NamedBy names members) (hkind : "kind" ∉ names) (latitude : Latitude)
    (kinds : List String) (kind : String) :
    (object (("kind", string kind) :: members)).kindAndRest? latitude kinds =
      some (kind, object members) := by
  have hne : ∀ m ∈ members, m.1 ≠ "kind" := fun m hm heq =>
    hkind (heq ▸ h.subset (List.mem_map_of_mem hm))
  have hnone : members.filter (·.1 == "kind") = [] :=
    List.filter_eq_nil_iff.mpr fun m hm => by simpa using hne m hm
  have hall : members.filter (·.1 != "kind") = members :=
    List.filter_eq_self.mpr fun m hm => by simpa using hne m hm
  simp [Json.kindAndRest?, hnone, hall, kindOf?]

end NamedBy

/-! ## Looking up what is written -/

@[simp] theorem get?_member (name key : String) (v : Json) :
    Table.get? (member name v) key = if name = key then some v else none := rfl

@[simp] theorem get?_memberIfSome (name key : String) (v : Option Json) :
    Table.get? (memberIfSome name v) key = if name = key then v else none := by
  cases v <;> simp [memberIfSome, Table.get?]

@[simp] theorem get?_memberIfAny (name key : String) (items : List Json) :
    Table.get? (memberIfAny name items) key =
      if name = key ∧ items ≠ [] then some (.array items) else none := by
  cases items <;> simp [memberIfAny, Table.get?]

theorem mem_memberIfAny {name : String} {items : List Json} {item : Json} (h : item ∈ items) :
    (name, .array items) ∈ memberIfAny name items := by
  cases items with
  | nil => cases h
  | cons => exact List.mem_singleton_self _

theorem list?_written_as {read : Json → Option α} {write : α → Json} {f : α → α} {as : List α}
    (h : ∀ a ∈ as, read (write a) = some (f a)) :
    list? read (.array (as.map write)) = some (as.map f) := by
  rw [list?, List.mapM_map]
  induction as with
  | nil => rfl
  | cons a as ih =>
    obtain ⟨ha, has⟩ := List.forall_mem_cons.mp h
    simp [Function.comp_apply, ha, ih has]

theorem list?_written {read : Json → Option α} {write : α → Json} {as : List α}
    (h : ∀ a ∈ as, read (write a) = some a) : list? read (.array (as.map write)) = some as := by
  simpa using list?_written_as (f := id) h

@[simp] theorem asNat?_ofNat (n : Nat) : asNat? (.ofNat n) = some n := by
  simp [ofNat, asNat?]

theorem word32?_ofNat {n : Nat} (h : n < Nat.pow 2 32) : word32? (.ofNat n) = some n := by
  simp_all [word32?]

theorem asString?_string {o : Option String} :
    ∀ s ∈ o, asString? (.string s) = some s ∧ string s ≠ .null := fun _ _ => ⟨rfl, by simp⟩

namespace Fields

variable {fields : Fields} {name : String} {read : Json → Option α} {write : α → Json}

theorem orElse_written {v : Json} {a default : α} (hget : fields.get? name = some v)
    (h : read v = some a) : fields.orElse name default read = some a := by
  rw [orElse, hget]
  exact h

theorem optional_of_ne_null {v : Json} (hget : fields.get? name = some v) (h : v ≠ .null) :
    fields.optional name read = (read v).map some := by
  rw [optional, hget]
  cases v with
  | null => exact absurd rfl h
  | _ => rfl

theorem optional_written {o : Option α} (hget : fields.get? name = o.map write)
    (h : ∀ a ∈ o, read (write a) = some a ∧ write a ≠ .null) :
    fields.optional name read = some o := by
  cases o with
  | none => rw [optional, hget, Option.map_none]
  | some a =>
    obtain ⟨hread, hnull⟩ := h a rfl
    rw [optional_of_ne_null hget hnull, hread, Option.map_some]

/-- What an optional value is read as: a present `null` stands for an absent one. -/
def present? : Option Json → Option Json
  | some .null => none
  | v => v

theorem present?_eq_self_iff {o : Option Json} : present? o = o ↔ o ≠ some .null := by
  cases o with
  | none => simp [present?]
  | some v => cases v <;> simp [present?]

theorem optional_settled {o : Option Json} (hget : fields.get? name = o) (h : ∀ v ∈ o, v.IsSettled) :
    fields.optional name anything? = some (present? o) := by
  cases o with
  | none => simp [optional, hget, present?]
  | some v =>
    have hsettled : v.settled = v := h v rfl
    by_cases hnull : v = .null
    · simp [optional, hget, present?, hnull]
    · rw [optional_of_ne_null hget hnull, anything?, hsettled, Option.map_some,
        present?_eq_self_iff.mpr (by simp [hnull])]

/-- A list that is written unless it is empty, and empty unless it is written. -/
theorem list_written {as : List α}
    (hget : fields.get? name = if as.map write ≠ [] then some (.array (as.map write)) else none)
    (h : ∀ a ∈ as, read (write a) = some a) : fields.orElse name [] (list? read) = some as := by
  rw [orElse, hget]
  cases as with
  | nil => rfl
  | cons a as => exact list?_written h

end Fields

/-! ## Values inside values -/

/-- Whether what is written is read again, wherever it stands and however deep values are read. -/
def ReadBack (readWithin : Nat → Latitude → Json → Option α) (write : α → Json) (a : α) : Prop :=
  ∀ depth latitude, (write a).depth < depth → readWithin depth latitude (write a) = some a

namespace ReadBack

variable {readWithin : Nat → Latitude → Json → Option α} {write : α → Json} {a : α} {as : List α}
  {members : List (String × Json)} {depth : Nat}

/-- It is enough to look at one step of reading, which goes less deep from there. -/
theorem of_step {readWith : Latitude → (Json → Option α) → Json → Option α}
    (hstep : ∀ depth latitude v,
      readWithin (depth + 1) latitude v = readWith latitude (readWithin depth .nested) v)
    (h : ∀ depth latitude, (write a).depth ≤ depth →
      readWith latitude (readWithin depth .nested) (write a) = some a) :
    ReadBack readWithin write a := by
  intro depth latitude hdepth
  cases depth with
  | zero => exact absurd hdepth (Nat.not_lt_zero _)
  | succ depth =>
    rw [hstep]
    exact h depth latitude (Nat.le_of_lt_succ hdepth)

theorem inside (name : String) (h : ReadBack readWithin write a) (hmem : (name, write a) ∈ members)
    (hdepth : (object members).depth ≤ depth) : readWithin depth .nested (write a) = some a :=
  h depth .nested (Nat.lt_of_lt_of_le (depth_member_lt name hmem) hdepth)

theorem element_inside (name : String) (h : ReadBack readWithin write a) {items : List Json}
    (ha : write a ∈ items) (hmem : (name, .array items) ∈ members)
    (hdepth : (object members).depth ≤ depth) : readWithin depth .nested (write a) = some a := by
  refine h depth .nested ?_
  have hitem : (write a).depth < (Json.array items).depth := depth_item_lt ha
  have hlist : (Json.array items).depth < (object members).depth := depth_member_lt name hmem
  omega

theorem list_inside (name : String) (h : ∀ a ∈ as, ReadBack readWithin write a)
    (hmem : (name, .array (as.map write)) ∈ members) (hdepth : (object members).depth ≤ depth) :
    list? (readWithin depth .nested) (.array (as.map write)) = some as :=
  list?_written fun a ha => (h a ha).element_inside name (List.mem_map_of_mem ha) hmem hdepth

/-- Records that stand in a list have members that are read back. -/
theorem item_inside (name inner : String) (h : ReadBack readWithin write a) {items : List Json}
    {item : List (String × Json)} (ha : (inner, write a) ∈ item) (hitem : object item ∈ items)
    (hmem : (name, .array items) ∈ members) (hdepth : (object members).depth ≤ depth) :
    readWithin depth .nested (write a) = some a := by
  refine h depth .nested ?_
  have hvalue : (write a).depth < (object item).depth := depth_member_lt inner ha
  have hrecord : (object item).depth < (Json.array items).depth := depth_item_lt hitem
  have hlist : (Json.array items).depth < (object members).depth := depth_member_lt name hmem
  omega

end ReadBack

/-! ## What is read -/

/-- Whether the items or the members of a value have a property. -/
def Inside (P : Json → Prop) : Json → Prop
  | .array items => ∀ v ∈ items, P v
  | .object members => ∀ m ∈ members, P m.2
  | _ => True

/-- A property of settled values that what is inside them has too. -/
structure Hereditary (P : Json → Prop) : Prop where
  isSettled : ∀ v, P v → v.IsSettled
  inside : ∀ v, P v → v.Inside P

theorem hereditary_isSettled : Hereditary IsSettled where
  isSettled _ h := h
  inside
    | .array _, h => isSettled_array_iff.mp h
    | .object _, h => (isSettled_object_iff.mp h).2
    | .null, _ | .bool _, _ | .number _, _ | .string _, _ => trivial

theorem hereditary_isValue : Hereditary IsValue where
  isSettled _ h := h.isSettled
  inside
    | .array _, h => fun v hv =>
      ⟨isSettled_array_iff.mp h.isSettled v hv, fun n hn => h.finite n (numbers_item_subset hv hn)⟩
    | .object _, h => fun m hm =>
      ⟨(isSettled_object_iff.mp h.isSettled).2 m hm, fun n hn => h.finite n (numbers_member_subset hm hn)⟩
    | .null, _ | .bool _, _ | .number _, _ | .string _, _ => trivial

def Fields.All (P : Json → Prop) (fields : Fields) : Prop := ∀ e ∈ fields, P e.2

/-- Whether what is read from a value with a property has another one. -/
def Reads (P : Json → Prop) (read : Json → Option α) (Q : α → Prop) : Prop :=
  ∀ v a, P v → read v = some a → Q a

namespace Inside

variable {P : Json → Prop} {fields : Fields} {names : List String} {latitude : Latitude} {v : Json}

theorem knownMembers {members : List (String × Json)} (hv : (object members).Inside P)
    (h : knownMembers? names members = some fields) : fields.All P := by
  rw [knownMembers?] at h
  split at h
  · obtain rfl := Option.some.inj h
    exact fun e he => hv e (List.mem_filter.mp he).1
  · cases h

theorem record (hv : v.Inside P) (h : v.record? latitude names = some fields) : fields.All P := by
  cases v with
  | object members => exact hv.knownMembers h
  | array items =>
    rw [record?] at h
    split at h
    · obtain rfl := Option.some.inj h
      exact fun e he => hv _ (List.of_mem_zip he).2
    · cases h
  | _ => cases h

theorem rest (hv : v.Inside P) {kinds : List String} {kind : String} {rest : Json}
    (h : v.kindAndRest? latitude kinds = some (kind, rest)) : rest.Inside P := by
  cases v with
  | object members =>
    rw [kindAndRest?] at h
    split at h
    · obtain ⟨_, -, heq⟩ := Option.map_eq_some_iff.mp h
      obtain ⟨-, rfl⟩ := Prod.mk.inj heq
      exact fun m hm => hv m (List.mem_filter.mp hm).1
    · cases h
  | array items =>
    cases items with
    | nil => cases h
    | cons item items =>
      obtain ⟨_, -, heq⟩ := Option.map_eq_some_iff.mp h
      obtain ⟨-, rfl⟩ := Prod.mk.inj heq
      exact fun m hm => hv m (List.mem_cons_of_mem _ hm)
  | _ => cases h

end Inside

namespace Hereditary

variable {P : Json → Prop}

theorem anything (hP : Hereditary P) : Reads P anything? P := by
  intro v a hv h
  obtain rfl : v.settled = a := Option.some.inj h
  exact (hP.isSettled v hv).symm ▸ hv

theorem default (hP : Hereditary P) :
    Reads (fun v => P v ∧ v ≠ .null) anything? fun d => P d ∧ d ≠ .null := by
  intro v d ⟨hv, hnull⟩ h
  refine ⟨hP.anything v d hv h, ?_⟩
  obtain rfl : v.settled = d := Option.some.inj h
  exact fun heq => hnull (settled_eq_null_iff.mp heq)

end Hereditary

theorem reads_word32 (P : Json → Prop) : Reads P word32? (· < Nat.pow 2 32) := by
  intro v n _ h
  simpa using (Option.filter_eq_some_iff.mp h).2

namespace Reads

variable {P : Json → Prop} {Q : α → Prop} {read : Json → Option α} {fields : Fields} {name : String}

theorem list (h : Reads P read Q) (hP : Hereditary P) : Reads P (list? read) fun as => ∀ a ∈ as, Q a := by
  intro v as hv has a ha
  cases v with
  | array items =>
    obtain ⟨item, hitem, hread⟩ := exists_of_mem_mapM has a ha
    exact h item a (hP.inside _ hv item hitem) hread
  | _ => cases has

theorem needed (h : Reads P read Q) (hfields : fields.All P) {a : α}
    (ha : fields.needed name read = some a) : Q a := by
  obtain ⟨v, hget, hread⟩ := Option.bind_eq_some_iff.mp ha
  exact h v a (hfields _ (Table.mem_of_get? hget)) hread

theorem orElse (h : Reads P read Q) (hfields : fields.All P) {a default : α} (hdefault : Q default)
    (ha : fields.orElse name default read = some a) : Q a := by
  rw [Fields.orElse] at ha
  split at ha
  · rename_i v hget
    exact h v a (hfields _ (Table.mem_of_get? hget)) ha
  · obtain rfl : default = a := Option.some.inj ha
    exact hdefault

/-- What is read of an option is not read from `null`. -/
theorem optional (h : Reads (fun v => P v ∧ v ≠ .null) read Q) (hfields : fields.All P) {o : Option α}
    (ho : fields.optional name read = some o) : ∀ a ∈ o, Q a := by
  rintro a rfl
  rw [Fields.optional] at ho
  split at ho
  · cases ho
  · cases ho
  · rename_i v hnull hget
    obtain ⟨a', hread, ha'⟩ := Option.map_eq_some_iff.mp ho
    obtain rfl : a' = a := Option.some.inj ha'
    exact h v a' ⟨hfields _ (Table.mem_of_get? hget), hnull⟩ hread

theorem of_and {p : Json → Prop} (h : Reads P read Q) : Reads (fun v => P v ∧ p v) read Q :=
  fun v a hv => h v a hv.1

end Reads

end AnnotatedApi.Json
