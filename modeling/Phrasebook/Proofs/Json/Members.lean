import Mathlib.Data.List.Forall2
import Phrasebook.Proofs.Json.RoundTrip

/-!
# Members of an object

An object is read member by member. So it says the same in any order of its members and among any others,
and without a member what is taken for a missing one.
-/

namespace Phrasebook.Json

section

variable {α β : Type} {name : Text} {value : Json} {members others : List (Text × Json)}

/-! ## Reading -/

theorem mapM_of_forall₂ {f : β → Option α} {all : List α} {items : List β}
    (h : List.Forall₂ (fun a item => f item = some a) all items) : items.mapM f = some all := by
  induction h with
  | nil => rfl
  | cons hfirst _ ih =>
    rw [List.mapM_cons, hfirst, ih]
    rfl

@[simp] theorem texts?_ofTexts (texts : List Text) : texts? (ofTexts texts) = some texts :=
  mapM_of_forall₂ (List.forall₂_map_right_iff.mpr (List.forall₂_same.mpr fun _ _ => rfl))

@[simp] theorem members?_ofMembers (members : List (Text × Json)) :
    (ofMembers members).members? = some members :=
  mapM_of_forall₂ (List.forall₂_map_right_iff.mpr (List.forall₂_same.mpr fun _ _ => rfl))

theorem record?_ofMembers (names : List Text) (members : List (Text × Json)) :
    (ofMembers members).record? names = some members :=
  members?_ofMembers members

theorem ofMembers_inj : ofMembers members = ofMembers others ↔ members = others := by
  refine ⟨fun h => ?_, congrArg _⟩
  have hmembers := congrArg members? h
  rwa [members?_ofMembers, members?_ofMembers, Option.some.injEq] at hmembers

theorem Legible.read?_write {json : Json} (h : Legible json) : read? json.write = some json := by
  have hread := Json.read?_write h (List.forall_mem_nil _)
  rwa [List.append_nil] at hread

theorem legible_ofMembers (h : ∀ member ∈ members, Legible member.2) : Legible (ofMembers members) := by
  refine .object fun member hmember => ?_
  obtain ⟨named, hnamed, rfl⟩ := List.mem_map.mp hmember
  exact h named hnamed

theorem legible_array_map {write : β → Json} (h : ∀ b, Legible (write b)) (all : List β) :
    Legible (array (all.map write)) := by
  refine .array fun item hitem => ?_
  obtain ⟨b, -, rfl⟩ := List.mem_map.mp hitem
  exact h b

theorem legible_ofTexts (texts : List Text) : Legible (ofTexts texts) := legible_array_map .string texts

/-! ## Editing -/

/-- The members are those that were printed, in any order. Those whose names are `absent` are missing, any
number of others may be among them, and a value may have been changed as far as `change` allows. -/
def MembersEdited (absent : Text → Bool) (change : Text → Json → Json → Prop)
    (printed edited : List (Text × Json)) : Prop :=
  ∃ kept, List.Forall₂ (fun old new => old.1 = new.1 ∧ change old.1 old.2 new.2)
      (printed.filter fun member => !absent member.1) kept ∧
    (edited.filter fun member => printed.any fun old => old.1 = member.1).Perm kept

/-- An object is edited member by member. -/
def Edited (absent : Text → Bool) (change : Text → Json → Json → Prop) (printed edited : Json) : Prop :=
  ∃ members others, printed = ofMembers members ∧ edited = ofMembers others ∧
    MembersEdited absent change members others

section

variable {absent : Text → Bool} {change : Text → Json → Json → Prop}

/-- The members of a name are kept or dropped as one. -/
theorem filter_filter_name (keep : Text → Bool) (name : Text) (all : List (Text × Json)) :
    ((all.filter fun member => keep member.1).filter fun member => member.1 = name) =
      if keep name then all.filter fun member => member.1 = name else [] := by
  rw [List.filter_filter]
  split
  · rename_i hkeep
    refine List.filter_congr fun member _ => ?_
    by_cases heq : member.1 = name
    · rw [heq, hkeep, Bool.and_true]
    · rw [decide_eq_false heq, Bool.false_and]
  · rename_i hdrop
    refine List.filter_eq_nil_iff.mpr fun member _ => ?_
    rw [Bool.and_eq_true, decide_eq_true_eq]
    rintro ⟨rfl, hkeep⟩
    exact hdrop hkeep

/-- A name that is there once has one member. -/
theorem filter_name (hnodup : (members.map Prod.fst).Nodup) (hin : (name, value) ∈ members) :
    (members.filter fun member => member.1 = name) = [(name, value)] := by
  induction members with
  | nil => cases hin
  | cons first rest ih =>
    obtain ⟨hfirst, hrest⟩ := List.nodup_cons.mp hnodup
    rcases List.mem_cons.mp hin with rfl | hin
    · have hnone : (rest.filter fun member => member.1 = name) = [] := by
        refine List.filter_eq_nil_iff.mpr fun member hmember heq => hfirst ?_
        exact List.mem_map.mpr ⟨member, hmember, of_decide_eq_true heq⟩
      rw [List.filter_cons_of_pos (by simp), hnone]
    · have hne : first.1 ≠ name := fun heq => hfirst (heq ▸ List.mem_map_of_mem hin)
      rw [List.filter_cons_of_neg (by simpa using hne), ih hrest hin]

/-- Of a printed member, what an edit has made of it is left, or nothing. -/
theorem MembersEdited.filter_name (h : MembersEdited absent change members others)
    (hnodup : (members.map Prod.fst).Nodup) (hin : (name, value) ∈ members) :
    (absent name = true → (others.filter fun member => member.1 = name) = []) ∧
      (absent name = false → ∃ new, change name value new ∧
        (others.filter fun member => member.1 = name) = [(name, new)]) := by
  obtain ⟨kept, hkept, hperm⟩ := h
  have hknown : (members.any fun old => old.1 = name) = true :=
    List.any_eq_true.mpr ⟨_, hin, decide_eq_true rfl⟩
  have hothers := hperm.filter fun member => member.1 = name
  rw [filter_filter_name (fun known => members.any fun old => old.1 = known), if_pos hknown] at hothers
  have hfrom : List.Forall₂ (fun old new : Text × Json => old.1 = new.1 ∧ change old.1 old.2 new.2)
      ((members.filter fun member => !absent member.1).filter fun member => member.1 = name)
      (kept.filter fun member => member.1 = name) :=
    List.rel_filter (fun old new hsame => by simp only [hsame.1]) hkept
  rw [filter_filter_name (fun known => !absent known), Json.filter_name hnodup hin] at hfrom
  constructor
  · intro habsent
    rw [if_neg (by simp [habsent]), List.forall₂_nil_left_iff] at hfrom
    rw [hfrom] at hothers
    exact hothers.eq_nil
  · intro hpresent
    rw [if_pos (by simp [hpresent]), List.forall₂_cons_left_iff] at hfrom
    obtain ⟨⟨newName, new⟩, rest, ⟨rfl, hchange⟩, hrest, heq⟩ := hfrom
    rw [heq, List.forall₂_nil_left_iff.mp hrest] at hothers
    exact ⟨new, hchange, List.perm_singleton.mp hothers⟩

/-- What is read of a printed member. -/
theorem MembersEdited.field?_eq (h : MembersEdited absent change members others)
    (hnodup : (members.map Prod.fst).Nodup) (hin : (name, value) ∈ members) {read : Json → Option α} {a : α}
    (hread : ∀ new, change name value new → read new = some a) (missing : Option α) :
    field? others name read missing = if absent name then missing else some a := by
  obtain ⟨habsent, hpresent⟩ := h.filter_name hnodup hin
  unfold field?
  cases hname : absent name with
  | true =>
    rw [habsent hname]
    rfl
  | false =>
    obtain ⟨new, hchange, hfilter⟩ := hpresent hname
    rw [hfilter]
    exact hread new hchange

/-- What is read of a printed member that has a standard value. -/
theorem MembersEdited.field?_standard (h : MembersEdited absent change members others)
    (hnodup : (members.map Prod.fst).Nodup) (hin : (name, value) ∈ members) {read : Json → Option α} {a : α}
    (hread : ∀ new, change name value new → read new = some a) (standard : α) :
    field? others name read (some standard) = some (if absent name then standard else a) := by
  rw [h.field?_eq hnodup hin hread, apply_ite some]

end

/-- One member may be changed as `change` allows, and every other one has its value still. -/
def ChangedAt (changed : Text) (change : Json → Json → Prop) (name : Text) (old new : Json) : Prop :=
  if name = changed then change old new else new = old

section

variable {absent : Text → Bool} {changed : Text} {change : Json → Json → Prop}

theorem MembersEdited.field?_changed (h : MembersEdited absent (ChangedAt name change) members others)
    (hnodup : (members.map Prod.fst).Nodup) (hin : (name, value) ∈ members) {read : Json → Option α} {a : α}
    (hread : ∀ new, change value new → read new = some a) (standard : α) :
    field? others name read (some standard) = some (if absent name then standard else a) := by
  refine h.field?_standard hnodup hin (fun new hnew => hread new ?_) standard
  rwa [ChangedAt, if_pos rfl] at hnew

theorem MembersEdited.field?_unchanged (h : MembersEdited absent (ChangedAt changed change) members others)
    (hnodup : (members.map Prod.fst).Nodup) (hname : name ≠ changed) (hin : (name, value) ∈ members)
    {read : Json → Option α} {a : α} (hread : read value = some a) (standard : α) :
    field? others name read (some standard) = some (if absent name then standard else a) := by
  refine h.field?_standard hnodup hin (fun new hnew => ?_) standard
  rw [ChangedAt, if_neg hname] at hnew
  rw [hnew, hread]

end

/-! ## Deleting -/

/-- An object without the members of some names. -/
def without (absent : Text → Bool) (json : Json) : Json :=
  .ofMembers ((json.members?.getD []).filter fun member => !absent member.1)

/-- An object with another value for one name. -/
def mapMember (name : Text) (f : Json → Json) (json : Json) : Json :=
  .ofMembers ((json.members?.getD []).map fun member =>
    (member.1, if member.1 = name then f member.2 else member.2))

theorem without_none (members : List (Text × Json)) :
    (ofMembers members).without (fun _ => false) = ofMembers members := by
  rw [without, members?_ofMembers, Option.getD_some, Bool.not_false, List.filter_true]

section

variable {absent : Text → Bool}

theorem membersEdited_filter {change : Text → Json → Json → Prop} {f : Text × Json → Json}
    (h : ∀ member ∈ members, change member.1 member.2 (f member)) :
    MembersEdited absent change members
      ((members.map fun member => (member.1, f member)).filter fun member => !absent member.1) := by
  refine ⟨_, ?_, List.Perm.of_eq (List.filter_eq_self.mpr fun new hnew => ?_)⟩
  · rw [List.filter_map, List.forall₂_map_right_iff, Function.comp_def, List.forall₂_same]
    exact fun member hmember => ⟨rfl, h member (List.mem_of_mem_filter hmember)⟩
  · obtain ⟨member, hmember, rfl⟩ := List.mem_map.mp (List.mem_of_mem_filter hnew)
    exact List.any_eq_true.mpr ⟨member, hmember, decide_eq_true rfl⟩

/-- To delete members is to edit an object. -/
theorem edited_without {change : Text → Json → Json → Prop}
    (h : ∀ member ∈ members, change member.1 member.2 member.2) :
    Edited absent change (ofMembers members) ((ofMembers members).without absent) := by
  have hedited : MembersEdited absent change members _ := membersEdited_filter h
  rw [List.map_id'] at hedited
  rw [without, members?_ofMembers, Option.getD_some]
  exact ⟨members, _, rfl, rfl, hedited⟩

/-- So it is to delete within a member as well. -/
theorem edited_mapMember_without {changed : Text} {change : Json → Json → Prop} {f : Json → Json}
    (h : ∀ value, (changed, value) ∈ members → change value (f value)) :
    Edited absent (ChangedAt changed change) (ofMembers members)
      (((ofMembers members).mapMember changed f).without absent) := by
  rw [mapMember, without, members?_ofMembers, Option.getD_some, members?_ofMembers, Option.getD_some]
  refine ⟨members, _, rfl, rfl, membersEdited_filter fun member hmember => ?_⟩
  unfold ChangedAt
  split
  · rename_i hname
    exact h member.2 (hname ▸ hmember)
  · rfl

theorem legible_without (h : ∀ member ∈ members, Legible member.2) :
    Legible ((ofMembers members).without absent) := by
  rw [without, members?_ofMembers, Option.getD_some]
  exact legible_ofMembers fun member hmember => h member (List.mem_of_mem_filter hmember)

theorem legible_mapMember_without {changed : Text} {f : Json → Json}
    (h : ∀ member ∈ members, member.1 ≠ changed → Legible member.2)
    (hf : ∀ value, (changed, value) ∈ members → Legible (f value)) :
    Legible (((ofMembers members).mapMember changed f).without absent) := by
  rw [mapMember, members?_ofMembers, Option.getD_some]
  refine legible_without fun new hnew => ?_
  obtain ⟨member, hmember, rfl⟩ := List.mem_map.mp hnew
  split
  · rename_i hname
    exact hf member.2 (hname ▸ hmember)
  · rename_i hname
    exact h member hmember hname

end

end

end Phrasebook.Json
