/-
# Ways to write a record

A record may be written with its members in any order, with further members under keys of no field, and
as the list of its fields in the declared order. What `readRecord` finds does not depend on which of them
a document uses, for documents that are refused as well as for those that are read: the values under a
key are the same, and only their number and the first of them count.

Key definitions: `fieldValues`, `Json.SameRecord`.
Key theorems: `collect_perm`, `collect_extended`, `readRecord_ofFields`, `readRecord_sameRecord`,
`collect_cons`.
-/
import Mathlib
import GateCircuit.Document.Node

namespace GateCircuit

section Collect

variable {τ : Type} {names : List String} {lenient : Bool} {members members' : List (Option String × τ)}

/-- The values that stand under a key. -/
def fieldValues (members : List (Option String × τ)) (name : String) : List τ :=
  members.filterMap fun (key, value) => if key = some name then some value else none

/-- Whether the keys of a record are acceptable, and no field is repeated. -/
def acceptable (names : List String) (lenient : Bool) (members : List (Option String × τ)) : Bool :=
  members.all (fun (key, _) => key.any fun k => lenient || names.contains k) &&
    names.all fun name => (fieldValues members name).length ≤ 1

theorem collect_eq (names : List String) (lenient : Bool) (members : List (Option String × τ)) :
    collect names lenient members =
      if acceptable names lenient members then
        some (names.map fun name => (fieldValues members name).head?)
      else none := rfl

theorem fieldValues_cons (key : Option String) (value : τ) (members : List (Option String × τ))
    (name : String) : fieldValues ((key, value) :: members) name =
      if key = some name then value :: fieldValues members name else fieldValues members name := by
  by_cases h : key = some name <;> simp [fieldValues, h]

theorem fieldValues_eq_nil {name : String} (h : ∀ m ∈ members, m.1 ≠ some name) :
    fieldValues members name = [] :=
  List.filterMap_eq_nil_iff.mpr fun m hm => if_neg (h m hm)

/-! ### Order -/

/-- **The order of the members does not matter.** -/
theorem collect_perm (h : members.Perm members') :
    collect names lenient members = collect names lenient members' := by
  have hvalues : ∀ name, (fieldValues members name).Perm (fieldValues members' name) := fun name =>
    h.filterMap _
  have hlen : ∀ name, (fieldValues members name).length = (fieldValues members' name).length :=
    fun name => (hvalues name).length_eq
  have hacceptable : acceptable names lenient members = acceptable names lenient members' := by
    simp only [acceptable, hlen]
    congr 1
    rw [Bool.eq_iff_iff, List.all_eq_true, List.all_eq_true]
    exact ⟨fun hall m hm => hall m (h.mem_iff.mpr hm), fun hall m hm => hall m (h.mem_iff.mp hm)⟩
  rw [collect_eq, collect_eq, hacceptable]
  split
  · rename_i hok
    have hone := List.all_eq_true.mp (Bool.and_eq_true_iff.mp hok).2
    refine congrArg some (List.map_congr_left fun name hname => ?_)
    -- at most one value stands under each key, and a list of one has no other order
    have hle : (fieldValues members' name).length ≤ 1 := of_decide_eq_true (hone name hname)
    have heq : fieldValues members name = fieldValues members' name := by
      match hvalues' : fieldValues members' name, hle with
      | [], _ => exact List.perm_nil.mp (hvalues' ▸ hvalues name)
      | [value], _ => exact List.perm_singleton.mp (hvalues' ▸ hvalues name)
    rw [heq]
  · rfl

/-! ### Further members -/

/-- **Members under keys of no field are skipped.** -/
theorem collect_extended {key : String} (value : τ) (hkey : key ∉ names) :
    collect names true ((some key, value) :: members) = collect names true members := by
  have hvalues : ∀ name ∈ names,
      fieldValues ((some key, value) :: members) name = fieldValues members name := by
    intro name hname
    rw [fieldValues_cons, if_neg]
    rintro h
    exact hkey (Option.some.inj h ▸ hname)
  have hacceptable : acceptable names true ((some key, value) :: members) =
      acceptable names true members := by
    simp only [acceptable, List.all_cons, Option.any_some, Bool.true_or, Bool.true_and]
    congr 1
    rw [Bool.eq_iff_iff, List.all_eq_true, List.all_eq_true]
    exact forall₂_congr fun name hname => by rw [hvalues name hname]
  rw [collect_eq, collect_eq, hacceptable]
  refine if_congr Iff.rfl (congrArg some (List.map_congr_left fun name hname => ?_)) rfl
  rw [hvalues name hname]

/-- What the first member contributes: its value, if the record is acceptable. -/
theorem collect_cons (names : List String) (key : String) (members : List (Option String × τ)) :
    ∃ (ok : Bool) (others : String → Option τ), ∀ value : τ,
      collect names true ((some key, value) :: members) =
        if ok then some (names.map fun name => if key = name then some value else others name)
        else none := by
  refine ⟨members.all (fun (key, _) => key.isSome) && names.all fun name =>
    (fieldValues members name).length + (if key = name then 1 else 0) ≤ 1,
    fun name => (fieldValues members name).head?, fun value => ?_⟩
  have hlen : ∀ name, (fieldValues ((some key, value) :: members) name).length =
      (fieldValues members name).length + if key = name then 1 else 0 := fun name => by
    rw [fieldValues_cons]
    by_cases h : key = name <;> simp [h]
  have hhead : ∀ name, (fieldValues ((some key, value) :: members) name).head? =
      if key = name then some value else (fieldValues members name).head? := fun name => by
    rw [fieldValues_cons]
    by_cases h : key = name <;> simp [h]
  have hkeys : ((some key, value) :: members).all
      (fun (key, _) => key.any fun k => true || names.contains k) =
        members.all fun (key, _) => key.isSome := by
    simp only [List.all_cons, Option.any_some, Bool.true_or, Bool.true_and]
    refine congrArg members.all (funext fun m => ?_)
    cases m.1 <;> rfl
  simp only [collect_eq, acceptable, hkeys, hlen, hhead]

/-! ### Lists of fields -/

/-- The members that write `values` under `names`. -/
theorem map_fieldValues_zip {values : List τ} (hnames : names.Nodup)
    (hlen : values.length = names.length) :
    names.map (fieldValues ((names.zip values).map fun (key, value) => (some key, value))) =
      values.map fun value => [value] := by
  induction names generalizing values with
  | nil => rw [List.length_eq_zero_iff.mp hlen]; rfl
  | cons name names ih =>
    obtain ⟨value, values, rfl⟩ := List.exists_cons_of_length_eq_add_one hlen
    obtain ⟨hname, hnames⟩ := List.nodup_cons.mp hnames
    have hothers : fieldValues ((names.zip values).map fun (key, value) => (some key, value)) name =
        [] := by
      refine fieldValues_eq_nil fun m hm h => hname ?_
      obtain ⟨⟨key, v⟩, hzip, rfl⟩ := List.mem_map.mp hm
      exact Option.some.inj h ▸ (List.of_mem_zip hzip).1
    rw [List.map_cons, List.zip_cons_cons, List.map_cons, List.map_cons, fieldValues_cons,
      if_pos rfl, hothers, ← ih hnames (Nat.succ.inj hlen)]
    refine congrArg _ (List.map_congr_left fun other hother => ?_)
    rw [fieldValues_cons, if_neg]
    rintro h
    exact hname (Option.some.inj h ▸ hother)

end Collect

namespace Json

/-- Two ways to write the same record. -/
inductive SameRecord (names : List String) : Json → Json → Prop
  /-- the members stand in another order -/
  | reordered {members members' : List (Option String × Json)} (h : members.Perm members') :
    SameRecord names (.object members) (.object members')
  /-- there is one more member, under a key of no field -/
  | extended {members : List (Option String × Json)} {key : String} (value : Json)
    (hkey : key ∉ names) :
    SameRecord names (.object members) (.object ((some key, value) :: members))
  /-- the fields are written as a list -/
  | listed {values : List Json} (hlen : values.length = names.length) :
    SameRecord names (.ofFields (names.zip values)) (.array values)

variable {names : List String}

theorem readRecord_array {values : List Json} (hlen : values.length = names.length)
    (lenient : Bool) : readRecord names lenient (Json.array values) = some (values.map some) := by
  change (if values.length ≤ names.length then _ else _) = _
  rw [if_pos hlen.le, hlen, Nat.sub_self, List.replicate_zero, List.append_nil]

/-- A record of all its fields is read as their values. -/
theorem readRecord_ofFields {values : List Json} (hnames : names.Nodup)
    (hlen : values.length = names.length) :
    readRecord names true (ofFields (names.zip values)) = some (values.map some) := by
  have hvalues := map_fieldValues_zip hnames hlen
  change collect names true ((names.zip values).map _) = _
  rw [collect_eq, if_pos]
  · have hheads := congrArg (List.map List.head?) hvalues
    rw [List.map_map, List.map_map] at hheads
    exact congrArg some hheads
  · have hlengths := congrArg (List.all · fun list => decide (list.length ≤ 1)) hvalues
    simp only [List.all_map] at hlengths
    rw [acceptable, Bool.and_eq_true_iff]
    refine ⟨?_, ?_⟩
    · simp [List.all_map]
    · refine hlengths.trans ?_
      simp

/-- **What is read of a record does not depend on how it is written.** -/
theorem readRecord_sameRecord {j j' : Json} (hnames : names.Nodup) (h : SameRecord names j j') :
    readRecord names true j = readRecord names true j' := by
  cases h with
  | reordered h => exact collect_perm h
  | extended value hkey => exact (collect_extended value hkey).symm
  | listed hlen => rw [readRecord_ofFields hnames hlen, readRecord_array hlen]

end Json
end GateCircuit
