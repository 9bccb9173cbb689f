import Mathlib.Data.List.Basic

/-!
# Named members in insertion order

An object's members are a list of named values. Lookup takes the first member
with a name; assignment replaces that member where it stands, or adds it at the
end. Only `List.lookup` observes a member list, so two lists with the same
lookups are interchangeable.
-/

namespace Hadouken

universe u v w
variable {κ : Type u} {ν : Type v} [DecidableEq κ] [BEq κ] [LawfulBEq κ]

/-- Write one member, keeping its place when it exists already. -/
def assign (key : κ) (value : ν) : List (κ × ν) → List (κ × ν)
  | [] => [(key, value)]
  | (name, old) :: rest =>
      if key = name then (name, value) :: rest else (name, old) :: assign key value rest

/-- Lookup compares names by equality. -/
theorem lookup_cons_ite (key : κ) (member : κ × ν) (rest : List (κ × ν)) :
    (member :: rest).lookup key = if key = member.1 then some member.2 else rest.lookup key := by
  obtain ⟨name, value⟩ := member
  by_cases same : key = name
  · simp [same]
  · simp [List.lookup_cons, same, beq_false_of_ne same]

/-- The member just written reads back. -/
@[simp] theorem lookup_assign_self (key : κ) (value : ν) (members : List (κ × ν)) :
    (assign key value members).lookup key = some value := by
  induction members with
  | nil => simp [assign]
  | cons member rest ih =>
    by_cases same : key = member.1
    · simp [assign, lookup_cons_ite, same]
    · simp [assign, lookup_cons_ite, same, ih]

/-- Writing one member leaves every other name as it was. -/
@[simp] theorem lookup_assign_of_ne (key other : κ) (value : ν) (members : List (κ × ν))
    (distinct : other ≠ key) :
    (assign key value members).lookup other = members.lookup other := by
  induction members with
  | nil => simp [assign, lookup_cons_ite, distinct]
  | cons member rest ih =>
    by_cases same : key = member.1
    · subst same
      simp [assign, lookup_cons_ite, distinct]
    · simp [assign, lookup_cons_ite, same, ih]

/-- Both lookup laws in one equation. -/
theorem lookup_assign (key other : κ) (value : ν) (members : List (κ × ν)) :
    (assign key value members).lookup other =
      if other = key then some value else members.lookup other := by
  by_cases same : other = key
  · subst same; simp
  · simp [same]

omit [BEq κ] [LawfulBEq κ] in
/-- Writing a name again replaces what was written first. -/
theorem assign_assign (key : κ) (first second : ν) (members : List (κ × ν)) :
    assign key second (assign key first members) = assign key second members := by
  induction members with
  | nil => simp [assign]
  | cons member rest ih =>
    by_cases same : key = member.1
    · simp [assign, same]
    · simp [assign, same, ih]

/-- A name is looked up successfully exactly when some member carries it. -/
theorem lookup_isSome_iff (key : κ) (members : List (κ × ν)) :
    (members.lookup key).isSome = true ↔ key ∈ members.map Prod.fst := by
  induction members with
  | nil => simp
  | cons member rest ih =>
    by_cases same : key = member.1
    · simp [lookup_cons_ite, same]
    · simp [lookup_cons_ite, same, ih]

/-- What is looked up is among the members. -/
theorem mem_of_lookup (key : κ) (value : ν) (members : List (κ × ν))
    (found : members.lookup key = some value) : (key, value) ∈ members := by
  induction members with
  | nil => simp at found
  | cons member rest ih =>
    rw [lookup_cons_ite] at found
    split at found
    · rename_i same
      obtain rfl := Option.some.inj found
      rw [same]
      exact List.mem_cons_self
    · exact List.mem_cons_of_mem _ (ih found)

/-- Where no name occurs twice, every member is looked up. -/
theorem lookup_of_mem (key : κ) (value : ν) (members : List (κ × ν))
    (nodup : (members.map Prod.fst).Nodup) (inside : (key, value) ∈ members) :
    members.lookup key = some value := by
  induction members with
  | nil => simp at inside
  | cons member rest ih =>
    obtain ⟨unused, restNodup⟩ := List.nodup_cons.mp nodup
    rw [lookup_cons_ite]
    rcases List.mem_cons.mp inside with rfl | later
    · rw [if_pos rfl]
    · have distinct : key ≠ member.1 := fun same =>
        unused (same ▸ List.mem_map_of_mem (f := Prod.fst) later)
      rw [if_neg distinct, ih restNodup later]

omit [BEq κ] [LawfulBEq κ] in
/-- A new name is added at the end. -/
theorem assign_of_not_mem (key : κ) (value : ν) (members : List (κ × ν))
    (fresh : key ∉ members.map Prod.fst) : assign key value members = members ++ [(key, value)] := by
  induction members with
  | nil => rfl
  | cons member rest ih =>
    have distinct : key ≠ member.1 := fun same => fresh (by simp [same])
    have later : key ∉ rest.map Prod.fst := fun inside => fresh (by simp [inside])
    rw [assign, if_neg distinct, ih later, List.cons_append]

/-- Writing what is there already changes nothing. -/
theorem assign_of_lookup (key : κ) (value : ν) (members : List (κ × ν))
    (found : members.lookup key = some value) : assign key value members = members := by
  induction members with
  | nil => cases found
  | cons member rest ih =>
    rw [lookup_cons_ite] at found
    by_cases same : key = member.1
    · rw [if_pos same] at found
      obtain rfl := Option.some.inj found
      rw [assign, if_pos same]
    · rw [if_neg same] at found
      rw [assign, if_neg same, ih found]

omit [BEq κ] [LawfulBEq κ] in
/-- Assignment brings in at most the member it writes. -/
theorem mem_of_mem_assign (key : κ) (value : ν) (members : List (κ × ν)) (member : κ × ν)
    (inside : member ∈ assign key value members) : member ∈ members ∨ member = (key, value) := by
  induction members with
  | nil => exact .inr (List.mem_singleton.mp inside)
  | cons first rest ih =>
    rw [assign] at inside
    split at inside
    · rename_i same
      rcases List.mem_cons.mp inside with rfl | later
      · exact .inr (by rw [same])
      · exact .inl (List.mem_cons_of_mem _ later)
    · rcases List.mem_cons.mp inside with rfl | later
      · exact .inl List.mem_cons_self
      · exact (ih later).imp_left (List.mem_cons_of_mem _)

omit [BEq κ] [LawfulBEq κ] in
/-- Assignment goes along with a change of all values. -/
theorem assign_map {μ : Type w} (change : ν → μ) (key : κ) (value : ν) (members : List (κ × ν)) :
    assign key (change value) (members.map fun member => (member.1, change member.2)) =
      (assign key value members).map fun member => (member.1, change member.2) := by
  induction members with
  | nil => rfl
  | cons member rest ih =>
    by_cases same : key = member.1
    · simp [assign, same]
    · simp [assign, same, ih]

/-- Lookup goes along with a change of all values. -/
theorem lookup_map {μ : Type w} (change : ν → μ) (key : κ) (members : List (κ × ν)) :
    (members.map fun member => (member.1, change member.2)).lookup key =
      (members.lookup key).map change := by
  induction members with
  | nil => rfl
  | cons member rest ih =>
    rw [List.map_cons, lookup_cons_ite, lookup_cons_ite, ih]
    split <;> rfl

/-- Assignment keeps the names in place, and adds at most the one it writes. -/
theorem keys_assign (key : κ) (value : ν) (members : List (κ × ν)) :
    (assign key value members).map Prod.fst =
      if key ∈ members.map Prod.fst then members.map Prod.fst
      else members.map Prod.fst ++ [key] := by
  induction members with
  | nil => simp [assign]
  | cons member rest ih =>
    by_cases same : key = member.1
    · simp [assign, same]
    · simp only [assign, same, if_false, List.map_cons, ih, List.mem_cons, false_or]
      split <;> rfl

/-- No name occurs twice after an assignment when none did before. -/
theorem nodup_keys_assign (key : κ) (value : ν) (members : List (κ × ν))
    (nodup : (members.map Prod.fst).Nodup) : ((assign key value members).map Prod.fst).Nodup := by
  rw [keys_assign]
  split
  · exact nodup
  · rename_i fresh
    simp only [List.nodup_append, nodup, List.nodup_cons, List.not_mem_nil, not_false_eq_true,
      List.nodup_nil, and_self, true_and, List.mem_singleton]
    intro name member other same
    exact fun equal => fresh (same ▸ equal ▸ member)

/-- Write several members, one after another. -/
def assignEach (written members : List (κ × ν)) : List (κ × ν) :=
  written.foldl (fun members member => assign member.1 member.2 members) members

/-- Names that are not written stay as they were. -/
theorem lookup_assignEach_of_not_mem (written members : List (κ × ν)) (key : κ)
    (fresh : key ∉ written.map Prod.fst) :
    (assignEach written members).lookup key = members.lookup key := by
  induction written generalizing members with
  | nil => rfl
  | cons member rest ih =>
    rw [List.map_cons, List.mem_cons, not_or] at fresh
    obtain ⟨distinct, later⟩ := fresh
    rw [assignEach, List.foldl_cons]
    exact (ih _ later).trans (lookup_assign_of_ne _ _ _ _ distinct)

/-- Where no name is written twice, each reads back. -/
theorem lookup_assignEach_of_mem (written members : List (κ × ν)) (key : κ) (value : ν)
    (nodup : (written.map Prod.fst).Nodup) (inside : (key, value) ∈ written) :
    (assignEach written members).lookup key = some value := by
  induction written generalizing members with
  | nil => simp at inside
  | cons member rest ih =>
    obtain ⟨unused, restNodup⟩ := List.nodup_cons.mp nodup
    rw [assignEach, List.foldl_cons]
    rcases List.mem_cons.mp inside with rfl | later
    · have kept := lookup_assignEach_of_not_mem rest (assign key value members) key unused
      exact kept.trans (lookup_assign_self key value members)
    · exact ih _ restNodup later

/-- Writing keeps all that is there exactly when each name that is there is
written with its own value. -/
theorem assignEach_keeps_iff (written members : List (κ × ν))
    (nodup : (written.map Prod.fst).Nodup) :
    (∀ key value, members.lookup key = some value →
        (assignEach written members).lookup key = some value) ↔
      ∀ member ∈ written, ∀ value, members.lookup member.1 = some value → value = member.2 := by
  constructor
  · intro keeps member inside value found
    have read := lookup_assignEach_of_mem written members member.1 member.2 nodup inside
    have kept := keeps member.1 value found
    rw [read] at kept
    exact (Option.some.inj kept).symm
  · intro own key value found
    by_cases inside : key ∈ written.map Prod.fst
    · obtain ⟨member, memberInside, rfl⟩ := List.mem_map.mp inside
      rw [own member memberInside value found]
      exact lookup_assignEach_of_mem written members member.1 member.2 nodup memberInside
    · rw [lookup_assignEach_of_not_mem written members key inside, found]

end Hadouken
