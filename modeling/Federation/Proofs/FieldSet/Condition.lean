import Federation.Normalization.Assembly

/-!
# Conditions by coordinates

The table of conditional fields lists, under each coordinates, the conditions that the field sets make of this field in
the order in which they make them, and has no other coordinates.
-/

namespace Federation

/-- What some conditions say of the field with the given coordinates. -/
def Router.ConditionalField.gather (found : List (FieldSetUse × String × Condition)) (path : String) :
    ConditionalField where
  providedBy := (found.filter fun e => e.1 = .provides ∧ e.2.1 = path).map (·.2.2)
  requiredBy := (found.filter fun e => e.1 ≠ .provides ∧ e.2.1 = path).map (·.2.2)

namespace Assembly

variable (a : Assembly)

/-- The conditions that all field sets make, each with what its field set is for. -/
def foundConditions : List (FieldSetUse × String × Condition) :=
  a.declaredSelections.flatMap fun d => (d.conditions a.types).map (d.use, ·)

theorem conditionalFields_eq_foldl :
    a.conditionalFields = a.foundConditions.foldl (fun t e => addCondition e.1 t e.2) .empty := by
  simp only [foundConditions, conditionalFields, List.foldl_flatMap, List.foldl_map]

theorem mem_keys_conditionalFields {path : String} :
    path ∈ a.conditionalFields.keys ↔ ∃ e ∈ a.foundConditions, e.2.1 = path := by
  have fold (found : List (FieldSetUse × String × Condition)) (t : Table String Router.ConditionalField) :
      path ∈ (found.foldl (fun t e => addCondition e.1 t e.2) t).keys ↔
        path ∈ t.keys ∨ ∃ e ∈ found, e.2.1 = path := by
    induction found generalizing t with
    | nil => simp
    | cons e rest ih =>
      rw [List.foldl_cons, ih, addCondition, Table.mem_keys_upsert, or_assoc]
      simp only [List.mem_cons, exists_eq_or_imp, eq_comm (a := path)]
  rw [conditionalFields_eq_foldl, fold]
  simp [Table.keys]

theorem getD_conditionalFields (path : String) :
    a.conditionalFields.getD path .empty = .gather a.foundConditions path := by
  -- Each condition goes to the end of one list at its own coordinates.
  have fold (found : List (FieldSetUse × String × Condition)) (t : Table String Router.ConditionalField) :
      (found.foldl (fun t e => addCondition e.1 t e.2) t).getD path .empty =
        ⟨(t.getD path .empty).providedBy ++ (Router.ConditionalField.gather found path).providedBy,
          (t.getD path .empty).requiredBy ++ (Router.ConditionalField.gather found path).requiredBy⟩ := by
    induction found generalizing t with
    | nil => simp [Router.ConditionalField.gather]
    | cons e rest ih =>
      rw [List.foldl_cons, ih, addCondition, Table.getD_upsert]
      by_cases here : path = e.2.1
      · subst here
        by_cases provided : e.1 = .provides <;> simp [Router.ConditionalField.gather, provided, Table.getD]
      · have other := Ne.symm here
        simp [Router.ConditionalField.gather, here, other]
  rw [conditionalFields_eq_foldl, fold]
  simp [Table.getD, Router.ConditionalField.empty]

end Assembly

end Federation
