import Federation.Proofs.Document.Conformance

/-!
# References of a document

A document is closed: what its types refer to is defined in it or known to every subgraph. What is referred to also
suits its place, with one exception. A union may list a type that every subgraph knows, and nobody asks what that is.
-/

namespace Federation

open Schema

namespace Schema

def FieldDefinition.references (f : FieldDefinition) : List String :=
  f.type.namedType :: f.arguments.map fun v => v.type.namedType

namespace TypeDefinition

/-- The interfaces that an object or interface implements. -/
def implements (t : TypeDefinition) : List String :=
  match t.body with
  | .interface names _ | .object names _ => names
  | .enum _ | .inputObject _ | .scalar | .union _ => []

def members (t : TypeDefinition) : List String :=
  match t.body with
  | .union names => names
  | .enum _ | .inputObject _ | .interface _ _ | .object _ _ | .scalar => []

def inputFields (t : TypeDefinition) : List InputValueDefinition :=
  match t.body with
  | .inputObject fields => fields
  | .enum _ | .interface _ _ | .object _ _ | .scalar | .union _ => []

/-- The types that a type refers to, in all places. -/
def references (t : TypeDefinition) : List String :=
  t.implements ++ t.members ++ t.fields.flatMap FieldDefinition.references ++
    t.inputFields.map fun v => v.type.namedType

end TypeDefinition

/-- The root types that a document declares. -/
def Document.operationTypes (document : Document) : List (Operation × String) :=
  document.flatMap fun
    | .schema d => d.operationTypes
    | .directive _ | .type _ => []

end Schema

namespace NormalSubgraph

/-- What stands in the places of a document outside unions suits them. -/
structure PlacesReferences (n : NormalSubgraph) : Prop where
  implements : ∀ t ∈ n.document.types, ∀ name ∈ t.implements,
    n.types.kind? name = some .interface ∧ name ≠ t.name
  arguments : ∀ t ∈ n.document.types, ∀ f ∈ t.fields, ∀ v ∈ f.arguments, ∀ kind,
    n.types.kind? v.type.namedType = some kind → kind.isInput = true
  roots : ∀ e ∈ n.document.operationTypes, n.types.kind? e.2 = some .object

/-- Whether the members of unions are objects. -/
def UnitesObjects (n : NormalSubgraph) : Prop :=
  ∀ t ∈ n.document.types, ∀ member ∈ t.members, n.types.kind? member = some .object

end NormalSubgraph

namespace Assembly

variable {a : Assembly}

/-! ## What an own type is written with -/

section TypeDefinition

variable {name : String} {entry : TypeEntry}

theorem composite?_of_mem_implements {interfaceName : String}
    (written : interfaceName ∈ (a.typeDefinition name entry).implements) :
    ∃ c, entry.composite? = some c ∧ interfaceName ∈ c.implements.toList := by
  obtain ⟨_, _, _, _, shape⟩ := entry
  cases shape with
  | interface c | object c => exact ⟨c, rfl, written⟩
  | enum | inputObject | scalar | union => exact absurd written List.not_mem_nil

theorem shape_of_mem_members {member : String} (written : member ∈ (a.typeDefinition name entry).members) :
    ∃ members, entry.shape = .union members ∧ member ∈ members.toList := by
  obtain ⟨_, _, _, _, shape⟩ := entry
  cases shape with
  | union members => exact ⟨members, rfl, written⟩
  | enum | inputObject | interface | object | scalar => exact absurd written List.not_mem_nil

theorem field_of_mem_fields {f : FieldDefinition} (written : f ∈ (a.typeDefinition name entry).fields) :
    ∃ c fieldName field record, entry.composite? = some c ∧ c.fields.get? fieldName = some field ∧
      f = fieldDefinition record fieldName field := by
  obtain ⟨_, _, _, _, shape⟩ := entry
  cases shape with
  | interface c | object c =>
    obtain ⟨⟨fieldName, field⟩, listed, rfl⟩ := List.mem_map.mp written
    exact ⟨c, fieldName, field, _, rfl, Table.mem_toList.mp listed, rfl⟩
  | enum | inputObject | scalar | union => exact absurd written List.not_mem_nil

theorem argument_of_mem_arguments {record : Authorization.Record} {fieldName : String} {field : Field}
    {v : InputValueDefinition} (written : v ∈ (fieldDefinition record fieldName field).arguments) :
    ∃ argumentName value, field.arguments.get? argumentName = some value ∧
      v = inputValueDefinition argumentName value := by
  obtain ⟨⟨argumentName, value⟩, listed, rfl⟩ := List.mem_map.mp written
  exact ⟨argumentName, value, Table.mem_toList.mp listed, rfl⟩

theorem inputValue_of_mem_inputFields {v : InputValueDefinition}
    (written : v ∈ (a.typeDefinition name entry).inputFields) :
    ∃ fields valueName value, entry.shape = .inputObject fields ∧ fields.get? valueName = some value ∧
      v = inputValueDefinition valueName value := by
  obtain ⟨_, _, _, _, shape⟩ := entry
  cases shape with
  | inputObject fields =>
    obtain ⟨⟨valueName, value⟩, listed, rfl⟩ := List.mem_map.mp written
    exact ⟨fields, valueName, value, rfl, Table.mem_toList.mp listed, rfl⟩
  | enum | interface | object | scalar | union => exact absurd written List.not_mem_nil

end TypeDefinition

/-! ## Closure -/

/-- What is read off the references of a subgraph about which nothing is reported. -/
structure ReferencesQuiet (a : Assembly) : Prop where
  orderly : a.survey.Orderly a.setting
  types : ∀ e ∈ a.ownTypes, a.typeErrors e.1 e.2 = []
  roots : ∀ operation, a.rootErrors operation = []
  undefined : a.undefinedNames = []

/-- A document defines what is registered, and scalars instead of what has the names of these. -/
theorem defined_or_implied_of_registered {name : String} (registered : name ∈ a.types.keys) :
    name ∈ a.document.types.map TypeDefinition.name ∨ name ∈ Vocabulary.impliedTypes := by
  obtain ⟨entry, found⟩ := Table.exists_get?_of_mem_keys registered
  cases support : a.isSupportType name with
  | true =>
    have scalars : name = Vocabulary.fieldSetScalar ∨
        a.setting.isVersionTwo = true ∧ name = Vocabulary.scopeScalar := by
      simpa [isSupportType] using support
    refine .inr ?_
    rcases scalars with rfl | ⟨-, rfl⟩ <;> decide
  | false =>
    refine .inl ?_
    rw [types_document, List.map_append, names_ownTypes]
    exact List.mem_append_right _ (List.mem_map_of_mem (mem_ownTypes.mpr ⟨found, support⟩))

namespace ReferencesQuiet

variable (q : a.ReferencesQuiet)

include q

/-- A type that is noted as referred to is known. -/
theorem known_of_referenced {name : String} (referenced : name ∈ a.survey.referenced.toList) :
    name ∈ a.types.keys ∨ name ∈ Vocabulary.impliedTypes := by
  by_contra unknown
  rw [not_or] at unknown
  have missing : a.isUnknown name = true := by
    have unregistered := Bool.eq_false_iff.mpr fun present => unknown.1 (Table.contains_iff.mp present)
    simp [isUnknown, unknown.2, unregistered]
  have listed : name ∈ a.undefinedNames :=
    OrderedSet.mem_ofList.mpr (List.mem_append_right _ (List.mem_filter.mpr ⟨referenced, missing⟩))
  exact List.not_mem_nil (q.undefined ▸ listed)

/-- What an own type refers to is registered or known to every subgraph. -/
theorem known_of_references {name : String} {entry : TypeEntry} (own : (name, entry) ∈ a.ownTypes) {typeName : String}
    (written : typeName ∈ (a.typeDefinition name entry).references) :
    typeName ∈ a.types.keys ∨ typeName ∈ Vocabulary.impliedTypes := by
  have inside := (q.orderly.types name entry (mem_ownTypes.mp own).1).shape
  rcases List.mem_append.mp written with written | inputField
  · rcases List.mem_append.mp written with written | ofField
    · rcases List.mem_append.mp written with interface | member
      · obtain ⟨c, composite, listed⟩ := composite?_of_mem_implements interface
        exact .inl (mem_keys_of_kind? (kind?_of_listed (q.types _ own) composite listed).1)
      · obtain ⟨members, shape, listed⟩ := shape_of_mem_members member
        rw [shape] at inside
        -- Built-in scalars are not noted as members, but every subgraph knows them.
        by_cases scalar : typeName ∈ Vocabulary.builtInScalars
        · exact .inr (List.mem_append_left _ scalar)
        · exact q.known_of_referenced (inside typeName listed scalar)
    · obtain ⟨f, written, referred⟩ := List.mem_flatMap.mp ofField
      obtain ⟨c, fieldName, field, record, composite, known, rfl⟩ := field_of_mem_fields written
      have orderly := inside.field composite known
      rcases List.mem_cons.mp referred with rfl | ofArgument
      · exact q.known_of_referenced orderly.referenced
      · obtain ⟨v, given, rfl⟩ := List.mem_map.mp ofArgument
        obtain ⟨argumentName, value, there, rfl⟩ := argument_of_mem_arguments given
        exact q.known_of_referenced (orderly.arguments argumentName value there).referenced
  · obtain ⟨v, given, rfl⟩ := List.mem_map.mp inputField
    obtain ⟨fields, valueName, value, shape, there, rfl⟩ := inputValue_of_mem_inputFields given
    rw [shape] at inside
    exact q.known_of_referenced (inside valueName value there).referenced

omit q in
/-- The types of the condition of a filter refer to each other. -/
theorem known_of_support {t : TypeDefinition} (support : t ∈ a.supportTypes) {typeName : String}
    (written : typeName ∈ t.references) :
    typeName ∈ a.supportTypes.map TypeDefinition.name ∨ typeName ∈ Vocabulary.impliedTypes := by
  have scalars : ∀ t ∈ [Catalogue.scalar Vocabulary.fieldSetScalar] ++ [Catalogue.scalar Vocabulary.scopeScalar],
      t.references = [] := by
    decide
  have filterTypes : ∀ t ∈ Catalogue.filterTypes, ∀ name ∈ t.references,
      name ∈ Catalogue.filterTypes.map TypeDefinition.name ∨ name ∈ Vocabulary.impliedTypes := by
    decide
  rcases List.mem_append.mp (supportTypes_sublist.subset support) with scalar | listed
  · rw [scalars t scalar] at written
    exact absurd written List.not_mem_nil
  · have outside := isSupportType_of_filter (a := a) listed
    obtain inside | ⟨used, -⟩ := isSupportType_or_filter support
    · exact absurd (outside.symm.trans inside) Bool.false_ne_true
    · refine (filterTypes t listed typeName written).imp_left fun sibling => ?_
      rw [supportTypes, if_pos used, List.map_append]
      exact List.mem_append_right _ sibling

/-- What the types of a document refer to is defined there or known to every subgraph. -/
theorem closed {t : TypeDefinition} (written : t ∈ a.document.types) {typeName : String}
    (referred : typeName ∈ t.references) :
    typeName ∈ a.document.types.map TypeDefinition.name ∨ typeName ∈ Vocabulary.impliedTypes := by
  rw [types_document] at written
  rcases List.mem_append.mp written with support | own
  · refine (known_of_support support referred).imp_left fun here => ?_
    rw [types_document, List.map_append]
    exact List.mem_append_left _ here
  · obtain ⟨⟨name, entry⟩, registered, rfl⟩ := List.mem_map.mp own
    rcases q.known_of_references registered referred with known | implied
    · exact defined_or_implied_of_registered known
    · exact .inr implied

/-! ## Places -/

omit q in
theorem byOperation_of_operationTypes {operation : Operation} {typeName : String}
    (declared : (operation, typeName) ∈ a.document.operationTypes) :
    a.setting.roots.byOperation.get? operation = some typeName := by
  obtain ⟨definition, written, listed⟩ := List.mem_flatMap.mp declared
  cases definition with
  | directive | type => exact absurd listed List.not_mem_nil
  | schema d =>
    have schema : a.schemaDefinition? = some d := by simpa [document] using written
    unfold schemaDefinition? at schema
    split at schema
    · cases schema
    · obtain rfl := Option.some.inj schema
      exact Table.mem_toList.mp listed

omit q in
/-- The types that come with directives implement nothing, have no fields and list no members. -/
theorem own_of_document {t : TypeDefinition} (written : t ∈ a.document.types) :
    (t.implements = [] ∧ t.fields = [] ∧ t.members = []) ∨
      ∃ name entry, (name, entry) ∈ a.ownTypes ∧ t = a.typeDefinition name entry := by
  have plain : ∀ t ∈ [Catalogue.scalar Vocabulary.fieldSetScalar] ++ [Catalogue.scalar Vocabulary.scopeScalar] ++
      Catalogue.filterTypes, t.implements = [] ∧ t.fields.isEmpty = true ∧ t.members = [] := by
    decide
  rw [types_document] at written
  rcases List.mem_append.mp written with support | own
  · obtain ⟨implements, fields, members⟩ := plain t (supportTypes_sublist.subset support)
    exact .inl ⟨implements, List.isEmpty_iff.mp fields, members⟩
  · obtain ⟨⟨name, entry⟩, registered, rfl⟩ := List.mem_map.mp own
    exact .inr ⟨name, entry, registered, rfl⟩

theorem interface_of_implements {t : TypeDefinition} (written : t ∈ a.document.types) {interfaceName : String}
    (listed : interfaceName ∈ t.implements) :
    a.types.kind? interfaceName = some .interface ∧ interfaceName ≠ t.name := by
  rcases own_of_document written with ⟨nothing, -, -⟩ | ⟨name, entry, own, rfl⟩
  · exact absurd (nothing ▸ listed) List.not_mem_nil
  · obtain ⟨c, composite, listed⟩ := composite?_of_mem_implements listed
    exact kind?_of_listed (q.types _ own) composite listed

theorem isInput_of_arguments {t : TypeDefinition} (written : t ∈ a.document.types) {f : FieldDefinition}
    (field : f ∈ t.fields) {v : InputValueDefinition} (argument : v ∈ f.arguments) {kind : TypeKind}
    (registered : a.types.kind? v.type.namedType = some kind) : kind.isInput = true := by
  rcases own_of_document written with ⟨-, nothing, -⟩ | ⟨name, entry, own, rfl⟩
  · exact absurd (nothing ▸ field) List.not_mem_nil
  obtain ⟨c, fieldName, f, record, composite, known, rfl⟩ := field_of_mem_fields field
  obtain ⟨argumentName, value, given, rfl⟩ := argument_of_mem_arguments argument
  have quiet := q.types _ own
  rw [typeErrors_of_composite? composite] at quiet
  simp only [compositeErrors, List.append_eq_nil_iff] at quiet
  -- An argument of another kind would be reported with its field.
  have nothing := List.filterMap_eq_nil_iff.mp quiet.1.1.1 (fieldName, f) (Table.mem_toList.mpr known)
  have inputs : a.outputArguments f = [] := by
    dsimp only at nothing
    split at nothing
    · next empty => exact List.isEmpty_iff.mp empty
    · exact absurd nothing nofun
  have input := List.filterMap_eq_nil_iff.mp inputs (argumentName, value) (Table.mem_toList.mpr given)
  dsimp only [inputValueDefinition] at registered input
  rw [registered] at input
  dsimp only at input
  split at input
  · assumption
  · exact absurd input nofun

/-- The root types that a schema declares are objects. -/
theorem object_of_root {operation : Operation} {typeName : String}
    (declared : (operation, typeName) ∈ a.document.operationTypes) : a.types.kind? typeName = some .object := by
  have known := byOperation_of_operationTypes declared
  have root : a.rootName operation = (typeName, true) := by simp [rootName, known]
  have quiet := q.roots operation
  unfold rootErrors at quiet
  rw [root] at quiet
  dsimp only at quiet
  split at quiet
  · exact absurd quiet (List.cons_ne_nil _ _)
  next plain =>
  cases registered : a.types.get? typeName with
  | none =>
    -- A root type that is missing is reported as undefined, also if every subgraph knows its name.
    have missing : typeName ∈ a.undefinedAtRoot operation := by simp [undefinedAtRoot, root, plain, registered]
    have listed : typeName ∈ a.undefinedNames :=
      OrderedSet.mem_ofList.mpr <| List.mem_append_left _ <|
        List.mem_flatMap.mpr ⟨operation, operation.mem_all, missing⟩
    exact absurd (q.undefined ▸ listed) List.not_mem_nil
  | some entry =>
    have kind : a.types.kind? typeName = some entry.kind := by simp [Registry.kind?, registered]
    rw [kind] at quiet ⊢
    dsimp only at quiet
    split at quiet
    · next object => rw [object]
    · exact absurd quiet (List.cons_ne_nil _ _)

/-- What a union lists is an object, unless it is not registered and every subgraph knows it. -/
theorem object_or_implied_of_members {t : TypeDefinition} (written : t ∈ a.document.types) {member : String}
    (listed : member ∈ t.members) :
    a.types.kind? member = some .object ∨ a.types.kind? member = none ∧ member ∈ Vocabulary.impliedTypes := by
  have referred : member ∈ t.references := by simp [TypeDefinition.references, listed]
  rcases own_of_document written with ⟨-, -, nothing⟩ | ⟨name, entry, own, rfl⟩
  · exact absurd (nothing ▸ listed) List.not_mem_nil
  obtain ⟨members, shape, inside⟩ := shape_of_mem_members listed
  have quiet := q.types _ own
  rw [typeErrors, shape] at quiet
  have objects : a.nonObjectMembers members = [] := ite_isEmpty_eq_nil_iff.mp (List.append_eq_nil_iff.mp quiet).2
  have object := List.filterMap_eq_nil_iff.mp objects member inside
  cases registered : a.types.kind? member with
  -- A member that is not registered would be reported as undefined, but for the implied ones.
  | none =>
    refine .inr ⟨rfl, (q.known_of_references own referred).resolve_left fun known => ?_⟩
    obtain ⟨entry, found⟩ := Table.exists_get?_of_mem_keys known
    simp [Registry.kind?, found] at registered
  | some kind =>
    rw [registered] at object
    dsimp only at object
    split at object
    · next same => exact .inl (same ▸ rfl)
    · cases object

end ReferencesQuiet

theorem referencesQuiet_of {options : NormalizationOptions} {statements : List Statement}
    (clean : (Assembly.of options.subgraph options.maxOrScopes statements).errors = []) :
    (Assembly.of options.subgraph options.maxOrScopes statements).ReferencesQuiet := by
  have orderly := (grounded_of clean).orderly
  simp only [errors, List.append_eq_nil_iff, List.flatMap_eq_nil_iff, List.map_eq_nil_iff] at clean
  obtain ⟨⟨⟨⟨⟨⟨⟨⟨-, types⟩, roots⟩, undefined⟩, -⟩, -⟩, -⟩, -⟩, -⟩ := clean
  exact ⟨orderly, types, fun operation => roots operation operation.mem_all, undefined⟩

end Assembly

/-! ## Valid subgraphs -/

section Normal

variable {options : NormalizationOptions} {statements : List Statement} {n : NormalSubgraph}

/-- What the document of a valid subgraph refers to, it defines, unless every subgraph knows it. -/
theorem document_closed (valid : (normalize options statements).result? = some n) :
    ∀ t ∈ n.document.types, ∀ typeName ∈ t.references,
      typeName ∈ n.document.types.map TypeDefinition.name ∨ typeName ∈ Vocabulary.impliedTypes := by
  obtain ⟨clean, rfl⟩ := result_of_normalize valid
  intro t written typeName referred
  exact (Assembly.referencesQuiet_of clean).closed written referred

end Normal

/-- A subgraph whose types refer to each other in all places, with members of a union. -/
def searchSubgraph (members : List String) : List Statement :=
  let field (name typeName : String) (arguments : List InputValueDefinition) : FieldDefinition :=
    ⟨name, none, arguments, .named typeName false, []⟩
  [.define (.schema ⟨[], [(.query, "Root")]⟩),
    .define (.type ⟨"Named", none, [], .interface [] [field "name" "String" []]⟩),
    .define (.type ⟨"Root", none, [], .object ["Named"]
      [field "name" "String" [], field "search" "Found" [⟨"filter", none, .named "Filter" false, none, []⟩]]⟩),
    .define (.type ⟨"Filter", none, [], .inputObject [⟨"color", none, .named "Color" true, none, []⟩]⟩),
    .define (.type ⟨"Color", none, [], .enum [⟨"RED", none, []⟩]⟩),
    .define (.type ⟨"Found", none, [], .union members⟩)]

theorem document_closed_search : ∃ n, (normalize .default (searchSubgraph ["Root"])).result? = some n ∧
    n.document.types.map (fun t => (t.name, t.references)) =
      [(Vocabulary.fieldSetScalar, []), ("Named", ["String"]), ("Root", ["Named", "String", "Found", "Filter"]),
        ("Filter", ["Color"]), ("Color", []), ("Found", ["Root"])] ∧
    ∀ t ∈ n.document.types, ∀ typeName ∈ t.references,
      typeName ∈ n.document.types.map TypeDefinition.name ∨ typeName ∈ Vocabulary.impliedTypes := by
  have references : (normalize .default (searchSubgraph ["Root"])).result?.any (fun n =>
      n.document.types.map (fun t => (t.name, t.references)) =
        [(Vocabulary.fieldSetScalar, []), ("Named", ["String"]), ("Root", ["Named", "String", "Found", "Filter"]),
          ("Filter", ["Color"]), ("Color", []), ("Found", ["Root"])]) = true := by
    decide +kernel
  simp only [Option.any_eq_true, decide_eq_true_eq] at references
  obtain ⟨n, valid, written⟩ := references
  exact ⟨n, valid, written, document_closed valid⟩

section Normal

variable {options : NormalizationOptions} {statements : List Statement} {n : NormalSubgraph}

/-- In the document of a valid subgraph what types refer to suits its place. With the members of unions this is so just
where no union lists a type that every subgraph knows and this one does not define. -/
theorem document_suits (valid : (normalize options statements).result? = some n) :
    n.PlacesReferences ∧ (n.UnitesObjects ↔ ∀ t ∈ n.document.types, ∀ member ∈ t.members,
      member ∈ Vocabulary.impliedTypes → n.types.kind? member ≠ none) := by
  obtain ⟨clean, rfl⟩ := result_of_normalize valid
  have q := Assembly.referencesQuiet_of clean
  refine ⟨⟨fun t written name listed => q.interface_of_implements written listed,
    fun t written f field v argument kind known => q.isInput_of_arguments written field argument known,
    fun e declared => q.object_of_root declared⟩, ?_, ?_⟩
  · intro objects t written member listed _ missing
    exact absurd (missing.symm.trans (objects t written member listed)) nofun
  · intro defined t written member listed
    obtain object | ⟨missing, implied⟩ := q.object_or_implied_of_members written listed
    · exact object
    · exact absurd missing (defined t written member listed implied)

end Normal

theorem document_suits_search : ∃ n, (normalize .default (searchSubgraph ["Root"])).result? = some n ∧
    n.document.operationTypes = [(.query, "Root")] ∧ n.document.types.flatMap TypeDefinition.members = ["Root"] ∧
    n.PlacesReferences ∧ n.UnitesObjects := by
  have objects : (normalize .default (searchSubgraph ["Root"])).result?.any (fun n =>
      n.document.operationTypes = [(.query, "Root")] &&
        n.document.types.flatMap TypeDefinition.members = ["Root"]) = true := by
    decide +kernel
  simp only [Option.any_eq_true, Bool.and_eq_true, decide_eq_true_eq] at objects
  obtain ⟨n, valid, roots, members⟩ := objects
  obtain ⟨places, unites⟩ := document_suits valid
  refine ⟨n, valid, roots, members, places, unites.mpr fun t written member listed implied => ?_⟩
  have only : member ∈ n.document.types.flatMap TypeDefinition.members := List.mem_flatMap.mpr ⟨t, written, listed⟩
  rw [members] at only
  -- Not every subgraph knows the one member.
  rw [List.mem_singleton.mp only] at implied
  exact absurd implied (by decide)

/-- A union that lists a scalar beside an object is accepted. -/
theorem not_unitesObjects_string : ∃ n, (normalize .default (searchSubgraph ["Root", "String"])).result? = some n ∧
    n.document.types.flatMap TypeDefinition.members = ["Root", "String"] ∧ n.types.kind? "String" = none ∧
    ¬ n.UnitesObjects := by
  have accepted : (normalize .default (searchSubgraph ["Root", "String"])).result?.any (fun n =>
      n.document.types.flatMap TypeDefinition.members = ["Root", "String"] &&
        n.types.kind? "String" = none) = true := by
    decide +kernel
  simp only [Option.any_eq_true, Bool.and_eq_true, decide_eq_true_eq] at accepted
  obtain ⟨n, valid, members, missing⟩ := accepted
  refine ⟨n, valid, members, missing, fun objects => ?_⟩
  have scalar : "String" ∈ n.document.types.flatMap TypeDefinition.members := by simp [members]
  obtain ⟨t, written, listed⟩ := List.mem_flatMap.mp scalar
  exact absurd (missing.symm.trans (objects t written "String" listed)) nofun

end Federation
