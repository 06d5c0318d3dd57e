import Federation.Grammar.Statement
import Federation.Proofs.Schema.Legible

/-!
What readers yield: the names in anything that is read from a text are names of the grammar. Each reader
is followed through its steps.
-/

namespace Federation.Grammar

open Schema

/-! ### Tokens -/

namespace Token

/-- Whether the token is no name, or a name of the grammar. -/
def isLegible : Token → Bool
  | name s => isName s
  | _ => true

theorem isLegible_number (negative : Bool) (whole : List Char) (fraction : Option (List Char))
    (exponent : Option Int) : (number negative whole fraction exponent).isLegible = true := by
  unfold number
  split <;> rfl

theorem isLegible_of_unsigned? {negative : Bool} {cs rest : List Char} {t : Token}
    (read : unsigned? negative cs = some (t, rest)) : t.isLegible = true := by
  unfold unsigned? at read
  simp only [Option.bind_eq_bind, Option.bind_eq_some_iff] at read
  obtain ⟨⟨whole, _⟩, -, ⟨fraction, _⟩, -, ⟨exponent, _⟩, -, built⟩ := read
  dsimp only at built
  split at built
  · contradiction
  · obtain ⟨rfl, -⟩ := Prod.mk.inj (Option.some.inj built)
    exact isLegible_number _ _ _ _

theorem isLegible_of_next? {cs rest : List Char} {t : Token} (read : next? cs = some (t, rest)) :
    t.isLegible = true := by
  unfold next? at read
  split at read
  · obtain ⟨rfl, -⟩ := Prod.mk.inj (Option.some.inj read)
    rfl
  · obtain ⟨_, -, same⟩ := Option.map_eq_some_iff.1 read
    obtain ⟨rfl, -⟩ := Prod.mk.inj same
    rfl
  · obtain ⟨_, -, same⟩ := Option.map_eq_some_iff.1 read
    obtain ⟨rfl, -⟩ := Prod.mk.inj same
    rfl
  · exact isLegible_of_unsigned? read
  · next c r _ _ _ _ =>
    split at read
    · obtain ⟨rfl, -⟩ := Prod.mk.inj (Option.some.inj read)
      rfl
    · split at read
      · next start =>
        obtain ⟨rfl, -⟩ := Prod.mk.inj (Option.some.inj read)
        refine isName_iff.2 ⟨c, r.takeWhile isNamePart, String.toList_ofList, start, ?_⟩
        exact List.all_eq_true.1 List.all_takeWhile
      · exact isLegible_of_unsigned? read
  · contradiction

theorem isLegible_of_scan {cs : List Char} {ts : List Token} (scanned : scan cs = some ts) :
    ∀ t ∈ ts, t.isLegible = true := by
  fun_induction scan cs generalizing ts with
  | case1 => simp_all
  | case2 c rest ignored ih => exact ih scanned
  | case3 rest noBlank ih => exact ih scanned
  | case4 => contradiction
  | case5 c rest _ _ t rest' read ih =>
    obtain ⟨later, scannedLater, rfl⟩ := Option.map_eq_some_iff.1 scanned
    exact List.forall_mem_cons.2 ⟨isLegible_of_next? read, ih scannedLater⟩

end Token

namespace Reader

/-! ### Steps -/

variable {α β : Type} {P Q : α → Prop} {R : β → Prop}

/-- From legible tokens the reader yields only what has the property, and leaves legible tokens. -/
def Yields (r : Reader α) (P : α → Prop) : Prop :=
  ∀ ts x rest, (∀ t ∈ ts, t.isLegible = true) → r ts = some (x, rest) →
    P x ∧ ∀ t ∈ rest, t.isLegible = true

theorem Yields.bind {r : Reader α} {f : α → Reader β} (first : Yields r P)
    (next : ∀ x, P x → Yields (f x) R) : Yields (r >>= f) R := by
  intro ts y rest legible read
  obtain ⟨⟨x, later⟩, readFirst, readNext⟩ := Option.bind_eq_some_iff.1 read
  obtain ⟨good, legibleLater⟩ := first ts x later legible readFirst
  exact next x good later y rest legibleLater readNext

theorem Yields.mono {r : Reader α} (yields : Yields r P) (weaker : ∀ x, P x → Q x) : Yields r Q :=
  fun ts x rest legible read =>
    have ⟨good, legibleRest⟩ := yields ts x rest legible read
    ⟨weaker x good, legibleRest⟩

theorem yields_pure {x : α} (good : P x) : Yields (pure x) P := by
  intro ts y rest legible read
  obtain ⟨rfl, rfl⟩ := Prod.mk.inj (Option.some.inj read)
  exact ⟨good, legible⟩

theorem yields_failure : Yields failure P := by
  intro ts x rest _ read
  exact nomatch read

theorem yields_get : Yields (get : Reader (List Token)) fun _ => True := by
  intro ts x rest legible read
  obtain ⟨-, rfl⟩ := Prod.mk.inj (Option.some.inj read)
  exact ⟨trivial, legible⟩

theorem yields_guard (p : Prop) [Decidable p] : Yields (guard p) fun _ => p := by
  by_cases holds : p
  · rw [guard, if_pos holds]
    exact yields_pure holds
  · rw [guard, if_neg holds]
    exact yields_failure

theorem Yields.ite {p : Prop} [Decidable p] {r r' : Reader α} (first : p → Yields r P)
    (second : ¬ p → Yields r' P) : Yields (if p then r else r') P := by
  split
  · next holds => exact first holds
  · next fails => exact second fails

theorem yields_token : Yields token fun t => t.isLegible = true := by
  intro ts x rest legible read
  cases ts with
  | nil => exact nomatch read
  | cons t ts =>
    obtain ⟨rfl, rfl⟩ := Prod.mk.inj (Option.some.inj read)
    exact List.forall_mem_cons.1 legible

theorem yields_expect (t : Token) : Yields (expect t) fun _ => True := by
  intro ts x rest legible read
  cases ts with
  | nil => exact nomatch read
  | cons t' ts =>
    rw [expect] at read
    split at read
    · obtain ⟨-, rfl⟩ := Prod.mk.inj (Option.some.inj read)
      exact ⟨trivial, (List.forall_mem_cons.1 legible).2⟩
    · contradiction

theorem yields_accept (t : Token) : Yields (accept t) fun _ => True := by
  intro ts x rest legible read
  cases ts with
  | nil =>
    obtain ⟨-, rfl⟩ := Prod.mk.inj (Option.some.inj read)
    exact ⟨trivial, legible⟩
  | cons t' ts =>
    rw [accept] at read
    split at read
    · obtain ⟨-, rfl⟩ := Prod.mk.inj (Option.some.inj read)
      exact ⟨trivial, (List.forall_mem_cons.1 legible).2⟩
    · obtain ⟨-, rfl⟩ := Prod.mk.inj (Option.some.inj read)
      exact ⟨trivial, legible⟩

theorem yields_isNext (t : Token) : Yields (isNext t) fun _ => True := by
  intro ts x rest legible read
  obtain ⟨-, rfl⟩ := Prod.mk.inj (Option.some.inj read)
  exact ⟨trivial, legible⟩

theorem yields_name : Yields name fun s => Token.isName s = true := by
  intro ts x rest legible read
  unfold name at read
  split at read
  · obtain ⟨rfl, rfl⟩ := Prod.mk.inj (Option.some.inj read)
    exact List.forall_mem_cons.1 legible
  · contradiction

theorem yields_string? : Yields string? fun _ => True := by
  intro ts x rest legible read
  unfold string? at read
  split at read
  · obtain ⟨-, rfl⟩ := Prod.mk.inj (Option.some.inj read)
    exact ⟨trivial, (List.forall_mem_cons.1 legible).2⟩
  · obtain ⟨-, rfl⟩ := Prod.mk.inj (Option.some.inj read)
    exact ⟨trivial, legible⟩

/-! ### Repetitions -/

section Repetition

variable {item : Reader α} (yields : Yields item P)

include yields

theorem yields_itemsUntil (close : Char) (bound : Nat) :
    Yields (itemsUntil close item bound) fun xs => ∀ x ∈ xs, P x := by
  induction bound with
  | zero => exact yields_failure
  | succ bound ih =>
    refine (yields_accept _).bind fun closed _ => .ite (fun _ => yields_pure (by simp)) fun _ => ?_
    refine yields.bind fun x good => ih.bind fun xs rest => ?_
    exact yields_pure (List.forall_mem_cons.2 ⟨good, rest⟩)

theorem yields_upTo (close : Char) : Yields (upTo close item) fun xs => ∀ x ∈ xs, P x :=
  yields_get.bind fun _ _ => yields_itemsUntil yields close _

theorem yields_someUpTo (close : Char) : Yields (someUpTo close item) fun xs => ∀ x ∈ xs, P x :=
  (yields_upTo yields close).bind fun _ good => (yields_guard _).bind fun _ _ => yields_pure good

theorem yields_between (opening closing : Char) :
    Yields (between opening closing item) fun xs => ∀ x ∈ xs, P x :=
  (yields_expect _).bind fun _ _ => yields_upTo yields closing

theorem yields_optionalBetween (opening closing : Char) :
    Yields (optionalBetween opening closing item) fun xs => ∀ x ∈ xs, P x :=
  (yields_accept _).bind fun _ _ =>
    .ite (fun _ => yields_upTo yields closing) fun _ => yields_pure (by simp)

theorem yields_optionalSomeBetween (opening closing : Char) :
    Yields (optionalSomeBetween opening closing item) fun xs => ∀ x ∈ xs, P x :=
  (yields_accept _).bind fun _ _ =>
    .ite (fun _ => yields_someUpTo yields closing) fun _ => yields_pure (by simp)

theorem yields_itemsWhile (start : Token) (bound : Nat) :
    Yields (itemsWhile start item bound) fun xs => ∀ x ∈ xs, P x := by
  induction bound with
  | zero => exact yields_pure (by simp)
  | succ bound ih =>
    refine (yields_isNext _).bind fun goes _ => .ite (fun _ => ?_) fun _ => yields_pure (by simp)
    refine yields.bind fun x good => ih.bind fun xs rest => ?_
    exact yields_pure (List.forall_mem_cons.2 ⟨good, rest⟩)

theorem yields_whileNext (start : Token) : Yields (whileNext start item) fun xs => ∀ x ∈ xs, P x :=
  yields_get.bind fun _ _ => yields_itemsWhile yields start _

theorem yields_itemsAfter (separator : Char) (bound : Nat) :
    Yields (itemsAfter separator item bound) fun xs => ∀ x ∈ xs, P x := by
  induction bound with
  | zero => exact yields_pure (by simp)
  | succ bound ih =>
    refine (yields_accept _).bind fun goes _ => .ite (fun _ => ?_) fun _ => yields_pure (by simp)
    refine yields.bind fun x good => ih.bind fun xs rest => ?_
    exact yields_pure (List.forall_mem_cons.2 ⟨good, rest⟩)

/-- A separated list has an item at least. -/
theorem yields_separated (separator : Char) :
    Yields (separated separator item) fun xs => xs ≠ [] ∧ ∀ x ∈ xs, P x := by
  have leading : Yields (discard (acceptMark separator)) fun _ => True := by
    change Yields (acceptMark separator >>= fun a => pure (Function.const _ PUnit.unit a)) _
    exact (yields_accept _).bind fun _ _ => yields_pure trivial
  refine leading.bind fun _ _ => yields.bind fun x good => yields_get.bind fun ts _ => ?_
  refine (yields_itemsAfter yields separator _).bind fun xs rest => ?_
  exact yields_pure ⟨List.cons_ne_nil x xs, List.forall_mem_cons.2 ⟨good, rest⟩⟩

theorem yields_itemsToEnd (bound : Nat) : Yields (itemsToEnd item bound) fun xs => ∀ x ∈ xs, P x := by
  induction bound with
  | zero => exact yields_pure (by simp)
  | succ bound ih =>
    refine yields_get.bind fun ts _ => .ite (fun _ => yields_pure (by simp)) fun _ => ?_
    refine yields.bind fun x good => ih.bind fun xs rest => ?_
    exact yields_pure (List.forall_mem_cons.2 ⟨good, rest⟩)

theorem yields_someToEnd : Yields (someToEnd item) fun xs => ∀ x ∈ xs, P x :=
  yields_get.bind fun _ _ => (yields_itemsToEnd yields _).bind fun _ good =>
    (yields_guard _).bind fun _ _ => yields_pure good

end Repetition

/-- What is read from a text has what the reader yields. -/
theorem of_read? {r : Reader α} (yields : Yields r P) {text : String} {x : α} (h : read? r text = some x) :
    P x := by
  obtain ⟨ts, scanned, h⟩ := Option.bind_eq_some_iff.1 h
  obtain ⟨⟨y, rest⟩, read, h⟩ := Option.bind_eq_some_iff.1 h
  obtain ⟨-, -, same⟩ := Option.bind_eq_some_iff.1 h
  have good := (yields ts y rest (Token.isLegible_of_scan scanned) read).1
  exact Option.some.inj same ▸ good

/-! ### Constants -/

theorem isWellNamed_namedConstant {s : String} (named : Token.isName s = true) :
    (namedConstant s).isWellNamed = true := by
  unfold namedConstant
  split
  · rfl
  · rfl
  · rfl
  · next noNull noTrue noFalse =>
    simp [Value.isWellNamed, Value.reserved, named]
    exact ⟨noNull, noTrue, noFalse⟩

theorem yields_boundedValue (bound : Nat) :
    Yields (boundedValue (fun _ => none) bound) fun v => v.isWellNamed = true := by
  induction bound with
  | zero => exact yields_failure
  | succ bound ih =>
    rw [boundedValue]
    refine yields_token.bind fun t legible => ?_
    split
    · exact yields_pure rfl
    · exact yields_pure rfl
    · exact yields_pure rfl
    · exact yields_pure (isWellNamed_namedConstant legible)
    · exact yields_name.bind fun _ _ => yields_failure
    · refine (yields_upTo ih _).bind fun items good => yields_pure ?_
      exact Value.itemsWellNamed_iff.2 good
    · have field : Yields (do
            let field ← name
            mark ':'
            return (field, ← boundedValue (fun _ => none) bound) : Reader (String × Value)) fun f =>
          Token.isName f.1 = true ∧ f.2.isWellNamed = true :=
        yields_name.bind fun _ named => (yields_expect _).bind fun _ _ => ih.bind fun _ good =>
          yields_pure ⟨named, good⟩
      refine (yields_upTo field _).bind fun fields good => yields_pure ?_
      exact Value.fieldsWellNamed_iff.2 good
    · exact yields_failure

theorem yields_constant : Yields constant fun v => v.isWellNamed = true :=
  yields_get.bind fun _ _ => yields_boundedValue _

theorem yields_boundedTypeRef (bound : Nat) : Yields (boundedTypeRef bound) fun t => t.isLegible = true := by
  induction bound with
  | zero => exact yields_failure
  | succ bound ih =>
    rw [boundedTypeRef]
    refine yields_token.bind fun t legible => ?_
    split
    · exact (yields_accept _).bind fun _ _ => yields_pure legible
    · exact ih.bind fun _ good => (yields_expect _).bind fun _ _ => (yields_accept _).bind fun _ _ =>
        yields_pure good
    · exact yields_failure

theorem yields_typeRef : Yields typeRef fun t => t.isLegible = true :=
  yields_get.bind fun _ _ => yields_boundedTypeRef _

theorem yields_directive : Yields (directive constant) fun d => d.isLegible Value.isWellNamed = true := by
  have argument : Yields (do
        let argument ← name
        mark ':'
        return (argument, ← constant) : Reader (String × Value)) fun a =>
      Value.isLegibleArgument Value.isWellNamed a = true :=
    yields_name.bind fun _ named => (yields_expect _).bind fun _ _ => yields_constant.bind fun _ good =>
      yields_pure (by simp [Value.isLegibleArgument, named, good])
  refine (yields_expect _).bind fun _ _ => yields_name.bind fun name named => ?_
  refine (yields_optionalBetween argument _ _).bind fun arguments good => yields_pure ?_
  simpa [Directive.isLegible, named] using good

theorem yields_constantDirectives :
    Yields constantDirectives fun ds => ∀ d ∈ ds, d.isLegible Value.isWellNamed = true :=
  yields_whileNext yields_directive _

theorem yields_default? : Yields default? fun d => ∀ v ∈ d, v.isWellNamed = true :=
  (yields_accept _).bind fun _ _ =>
    .ite (fun _ => yields_constant.bind fun v good => yields_pure (by simpa using good))
      fun _ => yields_pure (by simp)

/-! ### Statements -/

theorem yields_inputValueDefinition :
    Yields inputValueDefinition fun v => v.isLegible Value.isWellNamed = true := by
  refine yields_string?.bind fun _ _ => yields_name.bind fun name named => ?_
  refine (yields_expect _).bind fun _ _ => yields_typeRef.bind fun type typed => ?_
  refine yields_default?.bind fun default good => yields_constantDirectives.bind fun directives applied => ?_
  apply yields_pure
  simp only [InputValueDefinition.isLegible, Bool.and_eq_true, Option.all_eq_true, List.all_eq_true]
  exact ⟨⟨⟨named, typed⟩, good⟩, applied⟩

theorem yields_argumentDefinitions :
    Yields argumentDefinitions fun vs => ∀ v ∈ vs, v.isLegible Value.isWellNamed = true :=
  yields_optionalSomeBetween yields_inputValueDefinition _ _

theorem yields_fieldDefinition : Yields fieldDefinition fun f => f.isLegible Value.isWellNamed = true := by
  refine yields_string?.bind fun _ _ => yields_name.bind fun name named => ?_
  refine yields_argumentDefinitions.bind fun arguments good => (yields_expect _).bind fun _ _ => ?_
  refine yields_typeRef.bind fun type typed => yields_constantDirectives.bind fun directives applied => ?_
  apply yields_pure
  simp only [FieldDefinition.isLegible, Bool.and_eq_true, List.all_eq_true]
  exact ⟨⟨⟨named, good⟩, typed⟩, applied⟩

theorem yields_enumValueDefinition :
    Yields enumValueDefinition fun v => v.isLegible Value.isWellNamed = true := by
  have free : Yields enumValueName fun s => Token.isName s = true ∧ s ∉ Value.reserved :=
    yields_name.bind fun s named => (yields_guard _).bind fun _ other => yields_pure ⟨named, by
      simp only [Value.reserved, List.mem_cons, List.not_mem_nil, or_false, not_or] at other ⊢
      tauto⟩
  refine yields_string?.bind fun _ _ => free.bind fun name named => ?_
  refine yields_constantDirectives.bind fun directives applied => yields_pure ?_
  simp only [EnumValueDefinition.isLegible, Bool.and_eq_true, List.all_eq_true, decide_eq_true_eq]
  exact ⟨named, applied⟩

theorem yields_implementedInterfaces :
    Yields implementedInterfaces fun names => ∀ n ∈ names, Token.isName n = true :=
  (yields_accept _).bind fun _ _ =>
    .ite (fun _ => (yields_separated yields_name _).mono fun _ good => good.2)
      fun _ => yields_pure (by simp)

theorem yields_typeAfterName (keyword : String) {name : String} (named : Token.isName name = true)
    (description : Option String) :
    Yields (typeAfterName keyword name description) fun t => t.isLegible Value.isWellNamed = true := by
  have legible {directives : List Directive} {body : TypeBody}
      (applied : ∀ d ∈ directives, d.isLegible Value.isWellNamed = true)
      (good : body.isLegible Value.isWellNamed = true) :
      TypeDefinition.isLegible Value.isWellNamed { name, description, directives, body } = true := by
    simp only [TypeDefinition.isLegible, Bool.and_eq_true, List.all_eq_true]
    exact ⟨⟨named, applied⟩, good⟩
  have body {α : Type} {item : Reader α} {p : α → Bool} (yields : Yields item fun x => p x = true) :
      Yields (optionalSomeBetween '\x7b' '\x7d' item) fun xs => xs.all p = true :=
    (yields_optionalSomeBetween yields _ _).mono fun _ good => List.all_eq_true.2 good
  unfold typeAfterName
  split
  · exact yields_constantDirectives.bind fun _ applied => yields_pure (legible applied rfl)
  · refine yields_implementedInterfaces.bind fun interfaces names => ?_
    refine yields_constantDirectives.bind fun _ applied => (body yields_fieldDefinition).bind fun _ good => ?_
    exact yields_pure (legible applied (by simpa [TypeBody.isLegible, good] using names))
  · refine yields_implementedInterfaces.bind fun interfaces names => ?_
    refine yields_constantDirectives.bind fun _ applied => (body yields_fieldDefinition).bind fun _ good => ?_
    exact yields_pure (legible applied (by simpa [TypeBody.isLegible, good] using names))
  · have members : Yields (separated '|' Reader.name) fun names => ∀ n ∈ names, Token.isName n = true :=
      (yields_separated yields_name _).mono fun _ good => good.2
    refine yields_constantDirectives.bind fun _ applied => (yields_accept _).bind fun _ _ => ?_
    refine .ite (fun _ => ?_) fun _ => ?_
    · exact members.bind fun names good => yields_pure (legible applied (List.all_eq_true.2 good))
    · exact Yields.bind (yields_pure (P := fun names => names = []) rfl) fun names none =>
        yields_pure (legible applied (by simp [TypeBody.isLegible, none]))
  · exact yields_constantDirectives.bind fun _ applied => (body yields_enumValueDefinition).bind fun _ good =>
      yields_pure (legible applied good)
  · exact yields_constantDirectives.bind fun _ applied => (body yields_inputValueDefinition).bind fun _ good =>
      yields_pure (legible applied good)
  · exact yields_failure

theorem yields_rootOperation : Yields rootOperation fun root => Token.isName root.2 = true := by
  refine yields_name.bind fun s _ => ?_
  split
  · exact (yields_expect _).bind fun _ _ => yields_name.bind fun _ named => yields_pure named
  · exact yields_failure

theorem yields_location : Yields location fun _ => True := by
  refine yields_name.bind fun s _ => ?_
  split
  · exact yields_pure trivial
  · exact yields_failure

theorem ordered_ordered (locations : List Location) :
    Location.ordered (Location.ordered locations) = Location.ordered locations := by
  unfold Location.ordered
  apply List.filter_congr
  intro l h
  simp [Location.mem_all]

theorem yields_directiveDefinition (description : Option String) :
    Yields (directiveDefinition description) fun d => d.isLegible Value.isWellNamed = true := by
  refine (yields_expect _).bind fun _ _ => yields_name.bind fun name named => ?_
  refine yields_argumentDefinitions.bind fun arguments good => (yields_accept _).bind fun _ _ => ?_
  refine (yields_expect _).bind fun _ _ => (yields_separated yields_location _).bind fun places some_place => ?_
  apply yields_pure
  have kept : ∀ a ∈ arguments, ArgumentDefinition.isLegible Value.isWellNamed ⟨a.name, a.type, a.default?⟩ = true := by
    intro a h
    have := good a h
    simp only [InputValueDefinition.isLegible, Bool.and_eq_true] at this
    simpa only [ArgumentDefinition.isLegible, Bool.and_eq_true] using this.1
  have some_left : Location.ordered places ≠ [] := by
    obtain ⟨l, h⟩ := List.exists_mem_of_ne_nil places some_place.1
    exact List.ne_nil_of_mem (Location.mem_ordered.2 h)
  simp only [DirectiveDefinition.isLegible, Bool.and_eq_true, List.all_eq_true, decide_eq_true_eq,
    List.forall_mem_map, Bool.not_eq_true', List.isEmpty_eq_false_iff]
  exact ⟨⟨⟨named, kept⟩, some_left⟩, ordered_ordered places⟩

theorem yields_schema {operationTypes : Reader (List (Operation × String))}
    (yields : Yields operationTypes fun roots => ∀ root ∈ roots, Token.isName root.2 = true)
    {f : SchemaDefinition → Statement}
    (same : ∀ s, (f s).isLegible Value.isWellNamed = s.isLegible Value.isWellNamed) :
    Yields (do
      let directives ← constantDirectives
      let operationTypes ← operationTypes
      return f { directives, operationTypes }) fun x => x.isLegible Value.isWellNamed = true := by
  refine yields_constantDirectives.bind fun directives applied => yields.bind fun roots named => yields_pure ?_
  rw [same]
  simp only [SchemaDefinition.isLegible, Bool.and_eq_true, List.all_eq_true]
  exact ⟨applied, named⟩

theorem yields_statement : Yields statement fun x => x.isLegible Value.isWellNamed = true := by
  refine yields_string?.bind fun description _ => yields_name.bind fun keyword _ => ?_
  split
  · refine yields_name.bind fun kind _ => .ite (fun _ => ?_) fun _ => ?_
    · exact yields_schema (yields_optionalBetween yields_rootOperation _ _) fun _ => rfl
    · exact yields_name.bind fun _ named => (yields_typeAfterName _ named _).bind fun _ good => yields_pure good
  · exact yields_schema (f := fun s => .define (.schema s)) (yields_between yields_rootOperation _ _) fun _ => rfl
  · exact (yields_directiveDefinition _).bind fun _ good => yields_pure good
  · exact yields_name.bind fun _ named => (yields_typeAfterName _ named _).bind fun _ good => yields_pure good

end Reader

/-- The statements of a text use names of the grammar only. -/
theorem isLegible_of_readStatements? {text : String} {statements : List Statement}
    (read : readStatements? text = some statements) :
    ∀ x ∈ statements, x.isLegible Value.isWellNamed = true :=
  Reader.of_read? (Reader.yields_someToEnd Reader.yields_statement) read

end Federation.Grammar
