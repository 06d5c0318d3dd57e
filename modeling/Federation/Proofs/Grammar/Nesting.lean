import Federation.Grammar.Selection
import Federation.Proofs.Grammar.Reading

/-!
# Braces

Readers of values, directives and selections take braces in pairs, so the braces of a selection set end where the first
of them is closed again.
-/

namespace Federation.Grammar

namespace Token

/-- How many braces are open after a token, if it closes none that is not open. -/
def nesting? : Nat → Token → Option Nat
  | n, .mark '\x7b' => some (n + 1)
  | 0, .mark '\x7d' => none
  | n + 1, .mark '\x7d' => some n
  | n, _ => some n

/-- Every brace that is opened is closed later, and none is closed before it is opened. -/
def Balanced (ts : List Token) : Prop := ts.foldlM nesting? 0 = some 0

instance (ts : List Token) : Decidable (Balanced ts) := inferInstanceAs (Decidable (_ = _))

theorem eq_close_of_nesting? {n : Nat} {t : Token} (closed : nesting? n t = none) : n = 0 ∧ t = .mark '\x7d' := by
  unfold nesting? at closed
  split at closed <;> simp_all

/-- Tokens with balanced braces are no beginning of others that close a brace more at once. -/
theorem Balanced.not_closed {body later : List Token} (inside : Balanced body) :
    ¬ Balanced (body ++ .mark '\x7d' :: later) := by
  intro whole
  rw [Balanced, List.foldlM_append, inside] at whole
  exact absurd whole nofun

end Token

namespace Reader

variable {α β : Type} {i m : Nat}

/-- The reader takes tokens off the front, and behind them as many braces are open as said. -/
def Nests (r : Reader α) (i : Nat) (j : α → Nat) : Prop :=
  ∀ ts x rest, r ts = some (x, rest) → ∃ used, ts = used ++ rest ∧ used.foldlM Token.nesting? i = some (j x)

/-! ### Steps -/

theorem Nests.bind {r : Reader α} {f : α → Reader β} {j : α → Nat} {k : β → Nat} (first : Nests r i j)
    (next : ∀ x, Nests (f x) (j x) k) : Nests (r >>= f) i k := by
  intro ts y rest read
  obtain ⟨⟨x, later⟩, readFirst, readNext⟩ := Option.bind_eq_some_iff.1 read
  obtain ⟨used, rfl, nests⟩ := first ts x later readFirst
  obtain ⟨used', rfl, nests'⟩ := next x later y rest readNext
  refine ⟨used ++ used', (List.append_assoc ..).symm, ?_⟩
  rw [List.foldlM_append, nests]
  exact nests'

theorem nests_pure {x : α} {j : α → Nat} (level : j x = i) : Nests (pure x) i j := by
  intro ts y rest read
  obtain ⟨rfl, rfl⟩ := Prod.mk.inj (Option.some.inj read)
  exact ⟨[], rfl, congrArg some level.symm⟩

theorem nests_failure {j : α → Nat} : Nests failure i j := by
  intro ts x rest read
  exact nomatch read

theorem nests_get : Nests (get : Reader (List Token)) i fun _ => i := by
  intro ts x rest read
  obtain ⟨-, rfl⟩ := Prod.mk.inj (Option.some.inj read)
  exact ⟨[], rfl, rfl⟩

theorem nests_guard (p : Prop) [Decidable p] : Nests (guard p) i fun _ => i := by
  by_cases holds : p
  · rw [guard, if_pos holds]
    exact nests_pure rfl
  · rw [guard, if_neg holds]
    exact nests_failure

theorem Nests.discard {r : Reader α} (nests : Nests r i fun _ => m) : Nests (discard r) i fun _ => m := by
  change Nests (r >>= fun a => pure (Function.const _ PUnit.unit a)) _ _
  exact nests.bind fun _ => nests_pure rfl

theorem nests_one {t : Token} {rest : List Token} (here : Token.nesting? i t = some m) :
    ∃ used, t :: rest = used ++ rest ∧ used.foldlM Token.nesting? i = some m :=
  ⟨[t], rfl, by rw [List.foldlM_cons, here]; rfl⟩

/-- A token that is looked at decides how many braces are open behind it. -/
theorem nests_token {f : Token → Reader β} {k : β → Nat}
    (next : ∀ t m, Token.nesting? i t = some m → Nests (f t) m k) (closed : f (.mark '\x7d') = failure) :
    Nests (token >>= f) i k := by
  intro ts y rest read
  obtain ⟨⟨t, later⟩, taken, readNext⟩ := Option.bind_eq_some_iff.1 read
  cases ts with
  | nil => exact nomatch taken
  | cons t' ts =>
    obtain ⟨rfl, rfl⟩ := Prod.mk.inj (Option.some.inj taken)
    cases here : Token.nesting? i t' with
    | none =>
      obtain ⟨-, rfl⟩ := Token.eq_close_of_nesting? here
      change f (.mark '\x7d') ts = some (y, rest) at readNext
      -- A brace that closes none that is open is not accepted.
      rw [closed] at readNext
      exact nomatch readNext
    | some m =>
      obtain ⟨used, rfl, nests⟩ := next t' m here ts y rest readNext
      exact ⟨t' :: used, rfl, by rw [List.foldlM_cons, here]; exact nests⟩

theorem eq_cons_of_expect {t : Token} {ts later : List Token} {x : Unit} (read : expect t ts = some (x, later)) :
    ts = t :: later := by
  cases ts with
  | nil => exact nomatch read
  | cons t' ts =>
    rw [expect] at read
    split at read
    · next same =>
      obtain ⟨-, rfl⟩ := Prod.mk.inj (Option.some.inj read)
      rw [same]
    · contradiction

theorem nests_expect {t : Token} (here : Token.nesting? i t = some m) : Nests (expect t) i fun _ => m := by
  intro ts x later read
  obtain rfl := eq_cons_of_expect read
  exact nests_one here

/-- A token that is accepted is taken, and nothing else is. -/
theorem accept_cases {t : Token} {ts later : List Token} {accepted : Bool}
    (looked : accept t ts = some (accepted, later)) :
    accepted = true ∧ ts = t :: later ∨ accepted = false ∧ ts = later := by
  unfold accept at looked
  split at looked
  · obtain ⟨rfl, rfl⟩ := Prod.mk.inj (Option.some.inj looked)
    exact .inr ⟨rfl, rfl⟩
  · split at looked
    · next same =>
      obtain ⟨rfl, rfl⟩ := Prod.mk.inj (Option.some.inj looked)
      exact .inl ⟨rfl, by rw [same]⟩
    · obtain ⟨rfl, rfl⟩ := Prod.mk.inj (Option.some.inj looked)
      exact .inr ⟨rfl, rfl⟩

theorem nests_accept {t : Token} (here : Token.nesting? i t = some m) :
    Nests (accept t) i fun accepted => if accepted then m else i := by
  intro ts accepted later looked
  rcases accept_cases looked with ⟨rfl, rfl⟩ | ⟨rfl, rfl⟩
  · exact nests_one here
  · exact ⟨[], rfl, rfl⟩

theorem nests_isNext (t : Token) : Nests (isNext t) i fun _ => i := by
  intro ts x rest read
  obtain ⟨-, rfl⟩ := Prod.mk.inj (Option.some.inj read)
  exact ⟨[], rfl, rfl⟩

theorem nests_name : Nests name i fun _ => i := by
  intro ts x rest read
  unfold name at read
  split at read
  · obtain ⟨-, rfl⟩ := Prod.mk.inj (Option.some.inj read)
    exact nests_one rfl
  · contradiction

theorem nests_name? : Nests name? i fun _ => i := by
  intro ts x rest read
  unfold name? at read
  split at read
  · obtain ⟨-, rfl⟩ := Prod.mk.inj (Option.some.inj read)
    exact nests_one rfl
  · obtain ⟨-, rfl⟩ := Prod.mk.inj (Option.some.inj read)
    exact ⟨[], rfl, rfl⟩

/-! ### Repetitions -/

section Repetition

variable {item : Reader α} (nests : Nests item i fun _ => i)

include nests

/-- Items up to a mark are balanced, and then the mark comes. -/
theorem exists_of_itemsUntil {close : Char} {bound : Nat} {ts rest : List Token} {xs : List α}
    (read : itemsUntil close item bound ts = some (xs, rest)) :
    ∃ body, ts = body ++ .mark close :: rest ∧ body.foldlM Token.nesting? i = some i := by
  induction bound generalizing ts xs with
  | zero => exact nomatch read
  | succ bound ih =>
    rw [itemsUntil] at read
    obtain ⟨⟨closed, later⟩, looked, next⟩ := Option.bind_eq_some_iff.1 read
    clear read
    rcases accept_cases looked with ⟨rfl, rfl⟩ | ⟨rfl, rfl⟩
    · obtain ⟨-, rfl⟩ := Prod.mk.inj (Option.some.inj next)
      exact ⟨[], rfl, rfl⟩
    · obtain ⟨⟨x, later⟩, readFirst, next⟩ := Option.bind_eq_some_iff.1 next
      obtain ⟨⟨others, later'⟩, readOthers, same⟩ := Option.bind_eq_some_iff.1 next
      obtain ⟨-, rfl⟩ := Prod.mk.inj (Option.some.inj same)
      obtain ⟨used, rfl, inside⟩ := nests _ _ _ readFirst
      obtain ⟨body, rfl, insideOthers⟩ := ih readOthers
      refine ⟨used ++ body, (List.append_assoc ..).symm, ?_⟩
      rw [List.foldlM_append, inside]
      exact insideOthers

theorem exists_of_someUpTo {close : Char} {ts rest : List Token} {xs : List α}
    (read : someUpTo close item ts = some (xs, rest)) :
    xs ≠ [] ∧ ∃ body, ts = body ++ .mark close :: rest ∧ body.foldlM Token.nesting? i = some i := by
  obtain ⟨⟨items, later⟩, readItems, next⟩ := Option.bind_eq_some_iff.1 read
  obtain ⟨⟨_, _⟩, guarded, same⟩ := Option.bind_eq_some_iff.1 next
  obtain ⟨rfl, rfl⟩ := Prod.mk.inj (Option.some.inj same)
  by_cases some_item : (!items.isEmpty) = true
  · rw [guard, if_pos some_item] at guarded
    obtain ⟨-, rfl⟩ := Prod.mk.inj (Option.some.inj guarded)
    exact ⟨by simpa using some_item, exists_of_itemsUntil nests readItems⟩
  · rw [guard, if_neg some_item] at guarded
    exact nomatch guarded

theorem nests_itemsUntil {close : Char} (closes : Token.nesting? i (.mark close) = some m) (bound : Nat) :
    Nests (itemsUntil close item bound) i fun _ => m := by
  intro ts xs rest read
  obtain ⟨body, rfl, inside⟩ := exists_of_itemsUntil nests read
  refine ⟨body ++ [.mark close], by simp, ?_⟩
  rw [List.foldlM_append, inside]
  simp [closes]

theorem nests_upTo {close : Char} (closes : Token.nesting? i (.mark close) = some m) :
    Nests (upTo close item) i fun _ => m :=
  nests_get.bind fun _ => nests_itemsUntil nests closes _

theorem nests_someUpTo {close : Char} (closes : Token.nesting? i (.mark close) = some m) :
    Nests (someUpTo close item) i fun _ => m :=
  (nests_upTo nests closes).bind fun _ => (nests_guard _).bind fun _ => nests_pure rfl

theorem nests_optionalBetween {opening closing : Char} (opens : Token.nesting? m (.mark opening) = some i)
    (closes : Token.nesting? i (.mark closing) = some m) :
    Nests (optionalBetween opening closing item) m fun _ => m := by
  refine (nests_accept opens).bind fun opened => ?_
  cases opened with
  | true => exact nests_upTo nests closes
  | false => exact nests_pure rfl

theorem nests_optionalSomeBetween {opening closing : Char} (opens : Token.nesting? m (.mark opening) = some i)
    (closes : Token.nesting? i (.mark closing) = some m) :
    Nests (optionalSomeBetween opening closing item) m fun _ => m := by
  refine (nests_accept opens).bind fun opened => ?_
  cases opened with
  | true => exact nests_someUpTo nests closes
  | false => exact nests_pure rfl

theorem nests_itemsWhile (start : Token) (bound : Nat) : Nests (itemsWhile start item bound) i fun _ => i := by
  induction bound with
  | zero => exact nests_pure rfl
  | succ bound ih =>
    refine (nests_isNext _).bind fun goes => ?_
    cases goes with
    | true => exact nests.bind fun _ => ih.bind fun _ => nests_pure rfl
    | false => exact nests_pure rfl

theorem nests_whileNext (start : Token) : Nests (whileNext start item) i fun _ => i :=
  nests_get.bind fun _ => nests_itemsWhile nests start _

end Repetition

/-! ### Values and directives -/

theorem nests_boundedValue (meaning? : String → Option Schema.Value) (bound : Nat) :
    Nests (boundedValue meaning? bound) i fun _ => i := by
  -- Items of objects and lists are read inside braces that are open, so the level varies.
  induction bound generalizing i with
  | zero => exact nests_failure
  | succ bound ih =>
    rw [boundedValue]
    refine nests_token (fun t m here => ?_) rfl
    split
    · exact nests_pure (Option.some.inj here)
    · exact nests_pure (Option.some.inj here)
    · exact nests_pure (Option.some.inj here)
    · exact nests_pure (Option.some.inj here)
    · obtain rfl := Option.some.inj here
      refine nests_name.bind fun s => ?_
      cases meaning? s with
      | none => exact nests_failure
      | some value => exact nests_pure rfl
    · obtain rfl := Option.some.inj here
      exact (nests_upTo ih rfl).bind fun _ => nests_pure rfl
    · obtain rfl := Option.some.inj here
      have field : Nests (do
            let field ← name
            mark ':'
            return (field, ← boundedValue meaning? bound) : Reader (String × Schema.Value)) (i + 1) fun _ => i + 1 :=
        nests_name.bind fun _ => (nests_expect rfl).bind fun _ => ih.bind fun _ => nests_pure rfl
      exact (nests_upTo field rfl).bind fun _ => nests_pure rfl
    · exact nests_failure

theorem nests_valueWith (meaning? : String → Option Schema.Value) : Nests (valueWith meaning?) i fun _ => i :=
  nests_get.bind fun _ => nests_boundedValue meaning? _

theorem nests_arguments {value : Reader Schema.Value} (nests : Nests value i fun _ => i) :
    Nests (arguments value) i fun _ => i :=
  nests_optionalBetween (nests_name.bind fun _ => (nests_expect rfl).bind fun _ => nests.bind fun _ => nests_pure rfl)
    rfl rfl

theorem nests_operationDirectives : Nests operationDirectives i fun _ => i :=
  nests_whileNext ((nests_expect rfl).bind fun _ => nests_name.bind fun _ =>
    (nests_arguments (nests_valueWith _)).bind fun _ => nests_pure rfl) _

/-! ### Selections -/

theorem nests_boundedSelection (bound : Nat) : Nests (boundedSelection bound) i fun _ => i := by
  induction bound generalizing i with
  | zero => exact nests_failure
  | succ bound ih =>
    rw [boundedSelection]
    refine nests_token (fun t m here => ?_) rfl
    split
    · obtain rfl := Option.some.inj here
      refine nests_name?.bind fun condition => ?_
      split
      · exact nests_name.discard.bind fun _ => nests_operationDirectives.discard.bind fun _ =>
          (nests_expect rfl).bind fun _ => (nests_someUpTo ih rfl).discard.bind fun _ => nests_pure rfl
      · exact nests_operationDirectives.discard.bind fun _ => nests_pure rfl
      · exact nests_operationDirectives.discard.bind fun _ => (nests_expect rfl).bind fun _ =>
          (nests_someUpTo ih rfl).discard.bind fun _ => nests_pure rfl
    · next first =>
      obtain rfl := Option.some.inj here
      refine (nests_accept rfl).bind fun aliased => ?_
      -- A colon neither opens nor closes a brace.
      rw [ite_self]
      have others (selected : String) : Nests (do
            let arguments ← arguments operationValue
            let directives ← operationDirectives
            let selections ← optionalSomeBetween '\x7b' '\x7d' (boundedSelection bound)
            return .field selected (!arguments.isEmpty) (!directives.isEmpty) selections : Reader Schema.Selection) i
          fun _ => i :=
        (nests_arguments (nests_valueWith _)).bind fun _ => nests_operationDirectives.bind fun _ =>
          (nests_optionalSomeBetween ih rfl rfl).bind fun _ => nests_pure rfl
      cases aliased with
      | true => exact nests_name.bind others
      | false => exact Nests.bind (nests_pure rfl) others
    · exact nests_failure

/-- A selection set is made of some selections between one pair of braces. -/
theorem exists_of_selectionSet {ts rest : List Token} {selections : List Schema.Selection}
    (read : selectionSet ts = some (selections, rest)) :
    selections ≠ [] ∧ ∃ body, ts = .mark '\x7b' :: (body ++ .mark '\x7d' :: rest) ∧ Token.Balanced body := by
  obtain ⟨⟨_, later⟩, opened, inside⟩ := Option.bind_eq_some_iff.1 read
  obtain rfl := eq_cons_of_expect opened
  obtain ⟨some_selection, body, rfl, balanced⟩ := exists_of_someUpTo (nests_boundedSelection later.length) inside
  exact ⟨some_selection, body, rfl, balanced⟩

end Reader

end Federation.Grammar
