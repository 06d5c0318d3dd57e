import Federation.Grammar.Reader
import Mathlib.Data.List.Basic

/-!
What readers take from tokens in front of others. Each reader has an equation for the tokens that it is
made for, followed by any tokens that do not go on with them.
-/

namespace Federation.Grammar

variable {α β : Type}

/-- The tokens of items with a mark between each two. -/
def Token.separatedBy (separator : Char) (tokens : α → List Token) : List α → List Token
  | [] => []
  | x :: xs => tokens x ++ xs.flatMap fun y => .mark separator :: tokens y

/-- The tokens of items between two marks, none where there is no item. -/
def Token.enclosed (opening closing : Char) (tokens : α → List Token) (xs : List α) : List Token :=
  if xs.isEmpty then [] else .mark opening :: (xs.flatMap tokens ++ [.mark closing])

theorem Token.enclosed_map (opening closing : Char) (tokens : β → List Token) (f : α → β) (xs : List α) :
    enclosed opening closing tokens (xs.map f) = enclosed opening closing (fun x => tokens (f x)) xs := by
  simp [enclosed, List.flatMap_map]

namespace Reader

/-! ### Steps -/

theorem bind_apply (r : Reader α) (f : α → Reader β) (ts : List Token) :
    (r >>= f) ts = (r ts).bind fun read => f read.1 read.2 := rfl

theorem pure_apply (x : α) (ts : List Token) : (pure x : Reader α) ts = some (x, ts) := rfl

theorem get_apply (ts : List Token) : (get : Reader (List Token)) ts = some (ts, ts) := rfl

theorem bind_of_eq {r : Reader α} {ts rest : List Token} {x : α} (h : r ts = some (x, rest))
    (f : α → Reader β) : (r >>= f) ts = f x rest := by
  rw [bind_apply, h]
  rfl

theorem discard_of_eq {r : Reader α} {ts rest : List Token} {x : α} (h : r ts = some (x, rest)) :
    discard r ts = some ((), rest) := by
  change (r >>= fun a => pure (Function.const α PUnit.unit a)) ts = some ((), rest)
  exact bind_of_eq h _

theorem guard_apply {p : Prop} [Decidable p] (holds : p) (ts : List Token) :
    (guard p : Reader Unit) ts = some ((), ts) := by
  rw [guard, if_pos holds]
  rfl

theorem token_cons (t : Token) (rest : List Token) : token (t :: rest) = some (t, rest) := rfl

theorem name_cons (s : String) (rest : List Token) : name (.name s :: rest) = some (s, rest) := rfl

theorem accept_cons (t : Token) (rest : List Token) : accept t (t :: rest) = some (true, rest) := by
  simp [accept]

theorem accept_of_head? {t : Token} {rest : List Token} (other : rest.head? ≠ some t) :
    accept t rest = some (false, rest) := by
  cases rest with
  | nil => rfl
  | cons t' rest =>
    rw [accept, if_neg]
    rintro rfl
    exact other rfl

theorem expect_cons (t : Token) (rest : List Token) : expect t (t :: rest) = some ((), rest) := by
  simp [expect]

theorem isNext_apply (t : Token) (ts : List Token) : isNext t ts = some (decide (ts.head? = some t), ts) := rfl

/-! ### Repetitions -/

/-- One item of a repetition: the tokens that make it up are read as its value in front of tokens with
some property, and tokens that start with the item have the property. -/
structure ReadsItem (item : Reader β) (Before : List Token → Prop) (ts : List Token) (y : β) : Prop where
  read : ∀ later, Before later → item (ts ++ later) = some (y, later)
  some_token : ts ≠ []
  before : ∀ later, Before (ts ++ later)

section Repetition

variable {item : Reader β} {Before : List Token → Prop} {tokens : α → List Token} {f : α → β}
  {xs : List α} {rest : List Token} {bound : Nat}

/-- There are no more items than tokens. -/
theorem length_le_flatMap {tokens : α → List Token} {xs : List α}
    (some_token : ∀ x ∈ xs, tokens x ≠ []) : xs.length ≤ (xs.flatMap tokens).length := by
  induction xs with
  | nil => simp
  | cons x xs ih =>
    rw [List.forall_mem_cons] at some_token
    have := ih some_token.2
    have := List.length_pos_iff.2 some_token.1
    simp only [List.flatMap_cons, List.length_append, List.length_cons]
    omega

theorem before_flatMap (items : ∀ x ∈ xs, ReadsItem item Before (tokens x) (f x))
    (ends : Before rest) : Before (xs.flatMap tokens ++ rest) := by
  cases xs with
  | nil => exact ends
  | cons x xs =>
    rw [List.flatMap_cons, List.append_assoc]
    exact (items x List.mem_cons_self).before _

/-- Items up to a mark are read one by one where none of them starts with that mark. -/
theorem itemsUntil_flatMap {close : Char}
    (items : ∀ x ∈ xs, ReadsItem item Before (tokens x) (f x))
    (unclosed : ∀ x ∈ xs, (tokens x).head? ≠ some (.mark close)) (ends : Before (.mark close :: rest))
    (enough : xs.length < bound) :
    itemsUntil close item bound (xs.flatMap tokens ++ .mark close :: rest) =
      some (xs.map f, rest) := by
  -- Each item takes one from the bound, whatever its length.
  induction xs generalizing bound with
  | nil =>
    obtain ⟨bound, rfl⟩ := Nat.exists_eq_succ_of_ne_zero (Nat.ne_of_gt enough)
    rw [itemsUntil, List.flatMap_nil, List.nil_append]
    exact bind_of_eq (accept_cons _ rest) _
  | cons x xs ih =>
    obtain ⟨bound, rfl⟩ := Nat.exists_eq_succ_of_ne_zero (Nat.ne_of_gt (Nat.zero_lt_of_lt enough))
    rw [List.forall_mem_cons] at items unclosed
    obtain ⟨first, items⟩ := items
    have stays : (tokens x ++ (xs.flatMap tokens ++ .mark close :: rest)).head? ≠
        some (.mark close) := by
      rw [List.head?_append_of_ne_nil _ first.some_token]
      exact unclosed.1
    rw [List.flatMap_cons, List.append_assoc, itemsUntil]
    refine (bind_of_eq (accept_of_head? stays) _).trans ?_
    refine (bind_of_eq (first.read _ (before_flatMap items ends)) _).trans ?_
    exact bind_of_eq (ih items unclosed.2 (Nat.lt_of_succ_lt_succ enough)) _

theorem upTo_flatMap {close : Char}
    (items : ∀ x ∈ xs, ReadsItem item Before (tokens x) (f x))
    (unclosed : ∀ x ∈ xs, (tokens x).head? ≠ some (.mark close)) (ends : Before (.mark close :: rest)) :
    upTo close item (xs.flatMap tokens ++ .mark close :: rest) = some (xs.map f, rest) := by
  refine (bind_of_eq (get_apply _) _).trans (itemsUntil_flatMap items unclosed ends ?_)
  have := length_le_flatMap fun x h => (items x h).some_token
  simp only [List.length_append, List.length_cons]
  omega

theorem someUpTo_flatMap {close : Char}
    (items : ∀ x ∈ xs, ReadsItem item Before (tokens x) (f x))
    (unclosed : ∀ x ∈ xs, (tokens x).head? ≠ some (.mark close)) (ends : Before (.mark close :: rest))
    (some_item : xs ≠ []) :
    someUpTo close item (xs.flatMap tokens ++ .mark close :: rest) = some (xs.map f, rest) := by
  refine (bind_of_eq (upTo_flatMap items unclosed ends) _).trans ?_
  exact bind_of_eq (guard_apply (by simp [some_item]) _) _

/-- Items are read for as long as the next token starts one. -/
theorem itemsWhile_flatMap {start : Token}
    (items : ∀ x ∈ xs, ReadsItem item Before (tokens x) (f x))
    (starts : ∀ x ∈ xs, (tokens x).head? = some start) (ends : Before rest)
    (stops : rest.head? ≠ some start) (enough : xs.length ≤ bound) :
    itemsWhile start item bound (xs.flatMap tokens ++ rest) = some (xs.map f, rest) := by
  induction xs generalizing bound with
  | nil =>
    cases bound with
    | zero => rfl
    | succ bound =>
      rw [itemsWhile, List.flatMap_nil, List.nil_append]
      refine (bind_of_eq (isNext_apply _ _) _).trans ?_
      rw [decide_eq_false stops]
      rfl
  | cons x xs ih =>
    obtain ⟨bound, rfl⟩ := Nat.exists_eq_succ_of_ne_zero (Nat.ne_of_gt (Nat.lt_of_lt_of_le (Nat.succ_pos _) enough))
    rw [List.forall_mem_cons] at items starts
    obtain ⟨first, items⟩ := items
    have goes : (tokens x ++ (xs.flatMap tokens ++ rest)).head? = some start := by
      rw [List.head?_append_of_ne_nil _ first.some_token]
      exact starts.1
    rw [List.flatMap_cons, List.append_assoc, itemsWhile]
    refine (bind_of_eq (isNext_apply _ _) _).trans ?_
    rw [decide_eq_true goes]
    refine (bind_of_eq (first.read _ (before_flatMap items ends)) _).trans ?_
    exact bind_of_eq (ih items starts.2 (Nat.le_of_succ_le_succ enough)) _

theorem whileNext_flatMap {start : Token}
    (items : ∀ x ∈ xs, ReadsItem item Before (tokens x) (f x))
    (starts : ∀ x ∈ xs, (tokens x).head? = some start) (ends : Before rest)
    (stops : rest.head? ≠ some start) :
    whileNext start item (xs.flatMap tokens ++ rest) = some (xs.map f, rest) := by
  refine (bind_of_eq (get_apply _) _).trans (itemsWhile_flatMap items starts ends stops ?_)
  have := length_le_flatMap fun x h => (items x h).some_token
  simp only [List.length_append]
  omega

theorem whileNext_of_head? {start : Token} (stops : rest.head? ≠ some start) :
    whileNext start item rest = some ([], rest) := by
  refine (bind_of_eq (get_apply _) _).trans ?_
  cases rest.length with
  | zero => rfl
  | succ n =>
    refine (bind_of_eq (isNext_apply _ _) _).trans ?_
    rw [decide_eq_false stops]
    rfl

/-- Items with a mark before each are read up to tokens that do not start with the mark. -/
theorem itemsAfter_flatMap {separator : Char}
    (items : ∀ x ∈ xs, ReadsItem item Before (tokens x) (f x))
    (goes : ∀ later, Before (.mark separator :: later)) (ends : Before rest)
    (stops : rest.head? ≠ some (.mark separator)) (enough : xs.length ≤ bound) :
    itemsAfter separator item bound (xs.flatMap (fun x => .mark separator :: tokens x) ++ rest) =
      some (xs.map f, rest) := by
  induction xs generalizing bound with
  | nil =>
    cases bound with
    | zero => rfl
    | succ bound =>
      rw [itemsAfter, List.flatMap_nil, List.nil_append]
      exact bind_of_eq (accept_of_head? stops) _
  | cons x xs ih =>
    obtain ⟨bound, rfl⟩ := Nat.exists_eq_add_of_lt enough
    rw [List.forall_mem_cons] at items
    obtain ⟨first, items⟩ := items
    have before : Before (xs.flatMap (fun x => .mark separator :: tokens x) ++ rest) := by
      cases xs with
      | nil => exact ends
      | cons y ys => exact goes _
    rw [List.flatMap_cons, List.append_assoc, itemsAfter]
    refine (bind_of_eq (accept_cons _ _) _).trans ?_
    refine (bind_of_eq (first.read _ before) _).trans ?_
    exact bind_of_eq (ih items (by omega)) _

end Repetition

section Delimited

variable {item : Reader β} {Before : List Token → Prop} {tokens : α → List Token} {f : α → β}
  {xs : List α} {rest : List Token}

theorem separated_separatedBy {separator : Char}
    (items : ∀ x ∈ xs, ReadsItem item Before (tokens x) (f x))
    (goes : ∀ later, Before (.mark separator :: later)) (ends : Before rest)
    (stops : rest.head? ≠ some (.mark separator)) (some_item : xs ≠ [])
    (starts : ∀ x ∈ xs, (tokens x).head? ≠ some (.mark separator)) :
    separated separator item (Token.separatedBy separator tokens xs ++ rest) =
      some (xs.map f, rest) := by
  cases xs with
  | nil => exact absurd rfl some_item
  | cons x xs =>
    rw [List.forall_mem_cons] at items starts
    obtain ⟨first, items⟩ := items
    have noMark : (tokens x ++ (xs.flatMap (fun y => .mark separator :: tokens y) ++ rest)).head? ≠
        some (.mark separator) := by
      rw [List.head?_append_of_ne_nil _ first.some_token]
      exact starts.1
    have before : Before (xs.flatMap (fun x => .mark separator :: tokens x) ++ rest) := by
      cases xs with
      | nil => exact ends
      | cons y ys => exact goes _
    rw [Token.separatedBy, List.append_assoc, separated]
    -- A separator may lead the list, and the first item does not look like one.
    refine (bind_of_eq (discard_of_eq (accept_of_head? noMark)) _).trans ?_
    refine (bind_of_eq (first.read _ before) _).trans ?_
    refine (bind_of_eq (get_apply _) _).trans ?_
    refine bind_of_eq (itemsAfter_flatMap items goes ends stops ?_) _
    have : xs.length ≤ (xs.flatMap fun y => .mark separator :: tokens y).length := length_le_flatMap (by simp)
    simp only [List.length_append]
    omega

theorem optionalBetween_enclosed {opening closing : Char}
    (items : ∀ x ∈ xs, ReadsItem item Before (tokens x) (f x))
    (unclosed : ∀ x ∈ xs, (tokens x).head? ≠ some (.mark closing))
    (ends : Before (.mark closing :: rest)) (absent : rest.head? ≠ some (.mark opening)) :
    optionalBetween opening closing item (Token.enclosed opening closing tokens xs ++ rest) =
      some (xs.map f, rest) := by
  cases xs with
  | nil => exact bind_of_eq (accept_of_head? absent) _
  | cons x xs =>
    have written : Token.enclosed opening closing tokens (x :: xs) ++ rest =
        .mark opening :: ((x :: xs).flatMap tokens ++ .mark closing :: rest) := by
      simp [Token.enclosed]
    rw [written]
    refine (bind_of_eq (accept_cons _ _) _).trans ?_
    exact upTo_flatMap items unclosed ends

theorem optionalSomeBetween_enclosed {opening closing : Char}
    (items : ∀ x ∈ xs, ReadsItem item Before (tokens x) (f x))
    (unclosed : ∀ x ∈ xs, (tokens x).head? ≠ some (.mark closing))
    (ends : Before (.mark closing :: rest)) (absent : rest.head? ≠ some (.mark opening)) :
    optionalSomeBetween opening closing item (Token.enclosed opening closing tokens xs ++ rest) =
      some (xs.map f, rest) := by
  cases xs with
  | nil => exact bind_of_eq (accept_of_head? absent) _
  | cons x xs =>
    have written : Token.enclosed opening closing tokens (x :: xs) ++ rest =
        .mark opening :: ((x :: xs).flatMap tokens ++ .mark closing :: rest) := by
      simp [Token.enclosed]
    rw [written]
    refine (bind_of_eq (accept_cons _ _) _).trans ?_
    exact someUpTo_flatMap items unclosed ends (List.cons_ne_nil x xs)

theorem itemsToEnd_flatMap {bound : Nat}
    (items : ∀ x ∈ xs, ReadsItem item Before (tokens x) (f x)) (ends : Before [])
    (enough : xs.length ≤ bound) :
    itemsToEnd item bound (xs.flatMap tokens) = some (xs.map f, []) := by
  induction xs generalizing bound with
  | nil => cases bound <;> rfl
  | cons x xs ih =>
    obtain ⟨bound, rfl⟩ := Nat.exists_eq_add_of_lt enough
    rw [List.forall_mem_cons] at items
    obtain ⟨first, items⟩ := items
    have goes : (tokens x ++ xs.flatMap tokens).isEmpty = false := by simp [first.some_token]
    have before : Before (xs.flatMap tokens) := by
      have := before_flatMap items ends
      rwa [List.append_nil] at this
    rw [List.flatMap_cons, itemsToEnd]
    refine (bind_of_eq (get_apply _) _).trans ?_
    rw [goes]
    refine (bind_of_eq (first.read _ before) _).trans ?_
    exact bind_of_eq (ih items (by omega)) _

theorem someToEnd_flatMap (items : ∀ x ∈ xs, ReadsItem item Before (tokens x) (f x))
    (ends : Before []) (some_item : xs ≠ []) :
    someToEnd item (xs.flatMap tokens) = some (xs.map f, []) := by
  refine (bind_of_eq (get_apply _) _).trans ?_
  have enough := length_le_flatMap fun x h => (items x h).some_token
  refine (bind_of_eq (itemsToEnd_flatMap items ends enough) _).trans ?_
  exact bind_of_eq (guard_apply (by simp [some_item]) _) _

/-- A single item may be all there is. -/
theorem someToEnd_one {t : Token} {ts : List Token} {y : β} (read : item (t :: ts) = some (y, [])) :
    someToEnd item (t :: ts) = some ([y], []) := by
  have nothing : itemsToEnd item ts.length [] = some ([], []) := by cases ts.length <;> rfl
  have all : itemsToEnd item (ts.length + 1) (t :: ts) = some ([y], []) := by
    refine (bind_of_eq (get_apply _) _).trans ?_
    refine (bind_of_eq read _).trans ?_
    exact bind_of_eq nothing _
  refine (bind_of_eq (get_apply _) _).trans ?_
  exact bind_of_eq all _

end Delimited

/-- A text is read as what its tokens are read as. -/
theorem read?_of_scan {r : Reader α} {text : String} {ts : List Token} {x : α}
    (scanned : Token.scan text.toList = some ts) (read : r ts = some (x, [])) :
    read? r text = some x := by
  unfold read?
  rw [scanned, Option.bind_eq_bind, Option.bind_some, read]
  rfl

end Reader

end Federation.Grammar
