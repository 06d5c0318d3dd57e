import Federation.Proofs.Authorization.Declaration
import Federation.Proofs.Authorization.Demand
import Mathlib.Data.List.Perm.Basic
import Mathlib.Logic.Function.Basic

/-!
# Accounts

An account is the record of a type up to order. What is written to a ledger is a list of entries, each for one account,
and two lists with the same entries leave the same accounts, or both refuse: entries for one account exchange unless
they give the type different requirements.
-/

namespace Federation.Authorization

/-- A table in which one value is written again, if there is one to write. -/
def writeAt {β : Type} (view : String → Option β) (k : String) (f : Option β → Option β) :
    Option (String → Option β) :=
  (f (view k)).map fun v => Function.update view k (some v)

/-- Two values are written in either order, if those under one key are. -/
theorem writeAt_right_comm {β : Type} {k k' : String} {f g : Option β → Option β}
    (alike : k = k' → ∀ v, (f v).bind (g ∘ some) = (g v).bind (f ∘ some)) (view : String → Option β) :
    (writeAt view k f).bind (writeAt · k' g) = (writeAt view k' g).bind (writeAt · k f) := by
  by_cases same : k = k'
  · subst same
    have both := congrArg (Option.map fun v => Function.update view k (some v)) (alike rfl (view k))
    simpa [writeAt, Option.bind_map, Option.map_bind, Function.comp_def, Function.update_idem] using both
  · have other : k' ≠ k := Ne.symm same
    cases first : f (view k) <;> cases second : g (view k') <;>
      simp [writeAt, first, second, Function.update_of_ne same, Function.update_of_ne other,
        Function.update_comm same]

/-- The record of a type up to order. -/
@[ext]
structure Account where
  coversFields : Bool
  requirement : Demand
  fields : String → Option Demand

namespace Account

def empty : Account := ⟨false, .none, fun _ => none⟩

/-- Writes what is demanded of a field, if that is possible. -/
def writeField (x : Account) (name : String) (f : Demand → Option Demand) : Option Account :=
  (writeAt x.fields name fun d => f (d.getD .none)).map fun fields => { x with fields }

theorem writeField_right_comm {name name' : String} {f g : Demand → Option Demand}
    (alike : ∀ d, (f d).bind g = (g d).bind f) (x : Account) :
    (x.writeField name f).bind (·.writeField name' g) = (x.writeField name' g).bind (·.writeField name f) := by
  have fields : (writeAt x.fields name fun d => f (d.getD .none)).bind (writeAt · name' fun d => g (d.getD .none)) =
      (writeAt x.fields name' fun d => g (d.getD .none)).bind (writeAt · name fun d => f (d.getD .none)) :=
    writeAt_right_comm (fun _ d => alike _) x.fields
  simpa [writeField, Option.bind_map, Option.map_bind, Function.comp_def] using
    congrArg (Option.map fun fields => { x with fields }) fields

end Account

/-- What an entry does with an account. -/
inductive Change
  /-- The type has a record. -/
  | touch
  /-- The type has a requirement that it passes on. -/
  | cover (d : Demand)
  /-- A leaf type is declared to require this. -/
  | ask (d : Demand)
  /-- A field is declared to require this. -/
  | askField (name : String) (d : Demand)
  /-- A field takes this over. -/
  | join (name : String) (d : Demand)
  /-- A host has too many alternatives. -/
  | refuse

namespace Change

def apply (limit : Nat) (x : Account) : Change → Option Account
  | touch => some x
  | cover d => some { x with coversFields := true, requirement := d }
  | ask d => some { x with requirement := x.requirement.accumulate d }
  | askField name d => x.writeField name fun e => some (e.accumulate d)
  | join name d => x.writeField name fun e => e.join? limit d
  | refuse => none

/-- Whether either of two changes may come first. -/
def Exchanges : Change → Change → Prop
  | cover d, cover e => d = e
  | cover _, ask _ | ask _, cover _ => False
  | askField _ _, join _ _ | join _ _, askField _ _ => False
  | _, _ => True

theorem apply_right_comm (limit : Nat) {c c' : Change} (exchanges : c.Exchanges c') (x : Account) :
    (c.apply limit x).bind (c'.apply limit ·) = (c'.apply limit x).bind (c.apply limit ·) := by
  cases c <;> cases c'
  case askField.askField name d name' e =>
    exact x.writeField_right_comm (f := fun r => some (r.accumulate d)) (g := fun r => some (r.accumulate e))
      fun r => congrArg some (r.accumulate_right_comm d e)
  case join.join name d name' e => exact x.writeField_right_comm fun r => r.join?_right_comm limit d e
  case cover.cover d e => rw [show d = e from exchanges]
  case ask.ask d e =>
    exact congrArg (fun r => some { x with requirement := r }) (x.requirement.accumulate_right_comm d e)
  case cover.ask | ask.cover | askField.join | join.askField => exact exchanges.elim
  -- The others change different things or nothing, or refuse.
  all_goals
    first
    | rfl
    | simp [apply, Account.writeField, Option.map_eq_bind, Option.bind_assoc]

end Change

/-- A change of the account of one type. -/
structure Entry where
  owner : String
  change : Change

namespace Entry

variable (limit : Nat)

/-- What the accounts are with one more entry, unless something is refused. -/
def post (accounts? : Option (String → Option Account)) (e : Entry) : Option (String → Option Account) :=
  accounts?.bind fun accounts => writeAt accounts e.owner fun x => e.change.apply limit (x.getD .empty)

/-- Whether either of two entries may come first. -/
def Exchanges (e e' : Entry) : Prop := e.owner = e'.owner → e.change.Exchanges e'.change

theorem post_right_comm {e e' : Entry} (exchanges : e.Exchanges e') (accounts? : Option (String → Option Account)) :
    post limit (post limit accounts? e) e' = post limit (post limit accounts? e') e := by
  cases accounts? with
  | none => rfl
  | some accounts =>
    exact writeAt_right_comm (f := fun x => e.change.apply limit (x.getD .empty))
      (g := fun x => e'.change.apply limit (x.getD .empty))
      (fun same x => Change.apply_right_comm limit (exchanges same) (x.getD .empty)) accounts

theorem foldl_post_none (es : List Entry) : es.foldl (post limit) none = none := by
  induction es with
  | nil => rfl
  | cons e es ih => exact ih

/-- The order of entries that may be exchanged does not matter. -/
theorem foldl_post_perm {es es' : List Entry} (perm : es.Perm es') (exchange : ∀ e ∈ es, ∀ e' ∈ es, e.Exchanges e')
    (accounts? : Option (String → Option Account)) :
    es.foldl (post limit) accounts? = es'.foldl (post limit) accounts? :=
  perm.foldl_eq' (fun e he e' he' accounts? => post_right_comm limit (exchange e he e' he') accounts?) accounts?

end Entry

/-! ## Records and ledgers -/

def Record.account (r : Record) : Account where
  coversFields := r.coversFields
  requirement := r.requirement.demand
  fields name := (r.fields.get? name).map Requirement.demand

@[simp]
theorem Record.account_empty : Record.account .empty = .empty := rfl

theorem Record.account_updateField (r : Record) (name : String) (f : Requirement → Requirement) :
    (r.updateField name f).account =
      { r.account with fields := Function.update r.account.fields name (some (f (r.field name)).demand) } := by
  have fields : (r.updateField name f).account.fields =
      Function.update r.account.fields name (some (f (r.field name)).demand) := by
    funext other
    simp only [account, updateField, Table.get?_upsert, Function.update_apply]
    split <;> rfl
  exact Account.ext rfl rfl fields

theorem Record.fields_account (r : Record) (name : String) :
    (r.account.fields name).getD .none = (r.field name).demand := by
  unfold field Table.getD
  dsimp only [account]
  cases r.fields.get? name <;> rfl

def Records.accounts (records : Records) (typeName : String) : Option Account :=
  (Table.get? records typeName).map Record.account

theorem Records.accounts_update (records : Records) (typeName : String) (f : Record → Record) :
    (records.update typeName f).accounts =
      Function.update records.accounts typeName (some (f (records.of typeName)).account) := by
  funext other
  simp only [accounts, update, Table.get?_upsert, Function.update_apply]
  split <;> rfl

theorem Records.accounts_of (records : Records) (typeName : String) :
    (records.accounts typeName).getD .empty = (records.of typeName).account := by
  unfold accounts of Table.getD
  cases Table.get? records typeName <;> rfl

namespace Ledger

/-- The accounts of a ledger, if no host is over the limit. -/
def accounts? (l : Ledger) : Option (String → Option Account) :=
  if l.overLimit.isEmpty then some l.records.accounts else none

theorem accounts?_eq_none {l : Ledger} {hosts : NameSet} {path : String} (exceeded : l.overLimit = hosts.insert path) :
    l.accounts? = none := by
  rw [accounts?, exceeded]
  exact if_neg (by simp [OrderedSet.isEmpty_iff, OrderedSet.toList_insert_ne_nil])

theorem accounts?_refuse (limit : Nat) (owner path : String) (l : Ledger) :
    accounts? { l with overLimit := l.overLimit.insert path } = Entry.post limit l.accounts? ⟨owner, .refuse⟩ := by
  rw [accounts?_eq_none rfl]
  cases l.accounts? <;> rfl

/-- A record that is changed makes one entry. -/
theorem accounts?_update (limit : Nat) (owner : String) (f : Record → Record) (change : Change) (l l' : Ledger)
    (records : l'.records = l.records.update owner f) (overLimit : l'.overLimit = l.overLimit)
    (applied : change.apply limit (l.records.of owner).account = some (f (l.records.of owner)).account) :
    l'.accounts? = Entry.post limit l.accounts? ⟨owner, change⟩ := by
  unfold accounts?
  rw [overLimit, records, Records.accounts_update]
  split
  · simp [Entry.post, writeAt, Records.accounts_of, applied]
  · rfl

theorem accounts?_conjoinField (limit : Nat) (path owner field : String) (r : Requirement) (l : Ledger) :
    (l.conjoinField limit path owner field r).accounts? =
      Entry.post limit l.accounts? ⟨owner, .join field r.demand⟩ := by
  have joined : (Change.join field r.demand).apply limit (l.records.of owner).account =
      if ((l.records.of owner).field field).fits limit r then
        some ((l.records.of owner).updateField field fun old => old.conjoin limit r).account
      else none := by
    simp only [Change.apply, Account.writeField, writeAt, Record.fields_account, Requirement.join?_demand]
    split <;> simp [Record.account_updateField]
  by_cases room : ((l.records.of owner).field field).fits limit r = true
  · rw [if_pos room] at joined
    exact accounts?_update limit owner (fun record => record.updateField field fun old => old.conjoin limit r) _ l _
      rfl (if_pos room) joined
  · rw [if_neg room] at joined
    have exceeded : (l.conjoinField limit path owner field r).overLimit = l.overLimit.insert path := if_neg room
    rw [accounts?_eq_none exceeded]
    unfold accounts?
    split
    · simp [Entry.post, writeAt, Records.accounts_of, joined]
    · rfl

end Ledger

end Federation.Authorization
